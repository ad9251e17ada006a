import Hierarchy.Proofs.FetchedOnce
import Hierarchy.Proofs.RunsCompared

namespace Hierarchy

/-- Whether the third list is made of the entries of the first two, which keep their order. -/
inductive Interleaved {α : Type} : List α → List α → List α → Prop
  | nil : Interleaved [] [] []
  | left (x : α) {xs ys zs : List α} (rest : Interleaved xs ys zs) : Interleaved (x :: xs) ys (x :: zs)
  | right (y : α) {xs ys zs : List α} (rest : Interleaved xs ys zs) : Interleaved xs (y :: ys) (y :: zs)

namespace Interleaved

variable {α : Type} {xs ys zs xs' ys' zs' : List α}

theorem refl (xs : List α) : Interleaved xs [] xs := by
  induction xs with
  | nil => exact .nil
  | cons x xs ih => exact .left x ih

theorem append (h : Interleaved xs ys zs) (h' : Interleaved xs' ys' zs') :
    Interleaved (xs ++ xs') (ys ++ ys') (zs ++ zs') := by
  induction h with
  | nil => exact h'
  | left x _ ih => exact .left x ih
  | right y _ ih => exact .right y ih

theorem insert (xs ys zs : List α) : Interleaved (xs ++ zs) ys (xs ++ (ys ++ zs)) := by
  have hmiddle : Interleaved zs ys (ys ++ zs) := by
    induction ys with
    | nil => exact .refl zs
    | cons y ys ih => exact .right y ih
  exact append (.refl xs) hmiddle

theorem namesAsked_eq {log log' : List Event} {applications : List Application}
    (h : Interleaved log (applications.map .applied) log') : namesAsked log' = namesAsked log := by
  generalize hmore : applications.map Event.applied = more at h
  induction h generalizing applications with
  | nil => rfl
  | left x _ ih =>
    rw [← List.singleton_append, namesAsked_append, ih hmore, ← namesAsked_append]
    rfl
  | right y _ ih =>
    obtain ⟨a, rest, rfl, rfl, hrest⟩ := List.map_eq_cons_iff.mp hmore
    exact ih hrest

end Interleaved

namespace Hook

/-- Whether every run of the hook that completes leaves the type as it was.  A run that fails may do
anything to it. -/
def FailsOrIdles (h : Hook) : Prop := ∀ d t, (h.run d t).failure = none → (h.run d t).left = t

def application (h : Hook) (d : Declaration) (t : ResolvedType) : Application :=
  ⟨h.name, d.name, (h.run d t).notes⟩

def problem? (h : Hook) (d : Declaration) (t : ResolvedType) : Option Problem :=
  (h.run d t).failure.map fun failure => .hookFailed h.name failure.reason

end Hook

namespace Declaration

variable {h : Hook}

theorem runHooks_append (d : Declaration) (hooks more : List Hook) (t : ResolvedType) :
    d.runHooks (hooks ++ more) t =
      let first := d.runHooks hooks t
      let second := d.runHooks more first.type
      ⟨second.type, first.problems ++ second.problems, first.applications ++ second.applications⟩ := by
  induction hooks generalizing t with
  | nil => rfl
  | cons hook rest ih =>
    simp only [List.cons_append, runHooks]
    cases (hook.run d t).outcome with
    | ok t' => simp only [ih, List.cons_append]
    | error failure => simp only [ih, List.cons_append]

theorem runHooks_cons_of_failsOrIdles (hh : h.FailsOrIdles) (d : Declaration) (rest : List Hook)
    (t : ResolvedType) :
    d.runHooks (h :: rest) t =
      let later := d.runHooks rest t
      ⟨later.type, (h.problem? d t).toList ++ later.problems,
        h.application d t :: later.applications⟩ := by
  cases hfailure : (h.run d t).failure with
  | none => simp [runHooks, HookResult.outcome, Hook.problem?, Hook.application, hfailure, hh d t hfailure]
  | some failure => simp [runHooks, HookResult.outcome, Hook.problem?, Hook.application, hfailure]

end Declaration

/-- A type that a hook is run on, with its declaration. -/
structure Handed where
  declaration : Declaration
  type : ResolvedType

namespace Hook

def logged (h : Hook) (runs : List Handed) : List Event :=
  (runs.map fun run => h.application run.declaration run.type).map .applied

def reported (h : Hook) (runs : List Handed) : Report :=
  runs.flatMap fun run => (h.problem? run.declaration run.type).toList.map run.declaration.diagnose

end Hook

/-- Records agree if the second has what the first has, and besides what comes of runs of the hook `h`
on types that `genuine` allows. -/
def Comparison.besides (h : Hook) (genuine : Handed → Prop) : Comparison where
  Agree x y := ∃ runs : List Handed, (∀ run ∈ runs, genuine run) ∧
    Interleaved x.report (h.reported runs) y.report ∧ Interleaved x.log (h.logged runs) y.log
  refl x := ⟨[], by simp, .refl x.report, .refl x.log⟩
  append := by
    rintro _ _ _ _ ⟨runs, hruns, hreport, hlog⟩ ⟨more, hmore, hreport', hlog'⟩
    refine ⟨runs ++ more, List.forall_mem_append.mpr ⟨hruns, hmore⟩, ?_, ?_⟩
    · rw [Hook.reported, List.flatMap_append]
      exact hreport.append hreport'
    · rw [Hook.logged, List.map_append, List.map_append]
      exact hlog.append hlog'

namespace Resolver

open ResolveM

/-- Whether `run` is on a type as a resolver with the hooks `before` puts it together, from the first
candidate for some name. -/
def Hands (settings : Settings) (before : List Hook) (source : Source) (run : Handed) : Prop :=
  (∃ name others, source name = .ok (run.declaration :: others)) ∧
    ∃ supers, run.type =
      (run.declaration.assemble (Resolver.mk settings before).allHooks supers).type

variable {h : Hook} {settings : Settings} {before after : List Hook} {genuine : Handed → Prop}
  {source : Source} {c c' : Cache}

theorem allHooks_append (settings : Settings) (hooks more : List Hook) :
    (Resolver.mk settings (hooks ++ more)).allHooks =
      (Resolver.mk settings hooks).allHooks ++ more :=
  (List.append_assoc _ hooks more).symm

theorem assembleAlike_of_failsOrIdles (hh : h.FailsOrIdles) {d : Declaration}
    (hgenuine : ∀ supers,
      genuine ⟨d, (d.assemble (Resolver.mk settings before).allHooks supers).type⟩) :
    AssembleAlike (.besides h genuine) ⟨settings, before ++ after⟩ ⟨settings, before ++ h :: after⟩
      d d := by
  intro supers
  simp only [Declaration.assemble, allHooks_append, Declaration.runHooks_append,
    Declaration.runHooks_cons_of_failsOrIdles hh, true_and]
  generalize hfirst : d.runHooks (Resolver.mk settings before).allHooks (d.mergedType supers) = first
  generalize d.runHooks after first.type = second
  refine ⟨[⟨d, first.type⟩], ?_, ?_, ?_⟩
  · rw [List.forall_mem_singleton, ← hfirst]
    exact hgenuine supers
  · have hreport := Interleaved.insert
      ((d.adaptationProblems supers.traits ++ first.problems).map d.diagnose)
      ((h.problem? d first.type).toList.map d.diagnose) (second.problems.map d.diagnose)
    simpa [Hook.reported] using hreport
  · have hlog := Interleaved.insert (first.applications.map Event.applied)
      [.applied (h.application d first.type)] (second.applications.map .applied)
    simpa [Hook.logged] using hlog

/-- Following a name comes to the same with a hook that fails or idles. -/
theorem alike_reach_of_failsOrIdles (hh : h.FailsOrIdles)
    (hgenuine : ∀ run, Hands settings before source run → genuine run) (fuel : ℕ) (name : String)
    (hc : c.Alike c') :
    (exec source ((Resolver.mk settings (before ++ after)).reach fuel name) c).Alike
      (.besides h genuine) c c'
      (exec source ((Resolver.mk settings (before ++ h :: after)).reach fuel name) c') := by
  induction fuel generalizing name c c' with
  | zero => exact .silent hc rfl rfl _
  | succ fuel ih =>
    refine FirstAlike.reach ?_ rfl rfl (Comparison.refl _ _) hc
    rcases hsource : source name with error | _ | ⟨d, others⟩
    · exact .failed hsource hsource
    · exact .missing hsource hsource
    · refine .declared hsource hsource (Comparison.refl _ _) ?_ ?_
      · exact .same fun target _ c₁ c₁' hc₁ => ih target hc₁
      · exact assembleAlike_of_failsOrIdles hh fun supers =>
          hgenuine _ ⟨⟨name, others, hsource⟩, supers, rfl⟩

/-- A hook that changes a type only when it fails does not show.  With it and without it, wherever it
stands among the others, requests have the same answers, ask the same questions and leave the same
slots.  What is logged and reported with it is what is logged and reported without it and, in between,
what comes of the runs of the hook: for each run an entry in the log, and for each run that failed one
diagnostic. -/
theorem failing_hook_hidden (settings : Settings) (before after : List Hook) {h : Hook}
    (hh : h.FailsOrIdles) (qs : List Request) :
    let r : Resolver := ⟨settings, before ++ after⟩
    let r' : Resolver := ⟨settings, before ++ h :: after⟩
    r'.answersOver .empty qs = r.answersOver .empty qs ∧
      r'.fetchesOver .empty qs = r.fetchesOver .empty qs ∧
      (r'.cacheAfter qs).slots = (r.cacheAfter qs).slots ∧
      ∃ runs : List Handed,
        (∀ run ∈ runs, ∃ q ∈ qs, Hands settings before q.source run) ∧
        Interleaved (r.eventsOver .empty qs) (h.logged runs) (r'.eventsOver .empty qs) ∧
        Interleaved (r.cacheAfter qs).report (h.reported runs) (r'.cacheAfter qs).report := by
  intro r r'
  have hserve : ServeAlike (.besides h fun run => ∃ q ∈ qs, Hands settings before q.source run)
      r r' .empty .empty qs qs := by
    refine serveAlike_of_reach (List.forall₂_same.mpr fun q hq c c' hc => ?_) (.refl .empty)
    exact alike_reach_of_failsOrIdles hh (fun run hrun => ⟨q, hq, hrun⟩) _ _ hc
  obtain ⟨ds, ds', hds, hds', runs, hruns, hreport, hlog⟩ := hserve.records
  obtain rfl : (r.cacheAfter qs).report = ds := hds
  obtain rfl : (r'.cacheAfter qs).report = ds' := hds'
  refine ⟨hserve.answers_eq.symm, ?_, hserve.cache.slots_eq.symm, runs, hruns, hlog, hreport⟩
  rw [← namesAsked_eventsOver, ← namesAsked_eventsOver]
  exact hlog.namesAsked_eq

def spoiler : Hook where
  name := "spoiler"
  run d t :=
    if d.name = "B" then
      ⟨["spoiled"], { t with name := "Spoiled", parent := none }, some (.crashed none)⟩
    else ⟨[], t, none⟩

def threeClasses : Source := fun name =>
  if name = "A" then .ok [(Declaration.ofName .classType "A").withParent "B"]
  else if name = "B" then .ok [(Declaration.ofName .classType "B").withParent "C"]
  else .ok [.ofName .classType name]

theorem failing_hook_hidden_spoiler :
    let qs : List Request := [⟨threeClasses, "A"⟩, ⟨threeClasses, "B"⟩]
    let r' : Resolver := ⟨.standard, [spoiler]⟩
    r'.answersOver .empty qs = standard.answersOver .empty qs ∧
      (r'.cacheAfter qs).slots = (standard.cacheAfter qs).slots ∧
      (r'.cacheAfter qs).report = [⟨"B", none, .hookFailed "spoiler" "panicked"⟩] ∧
      (standard.cacheAfter qs).report = [] := by
  intro qs r'
  have hspoiler : spoiler.FailsOrIdles := by
    intro d t
    simp only [spoiler]
    split
    · exact nofun
    · exact fun _ => rfl
  obtain ⟨hanswers, -, hslots, -⟩ := failing_hook_hidden .standard [] [] hspoiler qs
  exact ⟨hanswers, hslots, by decide +kernel, by decide +kernel⟩

end Resolver

end Hierarchy
