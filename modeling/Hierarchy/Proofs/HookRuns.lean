import Hierarchy.Proofs.AssembledTypes
import Hierarchy.Proofs.FetchedOnce

namespace Hierarchy

open Relation

/-- Whether a log consists of questions and of what the hooks did while these types were put together,
in this order and with nothing between the runs on one type. -/
inductive Staged : List Event → List Assembly → Prop
  | nil : Staged [] []
  | asked (name : String) {log : List Event} {stages : List Assembly} (rest : Staged log stages) :
      Staged (.fetched name :: log) stages
  | applied (stage : Assembly) {log : List Event} {stages : List Assembly}
      (rest : Staged log stages) :
      Staged (stage.applications.map .applied ++ log) (stage :: stages)

namespace Staged

variable {log log' : List Event} {stages stages' : List Assembly}

theorem append (h : Staged log stages) (h' : Staged log' stages') :
    Staged (log ++ log') (stages ++ stages') := by
  induction h with
  | nil => exact h'
  | asked name _ ih => exact .asked name ih
  | applied stage _ ih =>
    rw [List.append_assoc]
    exact .applied stage ih

theorem single (stage : Assembly) : Staged (stage.applications.map .applied) [stage] := by
  simpa using Staged.applied stage .nil

end Staged

namespace Declaration

variable {d : Declaration} {t last : ResolvedType} {hooks : List Hook}
  {applications : List Application} {problems : List Problem}

/-- Hooks run one after another on the type of `d`, from `t` to `last`.  Each is run once, on the type
that the hooks before it have left, and its run is logged with the notes it made.  A run that completes
hands on the type as it left it; one that fails is reported and hands on the type as it found it. -/
inductive HooksRun (d : Declaration) : ResolvedType → List Hook → List Application → List Problem →
    ResolvedType → Prop
  | nil (t : ResolvedType) : HooksRun d t [] [] [] t
  | completed {t last : ResolvedType} {hook : Hook} {hooks : List Hook}
      {applications : List Application} {problems : List Problem}
      (completes : (hook.run d t).failure = none)
      (rest : HooksRun d (hook.run d t).left hooks applications problems last) :
      HooksRun d t (hook :: hooks) (⟨hook.name, d.name, (hook.run d t).notes⟩ :: applications)
        problems last
  | failed {t last : ResolvedType} {hook : Hook} {hooks : List Hook}
      {applications : List Application} {problems : List Problem} {failure : HookFailure}
      (fails : (hook.run d t).failure = some failure)
      (rest : HooksRun d t hooks applications problems last) :
      HooksRun d t (hook :: hooks) (⟨hook.name, d.name, (hook.run d t).notes⟩ :: applications)
        (.hookFailed hook.name failure.reason :: problems) last

theorem hooksRun_runHooks (d : Declaration) (hooks : List Hook) (t : ResolvedType) :
    d.HooksRun t hooks (d.runHooks hooks t).applications (d.runHooks hooks t).problems
      (d.runHooks hooks t).type := by
  induction hooks generalizing t with
  | nil => exact .nil t
  | cons hook rest ih =>
    cases hfailure : (hook.run d t).failure with
    | none =>
      simp only [runHooks, HookResult.outcome, hfailure]
      exact .completed hfailure (ih _)
    | some failure =>
      simp only [runHooks, HookResult.outcome, hfailure]
      exact .failed hfailure (ih t)

theorem HooksRun.map_hook_eq (h : d.HooksRun t hooks applications problems last) :
    applications.map Application.hook = hooks.map Hook.name := by
  induction h with
  | nil => rfl
  | completed _ _ ih | failed _ _ ih => rw [List.map_cons, List.map_cons, ih]

theorem HooksRun.subject_eq (h : d.HooksRun t hooks applications problems last) :
    ∀ x ∈ applications, x.subject = d.name := by
  induction h with
  | nil => simp
  | completed _ _ ih | failed _ _ ih => exact List.forall_mem_cons.mpr ⟨rfl, ih⟩

end Declaration

/-- Whether every type comes after all that it is linked to. -/
def SupertypesFirst (stages : List Assembly) : Prop :=
  ∀ before stage after, stages = before ++ stage :: after →
    ∀ s, stage.type.Links s → ∃ earlier ∈ before, earlier.type = s

namespace SupertypesFirst

variable {stages : List Assembly} {stage : Assembly}

theorem concat (h : SupertypesFirst stages)
    (hlinks : ∀ s, stage.type.Links s → ∃ earlier ∈ stages, earlier.type = s) :
    SupertypesFirst (stages ++ [stage]) := by
  intro before other after heq s hs
  rcases List.eq_nil_or_concat after with rfl | ⟨after, last, rfl⟩
  · obtain ⟨rfl, hother⟩ := List.append_inj' heq rfl
    rw [← List.singleton_inj.mp hother] at hs
    exact hlinks s hs
  · have heq' : stages ++ [stage] = (before ++ other :: after) ++ [last] := by simpa using heq
    exact h before other after (List.append_inj' heq' rfl).1 s hs

theorem exists_of_links (h : SupertypesFirst stages) (hstage : stage ∈ stages) {s : ResolvedType}
    (hs : ReflTransGen ResolvedType.Links stage.type s) : ∃ other ∈ stages, other.type = s := by
  induction hs with
  | refl => exact ⟨stage, hstage, rfl⟩
  | tail _ hlink ih =>
    obtain ⟨other, hother, rfl⟩ := ih
    obtain ⟨before, after, rfl⟩ := List.append_of_mem hother
    obtain ⟨earlier, hearlier, rfl⟩ := h before other after rfl _ hlink
    exact ⟨earlier, List.mem_append_left _ hearlier, rfl⟩

end SupertypesFirst

namespace Cache

variable {r : Resolver} {source : Source} {c c' : Cache} {key : TypeKey} {stages : List Assembly}
  {stage : Assembly}

/-- Whether the types that the cache holds are those put together at these stages, each once, each from
a first candidate and each after all that it is linked to. -/
structure StagedBy (c : Cache) (r : Resolver) (source : Source) (stages : List Assembly) : Prop where
  nodup : (stages.map fun stage => stage.type.key).Nodup
  held_iff : ∀ k t, c.slots.get? k = some (.done (some t)) ↔
    t.key = k ∧ ∃ stage ∈ stages, stage.type = t
  ordered : SupertypesFirst stages
  made : ∀ stage ∈ stages, ∃ name d others supers, source name = .ok (d :: others) ∧
    d.name = stage.type.name ∧ stage = d.assemble r.allHooks supers

theorem stagedBy_empty : Cache.empty.StagedBy r source [] where
  nodup := List.nodup_nil
  held_iff k t := by simp [Cache.empty]
  ordered before stage after h := by simp at h
  made stage h := by cases h

theorem StagedBy.of_held (h : c.StagedBy r source stages)
    (hheld : ∀ k t, c'.slots.get? k = some (.done (some t)) ↔
      c.slots.get? k = some (.done (some t))) : c'.StagedBy r source stages :=
  { h with held_iff := fun k t => (hheld k t).trans (h.held_iff k t) }

theorem StagedBy.start (h : c.StagedBy r source stages) (hnew : c.slots.get? key = none) :
    (c.start key).StagedBy r source stages :=
  h.of_held fun _ _ => ⟨done_of_start, fun hk => (Extends.done_start hnew hk).2⟩

theorem StagedBy.settle_none (h : c.StagedBy r source stages) (hunknown : ¬ c.Knows key) :
    (c.settle key none).StagedBy r source stages := by
  apply h.of_held
  intro k t
  by_cases hk : key = k
  · subst hk
    have hnot : c.slots.get? key ≠ some (.done (some t)) := fun heq => hunknown ⟨_, heq⟩
    simp [settle, hnot]
  · simp [settle, OrderedMap.get?_insert, hk]

theorem StagedBy.settle (h : c.StagedBy r source stages) (hunknown : ¬ c.Knows stage.type.key)
    (hlinks : ∀ s, stage.type.Links s → ∃ earlier ∈ stages, earlier.type = s)
    (hmade : ∃ name d others supers, source name = .ok (d :: others) ∧
      d.name = stage.type.name ∧ stage = d.assemble r.allHooks supers) :
    (c.settle stage.type.key (some stage.type)).StagedBy r source (stages ++ [stage]) where
  nodup := by
    rw [List.map_append, List.map_singleton, ← List.concat_eq_append]
    apply List.Nodup.concat _ h.nodup
    intro hmem
    obtain ⟨other, hother, hkey⟩ := List.mem_map.mp hmem
    exact hunknown ⟨_, (h.held_iff _ _).mpr ⟨hkey, other, hother, rfl⟩⟩
  held_iff k t := by
    constructor
    · intro hk
      rcases done_of_settle hk with ⟨hkey, heq⟩ | hk
      · obtain rfl := Option.some.inj heq
        exact ⟨hkey, stage, by simp, rfl⟩
      · obtain ⟨hkey, other, hother, heq⟩ := (h.held_iff k t).mp hk
        exact ⟨hkey, other, List.mem_append_left _ hother, heq⟩
    · rintro ⟨rfl, other, hother, rfl⟩
      rcases List.mem_append.mp hother with hother | hother
      · have hheld := (h.held_iff other.type.key other.type).mpr ⟨rfl, other, hother, rfl⟩
        have hne : stage.type.key ≠ other.type.key := by
          intro heq
          rw [heq] at hunknown
          exact hunknown ⟨_, hheld⟩
        simpa [Cache.settle, OrderedMap.get?_insert, hne] using hheld
      · simp [Cache.settle, List.mem_singleton.mp hother]
  ordered := h.ordered.concat hlinks
  made := by
    intro other hother
    rcases List.mem_append.mp hother with hother | hother
    · exact h.made other hother
    · rw [List.mem_singleton.mp hother]
      exact hmade

theorem StagedBy.mem_keys_iff (h : c.StagedBy r source stages) :
    key ∈ (stages.map fun stage => stage.type.key) ↔
      ∃ t, c.slots.get? key = some (.done (some t)) := by
  simp only [h.held_iff, List.mem_map]
  constructor
  · rintro ⟨stage, hstage, hkey⟩
    exact ⟨stage.type, hkey, stage, hstage, rfl⟩
  · rintro ⟨_, hkey, stage, hstage, rfl⟩
    exact ⟨stage, hstage, hkey⟩

end Cache

namespace Resolver

open ResolveM

variable {r : Resolver} {source : Source} {c c' : Cache} {name : String} {stack : List TypeKey}

/-- Whether work that went from `c` to `c'` put types together as its log tells, the types in `found`
among those there are then.  Nothing is said of work that cut an edge. -/
def Stages (r : Resolver) (source : Source) (c : Cache) (log : List Event)
    (found : Set ResolvedType) (c' : Cache) : Prop :=
  c'.cuts = c.cuts → ∀ stages, c.StagedBy r source stages →
    ∃ more, Staged log more ∧ c'.StagedBy r source (stages ++ more) ∧
      ∀ t ∈ found, ∃ stage ∈ stages ++ more, stage.type = t

variable {log log' : List Event} {found found' : Set ResolvedType}

theorem Stages.of_held (hlog : Staged log [])
    (hheld : ∀ k t, c'.slots.get? k = some (.done (some t)) ↔
      c.slots.get? k = some (.done (some t)))
    (hfound : ∀ t ∈ found, ∃ k, c.slots.get? k = some (.done (some t))) :
    r.Stages source c log found c' := by
  intro _ stages h
  refine ⟨[], hlog, by simpa using h.of_held hheld, fun t ht => ?_⟩
  obtain ⟨k, hk⟩ := hfound t ht
  simpa using ((h.held_iff k t).mp hk).2

theorem Stages.trans {c'' : Cache} (h : r.Stages source c log found c')
    (h' : r.Stages source c' log' found' c'') (hle : c.cuts ≤ c'.cuts) (hle' : c'.cuts ≤ c''.cuts) :
    r.Stages source c (log ++ log') (found ∪ found') c'' := by
  intro hcuts stages hc
  obtain ⟨more, hlog, hmore, hfound⟩ := h (by omega) stages hc
  obtain ⟨more', hlog', hmore', hfound'⟩ := h' (by omega) _ hmore
  refine ⟨more ++ more', hlog.append hlog', by rwa [List.append_assoc] at hmore', ?_⟩
  rw [← List.append_assoc]
  rintro t (ht | ht)
  · obtain ⟨stage, hstage, heq⟩ := hfound t ht
    exact ⟨stage, List.mem_append_left _ hstage, heq⟩
  · exact hfound' t ht

theorem Stages.of_slots {c'' : Cache} (h : r.Stages source c log found c')
    (hslots : c''.slots = c'.slots) (hcuts : c''.cuts = c'.cuts) (hsub : found' ⊆ found) :
    r.Stages source c log found' c'' := by
  intro heq stages hc
  obtain ⟨more, hlog, hmore, hfound⟩ := h (hcuts ▸ heq) stages hc
  exact ⟨more, hlog, hmore.of_held (by simp [hslots]), fun t ht => hfound t (hsub ht)⟩

theorem Stages.start (hnew : c.slots.get? (.ofName name) = none) (ds : Report) :
    r.Stages source c [.fetched name] ∅ ((c.start (.ofName name)).addAll ds) := by
  intro _ stages hc
  refine ⟨[], .asked name .nil, ?_, by simp⟩
  rw [List.append_nil]
  exact (hc.start hnew).of_held fun _ _ => Iff.rfl

theorem Stages.conclude {d : Declaration} {others : List Declaration} {supers : Supertypes}
    (h : r.Stages source c log found c') (hs : c'.OnStack (.ofName name :: stack))
    (hsource : source name = .ok (d :: others))
    (hkey : d.key = .ofName name)
    (hshape : (d.mergedType supers).SameShape (d.assemble r.allHooks supers).type)
    (hlinks : ∀ s, (d.mergedType supers).Links s →
      ∃ t ∈ found, ReflTransGen ResolvedType.Links t s) :
    let stage := d.assemble r.allHooks supers
    r.Stages source c (log ++ stage.applications.map .applied) {t | Edge.found stage.type = .found t}
      (c'.conclude c.cuts (.ofName name) (some stage.type)) := by
  intro stage hcuts stages hc
  rw [Cache.cuts_conclude] at hcuts
  obtain ⟨more, hlog, hmore, hfound⟩ := h hcuts stages hc
  have htype : stage.type.key = .ofName name := hshape.key_eq.trans hkey
  have hunknown : ¬ c'.Knows stage.type.key := htype ▸ hs.not_knows List.mem_cons_self
  have hstaged : (c'.settle stage.type.key (some stage.type)).StagedBy r source
      (stages ++ more ++ [stage]) := by
    apply hmore.settle hunknown
    · intro s hlink
      obtain ⟨t, ht, hts⟩ := hlinks s ((hshape.links_iff s).mp hlink)
      obtain ⟨other, hother, rfl⟩ := hfound t ht
      exact hmore.ordered.exists_of_links hother hts
    · exact ⟨name, d, others, supers, hsource, hshape.name_eq.symm, rfl⟩
  refine ⟨more ++ [stage], hlog.append (.single stage), ?_, ?_⟩
  · rw [Cache.conclude, if_neg (by omega), ← htype, ← List.append_assoc]
    exact hstaged
  · intro t ht
    exact ⟨stage, by simp, Edge.found.inj ht⟩

/-- Following a name puts types together as the log tells. -/
theorem stages_reach (hhooks : ∀ hook ∈ r.hooks, hook.KeepsShape) (hkeyed : source.Keyed) (fuel : ℕ)
    (name : String) {c : Cache} {stack : List TypeKey} (hs : c.OnStack stack) :
    (exec source (r.reach fuel name) c).Meets
      (fun edge c' log => r.Stages source c log {t | edge = .found t} c') (fun _ _ _ => True) := by
  -- The stages of the supertypes are all behind by the time a type is put together, and its own stage
  -- goes to the end.
  induction fuel generalizing name c stack with
  | zero => trivial
  | succ fuel ih =>
    rw [exec_reach_succ]
    refine meets_step ?done ?cycle ?tooDeep ?refused ?missing ?built
    case done =>
      intro v hslot
      apply Stages.of_held .nil fun _ _ => Iff.rfl
      intro t ht
      obtain rfl : v = some t := Edge.ofResult_injective ht
      exact ⟨_, hslot⟩
    case cycle => exact fun _ => .of_held .nil (fun _ _ => Iff.rfl) (by simp)
    case tooDeep => exact fun _ _ => .of_held .nil (fun _ _ => Iff.rfl) (by simp)
    case refused => exact fun _ _ _ _ => trivial
    case missing =>
      intro hnew _ _ _ stages hc
      have hunknown : ¬ (c.start (.ofName name)).Knows (.ofName name) :=
        (hs.start hnew).not_knows List.mem_cons_self
      exact ⟨[], .asked name .nil, by simpa using (hc.start hnew).settle_none hunknown, by simp⟩
    case built =>
      intro hnew _ d others hsource
      have hedges : EdgesKeep r source (r.reach fuel) d (.ofName name)
          (fun answers c' log => c'.OnStack (.ofName name :: stack) ∧ c.cuts ≤ c'.cuts ∧
            r.Stages source c (.fetched name :: log) {t | some t ∈ answers.map Prod.snd} c')
          (fun _ _ _ => True) := by
        rintro relation answers target c₁ log - ⟨hs₁, hle₁, h₁⟩
        have hext := Outcome.meets_of_cache (extends_reach r source fuel target c₁)
        refine (hext.and (ih target hs₁)).imp ?_ (fun _ _ _ _ => trivial)
        rintro edge c₂ log' ⟨hext, h₂⟩
        have hlinked := extends_linked (r := r) d (.ofName name) relation target edge c₂
        have hle := hext.cuts_le
        refine ⟨hlinked.onStack (hext.onStack hs₁), by rw [cuts_linked]; omega, ?_⟩
        apply (h₁.trans h₂ hle₁ hle).of_slots slots_linked cuts_linked
        intro t ht
        -- A type that is supplied has been supplied before or found by following the edge.
        rw [Set.mem_ofPred_eq, List.map_append, List.mem_append, List.map_singleton,
          List.mem_singleton] at ht
        exact ht.imp_right fun heq => eq_found_of_linked heq.symm
      refine (hedges.supertypes _ ?_).imp ?_ (fun _ _ _ _ => trivial)
      · refine ⟨(Cache.Extends.addAll _ _).onStack (hs.start hnew), Nat.le_refl _, ?_⟩
        exact (Stages.start hnew _).of_slots rfl rfl (by simp)
      · rintro supers c' log ⟨parents, interfaces, traits, -, -, -, rfl, hs', -, h'⟩
        have hshape := d.sameShape_assemble (forall_allHooks hhooks) (.ofAnswers
          (parents.map Prod.snd) (interfaces.map Prod.snd) (traits.map Prod.snd))
        have hkey : d.key = .ofName name := hkeyed name _ hsource d List.mem_cons_self
        have hreported (ds : Report) : r.Stages source c (.fetched name :: log)
            {t | some t ∈ (parents ++ interfaces ++ traits).map Prod.snd} (c'.addAll ds) :=
          h'.of_slots rfl rfl subset_rfl
        apply (hreported _).conclude ((Cache.Extends.addAll c' _).onStack hs') hsource hkey hshape
        intro s hlink
        simpa using Declaration.exists_answer_of_links hlink

theorem Covers.held_iff {fetched : List String} (h : Covers r source [name] .empty fetched c)
    (huniform : source.Uniform) {k : TypeKey} :
    (∃ t, c.slots.get? k = some (.done (some t))) ↔
      source.Reaches (.ofName name) k ∧ source.Declares k := by
  constructor
  · rintro ⟨t, ht⟩
    have hmem := h.onStack.knows_iff.mp ⟨_, ht⟩
    rw [h.keys_eq] at hmem
    obtain ⟨asked, hasked, rfl⟩ := List.mem_map.mp (by simpa [Cache.empty] using hmem)
    obtain ⟨name', hname', hreach⟩ := h.reaches asked hasked
    rw [List.mem_singleton.mp hname'] at hreach
    exact ⟨hreach, (h.explored.isSome_iff_declares huniform ht).mp rfl⟩
  · rintro ⟨hreach, hdeclared⟩
    obtain ⟨v, hv⟩ := h.explored.knows_of_reaches h.onStack
      (h.knows name (List.mem_singleton_self _)) hreach
    obtain ⟨t, rfl⟩ := Option.isSome_iff_exists.mp
      ((h.explored.isSome_iff_declares huniform hv).mpr hdeclared)
    exact ⟨t, hv⟩

/-- Whether a log and the cache at its end show that the hooks were run on the types that `name`
reaches, in the order of these stages. -/
structure RunsHooksOnce (r : Resolver) (source : Source) (name : String) (log : List Event)
    (c : Cache) (stages : List Assembly) : Prop where
  staged : Staged log stages
  /-- At each stage a declared type is put together and every hook is run on it once, in order, the
  first on the merged type and the last leaving the type of the stage. -/
  hooks : ∀ stage ∈ stages, ∃ asked d others supers problems, source asked = .ok (d :: others) ∧
    stage = d.assemble r.allHooks supers ∧
    d.HooksRun (d.mergedType supers) r.allHooks stage.applications problems stage.type ∧
    stage.problems = d.adaptationProblems supers.traits ++ problems ∧
    stage.applications.map Application.hook = r.allHooks.map Hook.name ∧
    ∀ x ∈ stage.applications, x.subject = stage.type.name
  nodup : (stages.map fun stage => stage.type.key).Nodup
  mem_iff : ∀ k, k ∈ (stages.map fun stage => stage.type.key) ↔
    source.Reaches (.ofName name) k ∧ source.Declares k
  /-- The type that the hooks leave is the one that is kept. -/
  held : ∀ stage ∈ stages, c.slots.get? stage.type.key = some (.done (some stage.type))
  supertypesFirst : SupertypesFirst stages

/-- A request on an empty cache, with room for all that it reaches, runs every hook exactly once on
each declared type that it reaches and on no other type.  The hooks of one type are run together, and
after those of its parent, its interfaces and its traits. -/
theorem hooks_run_once (r : Resolver) (es : List Codebase.Edit) (name : String)
    (hhooks : ∀ hook ∈ r.hooks, hook.KeepsShape)
    (hfew : {k | (Codebase.afterEdits es).source.Reaches (.ofName name) k}.encard ≤
      r.settings.depthLimit) :
    let q : Request := ⟨(Codebase.afterEdits es).source, name⟩
    ∃ stages, r.RunsHooksOnce q.source name (r.events .empty q) (r.serve .empty q) stages := by
  intro q
  have huniform : q.source.Uniform := Codebase.uniform_source _
  have htotal : ∀ asked error, q.source asked ≠ .error error := by simp [q, Codebase.source]
  have hcovers := covers_serve (r := r) huniform htotal .empty Cache.explored_empty hfew
  have hcuts : (r.serve .empty q).cuts = Cache.empty.cuts := by
    rw [serve_eq]
    exact cuts_reach_of_encard_le _ .empty hfew
  obtain ⟨v, hv⟩ := exists_answer_of_total (r := r) htotal name .empty
  obtain ⟨_, -, hreach⟩ := exists_edge_of_answer (q := q)
    (stages_reach hhooks (Codebase.keyed_source es) _ name .empty) hv
  obtain ⟨stages, hlog, hstages, -⟩ := hreach hcuts [] Cache.stagedBy_empty
  rw [List.nil_append] at hstages
  have hheld (stage : Assembly) (hstage : stage ∈ stages) :=
    (hstages.held_iff _ _).mpr ⟨rfl, stage, hstage, rfl⟩
  refine ⟨stages, hlog, fun stage hstage => ?_, hstages.nodup, fun k => ?_, hheld, hstages.ordered⟩
  · obtain ⟨asked, d, others, supers, hsource, hname, rfl⟩ := hstages.made stage hstage
    have hrun := d.hooksRun_runHooks r.allHooks (d.mergedType supers)
    refine ⟨asked, d, others, supers, _, hsource, rfl, hrun, rfl, hrun.map_hook_eq, fun x hx => ?_⟩
    rw [← hname]
    exact hrun.subject_eq x hx
  · rw [hstages.mem_keys_iff, hcovers.held_iff huniform]

/-- A hook that notes the type it is run on, adds a method to it, and then breaks down on the class
called `B`. -/
def fussy : Hook where
  name := "fussy"
  run d t := {
    notes := ["seen " ++ d.name]
    left := { t with members := t.members.put (.ofMember (.ofName .method ("by" ++ d.name))) }
    failure := if d.name = "B" then some (.crashed none) else none }

theorem keepsShape_fussy : fussy.KeepsShape := by
  intro d t t' hrun
  rw [fussy, HookResult.outcome] at hrun
  dsimp only at hrun
  split at hrun
  · rw [← Except.ok.inj hrun]
    exact ⟨rfl, rfl, rfl, rfl⟩
  · cases hrun

/-- The hook runs on all three classes and its notes are in the log.  The method that it adds stays on
`A` and `C`, not on `B`, whose failed run is reported. -/
theorem hooks_run_once_tangled :
    let r : Resolver := ⟨.standard, [fussy]⟩
    let q : Request := ⟨(Codebase.afterEdits tangled).source, "C"⟩
    {k | q.source.Reaches (.ofName "C") k}.encard ≤ 64 ∧
      r.events .empty q = ["C", "b", "\\a", "Gone"].map .fetched ++
        ["A", "B", "C"].flatMap (fun subject =>
          [.applied ⟨"doc-tags", subject, []⟩, .applied ⟨"fussy", subject, ["seen " ++ subject]⟩]) ∧
      ["A", "B", "C"].map (fun name => ((r.serve .empty q).resolved? name).map fun t =>
        t.members.keys) =
          [some [.method "byA"], some [], some [.method "byA", .method "byC"]] ∧
      ((r.serve .empty q).report.filter fun x => x.code = "R0004").map (fun x => x.subject) = ["B"] ∧
      ∃ stages, r.RunsHooksOnce q.source "C" (r.events .empty q) (r.serve .empty q) stages := by
  intro r q
  have hclosed : q.source.ClosedOn ["A", "B", "C", "Gone"] := by decide +kernel
  have hfew : {k | q.source.Reaches (.ofName "C") k}.encard ≤ 64 := by
    refine (hclosed.encard_le_length (Codebase.uniform_source _) ?_).trans (by decide)
    exact fun k hreach => ⟨_, by decide, hreach⟩
  have hhooks : ∀ hook ∈ r.hooks, hook.KeepsShape := by
    intro hook hhook
    rw [List.mem_singleton.mp hhook]
    exact keepsShape_fussy
  exact ⟨hfew, by decide +kernel, by decide +kernel, by decide +kernel,
    hooks_run_once r tangled "C" hhooks hfew⟩

end Resolver

end Hierarchy
