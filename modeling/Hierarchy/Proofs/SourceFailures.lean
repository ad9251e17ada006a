import Hierarchy.Proofs.AssembledTypes
import Hierarchy.Proofs.CodebaseEdits
import Hierarchy.Proofs.Exploration
import Hierarchy.Session

namespace Hierarchy

def Hook.KeepsName (hook : Hook) (d : Declaration) : Prop :=
  ∀ t t', (hook.run d t).outcome = .ok t' → t'.name = t.name

theorem Hook.keepsName_docTags (d : Declaration) : Hook.docTags.KeepsName d := by
  rintro t _ ⟨⟩
  rfl

theorem Resolver.name_assemble {r : Resolver} {d : Declaration}
    (h : ∀ hook ∈ r.hooks, hook.KeepsName d) (supers : Supertypes) :
    (d.assemble r.allHooks supers).type.name = d.name := by
  have hkeeps : ∀ hook ∈ r.allHooks, hook.KeepsName d := allHooks_induct (Hook.keepsName_docTags d) h
  refine d.runHooks_induct (p := fun t => t.name = d.name) ?_ rfl
  intro hook hmem t t' hrun ht
  exact (hkeeps hook hmem t t' hrun).trans ht

theorem Session.uniform_source (s : Session) : s.source.Uniform := by
  intro a b h
  have hcandidates : s.codebase.candidatesFor a = s.codebase.candidatesFor b :=
    Except.ok.inj (Codebase.uniform_source s.codebase a b h)
  simp only [source, h]
  split
  · rfl
  · cases s.redirects.get? (.ofName b) with
    | none => exact congrArg Except.ok hcandidates
    | some target => rfl

namespace Resolver

open ResolveM Relation

variable {r : Resolver} {source : Source} {c : Cache} {name : String}

theorem log_resolve (source : Source) (name : String) :
    ((r.resolve name).run source).2 = r.events .empty ⟨source, name⟩ := by
  simp [events, run_resolve]

theorem failedLast_fetches (hs : c.OnStack []) {halt : Halt}
    (h : r.answer c ⟨source, name⟩ = .error halt) :
    ∃ error, halt = .source error ∧ source.FailedLast name error (r.fetches c ⟨source, name⟩) := by
  have hstop := reach_stop r source (r.settings.depthLimit + 1) name hs (Nat.zero_le _) (by simp)
  have hasked := asked_reach r source (r.settings.depthLimit + 1) name c
  obtain ⟨⟨_, error, -, rfl⟩, hlast⟩ := stop_of_answer (hstop.and hasked) h
  exact ⟨error, rfl, hlast error rfl⟩

/-- Resolving a name stops exactly if the source fails on a type that can be reached, provided that
all these types have room on the stack together.  It then stops at the first name on which the source
fails, with that failure.  Otherwise it gives a type exactly if the name is declared, and the type has
the name of the first candidate unless a registered hook renames it. -/
theorem failures_surface (r : Resolver) (source : Source) (name : String)
    (huniform : source.Uniform)
    (hfew : {k | source.Reaches (.ofName name) k}.encard ≤ r.settings.depthLimit) :
    let answer := ((r.resolve name).run source).1
    let asked := namesAsked ((r.resolve name).run source).2
    ((∃ halt, answer = .error halt) ↔ ∃ k, source.Reaches (.ofName name) k ∧ source.Fails k) ∧
      (∀ halt, answer = .error halt →
        ∃ error, halt = .source error ∧ source.FailedLast name error asked) ∧
      ((∀ k, source.Reaches (.ofName name) k → ¬ source.Fails k) →
        ∃ v, answer = .ok v ∧ (v.isSome = true ↔ source.Declares (.ofName name)) ∧
          ∀ t d others, v = some t → source name = .ok (d :: others) →
            (∀ hook ∈ r.hooks, hook.KeepsName d) → t.name = d.name) := by
  intro answer asked
  have hanswer : answer = r.answer .empty ⟨source, name⟩ := r.resolve_eq_answer source name
  have hasked : asked = r.fetches .empty ⟨source, name⟩ :=
    congrArg namesAsked (r.log_resolve source name)
  have hstops (halt : Halt) (h : answer = .error halt) :
      ∃ error, halt = .source error ∧ source.FailedLast name error asked := by
    rw [hanswer] at h
    rw [hasked]
    exact failedLast_fetches .empty h
  have hfails (halt : Halt) (h : answer = .error halt) :
      ∃ k, source.Reaches (.ofName name) k ∧ source.Fails k := by
    obtain ⟨error, -, before, failing, -, -, hreach, herror⟩ := hstops halt h
    exact ⟨.ofName failing, hreach, failing, error, rfl, herror⟩
  have hexplored (v : Option ResolvedType) (h : answer = .ok v) :=
    explored_serve (r := r) huniform .empty Cache.explored_empty hfew (hanswer ▸ h)
  have hrest : (r.serve .empty ⟨source, name⟩).OnStack [] := (extends_serve _ _).onStack .empty
  refine ⟨⟨fun ⟨halt, h⟩ => hfails halt h, ?_⟩, hstops, fun hnone => ?_⟩
  · rintro ⟨k, hreach, hfail⟩
    cases h : answer with
    | error halt => exact ⟨halt, rfl⟩
    | ok v =>
      -- An answer would rest on answers for all that can be reached.
      obtain ⟨hto, hdone⟩ := hexplored v h
      have hknows := hto.explored.knows_of_reaches hrest ⟨v, hdone⟩ hreach
      exact absurd hfail (hto.explored.not_fails huniform hknows)
  · cases h : answer with
    | error halt =>
      obtain ⟨k, hreach, hfail⟩ := hfails halt h
      exact absurd hfail (hnone k hreach)
    | ok v =>
      obtain ⟨hto, hdone⟩ := hexplored v h
      refine ⟨v, rfl, hto.explored.isSome_iff_declares huniform hdone, ?_⟩
      rintro t d others rfl hsource hkeeps
      obtain ⟨name', candidates, hname', hsource', hmade⟩ := hto.explored.made _ _ hdone
      rw [huniform name' name hname', hsource] at hsource'
      cases hsource'
      obtain ⟨supers, heq⟩ := hmade
      rw [Option.some.inj heq]
      exact name_assemble hkeeps supers

def partlyOffline : Session :=
  (Session.ofCodebase (Codebase.afterEdits [.put ⟨0⟩
    [(Declaration.ofName .classType "A").withParent "B",
      ((Declaration.ofName .classType "B").withInterface "\\a").withInterface "C",
      ((Declaration.ofName .classType "D").withParent "d").withUse
        ⟨"Gone", [⟨none, "run", some "walk", none⟩], []⟩]])).setFault "c"
    (some (.unavailable "offline"))

theorem failures_surface_partlyOffline :
    let source := partlyOffline.source
    {k | source.Reaches (.ofName "A") k}.encard ≤ 64 ∧
      (∃ error, ((standard.resolve "A").run source).1 = .error (.source error) ∧
        source.FailedLast "A" error (namesAsked ((standard.resolve "A").run source).2)) ∧
      {k | source.Reaches (.ofName "D") k}.encard ≤ 64 ∧
      ∃ t, ((standard.resolve "D").run source).1 = .ok (some t) ∧ t.name = "D" := by
  intro source
  have huniform : source.Uniform := partlyOffline.uniform_source
  have ha : source "A" = .ok [(Declaration.ofName .classType "A").withParent "B"] := by
    decide +kernel
  have hb : source "B" =
      .ok [((Declaration.ofName .classType "B").withInterface "\\a").withInterface "C"] := by
    decide +kernel
  have hc : source "C" = .error (.unavailable "offline") := by decide +kernel
  have hd : source "D" = .ok [((Declaration.ofName .classType "D").withParent "d").withUse
      ⟨"Gone", [⟨none, "run", some "walk", none⟩], []⟩] := by decide +kernel
  have hgone : source "Gone" = .ok [] := by decide +kernel
  have hclosedA : source.ClosedOn ["A", "B", "C"] := by decide +kernel
  have hclosedD : source.ClosedOn ["D", "Gone"] := by decide +kernel
  have hfewA : {k | source.Reaches (.ofName "A") k}.encard ≤ 64 :=
    (hclosedA.encard_le_length huniform fun k hk => ⟨_, by decide, hk⟩).trans (by decide)
  have hfewD : {k | source.Reaches (.ofName "D") k}.encard ≤ 64 :=
    (hclosedD.encard_le_length huniform fun k hk => ⟨_, by decide, hk⟩).trans (by decide)
  have hpath : source.Reaches (.ofName "A") (.ofName "C") :=
    .head (Source.leads_of_mem ha (by decide)) (.single (Source.leads_of_mem hb (by decide)))
  have hnone (k : TypeKey) (hk : source.Reaches (.ofName "D") k) : ¬ source.Fails k := by
    have hmem := hclosedD.mem_of_reaches huniform (by decide) hk
    simp only [List.map_cons, List.map_nil, List.mem_cons, List.not_mem_nil, or_false] at hmem
    rcases hmem with rfl | rfl
    · exact huniform.not_fails hd
    · exact huniform.not_fails hgone
  obtain ⟨hiff, hfirst, -⟩ := failures_surface standard source "A" huniform hfewA
  obtain ⟨-, -, hanswered⟩ := failures_surface standard source "D" huniform hfewD
  obtain ⟨halt, hhalt⟩ := hiff.mpr ⟨_, hpath, "C", _, rfl, hc⟩
  obtain ⟨error, rfl, hlast⟩ := hfirst halt hhalt
  obtain ⟨v, hv, hsome, hname⟩ := hanswered hnone
  obtain ⟨t, rfl⟩ := Option.isSome_iff_exists.mp (hsome.mpr ⟨"D", _, _, rfl, hd⟩)
  exact ⟨hfewA, ⟨error, hhalt, hlast⟩, hfewD, t, hv, hname t _ _ rfl hd (by simp [standard])⟩

end Resolver

end Hierarchy
