import Hierarchy.Proofs.Outcomes

namespace Hierarchy

theorem Resolver.code_of_mem_ambiguity {others : List Declaration} {p : Problem}
    (h : p ∈ ambiguity others) : p.code = "I0001" := by
  unfold ambiguity at h
  split at h
  · simp at h
  · rw [List.mem_singleton.mp h]
    rfl

theorem Alias.problem?_eq (a : Alias) (traits : List ResolvedType) :
    a.problem? traits =
      if ∃ t ∈ traits, a.targets t.name = true then some (.noSuchMethod a.source a.method)
      else none := by
  unfold Alias.problem? Alias.targets
  cases a.source with
  | none => cases traits <;> simp
  | some trait => simp [anyNamed, sameType_comm trait]

theorem Alias.problem?_eq_none_iff {a : Alias} {traits : List ResolvedType} :
    a.problem? traits = none ↔ ∀ t ∈ traits, ¬ a.targets t.name = true := by
  simp [Alias.problem?_eq]

theorem Exclusion.problem?_eq (x : Exclusion) (traits : List ResolvedType) :
    x.problem? traits =
      if ∃ t ∈ traits, x.drops t.name = true then
        some (.noSuchMethod (x.losers.find? (anyNamed traits)) x.method)
      else none := by
  have hsome : (x.losers.find? (anyNamed traits)).isSome = true ↔
      ∃ t ∈ traits, x.drops t.name = true := by
    simp only [List.find?_isSome, anyNamed, List.any_eq_true, Exclusion.drops]
    constructor
    · rintro ⟨loser, hloser, t, ht, hsame⟩
      exact ⟨t, ht, loser, hloser, sameType_comm loser t.name ▸ hsame⟩
    · rintro ⟨t, ht, loser, hloser, hsame⟩
      exact ⟨loser, hloser, t, ht, sameType_comm t.name loser ▸ hsame⟩
  unfold Exclusion.problem?
  simp only [← hsome]
  cases x.losers.find? (anyNamed traits) <;> rfl

theorem Exclusion.problem?_eq_none_iff {x : Exclusion} {traits : List ResolvedType} :
    x.problem? traits = none ↔ ∀ t ∈ traits, ¬ x.drops t.name = true := by
  simp [Exclusion.problem?_eq]

namespace Declaration

theorem code_of_mem_adaptationProblems {d : Declaration} {traits : List ResolvedType} {p : Problem}
    (h : p ∈ d.adaptationProblems traits) : p.code = "R0003" := by
  rcases List.mem_append.mp h with h | h
  · obtain ⟨a, -, ha⟩ := List.mem_filterMap.mp h
    obtain ⟨-, ha⟩ := Option.ite_none_right_eq_some.mp ha
    cases ha
    rfl
  · obtain ⟨x, -, hx⟩ := List.mem_filterMap.mp h
    obtain ⟨loser, -, rfl⟩ := Option.map_eq_some_iff.mp hx
    rfl

theorem code_of_mem_runHooks {d : Declaration} {hooks : List Hook} {t : ResolvedType} {p : Problem}
    (h : p ∈ (d.runHooks hooks t).problems) : p.code = "R0004" := by
  induction hooks generalizing t with
  | nil => simp [runHooks] at h
  | cons hook rest ih =>
    simp only [runHooks] at h
    split at h
    · exact ih h
    · rcases List.mem_cons.mp h with rfl | h
      · rfl
      · exact ih h

theorem code_of_mem_assemble {d : Declaration} {hooks : List Hook} {supers : Supertypes}
    {p : Problem} (h : p ∈ (d.assemble hooks supers).problems) :
    p.code = "R0003" ∨ p.code = "R0004" := by
  rcases List.mem_append.mp h with h | h
  · exact .inl (code_of_mem_adaptationProblems h)
  · exact .inr (code_of_mem_runHooks h)

end Declaration

end Hierarchy
