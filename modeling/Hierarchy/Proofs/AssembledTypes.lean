import Mathlib.Logic.Relation
import Hierarchy.Proofs.Outcomes

namespace Hierarchy

open Relation

namespace ResolvedType

/-- Whether `s` is the parent, an interface or a trait of `t`. -/
def Links (t s : ResolvedType) : Prop := t.parent = some s ∨ s ∈ t.interfaces ∨ s ∈ t.traits

/-- Whether two types agree in name and links; the rest may differ. -/
structure SameShape (t t' : ResolvedType) : Prop where
  name_eq : t'.name = t.name
  parent_eq : t'.parent = t.parent
  interfaces_eq : t'.interfaces = t.interfaces
  traits_eq : t'.traits = t.traits

namespace SameShape

variable {t t' t'' : ResolvedType}

theorem refl (t : ResolvedType) : t.SameShape t := ⟨rfl, rfl, rfl, rfl⟩

theorem trans (h : t.SameShape t') (h' : t'.SameShape t'') : t.SameShape t'' :=
  ⟨h'.name_eq.trans h.name_eq, h'.parent_eq.trans h.parent_eq,
    h'.interfaces_eq.trans h.interfaces_eq, h'.traits_eq.trans h.traits_eq⟩

theorem key_eq (h : t.SameShape t') : t'.key = t.key := by
  rw [Heading.key, Heading.key, h.name_eq]

theorem links_iff (h : t.SameShape t') (s : ResolvedType) : t'.Links s ↔ t.Links s := by
  rw [Links, Links, h.parent_eq, h.interfaces_eq, h.traits_eq]

end SameShape

theorem mem_of_mem_firstOfEachKey {s : ResolvedType} {seen : List TypeKey}
    {ts : List ResolvedType} (h : s ∈ firstOfEachKey seen ts) : s ∈ ts := by
  induction ts generalizing seen with
  | nil => simp [firstOfEachKey] at h
  | cons t rest ih =>
    unfold firstOfEachKey at h
    split at h
    · exact List.mem_cons_of_mem _ (ih h)
    · rcases List.mem_cons.mp h with rfl | h
      · exact List.mem_cons_self
      · exact List.mem_cons_of_mem _ (ih h)

end ResolvedType

/-- Whether the hook changes neither the name nor the links of any type. -/
def Hook.KeepsShape (hook : Hook) : Prop :=
  ∀ d t t', (hook.run d t).outcome = .ok t' → t.SameShape t'

theorem Hook.keepsShape_docTags : Hook.docTags.KeepsShape := by
  rintro d t _ ⟨⟩
  exact ⟨rfl, rfl, rfl, rfl⟩

theorem Resolver.allHooks_induct {r : Resolver} {p : Hook → Prop} (hdocTags : p .docTags)
    (h : ∀ hook ∈ r.hooks, p hook) : ∀ hook ∈ r.allHooks, p hook := by
  intro hook hmem
  rcases List.mem_append.mp hmem with hmem | hmem
  · split at hmem
    · rw [List.mem_singleton.mp hmem]
      exact hdocTags
    · simp at hmem
  · exact h hook hmem

theorem Resolver.forall_allHooks {r : Resolver} (h : ∀ hook ∈ r.hooks, hook.KeepsShape) :
    ∀ hook ∈ r.allHooks, hook.KeepsShape :=
  allHooks_induct Hook.keepsShape_docTags h

namespace Declaration

theorem runHooks_induct {p : ResolvedType → Prop} (d : Declaration) {hooks : List Hook}
    (h : ∀ hook ∈ hooks, ∀ t t', (hook.run d t).outcome = .ok t' → p t → p t') {t : ResolvedType}
    (ht : p t) : p (d.runHooks hooks t).type := by
  induction hooks generalizing t with
  | nil => exact ht
  | cons hook rest ih =>
    have hrest {t : ResolvedType} := ih (t := t) fun hook' hmem => h hook' (List.mem_cons_of_mem _ hmem)
    simp only [runHooks]
    split
    · rename_i t' hrun
      exact hrest (h hook List.mem_cons_self t t' hrun ht)
    · exact hrest ht

theorem sameShape_runHooks (d : Declaration) {hooks : List Hook}
    (h : ∀ hook ∈ hooks, hook.KeepsShape) (t : ResolvedType) :
    t.SameShape (d.runHooks hooks t).type :=
  d.runHooks_induct (fun hook hmem t₁ t₂ hrun ht₁ => ht₁.trans (h hook hmem d t₁ t₂ hrun)) (.refl t)

theorem sameShape_assemble (d : Declaration) {hooks : List Hook}
    (h : ∀ hook ∈ hooks, hook.KeepsShape) (supers : Supertypes) :
    (d.mergedType supers).SameShape (d.assemble hooks supers).type :=
  d.sameShape_runHooks h (d.mergedType supers)

end Declaration

theorem Declaration.exists_answer_of_links {d : Declaration}
    {parents interfaces traits : List (Option ResolvedType)} {s : ResolvedType}
    (h : (d.mergedType (.ofAnswers parents interfaces traits)).Links s) :
    ∃ t, some t ∈ parents ++ interfaces ++ traits ∧ ReflTransGen ResolvedType.Links t s := by
  simp only [List.mem_append]
  rcases h with h | h | h
  · have hmem : s ∈ parents.reduceOption := List.mem_of_mem_head? h
    exact ⟨s, .inl (.inl (List.reduceOption_mem_iff.mp hmem)), .refl⟩
  · -- An interface comes from the parent, or is an own one or an interface of one.
    rcases List.mem_append.mp (ResolvedType.mem_of_mem_firstOfEachKey h) with hmem | hmem
    · cases hparent : parents.reduceOption.head? with
      | none => simp [hparent] at hmem
      | some t =>
        have ht : t ∈ parents.reduceOption := List.mem_of_mem_head? hparent
        have hs : s ∈ t.interfaces := by simpa [hparent] using hmem
        exact ⟨t, .inl (.inl (List.reduceOption_mem_iff.mp ht)), .single (.inr (.inl hs))⟩
    · obtain ⟨t, ht, hs⟩ := List.mem_flatMap.mp hmem
      refine ⟨t, .inl (.inr (List.reduceOption_mem_iff.mp ht)), ?_⟩
      rcases List.mem_cons.mp hs with rfl | hs
      · exact .refl
      · exact .single (.inr (.inl hs))
  · exact ⟨s, .inr (List.reduceOption_mem_iff.mp h), .refl⟩

end Hierarchy
