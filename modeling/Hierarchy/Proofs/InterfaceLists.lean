import Hierarchy.Proofs.AssembledTypes
import Hierarchy.Proofs.CodebaseEdits
import Hierarchy.Proofs.ProducedTypes

namespace Hierarchy

open Relation

namespace ResolvedType

def keysOf (ts : List ResolvedType) : List TypeKey := ts.map fun t => t.key

theorem mem_keysOf_firstOfEachKey {k : TypeKey} {seen : List TypeKey} {ts : List ResolvedType} :
    k ∈ keysOf (firstOfEachKey seen ts) ↔ k ∈ keysOf ts ∧ k ∉ seen := by
  induction ts generalizing seen with
  | nil => simp [keysOf, firstOfEachKey]
  | cons t rest ih =>
    unfold firstOfEachKey
    split
    · rename_i hseen
      rw [ih]
      simp only [keysOf, List.map_cons, List.mem_cons]
      constructor
      · rintro ⟨hk, hnot⟩
        exact ⟨.inr hk, hnot⟩
      · rintro ⟨rfl | hk, hnot⟩
        · exact absurd hseen hnot
        · exact ⟨hk, hnot⟩
    · rename_i hseen
      have hrest : k ∈ keysOf (firstOfEachKey (t.key :: seen) rest) ↔
          k ∈ keysOf rest ∧ k ∉ t.key :: seen := ih
      simp only [keysOf, List.map_cons, List.mem_cons] at hrest ⊢
      rw [hrest]
      by_cases hk : k = t.key
      · simp [hk, hseen]
      · simp [hk]

theorem nodup_keysOf_firstOfEachKey (seen : List TypeKey) (ts : List ResolvedType) :
    (keysOf (firstOfEachKey seen ts)).Nodup := by
  induction ts generalizing seen with
  | nil => exact List.nodup_nil
  | cons t rest ih =>
    unfold firstOfEachKey
    split
    · exact ih seen
    · have hnotin : t.key ∉ keysOf (firstOfEachKey (t.key :: seen) rest) := by
        rw [mem_keysOf_firstOfEachKey]
        exact fun h => h.2 List.mem_cons_self
      exact List.nodup_cons.mpr ⟨hnotin, ih (t.key :: seen)⟩

theorem prefix_firstOfEachKey {seen : List TypeKey} {ts : List ResolvedType}
    (hnodup : (keysOf ts).Nodup) (hseen : ∀ k ∈ keysOf ts, k ∉ seen) (more : List ResolvedType) :
    ts <+: firstOfEachKey seen (ts ++ more) := by
  induction ts generalizing seen with
  | nil => exact List.nil_prefix
  | cons t rest ih =>
    obtain ⟨hnotin, hrest⟩ := List.nodup_cons.mp hnodup
    have ht : t.key ∉ seen := hseen t.key List.mem_cons_self
    have hrest_seen : ∀ k ∈ keysOf rest, k ∉ t.key :: seen := by
      intro k hk hmem
      rcases List.mem_cons.mp hmem with rfl | hmem
      · exact hnotin hk
      · exact hseen k (List.mem_cons_of_mem _ hk) hmem
    have hkept : firstOfEachKey seen (t :: rest ++ more) =
        t :: firstOfEachKey (t.key :: seen) (rest ++ more) := by
      simp [firstOfEachKey, ht]
    rw [hkept]
    exact List.cons_prefix_cons.mpr ⟨rfl, ih hrest hrest_seen⟩

/-- What is required of the list of interfaces of a type. -/
structure WellListed (t : ResolvedType) : Prop where
  distinct : (keysOf t.interfaces).Nodup
  /-- The parent's interfaces come first, exactly as the parent lists them. -/
  inherited : ∀ s, t.parent = some s → s.interfaces <+: t.interfaces
  /-- The interfaces of an interface are among the type's own. -/
  closed : ∀ i ∈ t.interfaces, ∀ k ∈ keysOf i.interfaces, k ∈ keysOf t.interfaces

theorem mem_keysOf_gatherInterfaces {parent : Option ResolvedType} {own : List ResolvedType}
    {k : TypeKey} :
    k ∈ keysOf (Supertypes.gatherInterfaces parent own) ↔
      (∃ s, parent = some s ∧ k ∈ keysOf s.interfaces) ∨
        ∃ i ∈ own, k = i.key ∨ k ∈ keysOf i.interfaces := by
  have hinherited : k ∈ keysOf ((parent.map ResolvedType.interfaces).getD []) ↔
      ∃ s, parent = some s ∧ k ∈ keysOf s.interfaces := by
    cases parent <;> simp [keysOf]
  have hown : k ∈ keysOf (own.flatMap fun i => i :: i.interfaces) ↔
      ∃ i ∈ own, k = i.key ∨ k ∈ keysOf i.interfaces := by
    simp only [keysOf, List.map_flatMap, List.mem_flatMap, List.map_cons, List.mem_cons]
  rw [Supertypes.gatherInterfaces, mem_keysOf_firstOfEachKey, ← hinherited, ← hown]
  simp [keysOf]

theorem wellListed_of_gatherInterfaces {t : ResolvedType} (own : List ResolvedType)
    (h : t.interfaces = Supertypes.gatherInterfaces t.parent own)
    (hparent : ∀ s, t.parent = some s → s.WellListed) (hown : ∀ i ∈ own, i.WellListed) :
    t.WellListed where
  distinct := by
    rw [h]
    exact nodup_keysOf_firstOfEachKey _ _
  inherited s hs := by
    rw [h, hs]
    exact prefix_firstOfEachKey (hparent s hs).distinct (by simp) _
  closed i hi k hk := by
    rw [h] at hi ⊢
    rw [mem_keysOf_gatherInterfaces]
    -- An interface was inherited, or is an own one or one that an own one extends.
    rcases List.mem_append.mp (mem_of_mem_firstOfEachKey hi) with hi | hi
    · cases hs : t.parent with
      | none => simp [hs] at hi
      | some s =>
        have hmem : i ∈ s.interfaces := by simpa [hs] using hi
        exact .inl ⟨s, rfl, (hparent s hs).closed i hmem k hk⟩
    · obtain ⟨o, ho, hio⟩ := List.mem_flatMap.mp hi
      rcases List.mem_cons.mp hio with rfl | hio
      · exact .inr ⟨i, ho, .inr hk⟩
      · exact .inr ⟨o, ho, .inr ((hown o ho).closed i hio k hk)⟩

/-- Whether the interfaces of every type that occurs in `t` are well listed. -/
def ListedThroughout (t : ResolvedType) : Prop := ∀ w, ReflTransGen Links t w → w.WellListed

end ResolvedType

namespace Resolver

variable {r : Resolver}

/-- A type put together from types that are well listed throughout is so itself. -/
theorem handsOn_listedThroughout (hhooks : ∀ hook ∈ r.hooks, hook.KeepsShape)
    (supplier : Supplier) : r.HandsOn supplier fun _ t => t.ListedThroughout := by
  intro name d others _ parents interfaces traits _ _ _ hanswers w hw
  have hshape := d.sameShape_assemble (forall_allHooks hhooks) (.ofAnswers
    (parents.map Prod.snd) (interfaces.map Prod.snd) (traits.map Prod.snd))
  have hanswer : ∀ t, some t ∈ parents.map Prod.snd ++ interfaces.map Prod.snd ++
      traits.map Prod.snd → t.ListedThroughout := by
    intro t ht
    rw [← List.map_append, ← List.map_append] at ht
    obtain ⟨a, ha, hat⟩ := List.mem_map.mp ht
    exact hanswers a ha t hat
  rcases ReflTransGen.cases_head hw with rfl | ⟨s, hs, hw⟩
  · refine ResolvedType.wellListed_of_gatherInterfaces
      (interfaces.map Prod.snd).reduceOption ?_ ?_ ?_
    · rw [hshape.interfaces_eq, hshape.parent_eq]
      rfl
    · intro s hs
      rw [hshape.parent_eq] at hs
      have hmem : s ∈ (parents.map Prod.snd).reduceOption := List.mem_of_mem_head? hs
      exact hanswer s (by simp [List.reduceOption_mem_iff.mp hmem]) s .refl
    · intro i hi
      exact hanswer i (by simp [List.reduceOption_mem_iff.mp hi]) i .refl
  · rw [hshape.links_iff] at hs
    obtain ⟨t, ht, hts⟩ := Declaration.exists_answer_of_links hs
    exact hanswer t ht w (hts.trans hw)

/-- The interfaces of every type are well listed, and so are those of all types that occur in it: of
the types that a cache holds after any requests, of the type a request ends in, and of those
produced on the way, though there may be cycles, unknown names, cut edges, failures and changes in
between. -/
theorem interfaces_wellListed (r : Resolver) (hhooks : ∀ hook ∈ r.hooks, hook.KeepsShape)
    {c : Cache} (hc : r.Reached .any c) :
    (∀ k t, c.slots.get? k = some (.done (some t)) → t.ListedThroughout) ∧
      ∀ asked,
        (∀ t c', (r.request asked c).MayEnd .any (.ok (some t), c') → t.ListedThroughout) ∧
          ∀ name t, r.Produces .any c asked name t → t.ListedThroughout := by
  have hheld := hc.holds (handsOn_listedThroughout hhooks .any)
  have hproduced (asked name : String) (t : ResolvedType)
      (h : r.Produces .any c asked name t) : t.ListedThroughout :=
    holds_of_produces (handsOn_listedThroughout hhooks .any) hheld h
  exact ⟨hheld, fun asked => ⟨fun t _ h => hproduced asked asked t (produces_of_request h),
    hproduced asked⟩⟩

def twicePromised : Source :=
  (Codebase.ofDeclarations [(Declaration.ofName .interfaceType "I").withInterface "J",
    .ofName .interfaceType "J", (Declaration.ofName .classType "P").withInterface "I",
    ((Declaration.ofName .classType "C").withParent "P").withInterface "I"]).source

/-- With room for three types, `J` is cut off below the parent.  The `I` found there has no
interfaces and yet comes first; `J` comes in with the second `I`, which is dropped.  A request that
failed before makes no difference. -/
theorem interfaces_wellListed_twicePromised :
    ∃ t, Resolver.answer ⟨⟨3, false⟩, [.docTags]⟩
        (Resolver.cacheAfter ⟨⟨3, false⟩, [.docTags]⟩ [⟨loopThenFailure, "A"⟩])
        ⟨twicePromised, "C"⟩ = .ok (some t) ∧
      (t.interfaces.map fun i => (i.name, i.interfaces.length)) = [("I", 0), ("J", 0)] ∧
      t.ListedThroughout := by
  let r : Resolver := ⟨⟨3, false⟩, [.docTags]⟩
  let c := r.cacheAfter [⟨loopThenFailure, "A"⟩]
  have hlists : ((r.answer c ⟨twicePromised, "C"⟩).toOption.join.map
      fun t => t.interfaces.map fun i => (i.name, i.interfaces.length)) =
        some [("I", 0), ("J", 0)] := by
    decide +kernel
  have hhooks : ∀ hook ∈ r.hooks, hook.KeepsShape := by simp [r, Hook.keepsShape_docTags]
  have hc : r.Reached .any c := reached_cacheAfter _ fun q _ => q.source.within_any
  show ∃ t, r.answer c ⟨twicePromised, "C"⟩ = .ok (some t) ∧ _
  clear_value c r
  rcases hanswer : r.answer c ⟨twicePromised, "C"⟩ with halt | _ | t
  · simp [hanswer, Except.toOption] at hlists
  · simp [hanswer, Except.toOption] at hlists
  · have hends := Inquiry.mayEnd_run twicePromised.within_any (r.request "C" c)
    have hlisted := ((interfaces_wellListed r hhooks hc).2 "C").1 t
      (r.serve c ⟨twicePromised, "C"⟩) (hanswer ▸ hends)
    exact ⟨t, rfl, by simpa [hanswer, Except.toOption] using hlists, hlisted⟩

end Resolver

end Hierarchy
