import Hierarchy.Proofs.CodebaseEdits
import Hierarchy.Proofs.MemberFlow

namespace Hierarchy

open Relation

namespace Source

variable {source : Source} {k k' : TypeKey} {key : MemberKey}

/-- Whether an alias of the first candidate for `k`, or for a type that can be reached from there,
copies a method that is found under another key to this one. -/
def Rekeys (source : Source) (k : TypeKey) (key : MemberKey) : Prop :=
  ∃ d, source.DeclaresBelow k d ∧ ∃ a ∈ d.aliases, MemberKey.method a.method ≠ key ∧
    ∃ name, a.newName = some name ∧ MemberKey.method name = key

/-- Whether all that is hidden below the member has its kind, and its key as well unless an alias
copies a method there. -/
def ChainedByKey (source : Source) (k : TypeKey) (m : VisibleMember) : Prop :=
  ∀ x ∈ m.overrides, x.kind = m.kind ∧ (x.key = m.key ∨ source.Rekeys k m.key)

theorem Rekeys.of_reaches (h : source.Rekeys k' key) (hk : source.Reaches k k') :
    source.Rekeys k key := by
  obtain ⟨d, hd, ha⟩ := h
  exact ⟨d, hd.of_reaches hk, ha⟩

theorem key_copyOf {d : Declaration} {a : Alias} {m : VisibleMember} (hd : source.DeclaresBelow k d)
    (ha : a ∈ d.aliases) (hkey : m.key = .method a.method) :
    (a.copyOf m).key = m.key ∨ source.Rekeys k (a.copyOf m).key := by
  have hkind : m.kind = .method := congrArg MemberKey.kind hkey
  cases hnew : a.newName with
  | none =>
    refine .inl ?_
    simp [Alias.copyOf, Member.key, hnew]
  | some name =>
    have hcopy : (a.copyOf m).key = .method name := by
      simp [Alias.copyOf, Member.key, MemberKey.method, hnew, hkind]
    by_cases hsame : MemberKey.method a.method = .method name
    · exact .inl (by rw [hcopy, hkey, hsame])
    · exact .inr ⟨d, hd, a, ha, by rwa [hcopy], name, hnew, hcopy.symm⟩

/-- All that is done to members on their way into a type leaves their chains under one key, aliases
apart. -/
theorem carries_chainedByKey {docTags : Bool} {name : String} {d : Declaration}
    {others : List Declaration} (hsource : source name = .ok (d :: others)) :
    d.Carries docTags (source.ChainedByKey (.ofName name)) where
  denoted w _ := by
    intro x hx
    simp at hx
  adopted _ hm := hm
  aliased a ha m hkey hm := by
    intro x hx
    -- The copy takes the chain along as it is; what may change is the key above it.
    obtain ⟨hkind, hchain⟩ := hm x hx
    refine ⟨hkind, ?_⟩
    rcases key_copyOf (declaresBelow_self hsource) ha hkey with hcopy | hcopy
    · rwa [hcopy]
    · exact .inr hcopy
  shadowing m hidden hkey hm hhidden := by
    have hkind : hidden.kind = m.kind := congrArg MemberKey.kind hkey
    intro x hx
    rw [VisibleMember.overrides_shadowing] at hx
    rcases List.mem_append.mp hx with hx | hx
    · exact hm x hx
    · rcases List.mem_cons.mp hx with rfl | hx
      · exact ⟨hkind, .inl hkey⟩
      · obtain ⟨hxkind, hxkey⟩ := hhidden x hx
        rw [hkey] at hxkey
        exact ⟨hxkind.trans hkind, hxkey⟩

end Source

namespace Resolver

/-- Whatever is hidden below a visible member has its kind, and its key too unless an alias of the type,
or of one that can be reached from it, copies a method from another key to that key. -/
theorem overrides_chained_by_key (settings : Settings) (es : List Codebase.Edit)
    (names : List String) :
    (Resolver.mk settings []).ShowsOnly (Codebase.afterEdits es).source names
      (Codebase.afterEdits es).source.ChainedByKey := by
  refine showsOnly_of_carries (Codebase.keyed_source es) ?_
    (fun _ _ _ hsource => Source.carries_chainedByKey hsource) names
  intro _ _ m hreach hm x hx
  exact (hm x hx).imp_right (Or.imp_right (·.of_reaches hreach))

def copiedChain : List Declaration :=
  [(Declaration.ofName .traitType "U").withMember (.ofName .method "run"),
    ((Declaration.ofName .traitType "T").withTrait "U").withMember (.ofName .method "run"),
    (Declaration.ofName .classType "P").withMember (.ofName .method "RUN"),
    ((Declaration.ofName .classType "C").withParent "P").withUse
      ⟨"T", [⟨none, "run", some "walk", none⟩], []⟩]

/-- Nothing is copied to the old name, so all that is hidden there goes by that name. -/
theorem overrides_chained_by_key_copiedChain :
    let source := (Codebase.afterEdits [.put ⟨0⟩ copiedChain]).source
    ∃ t, standard.answer .empty ⟨source, "C"⟩ = .ok (some t) ∧
      ∃ m ∈ t.members.values, m.key = .method "run" ∧
        m.shadows.map (·.name) = ["run", "RUN"] ∧ ∀ x ∈ m.overrides, x.key = m.key := by
  intro source
  have hall := (overrides_chained_by_key .standard [.put ⟨0⟩ copiedChain] []).answered "C"
  have hfirst : ((standard.answer .empty ⟨source, "C"⟩).toOption.join.map fun t =>
      t.members.values.head?.map fun m => (m.key, m.shadows.map (·.name))) =
        some (some (.method "run", ["run", "RUN"])) := by
    decide +kernel
  obtain ⟨t, hanswer, hseen⟩ := exists_type_of_seen hfirst
  obtain ⟨m, hm, hmseen⟩ := Option.map_eq_some_iff.mp hseen
  obtain ⟨hkey, hshadows⟩ := Prod.mk.inj hmseen
  have hmem := List.mem_of_mem_head? hm
  refine ⟨t, hanswer, m, hmem, hkey, hshadows, fun x hx => ?_⟩
  refine (hall t hanswer t .refl m hmem x hx).2.resolve_right ?_
  rintro ⟨d, ⟨name, others, -, hsource⟩, a, ha, -, name', hnew, hnewKey⟩
  have haliases : ∀ d ∈ copiedChain, ∀ a ∈ d.aliases, ∀ name ∈ a.newName,
      MemberKey.method name ≠ .method "run" := by
    decide
  exact haliases d (Codebase.mem_of_source_eq hsource).1 a ha name' hnew (hnewKey.trans hkey)

/-- The copy under the new name hides the method that is hidden under the old one. -/
theorem override_chain_leaves_key :
    let source := (Codebase.afterEdits [.put ⟨0⟩ copiedChain]).source
    ∃ t, standard.answer .empty ⟨source, "C"⟩ = .ok (some t) ∧
      ∃ m ∈ t.members.values, ∃ x ∈ m.overrides, x.key ≠ m.key := by
  intro source
  have hlast : ((standard.answer .empty ⟨source, "C"⟩).toOption.join.map fun t =>
      t.members.values.getLast?.map fun m => (m.key, m.shadows.map (·.key))) =
        some (some (.method "walk", [.method "run"])) := by
    decide +kernel
  obtain ⟨t, hanswer, hseen⟩ := exists_type_of_seen hlast
  obtain ⟨m, hm, hmseen⟩ := Option.map_eq_some_iff.mp hseen
  obtain ⟨hkey, hshadows⟩ := Prod.mk.inj hmseen
  obtain ⟨x, hx, hxkey⟩ : ∃ x ∈ m.shadows, x.key = .method "run" := by
    rw [← List.mem_map, hshadows]
    exact List.mem_singleton_self _
  refine ⟨t, hanswer, m, List.mem_of_getLast? hm, x,
    VisibleMember.mem_overrides_of_mem_shadows hx, ?_⟩
  rw [hkey, hxkey]
  decide

end Resolver

end Hierarchy
