import Hierarchy.Proofs.AdaptedMethods

namespace Hierarchy

/-- Whether `shown` is the member `m`, hiding perhaps more than `m` does, or hides `m` itself. -/
def VisibleMember.Presents (shown m : VisibleMember) : Prop :=
  (∃ hidden, shown = { m with shadows := m.shadows ++ hidden }) ∨ m ∈ shown.shadows

theorem exists_presents_of_shownAmong {owner : String} {own : List VisibleMember}
    (howned : ∀ m ∈ own, m.isOwnedBy owner = true) (rest : List VisibleMember) {m : VisibleMember}
    (hm : m ∈ own) : ∃ shown, shownAmong owner (own ++ rest) = some shown ∧ shown.Presents m := by
  cases own with
  | nil => cases hm
  | cons first others =>
    have hfirst : first.isOwnedBy owner = true := howned first List.mem_cons_self
    refine ⟨{ first with shadows := first.shadows ++ (others ++ rest) }, ?_, ?_⟩
    · rw [List.cons_append, shownAmong, if_pos hfirst]
    · rcases List.mem_cons.mp hm with rfl | hm
      · exact .inl ⟨others ++ rest, rfl⟩
      · exact .inr (List.mem_append_right _ (List.mem_append_left _ hm))

namespace ResolvedType

variable {t trait : ResolvedType} {d : Declaration} {m : VisibleMember}

theorem isOwnedBy_adoptedBy (m : VisibleMember) (name : String) :
    (m.adoptedBy name).isOwnedBy name = true := by
  simp [VisibleMember.adoptedBy, Member.adoptedBy, Member.isOwnedBy, sameType_iff_ofName_eq]

theorem isOwnedBy_of_mem_brought (hm : m ∈ t.brought d trait) : m.isOwnedBy t.name = true := by
  rcases List.mem_append.mp hm with hm | hm
  · obtain ⟨own, -, rfl⟩ := List.mem_map.mp hm
    exact isOwnedBy_adoptedBy own t.name
  · obtain ⟨own, -, rfl⟩ := List.mem_map.mp hm
    exact isOwnedBy_adoptedBy own t.name

/-- Whether a directive of `d` takes the method under `k` from what the trait brings: an exclusion
removes it, or an alias writes over it. -/
def TakenBy (trait : ResolvedType) (d : Declaration) (k : MemberKey) : Prop :=
  d.Excludes trait.name k ∨ Alias.Overwrite d.aliases trait.name trait.methodTable k

theorem adoptedBy_mem_brought (hm : m ∈ trait.members.values)
    (hkind : m.kind ≠ .constant) (hmethod : m.kind = .method → ¬ trait.TakenBy d m.key) :
    m.adoptedBy t.name ∈ t.brought d trait := by
  have hget : trait.members.get? m.key = some m := MemberTable.mem_values_iff.mp hm
  cases hcase : m.kind with
  | constant => exact absurd hcase hkind
  | property =>
    apply List.mem_append_left
    exact List.mem_map_of_mem (MemberTable.mem_ofKind_iff.mpr ⟨hget, hcase⟩)
  | method =>
    apply List.mem_append_right
    have htaken := hmethod hcase
    have hown : trait.methodTable.get? m.key = some m :=
      get?_methodTable_eq_some_iff.mpr ⟨MemberTable.mem_ofKind_iff.mpr ⟨hget, hcase⟩, rfl⟩
    have haliased : (d.aliasedTable trait).get? m.key = some m := by
      rw [Declaration.aliasedTable, Alias.get?_foldl_of_not_overwrite fun h => htaken (.inr h),
        hown]
    apply Declaration.mem_contributions_iff.mpr
    exact ⟨m, Declaration.get?_adaptedTable_eq_some_iff.mpr ⟨fun h => htaken (.inl h), haliased⟩, rfl⟩

theorem isOwnedBy_of_mem_lastMember?
    (hown : ∀ w ∈ d.members, (w.claimedBy d.name).isOwnedBy t.name = true) {k : MemberKey}
    (hm : m ∈ d.lastMember? k) : m.isOwnedBy t.name = true := by
  obtain ⟨w, hw, rfl⟩ := Option.map_eq_some_iff.mp hm
  exact hown w (List.mem_filter.mp (List.mem_of_getLast? hw)).1

/-- If a type declares its own members, then it presents every property of its traits, and every method
that no directive takes, whatever its visibility. -/
theorem trait_members_presented (t : ResolvedType) (d : Declaration)
    (hown : ∀ w ∈ d.members, (w.claimedBy d.name).isOwnedBy t.name = true)
    (trait : ResolvedType) (htrait : trait ∈ t.traits) (m : VisibleMember)
    (hm : m ∈ trait.members.values) (hkind : m.kind ≠ .constant)
    (hmethod : m.kind = .method → ¬ trait.TakenBy d m.key) :
    ∃ shown, (t.mergedMembers d).get? m.key = some shown ∧ shown.Presents (m.adoptedBy t.name) := by
  -- The candidates that the type declares stand in front of those of its parent and its interfaces.
  let own := (d.lastMember? m.key).toList ++
    (t.traits.flatMap (t.brought d)).filter fun x => x.key = m.key
  have howned : ∀ x ∈ own, x.isOwnedBy t.name = true := by
    intro x hx
    rcases List.mem_append.mp hx with hx | hx
    · exact isOwnedBy_of_mem_lastMember? hown (Option.mem_toList.mp hx)
    · obtain ⟨trait', -, hx⟩ := List.mem_flatMap.mp (List.mem_filter.mp hx).1
      exact isOwnedBy_of_mem_brought hx
  have hmem : m.adoptedBy t.name ∈ own := by
    apply List.mem_append_right
    apply List.mem_filter.mpr
    have hbrought := adoptedBy_mem_brought (t := t) hm hkind hmethod
    exact ⟨List.mem_flatMap.mpr ⟨trait, htrait, hbrought⟩, decide_eq_true rfl⟩
  have hcandidates : ∃ rest, t.candidates d m.key = own ++ rest := by
    rw [candidates, offers, List.append_assoc, List.filter_append, ← List.append_assoc]
    exact ⟨_, rfl⟩
  obtain ⟨rest, hrest⟩ := hcandidates
  rw [(t.mergedMembers_law d).1, hrest]
  exact exists_presents_of_shownAmong howned rest hmem

def busy : Declaration :=
  ((Declaration.ofName .classType "Busy").withMember (.ofName .method "Run")).withUse ⟨"Worker",
    [⟨none, "fly", some "run", none⟩], [⟨none, "stop", ["Worker"]⟩]⟩

/-- The own method of the class hides the method of its trait, once for each time it is used. -/
theorem trait_members_presented_busy :
    let t : ResolvedType := { busy.bareType with traits := [Declaration.worker, Declaration.worker] }
    let m := VisibleMember.ofMember (.ofName .method "run")
    m ∈ Declaration.worker.members.values ∧ ¬ Declaration.worker.TakenBy busy m.key ∧
      ∃ shown, (t.mergedMembers busy).get? m.key = some shown ∧ shown.Presents (m.adoptedBy "Busy") := by
  intro t m
  have hm : m ∈ Declaration.worker.members.values := by decide +kernel
  have htaken : ¬ Declaration.worker.TakenBy busy m.key := by
    rintro (hexcluded | ⟨before, a, after, haliases, hfinds, -⟩)
    · revert hexcluded
      unfold Declaration.Excludes
      decide +kernel
    · -- There is only one alias, and it finds nothing.
      change [⟨none, "fly", some "run", none⟩] = before ++ a :: after at haliases
      cases before with
      | nil =>
        obtain ⟨rfl, -⟩ := List.cons.inj haliases
        revert hfinds
        decide +kernel
      | cons b before => simp at haliases
  exact ⟨hm, htaken, trait_members_presented t busy (by decide +kernel) Declaration.worker
    List.mem_cons_self m hm (by decide) fun _ => htaken⟩

def limited : ResolvedType :=
  { (Declaration.ofName .traitType "Limited").bareType with
    members := MemberTable.putAll .empty [.ofMember (.ofName .constant "LIMIT")] }

def plainUser : Declaration := (Declaration.ofName .classType "User").withTrait "Limited"

/-- No directive takes the constant of the trait, and still the class that uses it has no such member. -/
theorem trait_constant_absent :
    let t : ResolvedType := { plainUser.bareType with traits := [limited] }
    plainUser.members = [] ∧ plainUser.aliases = [] ∧ plainUser.exclusions = [] ∧
      ∃ m ∈ limited.members.values, (t.mergedMembers plainUser).get? m.key = none := by
  refine ⟨rfl, rfl, rfl, .ofMember (.ofName .constant "LIMIT"), by decide +kernel, ?_⟩
  decide +kernel

end ResolvedType

end Hierarchy
