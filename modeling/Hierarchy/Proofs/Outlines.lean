import Hierarchy.Outline
import Hierarchy.Proofs.ByteOrder
import Hierarchy.Proofs.KeyedTables
import Hierarchy.Proofs.TableChanges

namespace Hierarchy

theorem MemberKind.rank_inj {a b : MemberKind} : a.rank = b.rank ↔ a = b := by
  cases a <;> cases b <;> decide

namespace OutlineEntry

variable {a b : OutlineEntry}

/-- Whether `a` comes before `b`: constants before properties and properties before methods, and
members of one kind by the bytes of their names. -/
def Before (a b : OutlineEntry) : Prop :=
  a.kind.rank < b.kind.rank ∨ a.kind = b.kind ∧ Text.bytes a.name < Text.bytes b.name

def key (e : OutlineEntry) : MemberKey := .ofName e.kind e.name

theorem Before.asymm (h : Before a b) : ¬ Before b a := by
  rintro (hrank | ⟨hkind, hname⟩)
  · rcases h with hrank' | ⟨hkind', -⟩
    · omega
    · rw [hkind'] at hrank
      omega
  · rcases h with hrank' | ⟨-, hname'⟩
    · rw [hkind] at hrank'
      omega
    · exact lt_asymm hname hname'

theorem precedes_iff :
    a.precedes b = true ↔ a.kind.rank < b.kind.rank ∨ a.kind = b.kind ∧ a.name ≤ b.name := by
  simp [precedes, MemberKind.rank_inj]

theorem precedes_trans (a b c : OutlineEntry) (hab : a.precedes b = true)
    (hbc : b.precedes c = true) : a.precedes c = true := by
  rw [precedes_iff] at hab hbc ⊢
  rcases hab with hab | ⟨hab, hname⟩
  · rcases hbc with hbc | ⟨hbc, -⟩
    · exact .inl (hab.trans hbc)
    · exact .inl (hbc ▸ hab)
  · rcases hbc with hbc | ⟨hbc, hname'⟩
    · exact .inl (hab ▸ hbc)
    · exact .inr ⟨hab.trans hbc, hname.trans hname'⟩

theorem precedes_total (a b : OutlineEntry) : (a.precedes b || b.precedes a) = true := by
  rw [Bool.or_eq_true, precedes_iff, precedes_iff]
  rcases Nat.lt_trichotomy a.kind.rank b.kind.rank with hrank | hrank | hrank
  · exact .inl (.inl hrank)
  · have hkind := MemberKind.rank_inj.mp hrank
    rcases le_total a.name b.name with hname | hname
    · exact .inl (.inr ⟨hkind, hname⟩)
    · exact .inr (.inr ⟨hkind.symm, hname⟩)
  · exact .inr (.inl hrank)

/-- Entries under different keys do not tie: if their kinds agree, their names do not. -/
theorem before_of_precedes (h : a.precedes b = true) (hkey : a.key ≠ b.key) : Before a b := by
  rcases precedes_iff.mp h with hrank | ⟨hkind, hname⟩
  · exact .inl hrank
  · have hne : a.name ≠ b.name := by
      intro heq
      exact hkey (by rw [key, key, hkind, heq])
    exact .inr ⟨hkind, Text.bytes_strictMono (hname.lt_of_ne hne)⟩

end OutlineEntry

namespace ResolvedType

variable {t u : ResolvedType}

/-- Whether the entries list the members of the type in order, each once. -/
structure IsOutline (t : ResolvedType) (entries : List OutlineEntry) : Prop where
  /-- There is one entry for each member of the table, which shows its name, kind and visibility,
  whether it is static, its declaring type and its place. -/
  lists : entries.Perm (t.members.values.map fun m =>
    ⟨m.name, m.kind, m.visibility, m.isStatic, m.origin.owner, m.location⟩)
  ordered : entries.Pairwise OutlineEntry.Before

theorem outline_perm (t : ResolvedType) :
    t.outline.Perm (t.members.values.map OutlineEntry.ofMember) :=
  List.mergeSort_perm _ _

theorem nodup_keys_outline (t : ResolvedType) : (t.outline.map OutlineEntry.key).Nodup := by
  rw [(t.outline_perm.map OutlineEntry.key).nodup_iff, List.map_map]
  show (t.members.values.map fun m => m.key).Nodup
  rw [MemberTable.map_key_values]
  exact t.members.nodup_keys

theorem isOutline_outline (t : ResolvedType) : t.IsOutline t.outline where
  lists := t.outline_perm
  ordered := by
    have hsorted : t.outline.Pairwise fun a b => a.precedes b = true :=
      List.pairwise_mergeSort OutlineEntry.precedes_trans OutlineEntry.precedes_total _
    have hkeys := List.pairwise_map.mp t.nodup_keys_outline
    exact (hsorted.and hkeys).imp fun hab => OutlineEntry.before_of_precedes hab.1 hab.2

theorem IsOutline.eq_of_perm {as bs : List OutlineEntry} (ha : t.IsOutline as) (hb : u.IsOutline bs)
    (h : t.members.values.Perm u.members.values) : as = bs := by
  apply List.Perm.eq_of_pairwise _ ha.ordered hb.ordered
  · exact ha.lists.trans ((h.map _).trans hb.lists.symm)
  · intro a b _ _ hab hba
    exact absurd hba hab.asymm

/-- However the table of a type came about, its outline lists each member once, in strictly increasing
order, and depends on nothing but what is found under each key. -/
theorem outline_canonical (t : ResolvedType) :
    t.IsOutline t.outline ∧
    ∀ u : ResolvedType, (∀ k, t.members.get? k = u.members.get? k) → t.outline = u.outline := by
  refine ⟨t.isOutline_outline, ?_⟩
  intro u hget
  exact t.isOutline_outline.eq_of_perm u.isOutline_outline (MemberTable.values_perm hget)

def ownRun : VisibleMember := .ofMember ((Member.ofName .method "Run").adoptedBy "C")

def parentRun : VisibleMember := .ofMember ((Member.ofName .method "run").adoptedBy "P")

def parentSize : VisibleMember := .ofMember ((Member.ofName .property "size").adoptedBy "P")

def ownFirst : List MemberTable.Change := [.install ownRun, .offer "C" [parentRun, parentSize]]

def ownLast : List MemberTable.Change :=
  [.install parentSize, .install parentRun, .takeOut (.method "RUN"),
    .install (ownRun.shadowing parentRun)]

/-- The two tables hold the same under every key, in different orders, and their outline is the same. -/
theorem outline_canonical_ownLast :
    let t : ResolvedType := { ofHeading default with members := .afterChanges ownFirst }
    let u : ResolvedType := { ofHeading default with members := .afterChanges ownLast }
    t.members.keys ≠ u.members.keys ∧ t.IsOutline t.outline ∧ t.outline = u.outline := by
  intro t u
  have ht : t.members.entries = [(.method "run", ownRun.shadowing parentRun),
    (.ofName .property "size", parentSize)] := rfl
  have hu : u.members.entries = [(.ofName .property "size", parentSize),
    (.method "run", ownRun.shadowing parentRun)] := rfl
  have hget (k : MemberKey) : t.members.get? k = u.members.get? k := by
    rw [OrderedMap.get?, OrderedMap.get?, ht, hu]
    simp only [OrderedMap.find?]
    by_cases hrun : MemberKey.method "run" = k
    · have hne : MemberKey.ofName .property "size" ≠ k := by
        rw [← hrun]
        decide
      rw [if_pos hrun, if_neg hne, if_pos hrun]
    · rw [if_neg hrun, if_neg hrun]
  obtain ⟨hlists, hsame⟩ := outline_canonical t
  refine ⟨?_, hlists, hsame u hget⟩
  rw [OrderedMap.keys, OrderedMap.keys, ht, hu]
  decide

end ResolvedType

end Hierarchy
