import Hierarchy.Merge

namespace Hierarchy

namespace MemberTable

variable {t : MemberTable}

/-- A change to a table of members. -/
inductive Change where
  | install (m : VisibleMember)
  | takeOut (k : MemberKey)
  | offer (owner : String) (ms : List VisibleMember)

def change (t : MemberTable) : Change → MemberTable
  | .install m => (t.exchange m).2
  | .takeOut k => (t.take k).2
  | .offer owner ms => t.offerAll owner ms

/-- The table after changes made one after another, of which the first finds it empty. -/
def afterChanges (cs : List Change) : MemberTable := cs.foldl change .empty

/-- Whether the table is a map that keeps its keys in the order of their arrival. -/
structure Lawful (t : MemberTable) : Prop where
  nodup : t.keys.Nodup
  own : ∀ k m, (k, m) ∈ t.entries → k = m.key
  ofKind : ∀ kind, t.ofKind kind = t.values.filter fun m => m.kind = kind
  /-- A member that has been installed is found by every name that has its key. -/
  found : ∀ m kind name, MemberKey.ofName kind name = m.key →
    (t.exchange m).2.lookup? kind name = some m
  others : ∀ m k, k ≠ m.key → (t.exchange m).2.get? k = t.get? k
  order : ∀ m, ((t.exchange m).2.keys.filter fun k => k ≠ m.key) = t.keys.filter fun k => k ≠ m.key
  /-- A member that replaces another stands in its place and hands it back. -/
  replaces : ∀ m before old after, t.entries = before ++ (m.key, old) :: after →
    (t.exchange m).1 = some old ∧ (t.exchange m).2.entries = before ++ (m.key, m) :: after
  appends : ∀ m, m.key ∉ t.keys →
    (t.exchange m).1 = none ∧ (t.exchange m).2.entries = t.entries ++ [(m.key, m)]
  /-- What is taken out leaves the rest in its order. -/
  takesOut : ∀ k before old after, t.entries = before ++ (k, old) :: after →
    (t.take k).1 = some old ∧ (t.take k).2.entries = before ++ after
  spares : ∀ k, k ∉ t.keys → t.take k = (none, t)

theorem filter_keys_put (t : MemberTable) (m : VisibleMember) :
    ((t.put m).keys.filter fun k => k ≠ m.key) = t.keys.filter fun k => k ≠ m.key := by
  rw [keys_put]
  split
  · rfl
  · simp

theorem erase_of_notMem {k : MemberKey} (h : k ∉ t.keys) : t.erase k = t :=
  MemberTable.ext (congrArg OrderedMap.entries (OrderedMap.erase_of_notMem h))

/-- A table obeys the laws of a map in order of arrival, whatever has been installed, taken out and
offered before. -/
theorem lawful_afterChanges (cs : List Change) : (afterChanges cs).Lawful where
  nodup := (afterChanges cs).nodup_keys
  own k m hm := (afterChanges cs).own (k, m) hm
  ofKind := (afterChanges cs).ofKind_eq
  found m kind name hname := by
    rw [lookup?, hname]
    exact get?_put_self _ m
  others m k hk := get?_put_of_ne _ m (Ne.symm hk)
  order := filter_keys_put _
  replaces m before old after hentries :=
    ⟨OrderedMap.get?_of_entries_eq hentries, OrderedMap.entries_insert_of_entries_eq hentries m⟩
  appends m hm :=
    ⟨OrderedMap.get?_eq_none_iff.mpr hm, OrderedMap.entries_insert_of_notMem hm m⟩
  takesOut k before old after hentries :=
    ⟨OrderedMap.get?_of_entries_eq hentries, OrderedMap.entries_erase_of_entries_eq hentries⟩
  spares k hk := by
    rw [take, OrderedMap.get?_eq_none_iff.mpr hk, erase_of_notMem hk]

end MemberTable

end Hierarchy
