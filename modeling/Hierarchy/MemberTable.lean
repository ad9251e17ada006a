import Hierarchy.OrderedMap
import Hierarchy.VisibleMember

namespace Hierarchy

/-- The visible members of a type, each under its own key, in the order in which the keys arrived. -/
@[ext]
structure MemberTable extends OrderedMap MemberKey VisibleMember where
  own : ∀ e ∈ entries, e.1 = e.2.key

namespace MemberTable

def empty : MemberTable where
  toOrderedMap := .empty
  own _ he := nomatch he

instance : Inhabited MemberTable := ⟨empty⟩

/-- Installs a member under its own key. -/
def put (t : MemberTable) (m : VisibleMember) : MemberTable where
  toOrderedMap := t.insert m.key m
  own e he := by
    rcases OrderedMap.mem_entries_insert he with rfl | he
    · rfl
    · exact t.own e he

def erase (t : MemberTable) (k : MemberKey) : MemberTable where
  toOrderedMap := t.toOrderedMap.erase k
  own e he := t.own e (List.mem_filter.mp he).1

/-- Records `m` as hidden by the member under its key; a table without such a member is left as it
is. -/
def hide (t : MemberTable) (m : VisibleMember) : MemberTable where
  toOrderedMap := t.modify m.key fun shown => shown.shadowing m
  own e he := by
    obtain ⟨e', he', rfl⟩ := List.mem_map.mp he
    split <;> exact t.own e' he'

/-- Installs the members one after another; of two with the same key the later stays. -/
def putAll (t : MemberTable) (ms : List VisibleMember) : MemberTable := ms.foldl put t

/-- Installs a member under its own key and hands back the member that it replaces, if any. -/
def exchange (t : MemberTable) (m : VisibleMember) : Option VisibleMember × MemberTable :=
  (t.get? m.key, t.put m)

def take (t : MemberTable) (k : MemberKey) : Option VisibleMember × MemberTable :=
  (t.get? k, t.erase k)

def lookup? (t : MemberTable) (kind : MemberKind) (name : String) : Option VisibleMember :=
  t.get? (.ofName kind name)

def ofKind (t : MemberTable) (kind : MemberKind) : List VisibleMember :=
  (t.entries.filter fun e => e.1.kind = kind).map Prod.snd

/-- Whether two tables bind the same keys to the same members, in whatever order. -/
def sameBindings (t u : MemberTable) : Bool :=
  t.size == u.size && t.entries.all fun e => u.get? e.1 == some e.2

variable {t : MemberTable} {k : MemberKey} {m : VisibleMember}

@[simp]
theorem get?_empty (k : MemberKey) : empty.get? k = none := rfl

@[simp]
theorem keys_empty : empty.keys = [] := rfl

@[simp]
theorem get?_put_self (t : MemberTable) (m : VisibleMember) : (t.put m).get? m.key = some m :=
  t.get?_insert_self m.key m

theorem get?_put_of_ne (t : MemberTable) (m : VisibleMember) (h : m.key ≠ k) :
    (t.put m).get? k = t.get? k :=
  t.get?_insert_of_ne m h

theorem keys_put (t : MemberTable) (m : VisibleMember) :
    (t.put m).keys = if m.key ∈ t.keys then t.keys else t.keys ++ [m.key] :=
  t.keys_insert m.key m

theorem get?_erase (t : MemberTable) (k k' : MemberKey) :
    (t.erase k).get? k' = if k = k' then none else t.get? k' :=
  t.toOrderedMap.get?_erase k k'

theorem get?_hide (t : MemberTable) (m : VisibleMember) (k : MemberKey) :
    (t.hide m).get? k =
      if m.key = k then (t.get? k).map fun shown => shown.shadowing m else t.get? k :=
  t.get?_modify m.key k _

theorem keys_hide (t : MemberTable) (m : VisibleMember) : (t.hide m).keys = t.keys :=
  t.keys_modify m.key _

theorem key_of_get? (h : t.get? k = some m) : m.key = k :=
  (t.own _ (OrderedMap.mem_entries_of_get? h)).symm

theorem map_key_values (t : MemberTable) : t.values.map (fun m => m.key) = t.keys := by
  rw [OrderedMap.values, OrderedMap.keys, List.map_map]
  apply List.map_congr_left
  intro e he
  exact (t.own e he).symm

theorem mem_values_iff : m ∈ t.values ↔ t.get? m.key = some m := by
  rw [OrderedMap.mem_values_iff]
  constructor
  · rintro ⟨k, -, hget⟩
    rwa [key_of_get? hget]
  · intro hget
    exact ⟨m.key, List.mem_map_of_mem (OrderedMap.mem_entries_of_get? hget), hget⟩

theorem ofKind_eq (t : MemberTable) (kind : MemberKind) :
    t.ofKind kind = t.values.filter fun m => m.kind = kind := by
  rw [ofKind, OrderedMap.values, List.filter_map]
  congr 1
  apply List.filter_congr
  intro e he
  rw [t.own e he, Function.comp_apply, Member.key, MemberKey.kind_ofName]

theorem mem_ofKind_iff {kind : MemberKind} :
    m ∈ t.ofKind kind ↔ t.get? m.key = some m ∧ m.kind = kind := by
  rw [ofKind_eq, List.mem_filter, mem_values_iff, decide_eq_true_iff]

end MemberTable

end Hierarchy
