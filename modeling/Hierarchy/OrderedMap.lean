namespace Hierarchy

/-- A finite map whose keys stand in the order of their arrival: each is bound once, a known key keeps
its place when it gets a new value, and a new key goes to the end. -/
@[ext]
structure OrderedMap (κ α : Type) where
  entries : List (κ × α)
  nodup : (entries.map Prod.fst).Nodup

namespace OrderedMap

variable {κ α : Type}

def empty : OrderedMap κ α := ⟨[], List.nodup_nil⟩

instance : Inhabited (OrderedMap κ α) := ⟨empty⟩

def keys (m : OrderedMap κ α) : List κ := m.entries.map Prod.fst

def values (m : OrderedMap κ α) : List α := m.entries.map Prod.snd

def size (m : OrderedMap κ α) : Nat := m.entries.length

def isEmpty (m : OrderedMap κ α) : Bool := m.entries.isEmpty

theorem nodup_keys (m : OrderedMap κ α) : m.keys.Nodup := m.nodup

@[simp]
theorem keys_empty : (empty : OrderedMap κ α).keys = [] := rfl

@[simp]
theorem size_empty : (empty : OrderedMap κ α).size = 0 := rfl

variable [DecidableEq κ]

/-- The value bound to `k` in a list of bindings; the first binding counts. -/
def find? (k : κ) : List (κ × α) → Option α
  | [] => none
  | (k', a) :: rest => if k' = k then some a else find? k rest

/-- Binds `k` to `a` in a list of bindings: in place when `k` is bound, else at the end. -/
def bindTo (k : κ) (a : α) : List (κ × α) → List (κ × α)
  | [] => [(k, a)]
  | (k', b) :: rest => if k' = k then (k', a) :: rest else (k', b) :: bindTo k a rest

theorem map_fst_bindTo (k : κ) (a : α) (l : List (κ × α)) :
    (bindTo k a l).map Prod.fst =
      if k ∈ l.map Prod.fst then l.map Prod.fst else l.map Prod.fst ++ [k] := by
  induction l with
  | nil => simp [bindTo]
  | cons e rest ih =>
    obtain ⟨j, b⟩ := e
    by_cases h : j = k
    · simp [bindTo, h]
    · by_cases hk : k ∈ rest.map Prod.fst
      · rw [bindTo, if_neg h, List.map_cons, ih, if_pos hk, List.map_cons,
          if_pos (List.mem_cons_of_mem _ hk)]
      · have hcons : k ∉ ((j, b) :: rest).map Prod.fst := by
          simp only [List.map_cons, List.mem_cons, not_or]
          exact ⟨Ne.symm h, hk⟩
        rw [bindTo, if_neg h, List.map_cons, ih, if_neg hk, if_neg hcons]
        rfl

theorem nodup_map_fst_bindTo {l : List (κ × α)} (h : (l.map Prod.fst).Nodup) (k : κ) (a : α) :
    ((bindTo k a l).map Prod.fst).Nodup := by
  rw [map_fst_bindTo]
  split
  · exact h
  · rename_i hk
    apply List.nodup_append.mpr
    refine ⟨h, by simp, ?_⟩
    intro k' hk' k'' hk''
    rw [List.mem_singleton.mp hk'']
    exact fun heq => hk (heq ▸ hk')

theorem map_fst_updated (k : κ) (f : α → α) (l : List (κ × α)) :
    (l.map fun e => if e.1 = k then (e.1, f e.2) else e).map Prod.fst = l.map Prod.fst := by
  rw [List.map_map]
  apply List.map_congr_left
  intro e _
  by_cases h : e.1 = k <;> simp [h]

def get? (m : OrderedMap κ α) (k : κ) : Option α := find? k m.entries

def contains (m : OrderedMap κ α) (k : κ) : Bool := (m.get? k).isSome

def insert (m : OrderedMap κ α) (k : κ) (a : α) : OrderedMap κ α where
  entries := bindTo k a m.entries
  nodup := nodup_map_fst_bindTo m.nodup k a

def erase (m : OrderedMap κ α) (k : κ) : OrderedMap κ α where
  entries := m.entries.filter fun e => e.1 ≠ k
  nodup := m.nodup.sublist (List.filter_sublist.map _)

def modify (m : OrderedMap κ α) (k : κ) (f : α → α) : OrderedMap κ α where
  entries := m.entries.map fun e => if e.1 = k then (e.1, f e.2) else e
  nodup := by
    rw [map_fst_updated]
    exact m.nodup

@[simp]
theorem get?_empty (k : κ) : (empty : OrderedMap κ α).get? k = none := rfl

theorem find?_eq_none_iff {k : κ} {l : List (κ × α)} : find? k l = none ↔ k ∉ l.map Prod.fst := by
  induction l with
  | nil => simp [find?]
  | cons e rest ih =>
    obtain ⟨k', a⟩ := e
    by_cases h : k' = k
    · simp [find?, h]
    · simp [find?, h, ih, Ne.symm h]

theorem get?_eq_none_iff {m : OrderedMap κ α} {k : κ} : m.get? k = none ↔ k ∉ m.keys :=
  find?_eq_none_iff

theorem contains_iff_mem_keys {m : OrderedMap κ α} {k : κ} : m.contains k = true ↔ k ∈ m.keys := by
  rw [contains, Option.isSome_iff_ne_none, ne_eq, get?_eq_none_iff, Decidable.not_not]

theorem map_some_values (m : OrderedMap κ α) : m.values.map some = m.keys.map m.get? := by
  obtain ⟨entries, hnodup⟩ := m
  show (entries.map Prod.snd).map some = (entries.map Prod.fst).map fun k => find? k entries
  induction entries with
  | nil => rfl
  | cons e rest ih =>
    obtain ⟨k, a⟩ := e
    obtain ⟨hk, hrest⟩ := List.nodup_cons.mp hnodup
    have hskip : ((rest.map Prod.fst).map fun k' => find? k' ((k, a) :: rest)) =
        (rest.map Prod.fst).map fun k' => find? k' rest := by
      apply List.map_congr_left
      intro k' hk'
      have hne : k ≠ k' := fun heq => hk (heq ▸ hk')
      simp [find?, hne]
    rw [List.map_cons, List.map_cons, List.map_cons, List.map_cons, hskip, ih hrest]
    simp [find?]

theorem mem_of_find? {k : κ} {a : α} {l : List (κ × α)} (h : find? k l = some a) : (k, a) ∈ l := by
  induction l with
  | nil => simp [find?] at h
  | cons e rest ih =>
    obtain ⟨k', b⟩ := e
    by_cases hk : k' = k
    · obtain rfl : b = a := by simpa [find?, hk] using h
      exact hk ▸ List.mem_cons_self
    · exact List.mem_cons_of_mem _ (ih (by simpa [find?, hk] using h))

theorem mem_entries_of_get? {m : OrderedMap κ α} {k : κ} {a : α} (h : m.get? k = some a) :
    (k, a) ∈ m.entries :=
  mem_of_find? h

theorem mem_values_iff {m : OrderedMap κ α} {a : α} :
    a ∈ m.values ↔ ∃ k ∈ m.keys, m.get? k = some a := by
  have hsome : a ∈ m.values ↔ some a ∈ m.values.map some := by simp
  rw [hsome, map_some_values, List.mem_map]

theorem mem_of_mem_bindTo {k : κ} {a : α} {l : List (κ × α)} {e : κ × α} (h : e ∈ bindTo k a l) :
    e = (k, a) ∨ e ∈ l := by
  induction l with
  | nil => exact .inl (List.mem_singleton.mp h)
  | cons e' rest ih =>
    obtain ⟨k', b⟩ := e'
    unfold bindTo at h
    split at h
    · rename_i hk
      rcases List.mem_cons.mp h with rfl | h
      · exact .inl (by rw [hk])
      · exact .inr (List.mem_cons_of_mem _ h)
    · rcases List.mem_cons.mp h with rfl | h
      · exact .inr List.mem_cons_self
      · exact (ih h).imp_right (List.mem_cons_of_mem _)

theorem mem_entries_insert {m : OrderedMap κ α} {k : κ} {a : α} {e : κ × α}
    (h : e ∈ (m.insert k a).entries) : e = (k, a) ∨ e ∈ m.entries :=
  mem_of_mem_bindTo h

theorem find?_bindTo (k k' : κ) (a : α) (l : List (κ × α)) :
    find? k' (bindTo k a l) = if k = k' then some a else find? k' l := by
  induction l with
  | nil => simp [find?, bindTo]
  | cons e rest ih =>
    obtain ⟨j, b⟩ := e
    by_cases h : j = k
    · subst h
      by_cases hk : j = k' <;> simp [find?, bindTo, hk]
    · by_cases hk : j = k'
      · subst hk
        simp [find?, bindTo, h, Ne.symm h]
      · simp [find?, bindTo, h, hk, ih]

theorem get?_insert (m : OrderedMap κ α) (k k' : κ) (a : α) :
    (m.insert k a).get? k' = if k = k' then some a else m.get? k' :=
  find?_bindTo k k' a m.entries

@[simp]
theorem get?_insert_self (m : OrderedMap κ α) (k : κ) (a : α) : (m.insert k a).get? k = some a := by
  simp [get?_insert]

theorem get?_insert_of_ne (m : OrderedMap κ α) {k k' : κ} (a : α) (h : k ≠ k') :
    (m.insert k a).get? k' = m.get? k' := by
  simp [get?_insert, h]

theorem keys_insert (m : OrderedMap κ α) (k : κ) (a : α) :
    (m.insert k a).keys = if k ∈ m.keys then m.keys else m.keys ++ [k] :=
  map_fst_bindTo k a m.entries

theorem mem_keys_insert {m : OrderedMap κ α} {k k' : κ} {a : α} :
    k' ∈ (m.insert k a).keys ↔ k' ∈ m.keys ∨ k' = k := by
  rw [keys_insert]
  split
  · rename_i hk
    exact ⟨.inl, fun h => h.elim id fun heq => heq ▸ hk⟩
  · rw [List.mem_append, List.mem_singleton]

theorem bindTo_of_notMem {k : κ} {l : List (κ × α)} (h : k ∉ l.map Prod.fst) (a : α) :
    bindTo k a l = l ++ [(k, a)] := by
  induction l with
  | nil => rfl
  | cons e rest ih =>
    obtain ⟨j, b⟩ := e
    obtain ⟨hne, hrest⟩ : k ≠ j ∧ k ∉ rest.map Prod.fst := by simpa using h
    rw [bindTo, if_neg (Ne.symm hne), ih hrest, List.cons_append]

theorem entries_insert_of_notMem {m : OrderedMap κ α} {k : κ} (h : k ∉ m.keys) (a : α) :
    (m.insert k a).entries = m.entries ++ [(k, a)] :=
  bindTo_of_notMem h a

theorem get?_erase (m : OrderedMap κ α) (k k' : κ) :
    (m.erase k).get? k' = if k = k' then none else m.get? k' := by
  show find? k' (m.entries.filter fun e => e.1 ≠ k) = if k = k' then none else find? k' m.entries
  induction m.entries with
  | nil => simp [find?]
  | cons e rest ih =>
    obtain ⟨j, b⟩ := e
    by_cases h : j = k
    · subst h
      by_cases hk : j = k' <;> simp_all [find?]
    · by_cases hk : j = k'
      · subst hk
        simp [find?, h, Ne.symm h]
      · simp_all [find?]

theorem keys_erase (m : OrderedMap κ α) (k : κ) :
    (m.erase k).keys = m.keys.filter fun k' => k' ≠ k := by
  simp [keys, erase, List.filter_map, Function.comp_def]

theorem keys_modify (m : OrderedMap κ α) (k : κ) (f : α → α) : (m.modify k f).keys = m.keys :=
  map_fst_updated k f m.entries

theorem get?_modify (m : OrderedMap κ α) (k k' : κ) (f : α → α) :
    (m.modify k f).get? k' = if k = k' then (m.get? k').map f else m.get? k' := by
  show find? k' (m.entries.map fun e => if e.1 = k then (e.1, f e.2) else e) =
    if k = k' then (find? k' m.entries).map f else find? k' m.entries
  induction m.entries with
  | nil => simp [find?]
  | cons e rest ih =>
    obtain ⟨j, b⟩ := e
    by_cases h : j = k
    · subst h
      by_cases hk : j = k' <;> simp_all [find?]
    · by_cases hk : j = k'
      · subst hk
        simp [find?, h, Ne.symm h]
      · simp_all [find?]

section Opened

-- A map opened at one of its keys, which stands neither before nor after its binding.
variable {m : OrderedMap κ α} {k : κ} {b : α} {before after : List (κ × α)}

omit [DecidableEq κ] in
theorem notMem_of_entries_eq (h : m.entries = before ++ (k, b) :: after) :
    k ∉ before.map Prod.fst ∧ k ∉ after.map Prod.fst := by
  have hnodup := m.nodup
  rw [h, List.map_append, List.map_cons, List.nodup_append, List.nodup_cons] at hnodup
  obtain ⟨-, ⟨hafter, -⟩, hapart⟩ := hnodup
  exact ⟨fun hbefore => hapart k hbefore k List.mem_cons_self rfl, hafter⟩

theorem find?_append_cons (h : k ∉ before.map Prod.fst) :
    find? k (before ++ (k, b) :: after) = some b := by
  induction before with
  | nil => rw [List.nil_append, find?, if_pos rfl]
  | cons e rest ih =>
    obtain ⟨j, c⟩ := e
    obtain ⟨hne, hrest⟩ : k ≠ j ∧ k ∉ rest.map Prod.fst := by simpa using h
    rw [List.cons_append, find?, if_neg (Ne.symm hne), ih hrest]

theorem bindTo_append_cons (h : k ∉ before.map Prod.fst) (a : α) :
    bindTo k a (before ++ (k, b) :: after) = before ++ (k, a) :: after := by
  induction before with
  | nil => rw [List.nil_append, bindTo, if_pos rfl, List.nil_append]
  | cons e rest ih =>
    obtain ⟨j, c⟩ := e
    obtain ⟨hne, hrest⟩ : k ≠ j ∧ k ∉ rest.map Prod.fst := by simpa using h
    rw [List.cons_append, bindTo, if_neg (Ne.symm hne), ih hrest, List.cons_append]

theorem filter_ne_of_notMem {l : List (κ × α)} (h : k ∉ l.map Prod.fst) :
    (l.filter fun e => e.1 ≠ k) = l := by
  apply List.filter_eq_self.mpr
  intro e he
  have hne : e.1 ≠ k := fun heq => h (heq ▸ List.mem_map_of_mem he)
  simpa using hne

theorem get?_of_entries_eq (h : m.entries = before ++ (k, b) :: after) : m.get? k = some b := by
  rw [get?, h, find?_append_cons (notMem_of_entries_eq h).1]

theorem entries_insert_of_entries_eq (h : m.entries = before ++ (k, b) :: after) (a : α) :
    (m.insert k a).entries = before ++ (k, a) :: after := by
  show bindTo k a m.entries = before ++ (k, a) :: after
  rw [h, bindTo_append_cons (notMem_of_entries_eq h).1]

theorem entries_erase_of_entries_eq (h : m.entries = before ++ (k, b) :: after) :
    (m.erase k).entries = before ++ after := by
  obtain ⟨hbefore, hafter⟩ := notMem_of_entries_eq h
  show (m.entries.filter fun e => e.1 ≠ k) = before ++ after
  rw [h, List.filter_append, List.filter_cons_of_neg (by simp), filter_ne_of_notMem hbefore,
    filter_ne_of_notMem hafter]

theorem erase_of_notMem (h : k ∉ m.keys) : m.erase k = m :=
  OrderedMap.ext (filter_ne_of_notMem h)

end Opened

end OrderedMap

end Hierarchy
