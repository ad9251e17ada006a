import Hierarchy.Proofs.DeclaredGraph

namespace Hierarchy

namespace Codebase

inductive Edit where
  | put (file : FileId) (ds : List Declaration)
  | drop (file : FileId)

def edit (c : Codebase) : Edit → Codebase
  | .put file ds => c.putFile file ds
  | .drop file => c.dropFile file

/-- The codebase after edits made one after another, of which the first finds it empty. -/
def afterEdits (es : List Edit) : Codebase := es.foldl edit .empty

def entriesFor (index : CandidateIndex) (k : TypeKey) : List (FileId × Declaration) :=
  (index.get? k).getD []

theorem entriesFor_withdraw (file : FileId) (index : CandidateIndex) (key k : TypeKey) :
    entriesFor (withdraw file index key) k =
      if key = k then (entriesFor index k).filter fun e => e.1 ≠ file else entriesFor index k := by
  unfold withdraw
  split
  · rename_i hget
    by_cases h : key = k
    · simp [entriesFor, ← h, hget]
    · simp [h]
  · rename_i entries hget
    split
    · rename_i hnone
      by_cases h : key = k
      · rw [if_pos h, ← h, entriesFor, entriesFor, OrderedMap.get?_erase, hget, if_pos rfl]
        exact hnone.symm
      · simp [entriesFor, OrderedMap.get?_erase, h]
    · by_cases h : key = k
      · simp [entriesFor, ← h, hget]
      · simp [entriesFor, OrderedMap.get?_insert, h]

theorem entriesFor_foldl_withdraw (file : FileId) (keys : List TypeKey) (index : CandidateIndex)
    (k : TypeKey) :
    entriesFor (keys.foldl (withdraw file) index) k =
      if k ∈ keys then (entriesFor index k).filter fun e => e.1 ≠ file else entriesFor index k := by
  induction keys generalizing index with
  | nil => simp
  | cons key rest ih =>
    rw [List.foldl_cons, ih, entriesFor_withdraw]
    by_cases hkey : key = k
    · simp [hkey]
    · simp [hkey, Ne.symm hkey]

theorem entriesFor_foldl_register (file : FileId) (ds : List Declaration) (index : CandidateIndex)
    (k : TypeKey) :
    entriesFor (ds.foldl (register file) index) k =
      entriesFor index k ++ (ds.filter fun d => d.key = k).map (Prod.mk file) := by
  induction ds generalizing index with
  | nil => simp
  | cons d rest ih =>
    rw [List.foldl_cons, ih]
    by_cases hkey : d.key = k
    · simp [entriesFor, register, hkey]
    · simp [entriesFor, register, OrderedMap.get?_insert, hkey]

/-- Whether the candidates under a key that stand in a file are the declarations of that type in the
file, in source order. -/
def Indexed (c : Codebase) : Prop :=
  ∀ k file, ((entriesFor c.index k).filter fun e => e.1 = file) =
    ((c.declarationsIn file).filter fun d => d.key = k).map (Prod.mk file)

/-- Only the keys of a file's own declarations are searched for its candidates, which is enough. -/
theorem Indexed.entriesFor_indexWithout {c : Codebase} (h : c.Indexed) (file : FileId)
    (k : TypeKey) :
    entriesFor (c.indexWithout file) k = (entriesFor c.index k).filter fun e => e.1 ≠ file := by
  rw [indexWithout, entriesFor_foldl_withdraw]
  split
  · rfl
  · rename_i hk
    have hnone : ((c.declarationsIn file).filter fun d => d.key = k) = [] := by
      apply List.filter_eq_nil_iff.mpr
      intro d hd hkey
      exact hk (List.mem_map.mpr ⟨d, hd, by simpa using hkey⟩)
    have hother : ((entriesFor c.index k).filter fun e => e.1 = file) = [] := by
      rw [h k file, hnone, List.map_nil]
    symm
    apply List.filter_eq_self.mpr
    intro e he
    have hne := List.filter_eq_nil_iff.mp hother e he
    simpa using hne

theorem Indexed.edit {c : Codebase} (h : c.Indexed) (e : Edit) : (c.edit e).Indexed := by
  intro k file
  -- The entries of the edited file go; those of any other file are left alone.
  have hwithout (other : FileId) : ((entriesFor (c.indexWithout other) k).filter
      fun e => e.1 = file) = if other = file then [] else
        ((c.declarationsIn file).filter fun d => d.key = k).map (Prod.mk file) := by
    rw [h.entriesFor_indexWithout, List.filter_filter]
    split
    · rename_i hfile
      apply List.filter_eq_nil_iff.mpr
      simp [hfile]
    · rename_i hfile
      rw [← h k file]
      apply List.filter_congr
      intro e _
      by_cases he : e.1 = file <;> simp [he, Ne.symm hfile]
  cases e with
  | put other ds =>
    have hindex : entriesFor (c.edit (.put other ds)).index k =
        entriesFor (c.indexWithout other) k ++ (ds.filter fun d => d.key = k).map (Prod.mk other) :=
      entriesFor_foldl_register other ds _ k
    rw [hindex, List.filter_append, hwithout, Codebase.edit, declarationsIn_putFile]
    by_cases hfile : other = file
    · simp [hfile, List.filter_map, Function.comp_def]
    · simp [hfile, List.filter_map, Function.comp_def]
  | drop other =>
    have hindex : entriesFor (c.edit (.drop other)).index k = entriesFor (c.indexWithout other) k :=
      rfl
    rw [hindex, hwithout, Codebase.edit, declarationsIn_dropFile]
    by_cases hfile : other = file
    · simp [hfile]
    · simp [hfile]

theorem indexed_afterEdits (es : List Edit) : (afterEdits es).Indexed :=
  List.foldlRecOn (motive := Indexed) es Codebase.edit (fun _ _ => rfl) fun _ h e _ => h.edit e

theorem Indexed.mem_entriesFor {c : Codebase} (h : c.Indexed) {k : TypeKey}
    {e : FileId × Declaration} (he : e ∈ entriesFor c.index k) :
    e.2 ∈ c.declarationsIn e.1 ∧ e.2.key = k := by
  obtain ⟨file, d⟩ := e
  have hmem : (file, d) ∈ (entriesFor c.index k).filter fun e => e.1 = file := by simp [he]
  rw [h k file] at hmem
  simpa using hmem

theorem exists_file_of_mem_candidatesFor {es : List Edit} {name : String} {d : Declaration}
    (h : d ∈ (afterEdits es).candidatesFor name) :
    ∃ file, d ∈ (afterEdits es).declarationsIn file ∧ d.key = .ofName name := by
  obtain ⟨e, he, rfl⟩ := List.mem_map.mp h
  rw [List.mem_mergeSort] at he
  exact ⟨e.1, (indexed_afterEdits es).mem_entriesFor he⟩

theorem uniform_source (c : Codebase) : c.source.Uniform := by
  intro a b h
  simp only [source, candidatesFor, h]

theorem keyed_source (es : List Edit) : (afterEdits es).source.Keyed := by
  rintro name _ ⟨⟩ d hd
  obtain ⟨_, -, hkey⟩ := exists_file_of_mem_candidatesFor hd
  exact hkey

theorem mem_of_source_eq {file : FileId} {ds : List Declaration} {name : String} {d : Declaration}
    {others : List Declaration} (h : (afterEdits [.put file ds]).source name = .ok (d :: others)) :
    d ∈ ds ∧ d.key = .ofName name := by
  have hd : d ∈ (afterEdits [.put file ds]).candidatesFor name := by
    rw [Except.ok.inj h]
    exact List.mem_cons_self
  obtain ⟨other, hd, hkey⟩ := exists_file_of_mem_candidatesFor hd
  have hin : (afterEdits [.put file ds]).declarationsIn other = if file = other then ds else [] :=
    declarationsIn_putFile empty file other ds
  rw [hin] at hd
  split at hd
  · exact ⟨hd, hkey⟩
  · simp at hd

theorem mem_of_leadsBy {file : FileId} {ds : List Declaration} {names : Declaration → List String}
    {k k' : TypeKey} (h : (afterEdits [.put file ds]).source.LeadsBy names k k') :
    ∃ d ∈ ds, d.key = k ∧ ∃ target ∈ names d, TypeKey.ofName target = k' := by
  obtain ⟨name, d, others, rfl, hsource, target, htarget, rfl⟩ := h
  obtain ⟨hd, hkey⟩ := mem_of_source_eq hsource
  exact ⟨d, hd, hkey, target, htarget, rfl⟩

end Codebase

end Hierarchy
