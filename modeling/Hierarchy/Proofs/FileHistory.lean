import Mathlib.Algebra.GroupWithZero.Nat
import Hierarchy.Proofs.CodebaseEdits

namespace Hierarchy

section Stable

variable {κ α : Type} [DecidableEq κ]

theorem filter_append_filter_of_pairwise {le : α → α → Prop} {p : α → Bool} {l : List α}
    (h : l.Pairwise le) (hp : ∀ a b, le a b → p b = true → p a = true) :
    (l.filter p ++ l.filter fun a => !p a) = l := by
  induction l with
  | nil => rfl
  | cons a rest ih =>
    obtain ⟨hfirst, hrest⟩ := List.pairwise_cons.mp h
    by_cases ha : p a = true
    · simp [ha, ih hrest]
    · have hnone : ∀ b ∈ rest, ¬ p b = true := fun b hb hpb => ha (hp a b (hfirst b hb) hpb)
      have hrest_none : rest.filter p = [] := List.filter_eq_nil_iff.mpr hnone
      have hrest_all : (rest.filter fun b => !p b) = rest := by
        apply List.filter_eq_self.mpr
        simpa using hnone
      simp [ha, hrest_none, hrest_all]

theorem flatMap_filter_of_pairwise {order : List κ} (hnodup : order.Nodup) {l : List (κ × α)}
    (hmem : ∀ e ∈ l, e.1 ∈ order)
    (h : l.Pairwise fun a b => order.idxOf a.1 ≤ order.idxOf b.1) :
    (order.flatMap fun k => l.filter fun e => e.1 = k) = l := by
  induction order generalizing l with
  | nil =>
    have hnil : l = [] := List.eq_nil_iff_forall_not_mem.mpr fun e he => by simpa using hmem e he
    simp [hnil]
  | cons k rest ih =>
    obtain ⟨hk, hrest⟩ := List.nodup_cons.mp hnodup
    -- The elements with the first key come first; the others are sorted by the remaining keys.
    have hsplit : (l.filter fun e => e.1 = k) ++ (l.filter fun e => !decide (e.1 = k)) = l := by
      apply filter_append_filter_of_pairwise h
      intro a b hab hb
      have hb : b.1 = k := by simpa using hb
      have hzero : (k :: rest).idxOf a.1 = 0 := by simpa [hb] using hab
      by_contra ha
      have hne : k ≠ a.1 := fun heq => ha (by simp [heq])
      simp [List.idxOf_cons_ne _ hne] at hzero
    have hmem' : ∀ e ∈ l.filter fun e => !decide (e.1 = k), e.1 ∈ rest := by
      intro e he
      obtain ⟨hel, hne⟩ := List.mem_filter.mp he
      exact (List.mem_cons.mp (hmem e hel)).resolve_left (by simpa using hne)
    have hpair : (l.filter fun e => !decide (e.1 = k)).Pairwise
        fun a b => rest.idxOf a.1 ≤ rest.idxOf b.1 := by
      refine (h.filter _).imp_of_mem ?_
      intro a b ha hb hab
      have hka : k ≠ a.1 := fun heq => by simp [← heq] at ha
      have hkb : k ≠ b.1 := fun heq => by simp [← heq] at hb
      simpa [List.idxOf_cons_ne _ hka, List.idxOf_cons_ne _ hkb] using hab
    have hparts : (rest.flatMap fun k' => (l.filter fun e => !decide (e.1 = k)).filter
        fun e => e.1 = k') = rest.flatMap fun k' => l.filter fun e => e.1 = k' := by
      apply List.flatMap_congr
      intro k' hk'
      have hne : k' ≠ k := fun heq => hk (heq ▸ hk')
      rw [List.filter_filter]
      apply List.filter_congr
      intro e _
      by_cases he : e.1 = k' <;> simp [he, hne]
    rw [List.flatMap_cons, ← hparts, ih hrest hmem' hpair, hsplit]

theorem placeLe_trans (order : List κ) (a b c : κ × α)
    (hab : decide (order.idxOf a.1 ≤ order.idxOf b.1) = true)
    (hbc : decide (order.idxOf b.1 ≤ order.idxOf c.1) = true) :
    decide (order.idxOf a.1 ≤ order.idxOf c.1) = true := by
  simp only [decide_eq_true_eq] at hab hbc ⊢
  omega

theorem placeLe_total (order : List κ) (a b : κ × α) :
    (decide (order.idxOf a.1 ≤ order.idxOf b.1) || decide (order.idxOf b.1 ≤ order.idxOf a.1)) =
      true := by
  simp only [Bool.or_eq_true, decide_eq_true_eq]
  omega

theorem filter_mergeSort_idxOf (order : List κ) (l : List (κ × α)) (k : κ) :
    ((l.mergeSort fun a b => order.idxOf a.1 ≤ order.idxOf b.1).filter fun e => e.1 = k) =
      l.filter fun e => e.1 = k := by
  have hsame : (l.filter fun e => e.1 = k).Pairwise
      fun a b => decide (order.idxOf a.1 ≤ order.idxOf b.1) = true := by
    apply List.pairwise_of_forall_mem_list
    intro a ha b hb
    have ha : a.1 = k := by simpa using (List.mem_filter.mp ha).2
    have hb : b.1 = k := by simpa using (List.mem_filter.mp hb).2
    simp [ha, hb]
  have hsub : (l.filter fun e => e.1 = k).Sublist
      (l.mergeSort fun a b => order.idxOf a.1 ≤ order.idxOf b.1) :=
    List.sublist_mergeSort (placeLe_trans order) (placeLe_total order) hsame List.filter_sublist
  have hparts := hsub.filter fun e => decide (e.1 = k)
  rw [List.filter_filter] at hparts
  simp only [Bool.and_self] at hparts
  refine (hparts.eq_of_length ?_).symm
  exact ((List.mergeSort_perm l _).filter _).length_eq.symm

/-- Sorting by the places of keys in `order` lists the elements of the first key, then those of the
second, and so on. -/
theorem mergeSort_idxOf_eq_flatMap {order : List κ} (hnodup : order.Nodup) {l : List (κ × α)}
    (hmem : ∀ e ∈ l, e.1 ∈ order) :
    (l.mergeSort fun a b => order.idxOf a.1 ≤ order.idxOf b.1) =
      order.flatMap fun k => l.filter fun e => e.1 = k := by
  have hsorted : (l.mergeSort fun a b => order.idxOf a.1 ≤ order.idxOf b.1).Pairwise
      fun a b => order.idxOf a.1 ≤ order.idxOf b.1 := by
    refine (List.pairwise_mergeSort (placeLe_trans order) (placeLe_total order) l).imp ?_
    intro a b hab
    simpa using hab
  have hparts := flatMap_filter_of_pairwise hnodup (fun e he => hmem e (List.mem_mergeSort.mp he))
    hsorted
  simp only [filter_mergeSort_idxOf] at hparts
  exact hparts.symm

end Stable

namespace Codebase

def Edit.file : Edit → FileId
  | .put file _ => file
  | .drop file => file

def Edit.contents? : Edit → Option (List Declaration)
  | .put _ ds => some ds
  | .drop _ => none

def Edit.forgets (file : FileId) : Edit → Bool
  | .put _ _ => false
  | .drop other => other = file

/-- What the last edit of a file left there, if the file was set and not forgotten since. -/
def lastContents? (es : List Edit) (file : FileId) : Option (List Declaration) :=
  (es.filter fun e => e.file = file).getLast?.bind Edit.contents?

theorem afterEdits_concat (es : List Edit) (e : Edit) :
    afterEdits (es ++ [e]) = (afterEdits es).edit e := by
  simp [afterEdits]

theorem lastContents?_concat (es : List Edit) (e : Edit) (file : FileId) :
    lastContents? (es ++ [e]) file =
      if e.file = file then e.contents? else lastContents? es file := by
  by_cases h : e.file = file <;> simp [lastContents?, h]

theorem get?_files_edit (c : Codebase) (e : Edit) (file : FileId) :
    (c.edit e).files.get? file = if e.file = file then e.contents? else c.files.get? file := by
  cases e with
  | put other ds => exact c.files.get?_insert other file ds
  | drop other => exact c.files.get?_erase other file

theorem get?_files_afterEdits (es : List Edit) (file : FileId) :
    (afterEdits es).files.get? file = lastContents? es file := by
  induction es using List.reverseRecOn with
  | nil => rfl
  | append_singleton es e ih => rw [afterEdits_concat, get?_files_edit, lastContents?_concat, ih]

theorem mem_keys_files_afterEdits (es : List Edit) (file : FileId) :
    file ∈ (afterEdits es).files.keys ↔ (lastContents? es file).isSome = true := by
  rw [← OrderedMap.contains_iff_mem_keys, OrderedMap.contains, get?_files_afterEdits]

theorem prefix_keys_files_edit (c : Codebase) (e : Edit) :
    (c.files.keys.filter fun file => !e.forgets file) <+: (c.edit e).files.keys := by
  cases e with
  | put file ds =>
    rw [edit, keys_files_putFile]
    split
    · simp [Edit.forgets]
    · simp [Edit.forgets]
  | drop file =>
    have hkeys : (c.edit (.drop file)).files.keys = c.files.keys.filter fun other => other ≠ file :=
      c.files.keys_erase file
    simp [hkeys, Edit.forgets, eq_comm]

theorem prefix_keys_files_afterEdits (earlier later : List Edit) :
    ((afterEdits earlier).files.keys.filter fun file => !later.any (Edit.forgets file)) <+:
      (afterEdits (earlier ++ later)).files.keys := by
  induction later using List.reverseRecOn with
  | nil => simp
  | append_singleton later e ih =>
    have hkept : ((afterEdits earlier).files.keys.filter
        fun file => !(later ++ [e]).any (Edit.forgets file)) =
        ((afterEdits earlier).files.keys.filter fun file => !later.any (Edit.forgets file)).filter
          fun file => !e.forgets file := by
      rw [List.filter_filter]
      apply List.filter_congr
      intro file _
      simp [Bool.and_comm]
    rw [hkept, ← List.append_assoc, afterEdits_concat]
    exact (ih.filter _).trans (prefix_keys_files_edit _ e)

theorem Indexed.mem_keys_files {c : Codebase} (h : c.Indexed) {k : TypeKey}
    {e : FileId × Declaration} (he : e ∈ entriesFor c.index k) : e.1 ∈ c.files.keys := by
  by_contra hout
  have hnone : c.files.get? e.1 = none := OrderedMap.get?_eq_none_iff.mpr hout
  have hdecl := (h.mem_entriesFor he).1
  simp [declarationsIn, hnone] at hdecl

/-- The candidates for a name are found by going through the files one by one. -/
theorem Indexed.candidatesFor_eq {c : Codebase} (h : c.Indexed) (name : String) :
    c.candidatesFor name = c.files.keys.flatMap fun file =>
      (c.declarationsIn file).filter fun d => d.key = .ofName name := by
  calc
    c.candidatesFor name = ((entriesFor c.index (.ofName name)).mergeSort
        fun a b => c.files.keys.idxOf a.1 ≤ c.files.keys.idxOf b.1).map Prod.snd := rfl
    _ = (c.files.keys.flatMap fun file =>
        (entriesFor c.index (.ofName name)).filter fun e => e.1 = file).map Prod.snd := by
      rw [mergeSort_idxOf_eq_flatMap c.files.nodup_keys fun e he => h.mem_keys_files he]
    _ = c.files.keys.flatMap fun file =>
        (c.declarationsIn file).filter fun d => d.key = .ofName name := by
      simp [h _ _, List.map_flatMap, Function.comp_def]

theorem size_eq_sum (c : Codebase) :
    c.size = (c.files.keys.map fun file => (c.declarationsIn file).length).sum := by
  have hvalues := c.files.map_some_values
  have hlengths : (c.files.keys.map fun file => (c.declarationsIn file).length) =
      c.files.values.map List.length := by
    calc
      _ = (c.files.keys.map c.files.get?).map fun ds => (ds.getD []).length := by
        simp [declarationsIn, Function.comp_def]
      _ = _ := by simp [← hvalues, Function.comp_def]
  rw [hlengths, size, List.sum_eq_foldr, List.foldr_map]

/-- What a codebase shows is settled by the edits it came about by. -/
structure Reflects (c : Codebase) (es : List Edit) : Prop where
  /-- The candidates for a name are its declarations in the first file, then in the second, and so
  on, those of one file in source order. -/
  candidates : ∀ name, c.candidatesFor name = c.files.keys.flatMap fun file =>
    (c.declarationsIn file).filter fun d => d.key = .ofName name
  contents : ∀ file, c.declarationsIn file = (lastContents? es file).getD []
  listed : ∀ file, file ∈ c.files.keys ↔ (lastContents? es file).isSome = true
  nodup : c.files.keys.Nodup
  /-- A file keeps its position when it is set again; a new one, or one that was forgotten, goes to
  the end. -/
  position : ∀ file ds, (c.edit (.put file ds)).files.keys =
    if file ∈ c.files.keys then c.files.keys else c.files.keys ++ [file]
  /-- Of the files there were at any time, those not forgotten since come first, in that order. -/
  order : ∀ earlier later, es = earlier ++ later →
    ((afterEdits earlier).files.keys.filter fun file => !later.any (Edit.forgets file)) <+:
      c.files.keys
  size : c.size = (c.files.keys.map fun file => (c.declarationsIn file).length).sum

/-- Whatever the edits, a codebase is the list of its files: lookups, contents, positions and size
can all be read off the edits. -/
theorem files_determine_codebase (es : List Edit) : (afterEdits es).Reflects es where
  candidates := (indexed_afterEdits es).candidatesFor_eq
  contents file := by rw [declarationsIn, get?_files_afterEdits]
  listed := mem_keys_files_afterEdits es
  nodup := (afterEdits es).files.nodup_keys
  position := keys_files_putFile _
  order := by
    rintro earlier later rfl
    exact prefix_keys_files_afterEdits earlier later
  size := size_eq_sum _

-- A file that is set again keeps its place before a file that came in later, though its declarations
-- now come last in the index.
example : ((afterEdits [.put ⟨5⟩ [.ofName .classType "Dup"], .put ⟨2⟩ [.ofName .classType "dup"],
    .put ⟨5⟩ [.ofName .classType "DUP"]]).candidatesFor "Dup").map (fun d => d.name) =
    ["DUP", "dup"] := by
  cbv

end Codebase

end Hierarchy
