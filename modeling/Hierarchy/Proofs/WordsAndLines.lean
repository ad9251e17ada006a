import Hierarchy.Text

namespace Hierarchy.Text

theorem pieces_eq_splitOnP (p : Char → Bool) (cs : List Char) : pieces p cs = cs.splitOnP p := by
  induction cs with
  | nil => simp [pieces]
  | cons c rest ih =>
    rw [List.splitOnP_cons_eq_if_modifyHead, pieces, ih]
    by_cases hc : p c = true
    · simp [hc]
    · obtain ⟨piece, others, h⟩ := List.exists_cons_of_ne_nil (ih ▸ pieces_ne_nil p rest)
      simp [hc, h]

theorem not_of_mem_pieces {p : Char → Bool} {cs piece : List Char} (h : piece ∈ pieces p cs) :
    ∀ c ∈ piece, p c = false := by
  induction cs generalizing piece with
  | nil => simp_all [pieces]
  | cons c rest ih =>
    obtain ⟨first, others, hrest⟩ := List.exists_cons_of_ne_nil (pieces_ne_nil p rest)
    rw [hrest] at ih
    by_cases hc : p c = true
    · rw [pieces, if_pos hc, hrest] at h
      rcases List.mem_cons.mp h with rfl | h
      · simp
      · exact ih h
    · simp only [pieces, hrest, hc, Bool.false_eq_true, if_false] at h
      rcases List.mem_cons.mp h with rfl | h
      · simpa [hc] using ih List.mem_cons_self
      · exact ih (List.mem_cons_of_mem _ h)

theorem lines_intercalate {ls : List (List Char)} (hne : ls ≠ []) (h : ∀ l ∈ ls, '\n' ∉ l) :
    lines (['\n'].intercalate ls) = ls := by
  rw [lines, pieces_eq_splitOnP]
  exact List.splitOn_intercalate '\n' h hne

theorem cutAt?_append_cons {p : Char → Bool} {before : List Char} {c : Char} (after : List Char)
    (hbefore : ∀ b ∈ before, p b = false) (hc : p c = true) :
    cutAt? p (before ++ c :: after) = some (before, after) := by
  induction before with
  | nil => simp [cutAt?, hc]
  | cons b before ih =>
    have hb : p b = false := hbefore b (by simp)
    have hrest : cutAt? p (before ++ c :: after) = some (before, after) :=
      ih fun x hx => hbefore x (by simp [hx])
    simp [cutAt?, hb, hrest]

theorem trimStart_eq_self {cs : List Char} (h : cs.head?.any isBlank = false) :
    trimStart cs = cs := by
  cases cs with
  | nil => rfl
  | cons c rest =>
    have hc : isBlank c = false := by simpa using h
    simp [trimStart, hc]

theorem trimEnd_eq_self {cs : List Char} (h : cs.getLast?.any isBlank = false) :
    trimEnd cs = cs := by
  rw [trimEnd, trimStart_eq_self (by rwa [List.head?_reverse]), List.reverse_reverse]

theorem trim_eq_self {cs : List Char} (hfirst : cs.head?.any isBlank = false)
    (hlast : cs.getLast?.any isBlank = false) : trim cs = cs := by
  rw [trim, trimStart_eq_self hfirst, trimEnd_eq_self hlast]

theorem trim_cons_blank {b : Char} (hb : isBlank b = true) (cs : List Char) :
    trim (b :: cs) = trim cs := by
  simp [trim, trimStart, hb]

theorem trimEnd_concat_blank {b : Char} (hb : isBlank b = true) (cs : List Char) :
    trimEnd (cs ++ [b]) = trimEnd cs := by
  simp [trimEnd, trimStart, hb]

@[simp]
theorem words_nil : words [] = [] := rfl

/-- Words on either side of a blank do not touch; all that is said of words below rests on this. -/
theorem words_append_cons {b : Char} (hb : isBlank b = true) (xs ys : List Char) :
    words (xs ++ b :: ys) = words xs ++ words ys := by
  simp only [words, pieces_eq_splitOnP]
  rw [List.splitOnP_append_cons xs ys hb, List.filter_append]

theorem isBlank_space : isBlank ' ' = true := by decide

theorem isBlank_lineFeed : isBlank '\n' = true := by decide

theorem words_intercalate {b : Char} (hb : isBlank b = true) (ws : List (List Char)) :
    words ([b].intercalate ws) = ws.flatMap words := by
  induction ws with
  | nil => simp
  | cons w ws ih =>
    cases ws with
    | nil => simp
    | cons w' ws =>
      rw [List.intercalate_cons_cons, List.append_assoc, List.singleton_append,
        words_append_cons hb, ih]
      rfl

theorem notMem_intercalate {b c : Char} {ws : List (List Char)} (hc : c ≠ b)
    (h : ∀ w ∈ ws, c ∉ w) : c ∉ [b].intercalate ws := by
  induction ws with
  | nil => simp
  | cons w ws ih =>
    have hw : c ∉ w := h w (by simp)
    have hws : c ∉ [b].intercalate ws := ih fun v hv => h v (by simp [hv])
    cases ws with
    | nil => simpa using hw
    | cons w' ws => simp [List.intercalate_cons_cons, hw, hc, hws]

theorem intercalate_append_cons (sep : List Char) (ws : List (List Char)) (x y : List Char)
    (ws' : List (List Char)) : sep.intercalate (ws ++ (x ++ y) :: ws') =
      sep.intercalate (ws ++ [x]) ++ sep.intercalate (y :: ws') := by
  induction ws with
  | nil =>
    cases ws' with
    | nil => simp
    | cons w' ws' => simp [List.intercalate_cons_cons]
  | cons w ws ih =>
    cases ws with
    | nil => simpa [List.intercalate_cons_cons] using ih
    | cons w' ws => simpa [List.intercalate_cons_cons] using ih

def EndsFirm (cs : List Char) : Prop := ∃ c, cs.getLast? = some c ∧ isBlank c = false

theorem EndsFirm.append {ys : List Char} (h : EndsFirm ys) (xs : List Char) :
    EndsFirm (xs ++ ys) := by
  obtain ⟨c, hlast, hc⟩ := h
  exact ⟨c, by simp [hlast], hc⟩

theorem EndsFirm.getLast?_any {cs : List Char} (h : EndsFirm cs) :
    cs.getLast?.any isBlank = false := by
  obtain ⟨c, hlast, hc⟩ := h
  simpa [hlast] using hc

theorem EndsFirm.intercalate_concat {cs : List Char} (h : EndsFirm cs) (sep : List Char)
    (ws : List (List Char)) : EndsFirm (sep.intercalate (ws ++ [cs])) := by
  have hsplit := intercalate_append_cons sep ws [] cs []
  rw [List.nil_append, List.intercalate_singleton] at hsplit
  rw [hsplit]
  exact h.append _

def IsWord (w : List Char) : Prop := w ≠ [] ∧ ∀ c ∈ w, isBlank c = false

instance (w : List Char) : Decidable (IsWord w) :=
  decidable_of_iff (w.isEmpty = false ∧ w.any isBlank = false) (by simp [IsWord])

theorem IsWord.words_eq {w : List Char} (h : IsWord w) : words w = [w] := by
  rw [words, pieces_eq_splitOnP, List.splitOnP_eq_singleton h.2]
  simp [h.1]

theorem isWord_of_mem_words {cs w : List Char} (h : w ∈ words cs) : IsWord w := by
  rw [words, List.mem_filter] at h
  exact ⟨by simpa using h.2, not_of_mem_pieces h.1⟩

/-- At least one word, and single spaces between the words. -/
def IsPhrase (cs : List Char) : Prop := ∃ ws ≠ [], (∀ w ∈ ws, IsWord w) ∧ unwords ws = cs

theorem IsWord.isPhrase {w : List Char} (h : IsWord w) : IsPhrase w :=
  ⟨[w], by simp, by simpa using h, List.intercalate_singleton⟩

theorem words_unwords {ws : List (List Char)} (h : ∀ w ∈ ws, IsWord w) :
    words (unwords ws) = ws := by
  rw [unwords, words_intercalate isBlank_space]
  induction ws with
  | nil => rfl
  | cons w ws ih =>
    rw [List.flatMap_cons, (h w (by simp)).words_eq, ih fun v hv => h v (by simp [hv])]
    rfl

theorem isPhrase_iff {cs : List Char} : IsPhrase cs ↔ words cs ≠ [] ∧ unwords (words cs) = cs := by
  constructor
  · rintro ⟨ws, hne, hws, rfl⟩
    rw [words_unwords hws]
    exact ⟨hne, rfl⟩
  · intro h
    exact ⟨words cs, h.1, fun w hw => isWord_of_mem_words hw, h.2⟩

instance (cs : List Char) : Decidable (IsPhrase cs) := decidable_of_iff _ isPhrase_iff.symm

theorem IsWord.notMem {w : List Char} {b : Char} (h : IsWord w) (hb : isBlank b = true) : b ∉ w := by
  intro hmem
  have hnot := h.2 b hmem
  rw [hb] at hnot
  cases hnot

theorem IsPhrase.notMem {cs : List Char} {b : Char} (h : IsPhrase cs) (hb : isBlank b = true)
    (hspace : b ≠ ' ') : b ∉ cs := by
  obtain ⟨ws, -, hws, rfl⟩ := h
  exact notMem_intercalate hspace fun w hw => (hws w hw).notMem hb

theorem IsWord.endsFirm {w : List Char} (h : IsWord w) : EndsFirm w :=
  ⟨w.getLast h.1, List.getLast?_eq_some_getLast h.1, h.2 _ (List.getLast_mem h.1)⟩

theorem IsPhrase.endsFirm {cs : List Char} (h : IsPhrase cs) : EndsFirm cs := by
  obtain ⟨ws, hne, hws, rfl⟩ := h
  rw [← List.dropLast_concat_getLast hne]
  exact (hws _ (List.getLast_mem hne)).endsFirm.intercalate_concat [' '] ws.dropLast

end Hierarchy.Text
