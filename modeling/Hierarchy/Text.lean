namespace Hierarchy.Text

/-- The code points with the property White_Space, as first and last of each run. -/
def blankRuns : List (Nat × Nat) :=
  [(0x09, 0x0D), (0x20, 0x20), (0x85, 0x85), (0xA0, 0xA0), (0x1680, 0x1680), (0x2000, 0x200A),
    (0x2028, 0x2029), (0x202F, 0x202F), (0x205F, 0x205F), (0x3000, 0x3000)]

def isBlank (c : Char) : Bool := blankRuns.any fun run => run.1 ≤ c.toNat && c.toNat ≤ run.2

def trimStart (cs : List Char) : List Char := cs.dropWhile isBlank

def trimEnd (cs : List Char) : List Char := (trimStart cs.reverse).reverse

def trim (cs : List Char) : List Char := trimEnd (trimStart cs)

/-- The pieces between the characters that satisfy `p`; one more than there are such characters. -/
def pieces (p : Char → Bool) : List Char → List (List Char)
  | [] => [[]]
  | c :: rest =>
    if p c then [] :: pieces p rest
    else match pieces p rest with
      | [] => [[c]]
      | piece :: others => (c :: piece) :: others

/-- The lines of a text.  A carriage return in front of a line feed stays with its line, as a blank
at its end. -/
def lines (cs : List Char) : List (List Char) := pieces (· == '\n') cs

def words (cs : List Char) : List (List Char) := (pieces isBlank cs).filter fun w => !w.isEmpty

def unwords (ws : List (List Char)) : List Char := [' '].intercalate ws

def cutAt? (p : Char → Bool) : List Char → Option (List Char × List Char)
  | [] => none
  | c :: rest => if p c then some ([], rest) else (cutAt? p rest).map fun cut => (c :: cut.1, cut.2)

theorem cutAt?_eq_some {p : Char → Bool} {cs before after : List Char}
    (h : cutAt? p cs = some (before, after)) :
    ∃ c, p c = true ∧ cs = before ++ c :: after ∧ ∀ b ∈ before, p b = false := by
  induction cs generalizing before after with
  | nil => simp [cutAt?] at h
  | cons c rest ih =>
    by_cases hc : p c = true
    · simp only [cutAt?, hc, if_true, Option.some.injEq, Prod.mk.injEq] at h
      obtain ⟨rfl, rfl⟩ := h
      exact ⟨c, hc, rfl, by simp⟩
    · simp only [cutAt?, hc, Bool.false_eq_true, if_false, Option.map_eq_some_iff,
        Prod.mk.injEq] at h
      obtain ⟨⟨b, a⟩, hcut, rfl, rfl⟩ := h
      obtain ⟨x, hx, rfl, hb⟩ := ih hcut
      refine ⟨x, hx, rfl, ?_⟩
      simpa [hc] using hb

theorem pieces_ne_nil (p : Char → Bool) (cs : List Char) : pieces p cs ≠ [] := by
  cases cs with
  | nil => simp [pieces]
  | cons c rest =>
    by_cases hc : p c = true
    · simp [pieces, hc]
    · simp only [pieces, hc, Bool.false_eq_true, if_false]
      split <;> simp

end Hierarchy.Text
