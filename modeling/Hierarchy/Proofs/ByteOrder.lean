import Mathlib.Data.String.Basic
import Mathlib.Order.Monotone.Basic

namespace Hierarchy.Text

def bytes (s : String) : List Nat := s.toUTF8.data.toList.map UInt8.toNat

def followers (v : Nat) : Nat :=
  if v ≤ 0x7f then 0 else if v ≤ 0x7ff then 1 else if v ≤ 0xffff then 2 else 3

def leadMark : Nat → Nat
  | 0 => 0x00
  | 1 => 0xc0
  | 2 => 0xe0
  | _ => 0xf0

def lastDigits : Nat → Nat → List Nat
  | 0, _ => []
  | n + 1, v => (0x80 + v / 64 ^ n % 64) :: lastDigits n v

def characterBytes (v : Nat) : List Nat :=
  (leadMark (followers v) + v / 64 ^ followers v) :: lastDigits (followers v) v

theorem toNat_lt (c : Char) : c.toNat < 0x110000 := by
  have hvalid : c.toNat < 0xd800 ∨ 0xdfff < c.toNat ∧ c.toNat < 0x110000 := c.valid
  omega

theorem map_toNat_utf8EncodeChar (c : Char) :
    (String.utf8EncodeChar c).map UInt8.toNat = characterBytes c.toNat := by
  have hmax := toNat_lt c
  rw [characterBytes, followers]
  unfold String.utf8EncodeChar
  rw [Char.toNat_val]
  dsimp only
  split_ifs <;> simp only [List.map_cons, List.map_nil, UInt8.toNat_ofNat', leadMark, lastDigits,
    List.cons.injEq, and_true] <;> omega

theorem lastDigits_append_lt {n v w : Nat} (h : v % 64 ^ n < w % 64 ^ n) (us vs : List Nat) :
    lastDigits n v ++ us < lastDigits n w ++ vs := by
  induction n with
  | zero =>
    rw [Nat.pow_zero] at h
    omega
  | succ n ih =>
    rw [Nat.mod_pow_succ, Nat.mod_pow_succ] at h
    rw [lastDigits, lastDigits, List.cons_append, List.cons_append, List.cons_lt_cons_iff]
    rcases Nat.lt_trichotomy (v / 64 ^ n % 64) (w / 64 ^ n % 64) with hdigit | hdigit | hdigit
    · exact .inl (by omega)
    · rw [hdigit] at h ⊢
      exact .inr ⟨rfl, ih (by omega)⟩
    · -- A larger digit outweighs all that come after it.
      have hlast : w % 64 ^ n < 64 ^ n := Nat.mod_lt _ (Nat.pow_pos (by decide))
      have hweight := Nat.mul_le_mul_left (64 ^ n) hdigit
      rw [Nat.mul_succ] at hweight
      omega

theorem characterBytes_append_lt {v w : Nat} (h : v < w) (hmax : w < 0x110000) (us vs : List Nat) :
    characterBytes v ++ us < characterBytes w ++ vs := by
  rw [characterBytes, characterBytes, List.cons_append, List.cons_append, List.cons_lt_cons_iff]
  by_cases hsame : followers v = followers w
  · rw [hsame]
    generalize followers w = n
    have hv := Nat.div_add_mod v (64 ^ n)
    have hw := Nat.div_add_mod w (64 ^ n)
    rcases (Nat.div_le_div_right h.le : v / 64 ^ n ≤ w / 64 ^ n).lt_or_eq with hfirst | hfirst
    · exact .inl (by omega)
    · rw [hfirst] at hv ⊢
      exact .inr ⟨rfl, lastDigits_append_lt (by omega) us vs⟩
  · -- The first bytes of characters of different lengths lie apart.
    left
    unfold followers at hsame ⊢
    split_ifs at hsame ⊢ <;> simp only [leadMark] <;> omega

theorem bytes_eq_flatMap (s : String) :
    bytes s = s.toList.flatMap fun c => characterBytes c.toNat := by
  have hencoded : s.toUTF8.data.toList = s.toList.flatMap String.utf8EncodeChar := by
    rw [String.toUTF8_eq_toByteArray, ← String.utf8Encode_toList]
    exact List.toList_data_toByteArray
  rw [bytes, hencoded, List.map_flatMap]
  simp only [map_toNat_utf8EncodeChar]

theorem flatMap_characterBytes_lt {as bs : List Char} (h : as < bs) :
    (as.flatMap fun c => characterBytes c.toNat) < bs.flatMap fun c => characterBytes c.toNat := by
  induction h with
  | nil => exact List.Lex.nil
  | rel h => exact characterBytes_append_lt h (toNat_lt _) _ _
  | cons _ ih => exact List.append_left_lt ih

/-- A text that comes before another one does so by its bytes as well. -/
theorem bytes_strictMono : StrictMono bytes := by
  intro a b h
  rw [bytes_eq_flatMap, bytes_eq_flatMap]
  exact flatMap_characterBytes_lt (String.lt_iff_toList_lt.mp h)

end Hierarchy.Text
