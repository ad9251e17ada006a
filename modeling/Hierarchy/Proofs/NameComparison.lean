import Mathlib.Data.List.Forall2
import Hierarchy.Name

namespace Hierarchy

def IsCapitalOf (c d : Char) : Prop :=
  'A'.toNat ≤ c.toNat ∧ c.toNat ≤ 'Z'.toNat ∧ d.toNat = c.toNat + 32

def SameLetter (c d : Char) : Prop := c = d ∨ IsCapitalOf c d ∨ IsCapitalOf d c

theorem toNat_toLower (c : Char) :
    c.toLower.toNat = if 'A'.toNat ≤ c.toNat ∧ c.toNat ≤ 'Z'.toNat then c.toNat + 32 else c.toNat := by
  have hrange : (c.val ≥ 'A'.val ∧ c.val ≤ 'Z'.val) ↔
      ('A'.toNat ≤ c.toNat ∧ c.toNat ≤ 'Z'.toNat) := by
    rw [ge_iff_le, UInt32.le_iff_toNat_le, UInt32.le_iff_toNat_le]
    rfl
  unfold Char.toLower
  by_cases hcapital : c.val ≥ 'A'.val ∧ c.val ≤ 'Z'.val
  · rw [dif_pos hcapital, if_pos (hrange.mp hcapital)]
    have hle : c.val.toNat ≤ 90 := (hrange.mp hcapital).2
    show (c.val.toNat + 32) % 2 ^ 32 = c.val.toNat + 32
    omega
  · rw [dif_neg hcapital, if_neg (mt hrange.mpr hcapital)]

theorem toLower_toLower (c : Char) : c.toLower.toLower = c.toLower := by
  apply Char.toNat_inj.mp
  have hA : 'A'.toNat = 65 := rfl
  have hZ : 'Z'.toNat = 90 := rfl
  rw [toNat_toLower c.toLower, toNat_toLower c]
  by_cases hcapital : 'A'.toNat ≤ c.toNat ∧ c.toNat ≤ 'Z'.toNat
  · rw [if_pos hcapital, if_neg (by omega)]
  · rw [if_neg hcapital, if_neg hcapital]

theorem toLower_eq_iff {c d : Char} : c.toLower = d.toLower ↔ SameLetter c d := by
  have hA : 'A'.toNat = 65 := rfl
  have hZ : 'Z'.toNat = 90 := rfl
  rw [← Char.toNat_inj, toNat_toLower, toNat_toLower, SameLetter, IsCapitalOf, IsCapitalOf,
    ← Char.toNat_inj]
  split <;> split <;> omega

theorem sameLetters_iff_forall₂ {as bs : List Char} :
    sameLetters as bs = true ↔ List.Forall₂ SameLetter as bs := by
  rw [sameLetters_iff, ← List.forall₂_eq_eq_eq, List.forall₂_map_left_iff,
    List.forall₂_map_right_iff]
  simp only [toLower_eq_iff]

/-- Whether `rest` is the name without its root mark; of several marks only the first is gone. -/
def Unroots (name : String) (rest : List Char) : Prop :=
  name.toList = '\\' :: rest ∨ name.toList = rest ∧ rest.head? ≠ some '\\'

theorem unroots_iff {name : String} {rest : List Char} :
    Unroots name rest ↔ rest = unrooted name := by
  unfold Unroots unrooted
  split
  · rename_i marked hname
    rw [hname, List.cons.injEq]
    constructor
    · rintro (⟨-, hrest⟩ | ⟨hrest, hhead⟩)
      · exact hrest.symm
      · rw [← hrest] at hhead
        exact absurd rfl hhead
    · intro hrest
      exact .inl ⟨rfl, hrest.symm⟩
  · rename_i hunmarked
    constructor
    · rintro (hmarked | ⟨hrest, -⟩)
      · exact absurd hmarked (hunmarked rest)
      · exact hrest.symm
    · intro hrest
      refine .inr ⟨hrest.symm, ?_⟩
      intro hhead
      obtain ⟨marked, hmarked⟩ := List.head?_eq_some_iff.mp hhead
      exact hunmarked marked (hrest ▸ hmarked)

/-- Whether the names have the same letters, up to ASCII case, once each has lost its root mark. -/
def SameUnrooted (a b : String) : Prop :=
  ∃ as bs, Unroots a as ∧ Unroots b bs ∧ List.Forall₂ SameLetter as bs

theorem sameType_iff_sameUnrooted {a b : String} : sameType a b = true ↔ SameUnrooted a b := by
  simp only [SameUnrooted, unroots_iff, sameType, sameLetters_iff_forall₂]
  constructor
  · intro h
    exact ⟨_, _, rfl, rfl, h⟩
  · rintro ⟨as, bs, rfl, rfl, h⟩
    exact h

/-- A key accepts exactly the names that it is the key of, although only the name loses a mark. -/
theorem accepts_ofName_iff {a b : String} :
    (TypeKey.ofName a).accepts b = true ↔ TypeKey.ofName a = TypeKey.ofName b := by
  -- The letters of the key have been made small already, and making them small again does nothing.
  rw [← sameType_iff_ofName_eq, TypeKey.accepts, TypeKey.ofName, foldCase, String.toList_ofList,
    String.toList_ofList, sameLetters_iff, List.map_map, sameType, sameLetters_iff]
  have hfold : Char.toLower ∘ Char.toLower = Char.toLower := funext toLower_toLower
  rw [hfold]

/-- Keys, a name against a key, and names letter by letter always give the same answer.  It is an
equivalence, and holds of two names exactly when they have the same letters without their root marks. -/
theorem name_comparisons_agree :
    (∀ a b : String,
      sameType a b = (TypeKey.ofName a == TypeKey.ofName b) ∧
      (TypeKey.ofName a).accepts b = (TypeKey.ofName a == TypeKey.ofName b) ∧
      (sameType a b = true ↔ SameUnrooted a b)) ∧
    Equivalence fun a b => sameType a b = true := by
  refine ⟨fun a b => ⟨?_, ?_, sameType_iff_sameUnrooted⟩, ?_, ?_, ?_⟩
  · rw [Bool.eq_iff_iff, sameType_iff_ofName_eq, beq_iff_eq]
  · rw [Bool.eq_iff_iff, accepts_ofName_iff, beq_iff_eq]
  · intro a
    exact sameType_iff_ofName_eq.mpr rfl
  · intro a b hab
    rwa [sameType_comm]
  · intro a b c hab hbc
    rw [sameType_iff_ofName_eq] at hab hbc ⊢
    exact hab.trans hbc

-- A second root mark is a letter like any other, for a key as well.
example : sameType "\\\\App" "\\App" = false ∧ (TypeKey.ofName "\\\\App").accepts "\\\\APP" = true := by
  decide

end Hierarchy
