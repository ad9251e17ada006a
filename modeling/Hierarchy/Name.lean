namespace Hierarchy

def unrooted (name : String) : List Char :=
  match name.toList with
  | '\\' :: rest => rest
  | cs => cs

/-- Replaces each ASCII capital by its small letter. -/
def foldCase (s : String) : String := String.ofList (s.toList.map Char.toLower)

def sameLetters : List Char → List Char → Bool
  | [], [] => true
  | a :: as, b :: bs => a.toLower == b.toLower && sameLetters as bs
  | _, _ => false

/-- The normal form of a type name: no root mark, ASCII letters small. -/
structure TypeKey where
  text : String
  deriving DecidableEq, Inhabited

namespace TypeKey

def ofName (name : String) : TypeKey := ⟨foldCase (String.ofList (unrooted name))⟩

/-- Whether `name` denotes the type with this key. -/
def accepts (key : TypeKey) (name : String) : Bool := sameLetters key.text.toList (unrooted name)

instance : Ord TypeKey := ⟨fun a b => compareOfLessAndEq a.text b.text⟩

end TypeKey

/-- Whether two names denote the same type. -/
def sameType (a b : String) : Bool := sameLetters (unrooted a) (unrooted b)

theorem sameLetters_iff {as bs : List Char} :
    sameLetters as bs = true ↔ as.map Char.toLower = bs.map Char.toLower := by
  induction as generalizing bs with
  | nil => cases bs <;> simp [sameLetters]
  | cons a as ih => cases bs <;> simp [sameLetters, ih]

theorem sameType_iff_ofName_eq {a b : String} :
    sameType a b = true ↔ TypeKey.ofName a = TypeKey.ofName b := by
  simp [sameType, sameLetters_iff, TypeKey.ofName, foldCase, String.ofList_inj]

theorem sameType_comm (a b : String) : sameType a b = sameType b a := by
  rw [Bool.eq_iff_iff, sameType_iff_ofName_eq, sameType_iff_ofName_eq, eq_comm]

end Hierarchy
