import Hierarchy.Text
import Hierarchy.Member

namespace Hierarchy

/-- A member announced in a doc comment. -/
structure DocTag where
  kind : MemberKind
  name : String
  isStatic : Bool
  access : Access
  typeText : Option String
  description : Option String
  deriving DecidableEq, Inhabited

namespace DocTag

def dropOpeners : List Char → List Char
  | '/' :: '*' :: '*' :: rest => dropOpeners rest
  | cs => cs

def dropReversedClosers : List Char → List Char
  | '/' :: '*' :: rest => dropReversedClosers rest
  | cs => cs

def dropClosers (cs : List Char) : List Char := (dropReversedClosers cs.reverse).reverse

/-- A line without the decoration of the comment: outer blanks, openers, closers, leading stars,
and the blanks that those enclosed. -/
def undecorated (line : List Char) : List Char :=
  Text.trim ((dropClosers (dropOpeners (Text.trim line))).dropWhile (· == '*'))

def phrase? (ws : List (List Char)) : Option String :=
  if ws.isEmpty then none else some (String.ofList (Text.unwords ws))

def variableName? : List Char → Option String
  | '$' :: c :: rest => some (String.ofList (c :: rest))
  | _ => none

def property? (access : Access) (text : List Char) : Option DocTag :=
  match Text.words text with
  | [] => none
  | first :: rest =>
    if first.head? = some '$' then
      (variableName? first).map fun name => ⟨.property, name, false, access, none, phrase? rest⟩
    else
      match rest with
      | [] => none
      | second :: rest =>
        (variableName? second).map fun name =>
          ⟨.property, name, false, access, some (String.ofList first), phrase? rest⟩

def modifiers : List (List Char) → Bool × Option String
  | ['s', 't', 'a', 't', 'i', 'c'] :: rest => (true, phrase? rest)
  | ws => (false, phrase? ws)

/-- Reads what follows the mark of a method tag: modifiers, the name, parameters in parentheses, a
description.  The parameters end at the first closing parenthesis. -/
def method? (text : List Char) : Option DocTag := do
  let (head, tail) ← Text.cutAt? (· == '(') text
  let (_, description) ← Text.cutAt? (· == ')') tail
  let ws := Text.words head
  let name ← ws.getLast?
  let (isStatic, typeText) := modifiers ws.dropLast
  return ⟨.method, String.ofList name, isStatic, .readWrite, typeText,
    phrase? (Text.words description)⟩

def ofLine? (line : List Char) : Option DocTag :=
  match Text.cutAt? Text.isBlank (undecorated line) with
  | none => none
  | some (mark, text) =>
    if mark = "@property".toList then property? .readWrite text
    else if mark = "@property-read".toList then property? .readOnly text
    else if mark = "@property-write".toList then property? .writeOnly text
    else if mark = "@method".toList then method? text
    else none

def ofComment (doc : String) : List DocTag := (Text.lines doc.toList).filterMap ofLine?

end DocTag

end Hierarchy
