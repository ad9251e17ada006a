import Hierarchy.Member

namespace Hierarchy

namespace Member

def modifierWords (m : Member) : List String :=
  [m.visibility.keyword] ++ (if m.isStatic then ["static"] else [])

def constantWords (m : Member) : List String :=
  (if m.visibility = .everyone then [] else [m.visibility.keyword]) ++ ["const", m.name] ++
    (match m.value with
      | some value => ["=", value]
      | none => [])

def propertyWords (m : Member) : List String :=
  m.modifierWords ++ (if m.access = .readOnly then ["readonly"] else []) ++ m.typeText.toList ++
    ["$" ++ m.name]

def methodWords (m : Member) : List String :=
  let result := match m.typeText with
    | some type => ": " ++ type
    | none => ""
  (if m.isAbstract then ["abstract"] else []) ++ (if m.isFinal then ["final"] else []) ++
    m.modifierWords ++ ["function", m.name ++ "()" ++ result]

def signature (m : Member) : String :=
  " ".intercalate <|
    match m.kind with
    | .constant => m.constantWords
    | .property => m.propertyWords
    | .method => m.methodWords

end Member

end Hierarchy
