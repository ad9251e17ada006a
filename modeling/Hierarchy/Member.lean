import Hierarchy.Name
import Hierarchy.Location

namespace Hierarchy

/-- Who may use a member. -/
inductive Visibility where
  | everyone
  | heirs
  | owner
  deriving DecidableEq, Inhabited

namespace Visibility

def keyword : Visibility → String
  | everyone => "public"
  | heirs => "protected"
  | owner => "private"

/-- Whether a type passes such a member on to the types below it. -/
def isPassedOn (v : Visibility) : Bool := v != owner

end Visibility

inductive Access where
  | readWrite
  | readOnly
  | writeOnly
  deriving DecidableEq, Inhabited

namespace Access

def canRead (a : Access) : Bool := a != writeOnly

def canWrite (a : Access) : Bool := a != readOnly

end Access

inductive MemberKind where
  | constant
  | property
  | method
  deriving DecidableEq, Inhabited

namespace MemberKind

def foldsCase : MemberKind → Bool
  | method => true
  | _ => false

def word : MemberKind → String
  | constant => "constant"
  | property => "property"
  | method => "method"

def rank : MemberKind → Nat
  | constant => 0
  | property => 1
  | method => 2

end MemberKind

/-- What identifies a member inside one type. -/
structure MemberKey where
  kind : MemberKind
  name : String
  deriving DecidableEq, Inhabited

namespace MemberKey

def ofName (kind : MemberKind) (name : String) : MemberKey :=
  ⟨kind, if kind.foldsCase then foldCase name else name⟩

def method (name : String) : MemberKey := ofName .method name

def text (key : MemberKey) : String := key.kind.word ++ ":" ++ key.name

@[simp]
theorem kind_ofName (kind : MemberKind) (name : String) : (ofName kind name).kind = kind := rfl

end MemberKey

structure Origin where
  scope : String
  owner : Option String
  deriving DecidableEq, Inhabited

namespace Origin

def unknown : Origin := ⟨"", none⟩

end Origin

/-- A member as written down. -/
structure Member where
  name : String
  kind : MemberKind
  visibility : Visibility
  isStatic : Bool
  isAbstract : Bool
  isFinal : Bool
  access : Access
  origin : Origin
  location : Option Location
  doc : Option String
  /-- The declared type; for a method the type of its result. -/
  typeText : Option String
  value : Option String
  deriving DecidableEq, Inhabited

namespace Member

def ofName (kind : MemberKind) (name : String) : Member where
  name := name
  kind := kind
  visibility := .everyone
  isStatic := false
  isAbstract := false
  isFinal := false
  access := .readWrite
  origin := .unknown
  location := none
  doc := none
  typeText := none
  value := none

def key (m : Member) : MemberKey := .ofName m.kind m.name

def isOwnedBy (m : Member) (name : String) : Bool :=
  m.origin.owner.any fun declaring => sameType declaring name

def adoptedBy (m : Member) (name : String) : Member :=
  { m with origin := { m.origin with owner := some name } }

/-- The member with its declaring type filled in where none was given. -/
def claimedBy (m : Member) (name : String) : Member :=
  if m.origin.owner.isNone then m.adoptedBy name else m

end Member

end Hierarchy
