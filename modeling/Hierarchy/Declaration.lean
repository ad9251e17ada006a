import Hierarchy.Member

namespace Hierarchy

inductive TypeKind where
  | classType
  | interfaceType
  | traitType
  deriving DecidableEq, Inhabited

namespace TypeKind

def keyword : TypeKind → String
  | classType => "class"
  | interfaceType => "interface"
  | traitType => "trait"

end TypeKind

/-- A request for a trait method under another name or visibility. -/
structure Alias where
  /-- The trait that has the method; any used trait when absent. -/
  source : Option String
  method : String
  newName : Option String
  newVisibility : Option Visibility
  deriving DecidableEq, Inhabited

/-- A request to leave out a method of the losing traits. -/
structure Exclusion where
  winner : Option String
  method : String
  losers : List String
  deriving DecidableEq, Inhabited

structure TraitUse where
  name : String
  aliases : List Alias
  exclusions : List Exclusion
  deriving DecidableEq, Inhabited

def Alias.targets (a : Alias) (name : String) : Bool :=
  match a.source with
  | none => true
  | some trait => sameType trait name

def Exclusion.drops (x : Exclusion) (name : String) : Bool :=
  x.losers.any fun loser => sameType loser name

/-- What a declared type and its resolved form have in common. -/
structure Heading where
  name : String
  kind : TypeKind
  isAbstract : Bool
  isFinal : Bool
  origin : Origin
  location : Option Location
  doc : Option String
  deriving DecidableEq, Inhabited

def Heading.key (h : Heading) : TypeKey := .ofName h.name

/-- A class-like type as written down. -/
structure Declaration extends Heading where
  parent : Option String
  /-- The implemented interfaces; for an interface, the ones it extends. -/
  interfaces : List String
  uses : List TraitUse
  members : List Member
  deriving DecidableEq, Inhabited

namespace Declaration

def ofName (kind : TypeKind) (name : String) : Declaration where
  name := name
  kind := kind
  isAbstract := false
  isFinal := false
  origin := .unknown
  location := none
  doc := none
  parent := none
  interfaces := []
  uses := []
  members := []

def withParent (d : Declaration) (name : String) : Declaration := { d with parent := some name }

def withInterface (d : Declaration) (name : String) : Declaration :=
  { d with interfaces := d.interfaces ++ [name] }

def withUse (d : Declaration) (use : TraitUse) : Declaration := { d with uses := d.uses ++ [use] }

def withTrait (d : Declaration) (name : String) : Declaration := d.withUse ⟨name, [], []⟩

def markAbstract (d : Declaration) : Declaration := { d with isAbstract := true }

def markFinal (d : Declaration) : Declaration := { d with isFinal := true }

def withDoc (d : Declaration) (doc : String) : Declaration := { d with doc := some doc }

def withLocation (d : Declaration) (loc : Location) : Declaration := { d with location := some loc }

/-- Moves the declaration, with the members it has so far, to another namespace. -/
def withScope (d : Declaration) (scope : String) : Declaration :=
  { d with
    origin := { d.origin with scope := scope }
    members := d.members.map fun m => { m with origin := { m.origin with scope := scope } } }

def withRawMember (d : Declaration) (m : Member) : Declaration :=
  { d with members := d.members ++ [m] }

/-- Adds a member to the body.  A member without a declaring type takes this one, together with
its namespace. -/
def withMember (d : Declaration) (m : Member) : Declaration :=
  d.withRawMember <|
    if m.origin.owner.isNone then { m with origin := { d.origin with owner := some d.name } } else m

def membersOfKind (d : Declaration) (kind : MemberKind) : List Member :=
  d.members.filter fun m => m.kind = kind

def usedTraits (d : Declaration) : List String := d.uses.map TraitUse.name

def aliases (d : Declaration) : List Alias := d.uses.flatMap TraitUse.aliases

def exclusions (d : Declaration) : List Exclusion := d.uses.flatMap TraitUse.exclusions

def supertypeNames (d : Declaration) : List String :=
  d.parent.toList ++ d.interfaces ++ d.usedTraits

end Declaration

end Hierarchy
