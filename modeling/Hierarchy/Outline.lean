import Hierarchy.ResolvedType

namespace Hierarchy

structure OutlineEntry where
  name : String
  kind : MemberKind
  visibility : Visibility
  isStatic : Bool
  container : Option String
  location : Option Location
  deriving DecidableEq, Inhabited

namespace OutlineEntry

def ofMember (m : VisibleMember) : OutlineEntry :=
  ⟨m.name, m.kind, m.visibility, m.isStatic, m.origin.owner, m.location⟩

/-- Constants stand before properties and properties before methods; members of one kind stand by
the code points of their names. -/
def precedes (a b : OutlineEntry) : Bool :=
  a.kind.rank < b.kind.rank || a.kind.rank == b.kind.rank && a.name ≤ b.name

end OutlineEntry

def ResolvedType.outline (t : ResolvedType) : List OutlineEntry :=
  (t.members.values.map OutlineEntry.ofMember).mergeSort OutlineEntry.precedes

structure Overridden where
  owner : Option String
  name : String
  location : Option Location
  deriving DecidableEq, Inhabited

/-- The declarations that the member of the given kind and name hides, nearest first. -/
def ResolvedType.overridden (t : ResolvedType) (kind : MemberKind) (name : String) :
    List Overridden :=
  match t.members.lookup? kind name with
  | none => []
  | some m => m.overrides.map fun hidden => ⟨hidden.origin.owner, hidden.name, hidden.location⟩

end Hierarchy
