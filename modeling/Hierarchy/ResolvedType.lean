import Hierarchy.Declaration
import Hierarchy.MemberTable

namespace Hierarchy

/-- A type with its supertypes and visible members. -/
structure ResolvedType extends Heading where
  parent : Option ResolvedType
  /-- The type's own and inherited interfaces, one of each name. -/
  interfaces : List ResolvedType
  traits : List ResolvedType
  members : MemberTable

namespace ResolvedType

def ofHeading (h : Heading) : ResolvedType := ⟨h, none, [], [], .empty⟩

instance : Inhabited ResolvedType := ⟨ofHeading default⟩

mutual
def ancestors : ResolvedType → List ResolvedType
  | ⟨_, parent, _, _, _⟩ => lineage parent

def lineage : Option ResolvedType → List ResolvedType
  | none => []
  | some t => t :: ancestors t
end

@[simp]
theorem lineage_none : lineage none = [] := rfl

@[simp]
theorem lineage_some (t : ResolvedType) : lineage (some t) = t :: t.ancestors := rfl

theorem ancestors_eq_lineage (t : ResolvedType) : t.ancestors = lineage t.parent := by
  cases t
  rfl

/-- Whether the type is the one called `name`, descends from it or implements it. -/
def conformsTo (t : ResolvedType) (name : String) : Bool :=
  sameType t.name name ||
    t.ancestors.any (fun a => sameType a.name name) ||
    t.interfaces.any (fun i => sameType i.name name)

/-- The first type of each key. -/
def firstOfEachKey (seen : List TypeKey) : List ResolvedType → List ResolvedType
  | [] => []
  | t :: rest =>
    if t.key ∈ seen then firstOfEachKey seen rest else t :: firstOfEachKey (t.key :: seen) rest

mutual
def agrees : ResolvedType → ResolvedType → Bool
  | ⟨heading, parent, interfaces, traits, members⟩,
    ⟨heading', parent', interfaces', traits', members'⟩ =>
    heading == heading' && members.sameBindings members' && agreesOption parent parent' &&
      agreesAll interfaces interfaces' && agreesAll traits traits'

def agreesOption : Option ResolvedType → Option ResolvedType → Bool
  | none, none => true
  | some t, some t' => agrees t t'
  | _, _ => false

def agreesAll : List ResolvedType → List ResolvedType → Bool
  | [], [] => true
  | t :: rest, t' :: rest' => agrees t t' && agreesAll rest rest'
  | _, _ => false
end

end ResolvedType

def Declaration.bareType (d : Declaration) : ResolvedType := .ofHeading d.toHeading

end Hierarchy
