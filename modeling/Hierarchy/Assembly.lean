import Hierarchy.Hook
import Hierarchy.Inquiry
import Hierarchy.Merge

namespace Hierarchy

structure Supertypes where
  parent : Option ResolvedType
  interfaces : List ResolvedType
  traits : List ResolvedType

namespace Supertypes

/-- The interfaces of a type with the given parent and own interfaces: the parent's, then each of
its own followed by those it extends.  Of several with one name the first stays. -/
def gatherInterfaces (parent : Option ResolvedType) (own : List ResolvedType) : List ResolvedType :=
  let inherited := (parent.map ResolvedType.interfaces).getD []
  ResolvedType.firstOfEachKey [] (inherited ++ own.flatMap fun i => i :: i.interfaces)

end Supertypes

/-- A type put together, with what happened on the way. -/
structure Assembly where
  type : ResolvedType
  problems : List Problem
  applications : List Application

namespace Declaration

def mergedType (d : Declaration) (supers : Supertypes) : ResolvedType :=
  let t : ResolvedType :=
    ⟨d.toHeading, supers.parent, supers.interfaces, supers.traits, .empty⟩
  { t with members := t.mergedMembers d }

/-- Runs hooks on a type.  One that fails leaves the type as it was. -/
def runHooks (d : Declaration) : List Hook → ResolvedType → Assembly
  | [], t => ⟨t, [], []⟩
  | hook :: rest, t =>
    let result := hook.run d t
    let application : Application := ⟨hook.name, d.name, result.notes⟩
    match result.outcome with
    | .ok t' =>
      let later := runHooks d rest t'
      ⟨later.type, later.problems, application :: later.applications⟩
    | .error failure =>
      let later := runHooks d rest t
      ⟨later.type, .hookFailed hook.name failure.reason :: later.problems,
        application :: later.applications⟩

def assemble (d : Declaration) (hooks : List Hook) (supers : Supertypes) : Assembly :=
  let hooked := d.runHooks hooks (d.mergedType supers)
  { hooked with problems := d.adaptationProblems supers.traits ++ hooked.problems }

end Declaration

end Hierarchy
