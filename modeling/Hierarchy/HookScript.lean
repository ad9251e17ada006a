import Hierarchy.Hook

namespace Hierarchy

/-- What a scripted hook does after it has added its members. -/
inductive HookAction where
  | keep
  | remove (key : MemberKey)
  | rename (name : String)
  | orphan
  | fail (failure : HookFailure)
  deriving DecidableEq, Inhabited

structure HookScript where
  name : String
  only : Option String
  added : List Member
  action : HookAction
  deriving DecidableEq, Inhabited

def HookAction.perform (t : ResolvedType) : HookAction → ResolvedType × Option HookFailure
  | keep => (t, none)
  | remove key => ({ t with members := t.members.erase key }, none)
  | rename name => ({ t with name := name }, none)
  | orphan => ({ t with parent := none, interfaces := [], traits := [] }, none)
  | fail failure => (t, some failure)

namespace HookScript

def concerns (s : HookScript) (d : Declaration) : Bool :=
  s.only.all fun name => sameType name d.name

def journalLine (s : HookScript) (t : ResolvedType) : String :=
  s.name ++ ":" ++ t.name ++ ":" ++ toString t.members.size

def toHook (s : HookScript) : Hook where
  name := s.name
  run d t :=
    if s.concerns d then
      let grown := { t with members := t.members.putAll (s.added.map .ofMember) }
      let (left, failure) := s.action.perform grown
      ⟨[s.journalLine t], left, failure⟩
    else ⟨[], t, none⟩

end HookScript

end Hierarchy
