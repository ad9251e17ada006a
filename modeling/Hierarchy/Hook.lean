import Hierarchy.DocTag
import Hierarchy.ResolvedType

namespace Hierarchy

/-- Why a hook did not complete. -/
inductive HookFailure where
  | reported (message : String)
  | crashed (message : Option String)
  deriving DecidableEq, Inhabited

def HookFailure.reason : HookFailure → String
  | reported message => message
  | crashed message => message.getD "panicked"

/-- What became of running a hook on a type. -/
structure HookResult where
  /-- What the hook wrote to its journal; a failure does not take it back. -/
  notes : List String
  /-- The type as the hook left it, whether or not it completed. -/
  left : ResolvedType
  failure : Option HookFailure

/-- What counts of a run: the type as it was left, or only the failure if there was one. -/
def HookResult.outcome (result : HookResult) : Except HookFailure ResolvedType :=
  match result.failure with
  | none => .ok result.left
  | some failure => .error failure

structure Hook where
  name : String
  run : Declaration → ResolvedType → HookResult

namespace DocTag

def toMember (tag : DocTag) (d : Declaration) (owner : String) : Member where
  name := tag.name
  kind := tag.kind
  visibility := .everyone
  isStatic := tag.isStatic
  isAbstract := false
  isFinal := false
  access := tag.access
  origin := ⟨d.origin.scope, some owner⟩
  location := d.location
  doc := tag.description
  typeText := tag.typeText
  value := none

/-- Adds the announced member to a table, unless the type called `owner` declares a member under
its key.  A member that it replaces is hidden by it. -/
def install (d : Declaration) (owner : String) (t : MemberTable) (tag : DocTag) : MemberTable :=
  let m := tag.toMember d owner
  match t.get? m.key with
  | none => t.put ⟨m, []⟩
  | some installed => if installed.isOwnedBy owner then t else t.put ⟨m, [installed]⟩

end DocTag

def ResolvedType.withDocTags (t : ResolvedType) (d : Declaration) : ResolvedType :=
  let tags := (d.doc.map DocTag.ofComment).getD []
  { t with members := tags.foldl (DocTag.install d t.name) t.members }

def Hook.docTags : Hook where
  name := "doc-tags"
  run d t := ⟨[], t.withDocTags d, none⟩

end Hierarchy
