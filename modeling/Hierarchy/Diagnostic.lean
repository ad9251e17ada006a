import Hierarchy.Declaration

namespace Hierarchy

inductive Severity where
  | error
  | warning
  | info
  | hint
  deriving DecidableEq, Inhabited

def Severity.level : Severity → Nat
  | error => 1
  | warning => 2
  | info => 3
  | hint => 4

/-- Why the resolution of a type was degraded. -/
inductive Problem where
  | noDeclaration (relation target : String)
  | leadsBack (target : String)
  /-- An alias or exclusion asks for a method that the trait does not have. -/
  | noSuchMethod (trait : Option String) (method : String)
  | hookFailed (hook reason : String)
  | tooManyLevels (limit : Nat)
  | severalDeclarations (count : Nat)
  | remark (severity : Severity) (code text : String)
  deriving DecidableEq, Inhabited

namespace Problem

def severity : Problem → Severity
  | noDeclaration .. => .warning
  | leadsBack .. => .error
  | noSuchMethod .. => .warning
  | hookFailed .. => .warning
  | tooManyLevels .. => .warning
  | severalDeclarations .. => .info
  | remark severity .. => severity

def code : Problem → String
  | noDeclaration .. => "R0001"
  | leadsBack .. => "R0002"
  | noSuchMethod .. => "R0003"
  | hookFailed .. => "R0004"
  | tooManyLevels .. => "R0005"
  | severalDeclarations .. => "I0001"
  | remark _ code _ => code

def message (subject : String) : Problem → String
  | noDeclaration relation target => "unknown " ++ relation ++ ": '" ++ target ++ "'"
  | leadsBack target => "cyclic inheritance: '" ++ target ++ "' is already being resolved"
  | noSuchMethod (some trait) method => "trait '" ++ trait ++ "' has no method '" ++ method ++ "'"
  | noSuchMethod none method => "no used trait has a method '" ++ method ++ "'"
  | hookFailed hook reason => "extension '" ++ hook ++ "' failed: " ++ reason
  | tooManyLevels limit => "supertype chain deeper than " ++ toString limit ++ " levels"
  | severalDeclarations count =>
    toString count ++ " declarations found for '" ++ subject ++ "'; using the first"
  | remark _ _ text => text

/-- Whether the problem lies in the source text of the type, so that the place of its declaration
is worth showing. -/
def isLocated : Problem → Bool
  | hookFailed .. => false
  | tooManyLevels .. => false
  | _ => true

end Problem

structure Diagnostic where
  subject : String
  location : Option Location
  problem : Problem
  deriving DecidableEq, Inhabited

namespace Diagnostic

def about (subject : String) (location : Option Location) (problem : Problem) : Diagnostic :=
  ⟨subject, if problem.isLocated then location else none, problem⟩

def severity (d : Diagnostic) : Severity := d.problem.severity

def code (d : Diagnostic) : String := d.problem.code

def message (d : Diagnostic) : String := d.problem.message d.subject

end Diagnostic

def Declaration.diagnose (d : Declaration) (problem : Problem) : Diagnostic :=
  .about d.name d.location problem

abbrev Report := List Diagnostic

namespace Report

def forType (r : Report) (name : String) : Report := r.filter fun d => sameType d.subject name

def anyWithCode (r : Report) (code : String) : Bool := r.any fun d => d.code == code

end Report

end Hierarchy
