import Hierarchy.HookScript
import Hierarchy.Resolver

namespace Hierarchy

/-- A codebase being worked on. -/
structure Session where
  codebase : Codebase
  /-- The types whose candidates cannot be supplied. -/
  faults : OrderedMap TypeKey SourceError
  /-- The types that are answered with the candidates of another name. -/
  redirects : OrderedMap TypeKey String
  isLazy : Bool
  resolver : Resolver
  cache : Cache
  journal : List String

structure Reply (α : Type) where
  value : α
  fetches : List String

namespace Session

def ofCodebase (c : Codebase) : Session := ⟨c, .empty, .empty, false, .standard, .empty, []⟩

instance : Inhabited Session := ⟨ofCodebase .empty⟩

def setFault (s : Session) (name : String) : Option SourceError → Session
  | some error => { s with faults := s.faults.insert (.ofName name) error }
  | none => { s with faults := s.faults.erase (.ofName name) }

def setRedirect (s : Session) (name target : String) : Session :=
  { s with redirects := s.redirects.insert (.ofName name) target }

def setSettings (s : Session) (settings : Settings) : Session :=
  { s with resolver := { s.resolver with settings := settings } }

def addHook (s : Session) (hook : Hook) : Session :=
  { s with resolver := { s.resolver with hooks := s.resolver.hooks ++ [hook] } }

def renewCache (s : Session) : Session := { s with cache := .empty }

def takeJournal (s : Session) : List String × Session := (s.journal, { s with journal := [] })

/-- Supplies candidates: a failure comes first, then a redirection, which is followed once. -/
def source (s : Session) : Source := fun name =>
  match s.faults.get? (.ofName name) with
  | some error => .error error
  | none => .ok (s.codebase.candidatesFor ((s.redirects.get? (.ofName name)).getD name))

def latency (s : Session) (stalled : List String) : Inquiry.Latency :=
  ⟨s.isLazy, fun name => stalled.any fun other => TypeKey.ofName other = TypeKey.ofName name⟩

def record {α : Type} (s : Session) (value : α) (log : List Event) : Reply α × Session :=
  (⟨value, log.filterMap Event.fetched?⟩,
    { s with journal := s.journal ++ log.flatMap Event.notes })

def inquire {α : Type} (s : Session) (q : Inquiry α) : Reply α × Session :=
  let (value, log) := q.run s.source
  s.record value log

def resolve (s : Session) (name : String) : Reply (Except Halt (Option ResolvedType)) × Session :=
  s.inquire (s.resolver.resolve name)

def request (s : Session) (name : String) : Reply (Except Halt (Option ResolvedType)) × Session :=
  let (reply, s') := s.inquire (s.resolver.request name s.cache)
  (⟨reply.value.1, reply.fetches⟩, { s' with cache := reply.value.2 })

def parentName (s : Session) (name : String) :
    Reply (Except SourceError (Option String)) × Session :=
  s.inquire (declaredParent name)

def resolveWithin (s : Session) (name : String) (after : Option Nat)
    (stalled : List String) : Reply (Option (Except Halt (Option ResolvedType))) × Session :=
  let q := s.resolver.resolve name
  let latency := s.latency stalled
  let (value, log) := match after with
    | some polls => q.runWithin s.source latency polls
    | none => q.runPatiently s.source latency
  s.record value log

def resolveTogether (s : Session) (names : List String) :
    Reply (List (Option (Except Halt (Option ResolvedType)))) × Session :=
  let (values, log) := Inquiry.runTogether s.source (s.latency []) (names.map s.resolver.resolve)
  s.record values log

/-- Whether a name resolves to the same type on the cache of the session and on one of its own.
Both are tried, and a failure of the first comes before a failure of the second. -/
def comparesEqual (s : Session) (name : String) : Except Halt Bool × Session :=
  let (kept, s') := s.request name
  let (fresh, s'') := s'.resolve name
  let verdict := do return ResolvedType.agreesOption (← kept.value) (← fresh.value)
  (verdict, s'')

end Session

end Hierarchy
