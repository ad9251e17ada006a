import Hierarchy.Assembly
import Hierarchy.ResolveM

namespace Hierarchy

structure Settings where
  /-- How many types may be worked on at a time. -/
  depthLimit : Nat
  docTags : Bool
  deriving DecidableEq

def Settings.standard : Settings := ⟨64, true⟩

instance : Inhabited Settings := ⟨.standard⟩

/-- What was found at the end of an edge to a supertype. -/
inductive Edge where
  | found (type : ResolvedType)
  | missing
  | cycle
  /-- The type was not looked at, because too many are being worked on. -/
  | tooDeep

namespace Edge

def ofResult : Option ResolvedType → Edge
  | some t => found t
  | none => missing

def type? : Edge → Option ResolvedType
  | found t => some t
  | _ => none

/-- The supertype that an edge supplies, or the reason why it supplies none.  An edge that led back
to the type it starts from supplies none, even if it ended in a type. -/
def supply (relation target : String) (limit : Nat) (leadsBack : Bool) :
    Edge → Except Problem ResolvedType
  | found t => if leadsBack then .error (.leadsBack target) else .ok t
  | cycle => .error (.leadsBack target)
  | missing => .error (.noDeclaration relation target)
  | tooDeep => .error (.tooManyLevels limit)

end Edge

/-- A resolver: its settings and the hooks it runs on every type. -/
structure Resolver where
  settings : Settings
  hooks : List Hook

namespace Resolver

def standard : Resolver := ⟨.standard, []⟩

instance : Inhabited Resolver := ⟨standard⟩

/-- Every hook that runs: the built-in one, if it is switched on, then the registered ones. -/
def allHooks (r : Resolver) : List Hook :=
  (if r.settings.docTags then [.docTags] else []) ++ r.hooks

def fetch (name : String) : ResolveM (List Declaration) := do
  match ← liftM (Inquiry.fetch name) with
  | .ok candidates => return candidates
  | .error error => throw (.source error)

def note (d : Declaration) (problems : List Problem) : ResolveM Unit :=
  modify fun c => c.addAll (problems.map d.diagnose)

/-- Follows the edge from the declaration `d`, whose key is `key`, to the supertype called `target`.
`follow` says how a name is followed. -/
def link (r : Resolver) (follow : String → ResolveM Edge) (d : Declaration) (key : TypeKey)
    (relation target : String) : ResolveM (Option ResolvedType) := do
  let edge ← follow target
  let leadsBack ← modifyGet fun c => c.takeReentry key
  match edge.supply relation target r.settings.depthLimit leadsBack with
  | .ok t => return some t
  | .error problem =>
    note d [problem]
    return none

def linkAll (r : Resolver) (follow : String → ResolveM Edge) (d : Declaration) (key : TypeKey)
    (relation : String) : List String → ResolveM (List ResolvedType)
  | [] => return []
  | target :: rest => do
    let t ← r.link follow d key relation target
    let ts ← r.linkAll follow d key relation rest
    return t.toList ++ ts

def supertypes (r : Resolver) (follow : String → ResolveM Edge) (d : Declaration) (key : TypeKey) :
    ResolveM Supertypes := do
  let parents ← r.linkAll follow d key "parent class" d.parent.toList
  let interfaces ← r.linkAll follow d key "interface" d.interfaces
  let traits ← r.linkAll follow d key "trait" d.usedTraits
  return ⟨parents.head?, Supertypes.gatherInterfaces parents.head? interfaces, traits⟩

def ambiguity (others : List Declaration) : List Problem :=
  if others.isEmpty then [] else [.severalDeclarations (others.length + 1)]

def build (r : Resolver) (follow : String → ResolveM Edge) (name : String) (key : TypeKey) :
    ResolveM (Option ResolvedType) := do
  match ← fetch name with
  | [] => return none
  | d :: others =>
    note d (ambiguity others)
    let supers ← r.supertypes follow d key
    let assembly := d.assemble r.allHooks supers
    note d assembly.problems
    liftM (Inquiry.announce assembly.applications)
    return some assembly.type

/-- Works on a type that the cache knows nothing of.  An answer that was cut short by the depth
limit depends on where the work began, so it is given but not kept. -/
def work (r : Resolver) (follow : String → ResolveM Edge) (name : String) (key : TypeKey) :
    ResolveM Edge := do
  let cuts := (← get).cuts
  modify fun c => c.start key
  let result ← tryCatch (r.build follow name key) fun halt => do
    modify fun c => c.release key
    throw halt
  modify fun c => if cuts < c.cuts then c.release key else c.settle key result
  return .ofResult result

def step (r : Resolver) (follow : String → ResolveM Edge) (name : String) : ResolveM Edge := do
  let key := TypeKey.ofName name
  let c ← get
  match c.slots.get? key with
  | some (.done result) => return .ofResult result
  | some .underway =>
    modify fun c => c.reenter key
    return .cycle
  | none =>
    if r.settings.depthLimit ≤ c.depth then
      modify Cache.cutEdge
      return .tooDeep
    else r.work follow name key

/-- Follows a name through at most `fuel` levels of names behind names. -/
def reach (r : Resolver) : (fuel : Nat) → String → ResolveM Edge
  | 0, _ => throw .exhausted
  | fuel + 1, name => r.step (r.reach fuel) name

/-- Resolves a name on a cache.  Each level of the recursion works on one more type, so one level
more than the depth limit is never passed. -/
def request (r : Resolver) (name : String) (c : Cache) :
    Inquiry (Except Halt (Option ResolvedType) × Cache) := do
  let (edge, c') ← (r.reach (r.settings.depthLimit + 1) name).run.run c
  return (edge.map Edge.type?, c')

def resolve (r : Resolver) (name : String) : Inquiry (Except Halt (Option ResolvedType)) := do
  let (result, _) ← r.request name .empty
  return result

end Resolver

def declaredParent (name : String) : Inquiry (Except SourceError (Option String)) := do
  let answer ← Inquiry.fetch name
  return answer.map fun candidates => candidates.head?.bind fun d => d.parent

end Hierarchy
