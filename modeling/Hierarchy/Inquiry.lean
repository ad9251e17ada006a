import Hierarchy.Codebase

namespace Hierarchy

structure Application where
  hook : String
  subject : String
  notes : List String
  deriving DecidableEq, Inhabited

/-- Something that happens while an inquiry runs. -/
inductive Event where
  | fetched (name : String)
  | applied (application : Application)
  deriving DecidableEq, Inhabited

namespace Event

def fetched? : Event → Option String
  | fetched name => some name
  | applied _ => none

def notes : Event → List String
  | fetched _ => []
  | applied a => a.notes

end Event

/-- A computation that asks for declarations and ends in a value. -/
inductive Inquiry (α : Type) where
  | done (value : α)
  | ask (name : String) (resume : Except SourceError (List Declaration) → Inquiry α)
  | tell (application : Application) (rest : Inquiry α)

namespace Inquiry

variable {α β γ : Type}

def bind : Inquiry α → (α → Inquiry β) → Inquiry β
  | done value, f => f value
  | ask name resume, f => ask name fun answer => bind (resume answer) f
  | tell application rest, f => tell application (bind rest f)

instance : Monad Inquiry where
  pure := done
  bind := bind

theorem bind_done (q : Inquiry α) : bind q done = q := by
  induction q with
  | done value => rfl
  | ask name resume ih => simp only [bind, ih]
  | tell application rest ih => simp only [bind, ih]

theorem bind_assoc (q : Inquiry α) (f : α → Inquiry β) (g : β → Inquiry γ) :
    bind (bind q f) g = bind q fun a => bind (f a) g := by
  induction q with
  | done value => rfl
  | ask name resume ih => simp only [bind, ih]
  | tell application rest ih => simp only [bind, ih]

instance : LawfulMonad Inquiry :=
  LawfulMonad.mk' Inquiry (fun q => bind_done q) (fun _ _ => rfl) (fun q f g => bind_assoc q f g)

def fetch (name : String) : Inquiry (Except SourceError (List Declaration)) := ask name done

def announce : List Application → Inquiry Unit
  | [] => done ()
  | application :: rest => tell application (announce rest)

/-- Runs an inquiry against a source: its value and the log. -/
def run (source : Source) : Inquiry α → α × List Event
  | done value => (value, [])
  | ask name resume =>
    let (value, log) := run source (resume (source name))
    (value, .fetched name :: log)
  | tell application rest =>
    let (value, log) := run source rest
    (value, .applied application :: log)

theorem run_bind (source : Source) (q : Inquiry α) (f : α → Inquiry β) :
    (q >>= f).run source =
      (((f (q.run source).1).run source).1,
        (q.run source).2 ++ ((f (q.run source).1).run source).2) := by
  show run source (bind q f) = _
  induction q with
  | done value => simp [run, bind]
  | ask name resume ih => simp [run, bind, ih]
  | tell application rest ih => simp [run, bind, ih]

@[simp]
theorem run_pure (source : Source) (a : α) : (pure a : Inquiry α).run source = (a, []) := rfl

@[simp]
theorem run_fetch (source : Source) (name : String) :
    (fetch name).run source = (source name, [.fetched name]) := rfl

@[simp]
theorem run_announce (source : Source) (as : List Application) :
    (announce as).run source = ((), as.map Event.applied) := by
  induction as with
  | nil => rfl
  | cons a rest ih => simp [announce, run, ih]

/-- How a source makes its callers wait. -/
structure Latency where
  /-- Whether every answer has to be waited for once. -/
  suspends : Bool
  /-- The names whose answer never comes. -/
  stalls : String → Bool

inductive Progress (α : Type) where
  | ready (value : α)
  | pending (rest : Inquiry α)
  /-- Waiting for an answer that never comes. -/
  | stuck

def poll (source : Source) (latency : Latency) : Inquiry α → Progress α × List Event
  | done value => (.ready value, [])
  | ask name resume =>
    if latency.stalls name then (.stuck, [.fetched name])
    else if latency.suspends then (.pending (resume (source name)), [.fetched name])
    else
      let (progress, log) := poll source latency (resume (source name))
      (progress, .fetched name :: log)
  | tell application rest =>
    let (progress, log) := poll source latency rest
    (progress, .applied application :: log)

def pollUpTo (source : Source) (latency : Latency) : Nat → Inquiry α → Option α × List Event
  | 0, _ => (none, [])
  | polls + 1, q =>
    match poll source latency q with
    | (.ready value, log) => (some value, log)
    | (.stuck, log) => (none, log)
    | (.pending rest, log) =>
      let (result, later) := pollUpTo source latency polls rest
      (result, log ++ later)

/-- Runs an inquiry whose caller gives up after the given number of polls.  The inquiry is polled
before the caller looks at the clock, so that it gets one more poll; a caller who has given up from
the start does not poll at all. -/
def runWithin (source : Source) (latency : Latency) (after : Nat) (q : Inquiry α) :
    Option α × List Event :=
  if after = 0 then (none, []) else pollUpTo source latency (after + 1) q

def bursts (source : Source) (latency : Latency) : Inquiry α → Option α × List (List Event)
  | done value => (some value, [[]])
  | ask name resume =>
    if latency.stalls name then (none, [[.fetched name]])
    else
      let (result, logs) := bursts source latency (resume (source name))
      if latency.suspends then (result, [.fetched name] :: logs)
      else (result, (.fetched name :: logs.headD []) :: logs.tail)
  | tell application rest =>
    let (result, logs) := bursts source latency rest
    (result, (.applied application :: logs.headD []) :: logs.tail)

def runPatiently (source : Source) (latency : Latency) (q : Inquiry α) : Option α × List Event :=
  let (result, logs) := bursts source latency q
  (result, logs.flatten)

/-- Runs inquiries side by side, polling each in turn: their values and the common log. -/
def runTogether (source : Source) (latency : Latency) (qs : List (Inquiry α)) :
    List (Option α) × List Event :=
  let outcomes := qs.map (bursts source latency)
  let rounds := (outcomes.map fun o => o.2.length).foldl max 0
  (outcomes.map Prod.fst,
    (List.range rounds).flatMap fun round => outcomes.flatMap fun o => o.2.getD round [])

end Inquiry

end Hierarchy
