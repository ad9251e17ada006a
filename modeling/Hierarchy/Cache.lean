import Hierarchy.Diagnostic
import Hierarchy.ResolvedType

namespace Hierarchy

/-- What is known of a type. -/
inductive Slot where
  | underway
  /-- The final answer; `none` when the type has no declaration. -/
  | done (result : Option ResolvedType)
  deriving Inhabited

/-- The memory of a resolver. -/
structure Cache where
  slots : OrderedMap TypeKey Slot
  /-- The types being worked on that some edge below them ran back into. -/
  reentered : List TypeKey
  depth : Nat
  /-- The number of edges cut by the depth limit so far. -/
  cuts : Nat
  report : Report

namespace Cache

def empty : Cache := ⟨.empty, [], 0, 0, []⟩

instance : Inhabited Cache := ⟨empty⟩

def resolved? (c : Cache) (name : String) : Option ResolvedType :=
  match c.slots.get? (.ofName name) with
  | some (.done result) => result
  | _ => none

def isUnderway (c : Cache) (name : String) : Bool :=
  match c.slots.get? (.ofName name) with
  | some .underway => true
  | _ => false

def size (c : Cache) : Nat := c.slots.size

def start (c : Cache) (key : TypeKey) : Cache :=
  { c with slots := c.slots.insert key .underway, depth := c.depth + 1 }

def settle (c : Cache) (key : TypeKey) (result : Option ResolvedType) : Cache :=
  { c with
    slots := c.slots.insert key (.done result)
    reentered := c.reentered.filter fun k => k ≠ key
    depth := c.depth - 1 }

/-- Ends work on a type without an answer that could be used again. -/
def release (c : Cache) (key : TypeKey) : Cache :=
  { c with
    slots := c.slots.erase key
    reentered := c.reentered.filter fun k => k ≠ key
    depth := c.depth - 1 }

/-- Notes that an edge ran back into a type being worked on. -/
def reenter (c : Cache) (key : TypeKey) : Cache :=
  { c with reentered := if key ∈ c.reentered then c.reentered else key :: c.reentered }

/-- Takes up the note that a type was reentered: whether there was one, and the cache without it. -/
def takeReentry (c : Cache) (key : TypeKey) : Bool × Cache :=
  (key ∈ c.reentered, { c with reentered := c.reentered.filter fun k => k ≠ key })

def cutEdge (c : Cache) : Cache := { c with cuts := c.cuts + 1 }

def addAll (c : Cache) (ds : Report) : Cache := { c with report := c.report ++ ds }

def add (c : Cache) (d : Diagnostic) : Cache := c.addAll [d]

end Cache

end Hierarchy
