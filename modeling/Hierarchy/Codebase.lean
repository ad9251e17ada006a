import Hierarchy.OrderedMap
import Hierarchy.Declaration

namespace Hierarchy

inductive SourceError where
  | unreadable (path message : String)
  | unparsable (file : FileId) (message : String)
  | unavailable (message : String)
  deriving DecidableEq, Inhabited

def SourceError.message : SourceError → String
  | unreadable path message => "failed to read " ++ path ++ ": " ++ message
  | unparsable file message => "failed to parse " ++ file.text ++ ": " ++ message
  | unavailable message => "declaration store unavailable: " ++ message

abbrev Source := String → Except SourceError (List Declaration)

abbrev CandidateIndex := OrderedMap TypeKey (List (FileId × Declaration))

/-- The declarations of a set of files. -/
structure Codebase where
  files : OrderedMap FileId (List Declaration)
  index : CandidateIndex

namespace Codebase

def empty : Codebase := ⟨.empty, .empty⟩

instance : Inhabited Codebase := ⟨empty⟩

/-- Drops the candidates that stand in `file` from the entry of one type. -/
def withdraw (file : FileId) (index : CandidateIndex) (key : TypeKey) : CandidateIndex :=
  match index.get? key with
  | none => index
  | some candidates =>
    match candidates.filter fun c => c.1 ≠ file with
    | [] => index.erase key
    | rest => index.insert key rest

def register (file : FileId) (index : CandidateIndex) (d : Declaration) : CandidateIndex :=
  index.insert d.key ((index.get? d.key).getD [] ++ [(file, d)])

def declarationsIn (c : Codebase) (file : FileId) : List Declaration := (c.files.get? file).getD []

def indexWithout (c : Codebase) (file : FileId) : CandidateIndex :=
  ((c.declarationsIn file).map fun d => d.key).foldl (withdraw file) c.index

/-- Sets the declarations of a file.  A known file keeps its position. -/
def putFile (c : Codebase) (file : FileId) (ds : List Declaration) : Codebase :=
  ⟨c.files.insert file ds, ds.foldl (register file) (c.indexWithout file)⟩

def dropFile (c : Codebase) (file : FileId) : Codebase :=
  ⟨c.files.erase file, c.indexWithout file⟩

def ofDeclarations (ds : List Declaration) : Codebase := empty.putFile ⟨0⟩ ds

def position (c : Codebase) (file : FileId) : Nat := c.files.keys.idxOf file

/-- The candidates for a name, in file order. -/
def candidatesFor (c : Codebase) (name : String) : List Declaration :=
  (((c.index.get? (.ofName name)).getD []).mergeSort
    fun a b => c.position a.1 ≤ c.position b.1).map Prod.snd

def source (c : Codebase) : Source := fun name => .ok (c.candidatesFor name)

def size (c : Codebase) : Nat := c.files.values.foldr (fun ds total => ds.length + total) 0

theorem declarationsIn_putFile (c : Codebase) (file other : FileId) (ds : List Declaration) :
    (c.putFile file ds).declarationsIn other =
      if file = other then ds else c.declarationsIn other := by
  by_cases h : file = other <;> simp [declarationsIn, putFile, OrderedMap.get?_insert, h]

theorem declarationsIn_dropFile (c : Codebase) (file other : FileId) :
    (c.dropFile file).declarationsIn other =
      if file = other then [] else c.declarationsIn other := by
  by_cases h : file = other <;> simp [declarationsIn, dropFile, OrderedMap.get?_erase, h]

theorem keys_files_putFile (c : Codebase) (file : FileId) (ds : List Declaration) :
    (c.putFile file ds).files.keys =
      if file ∈ c.files.keys then c.files.keys else c.files.keys ++ [file] :=
  c.files.keys_insert file ds

end Codebase

end Hierarchy
