namespace Hierarchy

structure FileId where
  index : Nat
  deriving DecidableEq, Inhabited

namespace FileId

def text (file : FileId) : String := "file#" ++ toString file.index

def tagged (file : FileId) : String := "FileId(" ++ toString file.index ++ ")"

end FileId

structure Location where
  file : FileId
  start : Nat
  stop : Nat
  start_le_stop : start ≤ stop
  deriving DecidableEq

namespace Location

/-- The range from `start` to `stop`; a `stop` before `start` is raised to it. -/
def ofOffsets (file : FileId) (start stop : Nat) : Location :=
  ⟨file, start, max start stop, Nat.le_max_left start stop⟩

def length (loc : Location) : Nat := loc.stop - loc.start

/-- Whether a cursor at `offset` of `file` hits the range, both ends included. -/
def covers (loc : Location) (file : FileId) (offset : Nat) : Bool :=
  loc.file = file && loc.start ≤ offset && offset ≤ loc.stop

def rangeText (loc : Location) : String := toString loc.start ++ ".." ++ toString loc.stop

def text (loc : Location) : String := loc.file.text ++ ":" ++ loc.rangeText

def tagged (loc : Location) : String := loc.file.tagged ++ "@" ++ loc.rangeText

end Location

end Hierarchy
