import Hierarchy.Diagnostic
import Hierarchy.ResolvedType

namespace Hierarchy

def ResolvedType.methodTable (t : ResolvedType) : MemberTable :=
  MemberTable.putAll .empty (t.members.ofKind .method)

namespace Alias

def copyOf (a : Alias) (m : VisibleMember) : VisibleMember :=
  { m with name := a.newName.getD m.name, visibility := a.newVisibility.getD m.visibility }

def finds (a : Alias) (trait : String) (methods : MemberTable) : Bool :=
  a.targets trait && methods.contains (.method a.method)

def apply (trait : String) (methods : MemberTable) (a : Alias) : MemberTable :=
  if a.targets trait then
    match methods.get? (.method a.method) with
    | some m => methods.put (a.copyOf m)
    | none => methods
  else methods

end Alias

namespace Exclusion

def finds (x : Exclusion) (trait : String) (methods : MemberTable) : Bool :=
  x.drops trait && methods.contains (.method x.method)

def apply (trait : String) (methods : MemberTable) (x : Exclusion) : MemberTable :=
  if x.drops trait then methods.erase (.method x.method) else methods

end Exclusion

namespace Declaration

def aliasedTable (d : Declaration) (trait : ResolvedType) : MemberTable :=
  d.aliases.foldl (Alias.apply trait.name) trait.methodTable

def adaptedTable (d : Declaration) (trait : ResolvedType) : MemberTable :=
  d.exclusions.foldl (Exclusion.apply trait.name) (d.aliasedTable trait)

def contributions (d : Declaration) (trait : ResolvedType) (consumer : String) :
    List VisibleMember :=
  (d.adaptedTable trait).values.map fun m => m.adoptedBy consumer

end Declaration

/-- Runs directives over a table one after another and tells of each whether it found its method
there.  `finds` and `apply` say what one directive finds and does. -/
def hitsAlong {δ : Type} (finds : δ → MemberTable → Bool) (apply : MemberTable → δ → MemberTable) :
    MemberTable → List δ → List Bool
  | _, [] => []
  | methods, d :: rest => finds d methods :: hitsAlong finds apply (apply methods d) rest

namespace Declaration

def aliasHits (d : Declaration) (trait : ResolvedType) : List Bool :=
  hitsAlong (fun a => a.finds trait.name) (Alias.apply trait.name) trait.methodTable d.aliases

def exclusionHits (d : Declaration) (trait : ResolvedType) : List Bool :=
  hitsAlong (fun x => x.finds trait.name) (Exclusion.apply trait.name) (d.aliasedTable trait)
    d.exclusions

end Declaration

/-- The directives without a hit in any of the rows, one row of hits for each trait. -/
def unmatched {δ : Type} (directives : List δ) (rows : List (List Bool)) : List δ :=
  let hits := rows.foldl (List.zipWith (· || ·)) (directives.map fun _ => false)
  ((directives.zip hits).filter fun e => !e.2).map Prod.fst

def anyNamed (types : List ResolvedType) (name : String) : Bool :=
  types.any fun t => sameType t.name name

namespace Alias

def problem? (traits : List ResolvedType) (a : Alias) : Option Problem :=
  let relevant := match a.source with
    | some name => anyNamed traits name
    | none => !traits.isEmpty
  if relevant then some (.noSuchMethod a.source a.method) else none

end Alias

namespace Exclusion

/-- The problem of an exclusion that found no method, if it is about one of the traits: it names
the first such loser. -/
def problem? (traits : List ResolvedType) (x : Exclusion) : Option Problem :=
  (x.losers.find? (anyNamed traits)).map fun loser => .noSuchMethod (some loser) x.method

end Exclusion

def Declaration.adaptationProblems (d : Declaration) (traits : List ResolvedType) : List Problem :=
  (unmatched d.aliases (traits.map d.aliasHits)).filterMap (Alias.problem? traits) ++
    (unmatched d.exclusions (traits.map d.exclusionHits)).filterMap (Exclusion.problem? traits)

end Hierarchy
