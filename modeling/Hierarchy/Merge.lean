import Hierarchy.Adaptation

namespace Hierarchy

namespace MemberTable

/-- Offers a member to the table of the type called `owner`. -/
def offer (owner : String) (t : MemberTable) (m : VisibleMember) : MemberTable :=
  match t.get? m.key with
  | none => t.put m
  | some installed =>
    if installed.isOwnedBy owner then t.hide m else t

def offerAll (owner : String) (t : MemberTable) (ms : List VisibleMember) : MemberTable :=
  ms.foldl (offer owner) t

def offerInherited (owner : String) (t : MemberTable) (ms : List VisibleMember) : MemberTable :=
  t.offerAll owner (ms.filter fun m => m.visibility.isPassedOn)

end MemberTable

/-- The members written in the declaration.  Of two with one key the later stays, in the place of
the earlier. -/
def Declaration.bodyMembers (d : Declaration) : MemberTable :=
  MemberTable.putAll .empty (d.members.map fun m => .ofMember (m.claimedBy d.name))

namespace ResolvedType

/-- What the traits contribute: of each trait its properties, then its adapted methods. -/
def offerTrait (t : ResolvedType) (d : Declaration) (table : MemberTable) (trait : ResolvedType) :
    MemberTable :=
  let withProperties :=
    table.offerAll t.name ((trait.members.ofKind .property).map fun m => m.adoptedBy t.name)
  withProperties.offerAll t.name (d.contributions trait t.name)

def offerSupertype (t : ResolvedType) (kinds : List MemberKind) (table : MemberTable)
    (super : ResolvedType) : MemberTable :=
  kinds.foldl (fun table kind => table.offerInherited t.name (super.members.ofKind kind)) table

/-- The members shown by a type whose supertypes are attached and whose declaration is `d`. -/
def mergedMembers (t : ResolvedType) (d : Declaration) : MemberTable :=
  let own := d.bodyMembers
  let withTraits := t.traits.foldl (t.offerTrait d) own
  let withParent :=
    t.parent.toList.foldl (t.offerSupertype [.method, .property, .constant]) withTraits
  t.interfaces.foldl (t.offerSupertype [.method, .constant]) withParent

end ResolvedType

end Hierarchy
