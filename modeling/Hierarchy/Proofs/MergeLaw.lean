import Hierarchy.Merge

namespace Hierarchy

/-- The member that the type called `owner` shows if it is offered the candidates in this order. -/
def shownAmong (owner : String) : List VisibleMember → Option VisibleMember
  | [] => none
  | first :: rest =>
    some (if first.isOwnedBy owner then { first with shadows := first.shadows ++ rest } else first)

@[simp]
theorem shownAmong_singleton (owner : String) (m : VisibleMember) :
    shownAmong owner [m] = some m := by
  obtain ⟨written, shadows⟩ := m
  simp [shownAmong]

theorem shownAmong_concat (owner : String) (candidates : List VisibleMember) (m : VisibleMember) :
    shownAmong owner (candidates ++ [m]) =
      match shownAmong owner candidates with
      | none => some m
      | some shown => some (if shown.isOwnedBy owner then shown.shadowing m else shown) := by
  cases candidates with
  | nil => exact shownAmong_singleton owner m
  | cons first rest =>
    by_cases h : first.isOwnedBy owner <;> simp [shownAmong, VisibleMember.shadowing, h]

namespace MemberTable

variable {owner : String} {t : MemberTable} {candidates : MemberKey → List VisibleMember}

theorem get?_offer (owner : String) (t : MemberTable) (m : VisibleMember) (k : MemberKey) :
    (t.offer owner m).get? k =
      if m.key = k then
        match t.get? k with
        | none => some m
        | some shown => some (if shown.isOwnedBy owner then shown.shadowing m else shown)
      else t.get? k := by
  unfold offer
  by_cases hk : m.key = k
  · subst hk
    cases h : t.get? m.key with
    | none => simp
    | some shown => by_cases howned : shown.isOwnedBy owner <;> simp [howned, get?_hide, h]
  · cases h : t.get? m.key with
    | none => simp [get?_put_of_ne t m hk, hk]
    | some shown =>
      by_cases howned : shown.isOwnedBy owner <;> simp [howned, get?_hide, hk]

theorem keys_offer (owner : String) (t : MemberTable) (m : VisibleMember) :
    (t.offer owner m).keys = if m.key ∈ t.keys then t.keys else t.keys ++ [m.key] := by
  unfold offer
  cases h : t.get? m.key with
  | none => exact t.keys_put m
  | some shown =>
    have hmem : m.key ∈ t.keys := OrderedMap.contains_iff_mem_keys.mp (by simp [OrderedMap.contains, h])
    by_cases howned : shown.isOwnedBy owner <;> simp [howned, keys_hide, hmem]

/-- Whether the table shows, under each key, what the type called `owner` shows of the candidates. -/
def Shows (t : MemberTable) (owner : String) (candidates : MemberKey → List VisibleMember) : Prop :=
  ∀ k, t.get? k = shownAmong owner (candidates k)

theorem Shows.offer (h : t.Shows owner candidates) (m : VisibleMember) :
    (t.offer owner m).Shows owner fun k => candidates k ++ if m.key = k then [m] else [] := by
  intro k
  rw [get?_offer, h k]
  by_cases hk : m.key = k
  · simp only [hk, if_true, shownAmong_concat]
  · simp only [hk, if_false, List.append_nil]

theorem Shows.offerAll (h : t.Shows owner candidates) (ms : List VisibleMember) :
    (t.offerAll owner ms).Shows owner fun k => candidates k ++ ms.filter fun m => m.key = k := by
  induction ms generalizing t candidates with
  | nil => simpa [MemberTable.offerAll] using h
  | cons m rest ih =>
    intro k
    rw [MemberTable.offerAll, List.foldl_cons]
    refine (ih (h.offer m) k).trans ?_
    by_cases hk : m.key = k <;> simp [hk]

theorem get?_putAll (t : MemberTable) (ms : List VisibleMember) (k : MemberKey) :
    (t.putAll ms).get? k = (ms.filter fun m => m.key = k).getLast?.or (t.get? k) := by
  induction ms generalizing t with
  | nil => simp [putAll]
  | cons m rest ih =>
    -- Once `m` is in the table it counts for its key unless a later member has that key too.
    rw [putAll, List.foldl_cons]
    refine (ih (t.put m)).trans ?_
    by_cases hk : m.key = k
    · subst hk
      cases h : (rest.filter fun m' => m'.key = m.key).getLast? <;> simp [List.getLast?_cons, h]
    · simp [hk, get?_put_of_ne t m hk]

theorem eraseDups_concat (arrived : List MemberKey) (k : MemberKey) :
    (arrived ++ [k]).eraseDups =
      if k ∈ arrived.eraseDups then arrived.eraseDups else arrived.eraseDups ++ [k] := by
  rw [List.eraseDups_append]
  by_cases hk : k ∈ arrived <;> simp [hk, List.removeAll, List.eraseDups_cons]

theorem keys_foldl {add : MemberTable → VisibleMember → MemberTable}
    (hadd : ∀ t m, (add t m).keys = if m.key ∈ t.keys then t.keys else t.keys ++ [m.key])
    (ms : List VisibleMember) (arrived : List MemberKey) (h : t.keys = arrived.eraseDups) :
    (ms.foldl add t).keys = (arrived ++ ms.map fun m => m.key).eraseDups := by
  induction ms generalizing t arrived with
  | nil => simpa using h
  | cons m rest ih =>
    have hnext : (add t m).keys = (arrived ++ [m.key]).eraseDups := by
      rw [hadd, h, eraseDups_concat]
    rw [List.foldl_cons, ih _ hnext]
    simp

end MemberTable

namespace Member

@[simp]
theorem key_claimedBy (m : Member) (name : String) : (m.claimedBy name).key = m.key := by
  unfold claimedBy
  split <;> rfl

end Member

namespace Declaration

def lastMember? (d : Declaration) (k : MemberKey) : Option VisibleMember :=
  (d.members.filter fun m => m.key = k).getLast?.map fun m => .ofMember (m.claimedBy d.name)

theorem get?_bodyMembers (d : Declaration) (k : MemberKey) :
    d.bodyMembers.get? k = d.lastMember? k := by
  simp [bodyMembers, MemberTable.get?_putAll, lastMember?, List.filter_map, List.getLast?_map,
    Function.comp_def, VisibleMember.ofMember]

theorem keys_bodyMembers (d : Declaration) :
    d.bodyMembers.keys = (d.members.map Member.key).eraseDups := by
  have hkeys := MemberTable.keys_foldl (t := .empty) MemberTable.keys_put
    (d.members.map fun m => .ofMember (m.claimedBy d.name)) [] rfl
  rw [bodyMembers, MemberTable.putAll, hkeys, List.map_map, List.nil_append]
  congr 2
  funext m
  simp [VisibleMember.ofMember]

theorem shows_bodyMembers (d : Declaration) (owner : String) :
    d.bodyMembers.Shows owner fun k => (d.lastMember? k).toList := by
  intro k
  rw [get?_bodyMembers]
  show d.lastMember? k = shownAmong owner (d.lastMember? k).toList
  cases d.lastMember? k with
  | none => rfl
  | some m => simp

end Declaration

namespace ResolvedType

/-- What a trait brings to the type: its properties and then its adapted methods, all of them copied
into the type. -/
def brought (t : ResolvedType) (d : Declaration) (trait : ResolvedType) : List VisibleMember :=
  ((trait.members.ofKind .property).map fun m => m.adoptedBy t.name) ++ d.contributions trait t.name

def passedOn (super : ResolvedType) (kinds : List MemberKind) : List VisibleMember :=
  kinds.flatMap fun kind => (super.members.ofKind kind).filter fun m => m.visibility.isPassedOn

def offers (t : ResolvedType) (d : Declaration) : List VisibleMember :=
  t.traits.flatMap (t.brought d) ++
    t.parent.toList.flatMap (fun super => super.passedOn [.method, .property, .constant]) ++
    t.interfaces.flatMap fun super => super.passedOn [.method, .constant]

/-- The candidates for a key: the last own member, then the members offered. -/
def candidates (t : ResolvedType) (d : Declaration) (k : MemberKey) : List VisibleMember :=
  (d.lastMember? k).toList ++ (t.offers d).filter fun m => m.key = k

theorem offerTrait_eq (t : ResolvedType) (d : Declaration) :
    t.offerTrait d = fun table trait =>
      (t.brought d trait).foldl (MemberTable.offer t.name) table := by
  funext table trait
  simp [offerTrait, brought, MemberTable.offerAll]

theorem offerSupertype_eq (t : ResolvedType) (kinds : List MemberKind) :
    t.offerSupertype kinds = fun table super =>
      (super.passedOn kinds).foldl (MemberTable.offer t.name) table := by
  funext table super
  simp [offerSupertype, passedOn, List.foldl_flatMap, MemberTable.offerInherited,
    MemberTable.offerAll]

/-- The four passes over the members are one pass over all that is offered to the own members. -/
theorem mergedMembers_eq_offerAll (t : ResolvedType) (d : Declaration) :
    t.mergedMembers d = d.bodyMembers.offerAll t.name (t.offers d) := by
  simp only [mergedMembers, offers, MemberTable.offerAll, List.foldl_append, List.foldl_flatMap,
    offerTrait_eq, offerSupertype_eq]

/-- Under each key a type shows the first candidate, which hides the later ones if the type declares
it itself and is left as it is if not.  The keys stand in the order in which their first members
arrive. -/
theorem mergedMembers_law (t : ResolvedType) (d : Declaration) :
    (∀ k, (t.mergedMembers d).get? k = shownAmong t.name (t.candidates d k)) ∧
      (t.mergedMembers d).keys =
        (d.members.map Member.key ++ (t.offers d).map fun m => m.key).eraseDups := by
  rw [mergedMembers_eq_offerAll]
  constructor
  · exact (d.shows_bodyMembers t.name).offerAll (t.offers d)
  · exact MemberTable.keys_foldl (MemberTable.keys_offer t.name) _ _ d.keys_bodyMembers

end ResolvedType

end Hierarchy
