import Mathlib.Data.List.Basic
import Hierarchy.Outline

namespace Hierarchy

namespace VisibleMember

mutual
/-- Everything hidden below a member: each declaration that it hides, followed by all that is hidden
below that one. -/
def hiddenBelow : VisibleMember → List VisibleMember
  | ⟨_, shadows⟩ => inDepth shadows

def inDepth : List VisibleMember → List VisibleMember
  | [] => []
  | m :: rest => m :: (hiddenBelow m ++ inDepth rest)
end

theorem hiddenBelow_eq (m : VisibleMember) : m.hiddenBelow = inDepth m.shadows := by
  cases m
  rfl

theorem inDepth_append (xs ys : List VisibleMember) :
    inDepth (xs ++ ys) = inDepth xs ++ inDepth ys := by
  induction xs with
  | nil => rfl
  | cons m rest ih => simp only [List.cons_append, inDepth, ih, List.append_assoc]

theorem inDepth_eq_flatMap (ms : List VisibleMember) :
    inDepth ms = ms.flatMap fun m => m :: m.hiddenBelow := by
  induction ms with
  | nil => rfl
  | cons m rest ih => rw [inDepth, ih, List.flatMap_cons, List.cons_append]

/-- Working off a stack lists its members in depth. -/
theorem unwind_eq_inDepth (stack : List VisibleMember) : unwind stack = inDepth stack := by
  induction stack using unwind.induct with
  | case1 => exact unwind_nil
  | case2 m rest ih => rw [unwind_cons, ih, inDepth_append, inDepth, hiddenBelow_eq]

/-- Where a walk through hidden declarations stands.  The last member of the stack is its top. -/
structure Walk where
  listed : List VisibleMember
  stack : List VisibleMember

namespace Walk

variable {w w' : Walk}

def start (m : VisibleMember) : Walk := ⟨[], m.shadows.reverse⟩

/-- One round of the loop, if the stack is not empty: its top is listed and gives way to what it
hides, the first on top. -/
def round? (w : Walk) : Option Walk :=
  w.stack.getLast?.map fun m => ⟨w.listed ++ [m], w.stack.dropLast ++ m.shadows.reverse⟩

def after : Nat → Walk → Option Walk
  | 0, w => some w
  | n + 1, w => w.round?.bind (after n)

def outcome (w : Walk) : List VisibleMember := w.listed ++ inDepth w.stack.reverse

theorem round?_eq_none_iff : w.round? = none ↔ w.stack = [] := by
  rw [round?, Option.map_eq_none_iff, List.getLast?_eq_none_iff]

theorem round?_eq_some (h : w.round? = some w') :
    w'.listed.length = w.listed.length + 1 ∧ w'.outcome = w.outcome := by
  obtain ⟨m, htop, rfl⟩ := Option.map_eq_some_iff.mp h
  obtain ⟨rest, hstack⟩ := List.getLast?_eq_some_iff.mp htop
  constructor
  · simp
  · simp [outcome, hstack, inDepth_append, inDepth, hiddenBelow_eq]

/-- A walk ends after as many rounds as there are members left to list, with an empty stack. -/
theorem after_eq_outcome {n : Nat} (h : w.listed.length + n = w.outcome.length) :
    w.after n = some ⟨w.outcome, []⟩ := by
  induction n generalizing w with
  | zero =>
    obtain ⟨listed, stack⟩ := w
    simp only [outcome, List.length_append] at h
    have hnone : inDepth stack.reverse = [] := List.eq_nil_of_length_eq_zero (by omega)
    have hstack : stack.reverse = [] := by
      cases hcons : stack.reverse with
      | nil => rfl
      | cons m rest =>
        rw [hcons, inDepth] at hnone
        cases hnone
    rw [after, outcome, hnone, List.append_nil, List.reverse_eq_nil_iff.mp hstack]
  | succ n ih =>
    cases hround : w.round? with
    | none =>
      -- With an empty stack nothing would be left to list.
      have hstack := round?_eq_none_iff.mp hround
      rw [outcome, hstack, List.reverse_nil, inDepth, List.append_nil] at h
      omega
    | some w' =>
      obtain ⟨hlisted, houtcome⟩ := round?_eq_some hround
      rw [← houtcome] at h ⊢
      rw [after, hround, Option.bind_some]
      exact ih (by omega)

theorem after_start (m : VisibleMember) :
    (start m).after m.hiddenBelow.length = some ⟨m.hiddenBelow, []⟩ := by
  have houtcome : (start m).outcome = m.hiddenBelow := by
    rw [outcome, start, List.nil_append, List.reverse_reverse, hiddenBelow_eq]
  rw [after_eq_outcome (by rw [houtcome, start, List.length_nil, Nat.zero_add]), houtcome]

end Walk

/-- The member at a place at or below `m`.  A place says, level by level from `m` downward, which of
the hidden declarations to take. -/
def at? (m : VisibleMember) : List Nat → Option VisibleMember
  | [] => some m
  | i :: place => m.shadows[i]?.bind fun x => x.at? place

mutual
def places : VisibleMember → List (List Nat)
  | ⟨_, shadows⟩ => placesFrom 0 shadows

/-- The places at and below the members of a list, of which the first is counted as `i`. -/
def placesFrom : Nat → List VisibleMember → List (List Nat)
  | _, [] => []
  | i, m :: rest => [i] :: ((places m).map (i :: ·) ++ placesFrom (i + 1) rest)
end

theorem places_eq (m : VisibleMember) : m.places = placesFrom 0 m.shadows := by
  cases m
  rfl

theorem mem_placesFrom {i : Nat} {ms : List VisibleMember} {p : List Nat} :
    p ∈ placesFrom i ms ↔
      ∃ j place x, p = (i + j) :: place ∧ ms[j]? = some x ∧ (place = [] ∨ place ∈ x.places) := by
  induction ms generalizing i with
  | nil => simp [placesFrom]
  | cons m rest ih =>
    rw [placesFrom, List.mem_cons, List.mem_append, List.mem_map, ih]
    constructor
    · rintro (rfl | ⟨place, hplace, rfl⟩ | ⟨j, place, x, rfl, hx, hplace⟩)
      · exact ⟨0, [], m, rfl, rfl, .inl rfl⟩
      · exact ⟨0, place, m, rfl, rfl, .inr hplace⟩
      · exact ⟨j + 1, place, x, by rw [Nat.add_right_comm, Nat.add_assoc], hx, hplace⟩
    · rintro ⟨j, place, x, rfl, hx, hplace⟩
      cases j with
      | zero =>
        obtain rfl : m = x := Option.some.inj hx
        rcases hplace with rfl | hplace
        · exact .inl rfl
        · exact .inr (.inl ⟨place, hplace, rfl⟩)
      | succ j =>
        exact .inr (.inr ⟨j, place, x, by rw [Nat.add_right_comm, Nat.add_assoc], hx, hplace⟩)

theorem mem_places {m : VisibleMember} {p : List Nat} :
    p ∈ m.places ↔ p ≠ [] ∧ (m.at? p).isSome = true := by
  induction p generalizing m with
  | nil =>
    rw [places_eq, mem_placesFrom]
    constructor
    · rintro ⟨j, place, x, hnil, -⟩
      cases hnil
    · rintro ⟨hnil, -⟩
      exact absurd rfl hnil
  | cons i place ih =>
    rw [places_eq, mem_placesFrom, at?]
    constructor
    · rintro ⟨j, place', x, hp, hx, hplace⟩
      obtain ⟨rfl, rfl⟩ : i = j ∧ place = place' := by simpa using hp
      refine ⟨List.cons_ne_nil _ _, ?_⟩
      rw [hx, Option.bind_some]
      rcases hplace with rfl | hplace
      · rfl
      · exact (ih.mp hplace).2
    · rintro ⟨-, hsome⟩
      obtain ⟨y, hy⟩ := Option.isSome_iff_exists.mp hsome
      obtain ⟨x, hx, hplace⟩ := Option.bind_eq_some_iff.mp hy
      refine ⟨i, place, x, by rw [Nat.zero_add], hx, ?_⟩
      by_cases hnil : place = []
      · exact .inl hnil
      · exact .inr (ih.mpr ⟨hnil, by rw [hplace]; rfl⟩)

mutual
theorem map_at?_places : (m : VisibleMember) → m.places.map m.at? = m.hiddenBelow.map some
  | ⟨written, shadows⟩ => map_at?_placesFrom ⟨written, shadows⟩ [] shadows rfl

theorem map_at?_placesFrom (owner : VisibleMember) (before : List VisibleMember) :
    (ms : List VisibleMember) → owner.shadows = before ++ ms →
      (placesFrom before.length ms).map owner.at? = (inDepth ms).map some
  | [], _ => rfl
  | m :: rest, h => by
    have hm : owner.shadows[before.length]? = some m := by simp [h]
    have hbelow : ((places m).map (before.length :: ·)).map owner.at? = m.hiddenBelow.map some := by
      rw [← map_at?_places m, List.map_map]
      apply List.map_congr_left
      intro place _
      rw [Function.comp_apply, at?, hm, Option.bind_some]
    have hrest := map_at?_placesFrom owner (before ++ [m]) rest (by simp [h])
    rw [List.length_append, List.length_singleton] at hrest
    rw [placesFrom, inDepth, List.map_cons, List.map_append, hbelow, hrest, List.map_cons,
      List.map_append, at?, hm, Option.bind_some, at?]
end

mutual
/-- Each place comes before those below it, and these before the places further on. -/
theorem pairwise_places : (m : VisibleMember) → m.places.Pairwise (· < ·)
  | ⟨_, shadows⟩ => pairwise_placesFrom 0 shadows

theorem pairwise_placesFrom (i : Nat) :
    (ms : List VisibleMember) → (placesFrom i ms).Pairwise (· < ·)
  | [] => List.Pairwise.nil
  | m :: rest => by
    -- Whatever follows the places of `m` lies at or below a later member.
    have hlater (place p : List Nat) (hp : p ∈ placesFrom (i + 1) rest) : i :: place < p := by
      obtain ⟨j, place', x, rfl, -⟩ := mem_placesFrom.mp hp
      exact List.cons_lt_cons_iff.mpr (.inl (by omega))
    rw [placesFrom, List.pairwise_cons, List.pairwise_append, List.pairwise_map]
    refine ⟨?_, ?_, pairwise_placesFrom (i + 1) rest, ?_⟩
    · intro p hp
      rcases List.mem_append.mp hp with hp | hp
      · obtain ⟨place, hplace, rfl⟩ := List.mem_map.mp hp
        obtain ⟨j, place', rfl⟩ := List.exists_cons_of_ne_nil (mem_places.mp hplace).1
        exact List.cons_lt_cons_iff.mpr (.inr ⟨rfl, List.nil_lt_cons j place'⟩)
      · exact hlater [] p hp
    · exact (pairwise_places m).imp fun hlt => List.cons_lt_cons_iff.mpr (.inr ⟨rfl, hlt⟩)
    · intro p hp q hq
      obtain ⟨place, -, rfl⟩ := List.mem_map.mp hp
      exact hlater place q hq
end

/-- Whether these are the places below a member, each once and in order: a place comes before the
places below it, and these come before the places further on. -/
structure HasPlaces (m : VisibleMember) (places : List (List Nat)) : Prop where
  complete : ∀ p, p ∈ places ↔ p ≠ [] ∧ (m.at? p).isSome = true
  ordered : places.Pairwise (· < ·)

theorem hasPlaces_places (m : VisibleMember) : m.HasPlaces m.places :=
  ⟨fun _ => mem_places, m.pairwise_places⟩

/-- An override chain is found in as many rounds as it has members, and is the list that the recursion
over the tree gives.  So an editor shows what stands at each place below a member, once for each place
and the nearest first, and nothing below a member that is not there. -/
theorem overrides_in_depth :
    (∀ m : VisibleMember,
      (Walk.start m).after m.overrides.length = some ⟨m.overrides, []⟩ ∧
      m.overrides = m.hiddenBelow ∧
      m.hiddenBelow = m.shadows.flatMap fun x => x :: x.hiddenBelow) ∧
    ∀ (t : ResolvedType) (kind : MemberKind) (name : String),
      match t.members.lookup? kind name with
      | none => t.overridden kind name = []
      | some m => ∃ places, m.HasPlaces places ∧
        (t.overridden kind name).map some =
          places.map fun p => (m.at? p).map fun x => ⟨x.origin.owner, x.name, x.location⟩ := by
  have hchain (m : VisibleMember) : m.overrides = m.hiddenBelow := by
    rw [overrides, unwind_eq_inDepth, hiddenBelow_eq]
  refine ⟨fun m => ⟨?_, hchain m, ?_⟩, ?_⟩
  · rw [hchain]
    exact Walk.after_start m
  · rw [hiddenBelow_eq, inDepth_eq_flatMap]
  · intro t kind name
    cases hm : t.members.lookup? kind name with
    | none => rw [ResolvedType.overridden, hm]
    | some m =>
      refine ⟨m.places, m.hasPlaces_places, ?_⟩
      calc
        (t.overridden kind name).map some = (m.hiddenBelow.map some).map
            (Option.map fun x => ⟨x.origin.owner, x.name, x.location⟩) := by
          simp only [ResolvedType.overridden, hm, hchain, List.map_map]
          rfl
        _ = (m.places.map m.at?).map (Option.map fun x => ⟨x.origin.owner, x.name, x.location⟩) := by
          rw [map_at?_places]
        _ = m.places.map fun p => (m.at? p).map fun x => ⟨x.origin.owner, x.name, x.location⟩ := by
          rw [List.map_map]
          rfl

end VisibleMember

end Hierarchy
