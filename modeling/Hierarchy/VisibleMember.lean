import Hierarchy.Member

namespace Hierarchy

/-- A member as seen from one type. -/
structure VisibleMember extends Member where
  /-- The declarations hidden by this one, in the order in which they were met. -/
  shadows : List VisibleMember

namespace VisibleMember

instance : Inhabited VisibleMember := ⟨⟨default, []⟩⟩

def ofMember (m : Member) : VisibleMember := ⟨m, []⟩

def adoptedBy (m : VisibleMember) (name : String) : VisibleMember :=
  ⟨m.toMember.adoptedBy name, m.shadows⟩

def shadowing (m : VisibleMember) (hidden : VisibleMember) : VisibleMember :=
  { m with shadows := m.shadows ++ [hidden] }

theorem sizeOf_append (xs ys : List VisibleMember) :
    sizeOf (xs ++ ys) + 1 = sizeOf xs + sizeOf ys := by
  induction xs with
  | nil => simp only [List.nil_append, List.nil.sizeOf_spec]; omega
  | cons x rest ih => simp only [List.cons_append, List.cons.sizeOf_spec]; omega

theorem sizeOf_shadows_lt (m : VisibleMember) : sizeOf m.shadows < sizeOf m := by
  obtain ⟨written, shadows⟩ := m
  simp only [mk.sizeOf_spec]
  omega

/-- Lists the members on a stack, each followed by everything that it hides. -/
def unwind : List VisibleMember → List VisibleMember
  | [] => []
  | m :: rest => m :: unwind (m.shadows ++ rest)
termination_by stack => sizeOf stack
decreasing_by
  have happend := sizeOf_append m.shadows rest
  have hshadows := sizeOf_shadows_lt m
  simp only [List.cons.sizeOf_spec]
  omega

@[simp]
theorem unwind_nil : unwind [] = [] := by
  rw [unwind]

theorem unwind_cons (m : VisibleMember) (rest : List VisibleMember) :
    unwind (m :: rest) = m :: unwind (m.shadows ++ rest) := by
  rw [unwind]

theorem unwind_append (xs ys : List VisibleMember) : unwind (xs ++ ys) = unwind xs ++ unwind ys := by
  induction xs using unwind.induct with
  | case1 => simp
  | case2 m rest ih =>
    rw [List.cons_append, unwind_cons, ← List.append_assoc, ih, unwind_cons, List.cons_append]

/-- Every declaration hidden below the member, depth first. -/
def overrides (m : VisibleMember) : List VisibleMember := unwind m.shadows

@[simp]
theorem overrides_ofMember (m : Member) : (ofMember m).overrides = [] := unwind_nil

@[simp]
theorem overrides_adoptedBy (m : VisibleMember) (name : String) :
    (m.adoptedBy name).overrides = m.overrides := rfl

theorem overrides_shadowing (m hidden : VisibleMember) :
    (m.shadowing hidden).overrides = m.overrides ++ hidden :: hidden.overrides := by
  rw [overrides, shadowing, unwind_append, unwind_cons, List.append_nil]
  rfl

theorem mem_overrides_of_mem_shadows {m hidden : VisibleMember} (h : hidden ∈ m.shadows) :
    hidden ∈ m.overrides := by
  obtain ⟨before, after, heq⟩ := List.append_of_mem h
  rw [overrides, heq, unwind_append, unwind_cons]
  exact List.mem_append_right _ List.mem_cons_self

mutual
def agrees : VisibleMember → VisibleMember → Bool
  | ⟨written, shadows⟩, ⟨written', shadows'⟩ => written == written' && agreesAll shadows shadows'

def agreesAll : List VisibleMember → List VisibleMember → Bool
  | [], [] => true
  | m :: rest, m' :: rest' => agrees m m' && agreesAll rest rest'
  | _, _ => false
end

mutual
theorem eq_of_agrees : (a b : VisibleMember) → agrees a b = true → a = b
  | ⟨_, shadows⟩, ⟨_, shadows'⟩, h => by
    simp only [agrees, Bool.and_eq_true, beq_iff_eq] at h
    rw [h.1, eq_of_agreesAll shadows shadows' h.2]

theorem eq_of_agreesAll : (as bs : List VisibleMember) → agreesAll as bs = true → as = bs
  | [], [], _ => rfl
  | [], _ :: _, h => by simp [agreesAll] at h
  | _ :: _, [], h => by simp [agreesAll] at h
  | m :: rest, m' :: rest', h => by
    simp only [agreesAll, Bool.and_eq_true] at h
    rw [eq_of_agrees m m' h.1, eq_of_agreesAll rest rest' h.2]
end

mutual
theorem agrees_self : (m : VisibleMember) → agrees m m = true
  | ⟨_, shadows⟩ => by simp [agrees, agreesAll_self shadows]

theorem agreesAll_self : (ms : List VisibleMember) → agreesAll ms ms = true
  | [] => by simp [agreesAll]
  | m :: rest => by simp [agreesAll, agrees_self m, agreesAll_self rest]
end

theorem agrees_iff_eq {a b : VisibleMember} : agrees a b = true ↔ a = b :=
  ⟨eq_of_agrees a b, fun h => h ▸ agrees_self a⟩

instance : DecidableEq VisibleMember := fun a b =>
  decidable_of_iff (agrees a b = true) agrees_iff_eq

end VisibleMember

end Hierarchy
