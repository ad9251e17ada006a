import Mathlib.Data.Set.Basic
import Mathlib.Logic.Relation
import Hierarchy.Proofs.Requests

namespace Hierarchy

open Relation

/-- A name to be followed from a cache, with the levels that the recursion has left. -/
structure Call where
  levels : ℕ
  name : String
  cache : Cache

namespace Resolver

open ResolveM

def Returns (r : Resolver) (supplier : Supplier) (call : Call) (result : Except Halt Edge)
    (c' : Cache) : Prop := MayEnd supplier (r.reach call.levels call.name) call.cache result c'

/-- Whether `inner` is one of the calls that `outer` may make itself: there is room for the type
called `outer.name`, which is new, and `inner` follows an edge of its first candidate. -/
inductive Makes (r : Resolver) (supplier : Supplier) : Call → Call → Prop
  | edge {levels : ℕ} {name : String} {c c' : Cache} {d : Declaration} {others : List Declaration}
      {before after : List (String × String)} {relation target : String}
      {answers : List (String × Option ResolvedType)}
      (new : c.slots.get? (.ofName name) = none) (room : c.depth < r.settings.depthLimit)
      (given : supplier name (.ok (d :: others)))
      (position : d.edges = before ++ (relation, target) :: after)
      (follows : r.Follows supplier (r.reach levels) d (.ofName name)
        ((c.start (.ofName name)).addAll ((ambiguity others).map d.diagnose)) before answers c') :
      Makes r supplier ⟨levels + 1, name, c⟩ ⟨levels, target, c'⟩

variable {r : Resolver} {supplier : Supplier}

section Complete

variable {follow follow' : String → ResolveM Edge} {d : Declaration} {key : TypeKey} {c c' : Cache}
  {edges : List (String × String)}

/-- Whether `follow` and `follow'` come to the same at each of the edges, from the caches that
following the edges before it with `follow'` may leave. -/
def AgreeOn (r : Resolver) (supplier : Supplier) (follow follow' : String → ResolveM Edge)
    (d : Declaration) (key : TypeKey) (c : Cache) (edges : List (String × String)) : Prop :=
  ∀ before relation target after answers c₁, edges = before ++ (relation, target) :: after →
    r.Follows supplier follow' d key c before answers c₁ →
    ∀ result c₂, MayEnd supplier (follow target) c₁ result c₂ ↔
      MayEnd supplier (follow' target) c₁ result c₂

theorem AgreeOn.next {relation target : String} {edge : Edge} {c₁ : Cache}
    (h : r.AgreeOn supplier follow follow' d key c ((relation, target) :: edges))
    (ends : MayEnd supplier (follow' target) c (.ok edge) c₁) :
    r.AgreeOn supplier follow follow' d key (r.linked d key relation target edge c₁).2 edges := by
  rintro before relation' target' after answers c₂ rfl follows
  exact h ((relation, target) :: before) relation' target' after _ c₂ rfl (.next ends follows)

theorem AgreeOn.follows_iff {answers : List (String × Option ResolvedType)}
    (h : r.AgreeOn supplier follow follow' d key c edges) :
    r.Follows supplier follow d key c edges answers c' ↔
      r.Follows supplier follow' d key c edges answers c' := by
  induction edges generalizing c answers with
  | nil =>
    constructor
    · rintro ⟨⟩
      exact .nil _
    · rintro ⟨⟩
      exact .nil _
  | cons edge rest ih =>
    have hfirst := h [] edge.1 edge.2 rest [] c rfl (.nil c)
    constructor
    · rintro (_ | ⟨ends, follows⟩)
      have ends' := (hfirst _ _).mp ends
      exact .next ends' ((ih (h.next ends')).mp follows)
    · rintro (_ | ⟨ends, follows⟩)
      exact .next ((hfirst _ _).mpr ends) ((ih (h.next ends)).mpr follows)

theorem AgreeOn.stops_iff {halt : Halt} (h : r.AgreeOn supplier follow follow' d key c edges) :
    r.Stops supplier follow d key c edges halt c' ↔
      r.Stops supplier follow' d key c edges halt c' := by
  induction edges generalizing c with
  | nil =>
    constructor
    · rintro ⟨⟩
    · rintro ⟨⟩
  | cons edge rest ih =>
    have hfirst := h [] edge.1 edge.2 rest [] c rfl (.nil c)
    constructor
    · rintro (⟨stops, _⟩ | ⟨ends, stops⟩)
      · exact .here ((hfirst _ _).mp stops) rest
      · have ends' := (hfirst _ _).mp ends
        exact .later ends' ((ih (h.next ends')).mp stops)
    · rintro (⟨stops, _⟩ | ⟨ends, stops⟩)
      · exact .here ((hfirst _ _).mpr stops) rest
      · exact .later ((hfirst _ _).mpr ends) ((ih (h.next ends)).mpr stops)

theorem Passes.imp {name : String} {result : Except Halt Edge}
    (h : r.Passes supplier follow name c result c')
    (hedges : ∀ d others, c.slots.get? (.ofName name) = none → c.depth < r.settings.depthLimit →
      supplier name (.ok (d :: others)) →
      let c₀ := (c.start (.ofName name)).addAll ((ambiguity others).map d.diagnose)
      (∀ answers c₁, r.Follows supplier follow d (.ofName name) c₀ d.edges answers c₁ →
        r.Follows supplier follow' d (.ofName name) c₀ d.edges answers c₁) ∧
      ∀ halt c₁, r.Stops supplier follow d (.ofName name) c₀ d.edges halt c₁ →
        r.Stops supplier follow' d (.ofName name) c₀ d.edges halt c₁) :
    r.Passes supplier follow' name c result c' := by
  cases h with
  | done known => exact .done known
  | cycle underway => exact .cycle underway
  | tooDeep new full => exact .tooDeep new full
  | refused new room given => exact .refused new room given
  | missing new room given => exact .missing new room given
  | stopped new room given stops =>
    exact .stopped new room given ((hedges _ _ new room given).2 _ _ stops)
  | built new room given hparents hinterfaces htraits follows hassembly =>
    exact .built new room given hparents hinterfaces htraits
      ((hedges _ _ new room given).1 _ _ follows) hassembly

end Complete

/-- The calls that a call makes are all that it asks of the recursion: anything that agrees with the
recursion on them can take its place. -/
theorem mayEnd_step_iff_returns {follow : String → ResolveM Edge} {levels : ℕ} {name : String}
    {c c' : Cache} {result : Except Halt Edge}
    (h : ∀ inner, r.Makes supplier ⟨levels + 1, name, c⟩ inner → ∀ result c',
      MayEnd supplier (follow inner.name) inner.cache result c' ↔
        r.Returns supplier inner result c') :
    MayEnd supplier (r.step follow name) c result c' ↔
      r.Returns supplier ⟨levels + 1, name, c⟩ result c' := by
  have hagree (d : Declaration) (others : List Declaration)
      (new : c.slots.get? (.ofName name) = none) (room : c.depth < r.settings.depthLimit)
      (given : supplier name (.ok (d :: others))) :
      r.AgreeOn supplier follow (r.reach levels) d (.ofName name)
        ((c.start (.ofName name)).addAll ((ambiguity others).map d.diagnose)) d.edges := by
    intro before relation target after answers c₁ position follows
    exact h ⟨levels, target, c₁⟩ (.edge new room given position follows)
  show _ ↔ MayEnd supplier (r.step (r.reach levels) name) c result c'
  rw [mayEnd_step, mayEnd_step]
  constructor
  · intro hpasses
    refine hpasses.imp fun d others new room given => ?_
    have hedges := hagree d others new room given
    exact ⟨fun _ _ => hedges.follows_iff.mp, fun _ _ => hedges.stops_iff.mp⟩
  · intro hpasses
    refine hpasses.imp fun d others new room given => ?_
    have hedges := hagree d others new room given
    exact ⟨fun _ _ => hedges.follows_iff.mpr, fun _ _ => hedges.stops_iff.mpr⟩

/-- What holds of every call within a request: exactly the types of some stack are being worked on,
and the levels left are enough for as many types as there is room for. -/
def Standing (r : Resolver) (call : Call) : Prop :=
  ∃ stack, call.cache.OnStack stack ∧ stack.length ≤ r.settings.depthLimit ∧
    call.levels + stack.length = r.settings.depthLimit + 1

theorem Makes.standing {outer inner : Call} (h : r.Makes supplier outer inner)
    (houter : r.Standing outer) : r.Standing inner := by
  obtain ⟨new, room, -, -, follows⟩ := h
  obtain ⟨stack, hs, hle, hlevels⟩ := houter
  have hedges := (Cache.Extends.addAll _ _).trans
    (follows.extends fun _ _ _ _ => extends_of_mayEnd)
  rw [hs.depth_eq] at room
  refine ⟨_, hedges.onStack (hs.start new), ?_, ?_⟩
  · simp only [List.length_cons]
    omega
  · simp only [List.length_cons]
    simp only at hlevels
    omega

def firstCall (r : Resolver) (c : Cache) (name : String) : Call :=
  ⟨r.settings.depthLimit + 1, name, c⟩

theorem standing_of_calls {c : Cache} (hc : c.OnStack []) {name : String} {call : Call}
    (h : ReflTransGen (r.Makes supplier) (r.firstCall c name) call) : r.Standing call := by
  induction h with
  | refl => exact ⟨[], hc, Nat.zero_le _, rfl⟩
  | tail _ hmakes ih => exact hmakes.standing ih

theorem Standing.refused {call : Call} (h : r.Standing call) {halt : Halt} {c' : Cache}
    (hreturns : r.Returns supplier call (.error halt) c') : ∃ error, halt = .source error := by
  obtain ⟨stack, hs, hle, hlevels⟩ := h
  obtain ⟨_, error, -, rfl⟩ := refused_of_mayEnd hs hle (by omega) hreturns
  exact ⟨error, rfl⟩

end Resolver

namespace Cache

def underway (c : Cache) : Set TypeKey := {k | c.slots.get? k = some .underway}

/-- Whether work that began on `c` and ended on `c'` took back all it did to the marks: the same
types are being worked on, they are counted as before, and only such types are noted as reentered,
now as then. -/
structure Balanced (c c' : Cache) : Prop where
  underway_eq : c'.underway = c.underway
  depth_eq : c'.depth = c.depth
  reentered_before : ∀ k ∈ c.reentered, k ∈ c.underway
  reentered_after : ∀ k ∈ c'.reentered, k ∈ c'.underway

/-- Whether nothing is being worked on. -/
structure AtRest (c : Cache) : Prop where
  underway_eq : c.underway = ∅
  depth_eq : c.depth = 0
  reentered_eq : c.reentered = []

theorem OnStack.mem_underway {c : Cache} {stack : List TypeKey} (h : c.OnStack stack)
    (k : TypeKey) : k ∈ c.underway ↔ k ∈ stack := h.underway_iff k

theorem Extends.balanced {c c' : Cache} {stack : List TypeKey} (h : c.Extends c')
    (hs : c.OnStack stack) : c.Balanced c' where
  underway_eq := by
    ext k
    rw [(h.onStack hs).mem_underway, hs.mem_underway]
  depth_eq := by rw [(h.onStack hs).depth_eq, hs.depth_eq]
  reentered_before k hk := (hs.mem_underway k).mpr (hs.reentered_sub k hk)
  reentered_after k hk := ((h.onStack hs).mem_underway k).mpr ((h.onStack hs).reentered_sub k hk)

theorem OnStack.atRest {c : Cache} (h : c.OnStack []) : c.AtRest where
  underway_eq := by
    ext k
    simp [h.mem_underway]
  depth_eq := h.depth_eq
  reentered_eq := List.eq_nil_iff_forall_not_mem.mpr fun k hk => by simpa using h.reentered_sub k hk

end Cache

namespace Resolver

open ResolveM

/-- Whatever is answered, and whatever a call within a request ends in, it leaves the marks in the
cache as it found them; it ends in an edge unless an answer failed.  So nothing is being worked on
after a request; finished answers stay as they are, and the report only grows. -/
theorem marks_balanced (r : Resolver) {c : Cache} (hc : r.Reached .any c) (name : String) :
    (∀ call, ReflTransGen (r.Makes .any) (r.firstCall c name) call →
        ∀ result c', r.Returns .any call result c' →
          call.cache.Balanced c' ∧
            ((∃ edge, result = .ok edge) ∨ ∃ error, result = .error (.source error))) ∧
      ∀ result c', (r.request name c).MayEnd .any (result, c') →
        c'.AtRest ∧
          (∀ k v, c.slots.get? k = some (.done v) → c'.slots.get? k = some (.done v)) ∧
          c.report <+: c'.report := by
  refine ⟨fun call hcall result c' hreturns => ⟨?_, ?_⟩, fun result c' hends => ?_⟩
  · obtain ⟨stack, hs, -, -⟩ := standing_of_calls hc.onStack hcall
    exact (extends_of_mayEnd hreturns).balanced hs
  · cases result with
    | ok edge => exact .inl ⟨edge, rfl⟩
    | error halt =>
      obtain ⟨error, rfl⟩ := (standing_of_calls hc.onStack hcall).refused hreturns
      exact .inr ⟨error, rfl⟩
  · obtain ⟨edge, hend, -⟩ := mayEnd_request.mp hends
    have hext := extends_of_mayEnd hend
    exact ⟨(hext.onStack hc.onStack).atRest, fun k v hv => hext.done hv, hext.report_grows⟩

def loopThenFailure : Source := fun name =>
  if name = "A" then .ok [(Declaration.ofName .classType "A").withParent "B"]
  else if name = "B" then
    .ok [((Declaration.ofName .classType "B").withInterface "A").withInterface "C"]
  else .error (.unavailable "offline")

/-- A failure two levels down, while a reentry is noted, leaves no mark behind. -/
theorem marks_balanced_loopThenFailure :
    ∃ call c', ReflTransGen (standard.Makes .any) (standard.firstCall .empty "A") call ∧
      .ofName "A" ∈ call.cache.reentered ∧
      standard.Returns .any call (.error (.source (.unavailable "offline"))) c' ∧
      call.cache.Balanced c' ∧ (standard.serve .empty ⟨loopThenFailure, "A"⟩).AtRest := by
  let a := (Declaration.ofName .classType "A").withParent "B"
  let b := ((Declaration.ofName .classType "B").withInterface "A").withInterface "C"
  let c := (Cache.empty.start (.ofName "A")).start (.ofName "B")
  have hab : standard.Makes .any (standard.firstCall .empty "A")
      ⟨64, "B", Cache.empty.start (.ofName "A")⟩ :=
    .edge rfl (by decide) (show Supplier.any "A" (.ok [a]) from trivial) rfl (.nil _)
  obtain ⟨answers, c₁, hfollows, hnoted, hslot, hdepth⟩ : ∃ answers c₁,
      standard.Follows .any (standard.reach 63) b (.ofName "B") c [("interface", "A")] answers c₁ ∧
        .ofName "A" ∈ c₁.reentered ∧ c₁.slots.get? (.ofName "C") = none ∧ c₁.depth = 2 := by
    refine ⟨_, _, .next (mayEnd_step.mpr (.cycle rfl)) (.nil _), ?_, ?_, ?_⟩
    · rw [reentered_linked]
      decide
    · rw [slots_linked]
      rfl
    · rw [depth_linked]
      rfl
  have hbc : standard.Makes .any ⟨64, "B", Cache.empty.start (.ofName "A")⟩ ⟨63, "C", c₁⟩ :=
    .edge rfl (by decide) (show Supplier.any "B" (.ok [b]) from trivial) rfl hfollows
  have hcalls := (ReflTransGen.single hab).tail hbc
  have hrefused : standard.Returns .any ⟨63, "C", c₁⟩
      (.error (.source (.unavailable "offline"))) _ :=
    mayEnd_step.mpr (.refused hslot (by rw [hdepth]; decide) trivial)
  obtain ⟨hbalanced, hrequest⟩ := marks_balanced standard .empty "A"
  have hserve := Inquiry.mayEnd_run loopThenFailure.within_any (standard.request "A" .empty)
  exact ⟨_, _, hcalls, hnoted, hrefused, (hbalanced _ hcalls _ _ hrefused).1,
    (hrequest _ _ hserve).1⟩

end Resolver

end Hierarchy
