import Mathlib.Data.Set.Card
import Hierarchy.Proofs.CacheHistory

namespace Hierarchy

namespace Cache

variable {c : Cache} {stack stack' : List TypeKey} {limit : ℕ} {ch : Change}

/-- Whether the depth is the number of types being worked on, and no more than the limit. -/
structure Counts (c : Cache) (limit : ℕ) : Prop where
  encard_eq : c.underway.encard = c.depth
  depth_le : c.depth ≤ limit

theorem OnStack.counts (h : c.OnStack stack) (hle : stack.length ≤ limit) : c.Counts limit where
  encard_eq := by
    have hset : c.underway = (stack.toFinset : Set TypeKey) := by
      ext k
      rw [h.mem_underway, Finset.mem_coe, List.mem_toFinset]
    rw [hset, Set.encard_coe_eq_coe_finsetCard, List.toFinset_card_of_nodup h.nodup, h.depth_eq]
  depth_le := h.depth_eq ▸ hle

theorem OnStack.length_cons_le (h : c.OnStack stack) (hroom : c.depth < limit) (key : TypeKey) :
    (key :: stack).length ≤ limit := by
  rw [List.length_cons, ← h.depth_eq]
  exact hroom

/-- Whether the operation is in turn: a type is started only while it is not being worked on, and
work is ended only on a type that is, which the depth counts. -/
def InTurn (c : Cache) : Change → Prop
  | .start key => key ∉ c.underway
  | .settle key _ => key ∈ c.underway ∧ 0 < c.depth
  | .release key => key ∈ c.underway ∧ 0 < c.depth
  | _ => True

/-- Whether an operation is in turn and the depth counts before and after it. -/
structure Orderly (limit : ℕ) (c : Cache) (ch : Change) : Prop where
  before : c.Counts limit
  after : (c.change ch).Counts limit
  inTurn : c.InTurn ch

theorem OnStack.orderly (h : c.OnStack stack) (hle : stack.length ≤ limit)
    (h' : (c.change ch).OnStack stack') (hle' : stack'.length ≤ limit) (hturn : c.InTurn ch) :
    Orderly limit c ch :=
  ⟨h.counts hle, h'.counts hle', hturn⟩

/-- Whether `p` holds of each operation together with the cache that it finds. -/
def Throughout (p : Cache → Change → Prop) : Cache → List Change → Prop
  | _, [] => True
  | c, ch :: rest => p c ch ∧ Throughout p (c.change ch) rest

variable {p : Cache → Change → Prop} {changes more : List Change}

theorem throughout_append : Throughout p c (changes ++ more) ↔
    Throughout p c changes ∧ Throughout p (c.after changes) more := by
  induction changes generalizing c with
  | nil => simp [Throughout]
  | cons ch rest ih => simp [Throughout, ih, and_assoc]

theorem Throughout.at {before after : List Change}
    (h : Throughout p c (before ++ ch :: after)) : p (c.after before) ch :=
  (throughout_append.mp h).2.1

theorem Throughout.counts (h : Throughout (Orderly limit) c changes) (hc : c.Counts limit)
    {before : List Change} (hpre : before <+: changes) : (c.after before).Counts limit := by
  obtain ⟨rest, rfl⟩ := hpre
  rcases List.eq_nil_or_concat before with rfl | ⟨earlier, ch, rfl⟩
  · exact hc
  · rw [List.concat_eq_append, List.append_assoc] at h
    rw [List.concat_eq_append, after_append]
    exact h.at.after

end Cache

namespace Resolver

open Relation ResolveM Cache

variable {r : Resolver} {supplier : Supplier} {d : Declaration} {key : TypeKey} {c : Cache}
  {stack : List TypeKey} {changes : List Change}

theorem orderly_linkChanges (d : Declaration) (key : TypeKey) (relation target : String)
    (edge : Edge) (hs : c.OnStack stack) (hle : stack.length ≤ r.settings.depthLimit) :
    Throughout (Orderly r.settings.depthLimit) c (r.linkChanges d key relation target edge c) := by
  have htaken : (c.takeReentry key).2.OnStack stack :=
    { hs with reentered_sub := fun k hk => hs.reentered_sub k (List.mem_filter.mp hk).1 }
  have hreported (ds : Report) := (Extends.addAll (c.takeReentry key).2 ds).onStack htaken
  refine ⟨hs.orderly hle htaken hle trivial, ?_⟩
  split
  · trivial
  · exact ⟨htaken.orderly hle (hreported _) hle trivial, trivial⟩

/-- Whether each call keeps to the order on a stack and leaves the stack as it was. -/
def OrderlyOn (limit : ℕ) (course : Course) (stack : List TypeKey) : Prop :=
  ∀ target c changes result, course target c changes result → c.OnStack stack →
    Throughout (Orderly limit) c changes ∧ (c.after changes).OnStack stack

theorem AltersEdges.orderly {course : Course} {edges : List (String × String)}
    {result : Except Halt (List (String × Option ResolvedType))}
    (h : r.AltersEdges course d key c edges changes result)
    (hcourse : OrderlyOn r.settings.depthLimit course stack) (hs : c.OnStack stack)
    (hle : stack.length ≤ r.settings.depthLimit) :
    Throughout (Orderly r.settings.depthLimit) c changes ∧ (c.after changes).OnStack stack := by
  induction h with
  | nil => exact ⟨trivial, hs⟩
  | halt halts => exact hcourse _ _ _ _ halts hs
  | @next c relation target edge _ changes _ _ ends _ ih =>
    obtain ⟨hcall, hs₁⟩ := hcourse _ _ _ _ ends hs
    have hs₂ := (extends_linked (r := r) d key relation target edge (c.after changes)).onStack hs₁
    obtain ⟨hrest, hs₃⟩ := ih hs₂
    have hlink := orderly_linkChanges (r := r) d key relation target edge hs₁ hle
    simp only [throughout_append, after_append, after_linkChanges]
    exact ⟨⟨⟨hcall, hlink⟩, hrest⟩, hs₃⟩

theorem orderly_start (hs : c.OnStack stack) (hroom : c.depth < r.settings.depthLimit)
    (hnew : c.slots.get? key = none) : Orderly r.settings.depthLimit c (.start key) := by
  have hle := hs.length_cons_le hroom key
  refine hs.orderly (Nat.le_of_succ_le hle) (hs.start hnew) hle ?_
  intro hin
  have hslot : c.slots.get? key = some .underway := hin
  simp [hnew] at hslot

theorem orderly_work {ds : Report} {closing : List Change} (hs : c.OnStack stack)
    (hroom : c.depth < r.settings.depthLimit) (hnew : c.slots.get? key = none)
    (hedges : ((c.start key).addAll ds).OnStack (key :: stack) →
      (key :: stack).length ≤ r.settings.depthLimit →
      Throughout (Orderly r.settings.depthLimit) ((c.start key).addAll ds) changes ∧
        Throughout (Orderly r.settings.depthLimit) (((c.start key).addAll ds).after changes)
          closing) :
    Throughout (Orderly r.settings.depthLimit) c (.start key :: .addAll ds :: (changes ++ closing)) := by
  have hle := hs.length_cons_le hroom key
  have hstart := hs.start hnew
  have hadd := (Extends.addAll (c.start key) ds).onStack hstart
  exact ⟨orderly_start hs hroom hnew, hstart.orderly hle hadd hle trivial,
    throughout_append.mpr (hedges hadd hle)⟩

theorem orderly_end {limit : ℕ} {ch : Change} (hs : c.OnStack (key :: stack))
    (hle : (key :: stack).length ≤ limit) (hch : ch = .release key ∨ ∃ v, ch = .settle key v) :
    Orderly limit c ch := by
  have hle' : stack.length ≤ limit := Nat.le_of_succ_le hle
  have hin : key ∈ c.underway := (hs.mem_underway key).mpr List.mem_cons_self
  have hpos : 0 < c.depth := by
    rw [hs.depth_eq]
    exact Nat.succ_pos _
  rcases hch with rfl | ⟨v, rfl⟩
  · exact hs.orderly hle hs.release hle' ⟨hin, hpos⟩
  · exact hs.orderly hle hs.settle hle' ⟨hin, hpos⟩

theorem orderly_closing {limit : ℕ} {ds : Report} {cuts : ℕ} {v : Option ResolvedType}
    (hs : c.OnStack (key :: stack)) (hle : (key :: stack).length ≤ limit) :
    Throughout (Orderly limit) c (c.closing ds cuts key v) := by
  have hadd := (Extends.addAll c ds).onStack hs
  refine ⟨hs.orderly hle hadd hle trivial, orderly_end hadd hle ?_, trivial⟩
  split
  · exact .inl rfl
  · exact .inr ⟨v, rfl⟩

/-- However a call within the limit ends, all that it does to the cache is in order. -/
theorem orderly_of_alters {levels : ℕ} {name : String} {result : Except Halt Edge}
    (h : r.Alters supplier levels name c changes result) (hs : c.OnStack stack)
    (hle : stack.length ≤ r.settings.depthLimit) :
    Throughout (Orderly r.settings.depthLimit) c changes := by
  -- One level down the stack is longer by the type being worked on, for which there was room.
  induction levels generalizing name c changes result stack with
  | zero =>
    obtain ⟨rfl, -⟩ := h
    trivial
  | succ levels ih =>
    have hinner {stack' : List TypeKey} (hle' : stack'.length ≤ r.settings.depthLimit) :
        OrderlyOn r.settings.depthLimit (r.Alters supplier levels) stack' := by
      intro target c₁ changes₁ result₁ h₁ hs₁
      have hends := (mayEnd_reach_iff r supplier levels _ _ _ _).mpr ⟨changes₁, h₁, rfl⟩
      exact ⟨ih h₁ hs₁ hle', (extends_of_mayEnd hends).onStack hs₁⟩
    cases h with
    | done => trivial
    | cycle underway =>
      have hs' := (Extends.reenter underway).onStack hs
      exact ⟨hs.orderly hle hs' hle trivial, trivial⟩
    | tooDeep => exact ⟨hs.orderly hle ((Extends.cutEdge c).onStack hs) hle trivial, trivial⟩
    | refused new room =>
      have hroom := hs.length_cons_le room (.ofName name)
      exact ⟨orderly_start hs room new, orderly_end (hs.start new) hroom (.inl rfl), trivial⟩
    | missing new room =>
      have hroom := hs.length_cons_le room (.ofName name)
      exact ⟨orderly_start hs room new, orderly_end (hs.start new) hroom (.inr ⟨none, rfl⟩), trivial⟩
    | stopped new room _ stops =>
      refine orderly_work hs room new fun hstart hroom => ?_
      obtain ⟨hedges, hs₁⟩ := stops.orderly (hinner hroom) hstart hroom
      exact ⟨hedges, orderly_end hs₁ hroom (.inl rfl), trivial⟩
    | built new room _ _ _ _ follows =>
      refine orderly_work hs room new fun hstart hroom => ?_
      obtain ⟨hedges, hs₁⟩ := follows.orderly (hinner hroom) hstart hroom
      exact ⟨hedges, orderly_closing hs₁ hroom⟩

/-- A bound on the recursion that leaves a level for each type there is room for makes no
difference, however much is added to it. -/
theorem mayEnd_reach_add {levels : ℕ} {name : String} {result : Except Halt Edge} {c' : Cache}
    (hs : c.OnStack stack) (hle : stack.length ≤ r.settings.depthLimit)
    (hlevels : r.settings.depthLimit < levels + stack.length) (more : ℕ) :
    MayEnd supplier (r.reach (levels + more) name) c result c' ↔
      MayEnd supplier (r.reach levels name) c result c' := by
  induction levels generalizing name c result c' stack with
  | zero => omega
  | succ levels ih =>
    rw [Nat.add_right_comm]
    refine mayEnd_step_iff_returns ?_
    rintro _ ⟨new, room, -, -, follows⟩ result₁ c₁
    have hedges := (Extends.addAll _ _).trans (follows.extends fun _ _ _ _ => extends_of_mayEnd)
    rw [hs.depth_eq] at room
    exact ih (hedges.onStack (hs.start new)) room (by simp only [List.length_cons]; omega)

theorem ne_exhausted_of_request {name : String} {result : Except Halt (Option ResolvedType)}
    {c' : Cache} (hs : c.OnStack [])
    (h : (r.request name c).MayEnd supplier (result, c')) : result ≠ .error .exhausted := by
  obtain ⟨edge, hend, rfl⟩ := mayEnd_request.mp h
  cases edge with
  | ok edge => simp [Except.map]
  | error halt =>
    obtain ⟨_, error, -, rfl⟩ := refused_of_mayEnd hs (Nat.zero_le _) (Nat.lt_succ_self _) hend
    simp [Except.map]

/-- A request comes to an end within the depth limit, whatever is declared and whatever was asked
before: it has an answer unless the source fails, and a larger bound on the recursion changes nothing.
All that it does to the cache is a sequence of changes, and so is all that any call within it does.  At
every moment between them the depth is the number of types being worked on and within the limit; so no
type is started while it is being worked on, and the depth is above zero whenever it is counted down. -/
theorem work_within_limit (r : Resolver) {c : Cache} (hc : r.Reached .any c) (name : String) :
    (∀ source, (∃ v, r.answer c ⟨source, name⟩ = .ok v) ∨
        ∃ error, r.answer c ⟨source, name⟩ = .error (.source error)) ∧
      (∀ supplier levels, r.settings.depthLimit < levels → ∀ edge c',
        MayEnd supplier (r.reach levels name) c edge c' ↔
          r.Returns supplier (r.firstCall c name) edge c') ∧
      (∀ result c', (r.request name c).MayEnd .any (result, c') →
        result ≠ .error .exhausted ∧
          ∃ changes edge, r.Alters .any (r.settings.depthLimit + 1) name c changes edge ∧
            result = edge.map Edge.type? ∧ c' = c.after changes) ∧
      ∀ call, ReflTransGen (r.Makes .any) (r.firstCall c name) call →
        r.AccountedFor .any call ∧
        ∀ changes edge, r.Alters .any call.levels call.name call.cache changes edge →
          (∀ before, before <+: changes →
            (call.cache.after before).Counts r.settings.depthLimit) ∧
          ∀ before ch after, changes = before ++ ch :: after →
            (call.cache.after before).InTurn ch := by
  refine ⟨fun source => ?_, fun supplier levels hlevels edge c' => ?_, fun result c' hends => ?_,
    fun call hcall => ⟨r.accountedFor .any call, fun changes edge h => ?_⟩⟩
  · have hends : (r.request name c).MayEnd .any (r.answer c ⟨source, name⟩, r.serve c ⟨source, name⟩) :=
      Inquiry.mayEnd_run source.within_any _
    have hne := ne_exhausted_of_request hc.onStack hends
    cases hanswer : r.answer c ⟨source, name⟩ with
    | ok v => exact .inl ⟨v, rfl⟩
    | error halt =>
      cases halt with
      | source error => exact .inr ⟨error, rfl⟩
      | exhausted => exact absurd hanswer hne
  · obtain ⟨more, rfl⟩ := Nat.exists_eq_add_of_le hlevels
    exact mayEnd_reach_add hc.onStack (Nat.zero_le _) (Nat.lt_succ_self _) more
  · obtain ⟨edge, hend, rfl⟩ := mayEnd_request.mp hends
    obtain ⟨changes, halters, rfl⟩ := (mayEnd_reach_iff r .any _ _ _ _ _).mp hend
    exact ⟨ne_exhausted_of_request hc.onStack hends, changes, edge, halters, rfl, rfl⟩
  · obtain ⟨stack, hs, hle, -⟩ := standing_of_calls hc.onStack hcall
    have horder := orderly_of_alters h hs hle
    refine ⟨fun before hbefore => horder.counts (hs.counts hle) hbefore, ?_⟩
    rintro before ch after rfl
    exact horder.at.inTurn

def endless : Source := fun name =>
  .ok [(Declaration.ofName .classType name).withParent (name ++ "x")]

/-- With room for two types, a request for a type that an earlier request came to is cut short two
levels further down. -/
theorem work_within_limit_endless :
    let r : Resolver := ⟨⟨2, true⟩, []⟩
    let c := r.cacheAfter [⟨endless, "A"⟩]
    (∃ v, r.answer c ⟨endless, "Ax"⟩ = .ok v) ∧
      ∃ changes edge, r.Alters .any 3 "Ax" c changes edge ∧ .cutEdge ∈ changes ∧
        ∀ before, before <+: changes → (c.after before).Counts 2 := by
  intro r c
  have hc : r.Reached .any c := reached_cacheAfter _ fun q _ => q.source.within_any
  have hcut : c.cuts < (exec endless (r.reach 3 "Ax") c).cache.cuts := by decide +kernel
  have hanswer : (r.answer c ⟨endless, "Ax"⟩).isOk = true := by decide +kernel
  clear_value c
  obtain ⟨changes, halters, hafter⟩ := (mayEnd_reach_iff r .any 3 _ _ _ _).mp
    (mayEnd_exec endless.within_any (r.reach 3 "Ax") c)
  rw [hafter, cuts_lt_after_iff] at hcut
  obtain ⟨hanswers, -, -, hcalls⟩ := work_within_limit r hc "Ax"
  have hcounts := ((hcalls (r.firstCall c "Ax") .refl).2 changes _ halters).1
  refine ⟨?_, changes, _, halters, hcut, hcounts⟩
  refine (hanswers endless).resolve_right ?_
  rintro ⟨error, herror⟩
  rw [herror] at hanswer
  cases hanswer

end Resolver

end Hierarchy
