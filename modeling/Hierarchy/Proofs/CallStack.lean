import Hierarchy.Proofs.PossibleRuns

namespace Hierarchy

namespace Cache

variable {c c' c'' : Cache} {key k : TypeKey} {stack : List TypeKey} {v : Option ResolvedType}
  {cuts : Nat}

theorem mem_reentered_reenter : k ∈ (c.reenter key).reentered ↔ k ∈ c.reentered ∨ k = key := by
  unfold reenter
  split
  · rename_i hkey
    exact ⟨.inl, fun hk => hk.elim id fun heq => heq ▸ hkey⟩
  · rw [List.mem_cons, or_comm]

/-- Whether exactly the types of `stack` are being worked on, each once, and nothing else has been
noted as reentered. -/
structure OnStack (c : Cache) (stack : List TypeKey) : Prop where
  underway_iff : ∀ k, c.slots.get? k = some .underway ↔ k ∈ stack
  nodup : stack.Nodup
  depth_eq : c.depth = stack.length
  reentered_sub : ∀ k ∈ c.reentered, k ∈ stack

namespace OnStack

theorem empty : Cache.empty.OnStack [] where
  underway_iff k := by simp [Cache.empty]
  nodup := List.nodup_nil
  depth_eq := rfl
  reentered_sub k hk := by simp [Cache.empty] at hk

theorem start (h : c.OnStack stack) (hnew : c.slots.get? key = none) :
    (c.start key).OnStack (key :: stack) where
  underway_iff k := by
    by_cases hk : key = k
    · simp [Cache.start, hk]
    · simp [Cache.start, OrderedMap.get?_insert, hk, h.underway_iff, Ne.symm hk]
  nodup := by
    refine List.nodup_cons.mpr ⟨?_, h.nodup⟩
    intro hmem
    have := (h.underway_iff key).mpr hmem
    simp [hnew] at this
  depth_eq := by simp [Cache.start, h.depth_eq]
  reentered_sub k hk := List.mem_cons_of_mem _ (h.reentered_sub k hk)

theorem notMem_reentered (h : c.OnStack stack) (hnew : c.slots.get? key = none) :
    key ∉ c.reentered := by
  intro hmem
  have hunderway := (h.underway_iff key).mpr (h.reentered_sub key hmem)
  simp [hnew] at hunderway

theorem finish (h : c.OnStack (key :: stack)) {slots : OrderedMap TypeKey Slot}
    (hslots : ∀ k, slots.get? k = some .underway ↔ k ≠ key ∧ c.slots.get? k = some .underway) :
    OnStack { c with
      slots := slots
      reentered := c.reentered.filter fun k => k ≠ key
      depth := c.depth - 1 } stack where
  underway_iff k := by
    have hnotin : key ∉ stack := (List.nodup_cons.mp h.nodup).1
    simp only [hslots, h.underway_iff, List.mem_cons]
    constructor
    · rintro ⟨hne, hk | hk⟩
      · exact absurd hk hne
      · exact hk
    · intro hk
      exact ⟨fun heq => hnotin (heq ▸ hk), .inr hk⟩
  nodup := (List.nodup_cons.mp h.nodup).2
  depth_eq := by simp [h.depth_eq]
  reentered_sub k hk := by
    simp only [List.mem_filter, decide_eq_true_eq] at hk
    exact (List.mem_cons.mp (h.reentered_sub k hk.1)).resolve_left hk.2

theorem settle (h : c.OnStack (key :: stack)) : (c.settle key v).OnStack stack := by
  refine h.finish ?_
  intro k
  by_cases hk : key = k
  · simp [hk]
  · simp [OrderedMap.get?_insert, hk, Ne.symm hk]

theorem release (h : c.OnStack (key :: stack)) : (c.release key).OnStack stack := by
  refine h.finish ?_
  intro k
  by_cases hk : key = k
  · simp [OrderedMap.get?_erase, hk]
  · simp [OrderedMap.get?_erase, hk, Ne.symm hk]

theorem reenter (h : c.OnStack stack) (hk : k ∈ stack) : (c.reenter k).OnStack stack :=
  { h with
    reentered_sub := by
      intro k' hk'
      rcases mem_reentered_reenter.mp hk' with hk' | rfl
      · exact h.reentered_sub k' hk'
      · exact hk }

end OnStack

/-- Whether the final answer for the type is known. -/
def Knows (c : Cache) (k : TypeKey) : Prop := ∃ v, c.slots.get? k = some (.done v)

theorem OnStack.not_knows (h : c.OnStack stack) (hk : k ∈ stack) : ¬ c.Knows k := by
  rintro ⟨v, hv⟩
  have hunderway := (h.underway_iff k).mpr hk
  simp [hv] at hunderway

theorem done_of_start (h : (c.start key).slots.get? k = some (.done v)) :
    c.slots.get? k = some (.done v) := by
  by_cases heq : key = k
  · simp [start, heq] at h
  · simpa [start, OrderedMap.get?_insert, heq] using h

theorem done_of_release (h : (c.release key).slots.get? k = some (.done v)) :
    c.slots.get? k = some (.done v) := by
  by_cases heq : key = k
  · simp [release, OrderedMap.get?_erase, heq] at h
  · simpa [release, OrderedMap.get?_erase, heq] using h

theorem done_of_settle {w : Option ResolvedType}
    (h : (c.settle key v).slots.get? k = some (.done w)) :
    (key = k ∧ v = w) ∨ c.slots.get? k = some (.done w) := by
  by_cases heq : key = k
  · exact .inl ⟨heq, by simpa [settle, heq] using h⟩
  · exact .inr (by simpa [settle, OrderedMap.get?_insert, heq] using h)

theorem knows_settle_self (c : Cache) (key : TypeKey) (v : Option ResolvedType) :
    (c.settle key v).Knows key := ⟨v, by simp [settle]⟩

theorem Knows.settle (h : c.Knows k) (key : TypeKey) (v : Option ResolvedType) :
    (c.settle key v).Knows k := by
  by_cases heq : key = k
  · exact heq ▸ knows_settle_self c key v
  · simpa [Knows, Cache.settle, OrderedMap.get?_insert, heq] using h

/-- Whether `c'` differs from `c` only as work that has come to its end may change a cache. -/
structure Extends (c c' : Cache) : Prop where
  onStack : ∀ {stack}, c.OnStack stack → c'.OnStack stack
  done : ∀ {k v}, c.slots.get? k = some (.done v) → c'.slots.get? k = some (.done v)
  cuts_le : c.cuts ≤ c'.cuts
  report_grows : c.report <+: c'.report

namespace Extends

theorem refl (c : Cache) : c.Extends c := ⟨id, id, Nat.le_refl _, List.prefix_rfl⟩

theorem trans (h : c.Extends c') (h' : c'.Extends c'') : c.Extends c'' where
  onStack hs := h'.onStack (h.onStack hs)
  done hk := h'.done (h.done hk)
  cuts_le := Nat.le_trans h.cuts_le h'.cuts_le
  report_grows := h.report_grows.trans h'.report_grows

theorem knows (h : c.Extends c') (hk : c.Knows k) : c'.Knows k := by
  obtain ⟨v, hv⟩ := hk
  exact ⟨v, h.done hv⟩

theorem reenter (hk : c.slots.get? k = some .underway) : c.Extends (c.reenter k) where
  onStack hs := hs.reenter ((hs.underway_iff k).mp hk)
  done hk' := hk'
  cuts_le := Nat.le_refl _
  report_grows := List.prefix_rfl

theorem cutEdge (c : Cache) : c.Extends c.cutEdge where
  onStack hs := ⟨hs.underway_iff, hs.nodup, hs.depth_eq, hs.reentered_sub⟩
  done hk := hk
  cuts_le := Nat.le_succ _
  report_grows := List.prefix_rfl

theorem addAll (c : Cache) (ds : Report) : c.Extends (c.addAll ds) where
  onStack hs := ⟨hs.underway_iff, hs.nodup, hs.depth_eq, hs.reentered_sub⟩
  done hk := hk
  cuts_le := Nat.le_refl _
  report_grows := ⟨ds, rfl⟩

theorem done_start (hnew : c.slots.get? key = none) (hk : c.slots.get? k = some (.done v)) :
    key ≠ k ∧ (c.start key).slots.get? k = some (.done v) := by
  have hne : key ≠ k := by
    rintro rfl
    simp [hnew] at hk
  refine ⟨hne, ?_⟩
  simpa [start, OrderedMap.get?_insert, hne] using hk

theorem release (hnew : c.slots.get? key = none) (h : (c.start key).Extends c') :
    c.Extends (c'.release key) where
  onStack hs := (h.onStack (hs.start hnew)).release
  done hk := by
    obtain ⟨hne, hstart⟩ := done_start hnew hk
    simpa [Cache.release, OrderedMap.get?_erase, hne] using h.done hstart
  cuts_le := h.cuts_le
  report_grows := h.report_grows

theorem settle (hnew : c.slots.get? key = none) (h : (c.start key).Extends c') :
    c.Extends (c'.settle key v) where
  onStack hs := (h.onStack (hs.start hnew)).settle
  done hk := by
    obtain ⟨hne, hstart⟩ := done_start hnew hk
    simpa [Cache.settle, OrderedMap.get?_insert, hne] using h.done hstart
  cuts_le := h.cuts_le
  report_grows := h.report_grows

theorem conclude (hnew : c.slots.get? key = none) (h : (c.start key).Extends c') (cuts : Nat) :
    c.Extends (c'.conclude cuts key v) := by
  unfold Cache.conclude
  split
  · exact release hnew h
  · exact settle hnew h

end Extends

@[simp]
theorem cuts_conclude (c : Cache) (cuts : Nat) (key : TypeKey) (v : Option ResolvedType) :
    (c.conclude cuts key v).cuts = c.cuts := by
  unfold conclude
  split <;> rfl

@[simp]
theorem reentered_conclude (c : Cache) (cuts : Nat) (key : TypeKey) (v : Option ResolvedType) :
    (c.conclude cuts key v).reentered = c.reentered.filter fun k => k ≠ key := by
  unfold conclude
  split <;> rfl

theorem get?_conclude_self (h : c.cuts ≤ cuts) :
    (c.conclude cuts key v).slots.get? key = some (.done v) := by
  simp [conclude, Nat.not_lt_of_le h, settle]

theorem done_of_conclude {w : Option ResolvedType}
    (h : (c.conclude cuts key v).slots.get? k = some (.done w)) :
    (key = k ∧ v = w) ∨ c.slots.get? k = some (.done w) := by
  unfold conclude at h
  split at h
  · exact .inr (done_of_release h)
  · exact done_of_settle h

theorem get?_conclude_of_ne (hne : key ≠ k) :
    (c.conclude cuts key v).slots.get? k = c.slots.get? k := by
  unfold conclude
  split
  · simp [release, OrderedMap.get?_erase, hne]
  · simp [settle, OrderedMap.get?_insert, hne]

theorem get?_release_self (c : Cache) (key : TypeKey) : (c.release key).slots.get? key = none := by
  simp [release, OrderedMap.get?_erase]

theorem get?_conclude_of_lt (h : cuts < c.cuts) :
    (c.conclude cuts key v).slots.get? key = none := by
  rw [conclude, if_pos h]
  exact get?_release_self c key

end Cache

namespace Resolver

open ResolveM

variable {r : Resolver} {source : Source}

theorem extends_linked (d : Declaration) (key : TypeKey) (relation target : String) (edge : Edge)
    (c : Cache) : c.Extends (r.linked d key relation target edge c).2 where
  onStack hs :=
    { underway_iff := by simpa using hs.underway_iff
      nodup := hs.nodup
      depth_eq := by simpa using hs.depth_eq
      reentered_sub := by
        intro k hk
        rw [reentered_linked] at hk
        exact hs.reentered_sub k (List.mem_filter.mp hk).1 }
  done hk := by simpa using hk
  cuts_le := by simp
  report_grows := by
    rw [report_linked]
    exact List.prefix_append _ _

section Possible

variable {supplier : Supplier} {follow : String → ResolveM Edge} {d : Declaration} {key : TypeKey}
  {c c' : Cache} {edges : List (String × String)}

theorem Follows.extends {answers : List (String × Option ResolvedType)}
    (h : r.Follows supplier follow d key c edges answers c')
    (hfollow : ∀ target c result c', MayEnd supplier (follow target) c result c' → c.Extends c') :
    c.Extends c' := by
  induction h with
  | nil c => exact .refl c
  | next ends _ ih => exact ((hfollow _ _ _ _ ends).trans (extends_linked _ _ _ _ _ _)).trans ih

/-- Whatever is answered, following a name extends the cache, whichever way it ends. -/
theorem extends_of_mayEnd {fuel : ℕ} {name : String} {result : Except Halt Edge}
    (h : MayEnd supplier (r.reach fuel name) c result c') : c.Extends c' := by
  induction fuel generalizing name c result c' with
  | zero =>
    obtain ⟨-, rfl⟩ := mayEnd_throw.mp h
    exact .refl c'
  | succ fuel ih =>
    cases mayEnd_step.mp h with
    | done => exact .refl c
    | cycle underway => exact .reenter underway
    | tooDeep => exact .cutEdge c
    | refused new => exact .release new (.refl _)
    | missing new => exact .settle new (.refl _)
    | stopped new _ _ stops =>
      obtain ⟨_, _, _, _, _, _, -, follows, halts⟩ := stops.exists_halt
      have hedges := (Cache.Extends.addAll _ _).trans (follows.extends fun _ _ _ _ => ih)
      exact .release new (hedges.trans (ih halts))
    | built new _ _ _ _ _ follows =>
      have hedges := (Cache.Extends.addAll _ _).trans (follows.extends fun _ _ _ _ => ih)
      exact .conclude new (hedges.trans (.addAll _ _)) _

end Possible

theorem extends_reach (r : Resolver) (source : Source) (fuel : Nat) (name : String) (c : Cache) :
    c.Extends (exec source (r.reach fuel name) c).cache :=
  extends_of_mayEnd (mayEnd_exec source.within_any (r.reach fuel name) c)

/-- An edge is a cycle only if its type is being worked on, and the type at the end of any other
edge is done unless an edge was cut. -/
theorem reach_edge (r : Resolver) (source : Source) (fuel : Nat) (name : String) (c : Cache) :
    (exec source (r.reach fuel name) c).Meets
      (fun edge c' _ =>
        (edge = .cycle → c.slots.get? (.ofName name) = some .underway) ∧
          (c'.cuts = c.cuts → edge ≠ .cycle →
            ∃ v, edge = .ofResult v ∧ c'.slots.get? (.ofName name) = some (.done v)))
      (fun _ _ _ => True) := by
  cases fuel with
  | zero => trivial
  | succ fuel =>
    rw [exec_reach_succ]
    refine meets_step ?done ?cycle ?tooDeep ?refused ?missing ?built
    case done =>
      intro v hslot
      refine ⟨?_, fun _ _ => ⟨v, rfl, hslot⟩⟩
      cases v <;> simp
    case cycle => exact fun hslot => ⟨fun _ => hslot, fun _ h => absurd rfl h⟩
    case tooDeep =>
      intro _ _
      refine ⟨by simp, fun hcuts => ?_⟩
      simp [Cache.cutEdge] at hcuts
    case refused => exact fun _ _ _ _ => trivial
    case missing => exact fun _ _ _ => ⟨by simp, fun _ _ => ⟨none, rfl, by simp [Cache.settle]⟩⟩
    case built =>
      intro _ _ d others _
      refine Outcome.meets_of_forall ?_ (fun _ _ _ => trivial)
      intro supers c' _
      refine ⟨by simp, fun hcuts _ => ⟨some _, rfl, ?_⟩⟩
      rw [Cache.cuts_conclude] at hcuts
      exact Cache.get?_conclude_self (Nat.le_of_eq hcuts)

/-- Work that stops was refused an answer: each level of the recursion works on one more type, so
that the bound on the recursion is not met. -/
theorem refused_of_mayEnd {supplier : Supplier} {fuel : ℕ} {name : String} {c c' : Cache}
    {halt : Halt} {stack : List TypeKey} (hs : c.OnStack stack) (hle : stack.length ≤ r.settings.depthLimit)
    (hfuel : r.settings.depthLimit < fuel + stack.length)
    (h : MayEnd supplier (r.reach fuel name) c (.error halt) c') :
    ∃ asked error, supplier asked (.error error) ∧ halt = .source error := by
  induction fuel generalizing name c c' stack with
  | zero => omega
  | succ fuel ih =>
    cases mayEnd_step.mp h with
    | refused _ _ given => exact ⟨name, _, given, rfl⟩
    | stopped new room _ stops =>
      -- The depth counts the stack, so there is room on it for the name as well.
      rw [hs.depth_eq] at room
      obtain ⟨_, _, _, _, _, _, -, follows, halts⟩ := stops.exists_halt
      have hedges := (Cache.Extends.addAll _ _).trans
        (follows.extends fun _ _ _ _ => extends_of_mayEnd)
      exact ih (hedges.onStack (hs.start new)) room (by simp only [List.length_cons]; omega) halts

theorem reach_stop (r : Resolver) (source : Source) (fuel : Nat) (name : String)
    {c : Cache} {stack : List TypeKey} (hs : c.OnStack stack) (hle : stack.length ≤ r.settings.depthLimit)
    (hfuel : r.settings.depthLimit < fuel + stack.length) :
    (exec source (r.reach fuel name) c).Meets (fun _ _ _ => True)
      (fun halt _ _ => ∃ asked error, source asked = .error error ∧ halt = .source error) := by
  have hend := mayEnd_exec source.within_supplier (r.reach fuel name) c
  revert hend
  rcases exec source (r.reach fuel name) c with ⟨halt | edge, c', log⟩
  · intro hend
    obtain ⟨asked, error, given, rfl⟩ := refused_of_mayEnd hs hle hfuel hend
    exact ⟨asked, error, given.symm, rfl⟩
  · exact fun _ => trivial

end Resolver

end Hierarchy
