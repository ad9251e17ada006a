import Hierarchy.Proofs.NestedCalls

namespace Hierarchy

open Relation

namespace Cache

variable {c c' : Cache} {p : TypeKey → ResolvedType → Prop}

def Holds (c : Cache) (p : TypeKey → ResolvedType → Prop) : Prop :=
  ∀ k t, c.slots.get? k = some (.done (some t)) → p k t

theorem holds_empty : Cache.empty.Holds p := by
  intro k t h
  simp [Cache.empty] at h

theorem Holds.of_done (h : c.Holds p)
    (hdone : ∀ k v, c'.slots.get? k = some (.done v) → c.slots.get? k = some (.done v)) :
    c'.Holds p :=
  fun k t ht => h k t (hdone k _ ht)

theorem Holds.start (h : c.Holds p) (key : TypeKey) : (c.start key).Holds p :=
  h.of_done fun _ _ => done_of_start

theorem Holds.release (h : c.Holds p) (key : TypeKey) : (c.release key).Holds p :=
  h.of_done fun _ _ => done_of_release

theorem Holds.settle {key : TypeKey} {v : Option ResolvedType} (h : c.Holds p)
    (hv : ∀ t, v = some t → p key t) : (c.settle key v).Holds p := by
  intro k t ht
  rcases done_of_settle ht with ⟨rfl, hvt⟩ | ht
  · exact hv t hvt
  · exact h k t ht

theorem Holds.addAll (h : c.Holds p) (ds : Report) : (c.addAll ds).Holds p :=
  h.of_done fun _ _ h => h

theorem Holds.conclude {key : TypeKey} {v : Option ResolvedType} (h : c.Holds p) (cuts : ℕ)
    (hv : ∀ t, v = some t → p key t) : (c.conclude cuts key v).Holds p := by
  unfold Cache.conclude
  split
  · exact h.release key
  · exact h.settle hv

end Cache

namespace Resolver

open ResolveM

variable {r : Resolver} {supplier : Supplier} {p : TypeKey → ResolvedType → Prop} {c c' : Cache}

/-- Whether `p` holds of a type put together from its first candidate as soon as it holds of the
types found for its supertypes. -/
def HandsOn (r : Resolver) (supplier : Supplier) (p : TypeKey → ResolvedType → Prop) : Prop :=
  ∀ name d others, supplier name (.ok (d :: others)) →
    ∀ parents interfaces traits : List (String × Option ResolvedType),
      parents.map Prod.fst = d.parent.toList → interfaces.map Prod.fst = d.interfaces →
      traits.map Prod.fst = d.usedTraits →
      (∀ a ∈ parents ++ interfaces ++ traits, ∀ t, a.2 = some t → p (.ofName a.1) t) →
      p (.ofName name) (d.assemble r.allHooks (.ofAnswers (parents.map Prod.snd)
        (interfaces.map Prod.snd) (traits.map Prod.snd))).type

theorem Follows.holds {follow : String → ResolveM Edge} {d : Declaration} {key : TypeKey}
    {edges : List (String × String)} {answers : List (String × Option ResolvedType)}
    (h : r.Follows supplier follow d key c edges answers c')
    (hfollow : ∀ target c result c', c.Holds p → MayEnd supplier (follow target) c result c' →
      c'.Holds p ∧ ∀ t, result = .ok (.found t) → p (.ofName target) t)
    (hc : c.Holds p) : c'.Holds p ∧ ∀ a ∈ answers, ∀ t, a.2 = some t → p (.ofName a.1) t := by
  induction h with
  | nil => exact ⟨hc, by simp⟩
  | next ends _ ih =>
    obtain ⟨hc₁, hfound⟩ := hfollow _ _ _ _ hc ends
    obtain ⟨hc', hrest⟩ := ih (hc₁.of_done (by simp))
    refine ⟨hc', fun a ha t ht => ?_⟩
    rcases List.mem_cons.mp ha with rfl | ha
    · exact hfound t (congrArg Except.ok (eq_found_of_linked ht))
    · exact hrest a ha t ht

/-- Following a name keeps `p` true of what the cache holds, and a type that is found has it. -/
theorem holds_of_mayEnd (hp : r.HandsOn supplier p) {fuel : ℕ} {name : String}
    {result : Except Halt Edge} (hc : c.Holds p)
    (h : MayEnd supplier (r.reach fuel name) c result c') :
    c'.Holds p ∧ ∀ t, result = .ok (.found t) → p (.ofName name) t := by
  induction fuel generalizing name c result c' with
  | zero =>
    obtain ⟨rfl, rfl⟩ := mayEnd_throw.mp h
    exact ⟨hc, by simp⟩
  | succ fuel ih =>
    cases mayEnd_step.mp h with
    | @done v known =>
      refine ⟨hc, fun t ht => ?_⟩
      obtain rfl : v = some t := Edge.ofResult_injective (Except.ok.inj ht)
      exact hc _ t known
    | cycle => exact ⟨hc.of_done fun _ _ h => h, by simp⟩
    | tooDeep => exact ⟨hc.of_done fun _ _ h => h, by simp⟩
    | refused => exact ⟨(hc.start _).release _, by simp⟩
    | missing => exact ⟨(hc.start _).settle (by simp), by simp⟩
    | stopped _ _ _ stops =>
      obtain ⟨_, _, _, _, _, _, -, follows, halts⟩ := stops.exists_halt
      have hbefore := (follows.holds (fun _ _ _ _ => ih) ((hc.start _).addAll _)).1
      exact ⟨(ih hbefore halts).1.release _, by simp⟩
    | built _ _ given hparents hinterfaces htraits follows hassembly =>
      obtain ⟨hedges, hanswers⟩ := follows.holds (fun _ _ _ _ => ih) ((hc.start _).addAll _)
      have htype := hp name _ _ given _ _ _ hparents hinterfaces htraits hanswers
      rw [← hassembly] at htype
      refine ⟨(hedges.addAll _).conclude _ ?_, ?_⟩
      · rintro _ ⟨⟩
        exact htype
      · rintro _ ⟨⟩
        exact htype

theorem Reached.holds (h : r.Reached supplier c) (hp : r.HandsOn supplier p) : c.Holds p := by
  induction h with
  | empty => exact Cache.holds_empty
  | request _ ends ih =>
    obtain ⟨edge, hend, -⟩ := mayEnd_request.mp ends
    exact (holds_of_mayEnd hp ih hend).1

theorem holds_of_calls {outer inner : Call} (h : ReflTransGen (r.Makes supplier) outer inner)
    (hp : r.HandsOn supplier p) (hc : outer.cache.Holds p) : inner.cache.Holds p := by
  induction h with
  | refl => exact hc
  | tail _ hmakes ih =>
    obtain ⟨-, -, -, -, follows⟩ := hmakes
    exact (follows.holds (fun _ _ _ _ => holds_of_mayEnd hp) ((ih.start _).addAll _)).1

/-- Whether some call within a request for `asked` on `c`, be it the first or one below it, may end
in `t`. -/
def Produces (r : Resolver) (supplier : Supplier) (c : Cache) (asked name : String)
    (t : ResolvedType) : Prop :=
  ∃ call c', ReflTransGen (r.Makes supplier) (r.firstCall c asked) call ∧ call.name = name ∧
    r.Returns supplier call (.ok (.found t)) c'

theorem produces_of_request {asked : String} {t : ResolvedType}
    (h : (r.request asked c).MayEnd supplier (.ok (some t), c')) :
    r.Produces supplier c asked asked t := by
  obtain ⟨_ | edge, hend, hedge⟩ := mayEnd_request.mp h
  · cases hedge
  · obtain rfl : edge = .found t := Edge.type?_eq_some_iff.mp (Except.ok.inj hedge).symm
    exact ⟨r.firstCall c asked, c', .refl, rfl, hend⟩

theorem holds_of_produces {asked name : String} {t : ResolvedType} (hp : r.HandsOn supplier p)
    (hc : c.Holds p) (h : r.Produces supplier c asked name t) : p (.ofName name) t := by
  obtain ⟨call, c', hcalls, rfl, hreturns⟩ := h
  exact (holds_of_mayEnd hp (holds_of_calls hcalls hp hc) hreturns).2 t rfl

end Resolver

end Hierarchy
