import Hierarchy.Proofs.AssembledTypes
import Hierarchy.Proofs.CodebaseEdits
import Hierarchy.Proofs.DeclaredGraph
import Hierarchy.Proofs.Requests

namespace Hierarchy

open Relation

/-- Whether no type that occurs in `t` has its key again strictly below itself. -/
def ResolvedType.Grounded (t : ResolvedType) : Prop :=
  ∀ w, ReflTransGen Links t w → ∀ s, TransGen Links w s → s.key ≠ w.key

namespace Cache

variable {c c' : Cache} {k key : TypeKey} {v : Option ResolvedType} {t : ResolvedType}

def KnowsAll (c : Cache) (t : ResolvedType) : Prop :=
  ∀ w, ReflTransGen ResolvedType.Links t w → c.Knows w.key

/-- Whether every type held by the cache is grounded and all types below it are known. -/
def Closed (c : Cache) : Prop :=
  ∀ k t, c.slots.get? k = some (.done (some t)) → t.Grounded ∧ c.KnowsAll t

theorem closed_empty : Cache.empty.Closed := by
  intro k t h
  simp [Cache.empty] at h

theorem Extends.knowsAll (h : c.Extends c') (ht : c.KnowsAll t) : c'.KnowsAll t :=
  fun w hw => h.knows (ht w hw)

theorem Closed.of_done (h : c.Closed)
    (hdone : ∀ k v, c'.slots.get? k = some (.done v) ↔ c.slots.get? k = some (.done v)) :
    c'.Closed := by
  intro k t hk
  obtain ⟨hgrounded, hknown⟩ := h k t ((hdone k _).mp hk)
  refine ⟨hgrounded, fun w hw => ?_⟩
  obtain ⟨v, hv⟩ := hknown w hw
  exact ⟨v, (hdone _ v).mpr hv⟩

theorem Closed.start (h : c.Closed) (hnew : c.slots.get? key = none) : (c.start key).Closed := by
  refine h.of_done ?_
  intro k v
  by_cases heq : key = k
  · simp [Cache.start, ← heq, hnew]
  · simp [Cache.start, OrderedMap.get?_insert, heq]

theorem Closed.release {stack : List TypeKey} (h : c.Closed) (hs : c.OnStack (key :: stack)) :
    (c.release key).Closed := by
  refine h.of_done ?_
  intro k v
  by_cases heq : key = k
  · have hunderway := (hs.underway_iff key).mpr List.mem_cons_self
    simp [Cache.release, OrderedMap.get?_erase, ← heq, hunderway]
  · simp [Cache.release, OrderedMap.get?_erase, heq]

theorem Closed.settle (h : c.Closed)
    (hv : ∀ t, v = some t → t.Grounded ∧ (c.settle key v).KnowsAll t) :
    (c.settle key v).Closed := by
  intro k t hk
  rcases done_of_settle hk with ⟨-, ht⟩ | hk
  · exact hv t ht
  · obtain ⟨hgrounded, hknown⟩ := h k t hk
    exact ⟨hgrounded, fun w hw => (hknown w hw).settle key v⟩

end Cache

namespace Resolver

open ResolveM

variable {r : Resolver} {source : Source}

/-- A type found while the types of `stack` are being worked on: it is grounded, none of those types
occurs in it, and if no edge has been cut since there were `cuts` cuts, all of it is known. -/
structure FoundUnder (stack : List TypeKey) (cuts : ℕ) (c : Cache) (t : ResolvedType) : Prop where
  grounded : t.Grounded
  notMem : ∀ w, ReflTransGen ResolvedType.Links t w → w.key ∉ stack
  known : c.cuts = cuts → c.KnowsAll t

/-- A type put together from types found under itself and the stack is grounded, nothing on the stack
occurs in it, and once its own answer is kept all of it is known. -/
theorem grounded_of_answers {key : TypeKey} {stack : List TypeKey} {cuts : ℕ} {c : Cache}
    {t : ResolvedType} {answers : List (String × Option ResolvedType)} (hkey : t.key = key)
    (hnotin : key ∉ stack)
    (hlinks : ∀ s, t.Links s →
      ∃ a, some a ∈ answers.map Prod.snd ∧ ReflTransGen ResolvedType.Links a s)
    (hfound : ∀ p ∈ answers, ∀ a, p.2 = some a → FoundUnder (key :: stack) cuts c a) :
    t.Grounded ∧ (∀ w, ReflTransGen ResolvedType.Links t w → w.key ∉ stack) ∧
      (c.cuts = cuts → (c.settle key (some t)).KnowsAll t) := by
  -- Whatever lies strictly below `t` occurs in one of the answers.
  have hbelow : ∀ s, TransGen ResolvedType.Links t s →
      ∃ a, FoundUnder (key :: stack) cuts c a ∧ ReflTransGen ResolvedType.Links a s := by
    intro s hs
    obtain ⟨u, hu, hus⟩ := TransGen.head'_iff.mp hs
    obtain ⟨a, ha, hau⟩ := hlinks u hu
    obtain ⟨p, hp, hpa⟩ := List.mem_map.mp ha
    exact ⟨a, hfound p hp a hpa, hau.trans hus⟩
  refine ⟨?_, ?_, ?_⟩
  · intro w hw s hs
    rcases reflTransGen_iff_eq_or_transGen.mp hw with rfl | hw
    · obtain ⟨a, ha, has⟩ := hbelow s hs
      rw [hkey]
      exact List.ne_of_not_mem_cons (ha.notMem s has)
    · obtain ⟨a, ha, haw⟩ := hbelow w hw
      exact ha.grounded w haw s hs
  · intro w hw
    rcases reflTransGen_iff_eq_or_transGen.mp hw with rfl | hw
    · rwa [hkey]
    · obtain ⟨a, ha, haw⟩ := hbelow w hw
      exact List.not_mem_of_not_mem_cons (ha.notMem w haw)
  · intro hcuts w hw
    rcases reflTransGen_iff_eq_or_transGen.mp hw with rfl | hw
    · rw [hkey]
      exact Cache.knows_settle_self c key _
    · obtain ⟨a, ha, haw⟩ := hbelow w hw
      exact (ha.known hcuts w haw).settle key _

/-- What holds while the edges of the type called `name` are followed: the cache is closed, and all
types found so far are types found under the stack. -/
structure Gathering (name : String) (stack : List TypeKey) (cuts : ℕ)
    (answers : List (String × Option ResolvedType)) (c : Cache) : Prop where
  onStack : c.OnStack (.ofName name :: stack)
  closed : c.Closed
  cuts_le : cuts ≤ c.cuts
  found : ∀ p ∈ answers, ∀ t, p.2 = some t → FoundUnder (.ofName name :: stack) cuts c t

theorem Gathering.link {name relation target : String} {stack : List TypeKey} {cuts : ℕ}
    {answers : List (String × Option ResolvedType)} {c c' : Cache} {d : Declaration} {edge : Edge}
    (h : Gathering name stack cuts answers c) (hext : c.Extends c') (hc' : c'.Closed)
    (hedge : ∀ t, edge = .found t → FoundUnder (.ofName name :: stack) c.cuts c' t) :
    Gathering name stack cuts
      (answers ++ [(target, (r.linked d (.ofName name) relation target edge c').1)])
      (r.linked d (.ofName name) relation target edge c').2 := by
  have hlinked := extends_linked (r := r) d (.ofName name) relation target edge c'
  have hle := h.cuts_le
  have hle' := hext.cuts_le
  refine ⟨hlinked.onStack (hext.onStack h.onStack), hc'.of_done (by simp), ?_, ?_⟩
  · rw [cuts_linked]
    omega
  · intro p hp t ht
    rcases List.mem_append.mp hp with hp | hp
    · have hold := h.found p hp t ht
      refine ⟨hold.grounded, hold.notMem, fun hcuts => ?_⟩
      rw [cuts_linked] at hcuts
      exact hlinked.knowsAll (hext.knowsAll (hold.known (by omega)))
    · rw [List.mem_singleton.mp hp] at ht
      have hnew := hedge t (eq_found_of_linked ht)
      refine ⟨hnew.grounded, hnew.notMem, fun hcuts => ?_⟩
      rw [cuts_linked] at hcuts
      exact hlinked.knowsAll (hnew.known (by omega))

theorem Gathering.addAll {name : String} {stack : List TypeKey} {cuts : ℕ}
    {answers : List (String × Option ResolvedType)} {c : Cache}
    (h : Gathering name stack cuts answers c) (ds : Report) :
    Gathering name stack cuts answers (c.addAll ds) :=
  ⟨(Cache.Extends.addAll c ds).onStack h.onStack, h.closed.of_done fun _ _ => Iff.rfl, h.cuts_le,
    fun p hp t ht => ⟨(h.found p hp t ht).grounded, (h.found p hp t ht).notMem,
      (h.found p hp t ht).known⟩⟩

theorem Gathering.conclude {name : String} {stack : List TypeKey} {cuts : ℕ}
    {answers : List (String × Option ResolvedType)} {c : Cache} {t : ResolvedType}
    (h : Gathering name stack cuts answers c) (hkey : t.key = .ofName name)
    (hlinks : ∀ s, t.Links s →
      ∃ a, some a ∈ answers.map Prod.snd ∧ ReflTransGen ResolvedType.Links a s) :
    (c.conclude cuts (.ofName name) (some t)).Closed ∧
      FoundUnder stack cuts (c.conclude cuts (.ofName name) (some t)) t := by
  obtain ⟨hnotin, -⟩ := List.nodup_cons.mp h.onStack.nodup
  obtain ⟨hgrounded, hnotMem, hknown⟩ := grounded_of_answers hkey hnotin hlinks h.found
  unfold Cache.conclude
  split
  · -- An answer that was cut short is not kept, and nothing is said of what is known below it.
    rename_i hcut
    exact ⟨h.closed.release h.onStack, hgrounded, hnotMem, fun hcuts => absurd hcuts hcut.ne'⟩
  · rename_i hcut
    have hall := hknown (Nat.le_antisymm (Nat.le_of_not_lt hcut) h.cuts_le)
    refine ⟨h.closed.settle ?_, hgrounded, hnotMem, fun _ => hall⟩
    rintro _ ⟨⟩
    exact ⟨hgrounded, hall⟩

/-- Following a name keeps a cache closed and finds only types found under the stack. -/
theorem closed_reach (hhooks : ∀ hook ∈ r.hooks, hook.KeepsShape) (hkeyed : source.Keyed) (fuel : ℕ)
    (name : String) {c : Cache} {stack : List TypeKey} (hs : c.OnStack stack) (hc : c.Closed) :
    (exec source (r.reach fuel name) c).Meets
      (fun edge c' _ => c'.Closed ∧ ∀ t, edge = .found t → FoundUnder stack c.cuts c' t)
      (fun _ c' _ => c'.Closed) := by
  -- The stack is part of the statement: one level down the type being worked on is on top of it, and
  -- what is found there must not contain it.
  induction fuel generalizing name c stack with
  | zero => exact hc
  | succ fuel ih =>
    rw [exec_reach_succ]
    refine meets_step ?done ?cycle ?tooDeep ?refused ?missing ?built
    case done =>
      intro v hslot
      refine ⟨hc, fun t ht => ?_⟩
      obtain rfl : v = some t := Edge.ofResult_injective ht
      obtain ⟨hgrounded, hknown⟩ := hc _ t hslot
      -- All of a finished type is finished, so that nothing on the stack can occur in it.
      exact ⟨hgrounded, fun w hw hmem => hs.not_knows hmem (hknown w hw), fun _ => hknown⟩
    case cycle => exact fun _ => ⟨hc.of_done fun _ _ => Iff.rfl, by simp⟩
    case tooDeep => exact fun _ _ => ⟨hc.of_done fun _ _ => Iff.rfl, by simp⟩
    case refused => exact fun hnew _ _ _ => (hc.start hnew).release (hs.start hnew)
    case missing => exact fun hnew _ _ => ⟨(hc.start hnew).settle (by simp), by simp⟩
    case built =>
      intro hnew _ d others hsource
      have hedges : EdgesKeep r source (r.reach fuel) d (.ofName name)
          (fun answers c' _ => Gathering name stack c.cuts answers c')
          (fun _ c' _ => c'.OnStack (.ofName name :: stack) ∧ c'.Closed) := by
        intro relation answers target c₁ _ _ h₁
        have hext := Outcome.meets_of_cache (extends_reach r source fuel target c₁)
        refine (hext.and (ih target h₁.onStack h₁.closed)).imp ?_ ?_
        · rintro edge c₂ _ ⟨hext, hc₂, hedge⟩
          exact h₁.link hext hc₂ hedge
        · rintro _ c₂ _ ⟨hext, hc₂⟩
          exact ⟨hext.onStack h₁.onStack, hc₂⟩
      refine (hedges.supertypes _ ?_).imp ?_ ?_
      · exact ⟨(Cache.Extends.addAll _ _).onStack (hs.start hnew),
          (hc.start hnew).of_done fun _ _ => Iff.rfl, Nat.le_refl _, by simp⟩
      · rintro supers c' _ ⟨parents, interfaces, traits, -, -, -, rfl, h'⟩
        have hshape := d.sameShape_assemble (forall_allHooks hhooks) (.ofAnswers
          (parents.map Prod.snd) (interfaces.map Prod.snd) (traits.map Prod.snd))
        have hkey : d.key = .ofName name := hkeyed name _ hsource d List.mem_cons_self
        obtain ⟨hclosed, hfound⟩ := (h'.addAll _).conclude (hshape.key_eq.trans hkey) fun s hlink => by
          rw [hshape.links_iff] at hlink
          simpa using Declaration.exists_answer_of_links hlink
        refine ⟨hclosed, ?_⟩
        rintro _ ⟨⟩
        exact hfound
      · exact fun _ c' _ h' => h'.2.release h'.1

theorem closed_serve (hhooks : ∀ hook ∈ r.hooks, hook.KeepsShape) {q : Request}
    (hkeyed : q.source.Keyed) {c : Cache} (hs : c.OnStack []) (hc : c.Closed) :
    (r.serve c q).Closed := by
  rw [serve_eq]
  have hreach := closed_reach hhooks hkeyed (r.settings.depthLimit + 1) q.name hs hc
  exact (hreach.imp (fun _ _ _ h => h.1) (fun _ _ _ h => h)).cache

theorem grounded_of_answer (hhooks : ∀ hook ∈ r.hooks, hook.KeepsShape) {q : Request}
    (hkeyed : q.source.Keyed) {c : Cache} (hs : c.OnStack []) (hc : c.Closed) {t : ResolvedType}
    (h : r.answer c q = .ok (some t)) : t.Grounded := by
  have hreach := closed_reach hhooks hkeyed (r.settings.depthLimit + 1) q.name hs hc
  obtain ⟨edge, hedge, -, hfound⟩ := exists_edge_of_answer hreach h
  exact (hfound t (Edge.type?_eq_some_iff.mp hedge)).grounded

/-- No type is its own supertype, however far up: neither in what a cache holds after any requests
nor in what it then answers, though the source may have changed from one request to the next. -/
theorem supertypes_strict (r : Resolver) (hhooks : ∀ hook ∈ r.hooks, hook.KeepsShape)
    (qs : List Request) (hkeyed : ∀ q ∈ qs, q.source.Keyed) :
    (∀ k t, (r.cacheAfter qs).slots.get? k = some (.done (some t)) → t.Grounded) ∧
      ∀ q : Request, q.source.Keyed → ∀ t, r.answer (r.cacheAfter qs) q = .ok (some t) →
        t.Grounded := by
  have hclosed : (r.cacheAfter qs).Closed := by
    refine (cacheAfter_induct (p := fun c => c.OnStack [] ∧ c.Closed) qs
      ⟨.empty, Cache.closed_empty⟩ ?_).2
    rintro c q hq ⟨hs, hc⟩
    exact ⟨(extends_serve c q).onStack hs, closed_serve hhooks (hkeyed q hq) hs hc⟩
  refine ⟨fun k t h => (hclosed k t h).1, fun q hq t h => ?_⟩
  exact grounded_of_answer hhooks hq (onStack_cacheAfter qs) hclosed h

def beforeTurn : List Codebase.Edit :=
  [.put ⟨0⟩ [(Declaration.ofName .classType "A").withParent "B", .ofName .classType "B"]]

def afterTurn : List Codebase.Edit :=
  beforeTurn ++ [.put ⟨0⟩ [.ofName .classType "A", (Declaration.ofName .classType "B").withParent "A",
    (Declaration.ofName .classType "C").withParent "B"]]

def withHook : Resolver := ⟨⟨64, false⟩, [.docTags]⟩

theorem supertypes_strict_afterTurn :
    ∃ t, withHook.answer
        (withHook.cacheAfter [⟨(Codebase.afterEdits beforeTurn).source, "A"⟩])
        ⟨(Codebase.afterEdits afterTurn).source, "C"⟩ = .ok (some t) ∧ t.Grounded := by
  have hsome : (withHook.answer
      (withHook.cacheAfter [⟨(Codebase.afterEdits beforeTurn).source, "A"⟩])
      ⟨(Codebase.afterEdits afterTurn).source, "C"⟩).toOption.join.isSome = true := by
    decide +kernel
  have hgrounded := (supertypes_strict withHook (by simp [withHook, Hook.keepsShape_docTags])
    [⟨(Codebase.afterEdits beforeTurn).source, "A"⟩] (by simp [Codebase.keyed_source])).2
    ⟨(Codebase.afterEdits afterTurn).source, "C"⟩ (Codebase.keyed_source afterTurn)
  revert hsome hgrounded
  rcases withHook.answer _ _ with halt | _ | t
  · intro hsome
    cases hsome
  · intro hsome
    cases hsome
  · exact fun _ hgrounded => ⟨t, rfl, hgrounded t rfl⟩

end Resolver

end Hierarchy
