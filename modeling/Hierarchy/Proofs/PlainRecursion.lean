import Hierarchy.Proofs.CodebaseEdits
import Hierarchy.Proofs.GraphSearch
import Hierarchy.Proofs.Requests

namespace Hierarchy

namespace Resolver

open ResolveM Relation

/-- Resolves a name by recursion over the declarations, without a cache.  The recursion is given up,
with no outcome at all, where it would go through more than `levels` names behind names. -/
def plainWithin (r : Resolver) (source : Source) :
    (levels : ℕ) → String → ExceptT SourceError Option (Option ResolvedType)
  | 0, _ => .mk none
  | levels + 1, name =>
    match source name with
    | .error error => throw error
    | .ok [] => return none
    | .ok (d :: _) => do
      let parents ← d.parent.toList.mapM (r.plainWithin source levels)
      let interfaces ← d.interfaces.mapM (r.plainWithin source levels)
      let traits ← d.usedTraits.mapM (r.plainWithin source levels)
      return some (d.assemble r.allHooks (.ofAnswers parents interfaces traits)).type

/-- Whether plain recursion comes to the outcome when nothing limits its levels. -/
def ComesTo (r : Resolver) (source : Source) (name : String)
    (outcome : Except SourceError (Option ResolvedType)) : Prop :=
  ∃ enough, ∀ levels, enough ≤ levels → (r.plainWithin source levels name).run = some outcome

variable {r : Resolver} {source : Source} {name : String} {d : Declaration}
  {others : List Declaration}

theorem ComesTo.unique {outcome outcome' : Except SourceError (Option ResolvedType)}
    (h : r.ComesTo source name outcome) (h' : r.ComesTo source name outcome') :
    outcome = outcome' := by
  obtain ⟨enough, h⟩ := h
  obtain ⟨enough', h'⟩ := h'
  have hleft := h (max enough enough') (Nat.le_max_left _ _)
  have hright := h' (max enough enough') (Nat.le_max_right _ _)
  exact Option.some.inj (hleft.symm.trans hright)

theorem comesTo_of_succ {outcome : Except SourceError (Option ResolvedType)} (enough : ℕ)
    (h : ∀ levels, enough ≤ levels → (r.plainWithin source (levels + 1) name).run = some outcome) :
    r.ComesTo source name outcome := by
  refine ⟨enough + 1, fun levels hlevels => ?_⟩
  obtain ⟨levels, rfl⟩ : ∃ n, levels = n + 1 := ⟨levels - 1, by omega⟩
  exact h levels (by omega)

theorem comesTo_of_error {error : SourceError} (h : source name = .error error) :
    r.ComesTo source name (.error error) := by
  refine comesTo_of_succ 0 fun levels _ => ?_
  rw [plainWithin, h]
  rfl

theorem comesTo_of_nil (h : source name = .ok []) : r.ComesTo source name (.ok none) := by
  refine comesTo_of_succ 0 fun levels _ => ?_
  rw [plainWithin, h]
  rfl

theorem ComesTo.congr {outcome : Except SourceError (Option ResolvedType)} {name' : String}
    (h : r.ComesTo source name outcome) (huniform : source.Uniform)
    (hname : TypeKey.ofName name = .ofName name') : r.ComesTo source name' outcome := by
  obtain ⟨enough, h⟩ := h
  refine comesTo_of_succ enough fun levels hlevels => ?_
  have hsource := huniform name name' hname
  have hlevel := h (levels + 1) (by omega)
  rw [plainWithin] at hlevel ⊢
  rwa [← hsource]

theorem exists_enough {answers : List (String × Option ResolvedType)}
    (h : ∀ p ∈ answers, r.ComesTo source p.1 (.ok p.2)) :
    ∃ enough, ∀ levels, enough ≤ levels → ∀ p ∈ answers,
      r.plainWithin source levels p.1 = pure p.2 := by
  induction answers with
  | nil => exact ⟨0, by simp⟩
  | cons p rest ih =>
    obtain ⟨first, hfirst⟩ := h p List.mem_cons_self
    obtain ⟨later, hlater⟩ := ih fun q hq => h q (List.mem_cons_of_mem _ hq)
    refine ⟨max first later, fun levels hlevels q hq => ?_⟩
    rcases List.mem_cons.mp hq with rfl | hq
    · exact hfirst levels (by omega)
    · exact hlater levels (by omega) q hq

theorem mapM_plainWithin {levels : ℕ} {answers : List (String × Option ResolvedType)}
    (h : ∀ p ∈ answers, r.plainWithin source levels p.1 = pure p.2) :
    (answers.map Prod.fst).mapM (r.plainWithin source levels) = pure (answers.map Prod.snd) := by
  induction answers with
  | nil => rfl
  | cons p rest ih =>
    have hp := h p List.mem_cons_self
    have hrest := ih fun q hq => h q (List.mem_cons_of_mem _ hq)
    simp [List.mapM_cons, hp, hrest]

theorem comesTo_of_answers {parents interfaces traits : List (String × Option ResolvedType)}
    (hsource : source name = .ok (d :: others)) (hparents : parents.map Prod.fst = d.parent.toList)
    (hinterfaces : interfaces.map Prod.fst = d.interfaces)
    (htraits : traits.map Prod.fst = d.usedTraits)
    (h : ∀ p ∈ parents ++ interfaces ++ traits, r.ComesTo source p.1 (.ok p.2)) :
    r.ComesTo source name (.ok (some (d.assemble r.allHooks
      (.ofAnswers (parents.map Prod.snd) (interfaces.map Prod.snd) (traits.map Prod.snd))).type)) := by
  obtain ⟨enough, h⟩ := exists_enough h
  refine comesTo_of_succ enough fun levels hlevels => ?_
  have hlevel := h levels hlevels
  simp only [List.mem_append] at hlevel
  rw [plainWithin, hsource]
  simp only
  rw [← hparents, ← hinterfaces, ← htraits,
    mapM_plainWithin fun p hp => hlevel p (.inl (.inl hp)),
    mapM_plainWithin fun p hp => hlevel p (.inl (.inr hp)),
    mapM_plainWithin fun p hp => hlevel p (.inr hp)]
  rfl

theorem pure_ne_throw {α : Type} (a : α) (error : SourceError) :
    (pure a : ExceptT SourceError Option α) ≠ throw error := by
  intro h
  cases Option.some.inj h

theorem bind_eq_throw_iff {α β : Type} {x : ExceptT SourceError Option α}
    {f : α → ExceptT SourceError Option β} {error : SourceError} :
    x >>= f = throw error ↔ x = throw error ∨ ∃ a, x = pure a ∧ f a = throw error := by
  constructor
  · intro h
    rcases x with _ | error' | a
    · cases h
    · cases Option.some.inj h
      exact .inl rfl
    · exact .inr ⟨a, rfl, h⟩
  · rintro (rfl | ⟨a, rfl, h⟩)
    · rfl
    · exact h

theorem comesTo_of_failure {answers : List (String × Option ResolvedType)} {target : String}
    {error : SourceError} (hsource : source name = .ok (d :: others))
    (hpos : answers.map Prod.fst ++ [target] <+: d.supertypeNames)
    (h : ∀ p ∈ answers, r.ComesTo source p.1 (.ok p.2))
    (herror : r.ComesTo source target (.error error)) : r.ComesTo source name (.error error) := by
  obtain ⟨enough, h⟩ := exists_enough h
  obtain ⟨enough', herror⟩ := herror
  refine comesTo_of_succ (max enough enough') fun levels hlevels => ?_
  have hanswers := h levels (by omega)
  have htarget : r.plainWithin source levels target = throw error := herror levels (by omega)
  -- One pass over all supertypes fails at `target`, and the three groups together are that pass.
  have hall : d.supertypeNames.mapM (r.plainWithin source levels) = throw error := by
    obtain ⟨rest, hrest⟩ := hpos
    rw [← hrest, List.append_assoc, List.mapM_append, mapM_plainWithin hanswers]
    simp only [List.singleton_append, List.mapM_cons, htarget]
    rfl
  rw [Declaration.supertypeNames, List.mapM_append, List.mapM_append] at hall
  have hname : r.plainWithin source (levels + 1) name = throw error := by
    rw [plainWithin, hsource]
    simpa only [bind_assoc, pure_bind, bind_eq_throw_iff, pure_ne_throw] using hall
  exact hname

theorem bind_eq_pure_iff {α β : Type} {x : ExceptT SourceError Option α}
    {f : α → ExceptT SourceError Option β} {b : β} :
    x >>= f = pure b ↔ ∃ a, x = pure a ∧ f a = pure b := by
  constructor
  · intro h
    rcases x with _ | error | a
    · cases h
    · cases Option.some.inj h
    · exact ⟨a, rfl, h⟩
  · rintro ⟨a, rfl, h⟩
    exact h

theorem exists_answers_of_mapM {levels : ℕ} {names : List String} {vs : List (Option ResolvedType)}
    (h : names.mapM (r.plainWithin source levels) = pure vs) :
    ∃ answers : List (String × Option ResolvedType), answers.map Prod.fst = names ∧
      answers.map Prod.snd = vs ∧ ∀ a ∈ answers, r.plainWithin source levels a.1 = pure a.2 := by
  induction names generalizing vs with
  | nil =>
    have hnil : vs = [] := (Except.ok.inj (Option.some.inj h)).symm
    exact ⟨[], rfl, hnil.symm, by simp⟩
  | cons name rest ih =>
    rw [List.mapM_cons, bind_eq_pure_iff] at h
    obtain ⟨v, hv, h⟩ := h
    obtain ⟨vs', hvs', h⟩ := bind_eq_pure_iff.mp h
    have hcons : v :: vs' = vs := Except.ok.inj (Option.some.inj h)
    obtain ⟨answers, hnames, hanswers, hall⟩ := ih hvs'
    refine ⟨(name, v) :: answers, by simp [hnames], by simp [hanswers, hcons], ?_⟩
    intro a ha
    rcases List.mem_cons.mp ha with rfl | ha
    · exact hv
    · exact hall a ha

theorem exists_answers_of_plainWithin {levels : ℕ} {v : Option ResolvedType}
    (hsource : source name = .ok (d :: others))
    (h : r.plainWithin source (levels + 1) name = pure v) :
    ∃ parents interfaces traits : List (String × Option ResolvedType),
      parents.map Prod.fst = d.parent.toList ∧ interfaces.map Prod.fst = d.interfaces ∧
        traits.map Prod.fst = d.usedTraits ∧
        v = some (d.assemble r.allHooks (.ofAnswers (parents.map Prod.snd)
          (interfaces.map Prod.snd) (traits.map Prod.snd))).type ∧
        ∀ a ∈ parents ++ interfaces ++ traits, r.plainWithin source levels a.1 = pure a.2 := by
  rw [plainWithin, hsource] at h
  obtain ⟨ps, hps, h⟩ := bind_eq_pure_iff.mp h
  obtain ⟨is, his, h⟩ := bind_eq_pure_iff.mp h
  obtain ⟨ts, hts, h⟩ := bind_eq_pure_iff.mp h
  obtain ⟨parents, hparents, rfl, hpall⟩ := exists_answers_of_mapM hps
  obtain ⟨interfaces, hinterfaces, rfl, hiall⟩ := exists_answers_of_mapM his
  obtain ⟨traits, htraits, rfl, htall⟩ := exists_answers_of_mapM hts
  have hv := (Except.ok.inj (Option.some.inj h)).symm
  refine ⟨parents, interfaces, traits, hparents, hinterfaces, htraits, hv, ?_⟩
  intro a ha
  simp only [List.mem_append] at ha
  rcases ha with (ha | ha) | ha
  · exact hpall a ha
  · exact hiall a ha
  · exact htall a ha

/-- Whether the cache holds, of types free of cycles, only what plain recursion comes to. -/
def Faithful (r : Resolver) (source : Source) (c : Cache) : Prop :=
  ∀ name v, c.slots.get? (.ofName name) = some (.done v) → source.AcyclicFrom (.ofName name) →
    r.ComesTo source name (.ok v)

theorem faithful_empty : r.Faithful source .empty := by
  intro name v h
  simp [Cache.empty] at h

theorem Faithful.of_done {c c' : Cache} (h : r.Faithful source c)
    (hdone : ∀ k v, c'.slots.get? k = some (.done v) → c.slots.get? k = some (.done v)) :
    r.Faithful source c' :=
  fun name v hv => h name v (hdone _ v hv)

theorem Faithful.start {c : Cache} (h : r.Faithful source c) (key : TypeKey) :
    r.Faithful source (c.start key) :=
  h.of_done fun _ _ => Cache.done_of_start

theorem Faithful.release {c : Cache} (h : r.Faithful source c) (key : TypeKey) :
    r.Faithful source (c.release key) :=
  h.of_done fun _ _ => Cache.done_of_release

theorem Faithful.settle {c : Cache} {v : Option ResolvedType} (huniform : source.Uniform)
    (h : r.Faithful source c)
    (hv : source.AcyclicFrom (.ofName name) → r.ComesTo source name (.ok v)) :
    r.Faithful source (c.settle (.ofName name) v) := by
  intro name' v' hslot hacyclic
  rcases Cache.done_of_settle hslot with ⟨heq, rfl⟩ | hslot
  · rw [← heq] at hacyclic
    exact (hv hacyclic).congr huniform heq
  · exact h name' v' hslot hacyclic

/-- What holds while the edges of the type called `name` are followed: its own key is on top of the
stack and not noted as reentered, and the answers so far are those of plain recursion unless an edge
has been cut since there were `cuts` cuts. -/
structure Answering (r : Resolver) (source : Source) (name : String) (stack : List TypeKey)
    (cuts : ℕ) (answers : List (String × Option ResolvedType)) (c : Cache) : Prop where
  onStack : c.OnStack (.ofName name :: stack)
  faithful : r.Faithful source c
  notMem : TypeKey.ofName name ∉ c.reentered
  cuts_le : cuts ≤ c.cuts
  comesTo : source.AcyclicFrom (.ofName name) → c.cuts = cuts →
    ∀ p ∈ answers, r.ComesTo source p.1 (.ok p.2)

theorem Answering.link {stack : List TypeKey} {cuts : ℕ}
    {answers : List (String × Option ResolvedType)} {c c' : Cache} {relation target : String}
    {edge : Edge} (h : r.Answering source name stack cuts answers c)
    (hlead : source.Leads (.ofName name) (.ofName target)) (hext : c.Extends c')
    (hreentered : ∀ k ∈ c'.reentered, k ∈ c.reentered ∨ source.Reaches (.ofName target) k)
    (hc' : r.Faithful source c')
    (hedge : source.AcyclicFrom (.ofName target) → c'.cuts = c.cuts →
      ∃ v, edge = .ofResult v ∧ r.ComesTo source target (.ok v)) :
    r.Answering source name stack cuts
      (answers ++ [(target, (r.linked d (.ofName name) relation target edge c').1)])
      (r.linked d (.ofName name) relation target edge c').2 := by
  have hle := h.cuts_le
  have hle' := hext.cuts_le
  refine ⟨(extends_linked d _ relation target edge c').onStack (hext.onStack h.onStack),
    hc'.of_done (by simp), by simp, ?_, ?_⟩
  · rw [cuts_linked]
    omega
  · intro hacyclic hcuts p hp
    rw [cuts_linked] at hcuts
    rcases List.mem_append.mp hp with hp | hp
    · exact h.comesTo hacyclic (by omega) p hp
    · obtain ⟨v, rfl, hv⟩ := hedge (hacyclic.of_leads hlead) (by omega)
      have hnotin : TypeKey.ofName name ∉ c'.reentered := by
        intro hmem
        rcases hreentered _ hmem with hmem | hback
        · exact h.notMem hmem
        · exact hacyclic.not_reaches hlead hback
      rw [List.mem_singleton.mp hp, linked_ofResult hnotin]
      exact hv

/-- Following a name keeps a cache faithful.  If no edge is cut on the way, a name free of cycles is
answered as plain recursion answers it. -/
theorem faithful_reach (huniform : source.Uniform) (fuel : ℕ) (name : String) {c : Cache}
    {stack : List TypeKey} (hs : c.OnStack stack)
    (hstack : ∀ k ∈ stack, TransGen source.Leads k (.ofName name)) (hc : r.Faithful source c) :
    (exec source (r.reach fuel name) c).Meets
      (fun edge c' _ => r.Faithful source c' ∧
        (source.AcyclicFrom (.ofName name) → c'.cuts = c.cuts →
          ∃ v, edge = .ofResult v ∧ r.ComesTo source name (.ok v)))
      (fun halt c' _ => r.Faithful source c' ∧
        (source.AcyclicFrom (.ofName name) → c'.cuts = c.cuts →
          ∀ error, halt = .source error → r.ComesTo source name (.error error))) := by
  induction fuel generalizing name c stack with
  | zero => exact ⟨hc, fun _ _ _ h => by cases h⟩
  | succ fuel ih =>
    rw [exec_reach_succ]
    refine meets_step ?done ?cycle ?tooDeep ?refused ?missing ?built
    case done => exact fun v hslot => ⟨hc, fun hacyclic _ => ⟨v, rfl, hc name v hslot hacyclic⟩⟩
    case cycle =>
      -- A type being worked on leads up to the name, so the name would lie on a cycle.
      intro hslot
      refine ⟨hc.of_done fun _ _ h => h, fun hacyclic => ?_⟩
      exact absurd (hstack _ ((hs.underway_iff _).mp hslot)) (hacyclic _ .refl)
    case tooDeep =>
      intro _ _
      refine ⟨hc.of_done fun _ _ h => h, fun _ hcuts => ?_⟩
      simp [Cache.cutEdge] at hcuts
    case refused =>
      intro _ _ error hsource
      refine ⟨(hc.start _).release _, fun _ _ error' h => ?_⟩
      cases h
      exact comesTo_of_error hsource
    case missing =>
      intro _ _ hsource
      refine ⟨(hc.start _).settle huniform fun _ => comesTo_of_nil hsource, fun _ _ => ?_⟩
      exact ⟨none, rfl, comesTo_of_nil hsource⟩
    case built =>
      intro hnew _ d others hsource
      have hedges : EdgesKeep r source (r.reach fuel) d (.ofName name)
          (fun answers c' _ => r.Answering source name stack c.cuts answers c')
          (fun halt c' _ => r.Faithful source c' ∧
            (source.AcyclicFrom (.ofName name) → c'.cuts = c.cuts →
              ∀ error, halt = .source error → r.ComesTo source name (.error error))) := by
        intro relation answers target c₁ _ hpos h₁
        have hlead := Source.leads_next hsource hpos
        have hcache := Outcome.meets_of_cache (p := fun c' => c₁.Extends c' ∧
          ∀ k ∈ c'.reentered, k ∈ c₁.reentered ∨ source.Reaches (.ofName target) k)
          ⟨extends_reach r source fuel target c₁, reentered_reach r source fuel target c₁⟩
        have htarget := ih target h₁.onStack (Source.forall_transGen_cons hstack hlead) h₁.faithful
        refine (hcache.and htarget).imp ?_ ?_
        · rintro edge c₂ _ ⟨⟨hext, hreentered⟩, hc₂, hedge⟩
          exact h₁.link hlead hext hreentered hc₂ hedge
        · rintro halt c₂ _ ⟨⟨hext, -⟩, hc₂, hhalt⟩
          refine ⟨hc₂, fun hacyclic hcuts error herror => ?_⟩
          have hle := h₁.cuts_le
          have hle' := hext.cuts_le
          exact comesTo_of_failure hsource hpos (h₁.comesTo hacyclic (by omega))
            (hhalt (hacyclic.of_leads hlead) (by omega) error herror)
      refine (hedges.supertypes _ ?_).imp ?_ ?_
      · exact ⟨(Cache.Extends.addAll _ _).onStack (hs.start hnew),
          (hc.start _).of_done fun _ _ h => h, hs.notMem_reentered hnew, Nat.le_refl _, by simp⟩
      · rintro supers c' _ ⟨parents, interfaces, traits, hparents, hinterfaces, htraits, rfl, h'⟩
        have hcomes (hacyclic : source.AcyclicFrom (.ofName name)) (hcuts : c'.cuts = c.cuts) :=
          comesTo_of_answers hsource hparents hinterfaces htraits (h'.comesTo hacyclic hcuts)
        constructor
        · unfold Cache.conclude
          split
          · exact Faithful.release (h'.faithful.of_done fun _ _ h => h) _
          · rename_i hcuts
            refine Faithful.settle huniform (h'.faithful.of_done fun _ _ h => h) fun hacyclic => ?_
            exact hcomes hacyclic (Nat.le_antisymm (Nat.le_of_not_lt hcuts) h'.cuts_le)
        · intro hacyclic hcuts
          rw [Cache.cuts_conclude] at hcuts
          exact ⟨_, rfl, hcomes hacyclic hcuts⟩
      · rintro halt c' _ ⟨hc', hhalt⟩
        exact ⟨hc'.release _, hhalt⟩

theorem faithful_cacheAfter (huniform : source.Uniform) (names : List String) :
    r.Faithful source (r.cacheAfter (names.map (Request.mk source))) := by
  refine (cacheAfter_induct (p := fun c => c.OnStack [] ∧ r.Faithful source c) _
    ⟨.empty, faithful_empty⟩ ?_).2
  rintro c q hq ⟨hs, hc⟩
  obtain ⟨name, -, rfl⟩ := List.mem_map.mp hq
  refine ⟨(extends_serve c _).onStack hs, ?_⟩
  rw [serve_eq]
  have hreach := faithful_reach huniform (r.settings.depthLimit + 1) name hs (by simp) hc
  exact (hreach.imp (fun _ _ _ h => h.1) (fun _ _ _ h => h.1)).cache

theorem cuts_reach_of_pathsWithin (fuel : ℕ) {c : Cache} (hs : c.OnStack [])
    (hpaths : source.PathsWithin (.ofName name) r.settings.depthLimit) :
    (exec source (r.reach fuel name) c).cache.cuts = c.cuts := by
  refine cuts_reach_of_fits (fun stack k =>
    ∃ n, source.PathsWithin k n ∧ stack.length + n = r.settings.depthLimit) ?_ ?_ fuel name hs
    ⟨_, hpaths, by simp⟩
  · rintro stack k ⟨n, hn, hlen⟩ _
    have := hn.pos
    omega
  · rintro stack k k' ⟨n, hn, hlen⟩ hlead
    obtain ⟨n, rfl⟩ := Nat.exists_eq_add_one.mpr hn.pos
    exact ⟨n, hn.of_leads hlead, by simp only [List.length_cons]; omega⟩

/-- A faithful cache answers for a type free of cycles, and near enough to its last supertypes, as
plain recursion does, which then comes to an end. -/
theorem answer_eq_plain (huniform : source.Uniform) {c : Cache} (hs : c.OnStack [])
    (hc : r.Faithful source c) (hacyclic : source.AcyclicFrom (.ofName name))
    (hpaths : source.PathsWithin (.ofName name) r.settings.depthLimit) :
    ∃ outcome, r.ComesTo source name outcome ∧
      r.answer c ⟨source, name⟩ = outcome.mapError .source := by
  have hcuts := cuts_reach_of_pathsWithin (r.settings.depthLimit + 1) hs hpaths
  have hreach := faithful_reach huniform (r.settings.depthLimit + 1) name hs (by simp) hc
  have hhalt := reach_stop r source (r.settings.depthLimit + 1) name hs (Nat.zero_le _) (by simp)
  rw [answer_eq]
  revert hcuts hreach hhalt
  dsimp only
  rcases exec source (r.reach (r.settings.depthLimit + 1) name) c with ⟨halt | edge, c', log⟩
  · rintro hcuts ⟨-, hcomes⟩ ⟨_, error, -, rfl⟩
    exact ⟨.error error, hcomes hacyclic hcuts error rfl, rfl⟩
  · rintro hcuts ⟨-, hcomes⟩ -
    obtain ⟨v, rfl, hv⟩ := hcomes hacyclic hcuts
    exact ⟨.ok v, hv, by simp [Except.map, Except.mapError]⟩

/-- Whatever requests a cache has served, what it holds of a type free of cycles is what plain
recursion gives, and if the type's supertypes lie within the depth limit the cache answers for it as
an empty one does, with a type, with nothing or with the failure of the source. -/
theorem cache_transparent (r : Resolver) {source : Source} (huniform : source.Uniform)
    (names : List String) {name : String} (hacyclic : source.AcyclicFrom (.ofName name)) :
    (∀ v, (r.cacheAfter (names.map (Request.mk source))).slots.get? (.ofName name) =
        some (.done v) → r.ComesTo source name (.ok v)) ∧
      (source.PathsWithin (.ofName name) r.settings.depthLimit →
        r.answer (r.cacheAfter (names.map (Request.mk source))) ⟨source, name⟩ =
            ((r.resolve name).run source).1 ∧
          ∃ outcome, r.ComesTo source name outcome ∧
            ((r.resolve name).run source).1 = outcome.mapError .source) := by
  have hfaithful := faithful_cacheAfter (r := r) huniform names
  refine ⟨fun v hv => hfaithful name v hv hacyclic, fun hpaths => ?_⟩
  obtain ⟨outcome, houtcome, hkept⟩ :=
    answer_eq_plain huniform (onStack_cacheAfter _) hfaithful hacyclic hpaths
  obtain ⟨outcome', houtcome', hfresh⟩ :=
    answer_eq_plain huniform .empty (faithful_empty (r := r)) hacyclic hpaths
  obtain rfl := houtcome.unique houtcome'
  rw [resolve_eq_answer]
  exact ⟨hkept.trans hfresh.symm, outcome, houtcome, hfresh⟩

def chainAndLoop : Codebase :=
  .ofDeclarations [(Declaration.ofName .classType "Top").withParent "A",
    (Declaration.ofName .classType "A").withParent "B", .ofName .classType "B",
    (Declaration.ofName .classType "X").withParent "X"]

/-- The chain is cut when it is followed from its top, the loop is reported, and `A` is answered as on
an empty cache. -/
theorem cache_transparent_chainAndLoop :
    chainAndLoop.source.AcyclicFrom (.ofName "A") ∧
      chainAndLoop.source.PathsWithin (.ofName "A") 2 ∧
      Resolver.answer ⟨⟨2, true⟩, []⟩ (Resolver.cacheAfter ⟨⟨2, true⟩, []⟩
          (["Top", "X"].map (Request.mk chainAndLoop.source))) ⟨chainAndLoop.source, "A"⟩ =
        ((Resolver.resolve ⟨⟨2, true⟩, []⟩ "A").run chainAndLoop.source).1 := by
  have huniform := Codebase.uniform_source chainAndLoop
  have ha : chainAndLoop.source "A" = .ok [(Declaration.ofName .classType "A").withParent "B"] := by
    decide +kernel
  have hb : chainAndLoop.source "B" = .ok [.ofName .classType "B"] := by decide +kernel
  have hleads {k} (hk : chainAndLoop.source.Leads (.ofName "A") k) : k = .ofName "B" := by
    obtain ⟨target, htarget, rfl⟩ := huniform.mem_of_leads ha hk
    rw [List.mem_singleton.mp htarget]
  have hends {k} : ¬ chainAndLoop.source.Leads (.ofName "B") k := by
    intro hk
    obtain ⟨target, htarget, -⟩ := huniform.mem_of_leads hb hk
    cases htarget
  have hacyclic : chainAndLoop.source.AcyclicFrom (.ofName "A") := by
    refine Source.acyclicFrom_of_acc (Acc.intro _ fun k hk => ?_)
    rw [hleads hk]
    exact Acc.intro _ fun k' hk' => absurd hk' hends
  have hpaths : chainAndLoop.source.PathsWithin (.ofName "A") 2 := by
    intro path hpath
    cases hpath with
    | singleton => decide
    | cons_cons hk hpath =>
      rw [hleads hk] at hpath
      cases hpath with
      | singleton => simp
      | cons_cons hk' _ => exact absurd hk' hends
  obtain ⟨hsame, -⟩ := (cache_transparent ⟨⟨2, true⟩, []⟩ huniform ["Top", "X"] hacyclic).2 hpaths
  exact ⟨hacyclic, hpaths, hsame⟩

end Resolver

end Hierarchy
