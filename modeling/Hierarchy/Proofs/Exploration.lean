import Hierarchy.Proofs.GraphSearch
import Hierarchy.Proofs.Requests

namespace Hierarchy

open Relation

def keysAsked (log : List Event) : List TypeKey := (namesAsked log).map TypeKey.ofName

namespace Source

def Fails (source : Source) (k : TypeKey) : Prop :=
  ∃ name error, TypeKey.ofName name = k ∧ source name = .error error

theorem Uniform.not_fails {source : Source} (huniform : source.Uniform) {name : String}
    {candidates : List Declaration} (h : source name = .ok candidates) :
    ¬ source.Fails (.ofName name) := by
  rintro ⟨name', error, hname, herror⟩
  have heq := huniform name' name hname
  simp [h, herror] at heq

/-- Whether all names asked for can be reached from `name` and were answered. -/
def Answered (source : Source) (name : String) (names : List String) : Prop :=
  ∀ asked ∈ names, source.Reaches (.ofName name) (.ofName asked) ∧
    ∃ candidates, source asked = .ok candidates

/-- Whether the last of the names asked for failed, and all before it were answered. -/
def FailedLast (source : Source) (name : String) (error : SourceError) (names : List String) : Prop :=
  ∃ before failing, names = before ++ [failing] ∧ source.Answered name before ∧
    source.Reaches (.ofName name) (.ofName failing) ∧ source failing = .error error

variable {source : Source} {name target : String} {names names' : List String}

theorem Answered.append (h : source.Answered name names) (h' : source.Answered name names') :
    source.Answered name (names ++ names') := by
  intro asked hasked
  rcases List.mem_append.mp hasked with hasked | hasked
  · exact h asked hasked
  · exact h' asked hasked

theorem Answered.of_leads (h : source.Answered target names)
    (hlead : source.Leads (.ofName name) (.ofName target)) : source.Answered name names :=
  fun asked hasked => ⟨.head hlead (h asked hasked).1, (h asked hasked).2⟩

theorem FailedLast.of_leads {error : SourceError} (h : source.FailedLast target error names)
    (hlead : source.Leads (.ofName name) (.ofName target)) : source.FailedLast name error names := by
  obtain ⟨before, failing, rfl, hbefore, hreach, herror⟩ := h
  exact ⟨before, failing, rfl, hbefore.of_leads hlead, .head hlead hreach, herror⟩

theorem FailedLast.after {error : SourceError} (h : source.FailedLast name error names')
    (hnames : source.Answered name names) : source.FailedLast name error (names ++ names') := by
  obtain ⟨before, failing, rfl, hbefore, hreach, herror⟩ := h
  exact ⟨names ++ before, failing, by simp, hnames.append hbefore, hreach, herror⟩

end Source

namespace Resolver

open ResolveM

variable {r : Resolver} {source : Source}

/-- Following a name asks for names that it reaches and is stopped by the first that fails. -/
theorem asked_reach (r : Resolver) (source : Source) (fuel : ℕ) (name : String) (c : Cache) :
    (exec source (r.reach fuel name) c).Meets
      (fun _ _ log => source.Answered name (namesAsked log))
      (fun halt _ log => ∀ error, halt = .source error →
        source.FailedLast name error (namesAsked log)) := by
  induction fuel generalizing name c with
  | zero => exact fun error h => by cases h
  | succ fuel ih =>
    have hself {candidates : List Declaration} (hsource : source name = .ok candidates) :
        source.Answered name [name] := by
      intro asked hasked
      rw [List.mem_singleton.mp hasked]
      exact ⟨.refl, candidates, hsource⟩
    rw [exec_reach_succ]
    refine meets_step ?done ?cycle ?tooDeep ?refused ?missing ?built
    case done => exact fun _ _ => by simp [Source.Answered]
    case cycle => exact fun _ => by simp [Source.Answered]
    case tooDeep => exact fun _ _ => by simp [Source.Answered]
    case refused =>
      intro _ _ error hsource error' heq
      cases heq
      exact ⟨[], name, rfl, by simp [Source.Answered], .refl, hsource⟩
    case missing => exact fun _ _ hsource => hself hsource
    case built =>
      intro _ _ d others hsource
      have hedges : EdgesKeep r source (r.reach fuel) d (.ofName name)
          (fun _ _ log => source.Answered name (namesAsked log))
          (fun halt _ log => ∀ error, halt = .source error →
            source.FailedLast name error (namesAsked log)) := by
        intro relation answers target c₁ log hpos h₁
        have hlead := Source.leads_next hsource hpos
        refine (ih target c₁).imp ?_ ?_
        · intro edge c₂ log' h₂
          dsimp only
          rw [namesAsked_append]
          exact h₁.append (h₂.of_leads hlead)
        · intro halt c₂ log' h₂ error herror
          rw [namesAsked_append]
          exact ((h₂ error herror).of_leads hlead).after h₁
      refine (hedges.supertypes _ (by simp [Source.Answered])).imp ?_ ?_
      · rintro supers c' log ⟨_, _, _, _, _, _, _, h'⟩
        simp only [namesAsked_fetched, namesAsked_append, namesAsked_applied, List.append_nil]
        exact (hself hsource).append h'
      · intro halt c' log h' error herror
        exact (h' error herror).after (hself hsource)

/-- Whether an answer is what the candidates make it: nothing if there are none, and otherwise a type
put together from the first. -/
def MadeFrom (r : Resolver) : List Declaration → Option ResolvedType → Prop
  | [], v => v = none
  | d :: _, v => ∃ supers, v = some (d.assemble r.allHooks supers).type

theorem MadeFrom.isSome_iff {candidates : List Declaration} {v : Option ResolvedType}
    (h : r.MadeFrom candidates v) : v.isSome = true ↔ candidates ≠ [] := by
  cases candidates with
  | nil => simp [show v = none from h]
  | cons d others =>
    obtain ⟨supers, rfl⟩ := h
    simp

end Resolver

namespace Cache

variable {r : Resolver} {source : Source} {c c' : Cache} {key : TypeKey} {v : Option ResolvedType}

/-- Whether all that a finished type leads to has a slot, and every finished answer was made from
candidates that the source supplied. -/
structure Explored (c : Cache) (r : Resolver) (source : Source) : Prop where
  closed : ∀ k k', c.Knows k → source.Leads k k' → k' ∈ c.slots.keys
  made : ∀ k v, c.slots.get? k = some (.done v) →
    ∃ name candidates, TypeKey.ofName name = k ∧ source name = .ok candidates ∧
      r.MadeFrom candidates v

theorem explored_empty : Cache.empty.Explored r source where
  closed k k' h := by
    obtain ⟨v, hv⟩ := h
    simp [Cache.empty] at hv
  made k v hv := by simp [Cache.empty] at hv

theorem mem_keys_of_get? {k : TypeKey} {slot : Slot} (h : c.slots.get? k = some slot) :
    k ∈ c.slots.keys := by
  by_contra hout
  rw [OrderedMap.get?_eq_none_iff.mpr hout] at h
  cases h

theorem Explored.of_slots (h : c.Explored r source) (hslots : c'.slots = c.slots) :
    c'.Explored r source where
  closed k k' hk hlead := by
    rw [Knows, hslots] at hk
    exact hslots ▸ h.closed k k' hk hlead
  made k v hv := h.made k v (hslots ▸ hv)

theorem keys_start (hnew : c.slots.get? key = none) :
    (c.start key).slots.keys = c.slots.keys ++ [key] := by
  have hout := OrderedMap.get?_eq_none_iff.mp hnew
  simp [start, OrderedMap.keys_insert, hout]

theorem keys_settle (h : key ∈ c.slots.keys) :
    (c.settle key v).slots.keys = c.slots.keys := by
  simp [settle, OrderedMap.keys_insert, h]

theorem Explored.start (h : c.Explored r source) (hnew : c.slots.get? key = none) :
    (c.start key).Explored r source where
  closed k k' hk hlead := by
    obtain ⟨v, hv⟩ := hk
    rw [keys_start hnew]
    exact List.mem_append_left _ (h.closed k k' ⟨v, done_of_start hv⟩ hlead)
  made k v hv := h.made k v (done_of_start hv)

theorem Explored.settle (h : c.Explored r source) {name : String} {candidates : List Declaration}
    (hin : .ofName name ∈ c.slots.keys)
    (hleads : ∀ k, source.Leads (.ofName name) k → k ∈ c.slots.keys)
    (hsource : source name = .ok candidates) (hmade : r.MadeFrom candidates v) :
    (c.settle (.ofName name) v).Explored r source where
  closed k k' hk hlead := by
    obtain ⟨w, hw⟩ := hk
    rw [keys_settle hin]
    rcases done_of_settle hw with ⟨rfl, -⟩ | hw
    · exact hleads k' hlead
    · exact h.closed k k' ⟨w, hw⟩ hlead
  made k w hw := by
    rcases done_of_settle hw with ⟨rfl, rfl⟩ | hw
    · exact ⟨name, candidates, rfl, hsource, hmade⟩
    · exact h.made k w hw

section Rest

variable {k k' : TypeKey}

theorem OnStack.knows_iff (hs : c.OnStack []) : c.Knows k ↔ k ∈ c.slots.keys := by
  refine ⟨fun ⟨v, hv⟩ => mem_keys_of_get? hv, fun hk => ?_⟩
  cases hslot : c.slots.get? k with
  | none => exact absurd hk (OrderedMap.get?_eq_none_iff.mp hslot)
  | some slot =>
    cases slot with
    | underway => exact absurd ((hs.underway_iff k).mp hslot) (by simp)
    | done v => exact ⟨v, hslot⟩

theorem Explored.knows_of_reaches (h : c.Explored r source) (hs : c.OnStack [])
    (hk : c.Knows k) (hreach : source.Reaches k k') : c.Knows k' := by
  induction hreach with
  | refl => exact hk
  | tail _ hlead ih => exact hs.knows_iff.mpr (h.closed _ _ ih hlead)

theorem Explored.isSome_iff_declares (h : c.Explored r source) (huniform : source.Uniform)
    (hv : c.slots.get? k = some (.done v)) :
    v.isSome = true ↔ source.Declares k := by
  obtain ⟨name, candidates, rfl, hsource, hmade⟩ := h.made k v hv
  rw [hmade.isSome_iff, huniform.declares_iff, hsource]
  cases candidates <;> simp

theorem Explored.not_fails (h : c.Explored r source) (huniform : source.Uniform)
    (hk : c.Knows k) : ¬ source.Fails k := by
  obtain ⟨v, hv⟩ := hk
  obtain ⟨name, candidates, rfl, hsource, -⟩ := h.made k v hv
  exact huniform.not_fails hsource

end Rest

/-- Whether work that went from `c` to `c'` gave each name that it asked for a slot of its own, in
that order, and left an explored cache. -/
structure ExploredTo (c c' : Cache) (r : Resolver) (source : Source) (log : List Event) : Prop where
  keys_eq : c'.slots.keys = c.slots.keys ++ keysAsked log
  explored : c'.Explored r source

theorem ExploredTo.refl (h : c.Explored r source) : c.ExploredTo c r source [] :=
  ⟨by simp [keysAsked], h⟩

theorem ExploredTo.trans {c'' : Cache} {log log' : List Event} (h : c.ExploredTo c' r source log)
    (h' : c'.ExploredTo c'' r source log') : c.ExploredTo c'' r source (log ++ log') :=
  ⟨by simp [h'.keys_eq, h.keys_eq, keysAsked], h'.explored⟩

theorem ExploredTo.of_slots {c'' : Cache} {log : List Event} (h : c.ExploredTo c' r source log)
    (hslots : c''.slots = c'.slots) : c.ExploredTo c'' r source log :=
  ⟨hslots ▸ h.keys_eq, h.explored.of_slots hslots⟩

theorem ExploredTo.applied {log : List Event} (h : c.ExploredTo c' r source log)
    (applications : List Application) :
    c.ExploredTo c' r source (log ++ applications.map .applied) :=
  ⟨by simp [h.keys_eq, keysAsked], h.explored⟩

theorem ExploredTo.mem {log : List Event} {k : TypeKey} (h : c.ExploredTo c' r source log)
    (hk : k ∈ c.slots.keys) : k ∈ c'.slots.keys :=
  h.keys_eq ▸ List.mem_append_left _ hk

theorem ExploredTo.start {name : String} (h : c.Explored r source)
    (hnew : c.slots.get? (.ofName name) = none) :
    c.ExploredTo (c.start (.ofName name)) r source [.fetched name] :=
  ⟨by simp [keys_start hnew, keysAsked], h.start hnew⟩

end Cache

namespace Resolver

open ResolveM

variable {r : Resolver} {source : Source} {c c' c'' : Cache} {log log' : List Event} {name : String}
  {answers : List (String × Option ResolvedType)}

/-- What holds while the edges of a type are followed, on which work began with the cache `c`: unless
an edge was cut since, all that was asked for has been explored and the targets so far have slots. -/
structure Exploring (r : Resolver) (source : Source) (c : Cache) (log : List Event)
    (answers : List (String × Option ResolvedType)) (c' : Cache) : Prop where
  cuts_le : c.cuts ≤ c'.cuts
  exploredTo : c'.cuts = c.cuts → c.ExploredTo c' r source log
  mem_keys : c'.cuts = c.cuts → ∀ p ∈ answers, .ofName p.1 ∈ c'.slots.keys

theorem Exploring.of_slots (h : Exploring r source c log answers c') (hslots : c''.slots = c'.slots)
    (hcuts : c''.cuts = c'.cuts) : Exploring r source c log answers c'' where
  cuts_le := hcuts ▸ h.cuts_le
  exploredTo heq := (h.exploredTo (hcuts ▸ heq)).of_slots hslots
  mem_keys heq := hslots ▸ h.mem_keys (hcuts ▸ heq)

theorem Exploring.start (hc : c.Explored r source) (hnew : c.slots.get? (.ofName name) = none) :
    Exploring r source c [.fetched name] [] (c.start (.ofName name)) where
  cuts_le := Nat.le_refl _
  exploredTo _ := .start hc hnew
  mem_keys := by simp

theorem Exploring.addAll (h : Exploring r source c log answers c') (ds : Report) :
    Exploring r source c log answers (c'.addAll ds) :=
  h.of_slots rfl rfl

theorem Exploring.follow {target : String} (h : Exploring r source c log answers c')
    (hcuts : c'.cuts ≤ c''.cuts)
    (hfollow : c''.cuts = c'.cuts → c'.Explored r source →
      c'.ExploredTo c'' r source log' ∧ .ofName target ∈ c''.slots.keys) (v : Option ResolvedType) :
    Exploring r source c (log ++ log') (answers ++ [(target, v)]) c'' := by
  have hle := h.cuts_le
  have hboth (heq : c''.cuts = c.cuts) : c'.cuts = c.cuts ∧ c''.cuts = c'.cuts := by omega
  refine ⟨by omega, fun heq => ?_, fun heq p hp => ?_⟩
  · obtain ⟨heq₁, heq₂⟩ := hboth heq
    have h₁ := h.exploredTo heq₁
    exact h₁.trans (hfollow heq₂ h₁.explored).1
  · obtain ⟨heq₁, heq₂⟩ := hboth heq
    obtain ⟨h₂, htarget⟩ := hfollow heq₂ (h.exploredTo heq₁).explored
    rcases List.mem_append.mp hp with hp | hp
    · exact h₂.mem (h.mem_keys heq₁ p hp)
    · rw [List.mem_singleton.mp hp]
      exact htarget

theorem Exploring.settle {candidates : List Declaration} {v : Option ResolvedType}
    (h : Exploring r source c (.fetched name :: log) answers c')
    (hsource : source name = .ok candidates) (hmade : r.MadeFrom candidates v)
    (hleads : ∀ k, source.Leads (.ofName name) k → ∃ p ∈ answers, TypeKey.ofName p.1 = k)
    (heq : c'.cuts = c.cuts) :
    c.ExploredTo (c'.settle (.ofName name) v) r source (.fetched name :: log) ∧
      .ofName name ∈ (c'.settle (.ofName name) v).slots.keys := by
  have hto := h.exploredTo heq
  have hin : .ofName name ∈ c'.slots.keys := by simp [hto.keys_eq, keysAsked]
  refine ⟨⟨?_, hto.explored.settle hin ?_ hsource hmade⟩, ?_⟩
  · rw [Cache.keys_settle hin, hto.keys_eq]
  · intro k hk
    obtain ⟨p, hp, rfl⟩ := hleads k hk
    exact h.mem_keys heq p hp
  · rwa [Cache.keys_settle hin]

/-- Following a name without cutting an edge explores all that is asked for on the way. -/
theorem explored_reach (huniform : source.Uniform) (fuel : ℕ) (name : String) (c : Cache) :
    (exec source (r.reach fuel name) c).Meets
      (fun _ c' log => c'.cuts = c.cuts → c.Explored r source →
        c.ExploredTo c' r source log ∧ .ofName name ∈ c'.slots.keys)
      (fun _ _ _ => True) := by
  -- That the cache is explored stands inside the statement: between two edges it is only known to be
  -- so if none was cut before.
  induction fuel generalizing name c with
  | zero => trivial
  | succ fuel ih =>
    rw [exec_reach_succ]
    refine meets_step ?done ?cycle ?tooDeep ?refused ?missing ?built
    case done => exact fun v hslot _ hc => ⟨.refl hc, Cache.mem_keys_of_get? hslot⟩
    case cycle =>
      exact fun hslot _ hc => ⟨(Cache.ExploredTo.refl hc).of_slots rfl, Cache.mem_keys_of_get? hslot⟩
    case tooDeep =>
      intro _ _ hcuts
      simp [Cache.cutEdge] at hcuts
    case refused => exact fun _ _ _ _ => trivial
    case missing =>
      intro hnew _ hsource _ hc
      refine (Exploring.start hc hnew).settle hsource rfl (fun k hk => ?_) rfl
      exact absurd hk (huniform.not_leads hsource)
    case built =>
      intro hnew _ d others hsource
      have hedges : EdgesKeep r source (r.reach fuel) d (.ofName name)
          (fun answers c' log => c.Explored r source →
            Exploring r source c (.fetched name :: log) answers c')
          (fun _ _ _ => True) := by
        intro relation answers target c₁ log _ h₁
        have hcuts := Outcome.meets_of_cache (p := fun c' : Cache => c₁.cuts ≤ c'.cuts)
          (extends_reach r source fuel target c₁).cuts_le
        refine (hcuts.and (ih target c₁)).imp ?_ (fun _ _ _ _ => trivial)
        rintro edge c₂ log' ⟨hcuts, hfollow⟩ hc
        exact ((h₁ hc).follow hcuts hfollow _).of_slots slots_linked cuts_linked
      refine (hedges.supertypes _ ?_).imp ?_ (fun _ _ _ _ => trivial)
      · exact fun hc => (Exploring.start hc hnew).addAll _
      · rintro supers c' log ⟨parents, interfaces, traits, hparents, hinterfaces, htraits, -, h'⟩
          hcuts hc
        have hnames : (parents ++ interfaces ++ traits).map Prod.fst = d.supertypeNames := by
          simp [Declaration.supertypeNames, hparents, hinterfaces, htraits]
        have hleads (k : TypeKey) := huniform.exists_of_leads (k := k) hsource hnames
        rw [Cache.cuts_conclude] at hcuts
        obtain ⟨hto, hin⟩ := ((h' hc).addAll _).settle hsource ⟨supers, rfl⟩ hleads hcuts
        rw [Cache.conclude, if_neg (Nat.not_lt_of_le (Nat.le_of_eq hcuts))]
        exact ⟨hto.applied _, hin⟩

theorem answered_fetches {v : Option ResolvedType} (hv : r.answer c ⟨source, name⟩ = .ok v) :
    source.Answered name (r.fetches c ⟨source, name⟩) := by
  obtain ⟨_, -, hanswered⟩ :=
    exists_edge_of_answer (asked_reach r source (r.settings.depthLimit + 1) name c) hv
  exact hanswered

theorem explored_serve (huniform : source.Uniform) (hs : c.OnStack []) (hc : c.Explored r source)
    (hfew : {k | source.Reaches (.ofName name) k}.encard ≤ r.settings.depthLimit)
    {v : Option ResolvedType} (hv : r.answer c ⟨source, name⟩ = .ok v) :
    c.ExploredTo (r.serve c ⟨source, name⟩) r source (r.events c ⟨source, name⟩) ∧
      (r.serve c ⟨source, name⟩).slots.get? (.ofName name) = some (.done v) := by
  have hcuts : (r.serve c ⟨source, name⟩).cuts = c.cuts := by
    rw [serve_eq, cuts_reach_of_encard_le _ hs hfew]
  obtain ⟨_, -, hexplored⟩ :=
    exists_edge_of_answer (explored_reach huniform (r.settings.depthLimit + 1) name c) hv
  exact ⟨(hexplored hcuts hc).1, done_of_answer hs hcuts hv⟩

end Resolver

end Hierarchy
