import Hierarchy.Proofs.CodebaseEdits
import Hierarchy.Proofs.Exploration

namespace Hierarchy

open Relation

namespace Source

variable {source : Source} {avoided avoided' : Set TypeKey} {k k' : TypeKey}

/-- Whether `k'` can be reached from `k` through edges that start at types outside `avoided`. -/
def ReachesPast (source : Source) (avoided : Set TypeKey) : TypeKey → TypeKey → Prop :=
  ReflTransGen fun a b => a ∉ avoided ∧ source.Leads a b

/-- The types, other than `root`, that can be reached from the targets without passing `root`. -/
def metThrough (source : Source) (root : TypeKey) (targets : List String) : Set TypeKey :=
  {k | k ≠ root ∧ ∃ target ∈ targets, source.ReachesPast {root} (.ofName target) k}

theorem ReachesPast.of_eq (h : k' = k) : source.ReachesPast avoided k k' := h ▸ .refl

theorem ReachesPast.mono (hsub : avoided ⊆ avoided') (h : source.ReachesPast avoided' k k') :
    source.ReachesPast avoided k k' :=
  h.lift id fun _ _ hab => ⟨fun ha => hab.1 (hsub ha), hab.2⟩

theorem ReachesPast.reaches (h : source.ReachesPast avoided k k') : source.Reaches k k' :=
  h.lift id fun _ _ hab => hab.2

theorem reachesPast_or_exists (h : source.Reaches k k') :
    source.ReachesPast avoided k k' ∨ ∃ a ∈ avoided, source.Reaches a k' := by
  induction h using ReflTransGen.head_induction_on with
  | refl => exact .inl .refl
  | @head k next hlead hrest ih =>
    by_cases hk : k ∈ avoided
    · exact .inr ⟨k, hk, hrest.head hlead⟩
    · exact ih.imp_left (ReflTransGen.head ⟨hk, hlead⟩)

end Source

namespace Cache

variable {c c' : Cache} {key k : TypeKey} {stack : List TypeKey} {v : Option ResolvedType}

def met (c : Cache) : Set TypeKey := {k | k ∈ c.slots.keys}

theorem not_mem_met_iff : k ∉ c.met ↔ c.slots.get? k = none := OrderedMap.get?_eq_none_iff.symm

theorem Knows.mem_met (h : c.Knows k) : k ∈ c.met := by
  obtain ⟨v, hv⟩ := h
  exact mem_keys_of_get? hv

theorem OnStack.knows_of_met (hs : c.OnStack stack) (hk : k ∈ c.met) (hout : k ∉ stack) :
    c.Knows k := by
  rcases hslot : c.slots.get? k with _ | ⟨_ | v⟩
  · exact absurd hk (not_mem_met_iff.mpr hslot)
  · exact absurd ((hs.underway_iff k).mp hslot) hout
  · exact ⟨v, hslot⟩

theorem OnStack.mem_met (hs : c.OnStack stack) (hk : k ∈ stack) : k ∈ c.met :=
  mem_keys_of_get? ((hs.underway_iff k).mpr hk)

theorem Extends.met_subset (h : c.Extends c') (hs : c.OnStack stack) : c.met ⊆ c'.met := by
  intro k hk
  by_cases hin : k ∈ stack
  · exact (h.onStack hs).mem_met hin
  · exact (h.knows (hs.knows_of_met hk hin)).mem_met

theorem Extends.knows_of_met (h : c.Extends c') (hs : c.OnStack stack) (hk : k ∈ c.met)
    (hknows : c'.Knows k) : c.Knows k :=
  hs.knows_of_met hk fun hin => (h.onStack hs).not_knows hin hknows

theorem mem_met_start : k ∈ (c.start key).met ↔ k ∈ c.met ∨ k = key := OrderedMap.mem_keys_insert

theorem mem_met_of_release (h : k ∈ (c.release key).met) : k ∈ c.met := by
  simp only [met, release, OrderedMap.keys_erase] at h
  exact (List.mem_filter.mp h).1

theorem mem_met_of_conclude {cuts : ℕ} (h : k ∈ (c.conclude cuts key v).met) :
    k ∈ c.met ∨ k = key := by
  unfold conclude at h
  split at h
  · exact .inl (mem_met_of_release h)
  · exact OrderedMap.mem_keys_insert.mp h

/-- Whether all that `c'` knows of or notes as reentered beyond `c` can be reached from `k` past the
types that `c` knows of. -/
structure SearchedFrom (c : Cache) (source : Source) (k : TypeKey) (c' : Cache) : Prop where
  met : ∀ k' ∈ c'.met, k' ∈ c.met ∨ source.ReachesPast c.met k k'
  reentered : ∀ k' ∈ c'.reentered, k' ∈ c.reentered ∨ source.ReachesPast c.met k k'

theorem SearchedFrom.of_eq {source : Source} (hslots : c'.slots = c.slots)
    (hreentered : c'.reentered = c.reentered) : c.SearchedFrom source k c' where
  met k' hk' := .inl (by rwa [Cache.met, hslots] at hk')
  reentered k' hk' := .inl (hreentered ▸ hk')

/-- Whether work that went from `c` to `c'` took note of every type on the stack that one of the types
it finished leads to, and lost no note of a type on the stack. -/
structure Notes (c : Cache) (source : Source) (stack : List TypeKey) (c' : Cache) : Prop where
  kept : ∀ k ∈ stack, k ∈ c.reentered → k ∈ c'.reentered
  noted : ∀ u k, u ∉ c.met → c'.Knows u → source.Leads u k → k ∈ stack → k ∈ c'.reentered

theorem Notes.of_slots {source : Source} (hslots : c'.slots = c.slots)
    (hkept : ∀ k ∈ c.reentered, k ∈ c'.reentered) : c.Notes source stack c' where
  kept k _ hk := hkept k hk
  noted u _ hu hknows := by
    rw [Knows, hslots] at hknows
    exact absurd (Knows.mem_met hknows) hu

theorem OnStack.mem_filter_of_mem (hs : c.OnStack stack) (hnew : c.slots.get? key = none)
    (hk : k ∈ stack) {reentered : List TypeKey} (hmem : k ∈ reentered) :
    k ∈ reentered.filter fun k => k ≠ key := by
  refine List.mem_filter.mpr ⟨hmem, decide_eq_true ?_⟩
  rintro rfl
  exact not_mem_met_iff.mpr hnew (hs.mem_met hk)

end Cache

theorem Declaration.map_snd_edges (d : Declaration) : d.edges.map Prod.snd = d.supertypeNames := by
  simp [edges, supertypeNames, Function.comp_def]

namespace Resolver

open ResolveM

variable {r : Resolver} {source : Source} {c c' c₀ c₁ : Cache} {name : String} {fuel : ℕ}
  {stack : List TypeKey} {d : Declaration} {edges : List (String × String)}

theorem leads_of_mem_edges {others : List Declaration} (hsource : source name = .ok (d :: others)) :
    ∀ e ∈ d.edges, source.Leads (.ofName name) (.ofName e.2) := by
  intro e he
  refine Source.leads_of_mem hsource ?_
  rw [← d.map_snd_edges]
  exact List.mem_map_of_mem he

theorem Follows.searchedFrom {answers : List (String × Option ResolvedType)}
    (h : r.Follows source.supplier (r.reach fuel) d (.ofName name) c₁ edges answers c')
    (hreach : ∀ target c edge c', MayEnd source.supplier (r.reach fuel target) c (.ok edge) c' →
      c.OnStack (.ofName name :: stack) → c.SearchedFrom source (.ofName target) c')
    (hleads : ∀ e ∈ edges, source.Leads (.ofName name) (.ofName e.2))
    (hnew : .ofName name ∉ c.met) (hs : c₁.OnStack (.ofName name :: stack))
    (hsub : c.met ⊆ c₁.met) (h₁ : c.SearchedFrom source (.ofName name) c₁) :
    c.SearchedFrom source (.ofName name) c' := by
  induction h with
  | nil => exact h₁
  | @next c₁ c₂ _ relation target edge _ _ ends _ ih =>
    have hext := (extends_of_mayEnd ends).trans
      (extends_linked (r := r) d (.ofName name) relation target edge c₂)
    have hinner := hreach target c₁ edge c₂ ends hs
    have hlead := hleads _ List.mem_cons_self
    have hway {k : TypeKey} (hk : source.ReachesPast c₁.met (.ofName target) k) :
        source.ReachesPast c.met (.ofName name) k :=
      .head ⟨hnew, hlead⟩ (hk.mono hsub)
    refine ih (fun e he => hleads e (List.mem_cons_of_mem _ he)) (hext.onStack hs)
      (hsub.trans (hext.met_subset hs)) ⟨fun k hk => ?_, fun k hk => ?_⟩
    · rw [Cache.met, slots_linked] at hk
      exact (hinner.met k hk).elim (h₁.met k) fun hk => .inr (hway hk)
    · rw [reentered_linked] at hk
      exact (hinner.reentered k (List.mem_filter.mp hk).1).elim (h₁.reentered k)
        fun hk => .inr (hway hk)

/-- Following a name comes only to types that it reaches past those already known of. -/
theorem searchedFrom_of_mayEnd {edge : Edge}
    (h : MayEnd source.supplier (r.reach fuel name) c (.ok edge) c') (hs : c.OnStack stack) :
    c.SearchedFrom source (.ofName name) c' := by
  induction fuel generalizing name c edge c' stack with
  | zero => cases (mayEnd_throw.mp h).1
  | succ fuel ih =>
    cases mayEnd_step.mp h with
    | done => exact .of_eq rfl rfl
    | tooDeep => exact .of_eq rfl rfl
    | cycle =>
      refine ⟨fun k hk => .inl hk, fun k hk => ?_⟩
      exact (Cache.mem_reentered_reenter.mp hk).imp_right .of_eq
    | missing new =>
      refine ⟨fun k hk => ?_, fun k hk => .inl (List.mem_filter.mp hk).1⟩
      rcases OrderedMap.mem_keys_insert.mp hk with hk | rfl
      · exact (Cache.mem_met_start.mp hk).imp_right .of_eq
      · exact .inr .refl
    | @built d others _ _ _ c₁ new _ given _ _ _ follows =>
      have hnew := Cache.not_mem_met_iff.mpr new
      have hstart := (Cache.Extends.addAll _ ((ambiguity others).map d.diagnose)).onStack
        (hs.start new)
      have hfollowed : c.SearchedFrom source (.ofName name) c₁ := by
        refine follows.searchedFrom (fun _ _ _ _ => ih) (leads_of_mem_edges given.symm) hnew hstart
          (fun k hk => Cache.mem_met_start.mpr (.inl hk)) ⟨fun k hk => ?_, fun k hk => .inl hk⟩
        exact (Cache.mem_met_start.mp hk).imp_right .of_eq
      refine ⟨fun k hk => ?_, fun k hk => ?_⟩
      · rcases Cache.mem_met_of_conclude hk with hk | rfl
        · exact hfollowed.met k hk
        · exact .inr .refl
      · rw [Cache.reentered_conclude] at hk
        exact hfollowed.reentered k (List.mem_filter.mp hk).1

/-- What holds while the edges of a type are followed, on which work began with the cache `c`. -/
structure Noting (source : Source) (stack : List TypeKey) (c : Cache)
    (answers : List (String × Option ResolvedType)) (c' : Cache) : Prop where
  notes : c.Notes source stack c'
  targets : ∀ p ∈ answers, .ofName p.1 ∈ stack → .ofName p.1 ∈ c'.reentered

theorem Follows.noting {before answers : List (String × Option ResolvedType)}
    (h : r.Follows source.supplier (r.reach fuel) d (.ofName name) c₁ edges answers c')
    (hreach : ∀ target c edge c', MayEnd source.supplier (r.reach fuel target) c (.ok edge) c' →
      c.OnStack (.ofName name :: stack) → c.Notes source (.ofName name :: stack) c' ∧
        (.ofName target ∈ .ofName name :: stack → .ofName target ∈ c'.reentered))
    (hs : c.OnStack stack) (hnew : c.slots.get? (.ofName name) = none)
    (hs₁ : c₁.OnStack (.ofName name :: stack)) (h₁ : Noting source stack c before c₁) :
    Noting source stack c (before ++ answers) c' := by
  induction h generalizing before with
  | nil => rwa [List.append_nil]
  | @next c₁ c₂ _ relation target edge _ _ ends _ ih =>
    obtain ⟨hnotes, htarget⟩ := hreach target c₁ edge c₂ ends hs₁
    have hext := extends_of_mayEnd ends
    have hkept {k : TypeKey} (hk : k ∈ stack) (hmem : k ∈ c₂.reentered) :
        k ∈ (r.linked d (.ofName name) relation target edge c₂).2.reentered := by
      rw [reentered_linked]
      exact hs.mem_filter_of_mem hnew hk hmem
    have hcarried {k : TypeKey} (hk : k ∈ stack) (hmem : k ∈ c₁.reentered) :=
      hkept hk (hnotes.kept k (List.mem_cons_of_mem _ hk) hmem)
    rw [← List.singleton_append, ← List.append_assoc]
    refine ih ((hext.trans (extends_linked _ _ _ _ _ _)).onStack hs₁) ⟨⟨?_, ?_⟩, ?_⟩
    · exact fun k hk hmem => hcarried hk (h₁.notes.kept k hk hmem)
    · intro u k hu hknows hlead hk
      rw [Cache.Knows, slots_linked] at hknows
      by_cases hmet : u ∈ c₁.met
      · exact hcarried hk (h₁.notes.noted u k hu (hext.knows_of_met hs₁ hmet hknows) hlead hk)
      · exact hkept hk (hnotes.noted u k hmet hknows hlead (List.mem_cons_of_mem _ hk))
    · intro p hp hk
      rcases List.mem_append.mp hp with hp | hp
      · exact hcarried hk (h₁.targets p hp hk)
      · rw [List.mem_singleton.mp hp] at hk ⊢
        exact hkept hk (htarget (List.mem_cons_of_mem _ hk))

/-- Following a name takes note of every type on the stack that it meets again. -/
theorem notes_of_mayEnd (huniform : source.Uniform) {edge : Edge}
    (h : MayEnd source.supplier (r.reach fuel name) c (.ok edge) c') (hs : c.OnStack stack) :
    c.Notes source stack c' ∧ (.ofName name ∈ stack → .ofName name ∈ c'.reentered) := by
  induction fuel generalizing name c edge c' stack with
  | zero => cases (mayEnd_throw.mp h).1
  | succ fuel ih =>
    have hout (hnew : c.slots.get? (.ofName name) = none) : .ofName name ∉ stack :=
      fun hin => Cache.not_mem_met_iff.mpr hnew (hs.mem_met hin)
    cases mayEnd_step.mp h with
    | done known =>
      refine ⟨.of_slots rfl fun _ hk => hk, fun hin => ?_⟩
      exact absurd ⟨_, known⟩ (hs.not_knows hin)
    | cycle =>
      exact ⟨.of_slots rfl fun _ hk => Cache.mem_reentered_reenter.mpr (.inl hk),
        fun _ => Cache.mem_reentered_reenter.mpr (.inr rfl)⟩
    | tooDeep new => exact ⟨.of_slots rfl fun _ hk => hk, fun hin => absurd hin (hout new)⟩
    | missing new _ given =>
      refine ⟨⟨fun k hk hmem => hs.mem_filter_of_mem new hk hmem, ?_⟩, fun hin => absurd hin (hout new)⟩
      rintro u k hu ⟨v, hv⟩ hlead
      rcases Cache.done_of_settle hv with ⟨rfl, -⟩ | hv
      · exact absurd hlead (huniform.not_leads given.symm)
      · exact absurd (Cache.Knows.mem_met ⟨v, Cache.done_of_start hv⟩) hu
    | @built d others parents interfaces traits c₁ new _ given hparents hinterfaces htraits follows =>
      have hstart := (Cache.Extends.addAll _ ((ambiguity others).map d.diagnose)).onStack
        (hs.start new)
      have hbegun : Noting source stack c []
          ((c.start (.ofName name)).addAll ((ambiguity others).map d.diagnose)) := by
        refine ⟨⟨fun _ _ hk => hk, ?_⟩, by simp⟩
        rintro u k hu ⟨v, hv⟩
        exact absurd (Cache.Knows.mem_met ⟨v, Cache.done_of_start hv⟩) hu
      have hnoting := follows.noting (fun _ _ _ _ => ih) hs new hstart hbegun
      refine ⟨⟨fun k hk hmem => ?_, ?_⟩, fun hin => absurd hin (hout new)⟩
      · rw [Cache.reentered_conclude]
        exact hs.mem_filter_of_mem new hk (hnoting.notes.kept k hk hmem)
      · rintro u k hu ⟨v, hv⟩ hlead hk
        rw [Cache.reentered_conclude]
        refine hs.mem_filter_of_mem new hk ?_
        rcases Cache.done_of_conclude hv with ⟨rfl, -⟩ | hv
        · obtain ⟨p, hp, rfl⟩ := huniform.exists_of_leads given.symm
            (follows.targets_eq.trans d.map_snd_edges) hlead
          exact hnoting.targets p hp hk
        · exact hnoting.notes.noted u k hu ⟨v, hv⟩ hlead hk

/-- What holds while the edges of the type `root` are followed on an otherwise empty cache: it knows
of the types that the edges so far have come to. -/
structure Rooted (r : Resolver) (source : Source) (root : TypeKey) (targets : List String)
    (c : Cache) : Prop where
  onStack : c.OnStack [root]
  explored : c.Explored r source
  mem_met_iff : ∀ k, k ∈ c.met ↔ k = root ∨ k ∈ source.metThrough root targets
  notMem_reentered : root ∉ c.reentered

section Rooted

variable {root : TypeKey} {targets : List String} {target : String} {edge : Edge}

theorem Rooted.mem_reentered_iff (huniform : source.Uniform)
    (h : Rooted r source root targets c)
    (ends : MayEnd source.supplier (r.reach fuel target) c (.ok edge) c')
    (hexplored : c'.Explored r source) (htarget : .ofName target ∈ c'.met) :
    root ∈ c'.reentered ↔
      source.ReachesPast (source.metThrough root targets) (.ofName target) root := by
  have hext := extends_of_mayEnd ends
  have hs' := hext.onStack h.onStack
  obtain ⟨hnotes, hself⟩ := notes_of_mayEnd huniform ends h.onStack
  constructor
  · intro hmem
    have hway := ((searchedFrom_of_mayEnd ends h.onStack).reentered root hmem).resolve_left
      h.notMem_reentered
    exact hway.mono fun k hk => (h.mem_met_iff k).mpr (.inr hk)
  · -- Every type on the way is finished when the edge has been followed, up to one that leads to the
    -- root.
    intro hway
    have hreached (k : TypeKey) (hk : source.ReachesPast (source.metThrough root targets) k root) :
        k ≠ root → k ∈ c'.met → root ∈ c'.reentered := by
      induction hk using ReflTransGen.head_induction_on with
      | refl => exact fun hne => absurd rfl hne
      | @head k next hlead _ ih =>
        intro hne hmet
        have hnew : k ∉ c.met := fun hin => ((h.mem_met_iff k).mp hin).elim hne hlead.1
        have hknows := hs'.knows_of_met hmet (by simpa using hne)
        by_cases hnext : next = root
        · exact hnotes.noted k root hnew hknows (hnext ▸ hlead.2) (List.mem_singleton_self _)
        · exact ih hnext (hexplored.closed k next hknows hlead.2)
    by_cases heq : .ofName target = root
    · exact heq ▸ hself (by rw [heq]; exact List.mem_singleton_self _)
    · exact hreached _ hway heq htarget

theorem Rooted.explored_end (huniform : source.Uniform) (h : Rooted r source root targets c)
    (ends : MayEnd source.supplier (r.reach fuel target) c (.ok edge) c') (hcuts : c'.cuts = c.cuts) :
    c'.Explored r source ∧ .ofName target ∈ c'.met := by
  obtain ⟨log, hexplored⟩ := exists_log_of_mayEnd (explored_reach huniform fuel target c) ends
  obtain ⟨hto, hmem⟩ := hexplored hcuts h.explored
  exact ⟨hto.explored, hmem⟩

theorem Rooted.isSome_linked_iff (huniform : source.Uniform) (h : Rooted r source root targets c)
    (ends : MayEnd source.supplier (r.reach fuel target) c (.ok edge) c') (hcuts : c'.cuts = c.cuts)
    (relation : String) :
    ((r.linked d root relation target edge c').1.isSome = true ↔ source.Declares (.ofName target) ∧
      ¬ source.ReachesPast (source.metThrough root targets) (.ofName target) root) ∧
    ∀ t, (r.linked d root relation target edge c').1 = some t →
      c'.slots.get? (.ofName target) = some (.done (some t)) := by
  obtain ⟨hexplored, htarget⟩ := h.explored_end huniform ends hcuts
  obtain ⟨_, hcycle, hdone⟩ := exists_log_of_mayEnd (reach_edge r source fuel target c) ends
  rw [← h.mem_reentered_iff huniform ends hexplored htarget]
  by_cases hmem : root ∈ c'.reentered
  · simp [linked_of_mem hmem, hmem]
  · -- The root itself is the only type that could be met as a cycle.
    have hne : edge ≠ .cycle := by
      rintro rfl
      have heq := List.mem_singleton.mp ((h.onStack.underway_iff _).mp (hcycle rfl))
      exact hmem (heq ▸ (notes_of_mayEnd huniform ends h.onStack).2 (by simp [heq]))
    obtain ⟨v, rfl, hv⟩ := hdone hcuts hne
    rw [linked_ofResult hmem, hexplored.isSome_iff_declares huniform hv]
    exact ⟨by simp [hmem], fun t ht => ht ▸ hv⟩

theorem Rooted.link (huniform : source.Uniform) (h : Rooted r source root targets c)
    (ends : MayEnd source.supplier (r.reach fuel target) c (.ok edge) c')
    (hcuts : c'.cuts = c.cuts) (relation : String) :
    Rooted r source root (targets ++ [target]) (r.linked d root relation target edge c').2 := by
  obtain ⟨hexplored, htarget⟩ := h.explored_end huniform ends hcuts
  have hext := extends_of_mayEnd ends
  have hs' := hext.onStack h.onStack
  have hsub := hext.met_subset h.onStack
  have hroot : root ∈ c.met := h.onStack.mem_met (List.mem_singleton_self _)
  refine ⟨(extends_linked _ _ _ _ _ _).onStack hs', hexplored.of_slots slots_linked, fun k => ?_, ?_⟩
  · rw [Cache.met, slots_linked]
    constructor
    · intro hk
      rcases (searchedFrom_of_mayEnd ends h.onStack).met k hk with hk | hway
      · refine ((h.mem_met_iff k).mp hk).imp_right fun ⟨hne, target', hmem, hway⟩ => ?_
        exact ⟨hne, target', List.mem_append_left _ hmem, hway⟩
      · by_cases heq : k = root
        · exact .inl heq
        · exact .inr ⟨heq, target, by simp, hway.mono (Set.singleton_subset_iff.mpr hroot)⟩
    · rintro (rfl | ⟨hne, target', hmem, hway⟩)
      · exact hsub hroot
      rcases List.mem_append.mp hmem with hmem | hmem
      · exact hsub ((h.mem_met_iff k).mpr (.inr ⟨hne, target', hmem, hway⟩))
      · -- What the target reaches without passing the root is known of, type by type.
        rw [List.mem_singleton.mp hmem] at hway
        clear hne
        induction hway with
        | refl => exact htarget
        | @tail a k _ hlead ih =>
          exact hexplored.closed a k (hs'.knows_of_met ih (by simpa using hlead.1)) hlead.2
  · rw [reentered_linked]
    simp

/-- Each edge of the root supplies a supertype exactly if its target is declared and no way leads back
past the types that the edges before it have come to. -/
theorem Follows.supplies_iff {answers : List (String × Option ResolvedType)}
    (h : r.Follows source.supplier (r.reach fuel) d root c edges answers c')
    (huniform : source.Uniform) (h₀ : Rooted r source root targets c) (hcuts : c'.cuts = c.cuts)
    {before after : List (String × Option ResolvedType)} {v : Option ResolvedType}
    (hsplit : answers = before ++ (target, v) :: after) :
    (v.isSome = true ↔ source.Declares (.ofName target) ∧
      ¬ source.ReachesPast (source.metThrough root (targets ++ before.map Prod.fst))
        (.ofName target) root) ∧
    ∀ t, v = some t → c'.slots.get? (.ofName target) = some (.done (some t)) := by
  induction h generalizing targets before with
  | nil => simp at hsplit
  | @next c c₁ c' relation target' edge _ answers ends follows ih =>
    have hext := extends_of_mayEnd ends
    have hlinked := extends_linked (r := r) d root relation target' edge c₁
    have hrest := follows.extends fun _ _ _ _ => extends_of_mayEnd
    have hle := hext.cuts_le
    have hle₁ := hrest.cuts_le
    rw [cuts_linked] at hle₁
    have hcuts₁ : c₁.cuts = c.cuts := by omega
    cases before with
    | nil =>
      obtain ⟨hhead, -⟩ := List.cons.inj hsplit
      obtain ⟨rfl, rfl⟩ := Prod.mk.inj hhead
      obtain ⟨hiff, hdone⟩ := h₀.isSome_linked_iff (d := d) huniform ends hcuts₁ relation
      rw [List.map_nil, List.append_nil]
      exact ⟨hiff, fun t ht => (hlinked.trans hrest).done (hdone t ht)⟩
    | cons p before =>
      obtain ⟨rfl, hrestsplit⟩ := List.cons.inj hsplit
      have hlater := ih (h₀.link huniform ends hcuts₁ relation) (by rw [cuts_linked]; omega)
        hrestsplit
      rwa [List.append_assoc] at hlater

theorem rooted_start (r : Resolver) (source : Source) (root : TypeKey) (ds : Report) :
    Rooted r source root [] ((Cache.empty.start root).addAll ds) := by
  have hnew : Cache.empty.slots.get? root = none := rfl
  have hs := Cache.OnStack.empty.start hnew
  refine ⟨(Cache.Extends.addAll _ ds).onStack hs, (Cache.explored_empty.start hnew).of_slots rfl,
    fun k => Cache.mem_met_start.trans ?_, List.not_mem_nil⟩
  simp [Cache.met, Cache.empty, Source.metThrough]

end Rooted

theorem exists_follows_of_mayEnd {edge : Edge} {others : List Declaration}
    (h : MayEnd source.supplier (r.reach (fuel + 1) name) c (.ok edge) c')
    (hnew : c.slots.get? (.ofName name) = none) (hcuts : c'.cuts = c.cuts)
    (hd : source name = .ok (d :: others)) :
    ∃ parents interfaces traits c₁, parents.map Prod.fst = d.parent.toList ∧
      interfaces.map Prod.fst = d.interfaces ∧ traits.map Prod.fst = d.usedTraits ∧
      r.Follows source.supplier (r.reach fuel) d (.ofName name)
        ((c.start (.ofName name)).addAll ((ambiguity others).map d.diagnose)) d.edges
        (parents ++ interfaces ++ traits) c₁ ∧
      ∃ assembly, assembly = d.assemble r.allHooks (.ofAnswers (parents.map Prod.snd)
          (interfaces.map Prod.snd) (traits.map Prod.snd)) ∧ edge = .found assembly.type ∧
        c' = (c₁.addAll (assembly.problems.map d.diagnose)).conclude c.cuts (.ofName name)
          (some assembly.type) := by
  cases mayEnd_step.mp h with
  | done known => simp [hnew] at known
  | cycle underway => simp [hnew] at underway
  | tooDeep => simp [Cache.cutEdge] at hcuts
  | missing _ _ given => simp [Source.supplier, hd] at given
  | built _ _ given hparents hinterfaces htraits follows hassembly =>
    obtain ⟨rfl, rfl⟩ := List.cons.inj (Except.ok.inj (given.trans hd))
    exact ⟨_, _, _, _, hparents, hinterfaces, htraits, follows, _, hassembly, rfl, rfl⟩

/-- A request on an empty cache, with room for all that it reaches, builds its type from answers for
the edges of the first candidate, taken in order.  An edge is answered with a supertype, which is the
one that the cache holds for its target, exactly if the target is declared and does not reach the
requested type past the types that the edges before it have come to.  So an edge that does not reach
the requested type is answered if its target is declared, and the first edge that does reach it is
not. -/
theorem edges_leading_back (r : Resolver) (codebase : Codebase) (name : String) {d : Declaration}
    {others : List Declaration} (hd : codebase.source name = .ok (d :: others))
    (hfew : {k | codebase.source.Reaches (.ofName name) k}.encard ≤ r.settings.depthLimit) :
    ∃ parents interfaces traits : List (String × Option ResolvedType),
      parents.map Prod.fst = d.parent.toList ∧ interfaces.map Prod.fst = d.interfaces ∧
      traits.map Prod.fst = d.usedTraits ∧
      ((r.resolve name).run codebase.source).1 = .ok (some (d.assemble r.allHooks (.ofAnswers
        (parents.map Prod.snd) (interfaces.map Prod.snd) (traits.map Prod.snd))).type) ∧
      ∀ before target v after, parents ++ interfaces ++ traits = before ++ (target, v) :: after →
        let root := TypeKey.ofName name
        let goal := TypeKey.ofName target
        (v.isSome = true ↔ codebase.source.Declares goal ∧ ¬ codebase.source.ReachesPast
          (codebase.source.metThrough root (before.map Prod.fst)) goal root) ∧
        (∀ t, v = some t →
          (r.serve .empty ⟨codebase.source, name⟩).slots.get? goal = some (.done (some t))) ∧
        (¬ codebase.source.Reaches goal root →
          (v.isSome = true ↔ codebase.source.Declares goal)) ∧
        (codebase.source.Reaches goal root →
          (∀ p ∈ before, ¬ codebase.source.Reaches (.ofName p.1) root) → v = none) := by
  have huniform := Codebase.uniform_source codebase
  have htotal : ∀ asked error, codebase.source asked ≠ .error error := by simp [Codebase.source]
  generalize codebase.source = source at *
  have hcuts : (r.serve .empty ⟨source, name⟩).cuts = Cache.empty.cuts := by
    rw [serve_eq]
    exact cuts_reach_of_encard_le _ .empty hfew
  obtain ⟨v, hv⟩ := exists_answer_of_total (r := r) htotal name .empty
  obtain ⟨edge, rfl, hend⟩ := mayEnd_of_answer hv
  obtain ⟨parents, interfaces, traits, c₁, hparents, hinterfaces, htraits, follows, assembly,
    rfl, rfl, hserve⟩ := exists_follows_of_mayEnd hend rfl hcuts hd
  have hcuts₁ : c₁.cuts = Cache.empty.cuts := by
    rw [← hcuts, hserve, Cache.cuts_conclude]
    rfl
  rw [resolve_eq_answer, hv]
  refine ⟨parents, interfaces, traits, hparents, hinterfaces, htraits, rfl, ?_⟩
  intro before target v after hsplit root goal
  obtain ⟨hiff, hdone⟩ := follows.supplies_iff huniform (rooted_start r source root _) hcuts₁ hsplit
  refine ⟨hiff, fun t ht => ?_, fun hnone => ?_, fun hreach hearlier => ?_⟩
  · -- The requested type is still being worked on when all edges have been followed.
    have hs := (follows.extends fun _ _ _ _ => extends_of_mayEnd).onStack
      (rooted_start r source root _).onStack
    have hne : root ≠ goal := fun heq =>
      hs.not_knows (List.mem_singleton.mpr heq.symm) ⟨_, hdone t ht⟩
    rw [hserve, Cache.get?_conclude_of_ne hne]
    exact hdone t ht
  · exact hiff.trans (and_iff_left fun hway => hnone hway.reaches)
  · refine Option.not_isSome_iff_eq_none.mp fun hsome => (hiff.mp hsome).2 ?_
    refine (Source.reachesPast_or_exists hreach).resolve_right ?_
    rintro ⟨k, ⟨-, target', hmem, hway⟩, hback⟩
    obtain ⟨p, hp, rfl⟩ := List.mem_map.mp hmem
    exact hearlier p hp (hway.reaches.trans hback)

def sharedWayBack : Codebase :=
  .afterEdits [.put ⟨0⟩ [((Declaration.ofName .classType "R").withTrait "S").withTrait "T",
    (Declaration.ofName .traitType "S").withTrait "T",
    (Declaration.ofName .traitType "T").withTrait "R"]]

theorem first_sharedWayBack :
    sharedWayBack.source "R" =
        .ok [((Declaration.ofName .classType "R").withTrait "S").withTrait "T"] ∧
      sharedWayBack.source "S" = .ok [(Declaration.ofName .traitType "S").withTrait "T"] ∧
      sharedWayBack.source "T" = .ok [(Declaration.ofName .traitType "T").withTrait "R"] := by
  decide +kernel

theorem few_sharedWayBack :
    {k | sharedWayBack.source.Reaches (.ofName "R") k}.encard ≤ standard.settings.depthLimit := by
  have hclosed : sharedWayBack.source.ClosedOn ["R", "S", "T"] := by decide +kernel
  refine (hclosed.encard_le_length (Codebase.uniform_source _) fun k hk => ?_).trans (by decide)
  exact ⟨_, List.mem_cons_self, hk⟩

/-- Both traits reach the class, and yet the second is kept: the first has come to it before. -/
theorem edge_leading_back_kept :
    {k | sharedWayBack.source.Reaches (.ofName "R") k}.encard ≤ standard.settings.depthLimit ∧
      sharedWayBack.source.LeadsBy Declaration.usedTraits (.ofName "R") (.ofName "T") ∧
      sharedWayBack.source.Declares (.ofName "T") ∧
      sharedWayBack.source.Reaches (.ofName "T") (.ofName "R") ∧
      ∃ t, ((standard.resolve "R").run sharedWayBack.source).1 = .ok (some t) ∧
        t.traits.map (·.name) = ["T"] := by
  obtain ⟨hR, -, hT⟩ := first_sharedWayBack
  have hkept : (standard.answer .empty ⟨sharedWayBack.source, "R"⟩).toOption.join.map
      (fun t => t.traits.map (·.name)) = some ["T"] := by decide +kernel
  refine ⟨few_sharedWayBack, ⟨"R", _, _, rfl, hR, "T", by decide, rfl⟩, ⟨"T", _, _, rfl, hT⟩,
    .single (Source.leads_of_mem hT (by decide)), ?_⟩
  rw [resolve_eq_answer]
  revert hkept
  rcases standard.answer .empty ⟨sharedWayBack.source, "R"⟩ with _ | _ | t
  · exact nofun
  · exact nofun
  · exact fun hkept => ⟨t, rfl, Option.some.inj hkept⟩

/-- Of the two traits the first is dropped, since it leads back on a new way, and the second is
supplied, since it does not. -/
theorem edges_leading_back_sharedWayBack :
    ∃ t, ((standard.resolve "R").run sharedWayBack.source).1 = .ok (some (Declaration.assemble
      (((Declaration.ofName .classType "R").withTrait "S").withTrait "T") standard.allHooks
        ⟨none, [], [t]⟩).type) := by
  obtain ⟨hR, hS, hT⟩ := first_sharedWayBack
  obtain ⟨parents, interfaces, traits, hparents, hinterfaces, htraits, hresolve, hedges⟩ :=
    edges_leading_back standard sharedWayBack "R" hR few_sharedWayBack
  obtain rfl : parents = [] := List.map_eq_nil_iff.mp hparents
  obtain rfl : interfaces = [] := List.map_eq_nil_iff.mp hinterfaces
  obtain ⟨v, w, rfl⟩ : ∃ v w, traits = [("S", v), ("T", w)] := by
    have hnames : traits.map Prod.fst = ["S", "T"] := htraits
    obtain ⟨p, rest, rfl, hp, hrest⟩ := List.map_eq_cons_iff.mp hnames
    obtain ⟨q, rest, rfl, hq, hrest⟩ := List.map_eq_cons_iff.mp hrest
    obtain rfl := List.map_eq_nil_iff.mp hrest
    exact ⟨p.2, q.2, by rw [← hp, ← hq]⟩
  have hST : sharedWayBack.source.Leads (.ofName "S") (.ofName "T") :=
    Source.leads_of_mem hS (by decide)
  have hTR : sharedWayBack.source.Leads (.ofName "T") (.ofName "R") :=
    Source.leads_of_mem hT (by decide)
  obtain rfl : v = none :=
    (hedges [] "S" v [("T", w)] rfl).2.2.2 (.head hST (.single hTR)) (by simp)
  -- The second trait has been come to through the first, so that there is no new way from it.
  have hmet : .ofName "T" ∈ sharedWayBack.source.metThrough (.ofName "R") ["S"] :=
    ⟨by decide, "S", List.mem_singleton_self _, .single ⟨by decide, hST⟩⟩
  have hsome : w.isSome = true := by
    refine (hedges [("S", none)] "T" w [] rfl).1.mpr ⟨⟨"T", _, _, rfl, hT⟩, fun hway => ?_⟩
    rcases ReflTransGen.cases_head hway with heq | ⟨_, hfirst, -⟩
    · revert heq
      decide
    · exact hfirst.1 hmet
  obtain ⟨t, rfl⟩ := Option.isSome_iff_exists.mp hsome
  exact ⟨t, hresolve⟩

end Resolver

end Hierarchy
