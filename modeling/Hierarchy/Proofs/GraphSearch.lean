import Mathlib.Data.Set.Card
import Hierarchy.Proofs.CallStack
import Hierarchy.Proofs.DeclaredGraph

namespace Hierarchy

theorem Source.ClosedOn.encard_le_length {source : Source} {names : List String}
    (hclosed : source.ClosedOn names) (huniform : source.Uniform) {ks : Set TypeKey}
    (hks : ∀ k ∈ ks, ∃ start ∈ names.map TypeKey.ofName, source.Reaches start k) :
    ks.encard ≤ names.length := by
  have hsub : ks ⊆ ((names.map TypeKey.ofName).toFinset : Set TypeKey) := by
    intro k hk
    obtain ⟨start, hstart, hreach⟩ := hks k hk
    exact List.mem_toFinset.mpr (hclosed.mem_of_reaches huniform hstart hreach)
  have hcard : (names.map TypeKey.ofName).toFinset.card ≤ names.length := by
    simpa using List.toFinset_card_le (names.map TypeKey.ofName)
  refine (Set.encard_le_encard hsub).trans ?_
  rw [Set.encard_coe_eq_coe_finsetCard]
  exact Nat.cast_le.mpr hcard

namespace Resolver

open ResolveM Relation

theorem reentered_reach (r : Resolver) (source : Source) (fuel : ℕ) (name : String) (c : Cache) :
    ∀ k ∈ (exec source (r.reach fuel name) c).cache.reentered,
      k ∈ c.reentered ∨ source.Reaches (.ofName name) k := by
  induction fuel generalizing name c with
  | zero => exact fun k hk => .inl hk
  | succ fuel ih =>
    rw [exec_reach_succ]
    refine Outcome.Meets.cache (p := fun c' : Cache => ∀ k ∈ c'.reentered,
      k ∈ c.reentered ∨ source.Reaches (.ofName name) k)
      (meets_step ?done ?cycle ?tooDeep ?refused ?missing ?built)
    case done => exact fun _ _ k hk => .inl hk
    case cycle =>
      intro _ k hk
      rcases Cache.mem_reentered_reenter.mp hk with hk | rfl
      · exact .inl hk
      · exact .inr .refl
    case tooDeep => exact fun _ _ k hk => .inl hk
    case refused => exact fun _ _ _ _ k hk => .inl (List.mem_filter.mp hk).1
    case missing => exact fun _ _ _ k hk => .inl (List.mem_filter.mp hk).1
    case built =>
      intro _ _ d others hsource
      have hedges : EdgesKeep r source (r.reach fuel) d (.ofName name)
          (fun _ c' _ => ∀ k ∈ c'.reentered, k ∈ c.reentered ∨ source.Reaches (.ofName name) k)
          (fun _ c' _ => ∀ k ∈ c'.reentered, k ∈ c.reentered ∨ source.Reaches (.ofName name) k) := by
        intro relation answers target c₁ _ hpos h₁
        have hlead : source.Leads (.ofName name) (.ofName target) :=
          Source.leads_next hsource hpos
        have h₂ : ∀ k ∈ (exec source (r.reach fuel target) c₁).cache.reentered,
            k ∈ c.reentered ∨ source.Reaches (.ofName name) k := by
          intro k hk
          rcases ih target c₁ k hk with hk | hk
          · exact h₁ k hk
          · exact .inr (.head hlead hk)
        refine (Outcome.meets_of_cache h₂).imp ?_ (fun _ _ _ h => h)
        intro edge c₂ _ h₂ k hk
        rw [reentered_linked] at hk
        exact h₂ k (List.mem_filter.mp hk).1
      refine (hedges.supertypes _ ?_).imp ?_ ?_
      · exact fun k hk => .inl hk
      · rintro supers c' _ ⟨_, _, _, _, _, _, _, h'⟩ k hk
        rw [Cache.reentered_conclude] at hk
        exact h' k (List.mem_filter.mp hk).1
      · exact fun _ c' _ h' k hk => h' k (List.mem_filter.mp hk).1

variable {r : Resolver} {source : Source}

/-- No edge is cut below a type that fits on the stack together with whatever it leads to. -/
theorem cuts_reach_of_fits (fits : List TypeKey → TypeKey → Prop)
    (hroom : ∀ {stack k}, fits stack k → (k :: stack).Nodup → stack.length < r.settings.depthLimit)
    (hnext : ∀ {stack k k'}, fits stack k → source.Leads k k' → fits (k :: stack) k')
    (fuel : ℕ) (name : String) {c : Cache} {stack : List TypeKey} (hs : c.OnStack stack)
    (hfits : fits stack (.ofName name)) :
    (exec source (r.reach fuel name) c).cache.cuts = c.cuts := by
  induction fuel generalizing name c stack with
  | zero => rfl
  | succ fuel ih =>
    rw [exec_reach_succ]
    refine Outcome.Meets.cache (p := fun c' => c'.cuts = c.cuts)
      (meets_step ?done ?cycle ?tooDeep ?refused ?missing ?built)
    case done => exact fun _ _ => rfl
    case cycle => exact fun _ => rfl
    case tooDeep =>
      -- The stack would be full already, and yet the name fits on it.
      intro hnew hdeep
      have := hroom hfits (hs.start hnew).nodup
      rw [hs.depth_eq] at hdeep
      omega
    case refused => exact fun _ _ _ _ => rfl
    case missing => exact fun _ _ _ => rfl
    case built =>
      intro hnew _ d others hsource
      have hedges : EdgesKeep r source (r.reach fuel) d (.ofName name)
          (fun _ c' _ => c'.OnStack (.ofName name :: stack) ∧ c'.cuts = c.cuts)
          (fun _ c' _ => c'.cuts = c.cuts) := by
        rintro relation answers target c₁ _ hpos ⟨hs₁, h₁⟩
        have hlead : source.Leads (.ofName name) (.ofName target) :=
          Source.leads_next hsource hpos
        have hext := extends_reach r source fuel target c₁
        have h₂ := (ih target hs₁ (hnext hfits hlead)).trans h₁
        refine (Outcome.meets_of_cache (p := fun c' => c₁.Extends c' ∧ c'.cuts = c.cuts)
          ⟨hext, h₂⟩).imp ?_ (fun _ _ _ h => h.2)
        rintro edge c₂ _ ⟨hext, h₂⟩
        refine ⟨(extends_linked d _ relation target edge c₂).onStack (hext.onStack hs₁), ?_⟩
        rw [cuts_linked, h₂]
      refine (hedges.supertypes _ ⟨(Cache.Extends.addAll _ _).onStack (hs.start hnew), rfl⟩).imp
        ?_ (fun _ _ _ h => h)
      rintro supers c' _ ⟨_, _, _, _, _, _, _, -, h'⟩
      rw [Cache.cuts_conclude]
      exact h'

theorem cuts_reach_of_encard_le {name : String} (fuel : ℕ) {c : Cache} (hs : c.OnStack [])
    (hfew : {k | source.Reaches (.ofName name) k}.encard ≤ r.settings.depthLimit) :
    (exec source (r.reach fuel name) c).cache.cuts = c.cuts := by
  refine cuts_reach_of_fits (fun stack k => ∀ k' ∈ k :: stack, source.Reaches (.ofName name) k')
    ?_ ?_ fuel name hs ?_
  · intro stack k hfits hnodup
    have hsub : ((k :: stack).toFinset : Set TypeKey) ⊆ {k | source.Reaches (.ofName name) k} := by
      intro k' hk'
      exact hfits k' (List.mem_toFinset.mp hk')
    have hle := (Set.encard_le_encard hsub).trans hfew
    rw [Set.encard_coe_eq_coe_finsetCard, List.toFinset_card_of_nodup hnodup] at hle
    exact Nat.cast_le.mp hle
  · intro stack k k' hfits hlead k'' hk''
    rcases List.mem_cons.mp hk'' with rfl | hk''
    · exact (hfits k List.mem_cons_self).tail hlead
    · exact hfits k'' hk''
  · intro k' hk'
    rw [List.mem_singleton.mp hk']

end Resolver

end Hierarchy
