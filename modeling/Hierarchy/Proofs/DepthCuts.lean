import Hierarchy.Proofs.CacheHistory

namespace Hierarchy

namespace Outcome

variable {α β : Type} {cuts : ℕ}

def halt? (o : Outcome α) : Option Halt :=
  match o.result with
  | .ok _ => none
  | .error halt => some halt

/-- Whether work that began with `cuts` cuts comes to the same as other work, unless it cut an edge
itself or was stopped by the bound on the recursion. -/
structure SameUnlessCut (cuts : ℕ) (o o' : Outcome α) : Prop where
  cuts_le : cuts ≤ o.cache.cuts
  eq : o.cache.cuts = cuts → o.halt? ≠ some .exhausted → o' = o

theorem SameUnlessCut.refl {o : Outcome α} (h : cuts ≤ o.cache.cuts) : SameUnlessCut cuts o o :=
  ⟨h, fun _ _ => rfl⟩

theorem SameUnlessCut.andThen {o o' : Outcome α} {f f' : α → Cache → Outcome β}
    (h : SameUnlessCut cuts o o') (hf : ∀ a c, SameUnlessCut c.cuts (f a c) (f' a c)) :
    SameUnlessCut cuts (o.andThen f) (o'.andThen f') := by
  obtain ⟨result, c, log⟩ := o
  have hle : cuts ≤ c.cuts := h.cuts_le
  cases result with
  | error halt =>
    refine ⟨hle, fun hcuts hne => ?_⟩
    rw [h.eq hcuts hne, andThen_error, andThen_error]
  | ok a =>
    have hle' : c.cuts ≤ (f a c).cache.cuts := (hf a c).cuts_le
    refine ⟨hle.trans hle', fun hcuts hne => ?_⟩
    have hcuts' : (f a c).cache.cuts = cuts := hcuts
    have hfirst : o' = ⟨.ok a, c, log⟩ := h.eq (by simp only; omega) nofun
    rw [hfirst, andThen_ok, andThen_ok, (hf a c).eq (by omega) hne]

end Outcome

namespace Resolver

open ResolveM Relation

def withDepthLimit (r : Resolver) (limit : ℕ) : Resolver :=
  { r with settings := { r.settings with depthLimit := limit } }

section Inert

variable {r : Resolver} {source : Source} {follow follow' : String → ResolveM Edge}
  {d : Declaration} {key : TypeKey} {c : Cache} {limit : ℕ}

theorem linked_withDepthLimit {relation target : String} {edge : Edge} (h : edge ≠ .tooDeep) :
    (r.withDepthLimit limit).linked d key relation target edge c =
      r.linked d key relation target edge c := by
  cases edge with
  | tooDeep => exact absurd rfl h
  | _ => rfl

theorem notTooDeep_reach (r : Resolver) (source : Source) (levels : ℕ) (name : String) (c : Cache) :
    (exec source (r.reach levels name) c).Meets (fun edge c' _ => c'.cuts = c.cuts → edge ≠ .tooDeep)
      (fun _ _ _ => True) := by
  refine (reach_edge r source levels name c).imp ?_ (fun _ _ _ h => h)
  rintro edge c' _ ⟨-, hdone⟩ hcuts rfl
  obtain ⟨v, hv, -⟩ := hdone hcuts (by simp)
  cases v <;> cases hv

/-- Whether names are followed to the same ends unless an edge is cut on the way, as it is when a
name is found to be too deep. -/
def FollowSame (source : Source) (follow follow' : String → ResolveM Edge) : Prop :=
  ∀ target c, Outcome.SameUnlessCut c.cuts (exec source (follow target) c)
      (exec source (follow' target) c) ∧
    (exec source (follow target) c).Meets (fun edge c' _ => c'.cuts = c.cuts → edge ≠ .tooDeep)
      (fun _ _ _ => True)

theorem FollowSame.link (h : FollowSame source follow follow') (relation target : String) :
    Outcome.SameUnlessCut c.cuts (exec source (r.link follow d key relation target) c)
      (exec source ((r.withDepthLimit limit).link follow' d key relation target) c) := by
  obtain ⟨hsame, hdeep⟩ := h target c
  rw [exec_link_eq_linked, exec_link_eq_linked]
  revert hsame hdeep
  rcases exec source (follow target) c with ⟨halt | edge, c₁, log⟩
  · intro hsame _
    refine ⟨hsame.cuts_le, fun hcuts hne => ?_⟩
    rw [hsame.eq hcuts hne, Outcome.andThen_error, Outcome.andThen_error]
  · intro hsame hdeep
    refine ⟨?_, fun hcuts _ => ?_⟩
    · simpa using hsame.cuts_le
    · have hcuts' : c₁.cuts = c.cuts := by simpa using hcuts
      rw [hsame.eq hcuts' nofun, Outcome.andThen_ok, Outcome.andThen_ok,
        linked_withDepthLimit (hdeep hcuts')]

theorem FollowSame.linkAll (h : FollowSame source follow follow') (relation : String)
    (targets : List String) :
    Outcome.SameUnlessCut c.cuts (exec source (r.linkAll follow d key relation targets) c)
      (exec source ((r.withDepthLimit limit).linkAll follow' d key relation targets) c) := by
  induction targets generalizing c with
  | nil => exact .refl (Nat.le_refl _)
  | cons target rest ih =>
    rw [exec_linkAll_cons, exec_linkAll_cons]
    refine (h.link relation target).andThen fun t c₁ => ih.andThen fun ts c₂ => ?_
    exact .refl (Nat.le_refl _)

theorem FollowSame.supertypes (h : FollowSame source follow follow') :
    Outcome.SameUnlessCut c.cuts (exec source (r.supertypes follow d key) c)
      (exec source ((r.withDepthLimit limit).supertypes follow' d key) c) := by
  rw [exec_supertypes, exec_supertypes]
  refine (h.linkAll _ _).andThen fun ps c₁ => (h.linkAll _ _).andThen fun is c₂ =>
    (h.linkAll _ _).andThen fun ts c₃ => ?_
  exact .refl (Nat.le_refl _)

theorem FollowSame.build (h : FollowSame source follow follow') (name : String) :
    Outcome.SameUnlessCut c.cuts (exec source (r.build follow name key) c)
      (exec source ((r.withDepthLimit limit).build follow' name key) c) := by
  have hfetch : c.cuts ≤ (exec source (fetch name) c).cache.cuts := by
    rw [exec_fetch]
    cases source name <;> exact Nat.le_refl _
  rw [exec_build, exec_build]
  refine (Outcome.SameUnlessCut.refl hfetch).andThen fun candidates c₁ => ?_
  cases candidates with
  | nil => exact .refl (Nat.le_refl _)
  | cons d others =>
    refine .andThen (h.supertypes (c := c₁.addAll _)) fun supers c₂ => ?_
    exact .refl (Nat.le_refl _)

theorem FollowSame.work (h : FollowSame source follow follow') (name : String) :
    Outcome.SameUnlessCut c.cuts (exec source (r.work follow name key) c)
      (exec source ((r.withDepthLimit limit).work follow' name key) c) := by
  have hbuild : Outcome.SameUnlessCut c.cuts (exec source (r.build follow name key) (c.start key))
      (exec source ((r.withDepthLimit limit).build follow' name key) (c.start key)) :=
    h.build (c := c.start key) name
  rw [exec_work, exec_work]
  revert hbuild
  rcases exec source (r.build follow name key) (c.start key) with ⟨halt | v, c₁, log⟩
  · intro hbuild
    refine ⟨hbuild.cuts_le, fun hcuts hne => ?_⟩
    rw [hbuild.eq hcuts hne]
  · intro hbuild
    have hended : (if c.cuts < c₁.cuts then c₁.release key else c₁.settle key v).cuts = c₁.cuts :=
      Cache.cuts_conclude c₁ c.cuts key v
    refine ⟨?_, fun hcuts _ => ?_⟩
    · exact hbuild.cuts_le.trans_eq hended.symm
    · rw [hbuild.eq (hended.symm.trans hcuts) nofun]

theorem FollowSame.step (h : FollowSame source follow follow')
    (hlimit : r.settings.depthLimit ≤ limit) (name : String) :
    Outcome.SameUnlessCut c.cuts (exec source (r.step follow name) c)
      (exec source ((r.withDepthLimit limit).step follow' name) c) := by
  rw [exec_step, exec_step]
  rcases c.slots.get? (.ofName name) with _ | ⟨_ | v⟩
  · by_cases hfull : r.settings.depthLimit ≤ c.depth
    · simp only [if_pos hfull]
      refine ⟨Nat.le_succ _, fun hcuts => ?_⟩
      simp [Cache.cutEdge] at hcuts
    · have hroom : ¬ (r.withDepthLimit limit).settings.depthLimit ≤ c.depth :=
        fun hle => hfull (hlimit.trans hle)
      simp only [if_neg hfull, if_neg hroom]
      exact h.work name
  · exact .refl (Nat.le_refl _)
  · exact .refl (Nat.le_refl _)

/-- Following a name comes to the same under a larger limit, unless an edge is cut. -/
theorem followSame_reach (source : Source) (hlimit : r.settings.depthLimit ≤ limit)
    (levels more : ℕ) :
    FollowSame source (r.reach levels) ((r.withDepthLimit limit).reach (levels + more)) := by
  intro name c
  constructor
  · induction levels generalizing name c with
    | zero => exact ⟨Nat.le_refl _, fun _ hne => absurd rfl hne⟩
    | succ levels ih =>
      rw [Nat.add_right_comm]
      refine FollowSame.step (fun target c₁ => ⟨ih target c₁, ?_⟩) hlimit name
      exact notTooDeep_reach r source levels target c₁
  · exact notTooDeep_reach r source levels name c

theorem exec_reach_withDepthLimit (source : Source) (name : String)
    (hlimit : r.settings.depthLimit ≤ limit) (hs : c.OnStack [])
    (hcuts : (exec source (r.reach (r.settings.depthLimit + 1) name) c).cache.cuts = c.cuts) :
    exec source ((r.withDepthLimit limit).reach (limit + 1) name) c =
      exec source (r.reach (r.settings.depthLimit + 1) name) c := by
  obtain ⟨more, rfl⟩ := Nat.exists_eq_add_of_le hlimit
  obtain ⟨hsame, -⟩ := followSame_reach source hlimit (r.settings.depthLimit + 1) more name c
  rw [Nat.add_right_comm]
  refine hsame.eq hcuts ?_
  have hstop := reach_stop r source (r.settings.depthLimit + 1) name hs (Nat.zero_le _) (by simp)
  revert hstop
  rcases exec source (r.reach (r.settings.depthLimit + 1) name) c with ⟨halt | edge, c', log⟩
  · rintro ⟨_, _, -, rfl⟩
    exact nofun
  · exact fun _ => nofun

end Inert

/-- Whether a call may work on its type, which is new, and come to the result, by the changes
`during` after it has started the type. -/
def Builds (r : Resolver) (supplier : Supplier) (call : Call) (during : List Change)
    (result : Except Halt Edge) : Prop :=
  r.Alters supplier call.levels call.name call.cache (.start (.ofName call.name) :: during) result

section Kept

variable {r : Resolver} {supplier : Supplier} {c : Cache} {during changes : List Change}
  {k : TypeKey} {v : Option ResolvedType}

theorem cutEdge_mem_during {key : TypeKey} {ds ds' : Report} {cuts : ℕ} :
    .cutEdge ∈ .addAll ds :: (changes ++
        (((c.start key).addAll ds).after changes).closing ds' cuts key v) ↔
      c.cuts < (((c.start key).addAll ds).after changes).cuts := by
  have hclosing : .cutEdge ∉ (((c.start key).addAll ds).after changes).closing ds' cuts key v := by
    unfold Cache.closing
    split <;> simp
  rw [List.mem_cons, List.mem_append, or_iff_left hclosing,
    ← Cache.cuts_lt_after_iff ((c.start key).addAll ds)]
  simp only [reduceCtorEq, false_or]
  rfl

theorem Builds.kept {call : Call} {result : Except Halt Edge}
    (h : r.Builds supplier call during result) :
    (.cutEdge ∈ during → (call.cache.after (.start (.ofName call.name) :: during)).slots.get?
        (.ofName call.name) = none) ∧
      (.cutEdge ∉ during → ∀ edge, result = .ok edge → ∃ v, edge = .ofResult v ∧
        (call.cache.after (.start (.ofName call.name) :: during)).slots.get? (.ofName call.name) =
          some (.done v)) := by
  obtain ⟨levels, name, c⟩ := call
  cases levels with
  | zero => cases h.1
  | succ levels =>
    cases h with
    | refused => exact ⟨fun _ => Cache.get?_release_self _ _, fun _ _ hresult => by cases hresult⟩
    | missing =>
      refine ⟨by simp, fun _ edge hresult => ?_⟩
      cases hresult
      exact ⟨none, rfl, by simp [Cache.change, Cache.settle]⟩
    | stopped =>
      rw [Cache.after_work]
      exact ⟨fun _ => Cache.get?_release_self _ _, fun _ _ hresult => by cases hresult⟩
    | built =>
      rw [cutEdge_mem_during, Cache.after_work, Cache.after_closing]
      refine ⟨fun hcut => Cache.get?_conclude_of_lt hcut, fun hcut edge hresult => ?_⟩
      cases hresult
      exact ⟨some _, rfl, Cache.get?_conclude_self (Nat.le_of_not_lt hcut)⟩

theorem exists_builds (call : Call) {result : Except Halt Edge}
    (new : call.cache.slots.get? (.ofName call.name) = none)
    (room : call.cache.depth < r.settings.depthLimit) (hlevels : 0 < call.levels)
    (h : r.Alters supplier call.levels call.name call.cache changes result) :
    ∃ during, changes = .start (.ofName call.name) :: during ∧ r.Builds supplier call during result := by
  obtain ⟨levels, name, c⟩ := call
  obtain ⟨levels, rfl⟩ := Nat.exists_eq_add_one.mpr hlevels
  have h' := h
  cases h with
  | done known => simp [new] at known
  | cycle underway => simp [new] at underway
  | tooDeep _ full => exact absurd room (Nat.not_lt_of_le full)
  | refused | missing | stopped | built => exact ⟨_, rfl, h'⟩

/-- Whether `v` is the answer for `k` that some call within `outer` came to without a cut. -/
def Keeps (r : Resolver) (supplier : Supplier) (outer : Call) (k : TypeKey)
    (v : Option ResolvedType) : Prop :=
  ∃ call during, ReflTransGen (r.Makes supplier) outer call ∧ TypeKey.ofName call.name = k ∧
    r.Builds supplier call during (.ok (.ofResult v)) ∧ .cutEdge ∉ during

theorem Makes.keeps {outer inner : Call} (h : r.Makes supplier outer inner)
    (hinner : r.Keeps supplier inner k v) : r.Keeps supplier outer k v := by
  obtain ⟨call, during, hcall, hkept⟩ := hinner
  exact ⟨call, during, hcall.head h, hkept⟩

theorem AltersEdges.done_cases {levels : ℕ} {d : Declaration} {key : TypeKey}
    {edges : List (String × String)} {result : Except Halt (List (String × Option ResolvedType))}
    {new : TypeKey → Option ResolvedType → Prop}
    (h : r.AltersEdges (r.Alters supplier levels) d key c edges changes result)
    (hinner : ∀ before relation target after answers c₁, edges = before ++ (relation, target) :: after →
      r.Follows supplier (r.reach levels) d key c before answers c₁ →
      ∀ changes result, r.Alters supplier levels target c₁ changes result →
      ∀ k v, (c₁.after changes).slots.get? k = some (.done v) →
        c₁.slots.get? k = some (.done v) ∨ new k v)
    (hk : (c.after changes).slots.get? k = some (.done v)) :
    c.slots.get? k = some (.done v) ∨ new k v := by
  induction h with
  | nil => exact .inl hk
  | halt halts rest => exact hinner [] _ _ rest [] _ rfl (.nil _) _ _ halts _ _ hk
  | @next _ relation target _ rest _ _ _ ends _ ih =>
    have hends := (mayEnd_reach_iff r supplier levels _ _ _ _).mpr ⟨_, ends, rfl⟩
    rw [Cache.after_append, Cache.after_append, after_linkChanges] at hk
    have hrest := ih (fun before relation' target' after answers c₁ hedges hfollows =>
      hinner ((relation, target) :: before) relation' target' after _ c₁ (by rw [hedges]; rfl)
        (.next hends hfollows)) hk
    rcases hrest with hdone | hnew
    · rw [slots_linked] at hdone
      exact hinner [] _ _ rest [] _ rfl (.nil _) _ _ ends _ _ hdone
    · exact .inr hnew

/-- Every answer in the cache after a call was there before, or was kept by a call within it. -/
theorem done_cases_of_alters {levels : ℕ} {name : String} {result : Except Halt Edge}
    (h : r.Alters supplier levels name c changes result)
    (hk : (c.after changes).slots.get? k = some (.done v)) :
    c.slots.get? k = some (.done v) ∨ r.Keeps supplier ⟨levels, name, c⟩ k v := by
  induction levels generalizing name c changes result k v with
  | zero =>
    obtain ⟨rfl, -⟩ := h
    exact .inl hk
  | succ levels ih =>
    have hinner {d : Declaration} {others : List Declaration} {changes : List Change}
        {result : Except Halt (List (String × Option ResolvedType))}
        (new : c.slots.get? (.ofName name) = none) (room : c.depth < r.settings.depthLimit)
        (given : supplier name (.ok (d :: others)))
        (halters : r.AltersEdges (r.Alters supplier levels) d (.ofName name)
          ((c.start (.ofName name)).addAll ((ambiguity others).map d.diagnose)) d.edges changes
          result)
        (hk : (((c.start (.ofName name)).addAll ((ambiguity others).map d.diagnose)).after
          changes).slots.get? k = some (.done v)) :
        c.slots.get? k = some (.done v) ∨ r.Keeps supplier ⟨levels + 1, name, c⟩ k v := by
      refine (halters.done_cases ?_ hk).imp_left Cache.done_of_start
      intro before relation target after answers c₁ position follows changes₁ result₁ halters₁ k₁ v₁
        hk₁
      exact (ih halters₁ hk₁).imp_right (Makes.edge new room given position follows).keeps
    cases h with
    | done | cycle | tooDeep => exact .inl hk
    | refused => exact .inl (Cache.done_of_start (Cache.done_of_release hk))
    | missing new room given =>
      rcases Cache.done_of_settle hk with ⟨hkey, rfl⟩ | hk
      · exact .inr ⟨_, _, .refl, hkey, .missing new room given, by simp⟩
      · exact .inl (Cache.done_of_start hk)
    | stopped new room given stops =>
      rw [Cache.after_work] at hk
      exact hinner new room given stops (Cache.done_of_release hk)
    | built new room given hparents hinterfaces htraits follows hassembly =>
      rw [Cache.after_work, Cache.after_closing, Cache.conclude] at hk
      split at hk
      · exact hinner new room given follows (Cache.done_of_release hk)
      next hcut =>
        rcases Cache.done_of_settle hk with ⟨hkey, rfl⟩ | hk
        · exact .inr ⟨_, _, .refl, hkey,
            .built new room given hparents hinterfaces htraits follows hassembly,
            fun hmem => hcut (cutEdge_mem_during.mp hmem)⟩
        · exact hinner new room given follows hk

end Kept

/-- The depth limit does not show until it is met.  If a request on an empty cache cuts nothing, it
comes to the same under every larger limit, by the same questions and runs of hooks and with the same
cache afterwards.  All that a call within the request does to the cache is a sequence of changes; a type
is without an answer once work on it has ended if anything was cut in the course of that work, and
otherwise has the answer that the work came to.  Every answer in the cache in the end comes from such
work without a cut. -/
theorem limit_inert_until_met (r : Resolver) (source : Source) (name : String) :
    (∀ changes edge,
        r.Alters source.supplier (r.settings.depthLimit + 1) name .empty changes edge →
        .cutEdge ∉ changes → ∀ limit, r.settings.depthLimit ≤ limit →
        (r.withDepthLimit limit).answer .empty ⟨source, name⟩ = r.answer .empty ⟨source, name⟩ ∧
        (r.withDepthLimit limit).events .empty ⟨source, name⟩ = r.events .empty ⟨source, name⟩ ∧
        (r.withDepthLimit limit).serve .empty ⟨source, name⟩ = r.serve .empty ⟨source, name⟩) ∧
      (∀ call, ReflTransGen (r.Makes source.supplier) (r.firstCall .empty name) call →
        r.AccountedFor source.supplier call ∧
        ∀ during result, r.Builds source.supplier call during result →
        let c' := call.cache.after (.start (.ofName call.name) :: during)
        (.cutEdge ∈ during → c'.slots.get? (.ofName call.name) = none) ∧
          (.cutEdge ∉ during → ∀ edge, result = .ok edge →
            ∃ v, edge = .ofResult v ∧ c'.slots.get? (.ofName call.name) = some (.done v))) ∧
      ∀ k v, (r.serve .empty ⟨source, name⟩).slots.get? k = some (.done v) →
        ∃ call during, ReflTransGen (r.Makes source.supplier) (r.firstCall .empty name) call ∧
          TypeKey.ofName call.name = k ∧
          r.Builds source.supplier call during (.ok (.ofResult v)) ∧ .cutEdge ∉ during := by
  refine ⟨fun changes edge halters hcut limit hlimit => ?_,
    fun call _ => ⟨r.accountedFor source.supplier call, fun _ _ hbuilds => hbuilds.kept⟩,
    fun k v hk => ?_⟩
  · have hends := (mayEnd_reach_iff r source.supplier _ _ _ _ _).mpr ⟨changes, halters, rfl⟩
    obtain ⟨-, hcache⟩ := eq_exec_of_mayEnd hends
    have hle := Cache.cuts_le_after .empty changes
    rw [← Cache.cuts_lt_after_iff .empty, Nat.not_lt] at hcut
    have hsame := exec_reach_withDepthLimit source name hlimit .empty
      (hcache ▸ Nat.le_antisymm hcut hle)
    simp only [answer_eq, events_eq, serve_eq]
    exact ⟨congrArg (fun o => o.result.map Edge.type?) hsame, congrArg Outcome.log hsame,
      congrArg Outcome.cache hsame⟩
  · rw [serve_eq] at hk
    obtain ⟨changes, halters, hcache⟩ := (mayEnd_reach_iff r source.supplier _ _ _ _ _).mp
      (mayEnd_exec source.within_supplier (r.reach (r.settings.depthLimit + 1) name) .empty)
    rw [hcache] at hk
    refine (done_cases_of_alters halters hk).resolve_left ?_
    simp [Cache.empty]

def loopAndTower : Source := fun name =>
  if name = "Loop" then .ok [(Declaration.ofName .classType "Loop").withParent "Back"]
  else if name = "Back" then .ok [(Declaration.ofName .classType "Back").withParent "Loop"]
  else if name = "A" then
    .ok [((Declaration.ofName .classType "A").withParent "B").withInterface "I"]
  else if name = "B" then .ok [(Declaration.ofName .classType "B").withParent "C"]
  else .ok [.ofName .interfaceType name]

/-- Room for two types is enough for the classes that extend each other; of the others the interface
is kept, and the class is not. -/
theorem limit_inert_until_met_loopAndTower :
    let r : Resolver := ⟨⟨2, true⟩, []⟩
    (r.withDepthLimit 64).serve .empty ⟨loopAndTower, "Loop"⟩ =
        r.serve .empty ⟨loopAndTower, "Loop"⟩ ∧
      (∃ during result,
        r.Builds loopAndTower.supplier (r.firstCall .empty "A") during result ∧ .cutEdge ∈ during ∧
          (Cache.empty.after (.start (.ofName "A") :: during)).slots.get? (.ofName "A") = none) ∧
      ∃ call during v, ReflTransGen (r.Makes loopAndTower.supplier) (r.firstCall .empty "A") call ∧
        TypeKey.ofName call.name = .ofName "I" ∧
        r.Builds loopAndTower.supplier call during (.ok (.ofResult v)) ∧ .cutEdge ∉ during := by
  intro r
  have huncut : (exec loopAndTower (r.reach 3 "Loop") .empty).cache.cuts = 0 := by decide +kernel
  have hcut : 0 < (exec loopAndTower (r.reach 3 "A") .empty).cache.cuts := by decide +kernel
  have hknown : ((r.serve .empty ⟨loopAndTower, "A"⟩).resolved? "I").isSome = true := by
    decide +kernel
  obtain ⟨changes, halters, hcache⟩ := (mayEnd_reach_iff r loopAndTower.supplier 3 _ _ _ _).mp
    (mayEnd_exec loopAndTower.within_supplier (r.reach 3 "Loop") .empty)
  obtain ⟨changes', halters', hcache'⟩ := (mayEnd_reach_iff r loopAndTower.supplier 3 _ _ _ _).mp
    (mayEnd_exec loopAndTower.within_supplier (r.reach 3 "A") .empty)
  obtain ⟨during, rfl, hbuilds⟩ :=
    exists_builds (r.firstCall .empty "A") rfl (by decide) (by decide) halters'
  refine ⟨?_, ⟨during, _, hbuilds, ?_⟩, ?_⟩
  · have hnone : .cutEdge ∉ changes := by
      rw [← Cache.cuts_lt_after_iff .empty, ← hcache, huncut]
      exact Nat.not_lt_zero _
    exact ((limit_inert_until_met r loopAndTower "Loop").1 _ _ halters hnone 64 (by decide)).2.2
  · have hmem : .cutEdge ∈ during := by
      rw [hcache'] at hcut
      simpa using (Cache.cuts_lt_after_iff .empty _).mp hcut
    exact ⟨hmem, (((limit_inert_until_met r loopAndTower "A").2.1 _ .refl).2 _ _ hbuilds).1 hmem⟩
  · unfold Cache.resolved? at hknown
    split at hknown
    next v hv =>
      obtain ⟨call, during', h⟩ := (limit_inert_until_met r loopAndTower "A").2.2 _ v hv
      exact ⟨call, during', v, h⟩
    · cases hknown

end Resolver

end Hierarchy
