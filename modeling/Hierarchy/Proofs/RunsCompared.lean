import Mathlib.Data.List.Forall2
import Hierarchy.Proofs.Requests

namespace Hierarchy

/-- What a piece of work records: what it adds to the report, and what it logs. -/
structure Record where
  report : Report
  log : List Event

instance : Append Record := ⟨fun x y => ⟨x.report ++ y.report, x.log ++ y.log⟩⟩

@[simp]
theorem Record.mk_append_mk (ds es : Report) (log log' : List Event) :
    (⟨ds, log⟩ ++ ⟨es, log'⟩ : Record) = ⟨ds ++ es, log ++ log'⟩ := rfl

/-- A way of comparing the records of two runs, piece by piece. -/
structure Comparison where
  Agree : Record → Record → Prop
  refl : ∀ x, Agree x x
  append : ∀ {x x' y y'}, Agree x x' → Agree y y' → Agree (x ++ y) (x' ++ y')

namespace Cache

/-- Whether two caches differ at most in their reports. -/
structure Alike (c c' : Cache) : Prop where
  slots_eq : c.slots = c'.slots
  reentered_eq : c.reentered = c'.reentered
  depth_eq : c.depth = c'.depth
  cuts_eq : c.cuts = c'.cuts

namespace Alike

variable {c c' : Cache}

theorem refl (c : Cache) : c.Alike c := ⟨rfl, rfl, rfl, rfl⟩

theorem start (h : c.Alike c') (key : TypeKey) : (c.start key).Alike (c'.start key) :=
  ⟨by simp only [Cache.start, h.slots_eq], h.reentered_eq, by simp only [Cache.start, h.depth_eq],
    h.cuts_eq⟩

theorem settle (h : c.Alike c') (key : TypeKey) (v : Option ResolvedType) :
    (c.settle key v).Alike (c'.settle key v) :=
  ⟨by simp only [Cache.settle, h.slots_eq], by simp only [Cache.settle, h.reentered_eq],
    by simp only [Cache.settle, h.depth_eq], h.cuts_eq⟩

theorem release (h : c.Alike c') (key : TypeKey) : (c.release key).Alike (c'.release key) :=
  ⟨by simp only [Cache.release, h.slots_eq], by simp only [Cache.release, h.reentered_eq],
    by simp only [Cache.release, h.depth_eq], h.cuts_eq⟩

theorem conclude (h : c.Alike c') (cuts : ℕ) (key : TypeKey) (v : Option ResolvedType) :
    (c.conclude cuts key v).Alike (c'.conclude cuts key v) := by
  unfold Cache.conclude
  rw [h.cuts_eq]
  split
  · exact h.release key
  · exact h.settle key v

theorem reenter (h : c.Alike c') (key : TypeKey) : (c.reenter key).Alike (c'.reenter key) :=
  ⟨h.slots_eq, by simp only [Cache.reenter, h.reentered_eq], h.depth_eq, h.cuts_eq⟩

theorem cutEdge (h : c.Alike c') : c.cutEdge.Alike c'.cutEdge :=
  ⟨h.slots_eq, h.reentered_eq, h.depth_eq, by simp only [Cache.cutEdge, h.cuts_eq]⟩

theorem addAll (h : c.Alike c') (ds ds' : Report) : (c.addAll ds).Alike (c'.addAll ds') :=
  ⟨h.slots_eq, h.reentered_eq, h.depth_eq, h.cuts_eq⟩

end Alike

end Cache

namespace Outcome

variable {α β : Type} {S : Comparison} {c c' : Cache}

/-- Whether work that began on `c` and work that began on `c'` come to the same, with caches that are
alike and records that agree. -/
structure Alike (S : Comparison) (c c' : Cache) (o o' : Outcome α) : Prop where
  result_eq : o.result = o'.result
  cache : o.cache.Alike o'.cache
  records : ∃ ds ds', o.cache.report = c.report ++ ds ∧ o'.cache.report = c'.report ++ ds' ∧
    S.Agree ⟨ds, o.log⟩ ⟨ds', o'.log⟩

theorem Alike.silent {c₁ c₁' : Cache} (h : c₁.Alike c₁') (hreport : c₁.report = c.report)
    (hreport' : c₁'.report = c'.report) (result : Except Halt α) :
    Alike S c c' ⟨result, c₁, []⟩ ⟨result, c₁', []⟩ := by
  refine ⟨rfl, h, [], [], ?_, ?_, S.refl _⟩
  · rw [hreport, List.append_nil]
  · rw [hreport', List.append_nil]

theorem Alike.prepend {o o' : Outcome α} {log log' : List Event} (h : o.Alike S c c' o')
    (hlog : S.Agree ⟨[], log⟩ ⟨[], log'⟩) :
    Alike S c c' { o with log := log ++ o.log } { o' with log := log' ++ o'.log } := by
  obtain ⟨ds, ds', hds, hds', hagree⟩ := h.records
  exact ⟨h.result_eq, h.cache, ds, ds', hds, hds', S.append hlog hagree⟩

theorem Alike.of_addAll {o o' : Outcome α} {ds ds' : Report}
    (h : Alike S (c.addAll ds) (c'.addAll ds') o o') (hds : S.Agree ⟨ds, []⟩ ⟨ds', []⟩) :
    Alike S c c' o o' := by
  obtain ⟨es, es', hes, hes', hagree⟩ := h.records
  refine ⟨h.result_eq, h.cache, ds ++ es, ds' ++ es', ?_, ?_, S.append hds hagree⟩
  · rw [hes, ← List.append_assoc]
    rfl
  · rw [hes', ← List.append_assoc]
    rfl

theorem Alike.andThen {o o' : Outcome α} {f f' : α → Cache → Outcome β} (h : Alike S c c' o o')
    (hf : ∀ a c₁ c₁', c₁.Alike c₁' → Alike S c₁ c₁' (f a c₁) (f' a c₁')) :
    Alike S c c' (o.andThen f) (o'.andThen f') := by
  obtain ⟨result, c₁, log⟩ := o
  obtain ⟨_, c₁', log'⟩ := o'
  obtain ⟨rfl, hc₁, ds, ds', hds, hds', hagree⟩ := h
  cases result with
  | error halt => exact ⟨rfl, hc₁, ds, ds', hds, hds', hagree⟩
  | ok a =>
    obtain ⟨hresult, hc₂, es, es', hes, hes', hagree'⟩ := hf a c₁ c₁' hc₁
    refine ⟨hresult, hc₂, ds ++ es, ds' ++ es', ?_, ?_, S.append hagree hagree'⟩
    · rw [← List.append_assoc, ← hds, ← hes]
      rfl
    · rw [← List.append_assoc, ← hds', ← hes']
      rfl

end Outcome

def Edge.refusal (relation target : String) (limit : ℕ) (leadsBack : Bool) (edge : Edge) :
    List Problem :=
  match edge.supply relation target limit leadsBack with
  | .ok _ => []
  | .error problem => [problem]

namespace Resolver

open ResolveM

variable {r r' : Resolver} {source source' : Source} {follow follow' : String → ResolveM Edge}
  {S : Comparison} {d d' : Declaration} {key : TypeKey} {c c' : Cache}

/-- Whether an edge from `d` and one from `d'` come to the same if they are followed from caches that
are alike, and are refused for reasons that agree. -/
structure EdgeAlike (S : Comparison) (limit : ℕ) (source source' : Source)
    (follow follow' : String → ResolveM Edge) (d d' : Declaration) (target target' : String) :
    Prop where
  follow : ∀ c c', c.Alike c' →
    (exec source (follow target) c).Alike S c c' (exec source' (follow' target') c')
  refusal : ∀ relation leadsBack (edge : Edge),
    S.Agree ⟨(edge.refusal relation target limit leadsBack).map d.diagnose, []⟩
      ⟨(edge.refusal relation target' limit leadsBack).map d'.diagnose, []⟩

/-- Whether the edges of `d` and those of `d'` are alike, one by one. -/
structure EdgesAlike (S : Comparison) (limit : ℕ) (source source' : Source)
    (follow follow' : String → ResolveM Edge) (d d' : Declaration) : Prop where
  parent : List.Forall₂ (EdgeAlike S limit source source' follow follow' d d')
    d.parent.toList d'.parent.toList
  interfaces : List.Forall₂ (EdgeAlike S limit source source' follow follow' d d')
    d.interfaces d'.interfaces
  traits : List.Forall₂ (EdgeAlike S limit source source' follow follow' d d')
    d.usedTraits d'.usedTraits

theorem EdgesAlike.same {limit : ℕ}
    (h : ∀ target ∈ d.supertypeNames, ∀ c c', c.Alike c' →
      (exec source (follow target) c).Alike S c c' (exec source' (follow' target) c')) :
    EdgesAlike S limit source source' follow follow' d d := by
  have hgroup {targets : List String} (hsub : targets ⊆ d.supertypeNames) :
      List.Forall₂ (EdgeAlike S limit source source' follow follow' d d) targets targets :=
    List.forall₂_same.mpr fun target htarget => ⟨h target (hsub htarget), fun _ _ _ => S.refl _⟩
  refine ⟨hgroup ?_, hgroup ?_, hgroup ?_⟩
  · exact List.subset_append_of_subset_left _ (List.subset_append_left _ _)
  · exact List.subset_append_of_subset_left _ (List.subset_append_right _ _)
  · exact List.subset_append_right _ _

theorem report_linked_eq_refusal {relation target : String} {edge : Edge} :
    (r.linked d key relation target edge c).2.report = c.report ++
      (edge.refusal relation target r.settings.depthLimit (decide (key ∈ c.reentered))).map
        d.diagnose := by
  rw [report_linked, Edge.refusal]
  cases edge.supply relation target r.settings.depthLimit (decide (key ∈ c.reentered)) <;> rfl

theorem alike_linked (hsettings : r.settings = r'.settings) (key : TypeKey)
    {relation target target' : String} {edge : Edge}
    (hrefusal : ∀ leadsBack,
      S.Agree ⟨(edge.refusal relation target r.settings.depthLimit leadsBack).map d.diagnose, []⟩
        ⟨(edge.refusal relation target' r.settings.depthLimit leadsBack).map d'.diagnose, []⟩)
    (h : c.Alike c') :
    Outcome.Alike S c c'
      ⟨.ok (r.linked d key relation target edge c).1, (r.linked d key relation target edge c).2, []⟩
      ⟨.ok (r'.linked d' key relation target' edge c').1,
        (r'.linked d' key relation target' edge c').2, []⟩ := by
  have hfst : (r.linked d key relation target edge c).1 =
      (r'.linked d' key relation target' edge c').1 := by
    simp only [linked, Cache.takeReentry, h.reentered_eq, hsettings]
    cases edge with
    | found t => cases decide (key ∈ c'.reentered) <;> rfl
    | missing => rfl
    | cycle => rfl
    | tooDeep => rfl
  have hcache : (r.linked d key relation target edge c).2.Alike
      (r'.linked d' key relation target' edge c').2 := by
    constructor
    · simp only [slots_linked, h.slots_eq]
    · simp only [reentered_linked, h.reentered_eq]
    · simp only [depth_linked, h.depth_eq]
    · simp only [cuts_linked, h.cuts_eq]
  refine ⟨congrArg Except.ok hfst, hcache, _, _, report_linked_eq_refusal, ?_,
    hrefusal (decide (key ∈ c.reentered))⟩
  rw [report_linked_eq_refusal, h.reentered_eq, hsettings]

theorem EdgeAlike.link {target target' : String}
    (h : EdgeAlike S r.settings.depthLimit source source' follow follow' d d' target target')
    (hsettings : r.settings = r'.settings) (key : TypeKey) (relation : String) (hc : c.Alike c') :
    (exec source (r.link follow d key relation target) c).Alike S c c'
      (exec source' (r'.link follow' d' key relation target') c') := by
  rw [exec_link_eq_linked, exec_link_eq_linked]
  exact (h.follow c c' hc).andThen fun edge c₁ c₁' hc₁ =>
    alike_linked hsettings key (fun leadsBack => h.refusal relation leadsBack edge) hc₁

theorem alike_linkAll {targets targets' : List String}
    (h : List.Forall₂ (EdgeAlike S r.settings.depthLimit source source' follow follow' d d')
      targets targets')
    (hsettings : r.settings = r'.settings) (key : TypeKey) (relation : String) (hc : c.Alike c') :
    (exec source (r.linkAll follow d key relation targets) c).Alike S c c'
      (exec source' (r'.linkAll follow' d' key relation targets') c') := by
  induction h generalizing c c' with
  | nil => exact .silent hc rfl rfl _
  | cons hedge _ ih =>
    rw [exec_linkAll_cons, exec_linkAll_cons]
    refine (hedge.link hsettings key relation hc).andThen fun t c₁ c₁' hc₁ => ?_
    exact (ih hc₁).andThen fun ts c₂ c₂' hc₂ => .silent hc₂ rfl rfl _

theorem EdgesAlike.supertypes
    (h : EdgesAlike S r.settings.depthLimit source source' follow follow' d d')
    (hsettings : r.settings = r'.settings) (key : TypeKey) (hc : c.Alike c') :
    (exec source (r.supertypes follow d key) c).Alike S c c'
      (exec source' (r'.supertypes follow' d' key) c') := by
  rw [exec_supertypes, exec_supertypes]
  exact (alike_linkAll h.parent hsettings key _ hc).andThen fun ps c₁ c₁' hc₁ =>
    (alike_linkAll h.interfaces hsettings key _ hc₁).andThen fun is c₂ c₂' hc₂ =>
      (alike_linkAll h.traits hsettings key _ hc₂).andThen fun ts c₃ c₃' hc₃ =>
        .silent hc₃ rfl rfl _

/-- Whether the types of `d` and `d'` are put together to the same effect, and what is recorded on the
way agrees. -/
def AssembleAlike (S : Comparison) (r r' : Resolver) (d d' : Declaration) : Prop :=
  ∀ supers, (d.assemble r.allHooks supers).type = (d'.assemble r'.allHooks supers).type ∧
    S.Agree ⟨(d.assemble r.allHooks supers).problems.map d.diagnose,
        (d.assemble r.allHooks supers).applications.map .applied⟩
      ⟨(d'.assemble r'.allHooks supers).problems.map d'.diagnose,
        (d'.assemble r'.allHooks supers).applications.map .applied⟩

/-- Whether the sources fail alike on two names, have no candidates for them, or have first candidates
whose edges are alike and whose types are put together alike. -/
inductive FirstAlike (S : Comparison) (r r' : Resolver) (source source' : Source)
    (follow follow' : String → ResolveM Edge) (name name' : String) : Prop
  | failed {error : SourceError} (supplied : source name = .error error)
      (supplied' : source' name' = .error error)
  | missing (supplied : source name = .ok []) (supplied' : source' name' = .ok [])
  | declared {d d' : Declaration} {others others' : List Declaration}
      (supplied : source name = .ok (d :: others)) (supplied' : source' name' = .ok (d' :: others'))
      (ambiguous : S.Agree ⟨(ambiguity others).map d.diagnose, []⟩
        ⟨(ambiguity others').map d'.diagnose, []⟩)
      (edges : EdgesAlike S r.settings.depthLimit source source' follow follow' d d')
      (assemble : AssembleAlike S r r' d d')

theorem FirstAlike.build {name name' : String}
    (h : FirstAlike S r r' source source' follow follow' name name')
    (hsettings : r.settings = r'.settings)
    (hasked : S.Agree ⟨[], [.fetched name]⟩ ⟨[], [.fetched name']⟩) (hc : c.Alike c') :
    (exec source (r.build follow name key) c).Alike S c c'
      (exec source' (r'.build follow' name' key) c') := by
  rw [exec_build, exec_build, exec_fetch, exec_fetch]
  cases h with
  | failed supplied supplied' =>
    simp only [supplied, supplied', Outcome.andThen_error]
    exact (Outcome.Alike.silent hc rfl rfl _).prepend hasked
  | missing supplied supplied' =>
    simp only [supplied, supplied', Outcome.andThen_ok]
    exact (Outcome.Alike.silent hc rfl rfl _).prepend hasked
  | declared supplied supplied' ambiguous edges assemble =>
    simp only [supplied, supplied', Outcome.andThen_ok]
    refine Outcome.Alike.prepend (.of_addAll ?_ ambiguous) hasked
    refine (edges.supertypes hsettings key (hc.addAll _ _)).andThen fun supers c₁ c₁' hc₁ => ?_
    obtain ⟨htype, hagree⟩ := assemble supers
    exact ⟨congrArg (Except.ok ∘ some) htype, hc₁.addAll _ _, _, _, rfl, rfl, hagree⟩

theorem alike_work {name name' : String} (hc : c.Alike c')
    (h : (exec source (r.build follow name key) (c.start key)).Alike S (c.start key) (c'.start key)
      (exec source' (r'.build follow' name' key) (c'.start key))) :
    (exec source (r.work follow name key) c).Alike S c c'
      (exec source' (r'.work follow' name' key) c') := by
  rw [exec_work, exec_work]
  revert h
  rcases exec source (r.build follow name key) (c.start key) with ⟨result, c₁, log⟩
  rcases exec source' (r'.build follow' name' key) (c'.start key) with ⟨_, c₁', log'⟩
  rintro ⟨rfl, hc₁, ds, ds', hds, hds', hagree⟩
  cases result with
  | error halt => exact ⟨rfl, hc₁.release key, ds, ds', hds, hds', hagree⟩
  | ok v =>
    refine ⟨rfl, ?_, ds, ds', ?_, ?_, hagree⟩
    · dsimp only
      rw [hc.cuts_eq]
      exact hc₁.conclude c'.cuts key v
    · exact (c₁.report_conclude c.cuts key v).trans hds
    · exact (c₁'.report_conclude c'.cuts key v).trans hds'

theorem alike_step {name name' : String} (hsettings : r.settings = r'.settings)
    (hkey : TypeKey.ofName name = .ofName name') (hc : c.Alike c')
    (h : (exec source (r.work follow name (.ofName name)) c).Alike S c c'
      (exec source' (r'.work follow' name' (.ofName name)) c')) :
    (exec source (r.step follow name) c).Alike S c c'
      (exec source' (r'.step follow' name') c') := by
  rw [exec_step, exec_step, ← hc.slots_eq, ← hc.depth_eq, ← hsettings, ← hkey]
  rcases c.slots.get? (.ofName name) with _ | ⟨_ | v⟩
  · dsimp only
    split
    · refine .silent hc.cutEdge ?_ ?_ _ <;> rfl
    · exact h
  · refine .silent (hc.reenter _) ?_ ?_ _ <;> rfl
  · exact .silent hc rfl rfl _

/-- Following two names of one type comes to the same if their first candidates are alike. -/
theorem FirstAlike.reach {fuel : ℕ} {name name' : String}
    (h : FirstAlike S r r' source source' (r.reach fuel) (r'.reach fuel) name name')
    (hsettings : r.settings = r'.settings) (hkey : TypeKey.ofName name = .ofName name')
    (hasked : S.Agree ⟨[], [.fetched name]⟩ ⟨[], [.fetched name']⟩) (hc : c.Alike c') :
    (exec source (r.reach (fuel + 1) name) c).Alike S c c'
      (exec source' (r'.reach (fuel + 1) name') c') := by
  rw [exec_reach_succ, exec_reach_succ]
  exact alike_step hsettings hkey hc (alike_work hc (h.build hsettings hasked (hc.start _)))

/-- Whether two sequences of requests come to the same, with caches that are alike in the end and
records that agree. -/
structure ServeAlike (S : Comparison) (r r' : Resolver) (c c' : Cache) (qs qs' : List Request) :
    Prop where
  answers_eq : r.answersOver c qs = r'.answersOver c' qs'
  cache : (qs.foldl r.serve c).Alike (qs'.foldl r'.serve c')
  records : ∃ ds ds', (qs.foldl r.serve c).report = c.report ++ ds ∧
    (qs'.foldl r'.serve c').report = c'.report ++ ds' ∧
    S.Agree ⟨ds, r.eventsOver c qs⟩ ⟨ds', r'.eventsOver c' qs'⟩

theorem serveAlike_of_reach {qs qs' : List Request}
    (hreach : List.Forall₂ (fun q q' => ∀ c c', c.Alike c' →
      (exec q.source (r.reach (r.settings.depthLimit + 1) q.name) c).Alike S c c'
        (exec q'.source (r'.reach (r'.settings.depthLimit + 1) q'.name) c')) qs qs')
    (hc : c.Alike c') : ServeAlike S r r' c c' qs qs' := by
  induction hreach generalizing c c' with
  | nil => exact ⟨rfl, hc, [], [], (List.append_nil _).symm, (List.append_nil _).symm, S.refl _⟩
  | @cons q q' qs qs' hq _ ih =>
    replace hq := hq c c' hc
    have hcache : (r.serve c q).Alike (r'.serve c' q') := by
      rw [serve_eq, serve_eq]
      exact hq.cache
    have hrest := ih hcache
    obtain ⟨ds, ds', hds, hds', hagree⟩ := hq.records
    obtain ⟨es, es', hes, hes', hagree'⟩ := hrest.records
    rw [← serve_eq] at hds hds'
    rw [← events_eq, ← events_eq] at hagree
    refine ⟨?_, hrest.cache, ds ++ es, ds' ++ es', ?_, ?_, S.append hagree hagree'⟩
    · rw [answersOver, answersOver, hrest.answers_eq, answer_eq, answer_eq, hq.result_eq]
    · rw [List.foldl_cons, hes, hds, List.append_assoc]
    · rw [List.foldl_cons, hes', hds', List.append_assoc]

end Resolver

end Hierarchy
