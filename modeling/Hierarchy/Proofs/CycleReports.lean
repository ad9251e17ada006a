import Hierarchy.Proofs.CodebaseEdits
import Hierarchy.Proofs.GraphSearch
import Hierarchy.Proofs.ReportedProblems
import Hierarchy.Proofs.Requests

namespace Hierarchy

open Relation

namespace Report

def Clean (report : Report) : Prop := ∀ g ∈ report, g.code ≠ "R0002"

theorem Clean.of_longer {report report' : Report} (h : Clean report') (hpre : report <+: report') :
    Clean report :=
  fun g hg => h g (hpre.subset hg)

theorem clean_diagnose (d : Declaration) (problems : List Problem)
    (h : ∀ p ∈ problems, p.code ≠ "R0002") : Clean (problems.map d.diagnose) := by
  intro g hg
  obtain ⟨p, hp, rfl⟩ := List.mem_map.mp hg
  exact h p hp

end Report

/-- Whether each report of a cycle names an edge of the first candidate of a type that `root` reaches,
and the target of the edge reaches that type. -/
def Report.Genuine (source : Source) (root : TypeKey) (report : Report) : Prop :=
  ∀ g ∈ report, g.code = "R0002" → ∃ d others target,
    source d.name = .ok (d :: others) ∧ source.Reaches root d.key ∧
      g = d.diagnose (.leadsBack target) ∧ target ∈ d.supertypeNames ∧
      source.Reaches (.ofName target) d.key

theorem Report.Genuine.append_clean {source : Source} {root : TypeKey} {report more : Report}
    (h : Genuine source root report) (hmore : Clean more) :
    Genuine source root (report ++ more) := by
  intro g hg hcode
  rcases List.mem_append.mp hg with hg | hg
  · exact h g hg hcode
  · exact absurd hcode (hmore g hg)

/-- Whether, as long as no cycle is reported, every path from a finished type comes to an end. -/
def Cache.Ordered (source : Source) (c : Cache) : Prop :=
  Report.Clean c.report → ∀ k, c.Knows k → Acc (fun a b => source.Leads b a) k

namespace Cache

variable {source : Source} {c c' : Cache} {key : TypeKey}

theorem ordered_empty : Cache.empty.Ordered source := by
  rintro - k ⟨v, hv⟩
  simp [Cache.empty] at hv

theorem Ordered.of_knows (h : c.Ordered source) (hreport : c.report <+: c'.report)
    (hknows : ∀ k, c'.Knows k → c.Knows k) : c'.Ordered source :=
  fun hclean k hk => h (hclean.of_longer hreport) k (hknows k hk)

theorem Ordered.start (h : c.Ordered source) (key : TypeKey) : (c.start key).Ordered source :=
  h.of_knows List.prefix_rfl fun _ ⟨v, hv⟩ => ⟨v, done_of_start hv⟩

theorem Ordered.release (h : c.Ordered source) (key : TypeKey) : (c.release key).Ordered source :=
  h.of_knows List.prefix_rfl fun _ ⟨v, hv⟩ => ⟨v, done_of_release hv⟩

theorem Ordered.addAll (h : c.Ordered source) (ds : Report) : (c.addAll ds).Ordered source :=
  h.of_knows (List.prefix_append _ _) fun _ hk => hk

theorem Ordered.settle {v : Option ResolvedType} (h : c.Ordered source)
    (hkey : Report.Clean c.report → Acc (fun a b => source.Leads b a) key) :
    (c.settle key v).Ordered source := by
  rintro hclean k ⟨w, hw⟩
  rcases done_of_settle hw with ⟨rfl, -⟩ | hw
  · exact hkey hclean
  · exact h hclean k ⟨w, hw⟩

end Cache

namespace Resolver

open ResolveM

variable {r : Resolver} {source : Source} {root : TypeKey} {name : String} {d : Declaration}
  {others : List Declaration} {stack : List TypeKey} {cuts : ℕ}
  {answers : List (String × Option ResolvedType)} {c c' : Cache}

theorem report_linked_cases (d : Declaration) (key : TypeKey) (relation target : String)
    (edge : Edge) (c : Cache) :
    (edge ≠ .cycle ∧ ∃ more, Report.Clean more ∧
        (r.linked d key relation target edge c).2.report = c.report ++ more) ∨
      ((edge = .cycle ∨ key ∈ c.reentered) ∧
        (r.linked d key relation target edge c).2.report =
          c.report ++ [d.diagnose (.leadsBack target)]) := by
  rw [report_linked]
  cases edge with
  | found t =>
    by_cases hmem : key ∈ c.reentered
    · exact .inr ⟨.inr hmem, by simp [Edge.supply, hmem]⟩
    · exact .inl ⟨by simp, [], by simp [Report.Clean], by simp [Edge.supply, hmem]⟩
  | missing =>
    refine .inl ⟨by simp, _, Report.clean_diagnose d [_] ?_, rfl⟩
    simp [Problem.code]
  | cycle => exact .inr ⟨.inl rfl, rfl⟩
  | tooDeep =>
    refine .inl ⟨by simp, _, Report.clean_diagnose d [_] ?_, rfl⟩
    simp [Problem.code]

/-- What holds while the edges of the type called `name` are followed: all reports of cycles are true,
and without one, and without a cut since there were `cuts` cuts, the targets so far are finished. -/
structure Tracing (source : Source) (root : TypeKey) (name : String) (stack : List TypeKey) (cuts : ℕ)
    (answers : List (String × Option ResolvedType)) (c : Cache) : Prop where
  onStack : c.OnStack (.ofName name :: stack)
  notMem : TypeKey.ofName name ∉ c.reentered
  cuts_le : cuts ≤ c.cuts
  genuine : Report.Genuine source root c.report
  ordered : c.Ordered source
  known : Report.Clean c.report → c.cuts = cuts → ∀ p ∈ answers, c.Knows (.ofName p.1)

theorem Tracing.link {relation target : String} {edge : Edge}
    (h : Tracing source root name stack cuts answers c)
    (hd : source d.name = .ok (d :: others)) (hkey : d.key = .ofName name)
    (hroot : source.Reaches root (.ofName name)) (htarget : target ∈ d.supertypeNames)
    (hstack : ∀ k ∈ stack, TransGen source.Leads k (.ofName name)) (hext : c.Extends c')
    (hreentered : ∀ k ∈ c'.reentered, k ∈ c.reentered ∨ source.Reaches (.ofName target) k)
    (hgenuine : Report.Genuine source root c'.report) (hordered : c'.Ordered source)
    (hcycle : edge = .cycle → c.slots.get? (.ofName target) = some .underway)
    (hedge : c'.cuts = c.cuts → edge ≠ .cycle → c'.Knows (.ofName target)) :
    Tracing source root name stack cuts
      (answers ++ [(target, (r.linked d (.ofName name) relation target edge c').1)])
      (r.linked d (.ofName name) relation target edge c').2 := by
  have hlinked := extends_linked (r := r) d (.ofName name) relation target edge c'
  have hle := h.cuts_le
  have hle' := hext.cuts_le
  refine ⟨hlinked.onStack (hext.onStack h.onStack), by simp, ?_, ?_, ?_, ?_⟩
  · rw [cuts_linked]
    omega
  · rcases report_linked_cases (r := r) d (.ofName name) relation target edge c' with
      ⟨-, more, hmore, hreport⟩ | ⟨hback, hreport⟩
    · rw [hreport]
      exact hgenuine.append_clean hmore
    · -- Both ways of leading back give a path from the target to the type itself.
      have hreach : source.Reaches (.ofName target) d.key := by
        rw [hkey]
        rcases hback with hback | hback
        · rcases List.mem_cons.mp ((h.onStack.underway_iff _).mp (hcycle hback)) with heq | hmem
          · rw [heq]
          · exact (hstack _ hmem).to_reflTransGen
        · exact (hreentered _ hback).resolve_left h.notMem
      rw [hreport]
      intro g hg hcode
      rcases List.mem_append.mp hg with hg | hg
      · exact hgenuine g hg hcode
      · exact ⟨d, others, target, hd, hkey ▸ hroot, List.mem_singleton.mp hg, htarget, hreach⟩
  · exact hordered.of_knows hlinked.report_grows (by simp [Cache.Knows])
  · intro hclean hcuts p hp
    rw [cuts_linked] at hcuts
    rcases List.mem_append.mp hp with hp | hp
    · have hclean₁ := hclean.of_longer (hext.trans hlinked).report_grows
      exact (hext.trans hlinked).knows (h.known hclean₁ (by omega) p hp)
    · -- An edge to a type being worked on would have been reported.
      have hne : edge ≠ .cycle := by
        rintro rfl
        rw [report_linked] at hclean
        exact hclean (d.diagnose (.leadsBack target)) (by simp [Edge.supply]) rfl
      rw [List.mem_singleton.mp hp]
      exact hlinked.knows (hedge (by omega) hne)

theorem Tracing.addAll {ds : Report} (h : Tracing source root name stack cuts answers c)
    (hds : Report.Clean ds) : Tracing source root name stack cuts answers (c.addAll ds) where
  onStack := (Cache.Extends.addAll c ds).onStack h.onStack
  notMem := h.notMem
  cuts_le := h.cuts_le
  genuine := h.genuine.append_clean hds
  ordered := h.ordered.addAll ds
  known hclean := h.known (hclean.of_longer (List.prefix_append _ _))

/-- Every path from a type ends if all its edges were followed to finished types. -/
theorem Tracing.acc (h : Tracing source root name stack cuts answers c)
    (huniform : source.Uniform) (hsource : source name = .ok (d :: others))
    (hanswers : answers.map Prod.fst = d.supertypeNames) (hclean : Report.Clean c.report)
    (hcuts : c.cuts = cuts) : Acc (fun a b => source.Leads b a) (.ofName name) := by
  refine Acc.intro _ fun k hk => ?_
  obtain ⟨p, hp, rfl⟩ := huniform.exists_of_leads hsource hanswers hk
  exact h.ordered hclean _ (h.known hclean hcuts p hp)

theorem Tracing.conclude (h : Tracing source root name stack cuts answers c)
    (huniform : source.Uniform) (hsource : source name = .ok (d :: others))
    (hanswers : answers.map Prod.fst = d.supertypeNames) (v : Option ResolvedType) :
    Report.Genuine source root (c.conclude cuts (.ofName name) v).report ∧
      (c.conclude cuts (.ofName name) v).Ordered source := by
  unfold Cache.conclude
  split
  · exact ⟨h.genuine, h.ordered.release _⟩
  · rename_i hcuts
    refine ⟨h.genuine, h.ordered.settle fun hclean => ?_⟩
    exact h.acc huniform hsource hanswers hclean
      (Nat.le_antisymm (Nat.le_of_not_lt hcuts) h.cuts_le)

/-- Following a name that `root` reaches adds true reports of cycles only, and keeps finished types in
order. -/
theorem ordered_reach (huniform : source.Uniform) (hkeyed : source.Keyed) (fuel : ℕ) (name : String)
    {c : Cache} (hs : c.OnStack stack) (hroot : source.Reaches root (.ofName name))
    (hstack : ∀ k ∈ stack, TransGen source.Leads k (.ofName name))
    (hgenuine : Report.Genuine source root c.report) (hordered : c.Ordered source) :
    Report.Genuine source root (exec source (r.reach fuel name) c).cache.report ∧
      (exec source (r.reach fuel name) c).cache.Ordered source := by
  -- That everything on the stack leads to the name is carried along, since it makes an edge back to the
  -- stack a cycle.
  induction fuel generalizing name c stack with
  | zero => exact ⟨hgenuine, hordered⟩
  | succ fuel ih =>
    rw [exec_reach_succ]
    refine Outcome.Meets.cache (p := fun c' => Report.Genuine source root c'.report ∧
      c'.Ordered source) (meets_step ?done ?cycle ?tooDeep ?refused ?missing ?built)
    case done => exact fun _ _ => ⟨hgenuine, hordered⟩
    case cycle => exact fun _ => ⟨hgenuine, hordered⟩
    case tooDeep => exact fun _ _ => ⟨hgenuine, hordered⟩
    case refused => exact fun _ _ _ _ => ⟨hgenuine, (hordered.start _).release _⟩
    case missing =>
      intro _ _ hsource
      refine ⟨hgenuine, (hordered.start _).settle fun _ => Acc.intro _ fun k hk => ?_⟩
      exact absurd hk (huniform.not_leads hsource)
    case built =>
      intro hnew _ d others hsource
      -- A report names the type as its declaration does, and that spelling finds the same candidates.
      have hkey : d.key = .ofName name := hkeyed name _ hsource d List.mem_cons_self
      have hd : source d.name = .ok (d :: others) := (huniform d.name name hkey).trans hsource
      have hedges : EdgesKeep r source (r.reach fuel) d (.ofName name)
          (fun answers c' _ => Tracing source root name stack c.cuts answers c')
          (fun _ c' _ => Report.Genuine source root c'.report ∧ c'.Ordered source) := by
        intro relation answers target c₁ _ hpos h₁
        have hlead := Source.leads_next hsource hpos
        have hcache := Outcome.meets_of_cache (p := fun c' => (c₁.Extends c' ∧
          ∀ k ∈ c'.reentered, k ∈ c₁.reentered ∨ source.Reaches (.ofName target) k) ∧
            Report.Genuine source root c'.report ∧ c'.Ordered source)
          ⟨⟨extends_reach r source fuel target c₁, reentered_reach r source fuel target c₁⟩,
            ih target h₁.onStack (hroot.tail hlead) (Source.forall_transGen_cons hstack hlead)
              h₁.genuine h₁.ordered⟩
        refine (hcache.and (reach_edge r source fuel target c₁)).imp ?_ (fun _ _ _ h => h.1.2)
        rintro edge c₂ _ ⟨⟨⟨hext, hreentered⟩, hgenuine₂, hordered₂⟩, hcycle, hedge⟩
        refine h₁.link hd hkey hroot (hpos.subset (by simp)) hstack hext hreentered hgenuine₂
          hordered₂ hcycle fun hcuts hne => ?_
        obtain ⟨v, -, hv⟩ := hedge hcuts hne
        exact ⟨v, hv⟩
      refine (hedges.supertypes _ ?_).imp ?_ ?_
      · refine Tracing.addAll ⟨hs.start hnew, hs.notMem_reentered hnew, Nat.le_refl _, hgenuine,
          hordered.start _, by simp⟩ ?_
        exact Report.clean_diagnose d _ fun _ hp => by simp [code_of_mem_ambiguity hp]
      · rintro supers c' _ ⟨parents, interfaces, traits, hparents, hinterfaces, htraits, rfl, h'⟩
        refine Tracing.conclude (h'.addAll ?_) huniform hsource ?_ _
        · refine Report.clean_diagnose d _ fun _ hp => ?_
          rcases Declaration.code_of_mem_assemble hp with hcode | hcode <;> simp [hcode]
        · simp [Declaration.supertypeNames, hparents, hinterfaces, htraits]
      · exact fun _ c' _ h' => ⟨h'.1, h'.2.release _⟩

theorem knows_serve_empty (htotal : ∀ asked error, source asked ≠ .error error)
    (hcuts : (exec source (r.reach (r.settings.depthLimit + 1) name) .empty).cache.cuts =
      Cache.empty.cuts) :
    (r.serve .empty ⟨source, name⟩).Knows (.ofName name) := by
  obtain ⟨v, hv⟩ := exists_answer_of_total (r := r) htotal name .empty
  exact ⟨v, done_of_answer .empty (by rw [serve_eq, hcuts]) hv⟩

/-- A request on an empty cache reports a cycle exactly if there is one to be reached, provided that
all types to be reached have room on the stack together.  With or without room, every report names an
edge of a type from whose target that type can be reached. -/
theorem cycles_reported_exactly (r : Resolver) (edits : List Codebase.Edit) (name : String) :
    let source := (Codebase.afterEdits edits).source
    let report := (r.serve .empty ⟨source, name⟩).report
    ({k | source.Reaches (.ofName name) k}.encard ≤ r.settings.depthLimit →
        (report.anyWithCode "R0002" = true ↔
          ∃ k, source.Reaches (.ofName name) k ∧ TransGen source.Leads k k)) ∧
      report.Genuine source (.ofName name) := by
  intro source report
  have huniform : source.Uniform := Codebase.uniform_source _
  have htraced := ordered_reach (r := r) huniform (Codebase.keyed_source edits)
    (r.settings.depthLimit + 1) name .empty .refl (by simp) (by simp [Report.Genuine, Cache.empty])
    Cache.ordered_empty
  have hserve := r.serve_eq .empty ⟨source, name⟩
  rw [← hserve] at htraced
  obtain ⟨hgenuine, hordered⟩ := htraced
  refine ⟨fun hfew => ⟨fun hany => ?_, ?_⟩, hgenuine⟩
  · obtain ⟨g, hg, hcode⟩ := List.any_eq_true.mp hany
    obtain ⟨d, others, target, hd, hreach, -, htarget, hback⟩ := hgenuine g hg (by simpa using hcode)
    exact ⟨d.key, hreach, TransGen.head' (Source.leads_of_mem hd htarget) hback⟩
  · rintro ⟨k, hreach, hcycle⟩
    by_contra hnone
    have hclean : report.Clean := by
      intro g hg hcode
      exact hnone (List.any_eq_true.mpr ⟨g, hg, by simpa using hcode⟩)
    -- Without a report the name itself is finished, and no path from a finished type goes on for ever.
    have hknows : (r.serve .empty ⟨source, name⟩).Knows (.ofName name) :=
      knows_serve_empty (by simp [source, Codebase.source]) (cuts_reach_of_encard_le _ .empty hfew)
    exact Source.acyclicFrom_of_acc (hordered hclean _ hknows) k hreach hcycle

def eachOther : List Codebase.Edit :=
  [.put ⟨0⟩ [(Declaration.ofName .classType "A").withParent "B",
    (Declaration.ofName .classType "B").withParent "\\a"]]

theorem cycles_reported_eachOther :
    {k | (Codebase.afterEdits eachOther).source.Reaches (.ofName "A") k}.encard ≤ 64 ∧
      (standard.serve .empty ⟨(Codebase.afterEdits eachOther).source, "A"⟩).report.anyWithCode
        "R0002" = true := by
  have huniform := Codebase.uniform_source (Codebase.afterEdits eachOther)
  have ha : (Codebase.afterEdits eachOther).source "A" =
      .ok [(Declaration.ofName .classType "A").withParent "B"] := by decide +kernel
  have hb : (Codebase.afterEdits eachOther).source "B" =
      .ok [(Declaration.ofName .classType "B").withParent "\\a"] := by decide +kernel
  have hback : TypeKey.ofName "\\a" = .ofName "A" := by decide
  have hreaches : {k | (Codebase.afterEdits eachOther).source.Reaches (.ofName "A") k} ⊆
      {.ofName "A", .ofName "B"} := by
    intro k hk
    induction hk with
    | refl => exact .inl rfl
    | tail _ hlead ih =>
      rcases ih with rfl | rfl
      · obtain ⟨target, htarget, rfl⟩ := huniform.mem_of_leads ha hlead
        rw [List.mem_singleton.mp htarget]
        exact .inr rfl
      · obtain ⟨target, htarget, rfl⟩ := huniform.mem_of_leads hb hlead
        rw [List.mem_singleton.mp htarget]
        exact .inl hback
  have hfew : {k | (Codebase.afterEdits eachOther).source.Reaches (.ofName "A") k}.encard ≤ 64 := by
    refine (Set.encard_le_encard hreaches).trans ?_
    rw [Set.encard_pair (by decide)]
    decide
  refine ⟨hfew, ((cycles_reported_exactly standard eachOther "A").1 hfew).mpr ?_⟩
  refine ⟨.ofName "A", .refl, TransGen.head (Source.leads_of_mem ha List.mem_cons_self) ?_⟩
  exact hback ▸ .single (Source.leads_of_mem hb List.mem_cons_self)

end Resolver

end Hierarchy
