import Mathlib.Data.List.Forall2
import Hierarchy.Proofs.InterfaceLists
import Hierarchy.Proofs.ReportedProblems

namespace Hierarchy

open Relation ResolvedType

/-- Whether the report says why the type of `d` lacks the supertype `target`: it is unknown, it leads
back, or there are too many levels. -/
def Report.Excuses (report : Report) (d : Declaration) (limit : ℕ) (relation target : String) :
    Prop :=
  d.diagnose (.noDeclaration relation target) ∈ report ∨
    d.diagnose (.leadsBack target) ∈ report ∨ d.diagnose (.tooManyLevels limit) ∈ report

/-- Whether a type has the supertypes that `d` declares and no others, except for those that the
report excuses. -/
structure ResolvedType.Accounted (t : ResolvedType) (d : Declaration) (limit : ℕ) (report : Report) :
    Prop where
  name_eq : t.name = d.name
  parent_key : ∀ s, t.parent = some s → d.parent.map TypeKey.ofName = some s.key
  traits_keys : (keysOf t.traits).Sublist (d.usedTraits.map TypeKey.ofName)
  parent : ∀ target, d.parent = some target →
    (∃ s, t.parent = some s ∧ s.key = .ofName target) ∨
      report.Excuses d limit "parent class" target
  interface : ∀ target ∈ d.interfaces,
    .ofName target ∈ keysOf t.interfaces ∨ report.Excuses d limit "interface" target
  trait : ∀ target ∈ d.usedTraits,
    .ofName target ∈ keysOf t.traits ∨ report.Excuses d limit "trait" target

namespace Source

def Lacks (source : Source) (k : TypeKey) : Prop :=
  ∃ name, TypeKey.ofName name = k ∧ source name = .ok []

/-- Whether a type accounts for the supertypes that its first candidate declares. -/
def Accounts (source : Source) (limit : ℕ) (report : Report) (t : ResolvedType) : Prop :=
  ∃ name d others, TypeKey.ofName name = t.key ∧ source name = .ok (d :: others) ∧
    t.Accounted d limit report

/-- Whether an answer for the type is right: nothing only if the source lacks it, and otherwise a type
of that name which accounts for its supertypes, as do all types that occur in it. -/
def Explains (source : Source) (limit : ℕ) (report : Report) (k : TypeKey) :
    Option ResolvedType → Prop
  | none => source.Lacks k
  | some t => t.key = k ∧ ∀ w, ReflTransGen Links t w → source.Accounts limit report w

/-- Whether a diagnostic reports an edge of a first candidate to a type that the source lacks. -/
def Unknown (source : Source) (g : Diagnostic) : Prop :=
  ∃ name d others relation target, source name = .ok (d :: others) ∧
    (relation, target) ∈ d.edges ∧ g = d.diagnose (.noDeclaration relation target) ∧
    source.Lacks (.ofName target)

/-- Whether the answer for an edge of `d` is right, or there is none and the report says why. -/
def AnswersEdge (source : Source) (limit : ℕ) (report : Report) (d : Declaration)
    (e : String × String) (a : String × Option ResolvedType) : Prop :=
  match a.2 with
  | some t => source.Explains limit report (.ofName e.2) (some t)
  | none => report.Excuses d limit e.1 e.2

end Source

section Longer

variable {source : Source} {limit : ℕ} {report report' : Report} {d : Declaration}

theorem Report.Excuses.of_longer {relation target : String}
    (h : report.Excuses d limit relation target) (hsub : report ⊆ report') :
    report'.Excuses d limit relation target := by
  rcases h with h | h | h
  · exact .inl (hsub h)
  · exact .inr (.inl (hsub h))
  · exact .inr (.inr (hsub h))

theorem ResolvedType.Accounted.of_longer {t : ResolvedType} (h : t.Accounted d limit report)
    (hsub : report ⊆ report') : t.Accounted d limit report' where
  name_eq := h.name_eq
  parent_key := h.parent_key
  traits_keys := h.traits_keys
  parent target htarget := (h.parent target htarget).imp_right fun h => h.of_longer hsub
  interface target htarget := (h.interface target htarget).imp_right fun h => h.of_longer hsub
  trait target htarget := (h.trait target htarget).imp_right fun h => h.of_longer hsub

theorem Source.Accounts.of_longer {t : ResolvedType} (h : source.Accounts limit report t)
    (hsub : report ⊆ report') : source.Accounts limit report' t := by
  obtain ⟨name, d, others, hname, hsource, haccounted⟩ := h
  exact ⟨name, d, others, hname, hsource, haccounted.of_longer hsub⟩

theorem Source.Explains.of_longer {k : TypeKey} {v : Option ResolvedType}
    (h : source.Explains limit report k v) (hsub : report ⊆ report') :
    source.Explains limit report' k v := by
  cases v with
  | none => exact h
  | some t => exact ⟨h.1, fun w hw => (h.2 w hw).of_longer hsub⟩

theorem Source.AnswersEdge.of_longer {e : String × String} {a : String × Option ResolvedType}
    (h : source.AnswersEdge limit report d e a) (hsub : report ⊆ report') :
    source.AnswersEdge limit report' d e a := by
  unfold AnswersEdge at h ⊢
  split at h
  · exact Explains.of_longer h hsub
  · exact h.of_longer hsub

end Longer

namespace Source

variable {source : Source} {limit : ℕ} {report : Report} {d : Declaration} {relation : String}
  {targets : List String} {answers : List (String × Option ResolvedType)}

theorem keysOf_sublist
    (h : List.Forall₂ (source.AnswersEdge limit report d) (targets.map (Prod.mk relation)) answers) :
    (keysOf (answers.map Prod.snd).reduceOption).Sublist (targets.map TypeKey.ofName) := by
  rw [List.forall₂_map_left_iff] at h
  induction h with
  | nil => exact .slnil
  | @cons target a targets answers hedge _ ih =>
    obtain ⟨asked, _ | t⟩ := a
    · exact ih.cons _
    · have hkey : t.key = .ofName target := hedge.1
      simpa [keysOf, hkey] using ih

theorem mem_keysOf_or_excuses
    (h : List.Forall₂ (source.AnswersEdge limit report d) (targets.map (Prod.mk relation)) answers)
    {target : String} (htarget : target ∈ targets) :
    .ofName target ∈ keysOf (answers.map Prod.snd).reduceOption ∨
      report.Excuses d limit relation target := by
  rw [List.forall₂_map_left_iff] at h
  induction h with
  | nil => simp at htarget
  | @cons first a targets answers hedge _ ih =>
    obtain ⟨asked, _ | t⟩ := a
    · rcases List.mem_cons.mp htarget with rfl | htarget
      · exact .inr hedge
      · exact ih htarget
    · have hkey : t.key = .ofName first := hedge.1
      rcases List.mem_cons.mp htarget with rfl | htarget
      · exact .inl (by simp [keysOf, hkey])
      · refine (ih htarget).imp_left fun hmem => ?_
        simpa [keysOf] using Or.inr hmem

theorem accounts_of_mem {edges : List (String × String)}
    (h : List.Forall₂ (source.AnswersEdge limit report d) edges answers)
    {a : String × Option ResolvedType} (ha : a ∈ answers) {t w : ResolvedType} (ht : a.2 = some t)
    (hw : ReflTransGen Links t w) : source.Accounts limit report w := by
  induction h with
  | nil => simp at ha
  | @cons e first edges answers hedge _ ih =>
    rcases List.mem_cons.mp ha with rfl | ha
    · rw [AnswersEdge, ht] at hedge
      exact hedge.2 w hw
    · exact ih ha

end Source

theorem ResolvedType.Accounted.of_sameShape {t t' : ResolvedType} {d : Declaration} {limit : ℕ}
    {report : Report} (h : t.Accounted d limit report) (hshape : t.SameShape t') :
    t'.Accounted d limit report where
  name_eq := hshape.name_eq.trans h.name_eq
  parent_key := hshape.parent_eq ▸ h.parent_key
  traits_keys := hshape.traits_eq ▸ h.traits_keys
  parent := hshape.parent_eq ▸ h.parent
  interface := hshape.interfaces_eq ▸ h.interface
  trait := hshape.traits_eq ▸ h.trait

section Assembled

variable {source : Source} {limit : ℕ} {report : Report} {d : Declaration}
  {parents interfaces traits : List (String × Option ResolvedType)}

theorem Declaration.accounted_mergedType
    (hparents : List.Forall₂ (source.AnswersEdge limit report d)
      (d.parent.toList.map (Prod.mk "parent class")) parents)
    (hinterfaces : List.Forall₂ (source.AnswersEdge limit report d)
      (d.interfaces.map (Prod.mk "interface")) interfaces)
    (htraits : List.Forall₂ (source.AnswersEdge limit report d)
      (d.usedTraits.map (Prod.mk "trait")) traits) :
    (d.mergedType (.ofAnswers (parents.map Prod.snd) (interfaces.map Prod.snd)
      (traits.map Prod.snd))).Accounted d limit report where
  name_eq := rfl
  parent_key s hs := by
    have hmem : s ∈ (parents.map Prod.snd).reduceOption := List.mem_of_mem_head? hs
    have hkey := (Source.keysOf_sublist hparents).subset (List.mem_map_of_mem hmem)
    simpa [Option.map_eq_some_iff] using hkey
  traits_keys := Source.keysOf_sublist htraits
  parent target htarget := by
    refine (Source.mem_keysOf_or_excuses hparents (by simp [htarget])).imp_left fun hmem => ?_
    cases hfound : (parents.map Prod.snd).reduceOption with
    | nil => simp [hfound, keysOf] at hmem
    | cons s rest =>
      have hs : s ∈ (parents.map Prod.snd).reduceOption := by simp [hfound]
      have hkey := (Source.keysOf_sublist hparents).subset (List.mem_map_of_mem hs)
      exact ⟨s, by simp [mergedType, Supertypes.ofAnswers, hfound], by simpa [htarget] using hkey⟩
  interface target htarget := by
    refine (Source.mem_keysOf_or_excuses hinterfaces htarget).imp_left fun hmem => ?_
    obtain ⟨i, hi, hkey⟩ := List.mem_map.mp hmem
    exact mem_keysOf_gatherInterfaces.mpr (.inr ⟨i, hi, .inl hkey.symm⟩)
  trait target htarget := Source.mem_keysOf_or_excuses htraits htarget

theorem Declaration.forall₂_edges {R : String × String → String × Option ResolvedType → Prop}
    (hparents : parents.map Prod.fst = d.parent.toList)
    (hinterfaces : interfaces.map Prod.fst = d.interfaces)
    (h : List.Forall₂ R d.edges (parents ++ interfaces ++ traits)) :
    List.Forall₂ R (d.parent.toList.map (Prod.mk "parent class")) parents ∧
      List.Forall₂ R (d.interfaces.map (Prod.mk "interface")) interfaces ∧
      List.Forall₂ R (d.usedTraits.map (Prod.mk "trait")) traits := by
  have hsplit {l₁ l₂ : List (String × String)} {l₁' l₂' : List (String × Option ResolvedType)}
      (hlen : l₁.length = l₁'.length) (h : List.Forall₂ R (l₁ ++ l₂) (l₁' ++ l₂')) :
      List.Forall₂ R l₁ l₁' ∧ List.Forall₂ R l₂ l₂' := by
    constructor
    · simpa [← hlen] using List.forall₂_take_append _ _ _ h
    · simpa [← hlen] using List.forall₂_drop_append _ _ _ h
  have hlen₁ : (d.parent.toList.map (Prod.mk "parent class")).length = parents.length := by
    simpa using (congrArg List.length hparents).symm
  have hlen₂ : (d.interfaces.map (Prod.mk "interface")).length = interfaces.length := by
    simpa using (congrArg List.length hinterfaces).symm
  obtain ⟨hfirst, hthird⟩ := hsplit (by simp only [List.length_append, hlen₁, hlen₂]) h
  exact ⟨(hsplit hlen₁ hfirst).1, (hsplit hlen₁ hfirst).2, hthird⟩

theorem Resolver.explains_assemble {r : Resolver} (hkeyed : source.Keyed)
    (hhooks : ∀ hook ∈ r.hooks, hook.KeepsShape) {name : String} {others : List Declaration}
    (hsource : source name = .ok (d :: others)) (hparents : parents.map Prod.fst = d.parent.toList)
    (hinterfaces : interfaces.map Prod.fst = d.interfaces)
    (h : List.Forall₂ (source.AnswersEdge limit report d) d.edges
      (parents ++ interfaces ++ traits)) :
    source.Explains limit report (.ofName name) (some (d.assemble r.allHooks (.ofAnswers
      (parents.map Prod.snd) (interfaces.map Prod.snd) (traits.map Prod.snd))).type) := by
  obtain ⟨hps, his, hts⟩ := Declaration.forall₂_edges hparents hinterfaces h
  have hshape := d.sameShape_assemble (forall_allHooks hhooks) (.ofAnswers
    (parents.map Prod.snd) (interfaces.map Prod.snd) (traits.map Prod.snd))
  have hkey : d.key = .ofName name := hkeyed name _ hsource d List.mem_cons_self
  refine ⟨hshape.key_eq.trans hkey, fun w hw => ?_⟩
  rcases ReflTransGen.cases_head hw with rfl | ⟨s, hs, hw⟩
  · exact ⟨name, d, others, (hshape.key_eq.trans hkey).symm, hsource,
      (d.accounted_mergedType hps his hts).of_sameShape hshape⟩
  · -- What occurs below the type occurs in an answer.
    rw [hshape.links_iff] at hs
    obtain ⟨t, ht, hts⟩ := Declaration.exists_answer_of_links hs
    rw [← List.map_append, ← List.map_append] at ht
    obtain ⟨a, ha, hat⟩ := List.mem_map.mp ht
    exact Source.accounts_of_mem h ha hat (hts.trans hw)

end Assembled

namespace Cache

variable {source : Source} {limit : ℕ} {c c' : Cache} {key : TypeKey} {v : Option ResolvedType}

/-- Whether all answers that the cache holds are right, and whatever is reported as unknown is so. -/
structure Explained (c : Cache) (source : Source) (limit : ℕ) : Prop where
  done : ∀ k v, c.slots.get? k = some (.done v) → source.Explains limit c.report k v
  unknown : ∀ g ∈ c.report, g.code = "R0001" → source.Unknown g

theorem explained_empty : Cache.empty.Explained source limit where
  done k v h := by simp [Cache.empty] at h
  unknown g h := by simp [Cache.empty] at h

theorem Explained.of_done (h : c.Explained source limit) {more : Report}
    (hdone : ∀ k v, c'.slots.get? k = some (.done v) → c.slots.get? k = some (.done v))
    (hreport : c'.report = c.report ++ more)
    (hmore : ∀ g ∈ more, g.code = "R0001" → source.Unknown g) : c'.Explained source limit where
  done k v hv := by
    rw [hreport]
    exact (h.done k v (hdone k v hv)).of_longer (List.subset_append_left _ _)
  unknown g hg hcode := by
    rw [hreport] at hg
    rcases List.mem_append.mp hg with hg | hg
    · exact h.unknown g hg hcode
    · exact hmore g hg hcode

theorem Explained.start (h : c.Explained source limit) (key : TypeKey) :
    (c.start key).Explained source limit :=
  h.of_done (fun _ _ => done_of_start) (List.append_nil _).symm (by simp)

theorem Explained.release (h : c.Explained source limit) (key : TypeKey) :
    (c.release key).Explained source limit :=
  h.of_done (fun _ _ => done_of_release) (List.append_nil _).symm (by simp)

theorem Explained.addAll (h : c.Explained source limit) (d : Declaration) {problems : List Problem}
    (hproblems : ∀ p ∈ problems, p.code ≠ "R0001") :
    (c.addAll (problems.map d.diagnose)).Explained source limit := by
  refine h.of_done (fun _ _ hv => hv) rfl fun g hg hcode => ?_
  obtain ⟨p, hp, rfl⟩ := List.mem_map.mp hg
  exact absurd hcode (hproblems p hp)

theorem Explained.settle (h : c.Explained source limit)
    (hv : source.Explains limit c.report key v) : (c.settle key v).Explained source limit where
  done k w hw := by
    rcases done_of_settle hw with ⟨rfl, rfl⟩ | hw
    · exact hv
    · exact h.done k w hw
  unknown := h.unknown

theorem Explained.conclude (h : c.Explained source limit) (cuts : ℕ)
    (hv : source.Explains limit c.report key v) :
    (c.conclude cuts key v).Explained source limit := by
  unfold Cache.conclude
  split
  · exact h.release key
  · exact h.settle hv

end Cache

theorem Edge.eq_missing_of_supply {edge : Edge} {relation target : String} {limit : ℕ}
    {leadsBack : Bool} {problem : Problem}
    (h : edge.supply relation target limit leadsBack = .error problem)
    (hcode : problem.code = "R0001") :
    edge = .missing ∧ problem = .noDeclaration relation target := by
  cases edge <;> grind [Edge.supply, Problem.code]

namespace Resolver

open ResolveM

variable {r : Resolver} {source : Source} {c c' : Cache} {d : Declaration}
  {key : TypeKey} {name relation target : String} {others : List Declaration} {edge : Edge}

theorem excuses_of_linked (h : (r.linked d key relation target edge c).1 = none) :
    (r.linked d key relation target edge c).2.report.Excuses d r.settings.depthLimit relation
      target := by
  rw [report_linked]
  unfold Report.Excuses
  cases edge with
  | found t =>
    by_cases hback : key ∈ c.reentered
    · simp [Edge.supply, hback]
    · simp [linked, Cache.takeReentry, Edge.supply, hback] at h
  | missing => simp [Edge.supply]
  | cycle => simp [Edge.supply]
  | tooDeep => simp [Edge.supply]

theorem answersEdge_linked
    (h : ∀ v, edge = .ofResult v →
      source.Explains r.settings.depthLimit c.report (.ofName target) v) :
    source.AnswersEdge r.settings.depthLimit (r.linked d key relation target edge c).2.report d
      (relation, target) (target, (r.linked d key relation target edge c).1) := by
  cases hv : (r.linked d key relation target edge c).1 with
  | none => exact excuses_of_linked hv
  | some t =>
    have ht := h (some t) (eq_found_of_linked hv)
    have hgrows := (extends_linked (r := r) d key relation target edge c).report_grows
    exact Source.Explains.of_longer ht hgrows.subset

theorem explained_linked (key : TypeKey) (hc : c.Explained source r.settings.depthLimit)
    (hsource : source name = .ok (d :: others)) (hedge : (relation, target) ∈ d.edges)
    (h : ∀ v, edge = .ofResult v →
      source.Explains r.settings.depthLimit c.report (.ofName target) v) :
    (r.linked d key relation target edge c).2.Explained source r.settings.depthLimit := by
  refine hc.of_done (by simp) report_linked fun g hg hcode => ?_
  cases hsupply : edge.supply relation target r.settings.depthLimit
      (decide (key ∈ c.reentered)) with
  | ok t => simp [hsupply] at hg
  | error problem =>
    rw [hsupply] at hg
    obtain rfl := List.mem_singleton.mp hg
    obtain ⟨rfl, rfl⟩ := Edge.eq_missing_of_supply hsupply hcode
    exact ⟨name, d, others, relation, target, hsource, hedge, rfl, h none rfl⟩

theorem Follows.explained {fuel : ℕ} {edges : List (String × String)}
    {answers : List (String × Option ResolvedType)}
    (h : r.Follows source.supplier (r.reach fuel) d key c edges answers c')
    (hfollow : ∀ {target c result c'}, c.Explained source r.settings.depthLimit →
      MayEnd source.supplier (r.reach fuel target) c result c' →
        c'.Explained source r.settings.depthLimit ∧ ∀ v, result = .ok (.ofResult v) →
          source.Explains r.settings.depthLimit c'.report (.ofName target) v)
    (hsource : source name = .ok (d :: others)) (hedges : edges ⊆ d.edges)
    (hc : c.Explained source r.settings.depthLimit) :
    c'.Explained source r.settings.depthLimit ∧
      List.Forall₂ (source.AnswersEdge r.settings.depthLimit c'.report d) edges answers := by
  induction h with
  | nil => exact ⟨hc, .nil⟩
  | @next c c₁ c' relation target edge rest answers ends follows ih =>
    obtain ⟨hc₁, hfound⟩ := hfollow hc ends
    have hedge (v : Option ResolvedType) (hv : edge = .ofResult v) := hfound v (congrArg _ hv)
    have hlinked := explained_linked key hc₁ hsource (hedges List.mem_cons_self) hedge
    obtain ⟨hc', hrest⟩ := ih (List.subset_of_cons_subset hedges) hlinked
    have hgrows := (follows.extends fun _ _ _ _ => extends_of_mayEnd).report_grows
    exact ⟨hc', .cons ((answersEdge_linked hedge).of_longer hgrows.subset) hrest⟩

/-- Following a name keeps the cache accounted for, and the end of the edge is right. -/
theorem explained_of_mayEnd (hkeyed : source.Keyed) (hhooks : ∀ hook ∈ r.hooks, hook.KeepsShape)
    {fuel : ℕ} {result : Except Halt Edge} (hc : c.Explained source r.settings.depthLimit)
    (h : MayEnd source.supplier (r.reach fuel name) c result c') :
    c'.Explained source r.settings.depthLimit ∧ ∀ v, result = .ok (.ofResult v) →
      source.Explains r.settings.depthLimit c'.report (.ofName name) v := by
  -- Edges are followed once the type has been begun and its further candidates have been reported, so
  -- the invariant has to survive that first.
  induction fuel generalizing name c result c' with
  | zero =>
    obtain ⟨rfl, rfl⟩ := mayEnd_throw.mp h
    exact ⟨hc, by simp⟩
  | succ fuel ih =>
    have hbegun (d : Declaration) (others : List Declaration) :
        ((c.start (.ofName name)).addAll ((ambiguity others).map d.diagnose)).Explained source
          r.settings.depthLimit :=
      (hc.start _).addAll d fun p hp => by simp [code_of_mem_ambiguity hp]
    cases mayEnd_step.mp h with
    | @done v known =>
      refine ⟨hc, fun w hw => ?_⟩
      obtain rfl : v = w := Edge.ofResult_injective (Except.ok.inj hw)
      exact hc.done _ v known
    | cycle =>
      refine ⟨hc.of_done (fun _ _ h => h) (List.append_nil _).symm (by simp), fun v hv => ?_⟩
      cases v <;> cases hv
    | tooDeep =>
      refine ⟨hc.of_done (fun _ _ h => h) (List.append_nil _).symm (by simp), fun v hv => ?_⟩
      cases v <;> cases hv
    | refused => exact ⟨(hc.start _).release _, by simp⟩
    | missing _ _ given =>
      have hlacks : source.Lacks (.ofName name) := ⟨name, rfl, given.symm⟩
      refine ⟨(hc.start _).settle hlacks, fun v hv => ?_⟩
      obtain rfl : none = v := Edge.ofResult_injective (Except.ok.inj hv)
      exact hlacks
    | @stopped d others halt c₁ _ _ given stops =>
      obtain ⟨before, _, _, after, _, _, hedges, follows, halts⟩ := stops.exists_halt
      have hsub : before ⊆ d.edges := hedges ▸ List.subset_append_left _ _
      have hbefore := (follows.explained ih given.symm hsub (hbegun d others)).1
      exact ⟨(ih hbefore halts).1.release _, by simp⟩
    | @built d others _ _ _ c₁ _ _ given hparents hinterfaces _ follows assembly hassembly =>
      obtain ⟨hc₁, hanswers⟩ :=
        follows.explained ih given.symm (List.Subset.refl _) (hbegun d others)
      have hadded : (c₁.addAll (assembly.problems.map d.diagnose)).Explained source
          r.settings.depthLimit := by
        refine hc₁.addAll d fun p hp => ?_
        rcases Declaration.code_of_mem_assemble (hassembly ▸ hp) with hcode | hcode <;> simp [hcode]
      have htype := explains_assemble hkeyed hhooks given.symm hparents hinterfaces hanswers
      rw [← hassembly] at htype
      have htype' := htype.of_longer
        (List.subset_append_left c₁.report (assembly.problems.map d.diagnose))
      refine ⟨hadded.conclude _ htype', fun v hv => ?_⟩
      obtain rfl : some assembly.type = v := Edge.ofResult_injective (Except.ok.inj hv)
      rw [Cache.report_conclude]
      exact htype'

theorem explained_request (hkeyed : source.Keyed) (hhooks : ∀ hook ∈ r.hooks, hook.KeepsShape)
    (hc : c.Explained source r.settings.depthLimit) (name : String) :
    (r.serve c ⟨source, name⟩).Explained source r.settings.depthLimit ∧
      ∀ t, r.answer c ⟨source, name⟩ = .ok (some t) →
        source.Explains r.settings.depthLimit (r.serve c ⟨source, name⟩).report (.ofName name)
          (some t) := by
  have hend := mayEnd_exec source.within_supplier (r.reach (r.settings.depthLimit + 1) name) c
  obtain ⟨hserve, hfound⟩ := explained_of_mayEnd hkeyed hhooks hc hend
  rw [serve_eq]
  refine ⟨hserve, fun t ht => hfound (some t) ?_⟩
  rw [answer_eq] at ht
  cases hresult : (exec source (r.reach (r.settings.depthLimit + 1) name) c).result with
  | error halt => simp [hresult, Except.map] at ht
  | ok edge =>
    rw [hresult] at ht
    exact congrArg Except.ok (Edge.type?_eq_some_iff.mp (Except.ok.inj ht))

theorem explained_cacheAfter (hkeyed : source.Keyed) (hhooks : ∀ hook ∈ r.hooks, hook.KeepsShape)
    (names : List String) : (r.cacheAfter (names.map (Request.mk source))).Explained source
      r.settings.depthLimit := by
  refine cacheAfter_induct (p := fun c => c.Explained source r.settings.depthLimit) _
    Cache.explained_empty fun c q hq hc => ?_
  obtain ⟨name, -, rfl⟩ := List.mem_map.mp hq
  exact (explained_request hkeyed hhooks hc name).1

/-- Whether one of the requests for `names` on an empty cache ends in the type, or the cache holds it
afterwards. -/
def Gives (r : Resolver) (source : Source) (names : List String) (t : ResolvedType) : Prop :=
  (∃ before name later, names = before ++ name :: later ∧
    r.answer (r.cacheAfter (before.map (Request.mk source))) ⟨source, name⟩ = .ok (some t)) ∨
  ∃ k, (r.cacheAfter (names.map (Request.mk source))).slots.get? k = some (.done (some t))

/-- A type that requests end in or leave in the cache lacks no declared supertype without a reason in
the report, and neither does any type that occurs in it.  What the report calls unknown has no
candidates. -/
theorem dropped_edges_reported (r : Resolver) (source : Source) (hkeyed : source.Keyed)
    (hhooks : ∀ hook ∈ r.hooks, hook.KeepsShape) (names : List String) :
    let report := (r.cacheAfter (names.map (Request.mk source))).report
    (∀ t, r.Gives source names t → ∀ w, ReflTransGen Links t w →
        source.Accounts r.settings.depthLimit report w) ∧
      ∀ g ∈ report, g.code = "R0001" → ∃ name d others relation target,
        source name = .ok (d :: others) ∧ (relation, target) ∈ d.edges ∧
          g = d.diagnose (.noDeclaration relation target) ∧ source.Lacks (.ofName target) ∧
          (source.Uniform → source target = .ok []) := by
  intro report
  have hcache := explained_cacheAfter hkeyed hhooks names
  refine ⟨fun t ht w hw => ?_, fun g hg hcode => ?_⟩
  · rcases ht with ⟨before, name, later, rfl, hanswer⟩ | ⟨k, hk⟩
    · have hbefore := explained_cacheAfter hkeyed hhooks before
      have haccounts := ((explained_request hkeyed hhooks hbefore name).2 t hanswer).2 w hw
      -- Later requests only add to the report.
      refine haccounts.of_longer (List.IsPrefix.subset ?_)
      have hext := extends_foldl_serve (r := r)
        (r.serve (r.cacheAfter (before.map (Request.mk source))) ⟨source, name⟩)
        (later.map (Request.mk source))
      simpa [report, cacheAfter] using hext.report_grows
    · exact (hcache.done k _ hk).2 w hw
  · obtain ⟨name, d, others, relation, target, hsource, hedge, rfl, hlacks⟩ :=
      hcache.unknown g hg hcode
    refine ⟨name, d, others, relation, target, hsource, hedge, rfl, hlacks, fun huniform => ?_⟩
    obtain ⟨spelling, heq, hnone⟩ := hlacks
    exact (huniform target spelling heq.symm).trans hnone

def clipped : List Codebase.Edit :=
  [.put ⟨0⟩ [(((Declaration.ofName .classType "A").withParent "B").withInterface "Gone").withTrait
      "a",
    (Declaration.ofName .classType "B").withParent "C", .ofName .classType "C"]]

/-- With room for two types the parent's parent is cut off. -/
theorem dropped_edges_reported_clipped :
    let r : Resolver := ⟨⟨2, false⟩, [.docTags]⟩
    let source := (Codebase.afterEdits clipped).source
    let report := (r.cacheAfter [⟨source, "A"⟩]).report
    ∃ t, r.answer .empty ⟨source, "A"⟩ = .ok (some t) ∧ t.traits.length = 0 ∧
      (report.map fun g => (g.subject, g.code)) = [("B", "R0005"), ("A", "R0001"), ("A", "R0002")] ∧
      ∀ w, ReflTransGen Links t w → source.Accounts 2 report w := by
  intro r source report
  have hcodes : (report.map fun g => (g.subject, g.code)) =
      [("B", "R0005"), ("A", "R0001"), ("A", "R0002")] := by decide +kernel
  have htraits : ((r.answer .empty ⟨source, "A"⟩).toOption.join.map fun t => t.traits.length) =
      some 0 := by decide +kernel
  have hhooks : ∀ hook ∈ r.hooks, hook.KeepsShape := by simp [r, Hook.keepsShape_docTags]
  have hreported := (dropped_edges_reported r source (Codebase.keyed_source _) hhooks ["A"]).1
  rcases hanswer : r.answer .empty ⟨source, "A"⟩ with halt | _ | t
  · simp [hanswer, Except.toOption] at htraits
  · simp [hanswer, Except.toOption] at htraits
  · refine ⟨t, rfl, by simpa [hanswer, Except.toOption] using htraits, hcodes, ?_⟩
    exact hreported t (.inl ⟨[], "A", [], rfl, hanswer⟩)

end Resolver

end Hierarchy
