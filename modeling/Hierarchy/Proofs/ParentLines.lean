import Mathlib.Data.Nat.SuccPred
import Mathlib.Order.SuccPred.Archimedean
import Hierarchy.Proofs.AssembledTypes
import Hierarchy.Proofs.CodebaseEdits
import Hierarchy.Proofs.Requests

namespace Hierarchy

namespace Codebase

def first? (c : Codebase) (name : String) : Option Declaration := (c.candidatesFor name).head?

def line (c : Codebase) (name : String) : ℕ → Option String
  | 0 => some name
  | place + 1 => (c.line name place).bind fun child => (c.first? child).bind fun d => d.parent

def lineKey (c : Codebase) (name : String) (place : ℕ) : Option TypeKey :=
  (c.line name place).map .ofName

def titleAt (c : Codebase) (name : String) (place : ℕ) : Option String :=
  ((c.line name place).bind c.first?).map fun d => d.name

/-- Whether the types up to a place of the line are all declared and no two of them are the same. -/
structure StraightTo (c : Codebase) (name : String) (place : ℕ) : Prop where
  declared : ∀ i ≤ place, ((c.line name i).bind c.first?).isSome = true
  distinct : Set.InjOn (c.lineKey name) (Set.Iic place)

/-- Whether the type behind the last place of the line is the one at place `i`. -/
def LoopsTo (c : Codebase) (name : String) (last i : ℕ) : Prop :=
  i ≤ last ∧ c.lineKey name (last + 1) = c.lineKey name i

variable {c : Codebase} {name asked : String} {d : Declaration} {last i : ℕ}

theorem candidatesFor_of_first? (h : c.first? asked = some d) :
    ∃ others, c.candidatesFor asked = d :: others :=
  List.head?_eq_some_iff.mp h

theorem StraightTo.exists_first (h : c.StraightTo name last) (hi : i ≤ last) :
    ∃ asked d, c.line name i = some asked ∧ c.first? asked = some d := by
  obtain ⟨d, hd⟩ := Option.isSome_iff_exists.mp (h.declared i hi)
  obtain ⟨asked, hasked, hfirst⟩ := Option.bind_eq_some_iff.mp hd
  exact ⟨asked, d, hasked, hfirst⟩

theorem StraightTo.zero (h : c.candidatesFor name ≠ []) : c.StraightTo name 0 where
  declared := by
    intro i hi
    rw [Nat.le_zero.mp hi]
    simpa [line, first?] using h
  distinct := by simp [Set.Iic, Set.InjOn]

theorem StraightTo.succ (h : c.StraightTo name last) (hline : c.line name (last + 1) = some asked)
    (hfirst : c.first? asked = some d) (hnew : ∀ i, ¬ c.LoopsTo name last i) :
    c.StraightTo name (last + 1) where
  declared := by
    intro i hi
    rcases Nat.le_succ_iff.mp hi with hi | rfl
    · exact h.declared i hi
    · simp [hline, hfirst]
  distinct := by
    intro i hi j hj heq
    rcases Nat.le_succ_iff.mp hi with hi' | rfl
    · rcases Nat.le_succ_iff.mp hj with hj' | rfl
      · exact h.distinct hi' hj' heq
      · exact absurd ⟨hi', heq.symm⟩ (hnew i)
    · rcases Nat.le_succ_iff.mp hj with hj' | rfl
      · exact absurd ⟨hj', heq⟩ (hnew j)
      · rfl

theorem StraightTo.not_loopsTo_of_line (h : c.StraightTo name last)
    (hline : c.line name (last + 1) = none) (i : ℕ) : ¬ c.LoopsTo name last i := by
  intro hi
  obtain ⟨asked, _, hasked, -⟩ := h.exists_first hi.1
  have hback := hi.2
  simp [lineKey, hline, hasked] at hback

end Codebase

open Codebase

variable {codebase : Codebase} {name asked : String} {last place : ℕ}

/-- Whether the types being worked on are those before a place of the line, and nothing has been found
out or run into yet. -/
structure Cache.OnWay (c : Cache) (codebase : Codebase) (name : String) (place : ℕ) : Prop where
  onStack : ∃ stack, c.OnStack stack ∧ stack.length = place ∧
    ∀ k, k ∈ stack ↔ ∃ i < place, codebase.lineKey name i = some k
  unknown : ∀ k, ¬ c.Knows k
  reentered_eq : c.reentered = []

namespace Cache.OnWay

variable {c : Cache} {k : TypeKey}

theorem empty : Cache.empty.OnWay codebase name 0 where
  onStack := ⟨[], .empty, rfl, by simp⟩
  unknown k := by simp [Cache.Knows, Cache.empty]
  reentered_eq := rfl

theorem depth_eq (h : c.OnWay codebase name place) : c.depth = place := by
  obtain ⟨stack, hs, rfl, -⟩ := h.onStack
  exact hs.depth_eq

theorem underway (h : c.OnWay codebase name place) {i : ℕ} (hi : i < place)
    (hkey : codebase.lineKey name i = some k) : c.slots.get? k = some .underway := by
  obtain ⟨stack, hs, -, hmem⟩ := h.onStack
  exact (hs.underway_iff k).mpr ((hmem k).mpr ⟨i, hi, hkey⟩)

theorem new (h : c.OnWay codebase name place)
    (hnew : ∀ i < place, codebase.lineKey name i ≠ some k) : c.slots.get? k = none := by
  obtain ⟨stack, hs, -, hmem⟩ := h.onStack
  rcases hslot : c.slots.get? k with _ | _ | v
  · rfl
  · obtain ⟨i, hi, hkey⟩ := (hmem k).mp ((hs.underway_iff k).mp hslot)
    exact absurd hkey (hnew i hi)
  · exact absurd ⟨v, hslot⟩ (h.unknown k)

theorem start (h : c.OnWay codebase name place) (hkey : codebase.lineKey name place = some k)
    (hnew : c.slots.get? k = none) (ds : Report) :
    ((c.start k).addAll ds).OnWay codebase name (place + 1) where
  onStack := by
    obtain ⟨stack, hs, hlength, hmem⟩ := h.onStack
    refine ⟨k :: stack, (Extends.addAll _ ds).onStack (hs.start hnew), by simp [hlength], ?_⟩
    intro k'
    rw [List.mem_cons, hmem, Nat.exists_lt_succ_right, hkey, Option.some_inj, or_comm, eq_comm]
  unknown k' := by
    rintro ⟨v, hv⟩
    exact h.unknown k' ⟨v, done_of_start hv⟩
  reentered_eq := h.reentered_eq

end Cache.OnWay

/-- Whether the types before a place of the line that are noted as reentered are those that it ran back
into. -/
def Cache.Marks (c : Cache) (codebase : Codebase) (name : String) (last place : ℕ) : Prop :=
  ∀ k, k ∈ c.reentered ↔ ∃ i < place, codebase.LoopsTo name last i ∧
    codebase.lineKey name i = some k

namespace Cache.Marks

variable {c c' : Cache} {k : TypeKey}

theorem of_unlooped (hc : c.reentered = []) (hnone : ∀ i, ¬ codebase.LoopsTo name last i) :
    c.Marks codebase name last place := by
  intro k
  simp [hc, hnone]

theorem mem_iff (h : c.Marks codebase name last (place + 1))
    (hstraight : codebase.StraightTo name last) (hplace : place ≤ last)
    (hkey : codebase.lineKey name place = some k) :
    k ∈ c.reentered ↔ codebase.LoopsTo name last place := by
  rw [h k]
  constructor
  · rintro ⟨i, -, hi, heq⟩
    exact hstraight.distinct hi.1 hplace (heq.trans hkey.symm) ▸ hi
  · intro hi
    exact ⟨place, Nat.lt_succ_self _, hi, hkey⟩

theorem pred (h : c.Marks codebase name last (place + 1)) (hstraight : codebase.StraightTo name last)
    (hplace : place ≤ last) (hkey : codebase.lineKey name place = some k)
    (hc : ∀ k', k' ∈ c'.reentered ↔ k' ∈ c.reentered ∧ k' ≠ k) :
    c'.Marks codebase name last place := by
  intro k'
  rw [hc, h k']
  constructor
  · rintro ⟨⟨i, hi, hloop, heq⟩, hne⟩
    refine ⟨i, ?_, hloop, heq⟩
    have hother : i ≠ place := by
      rintro rfl
      exact hne (Option.some.inj (heq.symm.trans hkey))
    omega
  · rintro ⟨i, hi, hloop, heq⟩
    refine ⟨⟨i, by omega, hloop, heq⟩, ?_⟩
    rintro rfl
    have hsame := hstraight.distinct hloop.1 hplace (heq.trans hkey.symm)
    omega

end Cache.Marks

/-- Whether the types from a place of the line on are linked up to the place `stop` and no further. -/
def StopsAt (codebase : Codebase) (name : String) (last place stop : ℕ) : Prop :=
  (place ≤ stop ∧ codebase.LoopsTo name last stop) ∨
    (stop = last ∧ ∀ i, codebase.LoopsTo name last i → i < place)

theorem StopsAt.pred {stop : ℕ} (h : StopsAt codebase name last (place + 1) stop)
    (hnot : ¬ codebase.LoopsTo name last place) : StopsAt codebase name last place stop := by
  rcases h with ⟨hle, hstop⟩ | ⟨rfl, hbefore⟩
  · exact .inl ⟨by omega, hstop⟩
  · refine .inr ⟨rfl, fun i hi => ?_⟩
    have hlt := hbefore i hi
    have hne : i ≠ place := by
      rintro rfl
      exact hnot hi
    omega

theorem StopsAt.place_le {stop : ℕ} (h : StopsAt codebase name last place stop)
    (hplace : place ≤ last) : place ≤ stop := by
  rcases h with ⟨hle, -⟩ | ⟨rfl, -⟩
  · exact hle
  · exact hplace

/-- Whether following the line from a place on has come to this edge and this cache: the types before
the place that were run into are noted, and those from it on are linked. -/
def EndsAs (codebase : Codebase) (name : String) (last place : ℕ) (edge : Edge) (c : Cache) : Prop :=
  c.Marks codebase name last place ∧ ∃ stop, StopsAt codebase name last place stop ∧
    (ResolvedType.lineage edge.type?).map (fun t => some t.name) =
      (List.range' place (stop + 1 - place)).map (codebase.titleAt name)

namespace EndsAs

variable {c c' : Cache} {edge : Edge}

theorem behind (hmarks : c.Marks codebase name last (last + 1)) (hedge : edge.type? = none) :
    EndsAs codebase name last (last + 1) edge c :=
  ⟨hmarks, last, .inr ⟨rfl, fun _ hi => Nat.lt_succ_of_le hi.1⟩, by simp [hedge]⟩

/-- What the line comes to from a place on, given what it comes to behind it: the type at the place has
the next one as its parent, unless it is the one that the line ran back into. -/
theorem step {k : TypeKey} {t : ResolvedType}
    (h : EndsAs codebase name last (place + 1) edge c) (hstraight : codebase.StraightTo name last)
    (hplace : place ≤ last) (hkey : codebase.lineKey name place = some k)
    (htitle : codebase.titleAt name place = some t.name)
    (hparent : t.parent = if k ∈ c.reentered then none else edge.type?)
    (hreentered : ∀ k', k' ∈ c'.reentered ↔ k' ∈ c.reentered ∧ k' ≠ k) :
    EndsAs codebase name last place (.found t) c' := by
  obtain ⟨hmarks, stop, hstops, hnames⟩ := h
  refine ⟨hmarks.pred hstraight hplace hkey hreentered, ?_⟩
  have hback := hmarks.mem_iff hstraight hplace hkey
  rw [Edge.type?, ResolvedType.lineage_some, List.map_cons, ResolvedType.ancestors_eq_lineage,
    ← htitle]
  by_cases hloop : codebase.LoopsTo name last place
  · refine ⟨place, .inl ⟨Nat.le_refl _, hloop⟩, ?_⟩
    rw [hparent, if_pos (hback.mpr hloop)]
    simp
  · have hstops' := hstops.pred hloop
    refine ⟨stop, hstops', ?_⟩
    rw [hparent, if_neg (mt hback.mp hloop), hnames, Nat.succ_sub (hstops'.place_le hplace),
      List.range'_succ, List.map_cons, Nat.add_sub_add_right]

end EndsAs

namespace Resolver

open ResolveM

variable {r : Resolver} {c : Cache} {d : Declaration} {others : List Declaration}

theorem endsAs_behind
    (hlast : IsGreatest {n | n < r.settings.depthLimit ∧ codebase.StraightTo name n} last)
    (h : c.OnWay codebase name (last + 1)) (hline : codebase.line name (last + 1) = some asked)
    (fuel : ℕ) :
    ∃ edge c', MayEnd codebase.source.supplier (r.reach (fuel + 1) asked) c (.ok edge) c' ∧
      EndsAs codebase name last (last + 1) edge c' := by
  have hkey : codebase.lineKey name (last + 1) = some (.ofName asked) := by simp [lineKey, hline]
  by_cases hloop : ∃ i, codebase.LoopsTo name last i
  · obtain ⟨i, hi⟩ := hloop
    have hunderway := h.underway (Nat.lt_succ_of_le hi.1) (hi.2.symm.trans hkey)
    refine ⟨.cycle, _, mayEnd_step.mpr (.cycle hunderway), .behind ?_ rfl⟩
    intro k
    rw [Cache.mem_reentered_reenter, h.reentered_eq]
    constructor
    · intro hk
      have heq : k = .ofName asked := hk.resolve_left List.not_mem_nil
      exact ⟨i, Nat.lt_succ_of_le hi.1, hi, heq ▸ hi.2.symm.trans hkey⟩
    · rintro ⟨j, -, hj, hkeyj⟩
      exact .inr (Option.some.inj (hkeyj.symm.trans (hj.2.symm.trans hkey)))
  · have hnone : ∀ i, ¬ codebase.LoopsTo name last i := not_exists.mp hloop
    have hnew : c.slots.get? (.ofName asked) = none := by
      apply h.new
      intro i hi heq
      exact hnone i ⟨Nat.le_of_lt_succ hi, hkey.trans heq.symm⟩
    by_cases hfull : r.settings.depthLimit ≤ c.depth
    · exact ⟨.tooDeep, _, mayEnd_step.mpr (.tooDeep hnew hfull),
        .behind (.of_unlooped h.reentered_eq hnone) rfl⟩
    · -- A declaration here would make the line longer.
      have hundeclared : codebase.first? asked = none := by
        rw [h.depth_eq] at hfull
        by_contra hdeclared
        obtain ⟨d, hd⟩ := Option.ne_none_iff_exists'.mp hdeclared
        have hlonger := hlast.2 ⟨by omega, hlast.1.2.succ hline hd hnone⟩
        omega
      have hgiven : codebase.source.supplier asked (.ok []) :=
        congrArg Except.ok (List.head?_eq_none_iff.mp hundeclared).symm
      refine ⟨.missing, _, mayEnd_step.mpr (.missing hnew (by omega) hgiven), .behind ?_ rfl⟩
      apply Cache.Marks.of_unlooped _ hnone
      simp [Cache.settle, Cache.start, h.reentered_eq]

theorem exists_built_of_parent {supplier : Supplier} {follow : String → ResolveM Edge} {c₁ : Cache}
    {answers : List (String × Option ResolvedType)} (hhooks : ∀ hook ∈ r.hooks, hook.KeepsShape)
    (hnew : c.slots.get? (.ofName asked) = none) (hroom : c.depth < r.settings.depthLimit)
    (hgiven : supplier asked (.ok (d :: others))) (hplain : d.interfaces = [] ∧ d.uses = [])
    (hfollows : r.Follows supplier follow d (.ofName asked)
      ((c.start (.ofName asked)).addAll ((ambiguity others).map d.diagnose))
      (d.parent.toList.map (Prod.mk "parent class")) answers c₁) :
    ∃ t c', MayEnd supplier (r.step follow asked) c (.ok (.found t)) c' ∧ t.name = d.name ∧
      t.parent = (answers.map Prod.snd).reduceOption.head? ∧
      c'.reentered = c₁.reentered.filter fun k => k ≠ .ofName asked := by
  have hinterfaces : ([] : List (String × Option ResolvedType)).map Prod.fst = d.interfaces :=
    hplain.1.symm
  have htraits : ([] : List (String × Option ResolvedType)).map Prod.fst = d.usedTraits := by
    simp [Declaration.usedTraits, hplain.2]
  have hall : r.Follows supplier follow d (.ofName asked)
      ((c.start (.ofName asked)).addAll ((ambiguity others).map d.diagnose)) d.edges
      (answers ++ [] ++ []) c₁ := by
    simpa [Declaration.edges, ← hinterfaces, ← htraits] using hfollows
  have hshape := d.sameShape_assemble (forall_allHooks hhooks)
    (.ofAnswers (answers.map Prod.snd) [] [])
  refine ⟨_, _, mayEnd_step.mpr (.built hnew hroom hgiven hfollows.names_eq hinterfaces htraits hall
    rfl), hshape.name_eq, hshape.parent_eq, ?_⟩
  rw [Cache.reentered_conclude]
  rfl

theorem exists_follows_parent {supplier : Supplier} {follow : String → ResolveM Edge}
    (hstraight : codebase.StraightTo name last) (hplace : place ≤ last)
    (hnext : codebase.line name (place + 1) = d.parent) (hc : c.reentered = []) (key : TypeKey)
    (hfollow : ∀ target, d.parent = some target → ∃ edge c',
      MayEnd supplier (follow target) c (.ok edge) c' ∧
        EndsAs codebase name last (place + 1) edge c') :
    ∃ edge answers c₁ c', r.Follows supplier follow d key c
        (d.parent.toList.map (Prod.mk "parent class")) answers c' ∧
      EndsAs codebase name last (place + 1) edge c₁ ∧
      (answers.map Prod.snd).reduceOption.head? =
        (if key ∈ c₁.reentered then none else edge.type?) ∧
      c'.reentered = c₁.reentered.filter fun k => k ≠ key := by
  cases hparent : d.parent with
  | none =>
    rw [hparent] at hnext
    -- The line has no place behind this one, so this is the last.
    have heq : place = last := by
      by_contra hne
      obtain ⟨asked, _, hasked, -⟩ := hstraight.exists_first (i := place + 1) (by omega)
      simp [hnext] at hasked
    subst heq
    have hends : EndsAs codebase name place (place + 1) .missing c :=
      .behind (.of_unlooped hc (hstraight.not_loopsTo_of_line hnext)) rfl
    exact ⟨.missing, [], c, c, .nil c, hends, by simp [hc, Edge.type?], by simp [hc]⟩
  | some target =>
    obtain ⟨edge, c₁, hend, hends⟩ := hfollow target hparent
    refine ⟨edge, _, c₁, _, .next hend (.nil _), hends, ?_, reentered_linked⟩
    by_cases hmem : key ∈ c₁.reentered
    · simp [linked_of_mem hmem, hmem]
    · simp only [linked_of_notMem hmem, if_neg hmem]
      cases edge.type? <;> rfl

/-- The line is followed to its end and back up again. -/
theorem endsAs_reach (hhooks : ∀ hook ∈ r.hooks, hook.KeepsShape)
    (hplain : ∀ asked, ∀ d ∈ codebase.candidatesFor asked, d.interfaces = [] ∧ d.uses = [])
    (hlast : IsGreatest {n | n < r.settings.depthLimit ∧ codebase.StraightTo name n} last)
    {fuel : ℕ} (hfuel : r.settings.depthLimit < fuel + place) (hplace : place ≤ last + 1)
    (h : c.OnWay codebase name place) (hline : codebase.line name place = some asked) :
    ∃ edge c', MayEnd codebase.source.supplier (r.reach fuel asked) c (.ok edge) c' ∧
      EndsAs codebase name last place edge c' := by
  obtain ⟨hlimit, hstraight⟩ := hlast.1
  -- The place moves up the line as the fuel goes down, and the line ends before the fuel does.
  induction fuel generalizing place asked c with
  | zero => omega
  | succ fuel ih =>
    rcases Nat.le_succ_iff.mp hplace with hplace | rfl
    · have hkey : codebase.lineKey name place = some (.ofName asked) := by simp [lineKey, hline]
      have hnew : c.slots.get? (.ofName asked) = none := by
        apply h.new
        intro i hi heq
        have hsame := hstraight.distinct (Set.mem_Iic.mpr (by omega)) hplace (heq.trans hkey.symm)
        omega
      have hroom : c.depth < r.settings.depthLimit := by
        rw [h.depth_eq]
        omega
      obtain ⟨_, d, hasked, hfirst⟩ := hstraight.exists_first hplace
      obtain rfl := Option.some.inj (hline.symm.trans hasked)
      obtain ⟨others, hcandidates⟩ := candidatesFor_of_first? hfirst
      have hgiven : codebase.source.supplier asked (.ok (d :: others)) :=
        congrArg Except.ok hcandidates.symm
      have hnext : codebase.line name (place + 1) = d.parent := by simp [line, hline, hfirst]
      have hstart := h.start hkey hnew ((ambiguity others).map d.diagnose)
      obtain ⟨edge, answers, c₁, c₂, hfollows, hends, hanswers, hreentered⟩ :=
        exists_follows_parent (r := r) hstraight hplace hnext hstart.reentered_eq (.ofName asked)
          fun target htarget => ih (by omega) (by omega) hstart (hnext.trans htarget)
      obtain ⟨t, c', hend, hname, hparent, hreentered'⟩ := exists_built_of_parent hhooks hnew hroom
        hgiven (hplain asked d (by simp [hcandidates])) hfollows
      refine ⟨_, c', hend, hends.step hstraight hplace hkey ?_ (hparent.trans hanswers) ?_⟩
      · simp [titleAt, hline, hfirst, hname]
      · simp [hreentered', hreentered]
    · exact endsAs_behind hlast h hline fuel

/-- Where no declaration has interfaces or traits, the ancestors of a declared name are known exactly.
They are those on the longest line of parents that the depth limit admits, all of them declared and
different; if the line runs back into itself, they go no further than the place where its loop
begins. -/
theorem ancestors_exact (settings : Settings) (es : List Codebase.Edit) (name : String)
    (hplain : ∀ file, ∀ d ∈ (afterEdits es).declarationsIn file, d.interfaces = [] ∧ d.uses = [])
    (hlimit : 1 ≤ settings.depthLimit) (hdeclared : (afterEdits es).candidatesFor name ≠ []) :
    let codebase := afterEdits es
    let r : Resolver := ⟨settings, []⟩
    ∃ last t, IsGreatest {n | n < settings.depthLimit ∧ codebase.StraightTo name n} last ∧
      ((r.resolve name).run codebase.source).1 = .ok (some t) ∧
      (∀ i ≤ last, codebase.lineKey name (last + 1) = codebase.lineKey name i →
        t.ancestors.map (fun a => some a.name) = (List.range' 1 i).map (codebase.titleAt name)) ∧
      ((∀ i ≤ last, codebase.lineKey name (last + 1) ≠ codebase.lineKey name i) →
        t.ancestors.map (fun a => some a.name) =
          (List.range' 1 last).map (codebase.titleAt name)) := by
  intro codebase r
  have hbound : BddAbove {n | n < settings.depthLimit ∧ codebase.StraightTo name n} :=
    ⟨settings.depthLimit, fun n hn => Nat.le_of_lt hn.1⟩
  obtain ⟨last, hlast⟩ := hbound.exists_isGreatest_of_nonempty ⟨0, hlimit, .zero hdeclared⟩
  have hplain' (asked : String) (d : Declaration) (hd : d ∈ codebase.candidatesFor asked) :
      d.interfaces = [] ∧ d.uses = [] := by
    obtain ⟨file, hd, -⟩ := exists_file_of_mem_candidatesFor hd
    exact hplain file d hd
  obtain ⟨edge, c', hend, -, stop, hstops, hnames⟩ := endsAs_reach (r := r) (by simp [r]) hplain'
    hlast (Nat.lt_succ_self settings.depthLimit) (Nat.zero_le _) .empty rfl
  obtain ⟨hresult, -⟩ := eq_exec_of_mayEnd hend
  -- The line has at least one place, so its first type is found.
  obtain ⟨t, htype⟩ : ∃ t, edge.type? = some t := by
    cases htype : edge.type? with
    | some t => exact ⟨t, rfl⟩
    | none => simp [htype, List.range'_succ] at hnames
  have hancestors : t.ancestors.map (fun a => some a.name) =
      (List.range' 1 stop).map (codebase.titleAt name) := by
    rw [htype, Nat.sub_zero, List.range'_succ, ResolvedType.lineage_some, List.map_cons,
      List.map_cons] at hnames
    exact (List.cons.inj hnames).2
  refine ⟨last, t, hlast, ?_, ?_, ?_⟩
  · rw [resolve_eq_answer, answer_eq, ← hresult, Except.map, htype]
  · intro i hi hloop
    rcases hstops with ⟨-, hstop⟩ | ⟨-, hbefore⟩
    · rw [hancestors, hlast.1.2.distinct hi hstop.1 (hloop.symm.trans hstop.2)]
    · exact absurd (hbefore i ⟨hi, hloop⟩) (Nat.not_lt_zero i)
  · intro hnone
    rcases hstops with ⟨-, hstop⟩ | ⟨rfl, -⟩
    · exact absurd hstop.2 (hnone stop hstop.1)
    · exact hancestors

def besideLoop : List Codebase.Edit :=
  [.put ⟨0⟩ [(Declaration.ofName .classType "A").withParent "b",
    (Declaration.ofName .classType "B").withParent "C",
    (Declaration.ofName .classType "C").withParent "\\B"]]

theorem ancestors_exact_besideLoop :
    ∃ t, ((standard.resolve "A").run (afterEdits besideLoop).source).1 = .ok (some t) ∧
      t.ancestors.map (fun a => some a.name) = [some "B"] := by
  have hplain : ∀ file, ∀ d ∈ (afterEdits besideLoop).declarationsIn file,
      d.interfaces = [] ∧ d.uses = [] := by
    intro file d hd
    rw [afterEdits, besideLoop, List.foldl_cons, List.foldl_nil, Codebase.edit,
      declarationsIn_putFile] at hd
    split at hd
    · revert d
      decide
    · simp [declarationsIn, Codebase.empty] at hd
  obtain ⟨last, t, hlast, hresolve, hloop, -⟩ :=
    ancestors_exact .standard besideLoop "A" hplain (by decide) (by decide +kernel)
  have hback : (afterEdits besideLoop).lineKey "A" 3 = (afterEdits besideLoop).lineKey "A" 1 := by
    decide +kernel
  -- The third class leads back to the second, so the line is straight up to it and no further.
  have htwo : IsGreatest
      {n | n < Settings.standard.depthLimit ∧ (afterEdits besideLoop).StraightTo "A" n} 2 := by
    refine ⟨⟨by decide, by decide +kernel, ?_⟩, fun n hn => ?_⟩
    · have hdistinct : ∀ i ≤ 2, ∀ j ≤ 2, (afterEdits besideLoop).lineKey "A" i =
          (afterEdits besideLoop).lineKey "A" j → i = j := by decide +kernel
      exact fun i hi j hj => hdistinct i hi j hj
    · by_contra hlt
      have := hn.2.distinct (Set.mem_Iic.mpr (by omega)) (Set.mem_Iic.mpr (by omega)) hback
      omega
  obtain rfl := hlast.unique htwo
  refine ⟨t, hresolve, (hloop 1 (by decide) hback).trans ?_⟩
  decide +kernel

end Resolver

end Hierarchy
