import Hierarchy.Proofs.AdaptedMethods
import Hierarchy.Proofs.ReportedProblems

namespace Hierarchy

theorem hitsAlong_eq_map {δ : Type} {finds : δ → MemberTable → Bool}
    {apply : MemberTable → δ → MemberTable} {hit : δ → Bool} {t : MemberTable} {ds : List δ}
    (h : ∀ before x after, ds = before ++ x :: after → finds x (before.foldl apply t) = hit x) :
    hitsAlong finds apply t ds = ds.map hit := by
  induction ds generalizing t with
  | nil => rfl
  | cons x rest ih =>
    have hfirst : finds x t = hit x := h [] x rest rfl
    have hrest : hitsAlong finds apply (apply t x) rest = rest.map hit := by
      apply ih
      intro before y after hsplit
      exact h (x :: before) y after (by rw [hsplit, List.cons_append])
    rw [hitsAlong, hfirst, hrest, List.map_cons]

theorem foldl_zipWith_or {δ ι : Type} (hit : ι → δ → Bool) (ds : List δ) (ts : List ι)
    (start : δ → Bool) :
    (ts.map fun t => ds.map (hit t)).foldl (List.zipWith (· || ·)) (ds.map start) =
      ds.map fun x => start x || ts.any fun t => hit t x := by
  induction ts generalizing start with
  | nil => simp
  | cons t rest ih =>
    have hrow : List.zipWith (· || ·) (ds.map start) (ds.map (hit t)) =
        ds.map fun x => start x || hit t x := by
      rw [List.zipWith_map, List.zipWith_self]
    rw [List.map_cons, List.foldl_cons, hrow, ih]
    simp [Bool.or_assoc]

theorem unmatched_eq_filter {δ ι : Type} (hit : ι → δ → Bool) (ds : List δ) (ts : List ι) :
    unmatched ds (ts.map fun t => ds.map (hit t)) =
      ds.filter fun x => !ts.any fun t => hit t x := by
  unfold unmatched
  rw [foldl_zipWith_or]
  induction ds with
  | nil => rfl
  | cons x rest ih =>
    by_cases hx : (ts.any fun t => hit t x) = true <;> simp_all

def ResolvedType.HasMethod (t : ResolvedType) (k : MemberKey) : Prop :=
  ∃ m ∈ t.members.ofKind .method, m.key = k

instance (t : ResolvedType) (k : MemberKey) : Decidable (t.HasMethod k) :=
  inferInstanceAs (Decidable (∃ m ∈ _, _))

theorem ResolvedType.contains_methodTable_iff {t : ResolvedType} {k : MemberKey} :
    t.methodTable.contains k = true ↔ t.HasMethod k := by
  rw [OrderedMap.contains, methodTable, MemberTable.get?_putAll, MemberTable.get?_empty,
    Option.or_none, Option.isSome_iff_ne_none, ne_eq, List.getLast?_eq_none_iff,
    List.filter_eq_nil_iff]
  simp [HasMethod]

namespace Alias

variable {as : List Alias} {t : ResolvedType} {k : MemberKey}

theorem contains_foldl {table : MemberTable} (trait : String)
    (hk : table.contains k = true) : (as.foldl (apply trait) table).contains k = true := by
  induction as generalizing table with
  | nil => exact hk
  | cons a rest ih =>
    apply ih
    rw [OrderedMap.contains, get?_apply]
    split
    · cases table.get? (.method a.method) with
      | none => exact hk
      | some m => rfl
    · exact hk

theorem contains_foldl_iff (h : ∀ a ∈ as, a.Writes t.name k → t.HasMethod k) :
    (as.foldl (apply t.name) t.methodTable).contains k = true ↔ t.HasMethod k := by
  by_cases hhas : t.HasMethod k
  · have hcontains := ResolvedType.contains_methodTable_iff.mpr hhas
    exact iff_of_true (contains_foldl t.name hcontains) hhas
  · have hsame := get?_foldl_of_forall_not (t := t.methodTable) fun a ha hwrites => hhas (h a ha hwrites)
    rw [OrderedMap.contains, hsame]
    exact ResolvedType.contains_methodTable_iff

end Alias

namespace Declaration

variable {d : Declaration} {t : ResolvedType}

/-- Whether the directives of `d` keep clear of one another in the trait: none of them finds a copy that
an alias has made in place of a method that the trait lacks, and no method is excluded twice. -/
structure KeepsClear (d : Declaration) (t : ResolvedType) : Prop where
  aliases : d.aliases.Pairwise fun b a => a.targets t.name = true →
    b.Writes t.name (.method a.method) → t.HasMethod (.method a.method)
  copies : ∀ x ∈ d.exclusions, x.drops t.name = true → ∀ b ∈ d.aliases,
    b.Writes t.name (.method x.method) → t.HasMethod (.method x.method)
  exclusions : d.exclusions.Pairwise fun y x => x.drops t.name = true → y.drops t.name = true →
    MemberKey.method y.method ≠ .method x.method

theorem KeepsClear.aliasHits_eq (h : d.KeepsClear t) : d.aliasHits t =
    d.aliases.map fun a => a.targets t.name && decide (t.HasMethod (.method a.method)) := by
  apply hitsAlong_eq_map
  intro before a after hsplit
  rw [Alias.finds]
  cases htargets : a.targets t.name with
  | false => rfl
  | true =>
    have hpairs := h.aliases
    rw [hsplit] at hpairs
    have hwrites : ∀ b ∈ before, b.Writes t.name (.method a.method) →
        t.HasMethod (.method a.method) := fun b hb =>
      (List.pairwise_append.mp hpairs).2.2 b hb a List.mem_cons_self htargets
    rw [Bool.true_and, Bool.true_and, Bool.eq_iff_iff, Alias.contains_foldl_iff hwrites,
      decide_eq_true_iff]

theorem KeepsClear.exclusionHits_eq (h : d.KeepsClear t) : d.exclusionHits t =
    d.exclusions.map fun x => x.drops t.name && decide (t.HasMethod (.method x.method)) := by
  apply hitsAlong_eq_map
  intro before x after hsplit
  rw [Exclusion.finds]
  cases hdrops : x.drops t.name with
  | false => rfl
  | true =>
    have hpairs := h.exclusions
    rw [hsplit] at hpairs
    have honce : ¬ ∃ y ∈ before, y.drops t.name = true ∧ MemberKey.method y.method = .method x.method := by
      rintro ⟨y, hy, hydrops, hsame⟩
      exact (List.pairwise_append.mp hpairs).2.2 y hy x List.mem_cons_self hdrops hydrops hsame
    have hwrites := h.copies x (by simp [hsplit]) hdrops
    rw [Bool.true_and, Bool.true_and, Bool.eq_iff_iff, OrderedMap.contains, Exclusion.get?_foldl,
      if_neg honce, decide_eq_true_iff]
    exact Alias.contains_foldl_iff hwrites

end Declaration

/-- Whether a directive is unmet among the traits: it is about one of them and none of those that it is
about has a method of the given name. -/
def Unmet (isAbout : String → Bool) (method : String) (traits : List ResolvedType) : Prop :=
  (∃ t ∈ traits, isAbout t.name = true) ∧
    ∀ t ∈ traits, isAbout t.name = true → ¬ t.HasMethod (.method method)

instance (isAbout : String → Bool) (method : String) (traits : List ResolvedType) :
    Decidable (Unmet isAbout method traits) :=
  inferInstanceAs (Decidable (_ ∧ _))

theorem filterMap_unmatched {δ : Type} {isAbout : δ → String → Bool} {method : δ → String}
    {problem? : δ → Option Problem} {problem : δ → Problem} {traits : List ResolvedType}
    (hproblem : ∀ x, problem? x =
      if ∃ t ∈ traits, isAbout x t.name = true then some (problem x) else none) (ds : List δ) :
    (unmatched ds (traits.map fun t => ds.map fun x =>
        isAbout x t.name && decide (t.HasMethod (.method (method x))))).filterMap problem? =
      (ds.filter fun x => Unmet (isAbout x) (method x) traits).map problem := by
  rw [unmatched_eq_filter, List.filterMap_filter, ← List.filterMap_eq_map, List.filterMap_filter]
  apply List.filterMap_congr
  intro x _
  rw [hproblem]
  by_cases habout : ∃ t ∈ traits, isAbout x t.name = true
  · simp [Unmet, habout]
  · simp [Unmet, habout]

/-- When a type is put together whose directives keep clear of one another in its traits, the unmet
directives are reported, each of them once: first the aliases and then the exclusions, in the order in
which they were declared. -/
theorem Declaration.unmet_directives_reported (d : Declaration) (hooks : List Hook)
    (supers : Supertypes) (hclear : ∀ t ∈ supers.traits, d.KeepsClear t) :
    (d.assemble hooks supers).problems.filter (fun p => p.code = "R0003") =
      ((d.aliases.filter fun a => Unmet a.targets a.method supers.traits).map fun a =>
          .noSuchMethod a.source a.method) ++
        (d.exclusions.filter fun x => Unmet x.drops x.method supers.traits).map fun x =>
          .noSuchMethod (x.losers.find? (anyNamed supers.traits)) x.method := by
  have hadaptation : (d.adaptationProblems supers.traits).filter (fun p => p.code = "R0003") =
      d.adaptationProblems supers.traits := by
    apply List.filter_eq_self.mpr
    intro p hp
    exact decide_eq_true (code_of_mem_adaptationProblems hp)
  have hhooks : (d.runHooks hooks (d.mergedType supers)).problems.filter
      (fun p => p.code = "R0003") = [] := by
    apply List.filter_eq_nil_iff.mpr
    intro p hp
    simp [code_of_mem_runHooks hp]
  have haliases := List.map_congr_left fun t ht => (hclear t ht).aliasHits_eq
  have hexclusions := List.map_congr_left fun t ht => (hclear t ht).exclusionHits_eq
  show List.filter _ (_ ++ _) = _
  rw [List.filter_append, hadaptation, hhooks, List.append_nil, adaptationProblems, haliases,
    hexclusions, filterMap_unmatched fun a => a.problem?_eq supers.traits,
    filterMap_unmatched fun x => x.problem?_eq supers.traits]

namespace Declaration

def workerOnly : Supertypes := ⟨none, [], [worker]⟩

def demanding : Declaration :=
  (Declaration.ofName .classType "Demanding").withUse ⟨"Worker",
    [⟨none, "fly", some "soar", none⟩, ⟨some "Worker", "RUN", none, some .owner⟩],
    [⟨none, "stop", ["Worker"]⟩, ⟨some "Jumper", "jump", ["Diver", "worker"]⟩]⟩

theorem unmet_directives_reported_demanding :
    (∀ t ∈ workerOnly.traits, demanding.KeepsClear t) ∧
      (demanding.assemble [] workerOnly).problems.filter (fun p => p.code = "R0003") =
        [.noSuchMethod none "fly", .noSuchMethod (some "worker") "jump"] := by
  have hclear : ∀ t ∈ workerOnly.traits, demanding.KeepsClear t := by
    intro t ht
    rw [List.mem_singleton.mp ht]
    exact ⟨by decide +kernel, by decide +kernel, by decide +kernel⟩
  exact ⟨hclear, (demanding.unmet_directives_reported [] workerOnly hclear).trans (by decide +kernel)⟩

def doublyExcluding : Declaration :=
  (Declaration.ofName .classType "C").withUse ⟨"Worker", [],
    [⟨none, "run", ["Worker"]⟩, ⟨none, "run", ["Worker"]⟩]⟩

def recopying : Declaration :=
  (Declaration.ofName .classType "C").withUse ⟨"Worker",
    [⟨none, "run", some "walk", none⟩, ⟨none, "walk", some "stroll", none⟩], []⟩

/-- The second exclusion of a method that the trait has is reported, and an alias of a method that it
does not have is not. -/
theorem reports_stray :
    (∀ x ∈ doublyExcluding.exclusions, ¬ Unmet x.drops x.method workerOnly.traits) ∧
      (doublyExcluding.assemble [] workerOnly).problems = [.noSuchMethod (some "Worker") "run"] ∧
      (∃ a ∈ recopying.aliases, Unmet a.targets a.method workerOnly.traits) ∧
      (recopying.assemble [] workerOnly).problems = [] :=
  ⟨by decide +kernel, by decide +kernel, by decide +kernel, by decide +kernel⟩

end Declaration

end Hierarchy
