import Mathlib.Tactic.MkIffOfInductiveProp
import Hierarchy.Proofs.FirstCandidates

namespace Hierarchy

/-- Whether the aliases differ only in the spelling of the trait and the method they are about. -/
@[mk_iff]
structure Alias.Respells (a a' : Alias) : Prop where
  source : a.source.map TypeKey.ofName = a'.source.map TypeKey.ofName
  method : foldCase a.method = foldCase a'.method
  newName : a.newName = a'.newName
  newVisibility : a.newVisibility = a'.newVisibility

instance (a a' : Alias) : Decidable (a.Respells a') :=
  decidable_of_iff' _ (Alias.respells_iff a a')

/-- Whether the exclusions differ only in the spelling of the traits and the method they are about. -/
@[mk_iff]
structure Exclusion.Respells (x x' : Exclusion) : Prop where
  winner : x.winner.map TypeKey.ofName = x'.winner.map TypeKey.ofName
  method : foldCase x.method = foldCase x'.method
  losers : x.losers.map TypeKey.ofName = x'.losers.map TypeKey.ofName

instance (x x' : Exclusion) : Decidable (x.Respells x') :=
  decidable_of_iff' _ (Exclusion.respells_iff x x')

/-- Whether the uses of a trait differ only in the spelling of references. -/
@[mk_iff]
structure TraitUse.Respells (u u' : TraitUse) : Prop where
  name : TypeKey.ofName u.name = TypeKey.ofName u'.name
  aliases : List.Forall₂ Alias.Respells u.aliases u'.aliases
  exclusions : List.Forall₂ Exclusion.Respells u.exclusions u'.exclusions

instance (u u' : TraitUse) : Decidable (u.Respells u') :=
  decidable_of_iff' _ (TraitUse.respells_iff u u')

/-- Whether the declarations differ only in the spelling of references. -/
@[mk_iff]
structure Declaration.Respells (d d' : Declaration) : Prop where
  heading : d.toHeading = d'.toHeading
  parent : d.parent.map TypeKey.ofName = d'.parent.map TypeKey.ofName
  interfaces : d.interfaces.map TypeKey.ofName = d'.interfaces.map TypeKey.ofName
  uses : List.Forall₂ TraitUse.Respells d.uses d'.uses
  members : d.members = d'.members

instance (d d' : Declaration) : Decidable (d.Respells d') :=
  decidable_of_iff' _ (Declaration.respells_iff d d')

/-- Whether the codebases have the same files, with declarations that differ only in the spelling of
references. -/
structure Codebase.Respells (c c' : Codebase) : Prop where
  files : c.files.keys = c'.files.keys
  declarations : ∀ file,
    List.Forall₂ Declaration.Respells (c.declarationsIn file) (c'.declarationsIn file)

theorem MemberKey.method_congr {name name' : String} (h : foldCase name = foldCase name') :
    MemberKey.method name = .method name' :=
  congrArg (MemberKey.mk .method) h

namespace Alias

variable {a a' : Alias}

theorem targets_iff {name : String} :
    a.targets name = true ↔ ∀ k ∈ a.source.map TypeKey.ofName, k = .ofName name := by
  unfold targets
  cases a.source with
  | none => simp
  | some trait => simp [sameType_iff_ofName_eq]

namespace Respells

theorem targets_eq (h : a.Respells a') (name : String) : a.targets name = a'.targets name := by
  rw [Bool.eq_iff_iff, targets_iff, targets_iff, h.source]

theorem apply_eq (h : a.Respells a') (trait : String) (methods : MemberTable) :
    Alias.apply trait methods a = Alias.apply trait methods a' := by
  simp only [Alias.apply, Alias.copyOf, h.targets_eq, MemberKey.method_congr h.method, h.newName,
    h.newVisibility]

theorem finds_eq (h : a.Respells a') (trait : String) (methods : MemberTable) :
    a.finds trait methods = a'.finds trait methods := by
  simp only [Alias.finds, h.targets_eq, MemberKey.method_congr h.method]

end Respells

end Alias

namespace Exclusion

variable {x x' : Exclusion}

theorem drops_iff {name : String} :
    x.drops name = true ↔ TypeKey.ofName name ∈ x.losers.map TypeKey.ofName := by
  simp only [drops, List.any_eq_true, sameType_iff_ofName_eq, List.mem_map]

namespace Respells

theorem drops_eq (h : x.Respells x') (name : String) : x.drops name = x'.drops name := by
  rw [Bool.eq_iff_iff, drops_iff, drops_iff, h.losers]

theorem apply_eq (h : x.Respells x') (trait : String) (methods : MemberTable) :
    Exclusion.apply trait methods x = Exclusion.apply trait methods x' := by
  simp only [Exclusion.apply, h.drops_eq, MemberKey.method_congr h.method]

theorem finds_eq (h : x.Respells x') (trait : String) (methods : MemberTable) :
    x.finds trait methods = x'.finds trait methods := by
  simp only [Exclusion.finds, h.drops_eq, MemberKey.method_congr h.method]

end Respells

end Exclusion

/-- What is seen of a problem apart from its wording: whether its place is shown, its severity and its
code. -/
def Problem.gist (p : Problem) : Bool × Severity × String := (p.isLocated, p.severity, p.code)

def Diagnostic.gist (g : Diagnostic) : String × Option Location × Severity × String :=
  (g.subject, g.location, g.severity, g.code)

def Event.gist : Event → TypeKey ⊕ Application
  | fetched name => .inl (.ofName name)
  | applied application => .inr application

/-- Records agree if they are the same apart from wording and spelling. -/
def Comparison.gist : Comparison where
  Agree x y := x.report.map Diagnostic.gist = y.report.map Diagnostic.gist ∧
    x.log.map Event.gist = y.log.map Event.gist
  refl _ := ⟨rfl, rfl⟩
  append := by
    rintro ⟨ds, log⟩ ⟨ds', log'⟩ ⟨es, more⟩ ⟨es', more'⟩ ⟨hds, hlog⟩ ⟨hes, hmore⟩
    simp only at hds hlog hes hmore
    simp only [Record.mk_append_mk, List.map_append, hds, hlog, hes, hmore, and_self]

theorem map_ofName_namesAsked (log : List Event) :
    (namesAsked log).map TypeKey.ofName = (log.map Event.gist).filterMap Sum.getLeft? := by
  rw [namesAsked, List.map_filterMap, List.filterMap_map]
  congr 1
  funext e
  cases e <;> rfl

theorem Alias.gist_of_mem_problem? {a : Alias} {traits : List ResolvedType} {p : Problem}
    (h : p ∈ a.problem? traits) : p.gist = (true, .warning, "R0003") := by
  simp only [Alias.problem?, Option.mem_def, Option.ite_none_right_eq_some] at h
  rw [← Option.some.inj h.2]
  rfl

theorem Exclusion.gist_of_mem_problem? {x : Exclusion} {traits : List ResolvedType} {p : Problem}
    (h : p ∈ x.problem? traits) : p.gist = (true, .warning, "R0003") := by
  obtain ⟨loser, -, rfl⟩ := Option.map_eq_some_iff.mp h
  rfl

theorem hitsAlong_congr {δ : Type} {alike : δ → δ → Prop} {finds : δ → MemberTable → Bool}
    {apply : MemberTable → δ → MemberTable}
    (hfinds : ∀ x x', alike x x' → ∀ methods, finds x methods = finds x' methods)
    (happly : ∀ x x', alike x x' → ∀ methods, apply methods x = apply methods x')
    {ds ds' : List δ} (h : List.Forall₂ alike ds ds') (methods : MemberTable) :
    hitsAlong finds apply methods ds = hitsAlong finds apply methods ds' := by
  induction h generalizing methods with
  | nil => rfl
  | cons hd _ ih => rw [hitsAlong, hitsAlong, hfinds _ _ hd, happly _ _ hd, ih]

theorem forall₂_unmatched {δ : Type} {alike : δ → δ → Prop} {ds ds' : List δ}
    (h : List.Forall₂ alike ds ds') (rows : List (List Bool)) :
    List.Forall₂ alike (unmatched ds rows) (unmatched ds' rows) := by
  -- At first nothing is hit, whatever the directives are.
  have hstart : ds.map (fun _ => false) = ds'.map fun _ => false := by
    rw [List.map_const', List.map_const', h.length_eq]
  unfold unmatched
  rw [hstart]
  generalize rows.foldl (List.zipWith (· || ·)) (ds'.map fun _ => false) = hits
  clear hstart
  induction h generalizing hits with
  | nil => exact .nil
  | cons hd hrest ih =>
    cases hits with
    | nil => exact .nil
    | cons hit hits =>
      cases hit with
      | false => exact .cons hd (ih hits)
      | true => exact ih hits

theorem map_gist_filterMap_congr {δ : Type} {alike : δ → δ → Prop} {f : δ → Option Problem}
    (hnone : ∀ x x', alike x x' → (f x = none ↔ f x' = none))
    (hgist : ∀ x x', ∀ p ∈ f x, ∀ p' ∈ f x', p.gist = p'.gist) {ds ds' : List δ}
    (h : List.Forall₂ alike ds ds') :
    (ds.filterMap f).map Problem.gist = (ds'.filterMap f).map Problem.gist := by
  induction h with
  | nil => rfl
  | @cons x x' _ _ hx _ ih =>
    rw [List.filterMap_cons, List.filterMap_cons]
    specialize hnone x x' hx
    specialize hgist x x'
    cases hfx : f x with
    | none =>
      rw [hnone.mp hfx]
      exact ih
    | some p =>
      cases hfx' : f x' with
      | none => simp [hfx, hfx'] at hnone
      | some p' =>
        rw [List.map_cons, List.map_cons, hgist p hfx p' hfx', ih]

theorem forall₂_of_map_eq {α β : Type} {f : α → β} {xs ys : List α} (h : xs.map f = ys.map f) :
    List.Forall₂ (fun x y => f x = f y) xs ys := by
  rw [← List.forall₂_eq_eq_eq, List.forall₂_map_left_iff, List.forall₂_map_right_iff] at h
  exact h

namespace Declaration

theorem gist_diagnose (d : Declaration) (problems : List Problem) :
    (problems.map d.diagnose).map Diagnostic.gist =
      (problems.map Problem.gist).map fun g => (d.name, if g.1 then d.location else none, g.2) := by
  rw [List.map_map, List.map_map]
  rfl

namespace Respells

variable {d d' : Declaration}

theorem aliases (h : d.Respells d') : List.Forall₂ Alias.Respells d.aliases d'.aliases :=
  List.rel_flatMap h.uses fun _ _ hu => hu.aliases

theorem exclusions (h : d.Respells d') :
    List.Forall₂ Exclusion.Respells d.exclusions d'.exclusions :=
  List.rel_flatMap h.uses fun _ _ hu => hu.exclusions

theorem aliasedTable_eq (h : d.Respells d') (trait : ResolvedType) :
    d.aliasedTable trait = d'.aliasedTable trait := by
  refine List.rel_foldl (P := Eq) ?_ rfl h.aliases
  rintro methods _ rfl a a' ha
  exact ha.apply_eq trait.name methods

theorem adaptedTable_eq (h : d.Respells d') (trait : ResolvedType) :
    d.adaptedTable trait = d'.adaptedTable trait := by
  refine List.rel_foldl (P := Eq) ?_ (h.aliasedTable_eq trait) h.exclusions
  rintro methods _ rfl x x' hx
  exact hx.apply_eq trait.name methods

theorem mergedMembers_eq (h : d.Respells d') (t : ResolvedType) :
    t.mergedMembers d = t.mergedMembers d' := by
  have hbody : d.bodyMembers = d'.bodyMembers := by
    simp only [bodyMembers, h.members, h.heading]
  have htrait : t.offerTrait d = t.offerTrait d' := by
    funext table trait
    simp only [ResolvedType.offerTrait, contributions, h.adaptedTable_eq]
  simp only [ResolvedType.mergedMembers, hbody, htrait]

theorem mergedType_eq (h : d.Respells d') (supers : Supertypes) :
    d.mergedType supers = d'.mergedType supers := by
  simp only [mergedType, h.heading, h.mergedMembers_eq]

theorem runHooks_eq (h : d.Respells d') (settings : Settings) (t : ResolvedType) :
    d.runHooks (Resolver.mk settings []).allHooks t =
      d'.runHooks (Resolver.mk settings []).allHooks t := by
  obtain ⟨heading, parent, interfaces, uses, members⟩ := d
  obtain ⟨heading', parent', interfaces', uses', members'⟩ := d'
  obtain rfl : heading = heading' := h.heading
  rw [Resolver.allHooks]
  cases settings.docTags <;> rfl

theorem gist_adaptationProblems (h : d.Respells d') (traits : List ResolvedType) :
    (d.adaptationProblems traits).map Problem.gist =
      (d'.adaptationProblems traits).map Problem.gist := by
  have haliasHits : d.aliasHits = d'.aliasHits := by
    funext trait
    exact hitsAlong_congr (fun _ _ ha => ha.finds_eq trait.name) (fun _ _ ha => ha.apply_eq trait.name)
      h.aliases _
  have hexclusionHits : d.exclusionHits = d'.exclusionHits := by
    funext trait
    rw [exclusionHits, exclusionHits, h.aliasedTable_eq]
    exact hitsAlong_congr (fun _ _ hx => hx.finds_eq trait.name) (fun _ _ hx => hx.apply_eq trait.name)
      h.exclusions _
  rw [adaptationProblems, adaptationProblems, haliasHits, hexclusionHits, List.map_append,
    List.map_append]
  congr 1
  · refine map_gist_filterMap_congr (fun a a' ha => ?_) (fun _ _ p hp p' hp' => ?_)
      (forall₂_unmatched h.aliases _)
    · simp only [Alias.problem?_eq_none_iff, ha.targets_eq]
    · rw [Alias.gist_of_mem_problem? hp, Alias.gist_of_mem_problem? hp']
  · refine map_gist_filterMap_congr (fun x x' hx => ?_) (fun _ _ p hp p' hp' => ?_)
      (forall₂_unmatched h.exclusions _)
    · simp only [Exclusion.problem?_eq_none_iff, hx.drops_eq]
    · rw [Exclusion.gist_of_mem_problem? hp, Exclusion.gist_of_mem_problem? hp']

theorem gist_diagnose_eq (h : d.Respells d') {problems problems' : List Problem}
    (hgist : problems.map Problem.gist = problems'.map Problem.gist) :
    (problems.map d.diagnose).map Diagnostic.gist =
      (problems'.map d'.diagnose).map Diagnostic.gist := by
  rw [gist_diagnose, gist_diagnose, hgist, h.heading]

end Respells

end Declaration

/-- Whether the sources supply declarations that differ only in the spelling of references, under all
spellings of a name. -/
def Source.Respells (source source' : Source) : Prop :=
  ∀ name name', TypeKey.ofName name = .ofName name' → ∃ ds ds', source name = .ok ds ∧
    source' name' = .ok ds' ∧ List.Forall₂ Declaration.Respells ds ds'

theorem Codebase.Respells.source {es es' : List Codebase.Edit}
    (h : (Codebase.afterEdits es).Respells (Codebase.afterEdits es')) :
    (Codebase.afterEdits es).source.Respells (Codebase.afterEdits es').source := by
  intro name name' hkey
  rw [Codebase.source_afterEdits, Codebase.source_afterEdits]
  refine ⟨_, _, rfl, rfl, ?_⟩
  have hall : List.Forall₂ Declaration.Respells
      ((Codebase.afterEdits es).files.keys.flatMap (Codebase.afterEdits es).declarationsIn)
      ((Codebase.afterEdits es').files.keys.flatMap (Codebase.afterEdits es').declarationsIn) := by
    rw [h.files]
    refine List.rel_flatMap (List.forall₂_same.mpr fun file _ => Eq.refl file) ?_
    rintro file _ rfl
    exact h.declarations file
  refine List.rel_filter (fun d d' hd => ?_) hall
  have hd : d.key = d'.key := congrArg Heading.key hd.heading
  simp only [hd, hkey]

namespace Resolver

open ResolveM

variable {settings : Settings} {source source' : Source} {d d' : Declaration} {c c' : Cache}

theorem assembleAlike_of_respells (h : d.Respells d') :
    AssembleAlike .gist ⟨settings, []⟩ ⟨settings, []⟩ d d' := by
  intro supers
  simp only [Declaration.assemble, h.mergedType_eq, h.runHooks_eq, true_and]
  refine ⟨h.gist_diagnose_eq ?_, rfl⟩
  rw [List.map_append, List.map_append, h.gist_adaptationProblems]

theorem edgesAlike_of_respells {limit : ℕ} {follow follow' : String → ResolveM Edge}
    (h : d.Respells d')
    (hfollow : ∀ target target', TypeKey.ofName target = .ofName target' → ∀ c c', c.Alike c' →
      (exec source (follow target) c).Alike .gist c c' (exec source' (follow' target') c')) :
    EdgesAlike .gist limit source source' follow follow' d d' := by
  have hgroup {targets targets' : List String}
      (hkeys : List.Forall₂ (fun target target' => TypeKey.ofName target = .ofName target') targets
        targets') :
      List.Forall₂ (EdgeAlike .gist limit source source' follow follow' d d') targets targets' := by
    refine hkeys.imp fun target target' hkey => ⟨hfollow _ _ hkey, ?_⟩
    refine fun relation leadsBack edge => ⟨h.gist_diagnose_eq ?_, rfl⟩
    cases edge <;> cases leadsBack <;> rfl
  refine ⟨hgroup (forall₂_of_map_eq ?_), hgroup (forall₂_of_map_eq h.interfaces), hgroup ?_⟩
  · rw [← Option.toList_map, ← Option.toList_map, h.parent]
  · rw [Declaration.usedTraits, Declaration.usedTraits, List.forall₂_map_left_iff,
      List.forall₂_map_right_iff]
    exact h.uses.imp fun _ _ hu => hu.name

/-- Following a name comes to the same over sources that differ only in the spelling of references,
however the name is spelled. -/
theorem alike_reach_of_respells (hsource : source.Respells source') (fuel : ℕ) {name name' : String}
    (hkey : TypeKey.ofName name = .ofName name') (hc : c.Alike c') :
    (exec source ((Resolver.mk settings []).reach fuel name) c).Alike .gist c c'
      (exec source' ((Resolver.mk settings []).reach fuel name') c') := by
  induction fuel generalizing name name' c c' with
  | zero => exact .silent hc rfl rfl _
  | succ fuel ih =>
    have hasked : Comparison.gist.Agree ⟨[], [.fetched name]⟩ ⟨[], [.fetched name']⟩ :=
      ⟨rfl, congrArg (fun k => [Sum.inl k]) hkey⟩
    refine FirstAlike.reach ?_ rfl hkey hasked hc
    obtain ⟨ds, ds', hds, hds', hrespells⟩ := hsource name name' hkey
    cases hrespells with
    | nil => exact .missing hds hds'
    | @cons d d' others others' hd hothers =>
      refine .declared hds hds' ⟨hd.gist_diagnose_eq ?_, rfl⟩ ?_ (assembleAlike_of_respells hd)
      · cases hothers <;> rfl
      · exact edgesAlike_of_respells hd fun _ _ hkeys _ _ hc₁ => ih hkeys hc₁

/-- The spelling of references and of requested names does not matter. -/
theorem spelling_immaterial (settings : Settings) {es es' : List Codebase.Edit}
    (hfiles : (Codebase.afterEdits es).Respells (Codebase.afterEdits es')) {names names' : List String}
    (hnames : names.map TypeKey.ofName = names'.map TypeKey.ofName) :
    let r : Resolver := ⟨settings, []⟩
    let qs := names.map (Request.mk (Codebase.afterEdits es).source)
    let qs' := names'.map (Request.mk (Codebase.afterEdits es').source)
    r.answersOver .empty qs = r.answersOver .empty qs' ∧
      (r.fetchesOver .empty qs).map TypeKey.ofName = (r.fetchesOver .empty qs').map TypeKey.ofName ∧
      (r.cacheAfter qs).slots = (r.cacheAfter qs').slots ∧
      (r.cacheAfter qs).report.map Diagnostic.gist =
        (r.cacheAfter qs').report.map Diagnostic.gist := by
  intro r qs qs'
  have hserve : ServeAlike .gist r r .empty .empty qs qs' := by
    refine serveAlike_of_reach ?_ (.refl .empty)
    rw [List.forall₂_map_left_iff, List.forall₂_map_right_iff]
    exact (forall₂_of_map_eq hnames).imp fun name name' hkey c c' hc =>
      alike_reach_of_respells hfiles.source _ hkey hc
  obtain ⟨ds, ds', hds, hds', hreport, hlog⟩ := hserve.records
  refine ⟨hserve.answers_eq, ?_, hserve.cache.slots_eq, ?_⟩
  · rw [← namesAsked_eventsOver, ← namesAsked_eventsOver, map_ofName_namesAsked,
      map_ofName_namesAsked]
    exact congrArg _ hlog
  · rw [cacheAfter, cacheAfter, hds, hds']
    exact hreport

/-- A class that copies a method of a trait under a second name and excludes one from it, with a further
alias and an interface that lead nowhere. -/
def plainlySpelled : List Declaration :=
  [(((Declaration.ofName .classType "C").withParent "P").withInterface "Gone").withUse
      ⟨"T", [⟨some "T", "run", some "walk", none⟩, ⟨none, "jump", none, some .heirs⟩],
        [⟨some "U", "stop", ["T"]⟩]⟩,
    .ofName .classType "P",
    ((Declaration.ofName .traitType "T").withMember (.ofName .method "run")).withMember
      (.ofName .method "stop")]

def oddlySpelled : List Declaration :=
  [(((Declaration.ofName .classType "C").withParent "\\p").withInterface "GONE").withUse
      ⟨"\\t", [⟨some "\\T", "RUN", some "walk", none⟩, ⟨none, "Jump", none, some .heirs⟩],
        [⟨some "u", "Stop", ["t"]⟩]⟩,
    .ofName .classType "P",
    ((Declaration.ofName .traitType "T").withMember (.ofName .method "run")).withMember
      (.ofName .method "stop")]

theorem spelling_immaterial_oddlySpelled :
    let qs := ["C", "P"].map (Request.mk (Codebase.afterEdits [.put ⟨0⟩ plainlySpelled]).source)
    let qs' := ["\\c", "p"].map (Request.mk (Codebase.afterEdits [.put ⟨0⟩ oddlySpelled]).source)
    (standard.fetchesOver .empty qs = ["C", "P", "Gone", "T"] ∧
      standard.fetchesOver .empty qs' = ["\\c", "\\p", "GONE", "\\t"]) ∧
      standard.answersOver .empty qs = standard.answersOver .empty qs' ∧
      ((standard.answersOver .empty qs').map fun answer =>
        answer.toOption.join.map fun t => t.members.keys.map MemberKey.text) =
          [some ["method:run", "method:walk"], some []] ∧
      (standard.cacheAfter qs').report.map Diagnostic.gist =
        [("C", none, .warning, "R0001"), ("C", none, .warning, "R0003")] ∧
      (standard.cacheAfter qs').report ≠ (standard.cacheAfter qs).report := by
  intro qs qs'
  have hrespells : List.Forall₂ Declaration.Respells plainlySpelled oddlySpelled := by decide
  have hfiles : (Codebase.afterEdits [.put ⟨0⟩ plainlySpelled]).Respells
      (Codebase.afterEdits [.put ⟨0⟩ oddlySpelled]) := by
    refine ⟨rfl, fun file => ?_⟩
    have hin (ds : List Declaration) : (Codebase.afterEdits [.put ⟨0⟩ ds]).declarationsIn file =
        if ⟨0⟩ = file then ds else [] :=
      Codebase.declarationsIn_putFile .empty ⟨0⟩ file ds
    rw [hin, hin]
    split
    · exact hrespells
    · exact .nil
  have hnames : ["C", "P"].map TypeKey.ofName = ["\\c", "p"].map TypeKey.ofName := by decide
  obtain ⟨hanswers, -, -, hreport⟩ := spelling_immaterial .standard hfiles hnames
  refine ⟨⟨by decide +kernel, by decide +kernel⟩, hanswers, by decide +kernel,
    hreport.symm.trans ?_, by decide +kernel⟩
  decide +kernel

end Resolver

end Hierarchy
