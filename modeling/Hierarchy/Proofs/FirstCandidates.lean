import Mathlib.Logic.Relation
import Hierarchy.Proofs.FileHistory
import Hierarchy.Proofs.ReportedProblems
import Hierarchy.Proofs.Requests
import Hierarchy.Proofs.RunsCompared

namespace Hierarchy

open Relation

namespace Source

/-- The first candidate for a name, if there is one and the source can supply it. -/
def first (source : Source) (name : String) : Except SourceError (Option Declaration) :=
  (source name).map List.head?

/-- Whether the first candidate for `name` names `target` as a supertype.  Spelling counts here, since
a source may answer differently for two spellings. -/
def Mentions (source : Source) (name target : String) : Prop :=
  ∃ d, source.first name = .ok (some d) ∧ target ∈ d.supertypeNames

variable {source source' : Source} {name : String}

theorem first_eq_cases (h : source.first name = source'.first name) :
    (∃ error, source name = .error error ∧ source' name = .error error) ∨
      (source name = .ok [] ∧ source' name = .ok []) ∨
      ∃ d others others', source name = .ok (d :: others) ∧ source' name = .ok (d :: others') := by
  unfold first at h
  cases hs : source name with
  | error error =>
    cases hs' : source' name with
    | error error' =>
      obtain rfl : error = error' := by simpa [hs, hs', Except.map] using h
      exact .inl ⟨error, rfl, rfl⟩
    | ok candidates' => simp [hs, hs', Except.map] at h
  | ok candidates =>
    cases hs' : source' name with
    | error error' => simp [hs, hs', Except.map] at h
    | ok candidates' =>
      have hhead : candidates.head? = candidates'.head? := by simpa [hs, hs', Except.map] using h
      cases candidates with
      | nil => exact .inr (.inl ⟨rfl, by rw [List.head?_eq_none_iff.mp hhead.symm]⟩)
      | cons d others =>
        obtain ⟨others', rfl⟩ := List.head?_eq_some_iff.mp hhead.symm
        exact .inr (.inr ⟨d, others, others', rfl, rfl⟩)

end Source

def Report.without (skip : Diagnostic → Bool) (report : Report) : Report :=
  report.filter fun g => !skip g

theorem Report.without_append (skip : Diagnostic → Bool) (report more : Report) :
    Report.without skip (report ++ more) = report.without skip ++ more.without skip :=
  List.filter_append report more

theorem Report.without_eq_nil {skip : Diagnostic → Bool} {report : Report}
    (h : ∀ g ∈ report, skip g = true) : report.without skip = [] :=
  List.filter_eq_nil_iff.mpr fun g hg => by simp [h g hg]

def Diagnostic.hasCode (code : String) (g : Diagnostic) : Bool := g.code == code

/-- Records agree if they are the same, apart from reports of further candidates. -/
def Comparison.butAmbiguity : Comparison where
  Agree x y := x.report.without (Diagnostic.hasCode "I0001") =
    y.report.without (Diagnostic.hasCode "I0001") ∧ x.log = y.log
  refl _ := ⟨rfl, rfl⟩
  append := by
    rintro ⟨ds, log⟩ ⟨ds', _⟩ ⟨es, log'⟩ ⟨es', _⟩ ⟨hds, rfl⟩ ⟨hes, rfl⟩
    simp only at hds hes
    simp only [Record.mk_append_mk, Report.without_append, hds, hes, and_self]

namespace Resolver

open ResolveM

variable {r : Resolver} {source source' : Source} {name : String} {c c' : Cache}

theorem without_ambiguity (d : Declaration) (others : List Declaration) :
    Report.without (Diagnostic.hasCode "I0001") ((ambiguity others).map d.diagnose) = [] := by
  apply Report.without_eq_nil
  intro g hg
  obtain ⟨p, hp, rfl⟩ := List.mem_map.mp hg
  exact beq_iff_eq.mpr (code_of_mem_ambiguity hp)

/-- Following a name comes to the same over sources that agree on the first candidates of all names
that it leads to. -/
theorem alike_reach (fuel : ℕ)
    (h : ∀ asked, ReflTransGen source.Mentions name asked →
      source.first asked = source'.first asked) (hc : c.Alike c') :
    (exec source (r.reach fuel name) c).Alike .butAmbiguity c c'
      (exec source' (r.reach fuel name) c') := by
  induction fuel generalizing name c c' with
  | zero => exact .silent hc rfl rfl _
  | succ fuel ih =>
    refine FirstAlike.reach ?_ rfl rfl (Comparison.refl _ _) hc
    rcases Source.first_eq_cases (h name .refl) with
      ⟨error, hs, hs'⟩ | ⟨hs, hs'⟩ | ⟨d, others, others', hs, hs'⟩
    · exact .failed hs hs'
    · exact .missing hs hs'
    · refine .declared hs hs' ⟨by simp only [without_ambiguity], rfl⟩ (.same ?_)
        fun supers => ⟨rfl, Comparison.refl _ _⟩
      intro target htarget c₁ c₁' hc₁
      have hfirst : source.first name = .ok (some d) := by simp [Source.first, hs, Except.map]
      exact ih (fun asked hasked => h asked (.head ⟨d, hfirst, htarget⟩ hasked)) hc₁

/-- Whether a request for `name` on an empty cache cannot tell two sources apart. -/
structure Indistinct (r : Resolver) (source source' : Source) (name : String) : Prop where
  answer_eq : r.answer .empty ⟨source, name⟩ = r.answer .empty ⟨source', name⟩
  fetches_eq : r.fetches .empty ⟨source, name⟩ = r.fetches .empty ⟨source', name⟩
  events_eq : r.events .empty ⟨source, name⟩ = r.events .empty ⟨source', name⟩
  /-- The same is reported, except for types that have further candidates. -/
  report_eq :
    (r.serve .empty ⟨source, name⟩).report.without (Diagnostic.hasCode "I0001") =
      (r.serve .empty ⟨source', name⟩).report.without (Diagnostic.hasCode "I0001")
  slots_eq : (r.serve .empty ⟨source, name⟩).slots = (r.serve .empty ⟨source', name⟩).slots

theorem indistinct_of_first_eq (h : ∀ asked, ReflTransGen source.Mentions name asked →
    source.first asked = source'.first asked) : r.Indistinct source source' name := by
  have halike := alike_reach (r := r) (r.settings.depthLimit + 1) h (.refl .empty)
  obtain ⟨ds, ds', hds, hds', hreport, hlog⟩ := halike.records
  have hevents : r.events .empty ⟨source, name⟩ = r.events .empty ⟨source', name⟩ := by
    rw [events_eq, events_eq]
    exact hlog
  refine ⟨?_, by rw [fetches, fetches, hevents], hevents, ?_, ?_⟩
  · rw [answer_eq, answer_eq]
    exact congrArg (Except.map Edge.type?) halike.result_eq
  · rw [serve_eq, serve_eq, hds, hds', Report.without_append, Report.without_append]
    exact congrArg _ hreport
  · rw [serve_eq, serve_eq]
    exact halike.cache.slots_eq

end Resolver

namespace Codebase

def firstDeclared (c : Codebase) (k : TypeKey) : Option Declaration :=
  (c.files.keys.flatMap c.declarationsIn).find? fun d => d.key = k

theorem source_afterEdits (es : List Edit) :
    (afterEdits es).source = fun name => .ok (((afterEdits es).files.keys.flatMap
      (afterEdits es).declarationsIn).filter fun d => d.key = .ofName name) := by
  funext name
  have hcandidates := (indexed_afterEdits es).candidatesFor_eq name
  rw [← List.filter_flatMap] at hcandidates
  exact congrArg Except.ok hcandidates

theorem first_source_afterEdits (es : List Edit) (name : String) :
    (afterEdits es).source.first name = .ok ((afterEdits es).firstDeclared (.ofName name)) := by
  rw [Source.first, source_afterEdits, firstDeclared, ← List.head?_filter]
  rfl

end Codebase

namespace Resolver

/-- A request on an empty cache depends on the first candidates of the names it can reach, and on
nothing else of the source.  In particular edits of a codebase do not show in it as long as every
type that can be reached keeps its first declaration, whatever becomes of types that cannot be
reached and of declarations that stand behind another of the same type. -/
theorem first_candidates_decide (r : Resolver) (name : String) :
    (∀ source source' : Source,
      (∀ asked, ReflTransGen source.Mentions name asked →
        source.first asked = source'.first asked) → r.Indistinct source source' name) ∧
      ∀ es later : List Codebase.Edit,
        (∀ asked, ReflTransGen (Codebase.afterEdits es).source.Mentions name asked →
          (Codebase.afterEdits es).firstDeclared (.ofName asked) =
            (Codebase.afterEdits (es ++ later)).firstDeclared (.ofName asked)) →
        r.Indistinct (Codebase.afterEdits es).source (Codebase.afterEdits (es ++ later)).source
          name := by
  refine ⟨fun source source' h => indistinct_of_first_eq h, fun es later h => ?_⟩
  apply indistinct_of_first_eq
  intro asked hasked
  rw [Codebase.first_source_afterEdits, Codebase.first_source_afterEdits, h asked hasked]

def shadowed : List Codebase.Edit :=
  [.put ⟨0⟩ [((Declaration.ofName .classType "A").withParent "B").withInterface "Gone",
      .ofName .classType "B"],
    .put ⟨1⟩ [(Declaration.ofName .classType "b").withParent "A",
      (Declaration.ofName .classType "Z").withParent "Z"]]

def unshadowed : List Codebase.Edit := [.put ⟨1⟩ [(Declaration.ofName .classType "Z").withParent "A"]]

theorem first_candidates_decide_shadowed :
    standard.Indistinct (Codebase.afterEdits shadowed).source
        (Codebase.afterEdits (shadowed ++ unshadowed)).source "A" ∧
      (standard.serve .empty ⟨(Codebase.afterEdits shadowed).source, "A"⟩).report.anyWithCode
        "I0001" = true ∧
      (standard.serve .empty ⟨(Codebase.afterEdits (shadowed ++ unshadowed)).source,
        "A"⟩).report.anyWithCode "I0001" = false := by
  have hnext : ∀ asked ∈ ["A", "B", "Gone"],
      ∀ target ∈ (((Codebase.afterEdits shadowed).firstDeclared (.ofName asked)).map
        Declaration.supertypeNames).getD [], target ∈ ["A", "B", "Gone"] := by
    decide +kernel
  have hsame : ∀ asked ∈ ["A", "B", "Gone"],
      (Codebase.afterEdits shadowed).firstDeclared (.ofName asked) =
        (Codebase.afterEdits (shadowed ++ unshadowed)).firstDeclared (.ofName asked) := by
    decide +kernel
  have hreached (asked : String)
      (hasked : ReflTransGen (Codebase.afterEdits shadowed).source.Mentions "A" asked) :
      asked ∈ ["A", "B", "Gone"] := by
    induction hasked with
    | refl => decide
    | @tail asked target _ hmentions ih =>
      obtain ⟨d, hd, htarget⟩ := hmentions
      rw [Codebase.first_source_afterEdits, Except.ok.injEq] at hd
      exact hnext asked ih target (by simpa [hd] using htarget)
  refine ⟨(first_candidates_decide standard "A").2 shadowed unshadowed fun asked hasked =>
    hsame asked (hreached asked hasked), ?_, ?_⟩
  · rw [Codebase.source_afterEdits]
    decide +kernel
  · rw [Codebase.source_afterEdits]
    decide +kernel

end Resolver

end Hierarchy
