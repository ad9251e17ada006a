import Hierarchy.Proofs.InterfaceLists
import Hierarchy.Proofs.PlainRecursion

namespace Hierarchy

open Relation

namespace Source

variable {source : Source} {k k' : TypeKey}

/-- Whether no type that is listed as an interface by a type reachable from `k` has a parent. -/
def ParentlessInterfaces (source : Source) (k : TypeKey) : Prop :=
  ∀ a i p, source.Reaches k a → source.Implements a i → ¬ source.Extends i p

theorem ParentlessInterfaces.of_reaches (h : source.ParentlessInterfaces k)
    (hk : source.Reaches k k') : source.ParentlessInterfaces k' :=
  fun a i p ha => h a i p (hk.trans ha)

end Source

namespace ResolvedType

theorem mem_keysOf_lineage {t : ResolvedType} {k : TypeKey} :
    k ∈ keysOf (lineage (some t)) ↔
      k = t.key ∨ ∃ s, t.parent = some s ∧ k ∈ keysOf (lineage (some s)) := by
  rw [lineage_some, ancestors_eq_lineage]
  cases t.parent <;> simp [keysOf]

theorem conformsTo_iff_mem_keysOf {t : ResolvedType} {name : String} :
    t.conformsTo name = true ↔
      .ofName name ∈ keysOf (lineage (some t)) ∨ .ofName name ∈ keysOf t.interfaces := by
  have hany (ts : List ResolvedType) :
      ts.any (fun s => sameType s.name name) = true ↔ .ofName name ∈ keysOf ts := by
    simp [keysOf, sameType_iff_ofName_eq, Heading.key]
  have hself : sameType t.name name = true ↔ TypeKey.ofName name = t.key := by
    rw [sameType_iff_ofName_eq, eq_comm, Heading.key]
  simp only [conformsTo, Bool.or_eq_true, hany, hself]
  simp [keysOf]

/-- Whether the line and the interfaces of `t` show what is declared above the type `k`: the line,
all that is reached through parents, and the interfaces, all that is reached through parents, an
interface and anything above that. -/
structure Mirrors (t : ResolvedType) (source : Source) (k : TypeKey) : Prop where
  key_eq : t.key = k
  line : ∀ k', k' ∈ keysOf (lineage (some t)) ↔
    source.Declares k' ∧ ReflTransGen source.Extends k k'
  interfaces : ∀ k', k' ∈ keysOf t.interfaces ↔ source.Declares k' ∧
    ∃ a i, ReflTransGen source.Extends k a ∧ source.Implements a i ∧
      ReflTransGen source.Inherits i k'

variable {source : Source} {k : TypeKey} {t : ResolvedType}

/-- A type that mirrors what is declared conforms to its own names and to the declared types that it
reaches through parents and interfaces. -/
theorem Mirrors.conformsTo_iff (h : t.Mirrors source k) (name : String) :
    t.conformsTo name = true ↔ TypeKey.ofName name = k ∨
      source.Declares (.ofName name) ∧ TransGen source.Inherits k (.ofName name) := by
  have hdeclared : source.Declares k :=
    ((h.line k).mp (h.key_eq ▸ mem_keysOf_lineage.mpr (.inl rfl))).1
  have hreaches : t.conformsTo name = true ↔
      source.Declares (.ofName name) ∧ ReflTransGen source.Inherits k (.ofName name) := by
    rw [conformsTo_iff_mem_keysOf, h.line, h.interfaces, ← and_or_left, Source.inherits_iff]
  rw [hreaches, reflTransGen_iff_eq_or_transGen]
  constructor
  · rintro ⟨hname, heq | htrans⟩
    · exact .inl heq
    · exact .inr ⟨hname, htrans⟩
  · rintro (rfl | ⟨hname, htrans⟩)
    · exact ⟨hdeclared, .inl rfl⟩
    · exact ⟨hname, .inr htrans⟩

/-- Whether an answer for a name is right: a type that mirrors what is declared, or none if nothing
is. -/
def Answers (source : Source) (answer : String × Option ResolvedType) : Prop :=
  match answer.2 with
  | some s => s.Mirrors source (.ofName answer.1)
  | none => ¬ source.Declares (.ofName answer.1)

theorem Answers.mirrors {answer : String × Option ResolvedType} {s : ResolvedType}
    (h : Answers source answer) (hs : answer.2 = some s) : s.Mirrors source (.ofName answer.1) := by
  rw [Answers, hs] at h
  exact h

theorem Answers.exists_mirrors {answer : String × Option ResolvedType} (h : Answers source answer)
    (hdeclares : source.Declares (.ofName answer.1)) :
    ∃ s, answer.2 = some s ∧ s.Mirrors source (.ofName answer.1) := by
  rw [Answers] at h
  split at h
  · rename_i s hs
    exact ⟨s, hs, h⟩
  · exact absurd hdeclares h

theorem head?_reduceOption_eq_some_iff {d : Declaration}
    {parents : List (String × Option ResolvedType)} (h : parents.map Prod.fst = d.parent.toList)
    {s : ResolvedType} :
    (parents.map Prod.snd).reduceOption.head? = some s ↔ ∃ a ∈ parents, a.2 = some s := by
  cases hparent : d.parent with
  | none =>
    rw [hparent, Option.toList_none, List.map_eq_nil_iff] at h
    simp [h, List.reduceOption]
  | some target =>
    rw [hparent, Option.toList_some] at h
    obtain ⟨⟨name, v⟩, rfl⟩ := List.length_eq_one_iff.mp (by simpa using congrArg List.length h)
    cases v <;> simp [List.reduceOption]

/-- What is known of a type put together from the answers for its parent and its interfaces, in
terms of the edges of its declaration. -/
structure MadeOf (t : ResolvedType) (source : Source) (k : TypeKey)
    (parents interfaces : List (String × Option ResolvedType)) : Prop where
  declares : source.Declares k
  key_eq : t.key = k
  extends_iff : ∀ k', source.Extends k k' ↔ ∃ a ∈ parents, TypeKey.ofName a.1 = k'
  implements_iff : ∀ k', source.Implements k k' ↔ ∃ a ∈ interfaces, TypeKey.ofName a.1 = k'
  parent_iff : ∀ s, t.parent = some s ↔ ∃ a ∈ parents, a.2 = some s
  interfaces_iff : ∀ k', k' ∈ keysOf t.interfaces ↔
    (∃ s, t.parent = some s ∧ k' ∈ keysOf s.interfaces) ∨
      ∃ a ∈ interfaces, ∃ i, a.2 = some i ∧ (k' = i.key ∨ k' ∈ keysOf i.interfaces)

variable {parents interfaces : List (String × Option ResolvedType)}

theorem MadeOf.mem_line_iff (h : t.MadeOf source k parents interfaces)
    (hparents : ∀ a ∈ parents, Answers source a) (k' : TypeKey) :
    k' ∈ keysOf (lineage (some t)) ↔ source.Declares k' ∧ ReflTransGen source.Extends k k' := by
  rw [mem_keysOf_lineage, h.key_eq]
  constructor
  · rintro (rfl | ⟨s, hs, hk'⟩)
    · exact ⟨h.declares, .refl⟩
    · obtain ⟨a, ha, has⟩ := (h.parent_iff s).mp hs
      obtain ⟨hdeclared, hup⟩ := (((hparents a ha).mirrors has).line k').mp hk'
      exact ⟨hdeclared, hup.head ((h.extends_iff _).mpr ⟨a, ha, rfl⟩)⟩
  · rintro ⟨hdeclared, hup⟩
    rcases ReflTransGen.cases_head hup with rfl | ⟨next, hnext, hup⟩
    · exact .inl rfl
    · obtain ⟨a, ha, rfl⟩ := (h.extends_iff next).mp hnext
      have hfirst := Source.declares_of_path (fun _ _ => Source.LeadsBy.declares) hup hdeclared
      obtain ⟨s, hs, hmirrors⟩ := (hparents a ha).exists_mirrors hfirst
      exact .inr ⟨s, (h.parent_iff s).mpr ⟨a, ha, hs⟩, (hmirrors.line k').mpr ⟨hdeclared, hup⟩⟩

theorem Mirrors.mem_interface_iff {i : ResolvedType} (h : i.Mirrors source k)
    (hparentless : ∀ p, ¬ source.Extends k p) (k' : TypeKey) :
    k' = i.key ∨ k' ∈ keysOf i.interfaces ↔
      source.Declares k' ∧ ReflTransGen source.Inherits k k' := by
  have hself (k') : ReflTransGen source.Extends k k' ↔ k' = k := by
    constructor
    · intro hup
      rcases ReflTransGen.cases_head hup with heq | ⟨next, hnext, -⟩
      · exact heq.symm
      · exact absurd hnext (hparentless next)
    · rintro rfl
      exact .refl
  have hline : k' = i.key ↔ source.Declares k' ∧ ReflTransGen source.Extends k k' := by
    rw [hself, h.key_eq]
    constructor
    · rintro rfl
      exact ⟨((h.line k').mp (mem_keysOf_lineage.mpr (.inl h.key_eq.symm))).1, rfl⟩
    · exact fun hk => hk.2
  rw [hline, h.interfaces, ← and_or_left, Source.inherits_iff]

theorem MadeOf.mem_interfaces_iff (h : t.MadeOf source k parents interfaces)
    (hparents : ∀ a ∈ parents, Answers source a) (hinterfaces : ∀ a ∈ interfaces, Answers source a)
    (hparentless : ∀ i p, source.Implements k i → ¬ source.Extends i p) (k' : TypeKey) :
    k' ∈ keysOf t.interfaces ↔ source.Declares k' ∧
      ∃ a i, ReflTransGen source.Extends k a ∧ source.Implements a i ∧
        ReflTransGen source.Inherits i k' := by
  rw [h.interfaces_iff]
  constructor
  · rintro (⟨s, hs, hk'⟩ | ⟨a, ha, i, hai, hk'⟩)
    · obtain ⟨a, ha, has⟩ := (h.parent_iff s).mp hs
      obtain ⟨hdeclared, b, i, hup, hi, hrest⟩ :=
        (((hparents a ha).mirrors has).interfaces k').mp hk'
      exact ⟨hdeclared, b, i, hup.head ((h.extends_iff _).mpr ⟨a, ha, rfl⟩), hi, hrest⟩
    · have himplements := (h.implements_iff _).mpr ⟨a, ha, rfl⟩
      have hmirrors := (hinterfaces a ha).mirrors hai
      obtain ⟨hdeclared, hrest⟩ :=
        (hmirrors.mem_interface_iff (hparentless _ · himplements) k').mp hk'
      exact ⟨hdeclared, k, .ofName a.1, .refl, himplements, hrest⟩
  · rintro ⟨hdeclared, b, i, hup, hi, hrest⟩
    rcases ReflTransGen.cases_head hup with rfl | ⟨next, hnext, hup⟩
    · -- The interface is one of the type's own.
      obtain ⟨a, ha, rfl⟩ := (h.implements_iff i).mp hi
      have hfirst := Source.declares_of_path (fun _ _ => Source.Inherits.declares) hrest hdeclared
      obtain ⟨i, hai, hmirrors⟩ := (hinterfaces a ha).exists_mirrors hfirst
      have hshown := (hmirrors.mem_interface_iff (hparentless _ · hi) k').mpr ⟨hdeclared, hrest⟩
      exact .inr ⟨a, ha, i, hai, hshown⟩
    · -- The interface comes in with the parent.
      obtain ⟨a, ha, rfl⟩ := (h.extends_iff next).mp hnext
      have hfirst := Source.declares_of_path (fun _ _ => Source.LeadsBy.declares) hup
        (Source.LeadsBy.declares hi)
      obtain ⟨s, has, hmirrors⟩ := (hparents a ha).exists_mirrors hfirst
      exact .inl ⟨s, (h.parent_iff s).mpr ⟨a, ha, has⟩,
        (hmirrors.interfaces k').mpr ⟨hdeclared, b, i, hup, hi, hrest⟩⟩

end ResolvedType

namespace Resolver

open ResolvedType

variable {r : Resolver} {source : Source} {name : String}

theorem madeOf_assemble (hhooks : ∀ hook ∈ r.hooks, hook.KeepsShape) (huniform : source.Uniform)
    (hkeyed : source.Keyed) {d : Declaration} {others : List Declaration}
    (hsource : source name = .ok (d :: others))
    {parents interfaces : List (String × Option ResolvedType)}
    (hparents : parents.map Prod.fst = d.parent.toList)
    (hinterfaces : interfaces.map Prod.fst = d.interfaces) (traits : List (Option ResolvedType)) :
    (d.assemble r.allHooks (.ofAnswers (parents.map Prod.snd) (interfaces.map Prod.snd)
      traits)).type.MadeOf source (.ofName name) parents interfaces := by
  have hshape := d.sameShape_assemble (forall_allHooks hhooks)
    (.ofAnswers (parents.map Prod.snd) (interfaces.map Prod.snd) traits)
  refine ⟨⟨name, d, others, rfl, hsource⟩, ?_, fun k' => ?_, fun k' => ?_, fun s => ?_,
    fun k' => ?_⟩
  · exact hshape.key_eq.trans (hkeyed name _ hsource d List.mem_cons_self)
  · rw [Source.Extends, huniform.leadsBy_iff hsource, ← hparents]
    simp
  · rw [Source.Implements, huniform.leadsBy_iff hsource, ← hinterfaces]
    simp
  · rw [hshape.parent_eq]
    exact head?_reduceOption_eq_some_iff hparents
  · have hgather : k' ∈ keysOf (d.assemble r.allHooks (.ofAnswers (parents.map Prod.snd)
        (interfaces.map Prod.snd) traits)).type.interfaces ↔
        (∃ s, (parents.map Prod.snd).reduceOption.head? = some s ∧ k' ∈ keysOf s.interfaces) ∨
          ∃ i ∈ (interfaces.map Prod.snd).reduceOption, k' = i.key ∨ k' ∈ keysOf i.interfaces := by
      rw [hshape.interfaces_eq]
      exact mem_keysOf_gatherInterfaces
    rw [hgather, hshape.parent_eq]
    refine or_congr Iff.rfl ?_
    simp only [List.reduceOption_mem_iff, List.mem_map]
    grind

/-- The answer that plain recursion comes to is right. -/
theorem answers_of_plainWithin (hhooks : ∀ hook ∈ r.hooks, hook.KeepsShape)
    (huniform : source.Uniform) (hkeyed : source.Keyed) {levels : ℕ} {v : Option ResolvedType}
    (hparentless : source.ParentlessInterfaces (.ofName name))
    (h : r.plainWithin source levels name = pure v) : Answers source (name, v) := by
  induction levels generalizing name v with
  | zero => cases h
  | succ levels ih =>
    rcases hsource : source name with error | _ | ⟨d, others⟩
    · rw [plainWithin, hsource] at h
      cases Option.some.inj h
    · rw [plainWithin, hsource] at h
      cases Option.some.inj h
      have hnot : ¬ source.Declares (.ofName name) := by
        rw [huniform.declares_iff]
        simp [hsource]
      exact hnot
    · obtain ⟨parents, interfaces, traits, hparents, hinterfaces, -, rfl, hall⟩ :=
        exists_answers_of_plainWithin hsource h
      have hmade := madeOf_assemble hhooks huniform hkeyed hsource hparents hinterfaces
        (traits.map Prod.snd)
      have hanswers : ∀ a ∈ parents ++ interfaces, Answers source a := by
        intro a ha
        have hname : a.1 ∈ d.supertypeNames := by
          rw [Declaration.supertypeNames, ← hparents, ← hinterfaces, ← List.map_append]
          exact List.mem_append_left _ (List.mem_map_of_mem ha)
        have hlead := Source.leads_of_mem hsource hname
        exact ih (hparentless.of_reaches (.single hlead)) (hall a (List.mem_append_left _ ha))
      have hpanswers := fun a ha => hanswers a (List.mem_append_left _ ha)
      have hianswers := fun a ha => hanswers a (List.mem_append_right _ ha)
      have hmirrors : (d.assemble r.allHooks (.ofAnswers (parents.map Prod.snd)
          (interfaces.map Prod.snd) (traits.map Prod.snd))).type.Mirrors source (.ofName name) :=
        ⟨hmade.key_eq, hmade.mem_line_iff hpanswers,
          hmade.mem_interfaces_iff hpanswers hianswers fun i p => hparentless _ i p .refl⟩
      exact hmirrors

theorem exists_mirrors_of_resolve (hhooks : ∀ hook ∈ r.hooks, hook.KeepsShape)
    (huniform : source.Uniform) (hkeyed : source.Keyed)
    (htotal : ∀ asked error, source asked ≠ .error error)
    (hdeclared : source.Declares (.ofName name)) (hacyclic : source.AcyclicFrom (.ofName name))
    (hpaths : source.PathsWithin (.ofName name) r.settings.depthLimit)
    (hparentless : source.ParentlessInterfaces (.ofName name)) :
    ∃ t, ((r.resolve name).run source).1 = .ok (some t) ∧ t.Mirrors source (.ofName name) := by
  obtain ⟨v, hv⟩ := exists_answer_of_total (r := r) htotal name .empty
  obtain ⟨outcome, ⟨levels, hlevels⟩, hanswer⟩ :=
    answer_eq_plain huniform .empty (faithful_empty (r := r)) hacyclic hpaths
  rw [resolve_eq_answer, hv]
  rw [hv] at hanswer
  have houtcome : outcome = .ok v := by
    cases outcome with
    | error error => cases hanswer
    | ok w => exact congrArg Except.ok (Except.ok.inj hanswer).symm
  subst houtcome
  have hright := answers_of_plainWithin hhooks huniform hkeyed hparentless (hlevels levels le_rfl)
  obtain ⟨t, rfl, hmirrors⟩ := hright.exists_mirrors hdeclared
  exact ⟨t, rfl, hmirrors⟩

/-- A declared type that lies on no cycle, and none of whose paths is cut, conforms to its own names
and to the declared types that it reaches through declared parents and interfaces, provided that no
interface on the way has a parent.  Whatever it conforms to is resolved too, and it conforms to all
that this conforms to. -/
theorem conformsTo_exactly (r : Resolver) (hhooks : ∀ hook ∈ r.hooks, hook.KeepsShape)
    (edits : List Codebase.Edit) (name : String) :
    let source := (Codebase.afterEdits edits).source
    source.Declares (.ofName name) → source.AcyclicFrom (.ofName name) →
    source.PathsWithin (.ofName name) r.settings.depthLimit →
    source.ParentlessInterfaces (.ofName name) →
    ∃ t, ((r.resolve name).run source).1 = .ok (some t) ∧
      (∀ other, t.conformsTo other = true ↔ TypeKey.ofName other = .ofName name ∨
        source.Declares (.ofName other) ∧
          TransGen source.Inherits (.ofName name) (.ofName other)) ∧
      ∀ other, t.conformsTo other = true →
        ∃ u, ((r.resolve other).run source).1 = .ok (some u) ∧
          ∀ further, u.conformsTo further = true → t.conformsTo further = true := by
  intro source hdeclared hacyclic hpaths hparentless
  have huniform : source.Uniform := Codebase.uniform_source _
  have hkeyed : source.Keyed := Codebase.keyed_source edits
  have htotal : ∀ asked error, source asked ≠ .error error := by simp [source, Codebase.source]
  clear_value source
  obtain ⟨t, ht, hmirrors⟩ := exists_mirrors_of_resolve hhooks huniform hkeyed htotal hdeclared
    hacyclic hpaths hparentless
  refine ⟨t, ht, hmirrors.conformsTo_iff, fun other hother => ?_⟩
  -- What the type conforms to is reached from it, and so stands under the same conditions.
  have hup : source.Declares (.ofName other) ∧
      ReflTransGen source.Inherits (.ofName name) (.ofName other) := by
    rcases (hmirrors.conformsTo_iff other).mp hother with heq | ⟨hdeclares, htrans⟩
    · rw [heq]
      exact ⟨hdeclared, .refl⟩
    · exact ⟨hdeclares, htrans.to_reflTransGen⟩
  have hreach : source.Reaches (.ofName name) (.ofName other) :=
    hup.2.lift id fun _ _ => Source.Inherits.leads
  obtain ⟨u, hu, humirrors⟩ := exists_mirrors_of_resolve hhooks huniform hkeyed htotal hup.1
    (hacyclic.of_reaches hreach) (hpaths.of_reaches hreach) (hparentless.of_reaches hreach)
  refine ⟨u, hu, fun further hfurther => ?_⟩
  rw [hmirrors.conformsTo_iff]
  rcases (humirrors.conformsTo_iff further).mp hfurther with heq | ⟨hdeclares, htrans⟩
  · rw [heq]
    exact (hmirrors.conformsTo_iff other).mp hother
  · exact .inr ⟨hdeclares, TransGen.trans_right hup.2 htrans⟩

def diamond : List Declaration :=
  [((Declaration.ofName .classType "C").withParent "P").withInterface "I",
    ((Declaration.ofName .classType "P").withParent "Gone").withInterface "J",
    (Declaration.ofName .interfaceType "I").withInterface "J", .ofName .interfaceType "J"]

theorem conformsTo_exactly_diamond :
    let source := (Codebase.afterEdits [.put ⟨0⟩ diamond]).source
    source.Declares (.ofName "C") ∧ source.AcyclicFrom (.ofName "C") ∧
      source.PathsWithin (.ofName "C") 5 ∧ source.ParentlessInterfaces (.ofName "C") ∧
      ∃ t, ((Resolver.resolve ⟨⟨5, true⟩, []⟩ "C").run source).1 = .ok (some t) ∧
        t.conformsTo "\\j" = true ∧ ¬ t.conformsTo "Gone" = true := by
  intro source
  -- Every edge leads to a type that stands further to the left.
  let rank (k : TypeKey) : ℕ := (["Gone", "J", "I", "P", "C"].map TypeKey.ofName).idxOf k
  have hrank (k k' : TypeKey) (hlead : source.Leads k k') : rank k' < rank k := by
    obtain ⟨d, hd, rfl, target, htarget, rfl⟩ := Codebase.mem_of_leadsBy hlead
    have hall : ∀ d ∈ diamond, ∀ target ∈ d.supertypeNames, rank (.ofName target) < rank d.key := by
      decide
    exact hall d hd target htarget
  have hparentless : source.ParentlessInterfaces (.ofName "C") := by
    rintro _ _ p - himplements hextends
    obtain ⟨d, hd, -, i, hi, rfl⟩ := Codebase.mem_of_leadsBy himplements
    obtain ⟨d', hd', hkey, target, htarget, -⟩ := Codebase.mem_of_leadsBy hextends
    have hall : ∀ d ∈ diamond, ∀ i ∈ d.interfaces, ∀ d' ∈ diamond, d'.key = .ofName i →
        d'.parent = none := by
      decide
    simp [hall d hd i hi d' hd' hkey] at htarget
  have huniform : source.Uniform := Codebase.uniform_source _
  have hc : source "C" =
      .ok [((Declaration.ofName .classType "C").withParent "P").withInterface "I"] := by
    decide +kernel
  have hp : source "P" =
      .ok [((Declaration.ofName .classType "P").withParent "Gone").withInterface "J"] := by
    decide +kernel
  have hj : source "J" = .ok [.ofName .interfaceType "J"] := by decide +kernel
  have hgone : source "Gone" = .ok [] := by decide +kernel
  have hdeclares : source.Declares (.ofName "C") := huniform.declares_iff.mpr ⟨_, _, hc⟩
  have hacyclic := Source.acyclicFrom_of_rank hrank (.ofName "C")
  have hpaths : source.PathsWithin (.ofName "C") 5 := Source.pathsWithin_of_rank hrank (.ofName "C")
  obtain ⟨t, ht, hexact, -⟩ := conformsTo_exactly ⟨⟨5, true⟩, []⟩ (by simp) [.put ⟨0⟩ diamond] "C"
    hdeclares hacyclic hpaths hparentless
  refine ⟨hdeclares, hacyclic, hpaths, hparentless, t, ht, (hexact "\\j").mpr (.inr ?_), ?_⟩
  · have hroot : TypeKey.ofName "\\j" = .ofName "J" := by decide
    have hcp : source.Extends (.ofName "C") (.ofName "P") :=
      (huniform.leadsBy_iff hc).mpr ⟨"P", by decide, rfl⟩
    have hpj : source.Implements (.ofName "P") (.ofName "J") :=
      (huniform.leadsBy_iff hp).mpr ⟨"J", by decide, rfl⟩
    rw [hroot]
    exact ⟨huniform.declares_iff.mpr ⟨_, _, hj⟩, .tail (.single (.inl hcp)) (.inr hpj)⟩
  · intro hconforms
    rcases (hexact "Gone").mp hconforms with heq | ⟨hdeclared, -⟩
    · exact absurd heq (by decide)
    · obtain ⟨d, others, hd⟩ := huniform.declares_iff.mp hdeclared
      simp [hgone] at hd

end Resolver

end Hierarchy
