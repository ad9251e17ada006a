import Mathlib.Data.List.Chain
import Mathlib.Logic.Relation
import Hierarchy.Codebase

namespace Hierarchy

namespace Source

open Relation

variable {source : Source} {k k' : TypeKey} {name target : String} {d : Declaration}
  {others : List Declaration}

/-- Whether the answer for a name depends on its key alone. -/
def Uniform (source : Source) : Prop :=
  ∀ a b, TypeKey.ofName a = TypeKey.ofName b → source a = source b

/-- Whether all candidates for a name are declarations of the type it denotes. -/
def Keyed (source : Source) : Prop :=
  ∀ name candidates, source name = .ok candidates → ∀ d ∈ candidates, d.key = .ofName name

/-- Whether the first candidate for `k` names `k'` as its parent, an interface or a trait. -/
def Leads (source : Source) (k k' : TypeKey) : Prop :=
  ∃ name d others, TypeKey.ofName name = k ∧ source name = .ok (d :: others) ∧
    ∃ target ∈ d.supertypeNames, TypeKey.ofName target = k'

def LeadsBy (source : Source) (names : Declaration → List String) (k k' : TypeKey) : Prop :=
  ∃ name d others, TypeKey.ofName name = k ∧ source name = .ok (d :: others) ∧
    ∃ target ∈ names d, TypeKey.ofName target = k'

def Declares (source : Source) (k : TypeKey) : Prop :=
  ∃ name d others, TypeKey.ofName name = k ∧ source name = .ok (d :: others)

abbrev Reaches (source : Source) : TypeKey → TypeKey → Prop := ReflTransGen source.Leads

/-- Whether `d` is the first candidate for `k` or for a type that can be reached from there. -/
def DeclaresBelow (source : Source) (k : TypeKey) (d : Declaration) : Prop :=
  ∃ name others, source.Reaches k (.ofName name) ∧ source name = .ok (d :: others)

theorem DeclaresBelow.of_reaches (h : source.DeclaresBelow k' d) (hk : source.Reaches k k') :
    source.DeclaresBelow k d := by
  obtain ⟨name, others, hreach, hsource⟩ := h
  exact ⟨name, others, hk.trans hreach, hsource⟩

theorem declaresBelow_self (h : source name = .ok (d :: others)) :
    source.DeclaresBelow (.ofName name) d :=
  ⟨name, others, .refl, h⟩

/-- Whether no type reachable from `k` leads back to itself. -/
def AcyclicFrom (source : Source) (k : TypeKey) : Prop :=
  ∀ k', source.Reaches k k' → ¬ TransGen source.Leads k' k'

/-- Whether every path of supertypes that starts at `k` has at most `n` types. -/
def PathsWithin (source : Source) (k : TypeKey) (n : ℕ) : Prop :=
  ∀ path, List.IsChain source.Leads (k :: path) → (k :: path).length ≤ n

theorem leads_of_mem (hsource : source name = .ok (d :: others)) (h : target ∈ d.supertypeNames) :
    source.Leads (.ofName name) (.ofName target) :=
  ⟨name, d, others, rfl, hsource, target, h, rfl⟩

theorem leads_next {before : List String} (hsource : source name = .ok (d :: others))
    (h : before ++ [target] <+: d.supertypeNames) :
    source.Leads (.ofName name) (.ofName target) :=
  leads_of_mem hsource (h.subset (by simp))

theorem forall_transGen_cons {stack : List TypeKey}
    (h : ∀ k'' ∈ stack, TransGen source.Leads k'' k) (hk : source.Leads k k') :
    ∀ k'' ∈ k :: stack, TransGen source.Leads k'' k' := by
  intro k'' hmem
  rcases List.mem_cons.mp hmem with rfl | hmem
  · exact .single hk
  · exact (h k'' hmem).tail hk

theorem Uniform.leadsBy_iff {names : Declaration → List String} (huniform : source.Uniform)
    (hsource : source name = .ok (d :: others)) :
    source.LeadsBy names (.ofName name) k ↔ ∃ target ∈ names d, TypeKey.ofName target = k := by
  constructor
  · rintro ⟨name', d', others', hname, hsource', target, htarget, rfl⟩
    have heq := huniform name' name hname
    rw [hsource', hsource] at heq
    obtain ⟨rfl, -⟩ := List.cons.inj (Except.ok.inj heq)
    exact ⟨target, htarget, rfl⟩
  · rintro ⟨target, htarget, rfl⟩
    exact ⟨name, d, others, rfl, hsource, target, htarget, rfl⟩

theorem Uniform.mem_of_leads (huniform : source.Uniform) (hsource : source name = .ok (d :: others))
    (h : source.Leads (.ofName name) k) : ∃ target ∈ d.supertypeNames, TypeKey.ofName target = k :=
  (huniform.leadsBy_iff hsource).mp h

theorem Uniform.exists_of_leads {α : Type} {answers : List (String × α)} (huniform : source.Uniform)
    (hsource : source name = .ok (d :: others))
    (hanswers : answers.map Prod.fst = d.supertypeNames) (h : source.Leads (.ofName name) k) :
    ∃ p ∈ answers, TypeKey.ofName p.1 = k := by
  obtain ⟨target, htarget, rfl⟩ := huniform.mem_of_leads hsource h
  rw [← hanswers] at htarget
  obtain ⟨p, hp, rfl⟩ := List.mem_map.mp htarget
  exact ⟨p, hp, rfl⟩

theorem Uniform.not_leads (huniform : source.Uniform) (hsource : source name = .ok []) :
    ¬ source.Leads (.ofName name) k := by
  rintro ⟨name', d, others, hname, hsource', -⟩
  have heq := huniform name' name hname
  simp [hsource', hsource] at heq

def supertypeNames (source : Source) (name : String) : List String :=
  match source name with
  | .ok (d :: _) => d.supertypeNames
  | _ => []

/-- Whether the first candidates for these names lead to no other types. -/
def ClosedOn (source : Source) (names : List String) : Prop :=
  ∀ name ∈ names, ∀ target ∈ source.supertypeNames name,
    TypeKey.ofName target ∈ names.map TypeKey.ofName

instance (source : Source) (names : List String) : Decidable (source.ClosedOn names) :=
  inferInstanceAs (Decidable (∀ name ∈ names, ∀ target ∈ source.supertypeNames name,
    TypeKey.ofName target ∈ names.map TypeKey.ofName))

theorem ClosedOn.mem_of_reaches {names : List String} (hclosed : source.ClosedOn names)
    (huniform : source.Uniform) (hk : k ∈ names.map TypeKey.ofName) (h : source.Reaches k k') :
    k' ∈ names.map TypeKey.ofName := by
  induction h with
  | refl => exact hk
  | tail _ hlead ih =>
    obtain ⟨name, hname, rfl⟩ := List.mem_map.mp ih
    obtain ⟨name', d, others, heq, hsource, target, htarget, rfl⟩ := hlead
    rw [huniform name' name heq] at hsource
    exact hclosed name hname target (by simpa [supertypeNames, hsource] using htarget)

theorem AcyclicFrom.of_leads (h : source.AcyclicFrom k) (hk : source.Leads k k') :
    source.AcyclicFrom k' :=
  fun _ hreach => h _ (ReflTransGen.head hk hreach)

theorem AcyclicFrom.not_reaches (h : source.AcyclicFrom k) (hk : source.Leads k k') :
    ¬ source.Reaches k' k :=
  fun hback => h k .refl (TransGen.head' hk hback)

theorem acyclicFrom_of_acc (h : Acc (fun a b => source.Leads b a) k) : source.AcyclicFrom k := by
  induction h with
  | intro k _ ih =>
    intro k' hreach hcycle
    rcases ReflTransGen.cases_head hreach with rfl | ⟨next, hnext, hreach⟩
    · -- A cycle through `k` also goes through the type that `k` leads to on it.
      obtain ⟨next, hnext, hback⟩ := TransGen.head'_iff.mp hcycle
      exact ih next hnext next .refl (TransGen.tail' hback hnext)
    · exact ih next hnext k' hreach hcycle

theorem PathsWithin.of_leads {n : ℕ} (h : source.PathsWithin k (n + 1)) (hk : source.Leads k k') :
    source.PathsWithin k' n := by
  intro path hpath
  have := h (k' :: path) (List.isChain_cons_cons.mpr ⟨hk, hpath⟩)
  simpa using this

theorem PathsWithin.pos {n : ℕ} (h : source.PathsWithin k n) : 0 < n := by
  have := h [] (List.isChain_singleton k)
  simp only [List.length_singleton] at this
  omega

theorem PathsWithin.of_reaches {n : ℕ} (h : source.PathsWithin k n) (hk : source.Reaches k k') :
    source.PathsWithin k' n := by
  induction hk with
  | refl => exact h
  | tail _ hlead ih =>
    obtain ⟨m, rfl⟩ := Nat.exists_eq_add_one.mpr ih.pos
    intro path hpath
    have := ih.of_leads hlead path hpath
    omega

theorem AcyclicFrom.of_reaches (h : source.AcyclicFrom k) (hk : source.Reaches k k') :
    source.AcyclicFrom k' :=
  fun _ hreach => h _ (hk.trans hreach)

theorem acyclicFrom_of_rank {rank : TypeKey → ℕ}
    (h : ∀ k k', source.Leads k k' → rank k' < rank k) (k : TypeKey) : source.AcyclicFrom k := by
  apply acyclicFrom_of_acc
  apply Subrelation.accessible (fun {a b} hlead => h b a hlead)
  exact InvImage.accessible rank (Nat.lt_wfRel.wf.apply (rank k))

theorem pathsWithin_of_rank {rank : TypeKey → ℕ}
    (h : ∀ k k', source.Leads k k' → rank k' < rank k) (k : TypeKey) :
    source.PathsWithin k (rank k + 1) := by
  intro path hpath
  induction path generalizing k with
  | nil => simp
  | cons next path ih =>
    obtain ⟨hlead, hpath⟩ := List.isChain_cons_cons.mp hpath
    have hlen := ih next hpath
    have hlt := h k next hlead
    simp only [List.length_cons] at hlen ⊢
    omega

def Extends (source : Source) : TypeKey → TypeKey → Prop := source.LeadsBy fun d => d.parent.toList

def Implements (source : Source) : TypeKey → TypeKey → Prop := source.LeadsBy fun d => d.interfaces

def Inherits (source : Source) (k k' : TypeKey) : Prop :=
  source.Extends k k' ∨ source.Implements k k'

section Kinds

variable {names : Declaration → List String}

theorem LeadsBy.declares (h : source.LeadsBy names k k') : source.Declares k := by
  obtain ⟨name, d, others, hname, hsource, -⟩ := h
  exact ⟨name, d, others, hname, hsource⟩

theorem LeadsBy.leads (hnames : ∀ d : Declaration, names d ⊆ d.supertypeNames)
    (h : source.LeadsBy names k k') : source.Leads k k' := by
  obtain ⟨name, d, others, hname, hsource, target, htarget, rfl⟩ := h
  exact ⟨name, d, others, hname, hsource, target, hnames d htarget, rfl⟩

theorem Inherits.declares (h : source.Inherits k k') : source.Declares k := by
  rcases h with h | h
  · exact LeadsBy.declares h
  · exact LeadsBy.declares h

theorem Inherits.leads (h : source.Inherits k k') : source.Leads k k' := by
  rcases h with h | h
  · refine LeadsBy.leads (fun d target htarget => ?_) h
    exact List.mem_append_left _ (List.mem_append_left _ htarget)
  · refine LeadsBy.leads (fun d target htarget => ?_) h
    exact List.mem_append_left _ (List.mem_append_right _ htarget)

theorem Uniform.declares_iff (huniform : source.Uniform) :
    source.Declares (.ofName name) ↔ ∃ d others, source name = .ok (d :: others) := by
  constructor
  · rintro ⟨name', d, others, hname, hsource⟩
    exact ⟨d, others, (huniform name' name hname).symm.trans hsource⟩
  · rintro ⟨d, others, hsource⟩
    exact ⟨name, d, others, rfl, hsource⟩

theorem declares_of_path {edge : TypeKey → TypeKey → Prop}
    (hedge : ∀ a b, edge a b → source.Declares a) (h : ReflTransGen edge k k')
    (hk' : source.Declares k') : source.Declares k := by
  rcases ReflTransGen.cases_head h with rfl | ⟨next, hnext, -⟩
  · exact hk'
  · exact hedge k next hnext

theorem inherits_iff : ReflTransGen source.Inherits k k' ↔
    ReflTransGen source.Extends k k' ∨ ∃ a i, ReflTransGen source.Extends k a ∧
      source.Implements a i ∧ ReflTransGen source.Inherits i k' := by
  constructor
  · intro h
    induction h using ReflTransGen.head_induction_on with
    | refl => exact .inl .refl
    | @head k next hnext hrest ih =>
      rcases hnext with hextends | himplements
      · rcases ih with hup | ⟨a, i, hup, hi, hrest⟩
        · exact .inl (hup.head hextends)
        · exact .inr ⟨a, i, hup.head hextends, hi, hrest⟩
      · exact .inr ⟨k, next, .refl, himplements, hrest⟩
  · have hlift {a b} (hup : ReflTransGen source.Extends a b) : ReflTransGen source.Inherits a b :=
      hup.lift id fun _ _ => .inl
    rintro (hup | ⟨a, i, hup, hi, hrest⟩)
    · exact hlift hup
    · exact (hlift hup).trans (hrest.head (.inr hi))

end Kinds

end Source

end Hierarchy
