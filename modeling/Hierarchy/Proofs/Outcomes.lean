import Mathlib.Data.List.ReduceOption
import Hierarchy.Resolver.Equations

namespace Hierarchy

namespace Outcome

variable {α β : Type}

def Meets (o : Outcome α) (post : α → Cache → List Event → Prop)
    (stop : Halt → Cache → List Event → Prop) : Prop :=
  match o.result with
  | .ok a => post a o.cache o.log
  | .error halt => stop halt o.cache o.log

variable {post post' : α → Cache → List Event → Prop} {stop stop' : Halt → Cache → List Event → Prop}

@[simp]
theorem meets_ok (a : α) (c : Cache) (log : List Event) :
    Meets ⟨.ok a, c, log⟩ post stop ↔ post a c log := Iff.rfl

@[simp]
theorem meets_error (halt : Halt) (c : Cache) (log : List Event) :
    Meets (⟨.error halt, c, log⟩ : Outcome α) post stop ↔ stop halt c log := Iff.rfl

theorem Meets.imp {o : Outcome α} (h : o.Meets post stop)
    (hpost : ∀ a c log, post a c log → post' a c log)
    (hstop : ∀ halt c log, stop halt c log → stop' halt c log) : o.Meets post' stop' := by
  obtain ⟨result, c, log⟩ := o
  cases result with
  | ok a => exact hpost a c log h
  | error halt => exact hstop halt c log h

theorem Meets.and {o : Outcome α} (h : o.Meets post stop) (h' : o.Meets post' stop') :
    o.Meets (fun a c log => post a c log ∧ post' a c log)
      (fun halt c log => stop halt c log ∧ stop' halt c log) := by
  obtain ⟨result, c, log⟩ := o
  cases result with
  | ok a => exact ⟨h, h'⟩
  | error halt => exact ⟨h, h'⟩

theorem meets_of_forall {o : Outcome α} (hpost : ∀ a c log, post a c log)
    (hstop : ∀ halt c log, stop halt c log) : o.Meets post stop := by
  obtain ⟨result, c, log⟩ := o
  cases result with
  | ok a => exact hpost a c log
  | error halt => exact hstop halt c log

theorem meets_of_cache {p : Cache → Prop} {o : Outcome α} (h : p o.cache) :
    o.Meets (fun _ c _ => p c) (fun _ c _ => p c) := by
  obtain ⟨result, c, log⟩ := o
  cases result with
  | ok a => exact h
  | error halt => exact h

theorem Meets.cache {p : Cache → Prop} {o : Outcome α}
    (h : o.Meets (fun _ c _ => p c) (fun _ c _ => p c)) : p o.cache := by
  obtain ⟨result, c, log⟩ := o
  cases result with
  | ok a => exact h
  | error halt => exact h

theorem meets_andThen {o : Outcome β} {f : β → Cache → Outcome α} :
    (o.andThen f).Meets post stop ↔
      o.Meets (fun b c log => (f b c).Meets (fun a c' log' => post a c' (log ++ log'))
        (fun halt c' log' => stop halt c' (log ++ log'))) stop := by
  obtain ⟨result, c, log⟩ := o
  cases result with
  | ok b => exact Iff.rfl
  | error halt => exact Iff.rfl

end Outcome

namespace Edge

@[simp]
theorem ofResult_none : ofResult none = missing := rfl

@[simp]
theorem ofResult_some (t : ResolvedType) : ofResult (some t) = found t := rfl

theorem ofResult_injective : Function.Injective ofResult := by
  intro v w h
  cases v <;> cases w <;> simp_all [ofResult]

@[simp]
theorem type?_ofResult (v : Option ResolvedType) : (ofResult v).type? = v := by
  cases v <;> rfl

theorem type?_eq_some_iff {edge : Edge} {t : ResolvedType} :
    edge.type? = some t ↔ edge = .found t := by
  cases edge <;> simp [type?]

end Edge

namespace Cache

/-- Ends work on a type.  The answer is kept unless an edge was cut since there were `cuts` cuts. -/
def conclude (c : Cache) (cuts : Nat) (key : TypeKey) (result : Option ResolvedType) : Cache :=
  if cuts < c.cuts then c.release key else c.settle key result

@[simp]
theorem report_conclude (c : Cache) (cuts : ℕ) (key : TypeKey) (v : Option ResolvedType) :
    (c.conclude cuts key v).report = c.report := by
  unfold conclude
  split <;> rfl

end Cache

def Supertypes.ofAnswers (parents interfaces traits : List (Option ResolvedType)) : Supertypes :=
  let parent := parents.reduceOption.head?
  ⟨parent, gatherInterfaces parent interfaces.reduceOption, traits.reduceOption⟩

namespace Resolver

open ResolveM

variable {r : Resolver} {source : Source} {follow : String → ResolveM Edge}

/-- What the type of `d` makes of an edge once it has been followed: the supertype it supplies, and
the cache with the note of a reentry taken up and a refusal reported. -/
def linked (r : Resolver) (d : Declaration) (key : TypeKey) (relation target : String) (edge : Edge)
    (c : Cache) : Option ResolvedType × Cache :=
  match edge.supply relation target r.settings.depthLimit (c.takeReentry key).1 with
  | .ok t => (some t, (c.takeReentry key).2)
  | .error problem => (none, (c.takeReentry key).2.add (d.diagnose problem))

theorem exec_link_eq_linked (d : Declaration) (key : TypeKey) (relation target : String)
    (c : Cache) :
    exec source (r.link follow d key relation target) c =
      (exec source (follow target) c).andThen fun edge c' =>
        ⟨.ok (r.linked d key relation target edge c').1,
          (r.linked d key relation target edge c').2, []⟩ := by
  rw [exec_link]
  congr 1
  funext edge c'
  simp only [linked]
  cases edge.supply relation target r.settings.depthLimit (c'.takeReentry key).1 <;> rfl

section Linked

variable {d : Declaration} {key : TypeKey} {relation target : String} {edge : Edge} {c : Cache}

@[simp]
theorem slots_linked : (r.linked d key relation target edge c).2.slots = c.slots := by
  unfold linked
  split <;> rfl

@[simp]
theorem depth_linked : (r.linked d key relation target edge c).2.depth = c.depth := by
  unfold linked
  split <;> rfl

@[simp]
theorem cuts_linked : (r.linked d key relation target edge c).2.cuts = c.cuts := by
  unfold linked
  split <;> rfl

@[simp]
theorem reentered_linked :
    (r.linked d key relation target edge c).2.reentered = c.reentered.filter fun k => k ≠ key := by
  unfold linked
  split <;> rfl

theorem report_linked :
    (r.linked d key relation target edge c).2.report = c.report ++
      match edge.supply relation target r.settings.depthLimit (decide (key ∈ c.reentered)) with
      | .ok _ => []
      | .error problem => [d.diagnose problem] := by
  simp only [linked, Cache.takeReentry]
  split
  · simp
  · rfl

theorem eq_found_of_linked {t : ResolvedType}
    (h : (r.linked d key relation target edge c).1 = some t) : edge = .found t := by
  unfold linked at h
  cases edge <;> grind [Edge.supply]

theorem linked_of_notMem (h : key ∉ c.reentered) :
    (r.linked d key relation target edge c).1 = edge.type? := by
  cases edge <;> simp [linked, Cache.takeReentry, Edge.supply, Edge.type?, h]

theorem linked_ofResult {v : Option ResolvedType} (h : key ∉ c.reentered) :
    (r.linked d key relation target (.ofResult v) c).1 = v := by
  rw [linked_of_notMem h]
  cases v <;> rfl

theorem linked_of_mem (h : key ∈ c.reentered) :
    (r.linked d key relation target edge c).1 = none := by
  cases edge <;> simp [linked, Cache.takeReentry, Edge.supply, h]

end Linked

section Edges

variable {d : Declaration} {key : TypeKey}
  {inv : List (String × Option ResolvedType) → Cache → List Event → Prop}
  {stop : Halt → Cache → List Event → Prop}

/-- Whether following the edges of `d` one by one keeps `inv`, a statement about the answers so far,
the cache and the log, and whether `stop` holds when the work stops at one of them. -/
def EdgesKeep (r : Resolver) (source : Source) (follow : String → ResolveM Edge) (d : Declaration)
    (key : TypeKey) (inv : List (String × Option ResolvedType) → Cache → List Event → Prop)
    (stop : Halt → Cache → List Event → Prop) : Prop :=
  ∀ relation answers target c log, answers.map Prod.fst ++ [target] <+: d.supertypeNames →
    inv answers c log →
    (exec source (follow target) c).Meets
      (fun edge c' log' =>
        inv (answers ++ [(target, (r.linked d key relation target edge c').1)])
          (r.linked d key relation target edge c').2 (log ++ log'))
      (fun halt c' log' => stop halt c' (log ++ log'))

theorem EdgesKeep.linkAll (h : EdgesKeep r source follow d key inv stop) (relation : String)
    (targets : List String) (answers : List (String × Option ResolvedType)) (c : Cache)
    (log : List Event) (hpos : answers.map Prod.fst ++ targets <+: d.supertypeNames)
    (hinv : inv answers c log) :
    (exec source (r.linkAll follow d key relation targets) c).Meets
      (fun ts c' log' => ∃ more : List (String × Option ResolvedType),
        more.map Prod.fst = targets ∧ ts = more.filterMap Prod.snd ∧
          inv (answers ++ more) c' (log ++ log'))
      (fun halt c' log' => stop halt c' (log ++ log')) := by
  induction targets generalizing answers c log with
  | nil => exact ⟨[], rfl, rfl, by simpa using hinv⟩
  | cons target rest ih =>
    have hhead : answers.map Prod.fst ++ [target] <+: d.supertypeNames := by
      refine List.IsPrefix.trans ⟨rest, ?_⟩ hpos
      simp
    rw [exec_linkAll_cons, exec_link_eq_linked, Outcome.meets_andThen, Outcome.meets_andThen]
    refine (h relation answers target c log hhead hinv).imp ?_ ?_
    · intro edge c₁ log₁ hinv₁
      rw [Outcome.meets_ok, Outcome.meets_andThen]
      refine (ih _ _ _ (by simpa using hpos) hinv₁).imp ?_ ?_
      · rintro ts c₂ log₂ ⟨more, hmore, rfl, hinv₂⟩
        refine ⟨(target, (r.linked d key relation target edge c₁).1) :: more, by simp [hmore], ?_, ?_⟩
        · cases (r.linked d key relation target edge c₁).1 <;> simp
        · simpa using hinv₂
      · intro halt c₂ log₂ hstop
        simpa using hstop
    · intro halt c₁ log₁ hstop
      exact hstop

theorem EdgesKeep.supertypes (h : EdgesKeep r source follow d key inv stop) (c : Cache)
    (hinv : inv [] c []) :
    (exec source (r.supertypes follow d key) c).Meets
      (fun supers c' log => ∃ parents interfaces traits : List (String × Option ResolvedType),
        parents.map Prod.fst = d.parent.toList ∧ interfaces.map Prod.fst = d.interfaces ∧
          traits.map Prod.fst = d.usedTraits ∧
          supers = .ofAnswers (parents.map Prod.snd) (interfaces.map Prod.snd)
            (traits.map Prod.snd) ∧
          inv (parents ++ interfaces ++ traits) c' log)
      stop := by
  -- Each group of names starts where the one before it left off.
  rw [exec_supertypes, Outcome.meets_andThen]
  refine (h.linkAll _ _ [] c [] ⟨d.interfaces ++ d.usedTraits, ?_⟩ hinv).imp ?_ ?_
  · simp [Declaration.supertypeNames]
  · rintro ps c₁ log₁ ⟨parents, hparents, rfl, hinv₁⟩
    rw [Outcome.meets_andThen]
    refine (h.linkAll _ _ parents c₁ log₁ ⟨d.usedTraits, ?_⟩ (by simpa using hinv₁)).imp ?_ ?_
    · simp [Declaration.supertypeNames, hparents]
    · rintro is c₂ log₂ ⟨interfaces, hinterfaces, rfl, hinv₂⟩
      rw [Outcome.meets_andThen]
      refine (h.linkAll _ _ (parents ++ interfaces) c₂ (log₁ ++ log₂) ⟨[], ?_⟩ hinv₂).imp ?_ ?_
      · simp [Declaration.supertypeNames, hparents, hinterfaces]
      · rintro ts c₃ log₃ ⟨traits, htraits, rfl, hinv₃⟩
        refine ⟨parents, interfaces, traits, hparents, hinterfaces, htraits, ?_, ?_⟩
        · simp [Supertypes.ofAnswers, List.reduceOption, List.filterMap_map]
        · simpa using hinv₃
      · intro halt c₃ log₃ hstop
        simpa using hstop
    · intro halt c₂ log₂ hstop
      exact hstop
  · intro halt c₁ log₁ hstop
    exact hstop

end Edges

/-- Everything one step can do: answer from the cache, meet a type being worked on, cut the edge, be
refused by the source, find no declaration, or build the type from its first candidate. -/
theorem meets_step {name : String} {c : Cache} {post : Edge → Cache → List Event → Prop}
    {stop : Halt → Cache → List Event → Prop}
    (done : ∀ v, c.slots.get? (.ofName name) = some (.done v) → post (.ofResult v) c [])
    (cycle : c.slots.get? (.ofName name) = some .underway →
      post .cycle (c.reenter (.ofName name)) [])
    (tooDeep : c.slots.get? (.ofName name) = none → r.settings.depthLimit ≤ c.depth →
      post .tooDeep c.cutEdge [])
    (refused : c.slots.get? (.ofName name) = none → c.depth < r.settings.depthLimit →
      ∀ error, source name = .error error →
        stop (.source error) ((c.start (.ofName name)).release (.ofName name)) [.fetched name])
    (missing : c.slots.get? (.ofName name) = none → c.depth < r.settings.depthLimit →
      source name = .ok [] →
        post .missing ((c.start (.ofName name)).settle (.ofName name) none) [.fetched name])
    (built : c.slots.get? (.ofName name) = none → c.depth < r.settings.depthLimit →
      ∀ d others, source name = .ok (d :: others) →
        (exec source (r.supertypes follow d (.ofName name))
            ((c.start (.ofName name)).addAll ((ambiguity others).map d.diagnose))).Meets
          (fun supers c' log =>
            post (.found (d.assemble r.allHooks supers).type)
              ((c'.addAll ((d.assemble r.allHooks supers).problems.map d.diagnose)).conclude c.cuts
                (.ofName name) (some (d.assemble r.allHooks supers).type))
              (.fetched name ::
                (log ++ (d.assemble r.allHooks supers).applications.map .applied)))
          (fun halt c' log => stop halt (c'.release (.ofName name)) (.fetched name :: log))) :
    (exec source (r.step follow name) c).Meets post stop := by
  rw [exec_step]
  rcases hslot : c.slots.get? (.ofName name) with _ | ⟨_ | v⟩
  · by_cases hdepth : r.settings.depthLimit ≤ c.depth
    · simpa only [hdepth, if_true, Outcome.meets_ok] using tooDeep hslot hdepth
    have hroom : c.depth < r.settings.depthLimit := Nat.lt_of_not_le hdepth
    simp only [hdepth, if_false]
    rw [exec_work, exec_build, exec_fetch]
    rcases hsource : source name with error | _ | ⟨d, others⟩
    · exact refused hslot hroom error hsource
    · simpa [Cache.start] using missing hslot hroom hsource
    · -- Only a type with a declaration has edges, and the work may stop at one of them.
      have hbuilt := built hslot hroom d others hsource
      simp only [Outcome.andThen_ok]
      revert hbuilt
      rcases exec source (r.supertypes follow d (.ofName name)) _ with ⟨_ | supers, c', log⟩
      · simp
      · simp [Cache.conclude]
  · exact cycle hslot
  · exact done v hslot

end Resolver

end Hierarchy
