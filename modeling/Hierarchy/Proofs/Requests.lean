import Hierarchy.Proofs.CallStack

namespace Hierarchy

def namesAsked (log : List Event) : List String := log.filterMap Event.fetched?

@[simp]
theorem namesAsked_nil : namesAsked [] = [] := rfl

@[simp]
theorem namesAsked_fetched (name : String) (log : List Event) :
    namesAsked (.fetched name :: log) = name :: namesAsked log := rfl

@[simp]
theorem namesAsked_append (log log' : List Event) :
    namesAsked (log ++ log') = namesAsked log ++ namesAsked log' :=
  List.filterMap_append

@[simp]
theorem namesAsked_applied (applications : List Application) :
    namesAsked (applications.map .applied) = [] := by
  rw [namesAsked, List.filterMap_map]
  exact List.filterMap_eq_nil_iff.mpr fun _ _ => rfl

structure Request where
  source : Source
  name : String

namespace Resolver

open ResolveM

def answer (r : Resolver) (c : Cache) (q : Request) : Except Halt (Option ResolvedType) :=
  ((r.request q.name c).run q.source).1.1

def serve (r : Resolver) (c : Cache) (q : Request) : Cache :=
  ((r.request q.name c).run q.source).1.2

def events (r : Resolver) (c : Cache) (q : Request) : List Event :=
  ((r.request q.name c).run q.source).2

def fetches (r : Resolver) (c : Cache) (q : Request) : List String :=
  namesAsked (r.events c q)

/-- The cache after requests made one after another, of which the first finds it empty. -/
def cacheAfter (r : Resolver) (qs : List Request) : Cache := qs.foldl r.serve .empty

def fetchesOver (r : Resolver) : Cache → List Request → List String
  | _, [] => []
  | c, q :: qs => r.fetches c q ++ r.fetchesOver (r.serve c q) qs

def answersOver (r : Resolver) : Cache → List Request → List (Except Halt (Option ResolvedType))
  | _, [] => []
  | c, q :: qs => r.answer c q :: r.answersOver (r.serve c q) qs

def eventsOver (r : Resolver) : Cache → List Request → List Event
  | _, [] => []
  | c, q :: qs => r.events c q ++ r.eventsOver (r.serve c q) qs

theorem namesAsked_eventsOver (r : Resolver) (c : Cache) (qs : List Request) :
    namesAsked (r.eventsOver c qs) = r.fetchesOver c qs := by
  induction qs generalizing c with
  | nil => rfl
  | cons q qs ih => rw [eventsOver, namesAsked_append, ih, fetchesOver, fetches]

variable {r : Resolver}

theorem exists_type_of_seen {ε α : Type} {answer : Except ε (Option ResolvedType)}
    {look : ResolvedType → α} {seen : α} (h : answer.toOption.join.map look = some seen) :
    ∃ t, answer = .ok (some t) ∧ look t = seen := by
  rcases answer with halt | _ | t
  · simp [Except.toOption] at h
  · simp [Except.toOption] at h
  · exact ⟨t, rfl, Option.some.inj h⟩

theorem answer_eq (c : Cache) (q : Request) :
    r.answer c q =
      (exec q.source (r.reach (r.settings.depthLimit + 1) q.name) c).result.map Edge.type? := by
  simp [answer, run_request]

theorem serve_eq (c : Cache) (q : Request) :
    r.serve c q = (exec q.source (r.reach (r.settings.depthLimit + 1) q.name) c).cache := by
  simp [serve, run_request]

theorem events_eq (c : Cache) (q : Request) :
    r.events c q = (exec q.source (r.reach (r.settings.depthLimit + 1) q.name) c).log := by
  simp [events, run_request]

theorem exists_edge_of_answer {c : Cache} {q : Request} {v : Option ResolvedType}
    {post : Edge → Cache → List Event → Prop} {stop : Halt → Cache → List Event → Prop}
    (h : (exec q.source (r.reach (r.settings.depthLimit + 1) q.name) c).Meets post stop)
    (hv : r.answer c q = .ok v) :
    ∃ edge, edge.type? = v ∧ post edge (r.serve c q) (r.events c q) := by
  rw [answer_eq] at hv
  rw [serve_eq, events_eq]
  revert h hv
  rcases exec q.source (r.reach (r.settings.depthLimit + 1) q.name) c with ⟨halt | edge, c', log⟩
  · intro _ hv
    cases hv
  · intro h hv
    cases hv
    exact ⟨edge, rfl, h⟩

theorem mayEnd_of_answer {c : Cache} {q : Request} {v : Option ResolvedType}
    (hv : r.answer c q = .ok v) :
    ∃ edge : Edge, edge.type? = v ∧ MayEnd q.source.supplier
      (r.reach (r.settings.depthLimit + 1) q.name) c (.ok edge) (r.serve c q) := by
  have hend := mayEnd_exec q.source.within_supplier (r.reach (r.settings.depthLimit + 1) q.name) c
  rw [answer_eq] at hv
  rw [serve_eq]
  cases hresult : (exec q.source (r.reach (r.settings.depthLimit + 1) q.name) c).result with
  | error halt =>
    rw [hresult] at hv
    cases hv
  | ok edge =>
    rw [hresult] at hv hend
    exact ⟨edge, Except.ok.inj hv, hend⟩

theorem stop_of_answer {c : Cache} {q : Request} {halt : Halt}
    {post : Edge → Cache → List Event → Prop} {stop : Halt → Cache → List Event → Prop}
    (h : (exec q.source (r.reach (r.settings.depthLimit + 1) q.name) c).Meets post stop)
    (hhalt : r.answer c q = .error halt) : stop halt (r.serve c q) (r.events c q) := by
  rw [answer_eq] at hhalt
  rw [serve_eq, events_eq]
  revert h hhalt
  rcases exec q.source (r.reach (r.settings.depthLimit + 1) q.name) c with ⟨halt' | edge, c', log⟩
  · intro h hhalt
    cases hhalt
    exact h
  · intro _ hhalt
    cases hhalt

theorem resolve_eq_answer (source : Source) (name : String) :
    ((r.resolve name).run source).1 = r.answer .empty ⟨source, name⟩ := by
  simp [answer, run_resolve]

theorem extends_serve (c : Cache) (q : Request) : c.Extends (r.serve c q) := by
  rw [serve_eq]
  exact extends_reach _ _ _ _ _

theorem extends_foldl_serve (c : Cache) (qs : List Request) : c.Extends (qs.foldl r.serve c) :=
  List.foldlRecOn qs r.serve (.refl c) fun c' h q _ => h.trans (extends_serve c' q)

theorem cacheAfter_induct {p : Cache → Prop} (qs : List Request) (hempty : p .empty)
    (hserve : ∀ c, ∀ q ∈ qs, p c → p (r.serve c q)) : p (r.cacheAfter qs) :=
  List.foldlRecOn qs r.serve hempty fun c hc q hq => hserve c q hq hc

theorem onStack_cacheAfter (qs : List Request) : (r.cacheAfter qs).OnStack [] :=
  cacheAfter_induct qs .empty fun c q _ hc => (extends_serve c q).onStack hc

theorem exists_answer_of_total {source : Source}
    (htotal : ∀ asked error, source asked ≠ .error error) (name : String) {c : Cache}
    (hs : c.OnStack []) : ∃ v, r.answer c ⟨source, name⟩ = .ok v := by
  have hstop := reach_stop r source (r.settings.depthLimit + 1) name hs (Nat.zero_le _) (by simp)
  cases hanswer : r.answer c ⟨source, name⟩ with
  | ok v => exact ⟨v, rfl⟩
  | error halt =>
    obtain ⟨asked, error, herror, -⟩ := stop_of_answer hstop hanswer
    exact absurd herror (htotal asked error)

theorem done_of_answer {c : Cache} {q : Request} {v : Option ResolvedType} (hs : c.OnStack [])
    (hcuts : (r.serve c q).cuts = c.cuts) (hv : r.answer c q = .ok v) :
    (r.serve c q).slots.get? (.ofName q.name) = some (.done v) := by
  obtain ⟨edge, rfl, hcycle, hdone⟩ :=
    exists_edge_of_answer (reach_edge r q.source (r.settings.depthLimit + 1) q.name c) hv
  -- Nothing is being worked on before the request, so the name itself is not met as a cycle.
  have hne : edge ≠ .cycle := by
    intro heq
    have hin := (hs.underway_iff _).mp (hcycle heq)
    simp at hin
  obtain ⟨w, rfl, hw⟩ := hdone hcuts hne
  rw [hw, Edge.type?_ofResult]

variable {supplier : Supplier} {c c' : Cache}

theorem mayEnd_request {name : String} {result : Except Halt (Option ResolvedType)} :
    (r.request name c).MayEnd supplier (result, c') ↔
      ∃ edge, MayEnd supplier (r.reach (r.settings.depthLimit + 1) name) c edge c' ∧
        result = edge.map Edge.type? := by
  simp only [request, Inquiry.mayEnd_bind, Inquiry.mayEnd_pure, Prod.mk.injEq]
  constructor
  · rintro ⟨⟨edge, _⟩, h, rfl, rfl⟩
    exact ⟨edge, h, rfl⟩
  · rintro ⟨edge, h, rfl⟩
    exact ⟨(edge, c'), h, rfl, rfl⟩

/-- Whether requests made one after another may lead from the empty cache to `c`. -/
inductive Reached (r : Resolver) (supplier : Supplier) : Cache → Prop
  | empty : Reached r supplier .empty
  | request {c c' : Cache} {name : String} {result : Except Halt (Option ResolvedType)}
      (before : Reached r supplier c) (ends : (r.request name c).MayEnd supplier (result, c')) :
      Reached r supplier c'

theorem reached_cacheAfter (qs : List Request) (h : ∀ q ∈ qs, q.source.Within supplier) :
    r.Reached supplier (r.cacheAfter qs) :=
  cacheAfter_induct qs .empty fun c q hq hc =>
    hc.request (Inquiry.mayEnd_run (h q hq) (r.request q.name c))

theorem Reached.onStack (h : r.Reached supplier c) : c.OnStack [] := by
  induction h with
  | empty => exact .empty
  | request _ ends ih =>
    obtain ⟨edge, hend, -⟩ := mayEnd_request.mp ends
    exact (extends_of_mayEnd hend).onStack ih

end Resolver

end Hierarchy
