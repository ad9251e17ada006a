import Hierarchy.Proofs.CodebaseEdits
import Hierarchy.Proofs.Exploration

namespace Hierarchy

namespace Resolver

open ResolveM Relation

variable {r : Resolver} {source : Source} {c c' : Cache} {name : String} {names : List String}

/-- Whether requests for `names` that went from `c` to `c'` have asked for `fetched`, each a name that
one of them reaches, given each a slot of its own, and come to know what they were for. -/
structure Covers (r : Resolver) (source : Source) (names : List String) (c : Cache)
    (fetched : List String) (c' : Cache) : Prop where
  onStack : c'.OnStack []
  explored : c'.Explored r source
  keys_eq : c'.slots.keys = c.slots.keys ++ fetched.map TypeKey.ofName
  reaches : ∀ asked ∈ fetched, ∃ name ∈ names, source.Reaches (.ofName name) (.ofName asked)
  knows : ∀ name ∈ names, c'.Knows (.ofName name)

theorem covers_serve (huniform : source.Uniform)
    (htotal : ∀ asked error, source asked ≠ .error error) (hs : c.OnStack [])
    (hc : c.Explored r source)
    (hfew : {k | source.Reaches (.ofName name) k}.encard ≤ r.settings.depthLimit) :
    Covers r source [name] c (r.fetches c ⟨source, name⟩) (r.serve c ⟨source, name⟩) := by
  obtain ⟨v, hv⟩ := exists_answer_of_total (r := r) htotal name hs
  obtain ⟨hto, hdone⟩ := explored_serve huniform hs hc hfew hv
  refine ⟨(extends_serve c _).onStack hs, hto.explored, hto.keys_eq, ?_, ?_⟩
  · exact fun asked hasked => ⟨name, List.mem_singleton_self _, (answered_fetches hv asked hasked).1⟩
  · intro name' hname'
    rw [List.mem_singleton.mp hname']
    exact ⟨v, hdone⟩

theorem covers_foldl (huniform : source.Uniform)
    (htotal : ∀ asked error, source asked ≠ .error error) (names : List String)
    (hfew : ∀ name ∈ names, {k | source.Reaches (.ofName name) k}.encard ≤ r.settings.depthLimit)
    (hs : c.OnStack []) (hc : c.Explored r source) :
    Covers r source names c (r.fetchesOver c (names.map (Request.mk source)))
      ((names.map (Request.mk source)).foldl r.serve c) := by
  induction names generalizing c with
  | nil => exact ⟨hs, hc, by simp [fetchesOver], by simp [fetchesOver], by simp⟩
  | cons name rest ih =>
    have hfirst := covers_serve huniform htotal hs hc (hfew name List.mem_cons_self)
    have hrest := ih (fun name' hname' => hfew name' (List.mem_cons_of_mem _ hname'))
      hfirst.onStack hfirst.explored
    have hext := extends_foldl_serve (r := r) (r.serve c ⟨source, name⟩)
      (rest.map (Request.mk source))
    refine ⟨hrest.onStack, hrest.explored, ?_, ?_, ?_⟩
    · simp only [List.map_cons, List.foldl_cons, fetchesOver, List.map_append]
      rw [hrest.keys_eq, hfirst.keys_eq, List.append_assoc]
    · intro asked hasked
      rcases List.mem_append.mp hasked with hasked | hasked
      · obtain ⟨name', hname', hreach⟩ := hfirst.reaches asked hasked
        exact ⟨name', List.mem_cons.mpr (.inl (List.mem_singleton.mp hname')), hreach⟩
      · obtain ⟨name', hname', hreach⟩ := hrest.reaches asked hasked
        exact ⟨name', List.mem_cons_of_mem _ hname', hreach⟩
    · intro name' hname'
      rcases List.mem_cons.mp hname' with rfl | hname'
      · exact hext.knows (hfirst.knows name' (List.mem_singleton_self _))
      · exact hrest.knows name' hname'

theorem serve_of_knows (r : Resolver) (source : Source) {c : Cache} {name : String}
    (h : c.Knows (.ofName name)) :
    r.serve c ⟨source, name⟩ = c ∧ r.events c ⟨source, name⟩ = [] := by
  obtain ⟨v, hv⟩ := h
  rw [serve_eq, events_eq, exec_reach_succ, exec_step]
  simp [hv]

/-- Whether the types asked for during requests for `names` are those that can be reached, each once,
and the cache afterwards knows them and nothing else. -/
structure AsksOnce (r : Resolver) (source : Source) (names : List String) (fetched : List TypeKey)
    (c : Cache) : Prop where
  nodup : fetched.Nodup
  mem_iff : ∀ k, k ∈ fetched ↔ ∃ name ∈ names, source.Reaches (.ofName name) k
  /-- The cache has a slot for each of these types, and no other. -/
  keys_eq : c.slots.keys = fetched
  /-- Each slot holds an answer, which is a type exactly if the name is declared. -/
  done : ∀ k ∈ fetched, ∃ v, c.slots.get? k = some (.done v) ∧ (v.isSome = true ↔ source.Declares k)
  /-- One more request for any of the names asks for nothing and changes nothing. -/
  again : ∀ name ∈ names,
    r.fetches c ⟨source, name⟩ = [] ∧ r.serve c ⟨source, name⟩ = c

/-- Requests on one cache, which is empty at first, ask exactly once for each type that any of them
reaches, provided that the source never fails and all these types have room on the stack together. -/
theorem reachable_asked_once (r : Resolver) (source : Source) (names : List String)
    (huniform : source.Uniform) (htotal : ∀ asked error, source asked ≠ .error error)
    (hfew : {k | ∃ name ∈ names, source.Reaches (.ofName name) k}.encard ≤
      r.settings.depthLimit) :
    r.AsksOnce source names
      ((r.fetchesOver .empty (names.map (Request.mk source))).map TypeKey.ofName)
      (r.cacheAfter (names.map (Request.mk source))) := by
  have hfew' (name : String) (hname : name ∈ names) :
      {k | source.Reaches (.ofName name) k}.encard ≤ r.settings.depthLimit := by
    refine le_trans (Set.encard_le_encard ?_) hfew
    exact fun k hk => ⟨name, hname, hk⟩
  have h : Covers r source names .empty _ (r.cacheAfter (names.map (Request.mk source))) :=
    covers_foldl huniform htotal names hfew' .empty Cache.explored_empty
  have hkeys : (r.cacheAfter (names.map (Request.mk source))).slots.keys =
      (r.fetchesOver .empty (names.map (Request.mk source))).map TypeKey.ofName := by
    simpa [Cache.empty] using h.keys_eq
  refine ⟨hkeys ▸ OrderedMap.nodup_keys _, fun k => ⟨fun hk => ?_, ?_⟩, hkeys, fun k hk => ?_, ?_⟩
  · obtain ⟨asked, hasked, rfl⟩ := List.mem_map.mp hk
    exact h.reaches asked hasked
  · rintro ⟨name, hname, hreach⟩
    rw [← hkeys]
    exact h.onStack.knows_iff.mp (h.explored.knows_of_reaches h.onStack (h.knows name hname) hreach)
  · rw [← hkeys] at hk
    obtain ⟨v, hv⟩ := h.onStack.knows_iff.mpr hk
    exact ⟨v, hv, h.explored.isSome_iff_declares huniform hv⟩
  · intro name hname
    obtain ⟨hserve, hevents⟩ := serve_of_knows r source (h.knows name hname)
    exact ⟨by rw [fetches, hevents, namesAsked_nil], hserve⟩

def tangled : List Codebase.Edit :=
  [.put ⟨0⟩ [((Declaration.ofName .classType "A").withParent "B").withInterface "Gone",
    (Declaration.ofName .classType "B").withParent "\\a",
    ((Declaration.ofName .classType "C").withParent "b").withTrait "\\A"]]

theorem reachable_asked_once_tangled :
    let source := (Codebase.afterEdits tangled).source
    let names := ["C", "\\b", "gone", "c"]
    {k | ∃ name ∈ names, source.Reaches (.ofName name) k}.encard ≤ 64 ∧
      standard.AsksOnce source names (["C", "b", "\\a", "Gone"].map TypeKey.ofName)
        (standard.cacheAfter (names.map (Request.mk source))) := by
  intro source names
  have huniform : source.Uniform := Codebase.uniform_source _
  have hclosed : source.ClosedOn ["A", "B", "C", "Gone"] := by decide +kernel
  have hfew : {k | ∃ name ∈ names, source.Reaches (.ofName name) k}.encard ≤ 64 := by
    refine (hclosed.encard_le_length huniform ?_).trans (by decide)
    rintro k ⟨name, hname, hreach⟩
    have hstarts : ∀ name ∈ names,
        TypeKey.ofName name ∈ ["A", "B", "C", "Gone"].map TypeKey.ofName := by decide
    exact ⟨_, hstarts name hname, hreach⟩
  have hfetched : standard.fetchesOver .empty (names.map (Request.mk source)) =
      ["C", "b", "\\a", "Gone"] := by decide +kernel
  have h := reachable_asked_once standard source names huniform (by simp [source, Codebase.source])
    hfew
  rw [hfetched] at h
  exact ⟨hfew, h⟩

end Resolver

end Hierarchy
