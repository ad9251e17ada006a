import Hierarchy.Resolver

namespace Hierarchy.Resolver

open ResolveM

@[simp]
theorem exec_fetch (source : Source) (name : String) (c : Cache) :
    exec source (fetch name) c =
      match source name with
      | .ok candidates => ⟨.ok candidates, c, [.fetched name]⟩
      | .error error => ⟨.error (.source error), c, [.fetched name]⟩ := by
  simp only [fetch, exec_bind, exec_liftM, Inquiry.run_fetch]
  cases source name <;> simp

@[simp]
theorem exec_note (source : Source) (d : Declaration) (problems : List Problem) (c : Cache) :
    exec source (note d problems) c = ⟨.ok (), c.addAll (problems.map d.diagnose), []⟩ := rfl

theorem exec_link (r : Resolver) (source : Source) (follow : String → ResolveM Edge)
    (d : Declaration) (key : TypeKey) (relation target : String) (c : Cache) :
    exec source (r.link follow d key relation target) c =
      (exec source (follow target) c).andThen fun edge c' =>
        let taken := c'.takeReentry key
        match edge.supply relation target r.settings.depthLimit taken.1 with
        | .ok t => ⟨.ok (some t), taken.2, []⟩
        | .error problem => ⟨.ok none, taken.2.add (d.diagnose problem), []⟩ := by
  simp only [link, exec_bind, exec_modifyGet, Outcome.andThen_ok, List.nil_append]
  congr 1
  funext edge c'
  cases edge.supply relation target r.settings.depthLimit (c'.takeReentry key).1 <;>
    simp [Cache.add]

@[simp]
theorem exec_linkAll_nil (r : Resolver) (source : Source) (follow : String → ResolveM Edge)
    (d : Declaration) (key : TypeKey) (relation : String) (c : Cache) :
    exec source (r.linkAll follow d key relation []) c = ⟨.ok [], c, []⟩ := rfl

theorem exec_linkAll_cons (r : Resolver) (source : Source) (follow : String → ResolveM Edge)
    (d : Declaration) (key : TypeKey) (relation target : String) (rest : List String) (c : Cache) :
    exec source (r.linkAll follow d key relation (target :: rest)) c =
      (exec source (r.link follow d key relation target) c).andThen fun t c' =>
        (exec source (r.linkAll follow d key relation rest) c').andThen fun ts c'' =>
          ⟨.ok (t.toList ++ ts), c'', []⟩ := by
  simp [linkAll]

theorem exec_supertypes (r : Resolver) (source : Source) (follow : String → ResolveM Edge)
    (d : Declaration) (key : TypeKey) (c : Cache) :
    exec source (r.supertypes follow d key) c =
      (exec source (r.linkAll follow d key "parent class" d.parent.toList) c).andThen fun ps c₁ =>
        (exec source (r.linkAll follow d key "interface" d.interfaces) c₁).andThen fun is c₂ =>
          (exec source (r.linkAll follow d key "trait" d.usedTraits) c₂).andThen fun ts c₃ =>
            ⟨.ok ⟨ps.head?, Supertypes.gatherInterfaces ps.head? is, ts⟩, c₃, []⟩ := by
  simp [supertypes]

theorem exec_build (r : Resolver) (source : Source) (follow : String → ResolveM Edge)
    (name : String) (key : TypeKey) (c : Cache) :
    exec source (r.build follow name key) c =
      (exec source (fetch name) c).andThen fun candidates c' =>
        match candidates with
        | [] => ⟨.ok none, c', []⟩
        | d :: others =>
          (exec source (r.supertypes follow d key)
              (c'.addAll ((ambiguity others).map d.diagnose))).andThen fun supers c'' =>
            let assembly := d.assemble r.allHooks supers
            ⟨.ok (some assembly.type), c''.addAll (assembly.problems.map d.diagnose),
              assembly.applications.map .applied⟩ := by
  simp only [build, exec_bind]
  congr 1
  funext candidates c'
  cases candidates <;> simp

/-- A type that was begun is ended on every path: with its answer, or without one when a cut or a
failure made the answer unfit to keep. -/
theorem exec_work (r : Resolver) (source : Source) (follow : String → ResolveM Edge)
    (name : String) (key : TypeKey) (c : Cache) :
    exec source (r.work follow name key) c =
      match exec source (r.build follow name key) (c.start key) with
      | ⟨.ok result, c', log⟩ =>
        ⟨.ok (.ofResult result),
          if c.cuts < c'.cuts then c'.release key else c'.settle key result, log⟩
      | ⟨.error halt, c', log⟩ => ⟨.error halt, c'.release key, log⟩ := by
  simp only [work, exec_bind, exec_get, exec_modify, exec_tryCatch, exec_throw, exec_pure,
    Outcome.andThen_ok, List.nil_append]
  rcases exec source (r.build follow name key) (c.start key) with ⟨_ | result, c', log⟩
  · simp
  · simp

theorem exec_step (r : Resolver) (source : Source) (follow : String → ResolveM Edge)
    (name : String) (c : Cache) :
    exec source (r.step follow name) c =
      match c.slots.get? (.ofName name) with
      | some (.done result) => ⟨.ok (.ofResult result), c, []⟩
      | some .underway => ⟨.ok .cycle, c.reenter (.ofName name), []⟩
      | none =>
        if r.settings.depthLimit ≤ c.depth then ⟨.ok .tooDeep, c.cutEdge, []⟩
        else exec source (r.work follow name (.ofName name)) c := by
  simp only [step, exec_bind, exec_get, Outcome.andThen_ok, List.nil_append]
  rcases c.slots.get? (.ofName name) with _ | ⟨_ | result⟩
  · by_cases h : r.settings.depthLimit ≤ c.depth <;> simp [h]
  · simp
  · simp

@[simp]
theorem exec_reach_zero (r : Resolver) (source : Source) (name : String) (c : Cache) :
    exec source (r.reach 0 name) c = ⟨.error .exhausted, c, []⟩ := rfl

theorem exec_reach_succ (r : Resolver) (source : Source) (fuel : Nat) (name : String) (c : Cache) :
    exec source (r.reach (fuel + 1) name) c = exec source (r.step (r.reach fuel) name) c := rfl

theorem run_request (r : Resolver) (source : Source) (name : String) (c : Cache) :
    (r.request name c).run source =
      let o := exec source (r.reach (r.settings.depthLimit + 1) name) c
      ((o.result.map Edge.type?, o.cache), o.log) := by
  simp only [request, Inquiry.run_bind, Inquiry.run_pure, List.append_nil, exec]

theorem run_resolve (r : Resolver) (source : Source) (name : String) :
    (r.resolve name).run source =
      (((r.request name .empty).run source).1.1, ((r.request name .empty).run source).2) := by
  simp only [resolve, Inquiry.run_bind, Inquiry.run_pure, List.append_nil]

end Hierarchy.Resolver
