import Hierarchy.Cache
import Hierarchy.Inquiry

namespace Hierarchy

inductive Halt where
  | source (error : SourceError)
  /-- The bound on the recursion was too small. -/
  | exhausted
  deriving DecidableEq

abbrev ResolveM := ExceptT Halt (StateT Cache Inquiry)

structure Outcome (α : Type) where
  result : Except Halt α
  cache : Cache
  log : List Event

namespace Outcome

variable {α β : Type}

def andThen (o : Outcome α) (f : α → Cache → Outcome β) : Outcome β :=
  match o.result with
  | .ok a => { f a o.cache with log := o.log ++ (f a o.cache).log }
  | .error halt => ⟨.error halt, o.cache, o.log⟩

def orElse (o : Outcome α) (f : Halt → Cache → Outcome α) : Outcome α :=
  match o.result with
  | .ok _ => o
  | .error halt => { f halt o.cache with log := o.log ++ (f halt o.cache).log }

@[simp]
theorem andThen_ok (a : α) (c : Cache) (log : List Event) (f : α → Cache → Outcome β) :
    andThen ⟨.ok a, c, log⟩ f = { f a c with log := log ++ (f a c).log } := rfl

@[simp]
theorem andThen_error (halt : Halt) (c : Cache) (log : List Event) (f : α → Cache → Outcome β) :
    andThen ⟨.error halt, c, log⟩ f = ⟨.error halt, c, log⟩ := rfl

@[simp]
theorem orElse_ok (a : α) (c : Cache) (log : List Event) (f : Halt → Cache → Outcome α) :
    orElse ⟨.ok a, c, log⟩ f = ⟨.ok a, c, log⟩ := rfl

@[simp]
theorem orElse_error (halt : Halt) (c : Cache) (log : List Event)
    (f : Halt → Cache → Outcome α) :
    orElse ⟨.error halt, c, log⟩ f = { f halt c with log := log ++ (f halt c).log } := rfl

end Outcome

namespace ResolveM

variable {α β : Type}

def exec (source : Source) (x : ResolveM α) (c : Cache) : Outcome α :=
  let ((result, c'), log) := (x.run.run c).run source
  ⟨result, c', log⟩

@[simp]
theorem exec_pure (source : Source) (a : α) (c : Cache) :
    exec source (pure a) c = ⟨.ok a, c, []⟩ := rfl

@[simp]
theorem exec_throw (source : Source) (halt : Halt) (c : Cache) :
    exec source (throw halt : ResolveM α) c = ⟨.error halt, c, []⟩ := rfl

@[simp]
theorem exec_get (source : Source) (c : Cache) :
    exec source (get : ResolveM Cache) c = ⟨.ok c, c, []⟩ := rfl

@[simp]
theorem exec_modify (source : Source) (f : Cache → Cache) (c : Cache) :
    exec source (modify f : ResolveM PUnit) c = ⟨.ok ⟨⟩, f c, []⟩ := rfl

@[simp]
theorem exec_modifyGet (source : Source) (f : Cache → α × Cache) (c : Cache) :
    exec source (modifyGet f : ResolveM α) c = ⟨.ok (f c).1, (f c).2, []⟩ := rfl

@[simp]
theorem exec_bind (source : Source) (x : ResolveM α) (f : α → ResolveM β) (c : Cache) :
    exec source (x >>= f) c = (exec source x c).andThen fun a c' => exec source (f a) c' := by
  simp only [exec, ExceptT.run_bind, StateT.run_bind, Inquiry.run_bind]
  rcases (x.run.run c).run source with ⟨⟨_ | a, c'⟩, log⟩
  · simp
  · simp

@[simp]
theorem exec_map (source : Source) (f : α → β) (x : ResolveM α) (c : Cache) :
    exec source (f <$> x) c = (exec source x c).andThen fun a c' => ⟨.ok (f a), c', []⟩ := by
  rw [map_eq_pure_bind, exec_bind]
  rfl

theorem run_liftM (q : Inquiry α) (c : Cache) :
    (liftM q : ResolveM α).run.run c = q >>= fun a => pure (.ok a, c) := by
  show Inquiry.bind (Inquiry.bind q _) _ = _
  rw [Inquiry.bind_assoc]
  rfl

@[simp]
theorem exec_liftM (source : Source) (q : Inquiry α) (c : Cache) :
    exec source (liftM q : ResolveM α) c = ⟨.ok (q.run source).1, c, (q.run source).2⟩ := by
  simp only [exec, run_liftM, Inquiry.run_bind, Inquiry.run_pure, List.append_nil]

theorem run_tryCatch (x : ResolveM α) (rescue : Halt → ResolveM α) (c : Cache) :
    (tryCatch x rescue : ResolveM α).run.run c =
      x.run.run c >>= fun p => match p.1 with
        | .ok a => pure (.ok a, p.2)
        | .error halt => (rescue halt).run.run p.2 := by
  show x.run.run c >>= _ = _
  congr 1
  funext ⟨result, c'⟩
  cases result <;> rfl

@[simp]
theorem exec_tryCatch (source : Source) (x : ResolveM α) (rescue : Halt → ResolveM α) (c : Cache) :
    exec source (tryCatch x rescue) c =
      (exec source x c).orElse fun halt c' => exec source (rescue halt) c' := by
  simp only [exec, run_tryCatch, Inquiry.run_bind]
  rcases (x.run.run c).run source with ⟨⟨_ | a, c'⟩, log⟩
  · simp
  · simp

end ResolveM

end Hierarchy
