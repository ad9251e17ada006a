import Hierarchy.Proofs.NestedCalls

namespace Hierarchy

/-- One operation of a resolver on its cache. -/
inductive Change where
  | start (key : TypeKey)
  | settle (key : TypeKey) (result : Option ResolvedType)
  | release (key : TypeKey)
  | reenter (key : TypeKey)
  | takeReentry (key : TypeKey)
  | cutEdge
  | addAll (ds : Report)

namespace Cache

def change (c : Cache) : Change → Cache
  | .start key => c.start key
  | .settle key v => c.settle key v
  | .release key => c.release key
  | .reenter key => c.reenter key
  | .takeReentry key => (c.takeReentry key).2
  | .cutEdge => c.cutEdge
  | .addAll ds => c.addAll ds

def after (c : Cache) (changes : List Change) : Cache := changes.foldl change c

@[simp]
theorem after_nil (c : Cache) : c.after [] = c := rfl

@[simp]
theorem after_cons (c : Cache) (ch : Change) (changes : List Change) :
    c.after (ch :: changes) = (c.change ch).after changes := rfl

@[simp]
theorem after_append (c : Cache) (changes more : List Change) :
    c.after (changes ++ more) = (c.after changes).after more :=
  List.foldl_append

theorem after_work (c : Cache) (key : TypeKey) (ds : Report) (changes more : List Change) :
    c.after (.start key :: .addAll ds :: (changes ++ more)) =
      (((c.start key).addAll ds).after changes).after more :=
  after_append _ _ _

/-- The operations that end work on a type, which was begun when there were `cuts` cuts. -/
def closing (c : Cache) (ds : Report) (cuts : ℕ) (key : TypeKey) (v : Option ResolvedType) :
    List Change :=
  [.addAll ds, if cuts < c.cuts then .release key else .settle key v]

theorem after_closing (c : Cache) (ds : Report) (cuts : ℕ) (key : TypeKey)
    (v : Option ResolvedType) :
    c.after (c.closing ds cuts key v) = (c.addAll ds).conclude cuts key v := by
  by_cases hcut : cuts < c.cuts
  · have hcut' : cuts < (c.addAll ds).cuts := hcut
    simp only [closing, conclude, if_pos hcut, if_pos hcut']
    rfl
  · have hcut' : ¬ cuts < (c.addAll ds).cuts := hcut
    simp only [closing, conclude, if_neg hcut, if_neg hcut']
    rfl

theorem cuts_le_change (c : Cache) (ch : Change) : c.cuts ≤ (c.change ch).cuts := by
  cases ch with
  | cutEdge => exact Nat.le_succ _
  | _ => exact Nat.le_refl _

theorem cuts_le_after (c : Cache) (changes : List Change) : c.cuts ≤ (c.after changes).cuts := by
  induction changes generalizing c with
  | nil => exact Nat.le_refl _
  | cons ch rest ih => exact (c.cuts_le_change ch).trans (ih (c.change ch))

theorem cuts_lt_after_iff (c : Cache) (changes : List Change) :
    c.cuts < (c.after changes).cuts ↔ .cutEdge ∈ changes := by
  induction changes generalizing c with
  | nil => simp
  | cons ch rest ih =>
    rw [after_cons, List.mem_cons, ← ih (c.change ch)]
    cases ch with
    | cutEdge =>
      have hle := cuts_le_after (c.change .cutEdge) rest
      have hcut : (c.change .cutEdge).cuts = c.cuts + 1 := rfl
      simp only [true_or, iff_true]
      omega
    | _ =>
      simp only [reduceCtorEq, false_or]
      exact Iff.rfl

end Cache

namespace Resolver

open ResolveM

abbrev Course := String → Cache → List Change → Except Halt Edge → Prop

/-- What the type of `d` does to the cache once it has followed an edge. -/
def linkChanges (r : Resolver) (d : Declaration) (key : TypeKey) (relation target : String)
    (edge : Edge) (c : Cache) : List Change :=
  .takeReentry key ::
    match edge.supply relation target r.settings.depthLimit (c.takeReentry key).1 with
    | .ok _ => []
    | .error problem => [.addAll [d.diagnose problem]]

theorem after_linkChanges (r : Resolver) (d : Declaration) (key : TypeKey) (relation target : String)
    (edge : Edge) (c : Cache) :
    c.after (r.linkChanges d key relation target edge c) =
      (r.linked d key relation target edge c).2 := by
  simp only [linkChanges, linked]
  cases edge.supply relation target r.settings.depthLimit (c.takeReentry key).1 <;> rfl

/-- Following edges of `d` one after another, change by change. -/
inductive AltersEdges (r : Resolver) (course : Course) (d : Declaration) (key : TypeKey) :
    Cache → List (String × String) → List Change →
      Except Halt (List (String × Option ResolvedType)) → Prop
  | nil (c : Cache) : AltersEdges r course d key c [] [] (.ok [])
  | halt {c : Cache} {relation target : String} {changes : List Change} {halt : Halt}
      (halts : course target c changes (.error halt)) (rest : List (String × String)) :
      AltersEdges r course d key c ((relation, target) :: rest) changes (.error halt)
  | next {c : Cache} {relation target : String} {edge : Edge} {rest : List (String × String)}
      {changes more : List Change} {result : Except Halt (List (String × Option ResolvedType))}
      (ends : course target c changes (.ok edge))
      (follows : AltersEdges r course d key
        (r.linked d key relation target edge (c.after changes)).2 rest more result) :
      AltersEdges r course d key c ((relation, target) :: rest)
        (changes ++ r.linkChanges d key relation target edge (c.after changes) ++ more)
        (result.map ((target, (r.linked d key relation target edge (c.after changes)).1) :: ·))

/-- What one step does to the cache, change by change. -/
inductive AltersStep (r : Resolver) (supplier : Supplier) (course : Course) (name : String)
    (c : Cache) : List Change → Except Halt Edge → Prop
  | done {v : Option ResolvedType} (known : c.slots.get? (.ofName name) = some (.done v)) :
      AltersStep r supplier course name c [] (.ok (.ofResult v))
  | cycle (underway : c.slots.get? (.ofName name) = some .underway) :
      AltersStep r supplier course name c [.reenter (.ofName name)] (.ok .cycle)
  | tooDeep (new : c.slots.get? (.ofName name) = none) (full : r.settings.depthLimit ≤ c.depth) :
      AltersStep r supplier course name c [.cutEdge] (.ok .tooDeep)
  | refused {error : SourceError} (new : c.slots.get? (.ofName name) = none)
      (room : c.depth < r.settings.depthLimit) (given : supplier name (.error error)) :
      AltersStep r supplier course name c [.start (.ofName name), .release (.ofName name)]
        (.error (.source error))
  | missing (new : c.slots.get? (.ofName name) = none) (room : c.depth < r.settings.depthLimit)
      (given : supplier name (.ok [])) :
      AltersStep r supplier course name c [.start (.ofName name), .settle (.ofName name) none]
        (.ok .missing)
  | stopped {d : Declaration} {others : List Declaration} {halt : Halt} {changes : List Change}
      (new : c.slots.get? (.ofName name) = none) (room : c.depth < r.settings.depthLimit)
      (given : supplier name (.ok (d :: others)))
      (stops : r.AltersEdges course d (.ofName name)
        ((c.start (.ofName name)).addAll ((ambiguity others).map d.diagnose)) d.edges changes
        (.error halt)) :
      AltersStep r supplier course name c
        (.start (.ofName name) :: .addAll ((ambiguity others).map d.diagnose) ::
          (changes ++ [.release (.ofName name)])) (.error halt)
  | built {d : Declaration} {others : List Declaration}
      {parents interfaces traits : List (String × Option ResolvedType)} {changes : List Change}
      (new : c.slots.get? (.ofName name) = none) (room : c.depth < r.settings.depthLimit)
      (given : supplier name (.ok (d :: others)))
      (parents_eq : parents.map Prod.fst = d.parent.toList)
      (interfaces_eq : interfaces.map Prod.fst = d.interfaces)
      (traits_eq : traits.map Prod.fst = d.usedTraits)
      (follows : r.AltersEdges course d (.ofName name)
        ((c.start (.ofName name)).addAll ((ambiguity others).map d.diagnose)) d.edges changes
        (.ok (parents ++ interfaces ++ traits)))
      {assembly : Assembly} (assembly_eq : assembly = d.assemble r.allHooks (.ofAnswers
        (parents.map Prod.snd) (interfaces.map Prod.snd) (traits.map Prod.snd))) :
      AltersStep r supplier course name c
        (.start (.ofName name) :: .addAll ((ambiguity others).map d.diagnose) ::
          (changes ++ (((c.start (.ofName name)).addAll
            ((ambiguity others).map d.diagnose)).after changes).closing
              (assembly.problems.map d.diagnose) c.cuts (.ofName name) (some assembly.type)))
        (.ok (.found assembly.type))

/-- Whether following a name through at most `levels` levels may change a cache by `changes`, one
after another, and come to the result. -/
def Alters (r : Resolver) (supplier : Supplier) : (levels : ℕ) → Course
  | 0 => fun _ _ changes result => changes = [] ∧ result = .error .exhausted
  | levels + 1 => r.AltersStep supplier (r.Alters supplier levels)

section Account

variable {r : Resolver} {supplier : Supplier} {follow : String → ResolveM Edge} {course : Course}
  {d : Declaration} {key : TypeKey} {c c' : Cache} {edges : List (String × String)}

/-- Whether `course` gives the changes by which `follow` gets to its end. -/
def Accounts (supplier : Supplier) (course : Course) (follow : String → ResolveM Edge) : Prop :=
  ∀ target c result c', MayEnd supplier (follow target) c result c' ↔
    ∃ changes, course target c changes result ∧ c' = c.after changes

theorem Accounts.follows_iff (h : Accounts supplier course follow)
    {answers : List (String × Option ResolvedType)} :
    r.Follows supplier follow d key c edges answers c' ↔
      ∃ changes, r.AltersEdges course d key c edges changes (.ok answers) ∧
        c' = c.after changes := by
  constructor
  · intro hfollows
    induction hfollows with
    | nil c => exact ⟨[], .nil c, rfl⟩
    | next ends _ ih =>
      obtain ⟨changes, hcourse, rfl⟩ := (h _ _ _ _).mp ends
      obtain ⟨more, hmore, rfl⟩ := ih
      exact ⟨_, .next hcourse hmore, by simp only [Cache.after_append, after_linkChanges]⟩
  · rintro ⟨changes, halters, rfl⟩
    generalize hresult : Except.ok answers = result at halters
    induction halters generalizing answers with
    | nil c =>
      cases hresult
      exact .nil c
    | halt => cases hresult
    | @next _ _ _ _ _ _ _ result ends _ ih =>
      cases result with
      | error halt => cases hresult
      | ok rest =>
        cases hresult
        simp only [Cache.after_append, after_linkChanges]
        exact .next ((h _ _ _ _).mpr ⟨_, ends, rfl⟩) (ih rfl)

theorem Accounts.stops_iff (h : Accounts supplier course follow) {halt : Halt} :
    r.Stops supplier follow d key c edges halt c' ↔
      ∃ changes, r.AltersEdges course d key c edges changes (.error halt) ∧
        c' = c.after changes := by
  constructor
  · intro hstops
    induction hstops with
    | here stops rest =>
      obtain ⟨changes, hcourse, rfl⟩ := (h _ _ _ _).mp stops
      exact ⟨changes, .halt hcourse rest, rfl⟩
    | later ends _ ih =>
      obtain ⟨changes, hcourse, rfl⟩ := (h _ _ _ _).mp ends
      obtain ⟨more, hmore, rfl⟩ := ih
      exact ⟨_, .next hcourse hmore, by simp only [Cache.after_append, after_linkChanges]⟩
  · rintro ⟨changes, halters, rfl⟩
    generalize hresult : Except.error halt = result at halters
    induction halters with
    | nil => cases hresult
    | halt halts rest =>
      cases hresult
      exact .here ((h _ _ _ _).mpr ⟨_, halts, rfl⟩) rest
    | @next _ _ _ _ _ _ _ result ends _ ih =>
      cases result with
      | ok rest => cases hresult
      | error halt' =>
        cases hresult
        simp only [Cache.after_append, after_linkChanges]
        exact .later ((h _ _ _ _).mpr ⟨_, ends, rfl⟩) (ih rfl)

theorem Accounts.passes_iff (h : Accounts supplier course follow) {name : String}
    {result : Except Halt Edge} :
    r.Passes supplier follow name c result c' ↔
      ∃ changes, r.AltersStep supplier course name c changes result ∧ c' = c.after changes := by
  constructor
  · intro hpasses
    cases hpasses with
    | done known => exact ⟨_, .done known, rfl⟩
    | cycle underway => exact ⟨_, .cycle underway, rfl⟩
    | tooDeep new full => exact ⟨_, .tooDeep new full, rfl⟩
    | refused new room given => exact ⟨_, .refused new room given, rfl⟩
    | missing new room given => exact ⟨_, .missing new room given, rfl⟩
    | stopped new room given stops =>
      obtain ⟨changes, halters, rfl⟩ := h.stops_iff.mp stops
      refine ⟨_, .stopped new room given halters, ?_⟩
      rw [Cache.after_work]
      rfl
    | built new room given hparents hinterfaces htraits follows hassembly =>
      obtain ⟨changes, halters, rfl⟩ := h.follows_iff.mp follows
      refine ⟨_, .built new room given hparents hinterfaces htraits halters hassembly, ?_⟩
      rw [Cache.after_work, Cache.after_closing]
  · rintro ⟨changes, hstep, rfl⟩
    cases hstep with
    | done known => exact .done known
    | cycle underway => exact .cycle underway
    | tooDeep new full => exact .tooDeep new full
    | refused new room given => exact .refused new room given
    | missing new room given => exact .missing new room given
    | stopped new room given stops =>
      have hstops := h.stops_iff.mpr ⟨_, stops, rfl⟩
      rw [Cache.after_work]
      exact .stopped new room given hstops
    | built new room given hparents hinterfaces htraits follows hassembly =>
      have hfollows := h.follows_iff.mpr ⟨_, follows, rfl⟩
      rw [Cache.after_work, Cache.after_closing]
      exact .built new room given hparents hinterfaces htraits hfollows hassembly

end Account

/-- A call may end in a cache exactly if it may make changes that lead there. -/
theorem mayEnd_reach_iff (r : Resolver) (supplier : Supplier) (levels : ℕ) :
    Accounts supplier (r.Alters supplier levels) (r.reach levels) := by
  induction levels with
  | zero =>
    intro name c result c'
    constructor
    · intro h
      obtain ⟨rfl, rfl⟩ := mayEnd_throw.mp h
      exact ⟨[], ⟨rfl, rfl⟩, rfl⟩
    · rintro ⟨_, ⟨rfl, rfl⟩, rfl⟩
      exact mayEnd_throw.mpr ⟨rfl, rfl⟩
  | succ levels ih =>
    intro name c result c'
    exact mayEnd_step.trans ih.passes_iff

/-- Whether the changes that a call may make account for all that it may do: it may end in a result and
a cache exactly if changes made one after another come to that result and lead there. -/
def AccountedFor (r : Resolver) (supplier : Supplier) (call : Call) : Prop :=
  ∀ result c', r.Returns supplier call result c' ↔
    ∃ changes, r.Alters supplier call.levels call.name call.cache changes result ∧
      c' = call.cache.after changes

theorem accountedFor (r : Resolver) (supplier : Supplier) (call : Call) :
    r.AccountedFor supplier call :=
  mayEnd_reach_iff r supplier call.levels call.name call.cache

end Resolver

end Hierarchy
