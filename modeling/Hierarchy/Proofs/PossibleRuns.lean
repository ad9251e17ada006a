import Hierarchy.Proofs.Outcomes

namespace Hierarchy

/-- The answers that may be given for a name, one of them each time the name is asked for. -/
abbrev Supplier := String → Except SourceError (List Declaration) → Prop

def Supplier.any : Supplier := fun _ _ => True

namespace Source

def supplier (source : Source) : Supplier := fun name answer => answer = source name

def Within (source : Source) (supplier : Supplier) : Prop := ∀ name, supplier name (source name)

theorem within_any (source : Source) : source.Within .any := fun _ => trivial

theorem within_supplier (source : Source) : source.Within source.supplier := fun _ => rfl

end Source

namespace Inquiry

variable {α β : Type} {supplier : Supplier}

/-- Whether an inquiry ends in `value` with some of the answers that may be given. -/
inductive MayEnd (supplier : Supplier) : Inquiry α → α → Prop
  | done (value : α) : MayEnd supplier (.done value) value
  | ask {name : String} {resume : Except SourceError (List Declaration) → Inquiry α}
      {answer : Except SourceError (List Declaration)} {value : α} (given : supplier name answer)
      (rest : MayEnd supplier (resume answer) value) : MayEnd supplier (.ask name resume) value
  | tell {application : Application} {rest : Inquiry α} {value : α}
      (ends : MayEnd supplier rest value) : MayEnd supplier (.tell application rest) value

@[simp]
theorem mayEnd_done {a b : α} : (done a).MayEnd supplier b ↔ b = a := by
  constructor
  · rintro ⟨⟩
    rfl
  · rintro rfl
    exact .done b

@[simp]
theorem mayEnd_ask {name : String} {resume : Except SourceError (List Declaration) → Inquiry α}
    {a : α} : (ask name resume).MayEnd supplier a ↔
      ∃ answer, supplier name answer ∧ (resume answer).MayEnd supplier a := by
  constructor
  · rintro ⟨⟩
    exact ⟨_, ‹_›, ‹_›⟩
  · rintro ⟨answer, given, rest⟩
    exact .ask given rest

@[simp]
theorem mayEnd_tell {application : Application} {rest : Inquiry α} {a : α} :
    (tell application rest).MayEnd supplier a ↔ rest.MayEnd supplier a := by
  constructor
  · rintro ⟨⟩
    assumption
  · exact .tell

@[simp]
theorem mayEnd_pure {a b : α} : (pure a : Inquiry α).MayEnd supplier b ↔ b = a := mayEnd_done

@[simp]
theorem mayEnd_bind {q : Inquiry α} {f : α → Inquiry β} {b : β} :
    (q >>= f).MayEnd supplier b ↔ ∃ a, q.MayEnd supplier a ∧ (f a).MayEnd supplier b := by
  show (bind q f).MayEnd supplier b ↔ _
  induction q with
  | done value => simp [bind]
  | ask name resume ih =>
    simp only [bind, mayEnd_ask, ih]
    grind
  | tell application rest ih => simp [bind, ih]

@[simp]
theorem mayEnd_announce {as : List Application} {u : Unit} : (announce as).MayEnd supplier u := by
  induction as with
  | nil => exact .done ()
  | cons a rest ih => exact .tell ih

theorem mayEnd_run {source : Source} (h : source.Within supplier) (q : Inquiry α) :
    q.MayEnd supplier (q.run source).1 := by
  induction q with
  | done value => exact .done value
  | ask name resume ih => exact .ask (h name) (ih (source name))
  | tell application rest ih => exact .tell ih

theorem eq_run_of_mayEnd {source : Source} {q : Inquiry α} {a : α}
    (h : q.MayEnd source.supplier a) : a = (q.run source).1 := by
  induction h with
  | done value => rfl
  | ask given _ ih =>
    cases given
    exact ih
  | tell _ ih => exact ih

end Inquiry

namespace ResolveM

variable {α β : Type} {supplier : Supplier} {c c' : Cache}

/-- Whether work that starts from `c` comes to `result` and leaves `c'`, with some of the answers
that may be given. -/
def MayEnd (supplier : Supplier) (x : ResolveM α) (c : Cache) (result : Except Halt α)
    (c' : Cache) : Prop := (x.run.run c).MayEnd supplier (result, c')

theorem mayEnd_exec {source : Source} (h : source.Within supplier) (x : ResolveM α)
    (c : Cache) : MayEnd supplier x c (exec source x c).result (exec source x c).cache :=
  Inquiry.mayEnd_run h (x.run.run c)

theorem eq_exec_of_mayEnd {source : Source} {x : ResolveM α} {result : Except Halt α}
    (h : MayEnd source.supplier x c result c') :
    result = (exec source x c).result ∧ c' = (exec source x c).cache :=
  Prod.mk.inj (Inquiry.eq_run_of_mayEnd h)

theorem exists_log_of_mayEnd {source : Source} {x : ResolveM α} {a : α}
    {post : α → Cache → List Event → Prop} {stop : Halt → Cache → List Event → Prop}
    (hmeets : (exec source x c).Meets post stop) (h : MayEnd source.supplier x c (.ok a) c') :
    ∃ log, post a c' log := by
  obtain ⟨hresult, rfl⟩ := eq_exec_of_mayEnd h
  rw [Outcome.Meets, ← hresult] at hmeets
  exact ⟨_, hmeets⟩

@[simp]
theorem mayEnd_pure {a : α} {result : Except Halt α} :
    MayEnd supplier (pure a) c result c' ↔ result = .ok a ∧ c' = c := by
  rw [← Prod.mk.injEq]
  exact Inquiry.mayEnd_done

@[simp]
theorem mayEnd_throw {halt : Halt} {result : Except Halt α} :
    MayEnd supplier (throw halt) c result c' ↔ result = .error halt ∧ c' = c := by
  rw [← Prod.mk.injEq]
  exact Inquiry.mayEnd_done

@[simp]
theorem mayEnd_get {result : Except Halt Cache} :
    MayEnd supplier get c result c' ↔ result = .ok c ∧ c' = c := by
  rw [← Prod.mk.injEq]
  exact Inquiry.mayEnd_done

@[simp]
theorem mayEnd_modify {f : Cache → Cache} {result : Except Halt PUnit} :
    MayEnd supplier (modify f) c result c' ↔ result = .ok ⟨⟩ ∧ c' = f c := by
  rw [← Prod.mk.injEq]
  exact Inquiry.mayEnd_done

@[simp]
theorem mayEnd_modifyGet {f : Cache → α × Cache} {result : Except Halt α} :
    MayEnd supplier (modifyGet f) c result c' ↔ result = .ok (f c).1 ∧ c' = (f c).2 := by
  rw [← Prod.mk.injEq]
  exact Inquiry.mayEnd_done

theorem mayEnd_bind {x : ResolveM α} {f : α → ResolveM β} {result : Except Halt β} :
    MayEnd supplier (x >>= f) c result c' ↔
      (∃ a c₁, MayEnd supplier x c (.ok a) c₁ ∧ MayEnd supplier (f a) c₁ result c') ∨
        ∃ halt, MayEnd supplier x c (.error halt) c' ∧ result = .error halt := by
  simp only [MayEnd, ExceptT.run_bind, StateT.run_bind, Inquiry.mayEnd_bind]
  constructor
  · rintro ⟨⟨halt | a, c₁⟩, hx, hf⟩
    · obtain ⟨rfl, rfl⟩ := Prod.mk.inj (Inquiry.mayEnd_done.mp hf)
      exact .inr ⟨halt, hx, rfl⟩
    · exact .inl ⟨a, c₁, hx, hf⟩
  · rintro (⟨a, c₁, hx, hf⟩ | ⟨halt, hx, rfl⟩)
    · exact ⟨(.ok a, c₁), hx, hf⟩
    · exact ⟨(.error halt, c'), hx, .done _⟩

@[simp]
theorem mayEnd_map {f : α → β} {x : ResolveM α} {result : Except Halt β} :
    MayEnd supplier (f <$> x) c result c' ↔
      ∃ before, MayEnd supplier x c before c' ∧ result = before.map f := by
  rw [map_eq_pure_bind, mayEnd_bind]
  constructor
  · rintro (⟨a, c₁, hx, hf⟩ | ⟨halt, hx, rfl⟩)
    · obtain ⟨rfl, rfl⟩ := mayEnd_pure.mp hf
      exact ⟨.ok a, hx, rfl⟩
    · exact ⟨.error halt, hx, rfl⟩
  · rintro ⟨halt | a, hx, rfl⟩
    · exact .inr ⟨halt, hx, rfl⟩
    · exact .inl ⟨a, c', hx, mayEnd_pure.mpr ⟨rfl, rfl⟩⟩

theorem mayEnd_tryCatch {x : ResolveM α} {rescue : Halt → ResolveM α} {result : Except Halt α} :
    MayEnd supplier (tryCatch x rescue) c result c' ↔
      (∃ a, MayEnd supplier x c (.ok a) c' ∧ result = .ok a) ∨
        ∃ halt c₁, MayEnd supplier x c (.error halt) c₁ ∧
          MayEnd supplier (rescue halt) c₁ result c' := by
  simp only [MayEnd, run_tryCatch, Inquiry.mayEnd_bind]
  constructor
  · rintro ⟨⟨halt | a, c₁⟩, hx, hrescue⟩
    · exact .inr ⟨halt, c₁, hx, hrescue⟩
    · obtain ⟨rfl, rfl⟩ := Prod.mk.inj (Inquiry.mayEnd_done.mp hrescue)
      exact .inl ⟨a, hx, rfl⟩
  · rintro (⟨a, hx, rfl⟩ | ⟨halt, c₁, hx, hrescue⟩)
    · exact ⟨(.ok a, c'), hx, .done _⟩
    · exact ⟨(.error halt, c₁), hx, hrescue⟩

theorem mayEnd_liftM {q : Inquiry α} {result : Except Halt α} :
    MayEnd supplier (liftM q : ResolveM α) c result c' ↔
      ∃ a, q.MayEnd supplier a ∧ result = .ok a ∧ c' = c := by
  simp only [MayEnd, run_liftM, Inquiry.mayEnd_bind, Inquiry.mayEnd_pure, Prod.mk.injEq]

end ResolveM

def Declaration.edges (d : Declaration) : List (String × String) :=
  d.parent.toList.map (Prod.mk "parent class") ++ d.interfaces.map (Prod.mk "interface") ++
    d.usedTraits.map (Prod.mk "trait")

namespace Resolver

open ResolveM

variable {r : Resolver} {supplier : Supplier} {follow : String → ResolveM Edge} {d : Declaration}
  {key : TypeKey} {c c' : Cache}

/-- Whether following edges of `d` one after another may lead from one cache to another and give the
answers at hand, each with the name it is for. -/
inductive Follows (r : Resolver) (supplier : Supplier) (follow : String → ResolveM Edge)
    (d : Declaration) (key : TypeKey) :
    Cache → List (String × String) → List (String × Option ResolvedType) → Cache → Prop
  | nil (c : Cache) : Follows r supplier follow d key c [] [] c
  | next {c c₁ c' : Cache} {relation target : String} {edge : Edge} {rest : List (String × String)}
      {answers : List (String × Option ResolvedType)}
      (ends : MayEnd supplier (follow target) c (.ok edge) c₁)
      (follows : Follows r supplier follow d key (r.linked d key relation target edge c₁).2 rest
        answers c') :
      Follows r supplier follow d key c ((relation, target) :: rest)
        ((target, (r.linked d key relation target edge c₁).1) :: answers) c'

/-- Whether following edges of `d` one after another may stop at one of them. -/
inductive Stops (r : Resolver) (supplier : Supplier) (follow : String → ResolveM Edge)
    (d : Declaration) (key : TypeKey) : Cache → List (String × String) → Halt → Cache → Prop
  | here {c c' : Cache} {relation target : String} {halt : Halt}
      (stops : MayEnd supplier (follow target) c (.error halt) c') (rest : List (String × String)) :
      Stops r supplier follow d key c ((relation, target) :: rest) halt c'
  | later {c c₁ c' : Cache} {relation target : String} {edge : Edge} {rest : List (String × String)}
      {halt : Halt} (ends : MayEnd supplier (follow target) c (.ok edge) c₁)
      (stops : Stops r supplier follow d key (r.linked d key relation target edge c₁).2 rest halt
        c') :
      Stops r supplier follow d key c ((relation, target) :: rest) halt c'

theorem Follows.targets_eq {edges : List (String × String)}
    {answers : List (String × Option ResolvedType)}
    (h : r.Follows supplier follow d key c edges answers c') :
    answers.map Prod.fst = edges.map Prod.snd := by
  induction h with
  | nil => rfl
  | next _ _ ih => simp [ih]

theorem Follows.names_eq {relation : String} {targets : List String}
    {answers : List (String × Option ResolvedType)}
    (h : r.Follows supplier follow d key c (targets.map (Prod.mk relation)) answers c') :
    answers.map Prod.fst = targets := by
  rw [h.targets_eq, List.map_map]
  exact List.map_id targets

theorem follows_append {before after : List (String × String)}
    {answers : List (String × Option ResolvedType)} :
    r.Follows supplier follow d key c (before ++ after) answers c' ↔
      ∃ first second c₁, r.Follows supplier follow d key c before first c₁ ∧
        r.Follows supplier follow d key c₁ after second c' ∧ answers = first ++ second := by
  induction before generalizing c answers with
  | nil =>
    constructor
    · exact fun h => ⟨[], answers, c, .nil c, h, rfl⟩
    · rintro ⟨_, _, _, ⟨⟩, h, rfl⟩
      exact h
  | cons edge before ih =>
    constructor
    · rintro (_ | ⟨ends, follows⟩)
      obtain ⟨first, second, c₁, hfirst, hsecond, rfl⟩ := ih.mp follows
      exact ⟨_, second, c₁, .next ends hfirst, hsecond, rfl⟩
    · rintro ⟨_, second, c₁, _ | ⟨ends, hfirst⟩, hsecond, rfl⟩
      exact .next ends (ih.mpr ⟨_, second, c₁, hfirst, hsecond, rfl⟩)

theorem stops_append {before after : List (String × String)} {halt : Halt} :
    r.Stops supplier follow d key c (before ++ after) halt c' ↔
      r.Stops supplier follow d key c before halt c' ∨
        ∃ answers c₁, r.Follows supplier follow d key c before answers c₁ ∧
          r.Stops supplier follow d key c₁ after halt c' := by
  induction before generalizing c with
  | nil =>
    constructor
    · exact fun h => .inr ⟨[], c, .nil c, h⟩
    · rintro (⟨⟨⟩⟩ | ⟨_, _, ⟨⟩, h⟩)
      exact h
  | cons edge before ih =>
    constructor
    · rintro (⟨stops, _⟩ | ⟨ends, stops⟩)
      · exact .inl (.here stops _)
      · rcases ih.mp stops with hbefore | ⟨answers, c₁, hbefore, hafter⟩
        · exact .inl (.later ends hbefore)
        · exact .inr ⟨_, c₁, .next ends hbefore, hafter⟩
    · rintro ((⟨stops, _⟩ | ⟨ends, stops⟩) | ⟨_, c₁, _ | ⟨ends, hbefore⟩, hafter⟩)
      · exact .here stops _
      · exact .later ends (ih.mpr (.inl stops))
      · exact .later ends (ih.mpr (.inr ⟨_, c₁, hbefore, hafter⟩))

theorem Stops.exists_halt {edges : List (String × String)} {halt : Halt}
    (h : r.Stops supplier follow d key c edges halt c') :
    ∃ before relation target after answers c₁, edges = before ++ (relation, target) :: after ∧
      r.Follows supplier follow d key c before answers c₁ ∧
      MayEnd supplier (follow target) c₁ (.error halt) c' := by
  induction h with
  | here stops rest => exact ⟨[], _, _, rest, [], _, rfl, .nil _, stops⟩
  | later ends _ ih =>
    obtain ⟨before, relation, target, after, answers, c₁, rfl, follows, stops⟩ := ih
    exact ⟨_ :: before, relation, target, after, _, c₁, rfl, .next ends follows, stops⟩

theorem mayEnd_link {relation target : String} {result : Except Halt (Option ResolvedType)} :
    MayEnd supplier (r.link follow d key relation target) c result c' ↔
      (∃ edge c₁, MayEnd supplier (follow target) c (.ok edge) c₁ ∧
        result = .ok (r.linked d key relation target edge c₁).1 ∧
        c' = (r.linked d key relation target edge c₁).2) ∨
      ∃ halt, MayEnd supplier (follow target) c (.error halt) c' ∧ result = .error halt := by
  rw [link, mayEnd_bind]
  refine or_congr (exists_congr fun edge => exists_congr fun c₁ => and_congr Iff.rfl ?_) Iff.rfl
  simp only [mayEnd_bind, mayEnd_modifyGet, linked, note]
  cases hsupply : edge.supply relation target r.settings.depthLimit (c₁.takeReentry key).1 with
  | ok t => simp [hsupply]
  | error problem => simp [hsupply, Cache.add, Except.map, and_comm]

theorem mayEnd_linkAll {relation : String} {targets : List String}
    {result : Except Halt (List ResolvedType)} :
    MayEnd supplier (r.linkAll follow d key relation targets) c result c' ↔
      (∃ answers, r.Follows supplier follow d key c (targets.map (Prod.mk relation)) answers c' ∧
        result = .ok (answers.filterMap Prod.snd)) ∨
      ∃ halt, r.Stops supplier follow d key c (targets.map (Prod.mk relation)) halt c' ∧
        result = .error halt := by
  induction targets generalizing c result with
  | nil =>
    rw [linkAll, mayEnd_pure]
    constructor
    · rintro ⟨rfl, rfl⟩
      exact .inl ⟨[], .nil c', rfl⟩
    · rintro (⟨_, ⟨⟩, rfl⟩ | ⟨_, ⟨⟩, -⟩)
      exact ⟨rfl, rfl⟩
  | cons target rest ih =>
    have hfirst : r.linkAll follow d key relation (target :: rest) =
        r.link follow d key relation target >>= fun t =>
          (t.toList ++ ·) <$> r.linkAll follow d key relation rest := by
      simp [linkAll]
    have hkept (t : Option ResolvedType) (answers : List (String × Option ResolvedType)) :
        t.toList ++ answers.filterMap Prod.snd = ((target, t) :: answers).filterMap Prod.snd := by
      cases t <;> simp
    simp only [hfirst, mayEnd_bind, mayEnd_map, mayEnd_link, ih]
    constructor
    · rintro (⟨t, c₁, ⟨edge, c₂, ends, ht, rfl⟩ | ⟨halt, -, ht⟩, _,
        ⟨answers, follows, rfl⟩ | ⟨halt, stops, rfl⟩, rfl⟩ |
        ⟨halt, ⟨_, _, _, hhalt, -⟩ | ⟨_, stops, hhalt⟩, rfl⟩)
      · cases ht
        exact .inl ⟨_, .next ends follows, congrArg Except.ok (hkept _ _)⟩
      · cases ht
        exact .inr ⟨halt, .later ends stops, rfl⟩
      · cases ht
      · cases ht
      · cases hhalt
      · cases hhalt
        exact .inr ⟨halt, .here stops _, rfl⟩
    · rintro (⟨_, _ | ⟨ends, follows⟩, rfl⟩ | ⟨halt, ⟨stops, _⟩ | ⟨ends, stops⟩, rfl⟩)
      · exact .inl ⟨_, _, .inl ⟨_, _, ends, rfl, rfl⟩, _, .inl ⟨_, follows, rfl⟩,
          congrArg Except.ok (hkept _ _).symm⟩
      · exact .inr ⟨halt, .inr ⟨halt, stops, rfl⟩, rfl⟩
      · exact .inl ⟨_, _, .inl ⟨_, _, ends, rfl, rfl⟩, _, .inr ⟨halt, stops, rfl⟩, rfl⟩

theorem mayEnd_linkAll_bind {α : Type} {relation : String} {targets : List String}
    {f : List ResolvedType → ResolveM α} {result : Except Halt α} :
    MayEnd supplier (r.linkAll follow d key relation targets >>= f) c result c' ↔
      (∃ answers c₁, r.Follows supplier follow d key c (targets.map (Prod.mk relation)) answers c₁ ∧
        MayEnd supplier (f (answers.filterMap Prod.snd)) c₁ result c') ∨
      ∃ halt, r.Stops supplier follow d key c (targets.map (Prod.mk relation)) halt c' ∧
        result = .error halt := by
  simp only [mayEnd_bind, mayEnd_linkAll]
  constructor
  · rintro (⟨_, c₁, ⟨answers, follows, ⟨⟩⟩ | ⟨_, _, ⟨⟩⟩, h⟩ |
      ⟨halt, ⟨_, _, ⟨⟩⟩ | ⟨_, stops, ⟨⟩⟩, rfl⟩)
    · exact .inl ⟨answers, c₁, follows, h⟩
    · exact .inr ⟨halt, stops, rfl⟩
  · rintro (⟨answers, c₁, follows, h⟩ | ⟨halt, stops, rfl⟩)
    · exact .inl ⟨_, c₁, .inl ⟨answers, follows, rfl⟩, h⟩
    · exact .inr ⟨halt, .inr ⟨halt, stops, rfl⟩, rfl⟩

theorem mayEnd_supertypes {result : Except Halt Supertypes} :
    MayEnd supplier (r.supertypes follow d key) c result c' ↔
      (∃ parents interfaces traits,
        parents.map Prod.fst = d.parent.toList ∧ interfaces.map Prod.fst = d.interfaces ∧
        traits.map Prod.fst = d.usedTraits ∧
        r.Follows supplier follow d key c d.edges (parents ++ interfaces ++ traits) c' ∧
        result = .ok (.ofAnswers (parents.map Prod.snd) (interfaces.map Prod.snd)
          (traits.map Prod.snd))) ∨
      ∃ halt, r.Stops supplier follow d key c d.edges halt c' ∧ result = .error halt := by
  have hmade (parents interfaces traits : List (String × Option ResolvedType)) :
      (⟨(parents.filterMap Prod.snd).head?, Supertypes.gatherInterfaces
        (parents.filterMap Prod.snd).head? (interfaces.filterMap Prod.snd),
        traits.filterMap Prod.snd⟩ : Supertypes) =
      .ofAnswers (parents.map Prod.snd) (interfaces.map Prod.snd) (traits.map Prod.snd) := by
    simp [Supertypes.ofAnswers, List.reduceOption, List.filterMap_map]
  simp only [supertypes, mayEnd_linkAll_bind, mayEnd_pure, hmade]
  constructor
  · rintro (⟨parents, c₁, hp, ⟨interfaces, c₂, hi, ⟨traits, c₃, ht, rfl, rfl⟩ | ⟨halt, ht, rfl⟩⟩ |
      ⟨halt, hi, rfl⟩⟩ | ⟨halt, hp, rfl⟩)
    · have hpi := follows_append.mpr ⟨_, _, _, hp, hi, rfl⟩
      exact .inl ⟨parents, interfaces, traits, hp.names_eq, hi.names_eq, ht.names_eq,
        follows_append.mpr ⟨_, _, _, hpi, ht, rfl⟩, rfl⟩
    · have hpi := follows_append.mpr ⟨_, _, _, hp, hi, rfl⟩
      exact .inr ⟨halt, stops_append.mpr (.inr ⟨_, _, hpi, ht⟩), rfl⟩
    · have hpi := stops_append.mpr (.inr ⟨_, _, hp, hi⟩)
      exact .inr ⟨halt, stops_append.mpr (.inl hpi), rfl⟩
    · exact .inr ⟨halt, stops_append.mpr (.inl (stops_append.mpr (.inl hp))), rfl⟩
  · rintro (⟨parents, interfaces, traits, hparents, hinterfaces, -, hall, rfl⟩ | ⟨halt, hall, rfl⟩)
    · -- The names leave only one way to part the answers into the three groups.
      obtain ⟨_, ts, c₂, hpi, ht, hsplit⟩ := follows_append.mp hall
      obtain ⟨ps, is, c₁, hp, hi, rfl⟩ := follows_append.mp hpi
      have hps := congrArg List.length (hparents.trans hp.names_eq.symm)
      have his := congrArg List.length (hinterfaces.trans hi.names_eq.symm)
      simp only [List.length_map] at hps his
      obtain ⟨hfirst, rfl⟩ := List.append_inj hsplit (by simp [hps, his])
      obtain ⟨rfl, rfl⟩ := List.append_inj hfirst hps
      exact .inl ⟨_, c₁, hp, .inl ⟨_, c₂, hi, .inl ⟨_, c', ht, rfl, rfl⟩⟩⟩
    · rcases stops_append.mp hall with hpi | ⟨_, c₂, hpi, ht⟩
      · rcases stops_append.mp hpi with hp | ⟨parents, c₁, hp, hi⟩
        · exact .inr ⟨halt, hp, rfl⟩
        · exact .inl ⟨parents, c₁, hp, .inr ⟨halt, hi, rfl⟩⟩
      · obtain ⟨parents, interfaces, c₁, hp, hi, -⟩ := follows_append.mp hpi
        exact .inl ⟨parents, c₁, hp, .inl ⟨interfaces, c₂, hi, .inr ⟨halt, ht, rfl⟩⟩⟩

theorem mayEnd_fetch_bind {α : Type} {name : String} {f : List Declaration → ResolveM α}
    {result : Except Halt α} :
    MayEnd supplier (fetch name >>= f) c result c' ↔
      (∃ candidates, supplier name (.ok candidates) ∧ MayEnd supplier (f candidates) c result c') ∨
        ∃ error, supplier name (.error error) ∧ c' = c ∧ result = .error (.source error) := by
  have hasked {answer : Except SourceError (List Declaration)} :
      (Inquiry.fetch name).MayEnd supplier answer ↔ supplier name answer := by
    simp [Inquiry.fetch]
  simp only [fetch, bind_assoc, mayEnd_bind (x := liftM _), mayEnd_liftM, hasked]
  constructor
  · rintro (⟨error | candidates, _, ⟨_, given, ⟨⟩, rfl⟩, h⟩ | ⟨_, ⟨_, _, ⟨⟩, _⟩, _⟩)
    · refine .inr ⟨error, given, ?_⟩
      simpa [and_comm] using h
    · refine .inl ⟨candidates, given, ?_⟩
      simpa using h
  · rintro (⟨candidates, given, h⟩ | ⟨error, given, rfl, rfl⟩)
    · exact .inl ⟨.ok candidates, c, ⟨_, given, rfl, rfl⟩, by simpa using h⟩
    · exact .inl ⟨.error error, c', ⟨_, given, rfl, rfl⟩, by simp⟩

theorem mayEnd_build {name : String} {result : Except Halt (Option ResolvedType)} :
    MayEnd supplier (r.build follow name key) c result c' ↔
      (∃ d others, supplier name (.ok (d :: others)) ∧
        ((∃ supers c₁, MayEnd supplier (r.supertypes follow d key)
            (c.addAll ((ambiguity others).map d.diagnose)) (.ok supers) c₁ ∧
          c' = c₁.addAll ((d.assemble r.allHooks supers).problems.map d.diagnose) ∧
          result = .ok (some (d.assemble r.allHooks supers).type)) ∨
        ∃ halt, MayEnd supplier (r.supertypes follow d key)
            (c.addAll ((ambiguity others).map d.diagnose)) (.error halt) c' ∧
          result = .error halt)) ∨
      (supplier name (.ok []) ∧ c' = c ∧ result = .ok none) ∨
      ∃ error, supplier name (.error error) ∧ c' = c ∧ result = .error (.source error) := by
  rw [build, mayEnd_fetch_bind, ← or_assoc]
  refine or_congr ⟨?_, ?_⟩ Iff.rfl
  · rintro ⟨_ | ⟨d, others⟩, given, h⟩
    · exact .inr ⟨given, by simpa [and_comm] using h⟩
    · exact .inl ⟨d, others, given, by simpa [mayEnd_bind, note, mayEnd_liftM, Except.map] using h⟩
  · rintro (⟨d, others, given, h⟩ | ⟨given, rfl, rfl⟩)
    · exact ⟨_, given, by simpa [mayEnd_bind, note, mayEnd_liftM, Except.map] using h⟩
    · exact ⟨[], given, by simp⟩

theorem mayEnd_work {name : String} {result : Except Halt Edge} :
    MayEnd supplier (r.work follow name key) c result c' ↔
      (∃ v c₁, MayEnd supplier (r.build follow name key) (c.start key) (.ok v) c₁ ∧
        c' = c₁.conclude c.cuts key v ∧ result = .ok (.ofResult v)) ∨
      ∃ halt, (∃ c₁, MayEnd supplier (r.build follow name key) (c.start key) (.error halt) c₁ ∧
        c' = c₁.release key) ∧ result = .error halt := by
  simp [work, mayEnd_bind, mayEnd_tryCatch, Cache.conclude, Except.map]

/-- What one step may come to. -/
inductive Passes (r : Resolver) (supplier : Supplier) (follow : String → ResolveM Edge)
    (name : String) (c : Cache) : Except Halt Edge → Cache → Prop
  | done {v : Option ResolvedType} (known : c.slots.get? (.ofName name) = some (.done v)) :
      Passes r supplier follow name c (.ok (.ofResult v)) c
  | cycle (underway : c.slots.get? (.ofName name) = some .underway) :
      Passes r supplier follow name c (.ok .cycle) (c.reenter (.ofName name))
  | tooDeep (new : c.slots.get? (.ofName name) = none) (full : r.settings.depthLimit ≤ c.depth) :
      Passes r supplier follow name c (.ok .tooDeep) c.cutEdge
  | refused {error : SourceError} (new : c.slots.get? (.ofName name) = none)
      (room : c.depth < r.settings.depthLimit) (given : supplier name (.error error)) :
      Passes r supplier follow name c (.error (.source error))
        ((c.start (.ofName name)).release (.ofName name))
  | missing (new : c.slots.get? (.ofName name) = none) (room : c.depth < r.settings.depthLimit)
      (given : supplier name (.ok [])) :
      Passes r supplier follow name c (.ok .missing)
        ((c.start (.ofName name)).settle (.ofName name) none)
  | stopped {d : Declaration} {others : List Declaration} {halt : Halt} {c' : Cache}
      (new : c.slots.get? (.ofName name) = none) (room : c.depth < r.settings.depthLimit)
      (given : supplier name (.ok (d :: others)))
      (stops : r.Stops supplier follow d (.ofName name)
        ((c.start (.ofName name)).addAll ((ambiguity others).map d.diagnose)) d.edges halt c') :
      Passes r supplier follow name c (.error halt) (c'.release (.ofName name))
  | built {d : Declaration} {others : List Declaration}
      {parents interfaces traits : List (String × Option ResolvedType)} {c' : Cache}
      (new : c.slots.get? (.ofName name) = none) (room : c.depth < r.settings.depthLimit)
      (given : supplier name (.ok (d :: others)))
      (parents_eq : parents.map Prod.fst = d.parent.toList)
      (interfaces_eq : interfaces.map Prod.fst = d.interfaces)
      (traits_eq : traits.map Prod.fst = d.usedTraits)
      (follows : r.Follows supplier follow d (.ofName name)
        ((c.start (.ofName name)).addAll ((ambiguity others).map d.diagnose)) d.edges
        (parents ++ interfaces ++ traits) c')
      {assembly : Assembly} (assembly_eq : assembly = d.assemble r.allHooks (.ofAnswers
        (parents.map Prod.snd) (interfaces.map Prod.snd) (traits.map Prod.snd))) :
      Passes r supplier follow name c (.ok (.found assembly.type))
        ((c'.addAll (assembly.problems.map d.diagnose)).conclude c.cuts (.ofName name)
          (some assembly.type))

section Step

variable {name : String} {result : Except Halt Edge}

theorem conclude_start (c : Cache) (key : TypeKey) (v : Option ResolvedType) :
    (c.start key).conclude c.cuts key v = (c.start key).settle key v := by
  simp [Cache.conclude, Cache.start]

theorem passes_of_mayEnd_work (hnew : c.slots.get? (.ofName name) = none)
    (hroom : c.depth < r.settings.depthLimit)
    (h : MayEnd supplier (r.work follow name (.ofName name)) c result c') :
    r.Passes supplier follow name c result c' := by
  rcases mayEnd_work.mp h with ⟨v, c₁, hbuild, rfl, rfl⟩ | ⟨halt, ⟨c₁, hbuild, rfl⟩, rfl⟩
  · rcases mayEnd_build.mp hbuild with
      ⟨d, others, given, ⟨supers, c₂, hsupers, rfl, ⟨⟩⟩ | ⟨_, _, ⟨⟩⟩⟩ | ⟨given, rfl, ⟨⟩⟩ |
      ⟨_, _, _, ⟨⟩⟩
    · rcases mayEnd_supertypes.mp hsupers with
        ⟨_, _, _, hparents, hinterfaces, htraits, follows, ⟨⟩⟩ | ⟨_, _, ⟨⟩⟩
      exact .built hnew hroom given hparents hinterfaces htraits follows rfl
    · rw [conclude_start]
      exact .missing hnew hroom given
  · rcases mayEnd_build.mp hbuild with
      ⟨d, others, given, ⟨_, _, _, _, ⟨⟩⟩ | ⟨_, hsupers, ⟨⟩⟩⟩ | ⟨_, _, ⟨⟩⟩ |
      ⟨error, given, rfl, ⟨⟩⟩
    · rcases mayEnd_supertypes.mp hsupers with ⟨_, _, _, _, _, _, _, ⟨⟩⟩ | ⟨_, stops, ⟨⟩⟩
      exact .stopped hnew hroom given stops
    · exact .refused hnew hroom given

/-- A known type is answered from the cache, a type being worked on is a cycle, and a new type is
worked on if there is room. -/
theorem mayEnd_step : MayEnd supplier (r.step follow name) c result c' ↔
    r.Passes supplier follow name c result c' := by
  have hnewstep (hnew : c.slots.get? (.ofName name) = none)
      (hroom : c.depth < r.settings.depthLimit) :
      MayEnd supplier (r.step follow name) c result c' ↔
        MayEnd supplier (r.work follow name (.ofName name)) c result c' := by
    simp [step, mayEnd_bind, hnew, Nat.not_le_of_lt hroom]
  constructor
  · intro h
    rcases hslot : c.slots.get? (.ofName name) with _ | ⟨_ | v⟩
    · by_cases hfull : r.settings.depthLimit ≤ c.depth
      · obtain ⟨rfl, rfl⟩ : c' = c.cutEdge ∧ result = .ok .tooDeep := by
          simpa [step, mayEnd_bind, hslot, hfull, Except.map] using h
        exact .tooDeep hslot hfull
      · have hroom : c.depth < r.settings.depthLimit := Nat.lt_of_not_le hfull
        exact passes_of_mayEnd_work hslot hroom ((hnewstep hslot hroom).mp h)
    · obtain ⟨rfl, rfl⟩ : c' = c.reenter (.ofName name) ∧ result = .ok .cycle := by
        simpa [step, mayEnd_bind, hslot, Except.map] using h
      exact .cycle hslot
    · obtain ⟨rfl, rfl⟩ : result = .ok (.ofResult v) ∧ c' = c := by
        simpa [step, mayEnd_bind, hslot] using h
      exact .done hslot
  · intro h
    cases h with
    | done known => simp [step, mayEnd_bind, known]
    | cycle underway => simp [step, mayEnd_bind, underway, Except.map]
    | tooDeep new full => simp [step, mayEnd_bind, new, full, Except.map]
    | refused new room given =>
      rw [hnewstep new room, mayEnd_work]
      exact .inr ⟨_, ⟨_, mayEnd_build.mpr (.inr (.inr ⟨_, given, rfl, rfl⟩)), rfl⟩, rfl⟩
    | missing new room given =>
      rw [hnewstep new room, mayEnd_work, ← conclude_start]
      exact .inl ⟨none, _, mayEnd_build.mpr (.inr (.inl ⟨given, rfl, rfl⟩)), rfl, rfl⟩
    | stopped new room given stops =>
      have hsupers := mayEnd_supertypes.mpr (.inr ⟨_, stops, rfl⟩)
      have hbuild := mayEnd_build.mpr (.inl ⟨_, _, given, .inr ⟨_, hsupers, rfl⟩⟩)
      rw [hnewstep new room, mayEnd_work]
      exact .inr ⟨_, ⟨_, hbuild, rfl⟩, rfl⟩
    | built new room given hparents hinterfaces htraits follows hassembly =>
      subst hassembly
      have hsupers := mayEnd_supertypes.mpr
        (.inl ⟨_, _, _, hparents, hinterfaces, htraits, follows, rfl⟩)
      have hbuild := mayEnd_build.mpr (.inl ⟨_, _, given, .inl ⟨_, _, hsupers, rfl, rfl⟩⟩)
      rw [hnewstep new room, mayEnd_work]
      exact .inl ⟨_, _, hbuild, rfl, rfl⟩

end Step

end Resolver

end Hierarchy
