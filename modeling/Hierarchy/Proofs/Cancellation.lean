import Hierarchy.Proofs.Requests

namespace Hierarchy

/-- The entries up to and including the first that satisfies `p`; all of them if there is none. -/
def throughFirst {α : Type} (p : α → Bool) (xs : List α) : List α := xs.take (xs.findIdx p + 1)

@[simp]
theorem throughFirst_nil {α : Type} (p : α → Bool) : throughFirst p [] = [] := rfl

theorem throughFirst_cons {α : Type} (p : α → Bool) (x : α) (xs : List α) :
    throughFirst p (x :: xs) = x :: if p x then [] else throughFirst p xs := by
  by_cases h : p x <;> simp [throughFirst, List.findIdx_cons, h]

namespace Inquiry

variable {α : Type} {source : Source} {stalls : String → Bool}

/-- What is asked in the end if the answers never come for names that stall: the first of these is
the last name asked for. -/
def asked (source : Source) (stalls : String → Bool) (q : Inquiry α) : List String :=
  throughFirst stalls (namesAsked (q.run source).2)

@[simp]
theorem asked_done (value : α) : (done value).asked source stalls = [] := rfl

theorem asked_ask (name : String) (resume : Except SourceError (List Declaration) → Inquiry α) :
    (ask name resume).asked source stalls =
      name :: if stalls name then [] else (resume (source name)).asked source stalls :=
  throughFirst_cons stalls name _

@[simp]
theorem asked_tell (application : Application) (rest : Inquiry α) :
    (tell application rest).asked source stalls = rest.asked source stalls := rfl

@[simp]
theorem pollUpTo_done (polls : ℕ) (value : α) :
    (done value).pollUpTo source ⟨true, stalls⟩ (polls + 1) = (some value, []) := rfl

theorem pollUpTo_ask (polls : ℕ) (name : String)
    (resume : Except SourceError (List Declaration) → Inquiry α) :
    (ask name resume).pollUpTo source ⟨true, stalls⟩ (polls + 1) =
      if stalls name then (none, [.fetched name])
      else
        let later := (resume (source name)).pollUpTo source ⟨true, stalls⟩ polls
        (later.1, .fetched name :: later.2) := by
  by_cases h : stalls name <;> simp [pollUpTo, poll, h]

theorem pollUpTo_tell (polls : ℕ) (application : Application) (rest : Inquiry α) :
    (tell application rest).pollUpTo source ⟨true, stalls⟩ (polls + 1) =
      let later := rest.pollUpTo source ⟨true, stalls⟩ (polls + 1)
      (later.1, .applied application :: later.2) := by
  simp only [pollUpTo, poll]
  rcases rest.poll source ⟨true, stalls⟩ with ⟨_ | _ | _, log⟩ <;> rfl

theorem namesAsked_pollUpTo (q : Inquiry α) (polls : ℕ) :
    namesAsked (q.pollUpTo source ⟨true, stalls⟩ polls).2 = (q.asked source stalls).take polls := by
  induction q generalizing polls with
  | done value => cases polls <;> rfl
  | ask name resume ih =>
    cases polls with
    | zero => rfl
    | succ polls =>
      rw [pollUpTo_ask, asked_ask]
      by_cases h : stalls name
      · simp [h]
      · simp [h, ih]
  | tell application rest ih =>
    cases polls with
    | zero => rfl
    | succ polls =>
      rw [pollUpTo_tell, asked_tell, ← ih]
      rfl

/-- An inquiry that is polled ends in its value if it has a poll to spare after its last question and
no question stalls, and has nothing to show otherwise. -/
theorem fst_pollUpTo (q : Inquiry α) (polls : ℕ) :
    (q.pollUpTo source ⟨true, stalls⟩ polls).1 =
      if (q.asked source stalls).length < polls ∧
          ∀ name ∈ q.asked source stalls, stalls name = false then some (q.run source).1
      else none := by
  induction q generalizing polls with
  | done value =>
    cases polls with
    | zero => rfl
    | succ polls => simp [run]
  | ask name resume ih =>
    cases polls with
    | zero => simp [pollUpTo]
    | succ polls =>
      rw [pollUpTo_ask, asked_ask]
      by_cases h : stalls name
      · simp [h]
      · simp [h, ih, run]
  | tell application rest ih =>
    cases polls with
    | zero => simp [pollUpTo]
    | succ polls =>
      rw [pollUpTo_tell, asked_tell]
      exact ih (polls + 1)

end Inquiry

namespace Resolver

/-- What a caller is told who gives up after `n` polls, over a source that makes its callers wait: the
result, or that nothing was found if the result was not there in time. -/
def answerWithin (r : Resolver) (source : Source) (stalls : String → Bool) (n : ℕ) (name : String) :
    Except Halt (Option ResolvedType) :=
  ((r.resolve name).runWithin source ⟨true, stalls⟩ n).1.getD (.ok none)

def fetchesWithin (r : Resolver) (source : Source) (stalls : String → Bool) (n : ℕ)
    (name : String) : List String :=
  namesAsked ((r.resolve name).runWithin source ⟨true, stalls⟩ n).2

/-- A caller who gives up after `n` polls gets the whole result or nothing.  Let `asked` be the names
that resolving a type asks for, up to the first whose answer never comes.  The first `n + 1` of them
are asked for before the caller gives up, and the result is the one of a caller with all the time in
the world if there are no more than `n` of them and all are answered.  So a caller who waits longer is
told the same, unless there was nothing to tell before. -/
theorem all_or_nothing (r : Resolver) (source : Source) (stalls : String → Bool) (name : String)
    {n : ℕ} (hn : 1 ≤ n) :
    let asked := throughFirst stalls (namesAsked ((r.resolve name).run source).2)
    let result := ((r.resolve name).run source).1
    r.fetchesWithin source stalls n name = asked.take (min (n + 1) asked.length) ∧
      r.answerWithin source stalls n name =
        (if asked.length ≤ n ∧ ∀ a ∈ asked, stalls a = false then result else .ok none) ∧
      (∀ n', n ≤ n' → r.answerWithin source stalls n name ≠ .ok none →
        r.answerWithin source stalls n' name = r.answerWithin source stalls n name) ∧
      ∀ t, r.answerWithin source stalls n name = .ok (some t) → result = .ok (some t) := by
  intro asked result
  have hanswer (n : ℕ) (hn : 1 ≤ n) : r.answerWithin source stalls n name =
      if asked.length ≤ n ∧ ∀ a ∈ asked, stalls a = false then result else .ok none := by
    have hne : n ≠ 0 := by omega
    have hasked : (r.resolve name).asked source stalls = asked := rfl
    rw [answerWithin, Inquiry.runWithin, if_neg hne, Inquiry.fst_pollUpTo, hasked]
    by_cases hfits : asked.length ≤ n ∧ ∀ a ∈ asked, stalls a = false
    · rw [if_pos hfits, if_pos ⟨by omega, hfits.2⟩]
      rfl
    · rw [if_neg hfits, if_neg fun h => hfits ⟨by omega, h.2⟩]
      rfl
  refine ⟨?_, hanswer n hn, fun n' hle hsome => ?_, fun t ht => ?_⟩
  · have hne : n ≠ 0 := by omega
    rw [fetchesWithin, Inquiry.runWithin, if_neg hne, Inquiry.namesAsked_pollUpTo,
      List.take_eq_take_min]
    rfl
  · rw [hanswer n hn] at hsome ⊢
    rw [hanswer n' (by omega)]
    split at hsome
    · rename_i hfits
      rw [if_pos hfits, if_pos ⟨by omega, hfits.2⟩]
    · exact absurd rfl hsome
  · rw [hanswer n hn] at ht
    split at ht
    · exact ht
    · cases ht

def slowlyFound : Source :=
  (Codebase.ofDeclarations [(Declaration.ofName .classType "A").withParent "B",
    (Declaration.ofName .classType "B").withInterface "I"]).source

/-- Three questions need four polls: with three the last answer comes too late, and if the answer for
`B` never comes then two questions are all there is, however long the caller waits. -/
theorem all_or_nothing_slowlyFound :
    (standard.fetchesWithin slowlyFound (fun _ => false) 2 "A" = ["A", "B", "I"] ∧
        standard.answerWithin slowlyFound (fun _ => false) 2 "A" = .ok none) ∧
      (∃ t, standard.answerWithin slowlyFound (fun _ => false) 3 "A" = .ok (some t) ∧
        t.name = "A") ∧
      standard.fetchesWithin slowlyFound (· == "B") 9 "A" = ["A", "B"] ∧
        standard.answerWithin slowlyFound (· == "B") 9 "A" = .ok none := by
  have hasked : namesAsked ((standard.resolve "A").run slowlyFound).2 = ["A", "B", "I"] := by
    decide +kernel
  have hname : ((standard.resolve "A").run slowlyFound).1.toOption.join.map (fun t => t.name) =
      some "A" := by
    decide +kernel
  obtain ⟨hfetches, hlate, -⟩ :=
    all_or_nothing standard slowlyFound (fun _ => false) "A" (n := 2) (by decide)
  obtain ⟨-, hintime, -⟩ :=
    all_or_nothing standard slowlyFound (fun _ => false) "A" (n := 3) (by decide)
  obtain ⟨hstalled, hnever, -⟩ :=
    all_or_nothing standard slowlyFound (· == "B") "A" (n := 9) (by decide)
  rw [hasked] at hfetches hlate hintime hstalled hnever
  refine ⟨⟨hfetches, hlate.trans rfl⟩, ?_, hstalled, hnever.trans rfl⟩
  replace hintime := hintime.trans (if_pos (by decide))
  obtain ⟨t, hresult, ht⟩ := exists_type_of_seen hname
  exact ⟨t, hintime.trans hresult, ht⟩

end Resolver

end Hierarchy
