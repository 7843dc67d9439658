import DerivativeParsing.Fixpoint.Solver
import DerivativeParsing.Proofs.Counting

namespace DerivativeParsing
namespace Fixpoint

/-!
# What one pass of the solver does

A pass evaluates keys depth first.  While it runs, a key is in one of three states:

* it is not visited yet, and its approximation is the one the pass started with;
* it stands on the stack of unfinished evaluations, and its approximation is still
  the one the pass started with;
* it is settled: its equation was evaluated once, under an assignment that mixes
  approximations from the start of the pass with those of settled keys.

`Midway` is this account as an invariant: asking for a value keeps it
(`Midway.valueWithin`), and when the pass is over nothing is left on the stack
(`Midway.pass`).  It carries along any property of values that the equations hand on,
so what the equations preserve holds of every approximation.

With more levels than there are keys a pass also ends (`exists_pass_eq_ok`).  With fewer
it may give up, but not for another reason than that (`pass_error`).
-/

/-- A sequence of two steps succeeds exactly if both of them do. -/
theorem run_bind_eq_ok_iff {ε σ α β : Type} {first : EStateM ε σ α}
    {next : α → EStateM ε σ β} {before after : σ} {result : β} :
    (first >>= next).run before = .ok result after ↔
      ∃ value middle, first.run before = .ok value middle ∧
        (next value).run middle = .ok result after := by
  rw [EStateM.run_bind]
  cases first.run before with
  | ok value middle => simp [and_assoc]
  | error fault middle => simp

namespace Inquiry

variable {κ ν α β : Type}

/-- The inquiry asks for a key when every key has its value in the assignment. -/
def Asks (assignment : κ → ν) (key : κ) : Inquiry κ ν α → Prop
  | answer _ => False
  | fail _ => False
  | remark _ rest => rest.Asks assignment key
  | ask other next => key = other ∨ (next (assignment other)).Asks assignment key

/-- The inquiry asks for keys inside a set only, whatever values it gets. -/
def Stays (inside : κ → Prop) : Inquiry κ ν α → Prop
  | answer _ => True
  | fail _ => True
  | remark _ rest => rest.Stays inside
  | ask key next => inside key ∧ ∀ value, (next value).Stays inside

/-- The inquiry never fails and asks for keys inside a set only, whatever values it
gets. -/
def Safe (inside : κ → Prop) : Inquiry κ ν α → Prop
  | answer _ => True
  | fail _ => False
  | remark _ rest => rest.Safe inside
  | ask key next => inside key ∧ ∀ value, (next value).Safe inside

@[simp]
theorem asks_pure (assignment : κ → ν) (key : κ) (result : α) :
    ¬ (pure result : Inquiry κ ν α).Asks assignment key := id

@[simp]
theorem asks_value (assignment : κ → ν) (key other : κ) :
    (value other : Inquiry κ ν ν).Asks assignment key ↔ key = other := by
  simp [value, Asks]

@[simp]
theorem asks_bind (assignment : κ → ν) (key : κ) (inquiry : Inquiry κ ν α)
    (next : α → Inquiry κ ν β) :
    (inquiry >>= next).Asks assignment key ↔
      inquiry.Asks assignment key ∨
        ∃ result, inquiry.eval assignment = .ok result ∧
          (next result).Asks assignment key := by
  change (inquiry.bind next).Asks assignment key ↔ _
  induction inquiry with
  | answer result => simp [bind, Asks, eval]
  | fail fault => simp [bind, Asks, eval]
  | remark notes rest ih => simpa [bind, Asks, eval] using ih
  | ask other reply ih =>
      simp only [bind, Asks, eval, or_assoc]
      rw [ih (assignment other)]

@[simp]
theorem safe_pure (inside : κ → Prop) (result : α) :
    (pure result : Inquiry κ ν α).Safe inside := trivial

@[simp]
theorem safe_value (inside : κ → Prop) (key : κ) :
    (value key : Inquiry κ ν ν).Safe inside ↔ inside key := by
  simp [value, Safe]

theorem safe_bind {inside : κ → Prop} {inquiry : Inquiry κ ν α}
    {next : α → Inquiry κ ν β} (hInquiry : inquiry.Safe inside)
    (hNext : ∀ result, (next result).Safe inside) :
    (inquiry >>= next).Safe inside := by
  change (inquiry.bind next).Safe inside
  induction inquiry with
  | answer result => exact hNext result
  | fail fault => exact hInquiry
  | remark notes rest ih => exact ih hInquiry
  | ask key reply ih =>
      exact ⟨hInquiry.1, fun value => ih value (hInquiry.2 value)⟩

theorem Safe.inside {inside : κ → Prop} {inquiry : Inquiry κ ν α}
    (hSafe : inquiry.Safe inside) {assignment : κ → ν} {key : κ}
    (hAsks : inquiry.Asks assignment key) : inside key := by
  induction inquiry with
  | answer result => exact hAsks.elim
  | fail fault => exact hAsks.elim
  | remark notes rest ih => exact ih hSafe hAsks
  | ask other next ih =>
      rcases hAsks with rfl | hAsks
      · exact hSafe.1
      · exact ih _ (hSafe.2 _) hAsks

theorem Safe.stays {inside : κ → Prop} {inquiry : Inquiry κ ν α}
    (hSafe : inquiry.Safe inside) : inquiry.Stays inside := by
  induction inquiry with
  | answer result => exact trivial
  | fail fault => exact hSafe.elim
  | remark notes rest ih => exact ih hSafe
  | ask key next ih => exact ⟨hSafe.1, fun value => ih value (hSafe.2 value)⟩

/-- A safe inquiry has an answer under every assignment. -/
theorem Safe.eval_ok {inside : κ → Prop} {inquiry : Inquiry κ ν α}
    (hSafe : inquiry.Safe inside) (assignment : κ → ν) :
    ∃ result, inquiry.eval assignment = .ok result := by
  induction inquiry with
  | answer result => exact ⟨result, rfl⟩
  | fail fault => exact hSafe.elim
  | remark notes rest ih => exact ih hSafe
  | ask key next ih => exact ih _ (hSafe.2 _)

end Inquiry

namespace System

variable {κ ν : Type} [Ord κ]

/-- The value that a solver answers with for a key it does not have to evaluate. -/
def answer (system : System κ ν) (progress : Progress κ ν) (key : κ) : ν :=
  (system.known key).getD (system.current progress key)

/-- A key was evaluated during the pass, under an assignment of which every value
comes from the start of the pass or from another settled key. -/
structure Settled (system : System κ ν) (start : κ → ν) (stack : κ → Prop)
    (progress : Progress κ ν) (key : κ) : Prop where
  recorded : progress.approximations[key]? = some (system.current progress key)
  evaluated : ∃ seen : κ → ν,
    (system.equation key).eval seen = .ok (system.current progress key) ∧
    (∀ other value, system.known other = some value → seen other = value) ∧
    (∀ other, system.known other = none →
      seen other = start other ∨
        (other ∈ progress.visited ∧ ¬ stack other ∧
          seen other = system.current progress other)) ∧
    (∀ other, (system.equation key).Asks seen other →
      system.known other ≠ none ∨ other ∈ progress.visited)

/-- The state of a solver in the middle of a pass.  `start` holds the approximations
at the beginning of the pass, `stack` the keys whose evaluation is unfinished;
`inside` bounds the keys that can occur, and `holds` is a property of values that
the equations hand on. -/
structure Midway (system : System κ ν) (inside : κ → Prop) (holds : κ → ν → Prop)
    (start : κ → ν) (stack : κ → Prop) (progress : Progress κ ν) : Prop where
  bounded : ∀ key ∈ progress.visited, inside key ∧ system.known key = none
  recorded : ∀ key ∈ progress.approximations, inside key
  fresh : ∀ key, key ∉ progress.visited → system.current progress key = start key
  pending : ∀ key, stack key →
    key ∈ progress.visited ∧ system.current progress key = start key
  settled : ∀ key ∈ progress.visited, ¬ stack key →
    system.Settled start stack progress key
  sound : ∀ key, holds key (system.answer progress key)
  changed : progress.changed = true ↔
    ∃ key, system.current progress key ≠ start key

/-- Between two states of a pass with the same stack the visited keys keep their
approximations. -/
structure Continues (system : System κ ν) (before after : Progress κ ν) : Prop where
  visited : ∀ key ∈ before.visited, key ∈ after.visited
  current : ∀ key ∈ before.visited,
    system.current after key = system.current before key

/-- The equations of a system keep to a set of keys and hand on a property of
values. -/
structure Respects (system : System κ ν) (inside : κ → Prop)
    (holds : κ → ν → Prop) : Prop where
  stays : ∀ key, inside key → system.known key = none →
    (system.equation key).Stays inside
  known : ∀ key value, system.known key = some value → holds key value
  equation : ∀ key seen value, inside key → system.known key = none →
    (∀ other, holds other (seen other)) →
    (system.equation key).eval seen = .ok value → holds key value

variable {system : System κ ν} {inside : κ → Prop} {holds : κ → ν → Prop}
  {start : κ → ν} {stack : κ → Prop} {before after progress : Progress κ ν} {key : κ}

theorem answer_of_known {value : ν} (hKnown : system.known key = some value) :
    system.answer progress key = value := by
  simp [answer, hKnown]

theorem answer_of_unknown (hKnown : system.known key = none) :
    system.answer progress key = system.current progress key := by
  simp [answer, hKnown]

theorem Continues.refl : system.Continues progress progress :=
  ⟨fun _ h => h, fun _ _ => rfl⟩

theorem Continues.trans {middle : Progress κ ν}
    (hFirst : system.Continues before middle)
    (hSecond : system.Continues middle after) : system.Continues before after where
  visited key hKey := hSecond.visited key (hFirst.visited key hKey)
  current key hKey :=
    (hSecond.current key (hFirst.visited key hKey)).trans (hFirst.current key hKey)

/-- The answer for a key that is known or visited does not change as a pass goes
on. -/
theorem Continues.answer_eq (hContinues : system.Continues before after)
    (hKey : system.known key ≠ none ∨ key ∈ before.visited) :
    system.answer after key = system.answer before key := by
  cases hKnown : system.known key with
  | some value => rw [answer_of_known hKnown, answer_of_known hKnown]
  | none =>
      rw [answer_of_unknown hKnown, answer_of_unknown hKnown]
      exact hContinues.current key (hKey.resolve_left (by simp [hKnown]))

/-- No part of the account of a pass mentions the notes. -/
theorem Midway.noted (hMidway : system.Midway inside holds start stack progress)
    (notes : List (Note κ)) :
    system.Midway inside holds start stack { progress with notes := notes } where
  bounded := hMidway.bounded
  recorded := hMidway.recorded
  fresh := hMidway.fresh
  pending := hMidway.pending
  settled key hKey hStack :=
    ⟨(hMidway.settled key hKey hStack).recorded, (hMidway.settled key hKey hStack).evaluated⟩
  sound := hMidway.sound
  changed := hMidway.changed

/-- Carrying out an inquiry in the middle of a pass gives the answer that it has under
the answers of the solver afterwards. -/
theorem Midway.run {reply : κ → Solving κ ν ν}
    (hReply : ∀ key value (before after : Progress κ ν), inside key →
      system.Midway inside holds start stack before →
      (reply key).run before = .ok value after →
      system.Midway inside holds start stack after ∧
        system.Continues before after ∧
        value = system.answer after key ∧
        (system.known key ≠ none ∨ key ∈ after.visited))
    {α : Type} (inquiry : Inquiry κ ν α) (hStays : inquiry.Stays inside) {result : α}
    (hMidway : system.Midway inside holds start stack before)
    (hRun : (inquiry.run reply).run before = .ok result after) :
    system.Midway inside holds start stack after ∧
      system.Continues before after ∧
      inquiry.eval (system.answer after) = .ok result ∧
      (∀ other, inquiry.Asks (system.answer after) other →
        system.known other ≠ none ∨ other ∈ after.visited) := by
  induction inquiry generalizing before with
  | answer value =>
      cases hRun
      exact ⟨hMidway, Continues.refl, rfl, fun _ h => h.elim⟩
  | fail fault => cases hRun
  | remark notes rest ih =>
      rw [Inquiry.run] at hRun
      obtain ⟨_, middle, hNote, hRest⟩ := run_bind_eq_ok_iff.mp hRun
      cases hNote
      have hNoted := hMidway.noted (notes ++ before.notes)
      obtain ⟨hAfter, hContinues, hEval, hAsks⟩ := ih hStays hNoted hRest
      exact ⟨hAfter, ⟨hContinues.visited, hContinues.current⟩, hEval, hAsks⟩
  | ask key next ih =>
      rw [Inquiry.run] at hRun
      obtain ⟨value, middle, hAnswer, hRest⟩ := run_bind_eq_ok_iff.mp hRun
      obtain ⟨hMiddle, hFirst, hValue, hKey⟩ :=
        hReply key value before middle hStays.1 hMidway hAnswer
      obtain ⟨hAfter, hSecond, hEval, hAsks⟩ :=
        ih value (hStays.2 value) hMiddle hRest
      -- The rest of the inquiry leaves the answer for the key as it was given.
      have hLater : system.answer after key = value := by
        rw [hSecond.answer_eq hKey, hValue]
      refine ⟨hAfter, hFirst.trans hSecond, ?_, ?_⟩
      · change (next (system.answer after key)).eval _ = _
        rw [hLater]
        exact hEval
      · intro other hOther
        rcases hOther with rfl | hOther
        · exact hKey.imp_right (hSecond.visited other)
        · rw [hLater] at hOther
          exact hAsks other hOther

section Evaluation

variable [DecidableEq ν]

theorem valueWithin_of_known {depth : Nat} {value : ν}
    (hKnown : system.known key = some value) :
    (system.valueWithin (depth + 1) key).run progress = .ok value progress := by
  rw [valueWithin, hKnown]
  rfl

theorem valueWithin_of_visited {depth : Nat} (hKnown : system.known key = none)
    (hVisited : key ∈ progress.visited) :
    (system.valueWithin (depth + 1) key).run progress =
      .ok (system.current progress key) progress := by
  rw [valueWithin, hKnown]
  simp only [EStateM.run_bind, EStateM.run_get]
  rw [if_pos (Std.TreeSet.contains_iff_mem.mpr hVisited)]
  rfl

/-- Evaluating a key that was not visited yet: its equation is evaluated with the
key marked as visited, and the result is noted. -/
theorem valueWithin_of_unvisited {depth : Nat} (hKnown : system.known key = none)
    (hNew : key ∉ progress.visited) :
    (system.valueWithin (depth + 1) key).run progress =
      match ((system.equation key).run (system.valueWithin depth)).run
          { progress with visited := progress.visited.insert key } with
      | .ok next reached =>
          .ok next
            { reached with
              changed := reached.changed ||
                !decide (next = system.current progress key)
              approximations := reached.approximations.insert key next }
      | .error fault reached => .error fault reached := by
  rw [valueWithin, hKnown]
  simp only [EStateM.run_bind, EStateM.run_get]
  rw [if_neg (fun h => hNew (Std.TreeSet.contains_iff_mem.mp h))]
  simp only [EStateM.run_bind, EStateM.run_modify, settle, EStateM.run_pure]
  cases ((system.equation key).run (system.valueWithin depth)).run
      { progress with visited := progress.visited.insert key } with
  | ok next reached => rfl
  | error fault reached => rfl

end Evaluation

section Errors

/-- A safe inquiry fails only if a reply does. -/
theorem run_error {reply : κ → Solving κ ν ν} {α : Type}
    (hReply : ∀ key fault (before after : Progress κ ν), inside key →
      (reply key).run before = .error fault after → fault = .exhausted)
    (inquiry : Inquiry κ ν α) (hSafe : inquiry.Safe inside) {fault : Fault κ}
    (hRun : (inquiry.run reply).run before = .error fault after) : fault = .exhausted := by
  induction inquiry generalizing before with
  | answer value => cases hRun
  | fail fault => exact hSafe.elim
  | remark notes rest ih => exact ih hSafe hRun
  | ask key next ih =>
      rw [Inquiry.run, EStateM.run_bind] at hRun
      cases hValue : (reply key).run before with
      | ok value middle =>
          rw [hValue] at hRun
          exact ih value (hSafe.2 value) hRun
      | error other middle =>
          rw [hValue] at hRun
          cases hRun
          exact hReply key fault before _ hSafe.1 hValue

variable [DecidableEq ν]

theorem valueWithin_error
    (hSafe : ∀ key, inside key → system.known key = none →
      (system.equation key).Safe inside)
    (depth : Nat) {fault : Fault κ} (hInside : inside key)
    (hValue : (system.valueWithin depth key).run before = .error fault after) :
    fault = .exhausted := by
  induction depth generalizing key before after fault with
  | zero =>
      cases hValue
      rfl
  | succ depth ih =>
      cases hKnown : system.known key with
      | some value =>
          rw [valueWithin_of_known hKnown] at hValue
          cases hValue
      | none =>
          by_cases hVisited : key ∈ before.visited
          · rw [valueWithin_of_visited hKnown hVisited] at hValue
            cases hValue
          · rw [valueWithin_of_unvisited hKnown hVisited] at hValue
            cases hRun : ((system.equation key).run (system.valueWithin depth)).run
                { before with visited := before.visited.insert key } with
            | ok next reached =>
                rw [hRun] at hValue
                cases hValue
            | error other reached =>
                rw [hRun] at hValue
                cases hValue
                exact run_error (fun _ _ _ _ hKey hError => ih hKey hError) _
                  (hSafe key hInside hKnown) hRun

/-- A pass over safe equations gives up only if it runs out of depth. -/
theorem pass_error
    (hSafe : ∀ key, inside key → system.known key = none →
      (system.equation key).Safe inside)
    {depth number : Nat} {fault : Fault κ} (hInside : inside key)
    (hPass : (system.pass depth key number).run before = .error fault after) :
    fault = .exhausted := by
  unfold System.pass at hPass
  simp only [EStateM.run_bind, EStateM.run_modify] at hPass
  cases hValue : (system.valueWithin depth key).run
      { before with changed := false, visited := ∅ } with
  | ok value reached =>
      rw [hValue] at hPass
      cases hPass
  | error other reached =>
      rw [hValue] at hPass
      cases hPass
      exact valueWithin_error hSafe depth hInside hValue

end Errors

variable [Std.TransOrd κ] [Std.LawfulEqOrd κ]

theorem mem_visited_insert {visited : Std.TreeSet κ} {other : κ} :
    other ∈ visited.insert key ↔ other = key ∨ other ∈ visited := by
  rw [Std.TreeSet.mem_insert, Std.LawfulEqOrd.compare_eq_iff_eq, eq_comm]

theorem current_insert (system : System κ ν) (key : κ) (progress : Progress κ ν)
    (changed : Bool) (value : ν) (other : κ) [Decidable (other = key)] :
    system.current
      { progress with
        changed := changed
        approximations := progress.approximations.insert key value } other =
      if other = key then value else system.current progress other := by
  unfold current
  rw [Std.TreeMap.getElem?_insert]
  by_cases hOther : other = key
  · simp [hOther]
  · have hCompare : compare key other ≠ .eq := fun h =>
      hOther (Std.LawfulEqOrd.eq_of_compare h).symm
    simp [hOther, hCompare]

/-- A key goes on the stack when its evaluation begins. -/
theorem Midway.enter (hMidway : system.Midway inside holds start stack progress)
    (hInside : inside key) (hKnown : system.known key = none)
    (hNew : key ∉ progress.visited) :
    system.Midway inside holds start (fun other => other = key ∨ stack other)
      { progress with visited := progress.visited.insert key } where
  bounded other hOther := by
    rcases mem_visited_insert.mp hOther with rfl | hOther
    · exact ⟨hInside, hKnown⟩
    · exact hMidway.bounded other hOther
  recorded := hMidway.recorded
  fresh other hOther :=
    hMidway.fresh other fun h => hOther (mem_visited_insert.mpr (Or.inr h))
  pending other hOther := by
    rcases hOther with rfl | hOther
    · exact ⟨mem_visited_insert.mpr (Or.inl rfl), hMidway.fresh other hNew⟩
    · obtain ⟨hVisited, hCurrent⟩ := hMidway.pending other hOther
      exact ⟨mem_visited_insert.mpr (Or.inr hVisited), hCurrent⟩
  settled other hOther hStack := by
    obtain ⟨hKey, hStack⟩ := not_or.mp hStack
    have hVisited := (mem_visited_insert.mp hOther).resolve_left hKey
    obtain ⟨hRecorded, seen, hEval, hSeenKnown, hSeen, hAsks⟩ :=
      hMidway.settled other hVisited hStack
    refine ⟨hRecorded, seen, hEval, hSeenKnown, ?_, ?_⟩
    · intro third hThird
      rcases hSeen third hThird with h | ⟨hVisited, hStack, hValue⟩
      · exact Or.inl h
      · refine Or.inr ⟨mem_visited_insert.mpr (Or.inr hVisited), ?_, hValue⟩
        rintro (rfl | h)
        · exact hNew hVisited
        · exact hStack h
    · intro third hThird
      exact (hAsks third hThird).imp_right fun h => mem_visited_insert.mpr (Or.inr h)
  sound := hMidway.sound
  changed := hMidway.changed

/-- A key whose equation has been evaluated under the answers of the solver is settled
with the value, as soon as that is recorded. -/
theorem Midway.settled_self {value : ν} (changed : Bool)
    (hMidway : system.Midway inside holds start
      (fun other => other = key ∨ stack other) progress)
    (hEval : (system.equation key).eval (system.answer progress) = .ok value)
    (hAsks : ∀ other, (system.equation key).Asks (system.answer progress) other →
      system.known other ≠ none ∨ other ∈ progress.visited) :
    system.Settled start stack
      { progress with
        changed := changed
        approximations := progress.approximations.insert key value } key := by
  classical
  have hCurrent := current_insert system key progress changed value
  refine ⟨?_, system.answer progress, ?_, ?_, ?_, hAsks⟩
  · rw [hCurrent, if_pos rfl]
    exact Std.TreeMap.getElem?_insert_self
  · rw [hCurrent, if_pos rfl]
    exact hEval
  · intro other known hOther
    exact answer_of_known hOther
  · -- A key that was not visited, or is on the stack, still has its first value.
    intro other hOther
    rw [answer_of_unknown hOther]
    by_cases hSeen : other ∈ progress.visited
    · by_cases hOpen : other = key ∨ stack other
      · exact Or.inl (hMidway.pending other hOpen).2
      · obtain ⟨hNe, hOff⟩ := not_or.mp hOpen
        refine Or.inr ⟨hSeen, hOff, ?_⟩
        rw [hCurrent, if_neg hNe]
    · exact Or.inl (hMidway.fresh other hSeen)

/-- A settled key stays settled when the value of a key on the stack is recorded. -/
theorem Settled.insert {other : κ} {value : ν} (changed : Bool)
    (hSettled : system.Settled start (fun other => other = key ∨ stack other) progress other)
    (hKey : other ≠ key) :
    system.Settled start stack
      { progress with
        changed := changed
        approximations := progress.approximations.insert key value } other := by
  classical
  have hCurrent := current_insert system key progress changed value
  obtain ⟨hRecorded, seen, hSeenEval, hSeenKnown, hSeen, hSeenAsks⟩ := hSettled
  refine ⟨?_, seen, ?_, hSeenKnown, ?_, hSeenAsks⟩
  · have hCompare : compare key other ≠ .eq := fun h =>
      hKey (Std.LawfulEqOrd.eq_of_compare h).symm
    rw [hCurrent, if_neg hKey, ← hRecorded, Std.TreeMap.getElem?_insert, if_neg hCompare]
  · rw [hCurrent, if_neg hKey]
    exact hSeenEval
  · intro third hThird
    rcases hSeen third hThird with h | ⟨hThirdVisited, hThirdStack, hValue⟩
    · exact Or.inl h
    · obtain ⟨hNe, hOff⟩ := not_or.mp hThirdStack
      refine Or.inr ⟨hThirdVisited, hOff, ?_⟩
      rw [hCurrent, if_neg hNe]
      exact hValue

variable [DecidableEq ν]

/-- A key leaves the stack when its equation has been evaluated under the answers
that the solver then has. -/
theorem Midway.leave {value : ν}
    (hMidway : system.Midway inside holds start
      (fun other => other = key ∨ stack other) progress)
    (hRespects : system.Respects inside holds) (hStack : ¬ stack key)
    (hEval : (system.equation key).eval (system.answer progress) = .ok value)
    (hAsks : ∀ other, (system.equation key).Asks (system.answer progress) other →
      system.known other ≠ none ∨ other ∈ progress.visited) :
    system.Midway inside holds start stack
      { progress with
        changed := progress.changed ||
          !decide (value = system.current progress key)
        approximations := progress.approximations.insert key value } := by
  classical
  obtain ⟨hVisited, hStart⟩ := hMidway.pending key (Or.inl rfl)
  obtain ⟨hInside, hKnown⟩ := hMidway.bounded key hVisited
  -- Only the approximation of `key` moves.
  have hCurrent := current_insert system key progress
    (progress.changed || !decide (value = system.current progress key)) value
  refine ⟨hMidway.bounded, ?_, ?_, ?_, ?_, ?_, ?_⟩
  · intro other hOther
    rcases Std.TreeMap.mem_insert.mp hOther with h | h
    · rw [← Std.LawfulEqOrd.eq_of_compare h]
      exact hInside
    · exact hMidway.recorded other h
  · intro other hOther
    have hNe : other ≠ key := fun h => hOther (h ▸ hVisited)
    rw [hCurrent, if_neg hNe]
    exact hMidway.fresh other hOther
  · intro other hOther
    have hNe : other ≠ key := fun h => hStack (h ▸ hOther)
    rw [hCurrent, if_neg hNe]
    exact hMidway.pending other (Or.inr hOther)
  · intro other hOther hUnstacked
    by_cases hKey : other = key
    · subst hKey
      exact hMidway.settled_self _ hEval hAsks
    · exact (hMidway.settled other hOther (not_or.mpr ⟨hKey, hUnstacked⟩)).insert _ hKey
  · intro other
    by_cases hKey : other = key
    · subst hKey
      rw [answer_of_unknown hKnown, hCurrent, if_pos rfl]
      exact hRespects.equation other _ value hInside hKnown hMidway.sound hEval
    · unfold answer
      rw [hCurrent, if_neg hKey]
      exact hMidway.sound other
  · constructor
    · intro hChanged
      rcases Bool.or_eq_true_iff.mp hChanged with h | h
      · obtain ⟨other, hOther⟩ := hMidway.changed.mp h
        have hNe : other ≠ key := fun h => hOther (h ▸ hStart)
        refine ⟨other, ?_⟩
        rw [hCurrent, if_neg hNe]
        exact hOther
      · refine ⟨key, ?_⟩
        rw [hCurrent, if_pos rfl, ← hStart]
        simpa using h
    · rintro ⟨other, hOther⟩
      rw [hCurrent] at hOther
      by_cases hKey : other = key
      · rw [if_pos hKey, hKey, ← hStart] at hOther
        simp [hOther]
      · rw [if_neg hKey] at hOther
        have hChanged := hMidway.changed.mpr ⟨other, hOther⟩
        simp [hChanged]

/-- Asking for a value in the middle of a pass keeps the account of the pass, and
the value is the answer that the solver has for the key afterwards. -/
theorem Midway.valueWithin (hRespects : system.Respects inside holds) (depth : Nat)
    {value : ν} (hInside : inside key)
    (hMidway : system.Midway inside holds start stack before)
    (hValue : (system.valueWithin depth key).run before = .ok value after) :
    system.Midway inside holds start stack after ∧
      system.Continues before after ∧
      value = system.answer after key ∧
      (system.known key ≠ none ∨ key ∈ after.visited) := by
  induction depth generalizing key value stack before after with
  | zero => cases hValue
  | succ depth ih =>
      cases hKnown : system.known key with
      | some known =>
          rw [valueWithin_of_known hKnown] at hValue
          cases hValue
          exact ⟨hMidway, Continues.refl, (answer_of_known hKnown).symm,
            Or.inl (by simp)⟩
      | none =>
          by_cases hVisited : key ∈ before.visited
          · rw [valueWithin_of_visited hKnown hVisited] at hValue
            cases hValue
            exact ⟨hMidway, Continues.refl, (answer_of_unknown hKnown).symm,
              Or.inr hVisited⟩
          · rw [valueWithin_of_unvisited hKnown hVisited] at hValue
            cases hRun : ((system.equation key).run (system.valueWithin depth)).run
                { before with visited := before.visited.insert key } with
            | error fault reached =>
                rw [hRun] at hValue
                cases hValue
            | ok next reached =>
                rw [hRun] at hValue
                cases hValue
                have hStack : ¬ stack key := fun h =>
                  hVisited (hMidway.pending key h).1
                -- The key is on the stack while its equation is evaluated, which
                -- the induction hypothesis covers for any stack.
                have hEnter := hMidway.enter hInside hKnown hVisited
                obtain ⟨hReached, hContinues, hEval, hAsks⟩ :=
                  Midway.run (fun key value before after hInside hMidway hValue =>
                      ih hInside hMidway hValue)
                    _ (hRespects.stays key hInside hKnown) hEnter hRun
                have hKey : key ∈ reached.visited :=
                  hContinues.visited key (mem_visited_insert.mpr (Or.inl rfl))
                have hPrevious :
                    system.current before key = system.current reached key := by
                  rw [(hReached.pending key (Or.inl rfl)).2,
                    hMidway.fresh key hVisited]
                rw [hPrevious]
                have hLeave := hReached.leave hRespects hStack hEval hAsks
                refine ⟨hLeave, ⟨?_, ?_⟩, ?_, Or.inr hKey⟩
                · intro other hOther
                  exact hContinues.visited other
                    (mem_visited_insert.mpr (Or.inr hOther))
                · classical
                  intro other hOther
                  have hNe : other ≠ key := fun h => hVisited (h ▸ hOther)
                  rw [current_insert, if_neg hNe]
                  exact hContinues.current other
                    (mem_visited_insert.mpr (Or.inr hOther))
                · classical
                  rw [answer_of_unknown hKnown, current_insert, if_pos rfl]

omit [Std.TransOrd κ] [Std.LawfulEqOrd κ] [DecidableEq ν] in
/-- When a pass begins, no key is visited. -/
theorem Midway.opening (hRecorded : ∀ key ∈ before.approximations, inside key)
    (hSound : ∀ key, holds key (system.answer before key)) :
    system.Midway inside holds (system.current before) (fun _ => False)
      { before with changed := false, visited := ∅ } := by
  refine ⟨?_, hRecorded, fun _ _ => rfl, fun _ h => h.elim, ?_, hSound, ?_⟩
  · intro key hKey
    exact absurd hKey Std.TreeSet.not_mem_emptyc
  · intro key hKey
    exact absurd hKey Std.TreeSet.not_mem_emptyc
  · constructor
    · intro h
      cases h
    · rintro ⟨key, hKey⟩
      exact absurd rfl hKey

/-- A pass that ends leaves every visited key settled and nothing on the stack. -/
theorem Midway.pass (hRespects : system.Respects inside holds) {depth number : Nat}
    {root : κ} {value : ν} (hInside : inside root)
    (hRecorded : ∀ key ∈ before.approximations, inside key)
    (hSound : ∀ key, holds key (system.answer before key))
    (hPass : (system.pass depth root number).run before = .ok value after) :
    system.Midway inside holds (system.current before) (fun _ => False) after ∧
      value = system.answer after root ∧
      (system.known root ≠ none ∨ root ∈ after.visited) := by
  unfold System.pass at hPass
  obtain ⟨_, cleared, hCleared, hRest⟩ := run_bind_eq_ok_iff.mp hPass
  obtain ⟨result, reached, hValue, hNoted⟩ := run_bind_eq_ok_iff.mp hRest
  cases hCleared
  cases hNoted
  obtain ⟨hReached, -, hAnswer, hRoot⟩ :=
    (Midway.opening hRecorded hSound).valueWithin hRespects depth hInside hValue
  exact ⟨hReached.noted _, hAnswer, hRoot⟩

section Ending

variable {keys : List κ}

omit [Std.TransOrd κ] [Std.LawfulEqOrd κ] in
/-- With more keys visited, fewer keys of a list are left. -/
theorem countP_unvisited_le (keys : List κ) {visited visited' : Std.TreeSet κ}
    (hMore : ∀ other, other ∈ visited → other ∈ visited') :
    keys.countP (fun other => !visited'.contains other) ≤
      keys.countP (fun other => !visited.contains other) := by
  apply List.countP_mono_left
  intro other _ hOther
  rw [Bool.not_eq_true', ← Bool.not_eq_true, Std.TreeSet.contains_iff_mem] at hOther ⊢
  exact fun h => hOther (hMore other h)

omit [Std.LawfulEqOrd κ] in
/-- Visiting another key of a list leaves fewer keys of the list unvisited. -/
theorem countP_unvisited_insert_lt {visited : Std.TreeSet κ} (hKey : key ∈ keys)
    (hNew : key ∉ visited) :
    keys.countP (fun other => !(visited.insert key).contains other) <
      keys.countP (fun other => !visited.contains other) := by
  have hContains : visited.contains key = false := by
    rw [← Bool.not_eq_true, Std.TreeSet.contains_iff_mem]
    exact hNew
  refine countP_lt_countP ?_ hKey ?_ ?_
  · intro other _ hOther
    simp only [Std.TreeSet.contains_insert, Bool.not_or, Bool.and_eq_true] at hOther
    exact hOther.2
  · rw [Std.TreeSet.contains_insert_self]
    rfl
  · rw [hContains]
    rfl

omit [Std.TransOrd κ] [Std.LawfulEqOrd κ] [DecidableEq ν] in
/-- A safe inquiry is carried out if replies are given whenever the keys of a set have
been visited. -/
theorem exists_run_eq_ok {reply : κ → Solving κ ν ν} {visited : κ → Prop}
    (hReply : ∀ key (before : Progress κ ν), inside key →
      (∀ other, visited other → other ∈ before.visited) →
      ∃ value after, (reply key).run before = .ok value after ∧
        ∀ other ∈ before.visited, other ∈ after.visited)
    {α : Type} (inquiry : Inquiry κ ν α) (hSafe : inquiry.Safe inside)
    (hVisited : ∀ other, visited other → other ∈ before.visited) :
    ∃ result after, (inquiry.run reply).run before = .ok result after ∧
      ∀ other ∈ before.visited, other ∈ after.visited := by
  induction inquiry generalizing before with
  | answer result => exact ⟨result, before, rfl, fun _ h => h⟩
  | fail fault => exact hSafe.elim
  | remark notes rest ih => exact ih hSafe hVisited
  | ask key next ih =>
      obtain ⟨value, middle, hValue, hFirst⟩ := hReply key before hSafe.1 hVisited
      obtain ⟨result, after, hResult, hSecond⟩ :=
        ih value (hSafe.2 value) fun other hOther => hFirst other (hVisited other hOther)
      refine ⟨result, after, ?_, fun other hOther => hSecond other (hFirst other hOther)⟩
      rw [Inquiry.run]
      exact run_bind_eq_ok_iff.mpr ⟨value, middle, hValue, hResult⟩

/-- With more levels than there are unvisited keys, evaluation does not run out of
depth. -/
theorem exists_valueWithin_eq_ok
    (hSafe : ∀ key, inside key → system.known key = none →
      (system.equation key).Safe inside)
    (hKeys : ∀ key, inside key → key ∈ keys) (depth : Nat)
    (hInside : inside key)
    (hDepth : keys.countP (fun other => !before.visited.contains other) < depth) :
    ∃ value after, (system.valueWithin depth key).run before = .ok value after ∧
      ∀ other ∈ before.visited, other ∈ after.visited := by
  induction depth generalizing key before with
  | zero => omega
  | succ depth ih =>
      cases hKnown : system.known key with
      | some value =>
          exact ⟨value, before, valueWithin_of_known hKnown, fun _ h => h⟩
      | none =>
          by_cases hVisited : key ∈ before.visited
          · exact ⟨_, before, valueWithin_of_visited hKnown hVisited, fun _ h => h⟩
          · -- The equation is evaluated with one unvisited key less, and so are
            -- all the keys that it asks for.
            have hFewer := countP_unvisited_insert_lt (hKeys key hInside) hVisited
            have hReply (asked : κ) (progress : Progress κ ν) (hAsked : inside asked)
                (hMore : ∀ other, other ∈ before.visited.insert key →
                  other ∈ progress.visited) :
                ∃ value after, (system.valueWithin depth asked).run progress = .ok value after ∧
                  ∀ other ∈ progress.visited, other ∈ after.visited := by
              have hLe := countP_unvisited_le keys hMore
              exact ih hAsked (by omega)
            have hEntered : ∀ other, other ∈ before.visited.insert key → other ∈
                ({ before with visited := before.visited.insert key } : Progress κ ν).visited :=
              fun _ h => h
            obtain ⟨value, after, hValue, hGrown⟩ :=
              exists_run_eq_ok hReply (system.equation key) (hSafe key hInside hKnown) hEntered
            refine ⟨_, _, by rw [valueWithin_of_unvisited hKnown hVisited, hValue], ?_⟩
            intro other hOther
            exact hGrown other (mem_visited_insert.mpr (Or.inr hOther))

/-- A pass over finitely many keys ends. -/
theorem exists_pass_eq_ok
    (hSafe : ∀ key, inside key → system.known key = none →
      (system.equation key).Safe inside)
    (hKeys : ∀ key, inside key → key ∈ keys) {depth number : Nat} {root : κ}
    (hInside : inside root) (hDepth : keys.length < depth) :
    ∃ value after, (system.pass depth root number).run before = .ok value after := by
  have hCount : keys.countP
      (fun other => !(∅ : Std.TreeSet κ).contains other) < depth :=
    Nat.lt_of_le_of_lt List.countP_le_length hDepth
  obtain ⟨value, reached, hValue, -⟩ : ∃ value after,
      (system.valueWithin depth root).run
          { before with changed := false, visited := ∅ } = .ok value after ∧ _ :=
    exists_valueWithin_eq_ok hSafe hKeys depth hInside hCount
  refine ⟨value,
    { reached with
      notes := .pass root number reached.changed reached.visited.size ::
        reached.notes }, ?_⟩
  unfold System.pass
  refine run_bind_eq_ok_iff.mpr ⟨(), _, rfl, ?_⟩
  exact run_bind_eq_ok_iff.mpr ⟨value, reached, hValue, rfl⟩

end Ending

end System

end Fixpoint

end DerivativeParsing
