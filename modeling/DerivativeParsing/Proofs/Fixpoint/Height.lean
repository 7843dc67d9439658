import Mathlib.Algebra.Order.BigOperators.Group.Finset
import Mathlib.Data.Finset.Card
import Mathlib.Order.KrullDimension
import DerivativeParsing.Proofs.Fixpoint.Least

namespace DerivativeParsing
namespace Fixpoint

/-!
# How many passes a query needs

If the equations are monotone, the approximations only climb: every one of them is at
most what its equation gives next (`Rising`).  That survives a pass although the pass
mixes values from its start with values of its own, since both are at most the values
at its end.

A value that can rise at most `height` times has a rank of at most `height`, and the
ranks of the approximations add up to a level.  Every pass that changes a value raises the
level, which bounds the passes of a query

* by the number of keys that it asks for, times the height, and one more;
* by the number of approximations, times the height, whenever a value has changed.

The second bound is why a limit that grows with the number of keys never stops a query for
truth values, in whatever order it visits the keys.
-/

section Rank

variable {ν : Type} [PartialOrder ν] {height : Nat} {first second : ν}

/-- How many times a value can have risen. -/
noncomputable def rank (value : ν) : Nat := (Order.height value).toNat

/-- The rank is the height in the order, which is finite if chains are bounded. -/
theorem coe_rank (hHeight : ∀ chain : LTSeries ν, chain.length ≤ height) (value : ν) :
    (rank value : ℕ∞) = Order.height value ∧ rank value ≤ height := by
  have hLe : Order.height value ≤ height :=
    Order.height_le fun chain _ => by exact_mod_cast hHeight chain
  have hRank : (rank value : ℕ∞) = Order.height value :=
    ENat.natCast_toNat (ne_top_of_le_ne_top (ENat.natCast_ne_top height) hLe)
  rw [← hRank] at hLe
  exact ⟨hRank, by exact_mod_cast hLe⟩

theorem rank_lt_rank (hHeight : ∀ chain : LTSeries ν, chain.length ≤ height)
    (hLt : first < second) : rank first < rank second := by
  have hFinite : Order.height first < ⊤ := by
    rw [← (coe_rank hHeight first).1]
    exact ENat.natCast_lt_top _
  have hStrict := Order.height_strictMono hLt hFinite
  rw [← (coe_rank hHeight first).1, ← (coe_rank hHeight second).1] at hStrict
  exact_mod_cast hStrict

theorem rank_le_rank (hHeight : ∀ chain : LTSeries ν, chain.length ≤ height)
    (hLe : first ≤ second) : rank first ≤ rank second := by
  rcases hLe.eq_or_lt with rfl | hLt
  · exact le_rfl
  · exact (rank_lt_rank hHeight hLt).le

theorem rank_of_least (hLeast : ∀ value, first ≤ value) : rank first = 0 := by
  unfold rank
  rw [Order.height_eq_zero.mpr (fun value _ => hLeast value)]
  rfl

end Rank

namespace System

variable {κ ν : Type} [Ord κ] [DecidableEq ν] {system : System κ ν} {depth number : Nat}
  {root key : κ} {before after : Progress κ ν}

/-- A query that is never stopped makes another pass, after this many passes and from this
state. -/
inductive Passing (system : System κ ν) (depth : Nat) (root : κ) :
    Nat → Progress κ ν → Prop
  | start : Passing system depth root 0 {}
  | next {number : Nat} {before after : Progress κ ν} {value : ν} :
      Passing system depth root number before →
      (system.pass depth root (number + 1)).run before = .ok value after →
      after.changed = true → Passing system depth root (number + 1) after

/-- A query that is never stopped asks for a key that is not known, in one of its passes,
whether or not that pass ends well. -/
def Asked (system : System κ ν) (depth : Nat) (root key : κ) : Prop :=
  ∃ number before after, system.Passing depth root number before ∧ key ∈ after.visited ∧
    ((∃ value, (system.pass depth root (number + 1)).run before = .ok value after) ∨
      ∃ fault, (system.pass depth root (number + 1)).run before = .error fault after)

section Rising

variable [PartialOrder ν] {step : (κ → ν) →o (κ → ν)}

/-- Every approximation is at most what its equation gives next. -/
def Rising (system : System κ ν) (step : (κ → ν) →o (κ → ν)) (progress : Progress κ ν) :
    Prop :=
  ∀ key, system.known key = none →
    system.current progress key ≤ step (system.answer progress) key

omit [DecidableEq ν] in
/-- While the approximations rise, a pass hands on that no answer falls. -/
theorem Rising.respects (hComputes : system.Computes step)
    (hRising : system.Rising step before) :
    system.Respects (fun _ => True) fun key value => system.answer before key ≤ value where
  stays key _ _ := (system.equation key).stays_everywhere
  known key value hKnown := (answer_of_known hKnown).le
  equation key seen value _ hKnown hSeen hEval := by
    have hValue : step seen key = value :=
      Except.ok.inj ((hComputes key seen).symm.trans hEval)
    calc system.answer before key = system.current before key := answer_of_unknown hKnown
      _ ≤ step (system.answer before) key := hRising key hKnown
      _ ≤ step seen key := step.mono hSeen key
      _ = value := hValue

omit [DecidableEq ν] in
/-- The approximations still rise after a pass. -/
theorem Rising.pass (hComputes : system.Computes step) (hRising : system.Rising step before)
    (hMidway : system.Midway (fun _ => True)
      (fun key value => system.answer before key ≤ value) (system.current before)
      (fun _ => False) after) : system.Rising step after := by
  intro key hKnown
  by_cases hVisited : key ∈ after.visited
  · obtain ⟨-, seen, hEval, hSeenKnown, hSeen, -⟩ := hMidway.settled key hVisited id
    -- What the equation has seen is from before the pass or from after it.
    have hLe : seen ≤ system.answer after := by
      intro other
      cases hOther : system.known other with
      | some value => rw [hSeenKnown other value hOther, answer_of_known hOther]
      | none =>
          rcases hSeen other hOther with hOld | ⟨-, -, hNew⟩
          · rw [hOld, ← answer_of_unknown hOther]
            exact hMidway.sound other
          · rw [hNew, answer_of_unknown hOther]
    rw [hComputes key seen] at hEval
    rw [← Except.ok.inj hEval]
    exact step.mono hLe key
  · calc system.current after key = system.current before key := hMidway.fresh key hVisited
      _ ≤ step (system.answer before) key := hRising key hKnown
      _ ≤ step (system.answer after) key := step.mono hMidway.sound key

omit [DecidableEq ν] in
/-- A pass lowers no approximation. -/
theorem Midway.current_le
    (hMidway : system.Midway (fun _ => True)
      (fun key value => system.answer before key ≤ value) (system.current before)
      (fun _ => False) after) (key : κ) :
    system.current before key ≤ system.current after key := by
  by_cases hVisited : key ∈ after.visited
  · have hKnown := (hMidway.bounded key hVisited).2
    have hSound := hMidway.sound key
    rwa [answer_of_unknown hKnown, answer_of_unknown hKnown] at hSound
  · exact (hMidway.fresh key hVisited).ge

/-- How far the approximations of some keys have risen altogether. -/
noncomputable def level (system : System κ ν) (keys : Finset κ)
    (progress : Progress κ ν) : Nat :=
  ∑ key ∈ keys, rank (system.current progress key)

variable {height : Nat} {keys : Finset κ}
  (hHeight : ∀ chain : LTSeries ν, chain.length ≤ height)

include hHeight

omit [DecidableEq ν] in
theorem level_le_card_mul (progress : Progress κ ν) :
    system.level keys progress ≤ keys.card * height :=
  Finset.sum_le_card_nsmul keys _ height fun key _ =>
    (coe_rank hHeight (system.current progress key)).2

variable [Std.TransOrd κ] [Std.LawfulEqOrd κ]

omit [DecidableEq ν] in
/-- Keys without an approximation have not risen. -/
theorem level_le_size_mul (hBottom : ∀ value, system.bottom ≤ value)
    (progress : Progress κ ν) :
    system.level keys progress ≤ progress.approximations.size * height := by
  classical
  let risen := keys.filter fun key => key ∈ progress.approximations
  have hRest : ∀ key ∈ keys, key ∉ risen → rank (system.current progress key) = 0 := by
    intro key hKey hOut
    have hAbsent : key ∉ progress.approximations := fun h =>
      hOut (Finset.mem_filter.mpr ⟨hKey, h⟩)
    unfold current
    rw [Std.TreeMap.getElem?_eq_none hAbsent]
    exact rank_of_least hBottom
  have hRisen : (risen : Set κ) ⊆ {key | key ∈ progress.approximations.keys} := by
    intro key hKey
    exact Std.TreeMap.mem_keys.mpr (Finset.mem_filter.mp hKey).2
  have hCard := ncard_le_size hRisen
  rw [Set.ncard_coe_finset] at hCard
  calc system.level keys progress
      = ∑ key ∈ risen, rank (system.current progress key) :=
        (Finset.sum_subset (Finset.filter_subset _ keys) hRest).symm
    _ ≤ risen.card * height := Finset.sum_le_card_nsmul risen _ height fun key _ =>
        (coe_rank hHeight (system.current progress key)).2
    _ ≤ progress.approximations.size * height := Nat.mul_le_mul_right height hCard

omit [DecidableEq ν] [Std.TransOrd κ] [Std.LawfulEqOrd κ] in
/-- A pass that changes a value raises the level. -/
theorem Midway.level_lt
    (hMidway : system.Midway (fun _ => True)
      (fun key value => system.answer before key ≤ value) (system.current before)
      (fun _ => False) after)
    (hVisited : ∀ key ∈ after.visited, key ∈ keys) (hChanged : after.changed = true) :
    system.level keys before < system.level keys after := by
  obtain ⟨key, hMoved⟩ := hMidway.changed.mp hChanged
  have hKey : key ∈ keys := by
    by_contra hOut
    exact hMoved (hMidway.fresh key fun h => hOut (hVisited key h))
  apply Finset.sum_lt_sum
  · intro other _
    exact rank_le_rank hHeight (hMidway.current_le other)
  · exact ⟨key, hKey,
      rank_lt_rank hHeight (lt_of_le_of_ne (hMidway.current_le key) (Ne.symm hMoved))⟩

end Rising

section Depth

variable [Std.TransOrd κ] [Std.LawfulEqOrd κ] {inside : κ → Prop} {holds : κ → ν → Prop}
  {start : κ → ν} {stack : κ → Prop} {fault : Fault κ}

omit [DecidableEq ν] in
/-- Different keys visited are different keys of any collection that has them all. -/
theorem size_visited_le {visited : Std.TreeSet κ} {keys : List κ}
    (hKeys : ∀ other ∈ visited, other ∈ keys) : visited.size ≤ keys.length := by
  have hNodup : visited.toList.Nodup := by
    refine Std.TreeSet.distinct_toList.imp ?_
    rintro first second hCompare rfl
    exact hCompare Std.ReflOrd.compare_self
  have hSubset : visited.toList ⊆ keys := fun key hKey =>
    hKeys key (Std.TreeSet.mem_toList.mp hKey)
  rw [← Std.TreeSet.length_toList]
  exact (List.subperm_of_subset hNodup hSubset).length_le

omit [DecidableEq ν] in
theorem Continues.size_visited_le (hContinues : system.Continues before after) :
    before.visited.size ≤ after.visited.size := by
  rw [← Std.TreeSet.length_toList (t := after.visited)]
  exact System.size_visited_le fun key hKey =>
    Std.TreeSet.mem_toList.mpr (hContinues.visited key hKey)

omit [DecidableEq ν] in
/-- An inquiry that has an answer fails in the middle of a pass only because a reply does,
after the pass has visited as many further keys as the failing reply accounts for. -/
theorem Midway.size_le_of_run_error {reply : κ → Solving κ ν ν} {further : Nat}
    (hReply : ∀ key value (before after : Progress κ ν), inside key →
      system.Midway inside holds start stack before →
      (reply key).run before = .ok value after →
      system.Midway inside holds start stack after ∧
        system.Continues before after ∧
        value = system.answer after key ∧
        (system.known key ≠ none ∨ key ∈ after.visited))
    (hError : ∀ key fault (before after : Progress κ ν), inside key →
      system.Midway inside holds start stack before →
      (reply key).run before = .error fault after →
      before.visited.size + further ≤ after.visited.size)
    {α : Type} (inquiry : Inquiry κ ν α) (hStays : inquiry.Stays inside)
    (hMidway : system.Midway inside holds start stack before)
    (hEval : ∀ seen : κ → ν,
      (∀ key, system.known key ≠ none ∨ key ∈ before.visited →
        seen key = system.answer before key) →
      ∃ result, inquiry.eval seen = .ok result)
    (hRun : (inquiry.run reply).run before = .error fault after) :
    before.visited.size + further ≤ after.visited.size := by
  induction inquiry generalizing before with
  | answer value => cases hRun
  | fail other =>
      obtain ⟨result, hResult⟩ := hEval (system.answer before) fun _ _ => rfl
      cases hResult
  | remark notes rest ih =>
      change (rest.run reply).run { before with notes := notes ++ before.notes } = _ at hRun
      have hRest := ih hStays (hMidway.noted (notes ++ before.notes)) hEval hRun
      exact hRest
  | ask key next ih =>
      rw [Inquiry.run, EStateM.run_bind] at hRun
      cases hValue : (reply key).run before with
      | error other reached =>
          rw [hValue] at hRun
          cases hRun
          exact hError key fault before after hStays.1 hMidway hValue
      | ok value middle =>
          rw [hValue] at hRun
          obtain ⟨hMiddle, hContinues, hAnswer, hKey⟩ :=
            hReply key value before middle hStays.1 hMidway hValue
          have hFirst := hContinues.size_visited_le
          have hSecond := ih value (hStays.2 value) hMiddle ?_ hRun
          · omega
          · -- Every assignment that knows the reply is one that the inquiry started from.
            intro seen hSeen
            have hSame := hEval seen fun other hOther => by
              rw [hSeen other (hOther.imp_right (hContinues.visited other)),
                hContinues.answer_eq hOther]
            rwa [Inquiry.eval, hSeen key hKey, ← hAnswer] at hSame

/-- An evaluation that fails has used up its levels, each of them on a further key. -/
theorem Midway.size_le_of_valueWithin_error (hRespects : system.Respects inside holds)
    (hEval : ∀ key seen, ∃ value, (system.equation key).eval seen = .ok value)
    (depth : Nat) (hInside : inside key)
    (hMidway : system.Midway inside holds start stack before)
    (hValue : (system.valueWithin depth key).run before = .error fault after) :
    before.visited.size + depth ≤ after.visited.size := by
  induction depth generalizing key stack before after fault with
  | zero =>
      cases hValue
      exact le_rfl
  | succ depth ih =>
      cases hKnown : system.known key with
      | some value =>
          rw [valueWithin_of_known hKnown] at hValue
          cases hValue
      | none =>
          by_cases hVisited : key ∈ before.visited
          · rw [valueWithin_of_visited hKnown hVisited] at hValue
            cases hValue
          · rw [valueWithin_of_unvisited hKnown hVisited] at hValue
            cases hRun : ((system.equation key).run (system.valueWithin depth)).run
                { before with visited := before.visited.insert key } with
            | ok next reached =>
                rw [hRun] at hValue
                cases hValue
            | error other reached =>
                rw [hRun] at hValue
                cases hValue
                have hRest := Midway.size_le_of_run_error
                  (fun _ _ _ _ hKey hMidway hReply =>
                    hMidway.valueWithin hRespects depth hKey hReply)
                  (fun _ _ _ _ hKey hMidway hReply => ih hKey hMidway hReply)
                  _ (hRespects.stays key hInside hKnown)
                  (hMidway.enter hInside hKnown hVisited) (fun seen _ => hEval key seen) hRun
                have hEntered : (before.visited.insert key).size = before.visited.size + 1 := by
                  rw [Std.TreeSet.size_insert,
                    if_neg fun h => hVisited (Std.TreeSet.contains_iff_mem.mp h)]
                change (before.visited.insert key).size + depth ≤ _ at hRest
                omega

/-- A pass that fails has visited as many keys as it has levels. -/
theorem le_size_of_pass_error (hRespects : system.Respects inside holds)
    (hEval : ∀ key seen, ∃ value, (system.equation key).eval seen = .ok value)
    (hInside : inside root) (hRecorded : ∀ key ∈ before.approximations, inside key)
    (hSound : ∀ key, holds key (system.answer before key))
    (hPass : (system.pass depth root number).run before = .error fault after) :
    depth ≤ after.visited.size := by
  unfold System.pass at hPass
  simp only [EStateM.run_bind, EStateM.run_modify] at hPass
  cases hValue : (system.valueWithin depth root).run
      { before with changed := false, visited := ∅ } with
  | ok value reached =>
      rw [hValue] at hPass
      cases hPass
  | error other reached =>
      rw [hValue] at hPass
      cases hPass
      have hSize := (Midway.opening hRecorded hSound).size_le_of_valueWithin_error hRespects
        hEval depth hInside hValue
      omega

end Depth

section Bound

variable [PartialOrder ν] [Std.TransOrd κ] [Std.LawfulEqOrd κ]
  {step : (κ → ν) →o (κ → ν)} {height : Nat} {keys : Finset κ}
  (hComputes : system.Computes step) (hBottom : ∀ value, system.bottom ≤ value)
  (hHeight : ∀ chain : LTSeries ν, chain.length ≤ height)
  (hAsked : ∀ key, system.Asked depth root key → key ∈ keys)

include hComputes hBottom

theorem Passing.rising (hPassing : system.Passing depth root number before) :
    system.Rising step before := by
  induction hPassing with
  | start =>
      intro key _
      rw [current_empty]
      exact hBottom _
  | next hPassing hPass _ ih =>
      obtain ⟨hMidway, -, -⟩ := Midway.pass (ih.respects hComputes) trivial
        (fun _ _ => trivial) (fun _ => le_rfl) hPass
      exact ih.pass hComputes hMidway

include hAsked

/-- With more levels than there are keys to ask for, a further pass ends. -/
theorem Passing.exists_pass_eq_ok (hDepth : keys.card < depth)
    (hPassing : system.Passing depth root number before) :
    ∃ value after, (system.pass depth root (number + 1)).run before = .ok value after ∧
      ∀ key ∈ after.visited, key ∈ keys := by
  cases hPass : (system.pass depth root (number + 1)).run before with
  | ok value after =>
      exact ⟨value, after, rfl, fun key hKey =>
        hAsked key ⟨number, before, after, hPassing, hKey, Or.inl ⟨value, hPass⟩⟩⟩
  | error fault after =>
      have hRising := hPassing.rising hComputes hBottom
      have hLe : depth ≤ after.visited.size :=
        le_size_of_pass_error (hRising.respects hComputes)
          (fun key seen => ⟨_, hComputes key seen⟩) trivial (fun _ _ => trivial)
          (fun _ => le_rfl) hPass
      have hSize : after.visited.size ≤ keys.toList.length :=
        size_visited_le fun key hKey => Finset.mem_toList.mpr
          (hAsked key ⟨number, before, after, hPassing, hKey, Or.inr ⟨fault, hPass⟩⟩)
      rw [Finset.length_toList] at hSize
      omega

include hHeight

/-- Every pass that was followed by another one has raised the level. -/
theorem Passing.le_level (hPassing : system.Passing depth root number before) :
    number ≤ system.level keys before := by
  induction hPassing with
  | start => exact Nat.zero_le _
  | @next number before after value hPassing hPass hChanged ih =>
      have hRising := hPassing.rising hComputes hBottom
      obtain ⟨hMidway, -, -⟩ := Midway.pass (hRising.respects hComputes) trivial
        (fun _ _ => trivial) (fun _ => le_rfl) hPass
      have hMore := hMidway.level_lt hHeight (fun key hKey =>
        hAsked key ⟨number, before, after, hPassing, hKey, Or.inl ⟨value, hPass⟩⟩) hChanged
      omega

/-- Under a limit that lets as many passes through as there are approximations to raise,
the remaining passes end without being stopped. -/
theorem Passing.exists_run {limit : PassLimit}
    (hLimit : ∀ passes size, passes ≤ size * height → limit.isReached passes size = false)
    (hDepth : keys.card < depth) (fuel : Nat)
    (hPassing : system.Passing depth root number before)
    (hFuel : keys.card * height < number + fuel) :
    ∃ solution after,
      (system.passesFrom depth limit root fuel (number + 1)).run before = .ok solution after ∧
        solution.converged = true ∧ solution.passes ≤ keys.card * height + 1 := by
  have hLevel := hPassing.le_level hComputes hBottom hHeight hAsked
  have hMost : system.level keys before ≤ keys.card * height :=
    level_le_card_mul hHeight before
  induction fuel generalizing number before with
  | zero => omega
  | succ fuel ih =>
      obtain ⟨value, after, hPass, -⟩ :=
        hPassing.exists_pass_eq_ok hComputes hBottom hAsked hDepth
      rw [passesFrom_succ_run hPass]
      cases hChanged : after.changed with
      | false => exact ⟨_, _, rfl, rfl, by simp; omega⟩
      | true =>
          have hNext := hPassing.next hPass hChanged
          have hRaised := hNext.le_level hComputes hBottom hHeight hAsked
          have hSize : system.level keys after ≤ after.approximations.size * height :=
            level_le_size_mul hHeight hBottom after
          rw [if_pos rfl, hLimit (number + 1) _ (by omega)]
          exact ih hNext (by omega) hRaised (level_le_card_mul hHeight after)

end Bound

/-- A query asks for keys of a finite collection only, and its budget is enough for as many
passes over them as their values can rise, and one more. -/
structure Affords (system : System κ ν) (budget : Budget) (root : κ) (keys : Finset κ)
    (height : Nat) : Prop where
  asked : ∀ key, system.Asked budget.depth root key → key ∈ keys
  depth : keys.card < budget.depth
  passes : keys.card * height < budget.passes

section Queries

variable [Std.TransOrd κ] [Std.LawfulEqOrd κ] {budget : Budget} {keys : Finset κ}

theorem Affords.exists_solve [PartialOrder ν] {step : (κ → ν) →o (κ → ν)} {height : Nat}
    {limit : PassLimit} (hComputes : system.Computes step)
    (hBottom : ∀ value, system.bottom ≤ value)
    (hHeight : ∀ chain : LTSeries ν, chain.length ≤ height)
    (hAffords : system.Affords budget root keys height)
    (hLimit : ∀ passes size, passes ≤ size * height → limit.isReached passes size = false) :
    ∃ solution notes, system.solve budget limit root = (.ok solution, notes) ∧
      solution.converged = true ∧ solution.passes ≤ keys.card * height + 1 := by
  have hFuel : keys.card * height < 0 + budget.passes := by
    have hPasses := hAffords.passes
    omega
  obtain ⟨solution, after, hRun, hOutcome⟩ :=
    Passing.start.exists_run hComputes hBottom hHeight hAffords.asked hLimit hAffords.depth
      budget.passes hFuel
  refine ⟨solution, after.notes, ?_, hOutcome⟩
  unfold solve
  rw [hRun]

/-- Equations that keep to finitely many keys, whatever they are answered, never ask for
others. -/
theorem Asked.mem {keys : Finset κ}
    (hSafe : ∀ key ∈ keys, system.known key = none →
      (system.equation key).Safe fun other => other ∈ keys)
    (hDepth : keys.card < depth) (hInside : root ∈ keys)
    (hAsked : system.Asked depth root key) : key ∈ keys ∧ system.known key = none := by
  have hRespects : system.Respects (fun other => other ∈ keys) fun _ _ => True :=
    ⟨fun key hKey hKnown => (hSafe key hKey hKnown).stays, fun _ _ _ => trivial,
      fun _ _ _ _ _ _ _ => trivial⟩
  have hRecorded {number : Nat} {progress : Progress κ ν}
      (hPassing : system.Passing depth root number progress) :
      ∀ key ∈ progress.approximations, key ∈ keys := by
    induction hPassing with
    | start => exact fun key hKey => absurd hKey Std.TreeMap.not_mem_emptyc
    | next _ hPass _ ih =>
        exact (Midway.pass hRespects hInside ih (fun _ => trivial) hPass).1.recorded
  obtain ⟨number, before, after, hPassing, hVisited, hRun⟩ := hAsked
  obtain ⟨value, reached, hPass⟩ : ∃ value reached,
      (system.pass depth root (number + 1)).run before = .ok value reached :=
    System.exists_pass_eq_ok hSafe (fun _ => Finset.mem_toList.mpr) hInside
      (by rwa [Finset.length_toList])
  rcases hRun with ⟨value, hRun⟩ | ⟨fault, hRun⟩
  · obtain ⟨hMidway, -, -⟩ :=
      Midway.pass hRespects hInside (hRecorded hPassing) (fun _ => trivial) hRun
    exact hMidway.bounded key hVisited
  · rw [hPass] at hRun
    cases hRun

end Queries

/-- A query of monotone equations without a limit is over after as many passes as there
are keys to ask for, times the number of times that a value can rise, and one more.  A
query for truth values needs one pass more than there are keys, and is not stopped by a
limit that grows with the number of keys. -/
theorem monotone_query_converges {κ : Type} [Ord κ] [Std.TransOrd κ] [Std.LawfulEqOrd κ] :
    (∀ {ν : Type} [PartialOrder ν] [DecidableEq ν] (system : System κ ν)
      (step : (κ → ν) →o (κ → ν)) (budget : Budget) (root : κ) (keys : Finset κ)
      (height : Nat), system.Computes step → (∀ value, system.bottom ≤ value) →
      (∀ chain : LTSeries ν, chain.length ≤ height) →
      system.Affords budget root keys height →
      ∃ solution notes, system.solve budget .unbounded root = (.ok solution, notes) ∧
        solution.converged = true ∧ solution.passes ≤ keys.card * height + 1) ∧
    (∀ (system : System κ Bool) (step : (κ → Bool) →o (κ → Bool)) (budget : Budget)
      (root : κ) (keys : Finset κ), system.Computes step → system.bottom = false →
      system.Affords budget root keys 1 →
      (∃ solution notes, system.solve budget .unbounded root = (.ok solution, notes) ∧
        solution.converged = true ∧ solution.passes ≤ keys.card + 1) ∧
      ∀ floor, ∃ solution notes,
        system.solve budget (.ofFloor floor) root = (.ok solution, notes) ∧
          solution.converged = true ∧ solution.passes ≤ keys.card + 1) := by
  constructor
  · intro ν _ _ system step budget root keys height hComputes hBottom hHeight hAffords
    exact hAffords.exists_solve hComputes hBottom hHeight fun _ _ _ => rfl
  · intro system step budget root keys hComputes hBottom hAffords
    have hLeast (value : Bool) : system.bottom ≤ value := by
      rw [hBottom]
      exact Bool.false_le value
    have hHeight (chain : LTSeries Bool) : chain.length ≤ 1 :=
      Nat.le_of_lt_succ chain.length_lt_card
    rw [← Nat.mul_one keys.card]
    refine ⟨hAffords.exists_solve hComputes hLeast hHeight fun _ _ _ => rfl, fun floor =>
      hAffords.exists_solve hComputes hLeast hHeight fun passes size hPasses => ?_⟩
    -- A limit that is two above the number of keys is above the level of their values.
    simp only [PassLimit.ofFloor, PassLimit.isReached, decide_eq_false_iff_not]
    omega

end System

namespace Echo

/-- One more, up to three. -/
def raise (value : Fin 4) : Fin 4 := if value = 3 then 3 else value + 1

theorem raise_mono : ∀ first second : Fin 4, first ≤ second → raise first ≤ raise second := by
  decide

/-- Two keys that ask for each other, one of which answers with one more than it was told. -/
def system : System Nat (Fin 4) where
  bottom := 0
  known _ := none
  equation
    | 0 => .value 1
    | 1 => do return raise (← .value 0)
    | _ => return 0

/-- The operator that the equations compute. -/
def step : (Nat → Fin 4) →o (Nat → Fin 4) where
  toFun seen
    | 0 => seen 1
    | 1 => raise (seen 0)
    | _ => 0
  monotone' _ _ hLater
    | 0 => hLater 1
    | 1 => raise_mono _ _ (hLater 0)
    | _ + 2 => le_rfl

theorem computes : system.Computes step
  | 0, _ => rfl
  | 1, _ => rfl
  | _ + 2, _ => rfl

theorem affords : system.Affords ⟨3, 7⟩ 0 {0, 1} 3 where
  asked key hAsked := by
    have hSafe : ∀ key ∈ ({0, 1} : Finset Nat), system.known key = none →
        (system.equation key).Safe fun other => other ∈ ({0, 1} : Finset Nat) := by
      simp [system, Inquiry.safe_bind]
    exact (hAsked.mem hSafe (by decide) (by decide)).1
  depth := by decide
  passes := by decide

end Echo

namespace Backwards

/-- Three keys in a row ask for their neighbours, the next one first.  Only the first has
something to tell, of which another key learns with each pass. -/
def system : System Nat Bool where
  bottom := false
  known key := if key = 3 then some true else none
  equation
    | 0 => do return (← .value 1) || (← .value 3)
    | 1 => do return (← .value 2) || (← .value 0)
    | 2 => .value 1
    | _ => return false

/-- The operator that the equations compute. -/
def step : (Nat → Bool) →o (Nat → Bool) where
  toFun seen
    | 0 => seen 1 || seen 3
    | 1 => seen 2 || seen 0
    | 2 => seen 1
    | _ => false
  monotone' _ _ hLater
    | 0 => sup_le_sup (hLater 1) (hLater 3)
    | 1 => sup_le_sup (hLater 2) (hLater 0)
    | 2 => hLater 1
    | _ + 3 => le_rfl

theorem computes : system.Computes step
  | 0, _ => rfl
  | 1, _ => rfl
  | 2, _ => rfl
  | _ + 3, _ => rfl

theorem affords : system.Affords ⟨5, 4⟩ 0 {0, 1, 2} 1 where
  asked key hAsked := by
    have hSafe : ∀ key ∈ ({0, 1, 2, 3} : Finset Nat), system.known key = none →
        (system.equation key).Safe fun other => other ∈ ({0, 1, 2, 3} : Finset Nat) := by
      simp [system, Inquiry.safe_bind]
    obtain ⟨hKey, hKnown⟩ := hAsked.mem hSafe (by decide) (by decide)
    have hOther : key ≠ 3 := by
      rintro rfl
      cases hKnown
    simp at hKey ⊢
    omega
  depth := by decide
  passes := by decide

/-- One pass less is not enough. -/
theorem passes_solve :
    (system.solve ⟨5, 4⟩ (.ofFloor 0) 0).1.toOption.map Solution.passes = some 4 := by
  decide +kernel

end Backwards

/-- Two keys of four values need no more than seven passes, three truth values no more than
four, and four of them are needed. -/
theorem System.monotone_query_converges_backwards :
    (Echo.system.Affords ⟨3, 7⟩ 0 {0, 1} 3 ∧ ∃ solution notes,
      Echo.system.solve ⟨3, 7⟩ .unbounded 0 = (.ok solution, notes) ∧
        solution.converged = true ∧ solution.passes ≤ 7) ∧
    Backwards.system.Affords ⟨5, 4⟩ 0 {0, 1, 2} 1 ∧ ∃ solution notes,
      Backwards.system.solve ⟨5, 4⟩ (.ofFloor 0) 0 = (.ok solution, notes) ∧
        solution.converged = true ∧ solution.passes = 4 := by
  refine ⟨⟨Echo.affords, monotone_query_converges.1 Echo.system Echo.step _ 0 _ 3
    Echo.computes Fin.zero_le (fun chain => Nat.le_of_lt_succ chain.length_lt_card)
    Echo.affords⟩, Backwards.affords, ?_⟩
  obtain ⟨solution, notes, hSolve, hConverged, -⟩ :=
    (monotone_query_converges.2 Backwards.system Backwards.step _ 0 _ Backwards.computes rfl
      Backwards.affords).2 0
  have hPasses := Backwards.passes_solve
  rw [hSolve] at hPasses
  exact ⟨solution, notes, hSolve, hConverged, Option.some.inj hPasses⟩

end Fixpoint

end DerivativeParsing
