import Mathlib.Data.String.Basic
import DerivativeParsing.Cursor.Characters
import DerivativeParsing.Cursor.Items

namespace DerivativeParsing

/-!
# Readings do not fail

A cursor that says there is more gives the next token, as long as it stands on a boundary
between tokens.  Cursors over items always do, and cursors over characters do if they were
made by the operations of such cursors (`CharacterCursor.Derived.aligned`).  So pulling
tokens from them gives all that is left and ends without an error (`Supplied.failure`).
-/

namespace Pull

variable {σ τ : Type} {pull : Pull σ τ} {cursor after : σ}

theorem forward_of_ok {token : τ} (hPull : pull.run cursor = .ok token after) :
    pull.forward cursor = .ok (token, after) := by
  rw [forward, hPull]

theorem forward_of_error {error : CursorError} (hPull : pull.run cursor = .error error after) :
    pull.forward cursor = .error error := by
  rw [forward, hPull]

end Pull

namespace Cursor

variable {σ τ : Type} [Cursor σ τ]

/-- A cursor shows what is left: it says that there is more exactly if something is left,
and then gives the first token of it. -/
structure Shows (inside : σ → Prop) (left : σ → List τ) : Prop where
  stop : ∀ cursor, inside cursor → left cursor = [] → hasNext cursor = false
  pull : ∀ cursor token tokens, inside cursor → left cursor = token :: tokens →
    hasNext cursor = true ∧
      ∃ after, next cursor = .ok (token, after) ∧ inside after ∧ left after = tokens

theorem Shows.readWithin {inside : σ → Prop} {left : σ → List τ} (hShows : Shows inside left)
    (fuel : Nat) {cursor : σ} (hInside : inside cursor) :
    (Cursor.readWithin fuel cursor).1 = ⟨(left cursor).take fuel, none⟩ := by
  induction fuel generalizing cursor with
  | zero => rfl
  | succ fuel ih =>
      rw [Cursor.readWithin]
      cases hLeft : left cursor with
      | nil => rw [hShows.stop cursor hInside hLeft, if_neg Bool.false_ne_true, List.take_nil]
      | cons token tokens =>
          obtain ⟨hMore, after, hNext, hAfter, rfl⟩ :=
            hShows.pull cursor token tokens hInside hLeft
          rw [if_pos hMore, hNext]
          show Reading.mk (token :: (Cursor.readWithin fuel after).1.tokens)
            (Cursor.readWithin fuel after).1.failure = _
          rw [ih hAfter, List.take_succ_cons]

/-- Pulling tokens gives all that is left, and no error. -/
theorem Shows.read {inside : σ → Prop} {left : σ → List τ} (hShows : Shows inside left)
    {cursor : σ} (hInside : inside cursor) (hBound : (left cursor).length ≤ bound cursor) :
    (Cursor.read cursor).1 = ⟨left cursor, none⟩ := by
  rw [Cursor.read, hShows.readWithin _ hInside,
    List.take_of_length_le (Nat.le_succ_of_le hBound)]

end Cursor

namespace ItemCursor

variable {τ : Type} {cursor : ItemCursor τ}

theorem run_pull_of_some {item : τ} (hItem : cursor.items[cursor.position]? = some item) :
    pull.run cursor = .ok item { cursor with position := cursor.position + 1 } := by
  simp only [pull, EStateM.run_bind, EStateM.run_get]
  rw [hItem]
  rfl

/-- A pull that fails leaves the cursor where it is. -/
theorem run_pull_of_none (hItem : cursor.items[cursor.position]? = none) :
    pull.run cursor = .error (.endOfStream cursor.position) cursor := by
  simp only [pull, EStateM.run_bind, EStateM.run_get]
  rw [hItem]
  rfl

theorem shows_rest : Cursor.Shows (fun _ => True) (rest : ItemCursor τ → List τ) where
  stop cursor _ hRest := by
    have hLength := List.drop_eq_nil_iff.mp hRest
    exact decide_eq_false (Nat.not_lt.mpr hLength)
  pull cursor item items _ hRest := by
    have hItem : cursor.items[cursor.position]? = some item := by
      rw [← Nat.add_zero cursor.position, ← List.getElem?_drop, ← rest, hRest]
      rfl
    obtain ⟨hLt, -⟩ := List.getElem?_eq_some_iff.mp hItem
    refine ⟨decide_eq_true hLt, { cursor with position := cursor.position + 1 },
      Pull.forward_of_ok (run_pull_of_some hItem), trivial, ?_⟩
    · rw [rest, ← List.tail_drop, ← rest, hRest, List.tail_cons]

end ItemCursor

namespace CharacterCursor

theorem run_pull_of_cons {cursor : CharacterCursor} {character : Char} {left : List Char}
    (hLeft : cursor.upcoming = character :: left) :
    pull.run cursor = .ok character
      { cursor with
        offset := cursor.offset + character.utf8Size
        position := cursor.position + 1 } := by
  simp only [pull, EStateM.run_bind, EStateM.run_get]
  rw [hLeft]
  rfl

/-- A pull that fails leaves the cursor where it is. -/
theorem run_pull_of_nil {cursor : CharacterCursor} (hLeft : cursor.upcoming = []) :
    pull.run cursor = .error (.endOfStream cursor.position) cursor := by
  simp only [pull, EStateM.run_bind, EStateM.run_get]
  rw [hLeft]
  rfl

/-- The cursors that are made by starting over a text, by pulling characters, and by
starting over what is left. -/
inductive Derived : CharacterCursor → Prop
  | start (source : String) : Derived { source := source }
  | next {cursor after : CharacterCursor} {character : Char} :
      Derived cursor → cursor.next = .ok (character, after) → Derived after
  | remaining {cursor : CharacterCursor} : Derived cursor → Derived cursor.remaining

/-- The offset lies behind whole characters. -/
def Aligned (cursor : CharacterCursor) : Prop :=
  ∃ passed left, cursor.source.toList = passed ++ left ∧
    cursor.offset = String.utf8Len passed

theorem dropBytes_utf8Len (passed left : List Char) :
    dropBytes (String.utf8Len passed) (passed ++ left) = some left := by
  induction passed with
  | nil => rw [String.utf8Len_nil, List.nil_append, dropBytes]
  | cons character passed ih =>
      -- Every character has a byte, which is why dropping bytes goes on to the next one.
      have hPos := character.utf8Size_pos
      obtain ⟨bytes, hBytes⟩ : ∃ bytes, String.utf8Len (character :: passed) = bytes + 1 :=
        ⟨String.utf8Len passed + character.utf8Size - 1, by rw [String.utf8Len_cons]; omega⟩
      have hSize : bytes + 1 = String.utf8Len passed + character.utf8Size :=
        hBytes.symm.trans (String.utf8Len_cons character passed)
      rw [hBytes, List.cons_append, dropBytes, if_pos (by omega), hSize, Nat.add_sub_cancel, ih]

theorem upcoming_eq {cursor : CharacterCursor} {passed left : List Char}
    (hSource : cursor.source.toList = passed ++ left)
    (hOffset : cursor.offset = String.utf8Len passed) : cursor.upcoming = left := by
  rw [upcoming, hSource, hOffset, dropBytes_utf8Len, Option.getD_some]

theorem shows_upcoming : Cursor.Shows Aligned upcoming where
  stop cursor hAligned hLeft := by
    obtain ⟨passed, left, hSource, hOffset⟩ := hAligned
    rw [upcoming_eq hSource hOffset] at hLeft
    refine decide_eq_false (Nat.not_lt.mpr ?_)
    rw [hOffset, ← String.utf8Len_toList, hSource, hLeft, List.append_nil]
  pull cursor character characters hAligned hLeft := by
    obtain ⟨passed, left, hSource, hOffset⟩ := hAligned
    have hUpcoming := upcoming_eq hSource hOffset
    obtain rfl := hUpcoming.symm.trans hLeft
    have hPos := character.utf8Size_pos
    have hSource' : cursor.source.toList = (passed ++ [character]) ++ characters := by
      rw [hSource, List.append_assoc, List.singleton_append]
    have hOffset' : cursor.offset + character.utf8Size =
        String.utf8Len (passed ++ [character]) := by
      rw [hOffset, String.utf8Len_append, String.utf8Len_cons, String.utf8Len_nil, Nat.zero_add]
    refine ⟨decide_eq_true ?_,
      { cursor with
        offset := cursor.offset + character.utf8Size
        position := cursor.position + 1 },
      Pull.forward_of_ok (run_pull_of_cons hLeft), ⟨_, _, hSource', hOffset'⟩,
      upcoming_eq hSource' hOffset'⟩
    rw [← String.utf8Len_toList, hSource', String.utf8Len_append, ← hOffset']
    omega

/-- Every cursor that is made by the operations of cursors is aligned. -/
theorem Derived.aligned {cursor : CharacterCursor} (hDerived : Derived cursor) :
    cursor.Aligned := by
  induction hDerived with
  | start source => exact ⟨[], source.toList, rfl, rfl⟩
  | @next cursor after character _ hNext ih =>
      cases hLeft : cursor.upcoming with
      | nil =>
          have hFailed := Pull.forward_of_error (run_pull_of_nil hLeft)
          cases hFailed.symm.trans hNext
      | cons first characters =>
          obtain ⟨-, other, hOther, hAligned, -⟩ := shows_upcoming.pull _ _ _ ih hLeft
          obtain ⟨-, rfl⟩ := Prod.mk.inj (Except.ok.inj (hNext.symm.trans hOther))
          exact hAligned
  -- A cursor over what is left starts afresh, over a text of its own.
  | @remaining cursor _ _ => exact ⟨[], _, rfl, rfl⟩

end CharacterCursor

/-- The readings that tokens are supplied by. -/
inductive Supplied : (τ : Type) → Reading τ → Prop
  | items {τ : Type} (cursor : ItemCursor τ) : Supplied τ (Cursor.read cursor).1
  | characters {cursor : CharacterCursor} : cursor.Derived →
      Supplied Char (Cursor.read cursor).1

/-- A reading ends without an error. -/
theorem Supplied.failure {τ : Type} {reading : Reading τ} (hSupplied : Supplied τ reading) :
    reading.failure = none := by
  cases hSupplied with
  | items cursor => rw [ItemCursor.shows_rest.read trivial le_rfl]
  | characters hDerived => rw [CharacterCursor.shows_upcoming.read hDerived.aligned le_rfl]

end DerivativeParsing
