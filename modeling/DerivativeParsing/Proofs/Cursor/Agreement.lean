import Mathlib.Data.List.Forall2
import DerivativeParsing.Proofs.Cursor

namespace DerivativeParsing
namespace Cursor

/-!
# Cursors of both kinds agree

A cursor over characters finds its place by a number of bytes, a cursor over items by a
number of items.  Neither shows in what they answer: asked the same questions, a cursor over
a text and one over the list of its characters, with all the cursors that are made from
them, give the same answers (`characters_agree_with_items`).

Both kinds are compared with tapes, which hold what was passed beside what is left.  A kind
of cursor that mimics another one, question by question (`Mimics.ask`), mimics it in every
interview (`Mimics.interview`).  Both kinds are steady: a pull that fails leaves a cursor
where it is, so a cursor moves only when a token is pulled from it (`Steady.undisturbed`).
-/

/-- Cursors that also tell where they stand and what is left, and give another cursor that
starts with what is left.  What a pull leaves of a cursor is known even if the pull fails. -/
class Browsable (σ : Type) (τ : outParam Type) extends Cursor σ τ where
  pull : Pull σ τ
  next_eq : next = pull.forward
  position : σ → Nat
  rest : σ → List τ
  remaining : σ → σ

/-- What a cursor can be asked. -/
inductive Question where
  | hasNext
  | next
  | position
  | rest
  | remaining
  | clone
deriving DecidableEq

/-- What comes back: a truth value, a token or the error instead of it, a number, the tokens
left, or nothing but a new cursor.  There may be no cursor to answer. -/
inductive Answer (τ : Type) where
  | truth (value : Bool)
  | token (token : τ)
  | refused (error : CursorError)
  | number (number : Nat)
  | tokens (tokens : List τ)
  | opened
  | missing
deriving DecidableEq

/-- The answer of a cursor, the cursor afterwards, and the new one if there is one. -/
structure Reply (σ τ : Type) where
  answer : Answer τ
  cursor : σ
  opened : Option σ

/-- A question to one of several cursors, which go by their numbers. -/
structure Request where
  cursor : Nat
  question : Question

section Interviews

variable {σ τ : Type} [Browsable σ τ]

/-- What a cursor replies to a question. -/
def reply (cursor : σ) : Question → Reply σ τ
  | .hasNext => ⟨.truth (hasNext cursor), cursor, none⟩
  | .next =>
      match Browsable.pull.run cursor with
      | .ok token after => ⟨.token token, after, none⟩
      | .error error after => ⟨.refused error, after, none⟩
  | .position => ⟨.number (Browsable.position cursor), cursor, none⟩
  | .rest => ⟨.tokens (Browsable.rest cursor), cursor, none⟩
  | .remaining => ⟨.opened, cursor, some (Browsable.remaining cursor)⟩
  | .clone => ⟨.opened, cursor, some cursor⟩

/-- Put a question to one of several cursors.  A new cursor comes after the others. -/
def ask (cursors : List σ) (request : Request) : Answer τ × List σ :=
  match cursors[request.cursor]? with
  | none => (.missing, cursors)
  | some cursor =>
      let reply : Reply σ τ := reply cursor request.question
      (reply.answer, cursors.set request.cursor reply.cursor ++ reply.opened.toList)

/-- Put questions one after another.  The cursors there are in the end come with the
answers. -/
def interview (cursors : List σ) : List Request → List (Answer τ) × List σ
  | [] => ([], cursors)
  | request :: requests =>
      let (answer, cursors) := ask cursors request
      let (answers, cursors) := interview cursors requests
      (answer :: answers, cursors)

/-- A pull that fails leaves a cursor where it is. -/
def Steady (σ : Type) {τ : Type} [Browsable σ τ] : Prop :=
  ∀ (cursor after : σ) error, Browsable.pull.run cursor = .error error after → after = cursor

/-- A steady cursor moves only when a token is pulled from it. -/
theorem Steady.reply_cursor (hSteady : Steady σ) (cursor : σ) (question : Question) :
    (reply cursor question).cursor = cursor ∨
      question = .next ∧ ∃ token, (reply cursor question).answer = .token token := by
  cases question with
  | next =>
      rw [reply]
      cases hPull : Browsable.pull.run cursor with
      | ok token after => exact Or.inr ⟨rfl, token, rfl⟩
      | error error after => exact Or.inl (hSteady cursor after error hPull)
  | _ => exact Or.inl rfl

/-- No question changes a cursor, except that a cursor moves when a token is pulled from
it. -/
def Undisturbed (cursors : List σ) : Prop :=
  ∀ request number cursor, cursors[number]? = some cursor →
    (ask cursors request).2[number]? = some cursor ∨
      number = request.cursor ∧ request.question = .next ∧
        ∃ token, (ask cursors request).1 = .token token

theorem Steady.undisturbed (hSteady : Steady σ) (cursors : List σ) : Undisturbed cursors := by
  intro request number cursor hCursor
  rw [ask]
  cases hAsked : cursors[request.cursor]? with
  | none => exact Or.inl hCursor
  | some asked =>
      obtain ⟨hBound, -⟩ := List.getElem?_eq_some_iff.mp hCursor
      dsimp only
      rw [List.getElem?_append_left (by rwa [List.length_set])]
      by_cases hOther : request.cursor = number
      · subst hOther
        obtain rfl := Option.some.inj (hAsked.symm.trans hCursor)
        rw [List.getElem?_set_self hBound]
        rcases hSteady.reply_cursor asked request.question with hSame | hPulled
        · exact Or.inl (congrArg some hSame)
        · exact Or.inr ⟨rfl, hPulled⟩
      · rw [List.getElem?_set_ne hOther]
        exact Or.inl hCursor

end Interviews

section Mimicry

variable {σ σ' τ : Type} [Browsable σ τ] [Browsable σ' τ]

/-- Cursors of one kind behave as cursors of another kind that they are like, and go on being
like them. -/
structure Mimics (like : σ → σ' → Prop) : Prop where
  hasNext : ∀ cursor model, like cursor model → Cursor.hasNext cursor = Cursor.hasNext model
  pull : ∀ cursor model, like cursor model →
    (∃ token after after', Browsable.pull.run cursor = .ok token after ∧
      Browsable.pull.run model = .ok token after' ∧ like after after') ∨
    ∃ error after after', Browsable.pull.run cursor = .error error after ∧
      Browsable.pull.run model = .error error after' ∧ like after after'
  position : ∀ cursor model, like cursor model →
    Browsable.position cursor = Browsable.position model
  rest : ∀ cursor model, like cursor model → Browsable.rest cursor = Browsable.rest model
  remaining : ∀ cursor model, like cursor model →
    like (Browsable.remaining cursor) (Browsable.remaining model)

variable {like : σ → σ' → Prop} {cursors : List σ} {models : List σ'} {cursor : σ}
  {model : σ'}

/-- Cursors that are alike reply alike. -/
theorem Mimics.reply (hMimics : Mimics like) (hLike : like cursor model)
    (question : Question) :
    (Cursor.reply cursor question).answer = (Cursor.reply model question).answer ∧
      like (Cursor.reply cursor question).cursor (Cursor.reply model question).cursor ∧
      List.Forall₂ like (Cursor.reply cursor question).opened.toList
        (Cursor.reply model question).opened.toList := by
  cases question with
  | hasNext => exact ⟨congrArg Answer.truth (hMimics.hasNext _ _ hLike), hLike, .nil⟩
  | next =>
      rw [Cursor.reply, Cursor.reply]
      rcases hMimics.pull _ _ hLike with
        ⟨token, after, after', hPull, hPull', hAfter⟩ |
        ⟨error, after, after', hPull, hPull', hAfter⟩
      · rw [hPull, hPull']
        exact ⟨rfl, hAfter, .nil⟩
      · rw [hPull, hPull']
        exact ⟨rfl, hAfter, .nil⟩
  | position => exact ⟨congrArg Answer.number (hMimics.position _ _ hLike), hLike, .nil⟩
  | rest => exact ⟨congrArg Answer.tokens (hMimics.rest _ _ hLike), hLike, .nil⟩
  | remaining => exact ⟨rfl, hLike, .cons (hMimics.remaining _ _ hLike) .nil⟩
  | clone => exact ⟨rfl, hLike, .cons hLike .nil⟩

theorem forall₂_set (hLike : List.Forall₂ like cursors models) (hNew : like cursor model)
    (number : Nat) :
    List.Forall₂ like (cursors.set number cursor) (models.set number model) := by
  induction hLike generalizing number with
  | nil => exact .nil
  | cons hHead hTail ih =>
      cases number with
      | zero => exact .cons hNew hTail
      | succ number => exact .cons hHead (ih number)

theorem forall₂_getElem? (hLike : List.Forall₂ like cursors models) (number : Nat) :
    cursors[number]? = none ∧ models[number]? = none ∨
      ∃ cursor model, cursors[number]? = some cursor ∧ models[number]? = some model ∧
        like cursor model := by
  induction hLike generalizing number with
  | nil => exact Or.inl ⟨rfl, rfl⟩
  | cons hHead _ ih =>
      cases number with
      | zero => exact Or.inr ⟨_, _, rfl, rfl, hHead⟩
      | succ number => exact ih number

/-- One question gets the same answer, and the cursors go on being alike. -/
theorem Mimics.ask (hMimics : Mimics like) (hLike : List.Forall₂ like cursors models)
    (request : Request) :
    (Cursor.ask cursors request).1 = (Cursor.ask models request).1 ∧
      List.Forall₂ like (Cursor.ask cursors request).2 (Cursor.ask models request).2 := by
  rw [Cursor.ask, Cursor.ask]
  rcases forall₂_getElem? hLike request.cursor with
    ⟨hNone, hNone'⟩ | ⟨cursor, model, hCursor, hModel, hSame⟩
  · rw [hNone, hNone']
    exact ⟨rfl, hLike⟩
  · rw [hCursor, hModel]
    obtain ⟨hAnswer, hAfter, hOpened⟩ := hMimics.reply hSame request.question
    exact ⟨hAnswer, List.rel_append (forall₂_set hLike hAfter request.cursor) hOpened⟩

/-- All questions get the same answers, and the cursors stay alike. -/
theorem Mimics.interview (hMimics : Mimics like) (hLike : List.Forall₂ like cursors models)
    (requests : List Request) :
    (Cursor.interview cursors requests).1 = (Cursor.interview models requests).1 ∧
      List.Forall₂ like (Cursor.interview cursors requests).2
        (Cursor.interview models requests).2 := by
  induction requests generalizing cursors models with
  | nil => exact ⟨rfl, hLike⟩
  | cons request requests ih =>
      obtain ⟨hAnswer, hAfter⟩ := hMimics.ask hLike request
      obtain ⟨hAnswers, hEnd⟩ := ih hAfter
      exact ⟨congrArg₂ List.cons hAnswer hAnswers, hEnd⟩

end Mimicry

end Cursor

/-- What a cursor has passed since it started, and what is left. -/
structure Tape (τ : Type) where
  passed : List τ
  left : List τ

namespace Tape

variable {τ : Type}

/-- Pull the next token. -/
def pull : Pull (Tape τ) τ
  | ⟨passed, token :: left⟩ => .ok token ⟨passed ++ [token], left⟩
  | ⟨passed, []⟩ => .error (.endOfStream passed.length) ⟨passed, []⟩

instance : Cursor (Tape τ) τ where
  hasNext tape := !tape.left.isEmpty
  next := pull.forward
  bound tape := tape.left.length

instance : Cursor.Browsable (Tape τ) τ where
  pull := pull
  next_eq := rfl
  position tape := tape.passed.length
  rest := left
  remaining tape := ⟨[], tape.left⟩

end Tape

instance {τ : Type} : Cursor.Browsable (ItemCursor τ) τ where
  pull := ItemCursor.pull
  next_eq := rfl
  position := ItemCursor.position
  rest := ItemCursor.rest
  remaining := ItemCursor.remaining

instance : Cursor.Browsable CharacterCursor Char where
  pull := CharacterCursor.pull
  next_eq := rfl
  position := CharacterCursor.position
  rest cursor := cursor.rest.toList
  remaining := CharacterCursor.remaining

namespace ItemCursor

variable {τ : Type}

/-- A cursor over items stands where a tape does. -/
structure Follows (cursor : ItemCursor τ) (tape : Tape τ) : Prop where
  items : cursor.items = tape.passed ++ tape.left
  position : cursor.position = tape.passed.length

theorem Follows.rest {cursor : ItemCursor τ} {tape : Tape τ} (hFollows : cursor.Follows tape) :
    cursor.rest = tape.left := by
  rw [ItemCursor.rest, hFollows.items, hFollows.position, List.drop_left]

theorem steady : Cursor.Steady (ItemCursor τ) := by
  intro cursor after error hPull
  change ItemCursor.pull.run cursor = .error error after at hPull
  cases hItem : cursor.items[cursor.position]? with
  | none =>
      rw [run_pull_of_none hItem] at hPull
      cases hPull
      rfl
  | some item =>
      rw [run_pull_of_some hItem] at hPull
      cases hPull

theorem mimics_tape : Cursor.Mimics (Follows : ItemCursor τ → Tape τ → Prop) where
  hasNext cursor tape hFollows := by
    obtain ⟨passed, left⟩ := tape
    show decide (cursor.position < cursor.items.length) = !left.isEmpty
    rw [hFollows.items, hFollows.position]
    cases left <;> simp
  pull cursor tape hFollows := by
    obtain ⟨passed, left⟩ := tape
    have hItem : cursor.items[cursor.position]? = left.head? := by
      rw [hFollows.items, hFollows.position, List.getElem?_append_right (Nat.le_refl _),
        Nat.sub_self, ← List.head?_eq_getElem?]
    cases left with
    | nil =>
        refine Or.inr ⟨.endOfStream passed.length, cursor, ⟨passed, []⟩, ?_, rfl, hFollows⟩
        rw [← hFollows.position]
        exact run_pull_of_none hItem
    | cons item left =>
        refine Or.inl ⟨item, { cursor with position := cursor.position + 1 },
          ⟨passed ++ [item], left⟩, run_pull_of_some hItem, rfl, ?_, ?_⟩
        · simp [hFollows.items]
        · simp [hFollows.position]
  position _ _ hFollows := hFollows.position
  rest _ _ hFollows := hFollows.rest
  remaining cursor tape hFollows := ⟨hFollows.rest, rfl⟩

end ItemCursor

namespace CharacterCursor

/-- A cursor over characters stands where a tape does, which it finds by the bytes of what
was passed. -/
structure Follows (cursor : CharacterCursor) (tape : Tape Char) : Prop where
  source : cursor.source.toList = tape.passed ++ tape.left
  offset : cursor.offset = String.utf8Len tape.passed
  position : cursor.position = tape.passed.length

variable {cursor : CharacterCursor} {tape : Tape Char}

theorem Follows.upcoming (hFollows : cursor.Follows tape) : cursor.upcoming = tape.left :=
  upcoming_eq hFollows.source hFollows.offset

theorem Follows.rest (hFollows : cursor.Follows tape) : cursor.rest.toList = tape.left := by
  rw [CharacterCursor.rest, hFollows.upcoming, String.toList_ofList]

theorem Follows.aligned (hFollows : cursor.Follows tape) : cursor.Aligned :=
  ⟨tape.passed, tape.left, hFollows.source, hFollows.offset⟩

theorem steady : Cursor.Steady CharacterCursor := by
  intro cursor after error hPull
  change CharacterCursor.pull.run cursor = .error error after at hPull
  cases hLeft : cursor.upcoming with
  | nil =>
      rw [run_pull_of_nil hLeft] at hPull
      cases hPull
      rfl
  | cons character left =>
      rw [run_pull_of_cons hLeft] at hPull
      cases hPull

theorem mimics_tape : Cursor.Mimics Follows where
  hasNext cursor tape hFollows := by
    obtain ⟨passed, left⟩ := tape
    cases left with
    | nil => exact shows_upcoming.stop _ hFollows.aligned hFollows.upcoming
    | cons character left =>
        exact (shows_upcoming.pull _ _ _ hFollows.aligned hFollows.upcoming).1
  pull cursor tape hFollows := by
    obtain ⟨passed, left⟩ := tape
    have hUpcoming := hFollows.upcoming
    cases left with
    | nil =>
        refine Or.inr ⟨.endOfStream passed.length, cursor, ⟨passed, []⟩, ?_, rfl, hFollows⟩
        rw [← hFollows.position]
        exact run_pull_of_nil hUpcoming
    | cons character left =>
        refine Or.inl ⟨character,
          { cursor with
            offset := cursor.offset + character.utf8Size
            position := cursor.position + 1 },
          ⟨passed ++ [character], left⟩, run_pull_of_cons hUpcoming, rfl, ?_, ?_, ?_⟩
        · simp [hFollows.source]
        · simp [hFollows.offset]
        · simp [hFollows.position]
  position _ _ hFollows := hFollows.position
  rest _ _ hFollows := hFollows.rest
  remaining _ _ hFollows := ⟨hFollows.rest, rfl, rfl⟩

/-- The text before a cursor is what it has passed, and what is left comes after it. -/
theorem Follows.source_eq (hFollows : cursor.Follows tape) :
    cursor.source = String.ofList tape.passed ++ cursor.rest := by
  rw [CharacterCursor.rest, hFollows.upcoming, ← String.ofList_append, ← hFollows.source,
    String.ofList_toList]

theorem Follows.offset_eq (hFollows : cursor.Follows tape) :
    cursor.offset = (String.ofList tape.passed).utf8ByteSize := by
  rw [hFollows.offset, String.utf8ByteSize_ofList]

/-- A cursor stands between two characters, so that the text can be cut there. -/
theorem Follows.isValid (hFollows : cursor.Follows tape) :
    (⟨cursor.offset⟩ : String.Pos.Raw).IsValid cursor.source := by
  rw [hFollows.source_eq, hFollows.offset_eq]
  exact String.Pos.Raw.isValid_rawEndPos.append_right _

theorem Follows.dropBytes (hFollows : cursor.Follows tape) :
    CharacterCursor.dropBytes cursor.offset cursor.source.toList =
      some cursor.rest.toList := by
  rw [hFollows.source, hFollows.offset, dropBytes_utf8Len, hFollows.rest]

end CharacterCursor

namespace Cursor

/-- Cursors over a text answer all questions as cursors over the list of its characters, and
as tapes.  The offset of a cursor over the text is the number of bytes of the characters it
has passed, so it lies between two characters, and the text can be cut there into what was
passed and what is left.  No question changes a cursor unless a token is pulled from it. -/
theorem characters_agree_with_items (source : String) (requests : List Request) :
    let characters := interview [({ source } : CharacterCursor)] requests
    let items := interview [({ items := source.toList } : ItemCursor Char)] requests
    let tapes := interview [(⟨[], source.toList⟩ : Tape Char)] requests
    (characters.1 = items.1 ∧ characters.1 = tapes.1) ∧
    (∀ (number : Nat) (cursor : CharacterCursor), characters.2[number]? = some cursor →
      ∃ tape : Tape Char, tapes.2[number]? = some tape ∧
        cursor.offset = (String.ofList tape.passed).utf8ByteSize ∧
        (⟨cursor.offset⟩ : String.Pos.Raw).IsValid cursor.source ∧
        CharacterCursor.dropBytes cursor.offset cursor.source.toList =
          some cursor.rest.toList ∧
        cursor.source = String.ofList tape.passed ++ cursor.rest) ∧
    Undisturbed characters.2 ∧ Undisturbed items.2 := by
  intro characters items tapes
  obtain ⟨hCharacters, hFollow⟩ := CharacterCursor.mimics_tape.interview
    (.cons ⟨rfl, rfl, rfl⟩ .nil : List.Forall₂ CharacterCursor.Follows
      [{ source }] [⟨[], source.toList⟩]) requests
  obtain ⟨hItems, -⟩ := ItemCursor.mimics_tape.interview
    (.cons ⟨rfl, rfl⟩ .nil : List.Forall₂ ItemCursor.Follows
      [{ items := source.toList }] [⟨[], source.toList⟩]) requests
  refine ⟨⟨hCharacters.trans hItems.symm, hCharacters⟩, fun number cursor hCursor => ?_,
    CharacterCursor.steady.undisturbed _, ItemCursor.steady.undisturbed _⟩
  rcases forall₂_getElem? hFollow number with ⟨hNone, -⟩ | ⟨_, tape, hSame, hTape, hFollows⟩
  · rw [hNone] at hCursor
    cases hCursor
  · obtain rfl := Option.some.inj (hCursor.symm.trans hSame)
    exact ⟨tape, hTape, hFollows.offset_eq, hFollows.isValid, hFollows.dropBytes,
      hFollows.source_eq⟩

-- Two bytes of one character count once, and the new cursor counts from its own start.
example : (interview [({ source := "hé!" } : CharacterCursor)]
    [⟨0, .next⟩, ⟨0, .next⟩, ⟨0, .remaining⟩, ⟨1, .next⟩, ⟨1, .next⟩, ⟨0, .position⟩]).1 =
    [.token 'h', .token 'é', .opened, .token '!', .refused (.endOfStream 1), .number 2] := by
  decide +kernel

end Cursor

end DerivativeParsing
