import DerivativeParsing.Forest.Basic
import DerivativeParsing.Lexicon.Standard

namespace DerivativeParsing

/-!
# Displays are unambiguous

The text of a tree gives the tree away, and so does the text of a forest, as long as the
text of a token can be told from what comes after it (`Text.Legible`).  Inside a tree a
separator comes after every token, and the text of a tree starts with no separator.  So the
text can be read from left to right, one tree after another (`Tree.settles_letters`).

The texts of all standard tokens are legible.  Digits end where a separator comes, since no
separator is a digit; quoted text ends at the quote, since every quote inside is written
with a backslash before it (`Text.escaped_append_inj`).
-/

namespace Text

section Reading

/-- The characters that may come after the text of a tree. -/
def separators : List Char := [' ', ')', ']', ',', '\x7d']

/-- The characters that open the text of a tree other than a leaf. -/
def brackets : List Char := ['(', '[']

/-- The brackets and the separators. -/
def delimiters : List Char := brackets ++ separators

/-- Nothing more comes, or a separator does. -/
def Ends (rest : List Char) : Prop := ∀ character ∈ rest.head?, character ∈ separators

/-- What is written tells the item, and where it ends, if a separator comes after it. -/
def Settles {ι : Type} (write : ι → List Char) (item : ι) : Prop :=
  ∀ other rest rest', Ends rest → Ends rest' →
    write item ++ rest = write other ++ rest' → item = other ∧ rest = rest'

/-- The text of a token settles the token, and it starts like no other part of the text
of a tree. -/
structure Legible {τ : Type} (text : τ → String) : Prop where
  start : ∀ token, ∃ first more, (text token).toList = first :: more ∧
    first ∉ delimiters
  settles : ∀ token, Settles (fun token => (text token).toList) token

theorem ends_nil : Ends [] := nofun

theorem ends_cons {character : Char} (hSeparator : character ∈ separators)
    (rest : List Char) : Ends (character :: rest) := by
  rintro other hOther
  rw [List.head?_cons, Option.mem_some_iff] at hOther
  exact hOther ▸ hSeparator

theorem mem_delimiters {character : Char} :
    character ∈ delimiters ↔ character ∈ brackets ∨ character ∈ separators :=
  List.mem_append

/-- Where characters that pass a test end before one that does not, they are told from what
comes after them. -/
theorem append_inj_of_forall {accepts : Char → Bool} {front front' rest rest' : List Char}
    (hFront : ∀ character ∈ front, accepts character = true)
    (hFront' : ∀ character ∈ front', accepts character = true)
    (hRest : ∀ character ∈ rest.head?, accepts character = false)
    (hRest' : ∀ character ∈ rest'.head?, accepts character = false)
    (h : front ++ rest = front' ++ rest') : front = front' ∧ rest = rest' := by
  have hTake {front rest : List Char} (hFront : ∀ character ∈ front, accepts character = true)
      (hRest : ∀ character ∈ rest.head?, accepts character = false) :
      (front ++ rest).takeWhile accepts = front := by
    rw [List.takeWhile_append_of_pos hFront]
    cases rest with
    | nil => simp
    | cons character rest => simp [hRest character rfl]
  have hSame : front = front' := by
    rw [← hTake hFront hRest, h, hTake hFront' hRest']
  subst hSame
  exact ⟨rfl, List.append_cancel_left h⟩

end Reading

section Digits

theorem eq_of_digitChar_eq {digit digit' : Nat} (hDigit : digit < 16) (hDigit' : digit' < 16)
    (h : digit.digitChar = digit'.digitChar) : digit = digit' := by
  have hAll : ∀ digit digit' : Fin 16,
      digit.val.digitChar = digit'.val.digitChar → digit.val = digit'.val := by decide
  exact hAll ⟨digit, hDigit⟩ ⟨digit', hDigit'⟩ h

variable {base : Nat}

/-- Numbers with the same digits are the same. -/
theorem toDigits_injective (hBase : 1 < base) (hSixteen : base ≤ 16) :
    Function.Injective (Nat.toDigits base) := by
  have hMod (number : Nat) : number % base < 16 :=
    Nat.lt_of_lt_of_le (Nat.mod_lt _ (by omega)) hSixteen
  -- A number with one digit has fewer than a number with a digit before its last one.
  have hShort (number : Nat) (digit digit' : Char) :
      [digit] ≠ Nat.toDigits base number ++ [digit'] := by
    intro h
    rw [← List.nil_append [digit]] at h
    exact Nat.toDigits_ne_nil (List.append_inj' h rfl).1.symm
  intro number
  induction number using Nat.strongRecOn with
  | ind number ih =>
      intro number' h
      rw [Nat.toDigits_eq_if hBase, Nat.toDigits_eq_if hBase (n := number')] at h
      split at h
      · split at h
        · exact eq_of_digitChar_eq (by omega) (by omega) (List.singleton_inj.mp h)
        · exact absurd h (hShort _ _ _)
      · split at h
        · exact absurd h.symm (hShort _ _ _)
        · obtain ⟨hFront, hLast⟩ := List.append_inj' h rfl
          have hDiv := ih _ (Nat.div_lt_self (by omega) hBase) hFront
          have hLast := eq_of_digitChar_eq (hMod _) (hMod _) (List.singleton_inj.mp hLast)
          rw [← Nat.div_add_mod number base, hDiv, hLast, Nat.div_add_mod]

theorem exists_digitChar_of_mem_toDigits (hBase : 1 < base) {number : Nat} {character : Char}
    (hMem : character ∈ Nat.toDigits base number) :
    ∃ digit, character = Nat.digitChar digit := by
  induction number using Nat.strongRecOn with
  | ind number ih =>
      rw [Nat.toDigits_eq_if hBase] at hMem
      split at hMem
      · exact ⟨_, List.mem_singleton.mp hMem⟩
      · rcases List.mem_append.mp hMem with hFront | hLast
        · exact ih _ (Nat.div_lt_self (by omega) hBase) hFront
        · exact ⟨_, List.mem_singleton.mp hLast⟩

theorem isDigit_of_mem_decimal {number : Nat} :
    ∀ character ∈ Nat.toDigits 10 number, character.isDigit = true :=
  fun _ => Nat.isDigit_of_mem_toDigits (by decide) (by decide)

theorem isDigit_of_mem_delimiters :
    ∀ character ∈ delimiters, character.isDigit = false := by
  simp [delimiters, brackets, separators, Char.isDigit]

theorem isDigit_of_ends {rest : List Char} (hRest : Ends rest) :
    ∀ character ∈ rest.head?, character.isDigit = false :=
  fun character hMem => isDigit_of_mem_delimiters character
    (mem_delimiters.mpr (Or.inr (hRest character hMem)))

/-- The text of a number starts with a digit. -/
theorem exists_decimal_eq_cons (number : Nat) :
    ∃ first more, Nat.toDigits 10 number = first :: more ∧ first.isDigit = true := by
  obtain ⟨first, more, hDigits⟩ := List.exists_cons_of_ne_nil (Nat.toDigits_ne_nil (n := number))
  exact ⟨first, more, hDigits, isDigit_of_mem_decimal first (hDigits ▸ List.mem_cons_self)⟩

/-- The digits of a number end where a separator comes. -/
theorem settles_decimal (number : Nat) : Settles (Nat.toDigits 10) number := by
  intro number' rest rest' hRest hRest' h
  obtain ⟨hDigits, hRest⟩ := append_inj_of_forall isDigit_of_mem_decimal isDigit_of_mem_decimal
    (isDigit_of_ends hRest) (isDigit_of_ends hRest') h
  exact ⟨toDigits_injective (by decide) (by decide) hDigits, hRest⟩

theorem toList_ofInt_ofNat (magnitude : Nat) :
    (ofInt (.ofNat magnitude)).toList = Nat.toDigits 10 magnitude := by
  rw [ofInt, String.toList_ofList]

theorem toList_ofInt_negSucc (magnitude : Nat) :
    (ofInt (.negSucc magnitude)).toList = '-' :: Nat.toDigits 10 (magnitude + 1) := by
  rw [ofInt, String.toList_ofList]

theorem legible_ofInt : Legible ofInt where
  start number := by
    cases number with
    | ofNat magnitude =>
        obtain ⟨first, more, hDigits, hFirst⟩ := exists_decimal_eq_cons magnitude
        refine ⟨first, more, by rw [toList_ofInt_ofNat, hDigits], ?_⟩
        intro hMem
        exact absurd hFirst (by simp [isDigit_of_mem_delimiters first hMem])
    | negSucc magnitude => exact ⟨'-', _, toList_ofInt_negSucc magnitude, by decide⟩
  settles number := by
    -- A sign is no digit.
    have hSign (magnitude : Nat) (rest digits : List Char) :
        Nat.toDigits 10 magnitude ++ rest ≠ '-' :: digits := by
      intro h
      obtain ⟨first, more, hDigits, hFirst⟩ := exists_decimal_eq_cons magnitude
      rw [hDigits, List.cons_append] at h
      rw [(List.cons.inj h).1] at hFirst
      exact absurd hFirst (by decide)
    intro number' rest rest' hRest hRest' h
    dsimp only at h
    cases number with
    | ofNat magnitude =>
        cases number' with
        | ofNat magnitude' =>
            rw [toList_ofInt_ofNat, toList_ofInt_ofNat] at h
            obtain ⟨rfl, hSame⟩ := settles_decimal _ _ _ _ hRest hRest' h
            exact ⟨rfl, hSame⟩
        | negSucc magnitude' =>
            rw [toList_ofInt_ofNat, toList_ofInt_negSucc] at h
            exact absurd h (hSign _ _ _)
    | negSucc magnitude =>
        cases number' with
        | ofNat magnitude' =>
            rw [toList_ofInt_ofNat, toList_ofInt_negSucc] at h
            exact absurd h.symm (hSign _ _ _)
        | negSucc magnitude' =>
            rw [toList_ofInt_negSucc, toList_ofInt_negSucc] at h
            obtain ⟨hMagnitude, hSame⟩ :=
              settles_decimal _ _ _ _ hRest hRest' (List.cons.inj h).2
            exact ⟨congrArg _ (Nat.succ.inj hMagnitude), hSame⟩

end Digits

section Quotes

/-- The characters that are written with a backslash and one character after it, which
comes second here. -/
def shorthands (mark : Char) : List (Char × Char) :=
  [('\t', 't'), ('\r', 'r'), ('\n', 'n'), ('\x00', '0'), ('\\', '\\'), (mark, mark)]

/-- The three ways to write a character between quotes. -/
inductive Escapes (mark : Char) : Char → List Char → Prop
  | plain {character : Char} (hBackslash : character ≠ '\\') (hMark : character ≠ mark) :
      Escapes mark character [character]
  | short {character letter : Char} (hShort : (character, letter) ∈ shorthands mark) :
      Escapes mark character ['\\', letter]
  | numbered {character : Char} :
      Escapes mark character
        ('\\' :: 'u' :: '\x7b' :: (Nat.toDigits 16 character.toNat ++ ['\x7d']))

theorem escapes_escape (mark character : Char) :
    Escapes mark character (escape mark character) := by
  unfold escape
  split
  · next h => exact .short (by simp [shorthands, h])
  split
  · next h => exact .short (by simp [shorthands, h])
  split
  · next h => exact .short (by simp [shorthands, h])
  split
  · next h => exact .short (by simp [shorthands, h])
  split
  · next h => exact .short (by simp [shorthands, h])
  next hBackslash =>
  split
  · next h => exact .short (by simp [shorthands, h])
  next hMark =>
  split
  · exact .numbered
  · exact .plain hBackslash hMark

/-- The two quotes. -/
def marks : List Char := ['\'', '"']

variable {mark : Char}

/-- No quote inside is taken for the closing one. -/
theorem exists_escape_eq_cons (hMark : mark ∈ marks) (character : Char) :
    ∃ first more, escape mark character = first :: more ∧ first ≠ mark := by
  have hBackslash : ∀ mark ∈ marks, '\\' ≠ mark := by simp [marks]
  generalize hWritten : escape mark character = written
  cases hWritten ▸ escapes_escape mark character with
  | plain _ hCharacter => exact ⟨_, _, rfl, hCharacter⟩
  | short _ => exact ⟨_, _, rfl, hBackslash mark hMark⟩
  | numbered => exact ⟨_, _, rfl, hBackslash mark hMark⟩

/-- Digits end where a brace closes. -/
theorem toDigits_append_brace_inj {number number' : Nat} {rest rest' : List Char}
    (h : Nat.toDigits 16 number ++ '\x7d' :: rest = Nat.toDigits 16 number' ++ '\x7d' :: rest') :
    number = number' ∧ rest = rest' := by
  have hDigits (number : Nat) :
      ∀ character ∈ Nat.toDigits 16 number, (character != '\x7d') = true := by
    intro character hMem
    obtain ⟨digit, rfl⟩ := exists_digitChar_of_mem_toDigits (by decide) hMem
    exact bne_iff_ne.mpr (Nat.digitChar_ne '\x7d' rfl)
  obtain ⟨hNumber, hRest⟩ := append_inj_of_forall (hDigits number) (hDigits number')
    (by simp) (by simp) h
  exact ⟨toDigits_injective (by decide) (by decide) hNumber, (List.cons.inj hRest).2⟩

/-- What is written for a character tells the character, whatever comes after it. -/
theorem escape_append_inj (hMark : mark ∈ marks) {character character' : Char}
    {rest rest' : List Char} (h : escape mark character ++ rest = escape mark character' ++ rest') :
    character = character' ∧ rest = rest' := by
  have hLetters : ∀ mark ∈ marks, ∀ entry ∈ shorthands mark,
      entry.2 ≠ 'u' ∧ ∀ entry' ∈ shorthands mark, entry.2 = entry'.2 → entry.1 = entry'.1 := by
    simp [marks, shorthands]
  -- What comes first tells plain characters from the others, and what comes second tells
  -- numbers from shorthands.
  generalize hWritten : escape mark character = written at h
  generalize hWritten' : escape mark character' = written' at h
  cases hWritten ▸ escapes_escape mark character with
  | plain hBackslash _ =>
      cases hWritten' ▸ escapes_escape mark character' with
      | plain _ _ => exact List.cons.inj h
      | short _ => exact absurd (List.cons.inj h).1 hBackslash
      | numbered => exact absurd (List.cons.inj h).1 hBackslash
  | short hShort =>
      cases hWritten' ▸ escapes_escape mark character' with
      | plain hBackslash _ => exact absurd (List.cons.inj h).1.symm hBackslash
      | short hShort' =>
          obtain ⟨hLetter, hRest⟩ := List.cons.inj (List.cons.inj h).2
          exact ⟨(hLetters mark hMark _ hShort).2 _ hShort' hLetter, hRest⟩
      | numbered =>
          exact absurd (List.cons.inj (List.cons.inj h).2).1 (hLetters mark hMark _ hShort).1
  | numbered =>
      cases hWritten' ▸ escapes_escape mark character' with
      | plain hBackslash _ => exact absurd (List.cons.inj h).1.symm hBackslash
      | short hShort' =>
          exact absurd (List.cons.inj (List.cons.inj h).2).1.symm
            (hLetters mark hMark _ hShort').1
      | numbered =>
          simp only [List.cons_append, List.append_assoc, List.nil_append, List.cons.injEq,
            true_and] at h
          obtain ⟨hNumber, hRest⟩ := toDigits_append_brace_inj h
          exact ⟨Char.toNat_inj.mp hNumber, hRest⟩

/-- Escaped text can be read up to the closing quote. -/
theorem escaped_append_inj (hMark : mark ∈ marks) {rest rest' : List Char} :
    ∀ {characters characters' : List Char},
      characters.flatMap (escape mark) ++ mark :: rest =
        characters'.flatMap (escape mark) ++ mark :: rest' →
      characters = characters' ∧ rest = rest' := by
  intro characters
  induction characters with
  | nil =>
      intro characters' h
      cases characters' with
      | nil => exact ⟨rfl, (List.cons.inj h).2⟩
      | cons character' characters' =>
          obtain ⟨first, more, hWritten, hFirst⟩ := exists_escape_eq_cons hMark character'
          rw [List.flatMap_cons, hWritten] at h
          exact absurd (List.cons.inj h).1.symm hFirst
  | cons character characters ih =>
      intro characters' h
      cases characters' with
      | nil =>
          obtain ⟨first, more, hWritten, hFirst⟩ := exists_escape_eq_cons hMark character
          rw [List.flatMap_cons, hWritten] at h
          exact absurd (List.cons.inj h).1 hFirst
      | cons character' characters' =>
          rw [List.flatMap_cons, List.flatMap_cons, List.append_assoc, List.append_assoc] at h
          obtain ⟨rfl, hTail⟩ := escape_append_inj hMark h
          obtain ⟨rfl, hRest⟩ := ih hTail
          exact ⟨rfl, hRest⟩

theorem toList_quote (mark : Char) (characters : List Char) :
    (quote mark characters).toList = mark :: (characters.flatMap (escape mark) ++ [mark]) := by
  rw [quote, String.toList_ofList, List.cons_append]

/-- Tokens that are told by their characters are legible between quotes. -/
theorem legible_quote {τ : Type} (hMark : mark ∈ marks) {spell : τ → List Char}
    (hSpell : Function.Injective spell) : Legible (fun token => quote mark (spell token)) where
  start token := by
    have hStart : ∀ mark ∈ marks, mark ∉ delimiters := by
      simp [marks, delimiters, brackets, separators]
    exact ⟨mark, _, toList_quote mark (spell token), hStart mark hMark⟩
  settles token := by
    intro token' rest rest' _ _ h
    simp only [toList_quote, List.cons_append, List.append_assoc, List.nil_append] at h
    obtain ⟨hCharacters, hRest⟩ := escaped_append_inj hMark (List.cons.inj h).2
    exact ⟨hSpell hCharacters, hRest⟩

theorem legible_ofChar : Legible ofChar :=
  legible_quote (by decide) fun _ _ => List.singleton_inj.mp

theorem legible_ofString : Legible ofString :=
  legible_quote (by decide) fun _ _ => String.toList_inj.mp

end Quotes

section Rows

variable {ι : Type} {write : ι → List Char}

/-- Items written one after another, with a gap before each but the first. -/
def row (write : ι → List Char) (gap : List Char) : List ι → List Char
  | [] => []
  | item :: items => write item ++ items.flatMap fun item => gap ++ write item

variable {lead close : Char} {more : List Char}

theorem ends_gapped (hLead : lead ∈ separators) (hClose : close ∈ separators) (items : List ι)
    (rest : List Char) :
    Ends ((items.flatMap fun item => (lead :: more) ++ write item) ++ close :: rest) := by
  cases items with
  | nil => exact ends_cons hClose rest
  | cons item items => exact ends_cons hLead _

/-- Items with a gap before each can be read up to the closing bracket. -/
theorem gapped_append_inj (hLead : lead ∈ separators) (hClose : close ∈ separators)
    (hNe : lead ≠ close) {rest rest' : List Char} :
    ∀ {items items' : List ι}, (∀ item ∈ items, Settles write item) →
      (items.flatMap fun item => (lead :: more) ++ write item) ++ close :: rest =
        (items'.flatMap fun item => (lead :: more) ++ write item) ++ close :: rest' →
      items = items' ∧ rest = rest' := by
  intro items
  induction items with
  | nil =>
      intro items' _ h
      cases items' with
      | nil => exact ⟨rfl, (List.cons.inj h).2⟩
      | cons item' items' => exact absurd (List.cons.inj h).1.symm hNe
  | cons item items ih =>
      intro items' hItems h
      cases items' with
      | nil => exact absurd (List.cons.inj h).1 hNe
      | cons item' items' =>
          rw [List.flatMap_cons, List.flatMap_cons] at h
          simp only [List.append_assoc] at h
          obtain ⟨rfl, hTail⟩ := hItems item List.mem_cons_self _ _ _
            (ends_gapped hLead hClose items rest) (ends_gapped hLead hClose items' rest')
            (List.append_cancel_left h)
          obtain ⟨rfl, hRest⟩ :=
            ih (fun item hItem => hItems item (List.mem_cons_of_mem _ hItem)) hTail
          exact ⟨rfl, hRest⟩

/-- A row can be read up to the closing bracket, if no item is written with a separator in
front. -/
theorem row_append_inj (hLead : lead ∈ separators) (hClose : close ∈ separators)
    (hNe : lead ≠ close)
    (hStart : ∀ item, ∃ first more, write item = first :: more ∧ first ∉ separators)
    {items items' : List ι} {rest rest' : List Char} (hItems : ∀ item ∈ items, Settles write item)
    (h : row write (lead :: more) items ++ close :: rest =
      row write (lead :: more) items' ++ close :: rest') : items = items' ∧ rest = rest' := by
  cases items with
  | nil =>
      cases items' with
      | nil => exact ⟨rfl, (List.cons.inj h).2⟩
      | cons item' items' =>
          obtain ⟨first, _, hWritten, hFirst⟩ := hStart item'
          rw [row, row, hWritten] at h
          exact absurd ((List.cons.inj h).1 ▸ hClose) hFirst
  | cons item items =>
      cases items' with
      | nil =>
          obtain ⟨first, _, hWritten, hFirst⟩ := hStart item
          rw [row, row, hWritten] at h
          exact absurd ((List.cons.inj h).1 ▸ hClose) hFirst
      | cons item' items' =>
          rw [row, row, List.append_assoc, List.append_assoc] at h
          obtain ⟨rfl, hTail⟩ := hItems item List.mem_cons_self _ _ _
            (ends_gapped hLead hClose items rest) (ends_gapped hLead hClose items' rest') h
          obtain ⟨rfl, hRest⟩ := gapped_append_inj hLead hClose hNe
            (fun item hItem => hItems item (List.mem_cons_of_mem _ hItem)) hTail
          exact ⟨rfl, hRest⟩

end Rows

end Text

namespace Tree

open Text

variable {τ : Type} {text : τ → String}

/-- The characters of the compact text. -/
def letters (text : τ → String) (tree : Tree τ) : List Char := (tree.display text).toList

@[simp]
theorem letters_nil : (nil : Tree τ).letters text = ['(', ')'] := by
  rw [letters, display]
  rfl

@[simp]
theorem letters_leaf (token : τ) : (leaf token).letters text = (text token).toList := by
  rw [letters, display]

@[simp]
theorem letters_pair (left right : Tree τ) :
    (pair left right).letters text =
      '(' :: (left.letters text ++ ' ' :: '.' :: ' ' :: (right.letters text ++ [')'])) := by
  simp [letters, display]

theorem toList_displayRest (items : List (Tree τ)) :
    (displayRest text items).toList = items.flatMap fun item => [' '] ++ item.letters text := by
  induction items with
  | nil => simp [displayRest]
  | cons item items ih => simp [displayRest, ih, letters]

@[simp]
theorem letters_list (items : List (Tree τ)) :
    (list items).letters text = '[' :: (row (letters text) [' '] items ++ [']']) := by
  cases items with
  | nil => simp [letters, display, row]
  | cons item items => simp [letters, display, row, toList_displayRest]

/-- The text of every tree but a leaf starts with a bracket. -/
theorem leaf_or_bracket (text : τ → String) (tree : Tree τ) :
    (∃ token, tree = leaf token) ∨
      ∃ first more, tree.letters text = first :: more ∧ first ∈ brackets := by
  cases tree with
  | nil => exact Or.inr ⟨'(', _, letters_nil, List.mem_cons_self⟩
  | leaf token => exact Or.inl ⟨token, rfl⟩
  | pair left right => exact Or.inr ⟨'(', _, letters_pair left right, List.mem_cons_self⟩
  | list items =>
      exact Or.inr ⟨'[', _, letters_list items, List.mem_cons_of_mem _ List.mem_cons_self⟩

variable (hText : Legible text)
include hText

/-- The text of a tree starts with no separator. -/
theorem exists_letters_eq_cons (tree : Tree τ) :
    ∃ first more, tree.letters text = first :: more ∧ first ∉ separators := by
  rcases leaf_or_bracket text tree with ⟨token, rfl⟩ | ⟨first, more, hTree, hFirst⟩
  · obtain ⟨first, more, hToken, hFirst⟩ := hText.start token
    exact ⟨first, more, by rw [letters_leaf, hToken],
      fun hMem => hFirst (mem_delimiters.mpr (Or.inr hMem))⟩
  · have hBrackets : ∀ first ∈ brackets, first ∉ separators := by simp [brackets, separators]
    exact ⟨first, more, hTree, hBrackets first hFirst⟩

/-- Only a leaf has a text that starts like one. -/
theorem exists_leaf_of_append_eq {token : τ} {tree : Tree τ} {rest rest' : List Char}
    (h : (leaf token).letters text ++ rest = tree.letters text ++ rest') :
    ∃ other, tree = leaf other := by
  rcases leaf_or_bracket text tree with hLeaf | ⟨first, more, hTree, hFirst⟩
  · exact hLeaf
  · obtain ⟨first', more', hToken, hFirst'⟩ := hText.start token
    rw [letters_leaf, hToken, hTree] at h
    rw [(List.cons.inj h).1] at hFirst'
    exact absurd (mem_delimiters.mpr (Or.inl hFirst)) hFirst'

/-- What follows the first bracket of a pair is no bracket that closes. -/
theorem nil_append_ne_pair_append {left right : Tree τ} {rest rest' : List Char} :
    (nil : Tree τ).letters text ++ rest ≠ (pair left right).letters text ++ rest' := by
  intro h
  obtain ⟨first, more, hLeft, hFirst⟩ := exists_letters_eq_cons hText left
  simp only [letters_nil, letters_pair, hLeft, List.cons_append, List.cons.injEq,
    true_and] at h
  rw [← h.1] at hFirst
  exact absurd (by decide) hFirst

/-- The text of a tree settles the tree. -/
theorem settles_letters (tree : Tree τ) : Settles (letters text) tree := by
  -- The first character tells leaves, lists and the others apart.  What follows the bracket
  -- tells `()` from a pair.
  induction tree using Tree.induction with
  | nil =>
      intro other rest rest' _ _ h
      cases other with
      | nil => exact ⟨rfl, List.append_cancel_left h⟩
      | leaf token' => exact absurd (exists_leaf_of_append_eq hText h.symm) nofun
      | pair left' right' => exact absurd h (nil_append_ne_pair_append hText)
      | list items' => simp at h
  | leaf token =>
      intro other rest rest' hRest hRest' h
      obtain ⟨token', rfl⟩ := exists_leaf_of_append_eq hText h
      rw [letters_leaf, letters_leaf] at h
      obtain ⟨rfl, hRest⟩ := hText.settles token _ _ _ hRest hRest' h
      exact ⟨rfl, hRest⟩
  | pair left right ihLeft ihRight =>
      intro other rest rest' _ _ h
      cases other with
      | nil => exact absurd h.symm (nil_append_ne_pair_append hText)
      | leaf token' => exact absurd (exists_leaf_of_append_eq hText h.symm) nofun
      | pair left' right' =>
          simp only [letters_pair, List.cons_append, List.append_assoc, List.nil_append,
            List.cons.injEq, true_and] at h
          obtain ⟨rfl, hRight⟩ := ihLeft _ _ _ (ends_cons (by decide) _)
            (ends_cons (by decide) _) h
          simp only [List.cons.injEq, true_and] at hRight
          obtain ⟨rfl, hClose⟩ := ihRight _ _ _ (ends_cons (by decide) _)
            (ends_cons (by decide) _) hRight
          exact ⟨rfl, (List.cons.inj hClose).2⟩
      | list items' => simp at h
  | list items ih =>
      intro other rest rest' _ _ h
      cases other with
      | nil => simp at h
      | leaf token' => exact absurd (exists_leaf_of_append_eq hText h.symm) nofun
      | pair left' right' => simp at h
      | list items' =>
          simp only [letters_list, List.cons_append, List.append_assoc, List.nil_append,
            List.cons.injEq, true_and] at h
          obtain ⟨rfl, hRest⟩ := row_append_inj (by decide) (by decide) (by decide)
            (exists_letters_eq_cons hText) ih h
          exact ⟨rfl, hRest⟩

/-- Trees with the same text are the same. -/
theorem display_injective : Function.Injective (display text) := by
  intro tree other h
  have hLetters : tree.letters text ++ [] = other.letters text ++ [] := by
    rw [letters, letters, h]
  exact (settles_letters hText tree _ _ _ ends_nil ends_nil hLetters).1

end Tree

namespace Forest

open Text

variable {τ : Type} [Ord τ] {text : τ → String}

omit [Ord τ] in
theorem toList_displayRest (trees : List (Tree τ)) :
    (displayRest text trees).toList =
      trees.flatMap fun tree => [',', ' '] ++ tree.letters text := by
  induction trees with
  | nil => simp [displayRest]
  | cons tree trees ih => simp [displayRest, ih, Tree.letters]

theorem toList_display (forest : Forest τ) :
    (forest.display text).toList =
      '\x7b' :: (row (Tree.letters text) [',', ' '] forest.trees ++ ['\x7d']) := by
  unfold display
  split
  · next h => simp [h, row]
  · next tree trees h => simp [h, row, toList_displayRest, Tree.letters]

/-- Forests with the same text are the same. -/
theorem display_injective (hText : Legible text) :
    Function.Injective (display (τ := τ) text) := by
  intro forest other h
  have hRows := congrArg String.toList h
  rw [toList_display, toList_display] at hRows
  exact eq_of_trees_eq (row_append_inj (by decide) (by decide) (by decide)
    (Tree.exists_letters_eq_cons hText) (fun tree _ => Tree.settles_letters hText tree)
    (List.cons.inj hRows).2).1

end Forest

/-- The text of a tree over characters, integers or words belongs to no other tree, and the
text of a forest to no other forest. -/
theorem display_unambiguous :
    (Function.Injective (Tree.display Lexicon.characters.text) ∧
      Function.Injective (Forest.display Lexicon.characters.text)) ∧
    (Function.Injective (Tree.display Lexicon.integers.text) ∧
      Function.Injective (Forest.display Lexicon.integers.text)) ∧
    (Function.Injective (Tree.display Lexicon.words.text) ∧
      Function.Injective (Forest.display Lexicon.words.text)) :=
  ⟨⟨Tree.display_injective Text.legible_ofChar, Forest.display_injective Text.legible_ofChar⟩,
    ⟨Tree.display_injective Text.legible_ofInt, Forest.display_injective Text.legible_ofInt⟩,
    Tree.display_injective Text.legible_ofString, Forest.display_injective Text.legible_ofString⟩

-- A word may hold the brackets and dots of a pair, which its quotes keep apart.
example : Tree.display Lexicon.words.text (.pair (.leaf ") . \"") .nil) =
    "(\") . \\\"\" . ())" := by
  decide +kernel

end DerivativeParsing
