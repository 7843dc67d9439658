import DerivativeParsing.Slotted

namespace DerivativeParsing

/-!
# Arenas

An arena is a slotted store.  A slot is vacant or holds a value.  The
vacant slots stand on a list: a new value takes the slot that was vacated last,
and only if none is vacant is a fresh slot added at the end.

The list names only vacant slots, each of them once.  Both facts are part of the
type, so a new value can never overwrite one that is still there.
-/

/-- Values in numbered slots, with the vacant slots on a list. -/
structure Arena (α : Type) where
  slots : Array (Option α)
  vacant : List Nat
  vacant_none : ∀ index ∈ vacant, slots[index]? = some none
  vacant_nodup : vacant.Nodup

namespace Arena

variable {α : Type}

/-- The arena without slots. -/
def empty : Arena α where
  slots := #[]
  vacant := []
  vacant_none := by simp
  vacant_nodup := List.nodup_nil

instance : Inhabited (Arena α) := ⟨empty⟩

/-- The value in a slot, if the slot is there and not vacant. -/
def get? (arena : Arena α) (index : Nat) : Option α :=
  (arena.slots[index]?).join

/-- The number of values. -/
def size (arena : Arena α) : Nat :=
  arena.slots.countP Option.isSome

/-- The slots that hold a value, in ascending order of their indices. -/
def occupied (arena : Arena α) : List Nat :=
  (List.range arena.slots.size).filter fun index => (arena.get? index).isSome

/-- The slot that the next value goes to. -/
def next (arena : Arena α) : Nat :=
  match arena.vacant with
  | [] => arena.slots.size
  | index :: _ => index

/-- Put a value into the next slot. -/
def insert (arena : Arena α) (value : α) : Arena α :=
  match arena with
  | ⟨slots, [], _, _⟩ =>
      { slots := slots.push (some value)
        vacant := []
        vacant_none := by simp
        vacant_nodup := List.nodup_nil }
  | ⟨slots, index :: vacant, hNone, hNodup⟩ =>
      { slots := slots.setIfInBounds index (some value)
        vacant := vacant
        vacant_none := by
          intro other hOther
          have hNe : index ≠ other := by
            rintro rfl
            exact (List.nodup_cons.mp hNodup).1 hOther
          rw [Array.getElem?_setIfInBounds_ne hNe]
          exact hNone other (List.mem_cons_of_mem _ hOther)
        vacant_nodup := (List.nodup_cons.mp hNodup).2 }

/-- Replace the value in a slot.  A vacant slot stays vacant. -/
def replace (arena : Arena α) (index : Nat) (value : α) : Arena α :=
  match hSlot : arena.slots[index]? with
  | some (some _) =>
      { slots := arena.slots.setIfInBounds index (some value)
        vacant := arena.vacant
        vacant_none := by
          intro other hOther
          have hNe : index ≠ other := by
            rintro rfl
            rw [arena.vacant_none index hOther] at hSlot
            cases hSlot
          rw [Array.getElem?_setIfInBounds_ne hNe]
          exact arena.vacant_none other hOther
        vacant_nodup := arena.vacant_nodup }
  | _ => arena

/-- The slots whose values a test rejects, in ascending order. -/
def rejected (arena : Arena α) (keep : Nat → α → Bool) : List Nat :=
  (List.range arena.slots.size).filter fun index =>
    match arena.get? index with
    | some value => !keep index value
    | none => false

/-- The content of a slot after the values that a test rejects are gone. -/
def swept (keep : Nat → α → Bool) (index : Nat) (slot : Option α) : Option α :=
  slot.filter (keep index)

/-- Remove every value that a test rejects.  The slots are vacated in ascending
order, so the highest of them is filled first. -/
def sweep (arena : Arena α) (keep : Nat → α → Bool) : Arena α where
  slots := arena.slots.mapIdx (swept keep)
  vacant := (arena.rejected keep).reverse ++ arena.vacant
  vacant_none := by
    intro index hIndex
    rw [Array.getElem?_mapIdx]
    rcases List.mem_append.mp hIndex with hIndex | hIndex
    · rw [List.mem_reverse, rejected, List.mem_filter, List.mem_range] at hIndex
      obtain ⟨hBound, hReject⟩ := hIndex
      rw [Array.getElem?_eq_getElem hBound]
      unfold get? at hReject
      rw [Array.getElem?_eq_getElem hBound] at hReject
      cases hValue : arena.slots[index] with
      | none => simp [swept]
      | some value => simp_all [swept]
    · rw [arena.vacant_none index hIndex]
      rfl
  vacant_nodup := by
    have hRejected : (arena.rejected keep).Nodup :=
      List.Pairwise.filter _ List.nodup_range
    rw [List.nodup_append]
    refine ⟨?_, arena.vacant_nodup, ?_⟩
    · simpa [List.Nodup, List.pairwise_reverse, ne_comm] using hRejected
    rintro index hIndex other hOther rfl
    rw [List.mem_reverse, rejected, List.mem_filter] at hIndex
    have hReject := hIndex.2
    unfold get? at hReject
    rw [arena.vacant_none index hOther] at hReject
    simp at hReject

theorem get?_empty (index : Nat) : (empty : Arena α).get? index = none := rfl

theorem next_empty : (empty : Arena α).next = 0 := rfl

theorem next_insert_empty (value : α) : (empty.insert value).next = 1 := rfl

/-- The next slot holds no value yet. -/
theorem get?_next (arena : Arena α) : arena.get? arena.next = none := by
  obtain ⟨slots, vacant, hNone, hNodup⟩ := arena
  cases vacant with
  | nil => simp [get?, next]
  | cons index vacant =>
      simp [get?, next, hNone index List.mem_cons_self]

/-- Inserting fills the next slot and changes no other. -/
theorem get?_insert (arena : Arena α) (value : α) (index : Nat) :
    (arena.insert value).get? index =
      if index = arena.next then some value else arena.get? index := by
  obtain ⟨slots, vacant, hNone, hNodup⟩ := arena
  cases vacant with
  | nil =>
      simp only [insert, get?, next, Array.getElem?_push]
      by_cases hIndex : index = slots.size <;> simp [hIndex]
  | cons first vacant =>
      have hBound : first < slots.size := by
        have hSlot := hNone first List.mem_cons_self
        exact (Array.getElem?_eq_some_iff.mp hSlot).1
      simp only [insert, get?, next, Array.getElem?_setIfInBounds]
      by_cases hIndex : first = index
      · subst hIndex
        simp [hBound]
      · simp [hIndex, Ne.symm hIndex]

/-- Replacing changes the value of a slot that holds one, and nothing else. -/
theorem get?_replace (arena : Arena α) (index : Nat) (value : α) (other : Nat) :
    (arena.replace index value).get? other =
      if other = index then (arena.get? index).map fun _ => value
      else arena.get? other := by
  unfold replace
  split
  · next stored hSlot =>
      have hBound : index < arena.slots.size :=
        (Array.getElem?_eq_some_iff.mp hSlot).1
      simp only [get?, Array.getElem?_setIfInBounds]
      by_cases hIndex : index = other
      · subst hIndex
        rw [hSlot]
        simp [hBound]
      · simp [hIndex, Ne.symm hIndex]
  · next hSlot =>
      split
      · next hOther =>
          subst hOther
          unfold get?
          cases hValue : arena.slots[other]? with
          | none => rfl
          | some slot =>
              cases slot with
              | none => rfl
              | some stored => exact absurd hValue (hSlot stored)
      · rfl

/-- A sweep removes exactly the values that the test rejects. -/
theorem get?_sweep (arena : Arena α) (keep : Nat → α → Bool) (index : Nat) :
    (arena.sweep keep).get? index = (arena.get? index).filter (keep index) := by
  simp only [sweep, get?, Array.getElem?_mapIdx]
  cases arena.slots[index]? <;> rfl

/-- A slot with a value is one of the occupied slots, and conversely. -/
theorem mem_occupied {arena : Arena α} {index : Nat} :
    index ∈ arena.occupied ↔ (arena.get? index).isSome = true := by
  rw [occupied, List.mem_filter, List.mem_range]
  constructor
  · exact And.right
  · intro hSome
    refine ⟨?_, hSome⟩
    by_cases hBound : index < arena.slots.size
    · exact hBound
    · simp [get?, Array.getElem?_eq_none (Nat.le_of_not_lt hBound)] at hSome

theorem ascending_occupied (arena : Arena α) : arena.occupied.Pairwise (· < ·) :=
  List.Pairwise.filter _ List.pairwise_lt_range

/-- The values are counted by the slots that they stand in. -/
theorem length_occupied (arena : Arena α) : arena.occupied.length = arena.size := by
  have hCount (slots : List (Option α)) :
      (List.range slots.length).countP (fun index => (slots[index]?).join.isSome) =
        slots.countP Option.isSome := by
    induction slots with
    | nil => rfl
    | cons slot slots ih =>
        rw [List.length_cons, List.range_succ_eq_map, List.countP_cons, List.countP_map,
          List.countP_cons, ← ih]
        rfl
  rw [occupied, ← List.countP_eq_length_filter, size, ← Array.countP_toList, ← hCount]
  simp only [Array.length_toList, Array.getElem?_toList]
  rfl

theorem size_le_size_slots (arena : Arena α) : arena.size ≤ arena.slots.size :=
  Array.countP_le_size

/-- A sweep keeps the occupied slots whose values pass the test. -/
theorem occupied_sweep (arena : Arena α) (keep : Nat → α → Bool) :
    (arena.sweep keep).occupied =
      arena.occupied.filter fun index => (arena.get? index).any (keep index) := by
  have hSize : (arena.sweep keep).slots.size = arena.slots.size := Array.size_mapIdx
  rw [occupied, occupied, List.filter_filter, hSize]
  congr 1
  funext index
  rw [get?_sweep]
  cases arena.get? index with
  | none => rfl
  | some value => cases hKeep : keep index value <;> simp [hKeep]

/-- A sweep keeps a value or rejects it. -/
theorem size_sweep_add_length_rejected (arena : Arena α) (keep : Nat → α → Bool) :
    (arena.sweep keep).size + (arena.rejected keep).length = arena.size := by
  have hRejected : arena.rejected keep =
      arena.occupied.filter fun index => !(arena.get? index).any (keep index) := by
    rw [rejected, occupied, List.filter_filter]
    congr 1
    funext index
    cases arena.get? index with
    | none => rfl
    | some value => simp
  rw [← length_occupied, ← length_occupied, occupied_sweep, hRejected,
    ← List.countP_eq_length_filter, ← List.countP_eq_length_filter,
    List.length_eq_countP_add_countP fun index => (arena.get? index).any (keep index)]
  simp

instance : Slotted (Arena α) α where
  empty := empty
  get? := get?
  size := size
  capacity arena := arena.slots.size
  occupied := occupied
  next := next
  insert := insert
  replace := replace
  rejected := rejected
  sweep := sweep
  get?_empty := get?_empty
  next_empty := next_empty
  next_insert_empty := next_insert_empty
  get?_next := get?_next
  get?_insert := get?_insert
  get?_replace := get?_replace
  get?_sweep := get?_sweep
  mem_occupied := mem_occupied
  ascending_occupied := ascending_occupied
  length_occupied := length_occupied
  size_le_capacity := size_le_size_slots
  size_sweep_add_length_rejected := size_sweep_add_length_rejected

end Arena

end DerivativeParsing
