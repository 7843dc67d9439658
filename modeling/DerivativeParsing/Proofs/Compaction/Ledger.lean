import Mathlib.Data.Finset.Card
import Mathlib.Data.Finset.Prod
import DerivativeParsing.Proofs.Compaction.Draft

namespace DerivativeParsing

/-!
# How often a node is compacted

Compaction remembers a node when it is done with it, and a delegate before it begins.  So a
node is compacted again while it is being compacted, if a cycle leads back to it that was
entered at the node and not at a delegate.

A visit is a node together with the entrance that led to it: the root, or the delegate that was
entered last.  Below one entrance no node is visited twice, since cycles pass through delegates,
and two visits of one node need a cycle through the node (`Tracks.once`).  Every visit adds at
most one node to those that the results consist of (`Tracks.room`), and one ledger is kept
through a whole compaction (`Draft.Compacts.tracks`).
-/

variable {Λ : Lexicon}

namespace Grammar

variable {grammar : Grammar Λ} {root node child : Handle} {entrance : Option Handle}

/-- The places where a descent begins: the root, and the target of a delegate. -/
inductive Starts (grammar : Grammar Λ) (root : Handle) : Option Handle → Handle → Prop
  | root : Starts grammar root none root
  | target {delegate target : Handle} : grammar.Reaches root delegate →
      grammar.get? delegate = some (.delegate (some target)) →
      Starts grammar root (some delegate) target

/-- A descent comes to a node from an entrance without entering another delegate. -/
def Enters (grammar : Grammar Λ) (root : Handle) (entrance : Option Handle) (node : Handle) :
    Prop :=
  ∃ start, grammar.Starts root entrance start ∧ Relation.ReflTransGen grammar.Plain start node

/-- A node lies on a cycle. -/
def Cyclic (grammar : Grammar Λ) (node : Handle) : Prop :=
  Relation.TransGen (fun parent child => child ∈ grammar.successors parent) node node

theorem Starts.reaches {start : Handle} (hStarts : grammar.Starts root entrance start) :
    grammar.Reaches root start := by
  cases hStarts with
  | root => exact Reaches.refl root
  | target hDelegate hNode =>
      exact hDelegate.trans (reaches_child hNode (List.mem_singleton_self _))

theorem Enters.reaches (hEnters : grammar.Enters root entrance node) :
    grammar.Reaches root node := by
  obtain ⟨start, hStarts, hPlain⟩ := hEnters
  exact hStarts.reaches.trans (Relation.ReflTransGen.mono
    (fun _ _ (h : grammar.Plain _ _) => h.mem_successors) start node hPlain)

theorem Enters.step (hEnters : grammar.Enters root entrance node)
    (hPlain : grammar.Plain node child) : grammar.Enters root entrance child := by
  obtain ⟨start, hStarts, hBelow⟩ := hEnters
  exact ⟨start, hStarts, hBelow.tail hPlain⟩

theorem Enters.delegate (hEnters : grammar.Enters root entrance node)
    (hNode : grammar.get? node = some (.delegate (some child))) :
    grammar.Enters root (some node) child :=
  ⟨child, .target hEnters.reaches hNode, Relation.ReflTransGen.refl⟩

end Grammar

open Grammar

/-- The visits of a compaction, and the nodes that its results consist of. -/
structure Ledger where
  visits : Finset (Option Handle × Handle)
  built : Finset Handle

namespace Draft

variable {source : Grammar Λ} {draft draft' draft₁ : Draft Λ} {root node child result : Handle}
  {entrance : Option Handle} {pending : List (Option Handle × Handle)} {ledger : Ledger}
  {base : Nat} {image : Node Λ}

/-- A ledger fits a draft: the results that are recalled are built of its nodes, its visits are
over or pending, and no more nodes were built than there were visits. -/
structure Tracks (source : Grammar Λ) (root : Handle) (base : Nat) (draft : Draft Λ)
    (pending : List (Option Handle × Handle)) (ledger : Ledger) : Prop where
  closed : ∀ handle ∈ ledger.built, ∃ image, draft.grammar.get? handle = some image ∧
    ∀ child ∈ image.children, child ∈ ledger.built
  recalled : ∀ node result, source.Reaches root node → draft.recalled node = some result →
    result ∈ ledger.built
  room : ledger.built.card + pending.length ≤ ledger.visits.card + base
  entered : ∀ visit ∈ ledger.visits, source.Enters root visit.1 visit.2
  ended : ∀ visit ∈ ledger.visits, draft.recalled visit.2 = none → visit ∈ pending
  once : ∀ visit ∈ ledger.visits, ∀ other ∈ ledger.visits, visit.2 = other.2 →
    visit.1 = other.1 ∨ source.Cyclic visit.2 ∧ ∃ child, source.Plain visit.2 child

/-- How the pending visits lead to the node that is compacted next: by a plain step first, by
plain steps only below the same entrance, and through delegates that were entered. -/
structure Pending (source : Grammar Λ) (draft : Draft Λ) (entrance : Option Handle)
    (pending : List (Option Handle × Handle)) (node : Handle) : Prop where
  leads : ∀ visit ∈ pending, ∃ child, source.Plain visit.2 child ∧ source.Reaches child node
  plain : ∀ other, (entrance, other) ∈ pending → Relation.TransGen source.Plain other node
  entered : ∀ delegate other, (some delegate, other) ∈ pending → draft.recalled delegate ≠ none
  current : ∀ delegate, entrance = some delegate → draft.recalled delegate ≠ none

section Remembering

theorem recalled_note_ne_none {other : Handle} (hRecalled : draft.recalled other ≠ none) :
    (draft.note node result).recalled other ≠ none := by
  rw [recalled_note]
  split
  · simp
  · exact hRecalled

/-- What is remembered stays so, although it may be overwritten. -/
theorem Compacts.recalled_ne_none {other : Handle}
    (hCompacts : Compacts source draft node draft' result)
    (hRecalled : draft.recalled other ≠ none) : draft'.recalled other ≠ none := by
  induction hCompacts with
  | recalled _ => exact hRecalled
  | kept _ _ _ => exact recalled_note_ne_none hRecalled
  | made _ _ => exact recalled_note_ne_none hRecalled
  | passed _ _ _ _ ih => exact recalled_note_ne_none (ih hRecalled)
  | union _ _ _ _ _ _ _ ihLeft ihRight =>
      exact recalled_note_ne_none (ihRight (ihLeft hRecalled))
  | sequence _ _ _ _ _ _ _ ihFirst ihSecond =>
      exact recalled_note_ne_none (ihSecond (ihFirst hRecalled))
  | repetition _ _ _ _ ih => exact recalled_note_ne_none (ih hRecalled)
  | reduced _ _ _ _ ih => exact recalled_note_ne_none (ih hRecalled)
  | delegate _ _ _ _ ih => exact recalled_note_ne_none (ih (recalled_note_ne_none hRecalled))

end Remembering

section Descending

theorem Pending.later (hPending : Pending source draft entrance pending node)
    (hCompacts : Compacts source draft child draft' result) :
    Pending source draft' entrance pending node :=
  ⟨hPending.leads, hPending.plain,
    fun delegate other hMem => hCompacts.recalled_ne_none (hPending.entered delegate other hMem),
    fun delegate hSome => hCompacts.recalled_ne_none (hPending.current delegate hSome)⟩

/-- A node is pending while its parts are compacted. -/
theorem Pending.step (hPending : Pending source draft entrance pending node)
    (hPlain : source.Plain node child) :
    Pending source draft entrance ((entrance, node) :: pending) child where
  leads visit hVisit := by
    rcases List.mem_cons.mp hVisit with rfl | hVisit
    · exact ⟨child, hPlain, Reaches.refl child⟩
    · obtain ⟨below, hBelow, hReaches⟩ := hPending.leads visit hVisit
      exact ⟨below, hBelow, hReaches.tail hPlain.mem_successors⟩
  plain other hOther := by
    rcases List.mem_cons.mp hOther with hSame | hOther
    · cases hSame
      exact .single hPlain
    · exact (hPending.plain other hOther).tail hPlain
  entered delegate other hOther := by
    rcases List.mem_cons.mp hOther with hSame | hOther
    · cases hSame
      exact hPending.current delegate rfl
    · exact hPending.entered delegate other hOther
  current := hPending.current

/-- A delegate is remembered before its target is compacted, and is the entrance from then
on. -/
theorem Pending.enter {placeholder : Handle} (hNew : draft.recalled node = none)
    (hPending : Pending source draft entrance pending node)
    (hNode : source.get? node = some (.delegate (some child))) :
    Pending source ((draft.alloc (.delegate none)).note node placeholder) (some node) pending
      child where
  leads visit hVisit := by
    obtain ⟨below, hBelow, hReaches⟩ := hPending.leads visit hVisit
    exact ⟨below, hBelow, hReaches.trans (reaches_child hNode (List.mem_singleton_self _))⟩
  plain other hOther := absurd hNew (hPending.entered node other hOther)
  entered delegate other hOther := recalled_note_ne_none (hPending.entered delegate other hOther)
  current delegate hSome := by
    cases hSome
    simp [recalled_note]

end Descending

section Visiting

/-- A node that is not recalled was not visited below this entrance, and was visited below
another one only if it lies on a cycle. -/
theorem Tracks.visit (hTracks : Tracks source root base draft pending ledger)
    (hGuarded : source.Guarded root) (hNew : draft.recalled node = none)
    (hEnters : source.Enters root entrance node)
    (hPending : Pending source draft entrance pending node) :
    Tracks source root base draft ((entrance, node) :: pending)
      { ledger with visits := insert (entrance, node) ledger.visits } where
  closed := hTracks.closed
  recalled := hTracks.recalled
  room := by
    have hFresh : (entrance, node) ∉ ledger.visits := fun hMem =>
      hGuarded node hEnters.reaches (hPending.plain node (hTracks.ended _ hMem hNew))
    have hRoom := hTracks.room
    show ledger.built.card + ((entrance, node) :: pending).length ≤
      (insert (entrance, node) ledger.visits).card + base
    rw [Finset.card_insert_of_notMem hFresh, List.length_cons]
    omega
  entered visit hVisit := by
    rcases Finset.mem_insert.mp hVisit with rfl | hVisit
    · exact hEnters
    · exact hTracks.entered visit hVisit
  ended visit hVisit hNone := by
    rcases Finset.mem_insert.mp hVisit with rfl | hVisit
    · exact List.mem_cons_self
    · exact List.mem_cons_of_mem _ (hTracks.ended visit hVisit hNone)
  once visit hVisit other hOther hSame := by
    -- Another visit of the node is still pending, so the node leads back to itself.
    have hAgain {earlier : Option Handle × Handle} (hEarlier : earlier ∈ ledger.visits)
        (hNode : earlier.2 = node) : source.Cyclic node ∧ ∃ child, source.Plain node child := by
      obtain ⟨child, hPlain, hReaches⟩ :=
        hPending.leads earlier (hTracks.ended earlier hEarlier (hNode ▸ hNew))
      rw [hNode] at hPlain
      exact ⟨Relation.TransGen.head' hPlain.mem_successors hReaches, child, hPlain⟩
    rcases Finset.mem_insert.mp hVisit with rfl | hVisit
    · rcases Finset.mem_insert.mp hOther with rfl | hOther
      · exact Or.inl rfl
      · exact Or.inr (hAgain hOther hSame.symm)
    · rcases Finset.mem_insert.mp hOther with rfl | hOther
      · exact Or.inr (hSame ▸ hAgain hVisit hSame)
      · exact hTracks.once visit hVisit other hOther hSame

/-- A visit ends with a result whose parts were built before. -/
theorem Tracks.leave (hTracks : Tracks source root base draft ((entrance, node) :: pending) ledger)
    (hKeeps : draft.grammar.Keeps draft₁.grammar) (hRecalled : draft₁.recalled = draft.recalled)
    (hImage : draft₁.grammar.get? result = some image)
    (hChildren : ∀ child ∈ image.children, child ∈ ledger.built) :
    Tracks source root base (draft₁.note node result) pending
      { ledger with built := insert result ledger.built } where
  closed handle hHandle := by
    rcases Finset.mem_insert.mp hHandle with rfl | hHandle
    · exact ⟨image, hImage, fun child hChild =>
        Finset.mem_insert_of_mem (hChildren child hChild)⟩
    · obtain ⟨found, hFound, hParts⟩ := hTracks.closed handle hHandle
      exact ⟨found, hKeeps.get? hFound, fun child hChild =>
        Finset.mem_insert_of_mem (hParts child hChild)⟩
  recalled other found hReaches hFound := by
    rw [recalled_note, hRecalled] at hFound
    split at hFound
    · cases hFound
      exact Finset.mem_insert_self _ _
    · exact Finset.mem_insert_of_mem (hTracks.recalled other found hReaches hFound)
  room := by
    have hRoom := hTracks.room
    have hInsert := Finset.card_insert_le result ledger.built
    rw [List.length_cons] at hRoom
    show (insert result ledger.built).card + pending.length ≤ ledger.visits.card + base
    omega
  entered := hTracks.entered
  ended visit hVisit hNone := by
    rw [recalled_note, hRecalled] at hNone
    split at hNone
    · cases hNone
    · next hOther =>
        rcases List.mem_cons.mp (hTracks.ended visit hVisit hNone) with rfl | hMem
        · exact absurd rfl hOther
        · exact hMem
  once := hTracks.once

/-- Filling a placeholder with a result adds nothing to what was built. -/
theorem Tracks.fill {placeholder : Handle} (hTracks : Tracks source root base draft pending ledger)
    (hUnset : draft.grammar.get? placeholder = some (.delegate none))
    (hResult : result ∈ ledger.built) :
    Tracks source root base ((draft.fill placeholder result).note node result) pending ledger where
  closed handle hHandle := by
    have hPatched := get?_patch hUnset (.delegate (some result)) handle
    show ∃ image, (draft.grammar.patch placeholder (.delegate (some result))).get? handle =
      some image ∧ _
    rw [hPatched]
    split
    · refine ⟨_, rfl, fun child hChild => ?_⟩
      rw [List.mem_singleton.mp hChild]
      exact hResult
    · exact hTracks.closed handle hHandle
  recalled other found hReaches hFound := by
    rw [recalled_note] at hFound
    split at hFound
    · cases hFound
      exact hResult
    · exact hTracks.recalled other found hReaches hFound
  room := hTracks.room
  entered := hTracks.entered
  ended visit hVisit hNone := by
    rw [recalled_note] at hNone
    split at hNone
    · cases hNone
    · exact hTracks.ended visit hVisit hNone
  once := hTracks.once

end Visiting

section Compacting

/-- What a compaction leads to: a ledger for the draft afterwards, with the result among what
was built. -/
def Tracked (source : Grammar Λ) (root : Handle) (base : Nat)
    (pending : List (Option Handle × Handle)) (ledger : Ledger) (draft : Draft Λ)
    (result : Handle) : Prop :=
  ∃ ledger', Tracks source root base draft pending ledger' ∧ result ∈ ledger'.built ∧
    ledger.built ⊆ ledger'.built

/-- A visit ends with a node that is built of earlier results. -/
theorem Tracks.tracked_alloc {later : Ledger}
    (hTracks : Tracks source root base draft ((entrance, node) :: pending) later)
    (hBuilt : ledger.built ⊆ later.built)
    (hChildren : ∀ child ∈ image.children, child ∈ later.built) :
    Tracked source root base pending ledger ((draft.alloc image).note node draft.next)
      draft.next :=
  ⟨_, hTracks.leave (draft.keeps_alloc image) rfl (draft.get?_alloc_next image) hChildren,
    Finset.mem_insert_self _ _, hBuilt.trans (Finset.subset_insert _ _)⟩

/-- The part of a reduction that is folded into another one was built before. -/
theorem Tracks.mem_built_fused {reducer : Reducer Λ}
    (hTracks : Tracks source root base draft pending ledger) (hResult : result ∈ ledger.built) :
    ∀ child ∈ (draft.grammar.fused result reducer).children, child ∈ ledger.built := by
  intro child hChild
  unfold fused at hChild
  split at hChild
  · next innermost innerReducer hReduction =>
      obtain ⟨found, hFound, hParts⟩ := hTracks.closed result hResult
      obtain rfl := Option.some.inj (hReduction.symm.trans hFound)
      exact hParts child hChild
  · rw [List.mem_singleton.mp hChild]
    exact hResult

/-- One ledger is kept through a whole compaction. -/
theorem Compacts.tracks (hGuarded : source.Guarded root)
    (hCompacts : Compacts source draft node draft' result)
    (hEnters : source.Enters root entrance node)
    (hPending : Pending source draft entrance pending node)
    (hTracks : Tracks source root base draft pending ledger) :
    Tracked source root base pending ledger draft' result := by
  -- Entrance and ledger change on the way down, so they are generalized.
  induction hCompacts generalizing entrance pending ledger with
  | recalled hFound =>
      exact ⟨ledger, hTracks, hTracks.recalled _ _ hEnters.reaches hFound, Finset.Subset.refl _⟩
  | kept hNew hSettles hResult =>
      have hVisit := hTracks.visit hGuarded hNew hEnters hPending
      refine ⟨_, hVisit.leave (Keeps.refl _) rfl hResult ?_, Finset.mem_insert_self _ _,
        Finset.subset_insert _ _⟩
      cases hSettles <;> exact nofun
  | made hNew hSettles =>
      have hVisit := hTracks.visit hGuarded hNew hEnters hPending
      refine hVisit.tracked_alloc (Finset.Subset.refl _) ?_
      cases hSettles <;> exact nofun
  | passed hNew _ hPasses _ ih =>
      have hPlain := hPasses.plain
      obtain ⟨later, hLater, hResult, hBuilt⟩ := ih (hEnters.step hPlain) (hPending.step hPlain)
        (hTracks.visit hGuarded hNew hEnters hPending)
      obtain ⟨image, hImage, hChildren⟩ := hLater.closed _ hResult
      exact ⟨_, hLater.leave (Keeps.refl _) rfl hImage hChildren, Finset.mem_insert_self _ _,
        hBuilt.trans (Finset.subset_insert _ _)⟩
  | @union _ _ _ node left right _ _ hNew _ hNode _ _ hLeft _ ihLeft ihRight =>
      have hPlainLeft : source.Plain node left :=
        ⟨_, hNode, rfl, Node.mem_children_union.mpr (Or.inl rfl)⟩
      have hPlainRight : source.Plain node right :=
        ⟨_, hNode, rfl, Node.mem_children_union.mpr (Or.inr rfl)⟩
      obtain ⟨middle, hMiddle, hLeft', hBuilt⟩ := ihLeft (hEnters.step hPlainLeft)
        (hPending.step hPlainLeft) (hTracks.visit hGuarded hNew hEnters hPending)
      obtain ⟨later, hLater, hRight', hBuilt'⟩ := ihRight (hEnters.step hPlainRight)
        ((hPending.step hPlainRight).later hLeft) hMiddle
      refine hLater.tracked_alloc (hBuilt.trans hBuilt') fun child hChild => ?_
      rcases Node.mem_children_union.mp hChild with rfl | rfl
      · exact hBuilt' hLeft'
      · exact hRight'
  | @sequence _ _ _ node first second _ _ hNew _ hNode _ _ hFirst _ ihFirst ihSecond =>
      have hPlainFirst : source.Plain node first :=
        ⟨_, hNode, rfl, Node.mem_children_sequence.mpr (Or.inl rfl)⟩
      have hPlainSecond : source.Plain node second :=
        ⟨_, hNode, rfl, Node.mem_children_sequence.mpr (Or.inr rfl)⟩
      obtain ⟨middle, hMiddle, hFirst', hBuilt⟩ := ihFirst (hEnters.step hPlainFirst)
        (hPending.step hPlainFirst) (hTracks.visit hGuarded hNew hEnters hPending)
      obtain ⟨later, hLater, hSecond', hBuilt'⟩ := ihSecond (hEnters.step hPlainSecond)
        ((hPending.step hPlainSecond).later hFirst) hMiddle
      refine hLater.tracked_alloc (hBuilt.trans hBuilt') fun child hChild => ?_
      rcases Node.mem_children_sequence.mp hChild with rfl | rfl
      · exact hBuilt' hFirst'
      · exact hSecond'
  | @repetition _ _ node inner _ hNew _ hNode _ ih =>
      have hPlain : source.Plain node inner := ⟨_, hNode, rfl, List.mem_singleton_self _⟩
      obtain ⟨later, hLater, hInner, hBuilt⟩ := ih (hEnters.step hPlain) (hPending.step hPlain)
        (hTracks.visit hGuarded hNew hEnters hPending)
      refine hLater.tracked_alloc hBuilt fun child hChild => ?_
      rw [List.mem_singleton.mp hChild]
      exact hInner
  | reduced hNew _ hReduces _ ih =>
      have hPlain := hReduces.plain
      obtain ⟨later, hLater, hInner, hBuilt⟩ := ih (hEnters.step hPlain) (hPending.step hPlain)
        (hTracks.visit hGuarded hNew hEnters hPending)
      exact hLater.tracked_alloc hBuilt (hLater.mem_built_fused hInner)
  | @delegate draft draft₁ node target result hNew _ hNode hTarget ih =>
      -- The visit is over as soon as the placeholder is remembered.
      have hOpened := (hTracks.visit hGuarded hNew hEnters hPending).leave
        (draft.keeps_alloc (.delegate none)) rfl (draft.get?_alloc_next (.delegate none)) nofun
      obtain ⟨later, hLater, hResult, hBuilt⟩ := ih (hEnters.delegate hNode)
        (hPending.enter hNew hNode) hOpened
      exact ⟨later, hLater.fill (get?_next_of_keeps hTarget.keeps) hResult, hResult,
        (Finset.subset_insert _ _).trans hBuilt⟩

end Compacting

end Draft

end DerivativeParsing
