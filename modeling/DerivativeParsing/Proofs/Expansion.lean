import DerivativeParsing.Proofs.Compaction.Ledger
import DerivativeParsing.Proofs.NormalForm
import DerivativeParsing.Proofs.Persistence

namespace DerivativeParsing

/-!
# How large a compacted graph gets

A compacted node may reach more nodes than the node it was made from: a cycle that is entered at
a node other than a delegate is compacted twice, once from the node and once from the delegate
that leads back to it (`compact_enlarges`).

The number of visits bounds the growth: every node is compacted at most once from each entrance,
and a node that no cycle passes, or that has one entrance only, is compacted at most once
(`compact_growth_bounded`).
-/

namespace Grammar

variable {Λ : Lexicon} {grammar : Grammar Λ} {root node handle : Handle} {roots : List Handle}

section Spans

/-- What some roots reach, as a finite set. -/
def span (grammar : Grammar Λ) (roots : List Handle) : Finset Handle :=
  (grammar.reachable roots).toList.toFinset

/-- The delegates among the nodes that a root reaches. -/
def delegatesWithin (grammar : Grammar Λ) (root : Handle) : List Handle :=
  (grammar.reachable [root]).toList.filter fun handle =>
    (grammar.get? handle).any Node.isDelegate

/-- No node on a cycle can be entered from two entrances, delegates apart. -/
def Separate (grammar : Grammar Λ) (root : Handle) : Prop :=
  ∀ node child, grammar.Cyclic node → grammar.Plain node child →
    ∀ entrance other, grammar.Enters root entrance node → grammar.Enters root other node →
      entrance = other

theorem nodup_reachable (grammar : Grammar Λ) (roots : List Handle) :
    (grammar.reachable roots).toList.Nodup := by
  refine Std.TreeSet.distinct_toList.imp fun hDistinct hSame => hDistinct ?_
  rw [hSame]
  exact Std.ReflOrd.compare_self

theorem card_span (grammar : Grammar Λ) (roots : List Handle) :
    (grammar.span roots).card = (grammar.reachable roots).size := by
  rw [span, List.toFinset_card_of_nodup (grammar.nodup_reachable roots),
    Std.TreeSet.length_toList]

theorem mem_span : handle ∈ grammar.span roots ↔
    grammar.contains handle = true ∧ ∃ root ∈ roots, grammar.Reaches root handle := by
  rw [span, List.mem_toFinset, Std.TreeSet.mem_toList, mem_reachable]

theorem Valid.mem_span (hValid : grammar.Valid root) (hReaches : grammar.Reaches root handle) :
    handle ∈ grammar.span [root] := by
  obtain ⟨found, hFound, -⟩ := hValid handle hReaches
  exact Grammar.mem_span.mpr ⟨contains_eq_true_iff.mpr ⟨found, hFound⟩, root,
    List.mem_singleton_self root, hReaches⟩

theorem mem_delegatesWithin : handle ∈ (grammar.delegatesWithin root).toFinset ↔
    handle ∈ grammar.span [root] ∧ ∃ target, grammar.get? handle = some (.delegate target) := by
  rw [delegatesWithin, List.toFinset_filter, Finset.mem_filter, span]
  refine and_congr_right fun _ => ?_
  cases hNode : grammar.get? handle with
  | none => simp
  | some found => cases found <;> simp [Node.isDelegate]

theorem card_delegatesWithin (grammar : Grammar Λ) (root : Handle) :
    (grammar.delegatesWithin root).toFinset.card = (grammar.delegatesWithin root).length :=
  List.toFinset_card_of_nodup ((grammar.nodup_reachable [root]).filter _)

end Spans

/-- A rule that is the only delegate in its reach is the only entrance to what it reaches. -/
theorem separate_of_delegate {target : Option Handle}
    (hRoot : grammar.get? root = some (.delegate target))
    (hOnly : ∀ handle, grammar.Reaches root handle →
      (grammar.get? handle).any Node.isDelegate = true → handle = root) :
    grammar.Separate root := by
  have hStuck {child : Handle} : ¬ grammar.Plain root child := by
    rintro ⟨found, hFound, hPlain, -⟩
    obtain rfl := Option.some.inj (hRoot.symm.trans hFound)
    cases hPlain
  have hEntrance {node child : Handle} {entrance : Option Handle}
      (hPlain : grammar.Plain node child) (hEnters : grammar.Enters root entrance node) :
      entrance = some root := by
    obtain ⟨start, hStarts, hBelow⟩ := hEnters
    cases hStarts with
    | root =>
        rcases hBelow.cases_head with rfl | ⟨next, hNext, -⟩
        · exact absurd hPlain hStuck
        · exact absurd hNext hStuck
    | target hReaches hNode =>
        rw [hOnly _ hReaches (by simp [hNode, Node.isDelegate])]
  intro node child _ hPlain entrance other hEnters hOther
  exact (hEntrance hPlain hEnters).trans (hEntrance hPlain hOther).symm

end Grammar

open Grammar

namespace Draft

variable {Λ : Lexicon} {source : Grammar Λ} {draft : Draft Λ} {root : Handle} {base : Nat}
  {pending : List (Option Handle × Handle)} {ledger : Ledger}

/-- A delegate is visited at most once. -/
theorem Tracks.eq_of_delegate (hTracks : Tracks source root base draft pending ledger)
    {visit other : Option Handle × Handle} (hVisit : visit ∈ ledger.visits)
    (hOther : other ∈ ledger.visits) (hSame : visit.2 = other.2)
    (hDelegate : visit.2 ∈ (source.delegatesWithin root).toFinset) : visit = other := by
  rcases hTracks.once visit hVisit other hOther hSame with hEntrance | ⟨-, child, hPlain⟩
  · exact Prod.ext hEntrance hSame
  · obtain ⟨-, target, hNode⟩ := mem_delegatesWithin.mp hDelegate
    obtain ⟨found, hFound, hPlain, -⟩ := hPlain
    obtain rfl := Option.some.inj (hNode.symm.trans hFound)
    cases hPlain

theorem Tracks.card_delegates_le (hTracks : Tracks source root base draft pending ledger) :
    (ledger.visits.filter fun visit => visit.2 ∈ (source.delegatesWithin root).toFinset).card ≤
      (source.delegatesWithin root).toFinset.card := by
  refine Finset.card_le_card_of_injOn Prod.snd (fun visit hVisit => ?_) ?_
  · exact (Finset.mem_filter.mp hVisit).2
  · intro visit hVisit other hOther hSame
    obtain ⟨hVisit, hDelegate⟩ := Finset.mem_filter.mp hVisit
    exact hTracks.eq_of_delegate hVisit (Finset.mem_filter.mp hOther).1 hSame hDelegate

/-- Other nodes are visited at most once from each entrance. -/
theorem Tracks.card_others_le (hTracks : Tracks source root base draft pending ledger)
    (hValid : source.Valid root) :
    (ledger.visits.filter fun visit => ¬ visit.2 ∈ (source.delegatesWithin root).toFinset).card ≤
      ((source.span [root]).card - (source.delegatesWithin root).toFinset.card) *
        ((source.delegatesWithin root).toFinset.card + 1) := by
  generalize hDelegates : (source.delegatesWithin root).toFinset = delegates
  have hSubset : (ledger.visits.filter fun visit => ¬ visit.2 ∈ delegates) ⊆
      insert none (delegates.image some) ×ˢ (source.span [root] \ delegates) := by
    rintro ⟨entrance, node⟩ hVisit
    obtain ⟨hVisit, hOther⟩ := Finset.mem_filter.mp hVisit
    have hEnters : source.Enters root entrance node := hTracks.entered _ hVisit
    refine Finset.mem_product.mpr
      ⟨?_, Finset.mem_sdiff.mpr ⟨hValid.mem_span hEnters.reaches, hOther⟩⟩
    obtain ⟨start, hStarts, -⟩ := hEnters
    cases hStarts with
    | root => exact Finset.mem_insert_self _ _
    | target hReaches hNode =>
        have hMem := mem_delegatesWithin.mpr ⟨hValid.mem_span hReaches, _, hNode⟩
        exact Finset.mem_insert_of_mem (Finset.mem_image_of_mem some (hDelegates ▸ hMem))
  have hInner : delegates ⊆ source.span [root] := by
    intro handle hHandle
    rw [← hDelegates] at hHandle
    exact (mem_delegatesWithin.mp hHandle).1
  calc (ledger.visits.filter fun visit => ¬ visit.2 ∈ delegates).card
      ≤ (insert none (delegates.image some) ×ˢ (source.span [root] \ delegates)).card :=
        Finset.card_le_card hSubset
    _ = (insert none (delegates.image some)).card *
          ((source.span [root]).card - delegates.card) := by
        rw [Finset.card_product, Finset.card_sdiff_of_subset hInner]
    _ ≤ (delegates.card + 1) * ((source.span [root]).card - delegates.card) := by
        refine Nat.mul_le_mul_right _ ((Finset.card_insert_le _ _).trans ?_)
        exact Nat.succ_le_succ Finset.card_image_le
    _ = ((source.span [root]).card - delegates.card) * (delegates.card + 1) := Nat.mul_comm _ _

/-- Every node is visited at most once from each entrance, and delegates only once. -/
theorem Tracks.card_visits_le (hTracks : Tracks source root base draft pending ledger)
    (hValid : source.Valid root) :
    ledger.visits.card ≤
      ((source.reachable [root]).size - (source.delegatesWithin root).length) *
        ((source.delegatesWithin root).length + 1) + (source.delegatesWithin root).length := by
  have hDelegates := hTracks.card_delegates_le
  have hOthers := hTracks.card_others_le hValid
  have hSplit := ledger.visits.card_filter_add_card_filter_not fun visit =>
    visit.2 ∈ (source.delegatesWithin root).toFinset
  rw [← card_span, ← card_delegatesWithin]
  omega

/-- If no node on a cycle has two entrances, then every node is visited at most once. -/
theorem Tracks.card_visits_le_of_separate
    (hTracks : Tracks source root base draft pending ledger) (hValid : source.Valid root)
    (hSeparate : source.Separate root) :
    ledger.visits.card ≤ (source.reachable [root]).size := by
  rw [← card_span]
  refine Finset.card_le_card_of_injOn Prod.snd (fun visit hVisit => ?_) ?_
  · exact hValid.mem_span (hTracks.entered visit hVisit).reaches
  · intro visit hVisit other hOther hSame
    refine Prod.ext ?_ hSame
    rcases hTracks.once visit hVisit other hOther hSame with hEntrance | ⟨hCyclic, child, hPlain⟩
    · exact hEntrance
    · exact hSeparate visit.2 child hCyclic hPlain visit.1 other.1 (hTracks.entered visit hVisit)
        (hSame ▸ hTracks.entered other hOther)

/-- Everything that a result reaches was built. -/
theorem Tracks.mem_built (hTracks : Tracks source root base draft pending ledger)
    {result handle : Handle} (hResult : result ∈ ledger.built)
    (hReaches : draft.grammar.Reaches result handle) : handle ∈ ledger.built := by
  induction hReaches with
  | refl => exact hResult
  | tail _ hChild ih =>
      obtain ⟨image, hImage, hParts⟩ := hTracks.closed _ ih
      exact hParts _ ((mem_successors hImage).mp hChild)

end Draft

namespace Engine

variable {Λ : Lexicon} {engine after : Engine Λ} {node result : Handle}

/-- The ledger of a compaction that has ended, with at most the nodes behind what was
remembered before to begin with. -/
theorem Coherent.tracks_of_run (hCoherent : engine.Coherent) (hValid : engine.grammar.Valid node)
    (hGuarded : engine.grammar.Guarded node) {known : List Handle}
    (hKnown : ∀ other ∈ engine.grammar.reachable [node], ∀ found,
      engine.tables.compact.peek? other = some found → found ∈ known)
    (hRun : (compact node).run engine = .ok result after) :
    ∃ base ledger, base ≤ (engine.grammar.reachable known).size ∧
      after.draft.Tracks engine.grammar node base [] ledger ∧ result ∈ ledger.built := by
  classical
  let built := (engine.grammar.span known).filter engine.grammar.Valid
  have hBase : built.card ≤ (engine.grammar.reachable known).size := by
    rw [← card_span]
    exact Finset.card_filter_le _ _
  have hTracks : engine.draft.Tracks engine.grammar node built.card [] ⟨∅, built⟩ := by
    refine ⟨fun handle hHandle => ?_, fun other found hReaches hFound => ?_, ?_, nofun, nofun,
      nofun⟩
    · obtain ⟨hSpan, hHandleValid⟩ := Finset.mem_filter.mp hHandle
      obtain ⟨image, hImage, -⟩ := hHandleValid.get?
      refine ⟨image, hImage, fun child hChild => Finset.mem_filter.mpr ⟨?_, ?_⟩⟩
      · obtain ⟨-, root, hRoot, hReaches⟩ := mem_span.mp hSpan
        obtain ⟨found, hFound, -⟩ := (hHandleValid.child hImage hChild).get?
        exact mem_span.mpr ⟨contains_eq_true_iff.mpr ⟨found, hFound⟩, root, hRoot,
          hReaches.trans (reaches_child hImage hChild)⟩
      · exact hHandleValid.child hImage hChild
    · have hResult := (hCoherent.recalled .compact other found hFound).2.valid
      obtain ⟨image, hImage, -⟩ := hResult.get?
      have hOther : other ∈ engine.grammar.reachable [node] :=
        Std.TreeSet.mem_toList.mp (List.mem_toFinset.mp (hValid.mem_span hReaches))
      exact Finset.mem_filter.mpr ⟨mem_span.mpr ⟨contains_eq_true_iff.mpr ⟨image, hImage⟩, found,
        hKnown other hOther found hFound, Reaches.refl found⟩, hResult⟩
    · simp
  have hPending : Draft.Pending engine.grammar engine.draft none [] node :=
    ⟨nofun, nofun, nofun, nofun⟩
  obtain ⟨ledger, hLedger, hResult, -⟩ := (hCoherent.compacts_of_run hValid hRun).tracks hGuarded
    ⟨node, .root, Relation.ReflTransGen.refl⟩ hPending hTracks
  exact ⟨built.card, ledger, hBase, hLedger, hResult⟩

/-- A compacted node reaches at most the nodes behind what was remembered before, and one for
every delegate and for every other node and every entrance to it.  If no node on a cycle has two
entrances, then one for every node is enough. -/
theorem compact_growth_bounded (hReached : engine.Reached)
    (hLimit : 1 ≤ engine.configuration.forestPassLimit)
    (hNode : engine.grammar.validate node = .ok ())
    (hGuarded : engine.grammar.Guarded node) (known : List Handle)
    (hKnown : ∀ other ∈ engine.grammar.reachable [node], ∀ found,
      engine.tables.compact.peek? other = some found → found ∈ known) :
    ∃ compacted after, (compact node).run engine = .ok compacted after ∧
      (after.grammar.reachable [compacted]).size ≤
        ((engine.grammar.reachable [node]).size - (engine.grammar.delegatesWithin node).length) *
            ((engine.grammar.delegatesWithin node).length + 1) +
          (engine.grammar.delegatesWithin node).length +
          (engine.grammar.reachable known).size ∧
      (engine.grammar.Separate node → (after.grammar.reachable [compacted]).size ≤
        (engine.grammar.reachable [node]).size + (engine.grammar.reachable known).size) := by
  have hValid : engine.grammar.Valid node := validate_eq_ok_iff.mp hNode
  obtain ⟨compacted, after, hRun, -⟩ :=
    hReached.coherent.exists_shrunk hReached.condensed hLimit hValid hGuarded
  obtain ⟨base, ledger, hBase, hTracks, hResult⟩ :=
    hReached.coherent.tracks_of_run hValid hGuarded hKnown hRun
  have hSize : (after.grammar.reachable [compacted]).size ≤ ledger.visits.card + base := by
    have hSubset : after.grammar.span [compacted] ⊆ ledger.built := by
      intro handle hHandle
      obtain ⟨-, root, hRoot, hReaches⟩ := mem_span.mp hHandle
      obtain rfl := List.mem_singleton.mp hRoot
      exact hTracks.mem_built hResult hReaches
    calc (after.grammar.reachable [compacted]).size
        = (after.grammar.span [compacted]).card := (after.grammar.card_span [compacted]).symm
      _ ≤ ledger.built.card := Finset.card_le_card hSubset
      _ ≤ ledger.visits.card + base := hTracks.room
  have hVisits := hTracks.card_visits_le hValid
  refine ⟨compacted, after, hRun, by omega, fun hSeparate => ?_⟩
  have hOnce := hTracks.card_visits_le_of_separate hValid hSeparate
  omega

theorem compact_growth_bounded_overgrown :
    Overgrown.engine.Reached ∧ 1 ≤ Overgrown.engine.configuration.forestPassLimit ∧
      Overgrown.engine.grammar.validate Overgrown.rule = .ok () ∧
      Overgrown.engine.grammar.Guarded Overgrown.rule ∧
      (∀ other ∈ Overgrown.engine.grammar.reachable [Overgrown.rule], ∀ found,
        Overgrown.engine.tables.compact.peek? other = some found → found ∈ []) ∧
      Overgrown.engine.grammar.Separate Overgrown.rule ∧
      ∃ compacted after, (compact Overgrown.rule).run Overgrown.engine = .ok compacted after ∧
        (after.grammar.reachable [compacted]).size ≤ 11 := by
  have hUnknown : ∀ other ∈ Overgrown.engine.grammar.reachable [Overgrown.rule], ∀ found,
      Overgrown.engine.tables.compact.peek? other = some found → found ∈ [] := nofun
  have hOnly : ∀ handle ∈ Overgrown.nodes,
      (Overgrown.grammar.get? handle).any Node.isDelegate = true → handle = Overgrown.rule := by
    decide
  have hSeparate : Overgrown.grammar.Separate Overgrown.rule :=
    separate_of_delegate rfl fun handle hReaches =>
      hOnly handle (mem_of_layered Overgrown.layered List.mem_cons_self hReaches)
  obtain ⟨compacted, after, hRun, -, hSize⟩ := compact_growth_bounded Overgrown.reached
    (by decide) Overgrown.validate_rule Overgrown.guarded_rule [] hUnknown
  have hNodes : (Overgrown.engine.grammar.reachable [Overgrown.rule]).size +
      (Overgrown.engine.grammar.reachable []).size = 11 := by decide +kernel
  exact ⟨Overgrown.reached, by decide, Overgrown.validate_rule, Overgrown.guarded_rule, hUnknown,
    hSeparate, compacted, after, hRun, hNodes ▸ hSize hSeparate⟩

end Engine

namespace Coil

/-- A rule that is a letter or the rule itself, entered at its body. -/
def body : Handle := ⟨4, 0⟩

/-- The nodes of the rule: a letter, or what the delegate stands for. -/
def untied : Grammar Lexicon.characters :=
  let (letter, grammar) := Grammar.initial.literal 'a'
  let (rule, grammar) := grammar.delegate
  (grammar.union letter rule).2

/-- A grammar with a cycle of a union and a delegate. -/
def grammar : Grammar Lexicon.characters := untied.patch ⟨3, 0⟩ (.delegate (some body))

/-- What the body reaches. -/
def nodes : List Handle := [body, ⟨2, 0⟩, ⟨3, 0⟩]

theorem layered : ∀ handle ∈ nodes, grammar.layered nodes handle = true := by decide

/-- A new engine over the grammar. -/
def engine : Engine Lexicon.characters := { grammar := grammar }

theorem reached : engine.Reached := by
  have hUntied : untied.Built := .alloc _ _ (.alloc _ _ (.alloc _ _ .initial))
  have hSet : untied.setTarget ⟨3, 0⟩ body = .ok grammar := rfl
  exact .fresh {} _ (.setTarget hUntied hSet)

end Coil

/-- A compacted node may reach more nodes than the node that it was made from. -/
theorem Engine.compact_enlarges :
    Coil.engine.Reached ∧ 1 ≤ Coil.engine.configuration.forestPassLimit ∧
      Coil.engine.grammar.validate Coil.body = .ok () ∧ Coil.engine.grammar.Guarded Coil.body ∧
      ∃ compacted after, (compact Coil.body).run Coil.engine = .ok compacted after ∧
        (Coil.engine.grammar.reachable [Coil.body]).size = 3 ∧
        (after.grammar.reachable [compacted]).size = 4 := by
  have hValid : Coil.grammar.Valid Coil.body := valid_of_layered Coil.layered List.mem_cons_self
  have hGuarded : Coil.grammar.Guarded Coil.body :=
    guarded_of_layered Coil.layered List.mem_cons_self
  have hSize : (Coil.engine.grammar.reachable [Coil.body]).size = 3 := by decide +kernel
  have hLarger : ∀ compacted ∈ (compact Coil.body).run' Coil.engine,
      ((Coil.engine.afterwards (compact Coil.body)).grammar.reachable [compacted]).size = 4 := by
    decide +kernel
  obtain ⟨compacted, after, hRun, -⟩ := Coil.reached.coherent.exists_shrunk
    Coil.reached.condensed (by decide) hValid hGuarded
  have hAfter : Coil.engine.afterwards (compact Coil.body) = after := afterwards_of_run hRun
  rw [hAfter] at hLarger
  exact ⟨Coil.reached, by decide, validate_eq_ok_iff.mpr hValid, hGuarded, compacted, after, hRun,
    hSize, hLarger compacted (run'_eq_some hRun)⟩

end DerivativeParsing
