import DerivativeParsing.Arena
import DerivativeParsing.Grammar.Error
import DerivativeParsing.Node

namespace DerivativeParsing

/-!
# Grammars

A grammar owns its nodes in an arena and refers to them by handles, so its graph
may be cyclic.  Of the arena only what every slotted store does is used.  A new node is stamped with the current epoch, which every
collection advances; a handle is live as long as its slot holds a node with the
handle's stamp.

Nodes never change once they are built, with one exception: a delegate without a
target can be given one, by `setTarget` when its author closes a rule, and by
`fill` when a derivation closes a knot it has opened with a placeholder.
-/

/-- The content of one slot: a node, who built it and in which epoch. -/
structure Slot (Λ : Lexicon) where
  node : Node Λ
  origin : Origin
  generation : Nat

/-- A graph of nodes. -/
structure Grammar (Λ : Lexicon) where
  arena : Arena (Slot Λ)
  epoch : Nat

/-- The handle of the node without strings, which every grammar holds. -/
def Handle.empty : Handle := ⟨0, 0⟩

/-- The handle of the node of a plain empty match, which every grammar holds. -/
def Handle.eps : Handle := ⟨1, 0⟩

/-- A derived delegate that stands in for a result while it is being built. -/
structure Placeholder where
  handle : Handle
deriving DecidableEq

namespace Grammar

variable {Λ : Lexicon}

/-- The number of distinct epochs; after the last one the count starts again. -/
def epochs : Nat := 4294967296

/-- The slot a handle refers to, if the handle is live. -/
def slot? (grammar : Grammar Λ) (handle : Handle) : Option (Slot Λ) :=
  (Slotted.get? grammar.arena handle.index).filter fun slot =>
    slot.generation == handle.generation

/-- The node a handle refers to, if the handle is live. -/
def get? (grammar : Grammar Λ) (handle : Handle) : Option (Node Λ) :=
  (grammar.slot? handle).map Slot.node

/-- Whether a handle is live. -/
def contains (grammar : Grammar Λ) (handle : Handle) : Bool :=
  (grammar.slot? handle).isSome

/-- Who built the node a handle refers to, if the handle is live. -/
def origin? (grammar : Grammar Λ) (handle : Handle) : Option Origin :=
  (grammar.slot? handle).map Slot.origin

/-- The number of nodes. -/
def size (grammar : Grammar Λ) : Nat := Slotted.size grammar.arena

/-- The number of slots, vacant ones included. -/
def capacity (grammar : Grammar Λ) : Nat := Slotted.capacity grammar.arena

/-- A bound on the depth of a descent that enters no delegate twice: between two
delegates it passes every slot at most once. -/
def descentBound (grammar : Grammar Λ) : Nat :=
  (grammar.capacity + 1) * (grammar.capacity + 1)

/-- The handles of all nodes, in ascending order. -/
def handles (grammar : Grammar Λ) : List Handle :=
  (Slotted.occupied grammar.arena).filterMap fun index =>
    (Slotted.get? grammar.arena index).map fun slot => ⟨index, slot.generation⟩

/-- The handle that the next node gets. -/
def nextHandle (grammar : Grammar Λ) : Handle :=
  ⟨Slotted.next grammar.arena, grammar.epoch⟩

/-- Build a node. -/
def alloc (grammar : Grammar Λ) (node : Node Λ) (origin : Origin) :
    Handle × Grammar Λ :=
  (grammar.nextHandle,
    { arena := Slotted.insert grammar.arena ⟨node, origin, grammar.epoch⟩
      epoch := grammar.epoch })

/-- The grammar that holds only the node without strings and the node of a plain
empty match. -/
def initial : Grammar Λ :=
  let bare : Grammar Λ := { arena := Slotted.empty, epoch := 0 }
  let (_, grammar) := bare.alloc Node.empty .grammar
  let (_, grammar) := grammar.alloc (Node.eps (Forest.singleton Tree.nil)) .grammar
  grammar

instance : Inhabited (Grammar Λ) := ⟨initial⟩

/-- A node that accepts exactly one token. -/
def literal (grammar : Grammar Λ) (token : Λ.Token) : Handle × Grammar Λ :=
  grammar.alloc (.token (.literal token)) .grammar

/-- A node that accepts every single token that a predicate accepts. -/
def matching (grammar : Grammar Λ) (name : Λ.Predicate) : Handle × Grammar Λ :=
  grammar.alloc (.token (.predicate name)) .grammar

/-- A node for either of two languages. -/
def union (grammar : Grammar Λ) (left right : Handle) : Handle × Grammar Λ :=
  grammar.alloc (.union left right) .grammar

/-- A node for one language after another. -/
def sequence (grammar : Grammar Λ) (first second : Handle) : Handle × Grammar Λ :=
  grammar.alloc (.sequence first second) .grammar

/-- A node for any number of strings of a language. -/
def repetition (grammar : Grammar Λ) (inner : Handle) : Handle × Grammar Λ :=
  grammar.alloc (.repetition inner) .grammar

/-- A node for the same language with its trees passed through a reducer. -/
def reduction (grammar : Grammar Λ) (inner : Handle) (reducer : Reducer Λ) :
    Handle × Grammar Λ :=
  grammar.alloc (.reduction inner reducer) .grammar

/-- A node for a rule that is defined later, or that refers to itself. -/
def delegate (grammar : Grammar Λ) : Handle × Grammar Λ :=
  grammar.alloc (.delegate none) .grammar

/-- A node for the empty string that carries the given trees. -/
def epsWith (grammar : Grammar Λ) (forest : Forest Λ.Token) (origin : Origin) :
    Handle × Grammar Λ :=
  grammar.alloc (.eps forest) origin

/-- Replace the node of a live handle, keeping its origin and generation. -/
def patch (grammar : Grammar Λ) (handle : Handle) (node : Node Λ) : Grammar Λ :=
  match grammar.slot? handle with
  | some slot =>
      { grammar with
        arena := Slotted.replace grammar.arena handle.index { slot with node := node } }
  | none => grammar

/-- Give a delegate its target, which happens once per delegate. -/
def setTarget (grammar : Grammar Λ) (delegate target : Handle) :
    Except GrammarError (Grammar Λ) :=
  if grammar.contains target then
    match grammar.get? delegate with
    | none => .error (.staleHandle delegate)
    | some (.delegate none) => .ok (grammar.patch delegate (.delegate (some target)))
    | some (.delegate (some current)) =>
        .error (.delegateAlreadySet delegate current)
    | some _ => .error (.notADelegate delegate)
  else .error (.staleHandle target)

/-- Open a knot: a derived delegate whose target is not known yet. -/
def placeholder (grammar : Grammar Λ) : Placeholder × Grammar Λ :=
  let (handle, grammar) := grammar.alloc (.delegate none) .derived
  (⟨handle⟩, grammar)

/-- Close a knot: point the placeholder's node at the target, if it is still
there. -/
def fill (grammar : Grammar Λ) (placeholder : Placeholder) (target : Handle) :
    Grammar Λ :=
  grammar.patch placeholder.handle (.delegate (some target))

/-- Follow delegates from a handle for at most `fuel` steps, and stop before a
target that was passed already. -/
def resolveFrom (grammar : Grammar Λ) :
    (fuel : Nat) → (passed : List Handle) → Handle → Handle
  | 0, _, handle => handle
  | fuel + 1, passed, handle =>
      match grammar.get? handle with
      | some (.delegate (some target)) =>
          if target ∈ passed then handle
          else grammar.resolveFrom fuel (handle :: passed) target
      | _ => handle

/-- Follow delegates until a node of another kind, a delegate without a target, a
stale handle, or the end of a cycle made of delegates alone.  Every step passes
another slot, so the number of slots bounds the way. -/
def resolve (grammar : Grammar Λ) (handle : Handle) : Handle :=
  grammar.resolveFrom (grammar.capacity + 1) [] handle

end Grammar

end DerivativeParsing
