import DerivativeParsing.Grammar.Reachability

namespace DerivativeParsing

/-!
# Collection of derived nodes

Derivations leave nodes behind that nothing refers to any more.  A collection
frees every derived node that can be reached neither from the given roots nor
from a node of the grammar's author, and then begins a new epoch, so that the
handles of freed nodes stay stale when their slots are filled again.
-/

namespace Grammar

variable {Λ : Lexicon}

/-- The nodes of the grammar's author, which every collection keeps. -/
def pinned (grammar : Grammar Λ) : List Handle :=
  grammar.handles.filter fun handle => grammar.origin? handle == some .grammar

/-- Whether a collection that has found the given nodes alive keeps a slot. -/
def survives (live : Std.TreeSet Handle) (index : Nat) (slot : Slot Λ) : Bool :=
  slot.origin == .grammar || live.contains ⟨index, slot.generation⟩

/-- Free every derived node that is reachable neither from the roots nor from a
node of the grammar's author, and begin the next epoch.  The number of freed
nodes comes with the grammar. -/
def collect (grammar : Grammar Λ) (roots : List Handle) : Nat × Grammar Λ :=
  let live := grammar.reachable (roots ++ grammar.pinned)
  ((Slotted.rejected grammar.arena (survives live)).length,
    { arena := Slotted.sweep grammar.arena (survives live)
      epoch := (grammar.epoch + 1) % epochs })

end Grammar

end DerivativeParsing
