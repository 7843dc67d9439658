import DerivativeParsing.Diagnostic

namespace DerivativeParsing

/-!
# Configurations

Three knobs tune a parser.  A configuration that is not given takes the default
of every knob.
-/

/-- The knobs of a parser. -/
structure Configuration where
  /-- Whether parsing compacts the grammar after every token. -/
  compact : Bool := true
  /-- After how many tokens derived nodes are collected; never if zero. -/
  collectInterval : Nat := 64
  /-- The least number of passes that a forest query may take; any number if
  zero. -/
  forestPassLimit : Nat := 16
deriving DecidableEq

/-- Why a configuration was refused. -/
inductive ConfigurationError where
  | invalid
deriving DecidableEq

/-- The wording of the error. -/
def ConfigurationError.diagnostic : ConfigurationError → Diagnostic
  | invalid =>
      { message := "Invalid engine configuration: "
        code := "brzo_parse::invalid_config"
        help := some ("known keys are `compact`, `collect_interval` " ++
          "and `forest_pass_limit`") }

namespace Configuration

/-- The configuration with every knob at its default. -/
def standard : Configuration := {}

instance : Inhabited Configuration := ⟨standard⟩

/-- Choose whether parsing compacts. -/
def withCompaction (configuration : Configuration) (compact : Bool) : Configuration :=
  { configuration with compact := compact }

/-- Choose after how many tokens derived nodes are collected. -/
def withCollectInterval (configuration : Configuration) (interval : Nat) :
    Configuration :=
  { configuration with collectInterval := interval }

/-- Choose the least number of passes that a forest query may take. -/
def withForestPassLimit (configuration : Configuration) (limit : Nat) :
    Configuration :=
  { configuration with forestPassLimit := limit }

end Configuration

end DerivativeParsing
