import Bisection.Pool
import Bisection.Terminal.Controls
import Bisection.Threshold

/-!
# Options of the command line

Each option is given at most once, in any order, as `--name value` or
`--name=value`. `Options.parse` reads them, and `UsageError.message` says what is
wrong with arguments that it does not take.
-/

namespace Bisection.Command
set_option autoImplicit false

/-- What to run. -/
inductive Scenario where
  | sum | summary | select | cumulate | sort | findAny
deriving DecidableEq, Repr

/-- The options by name. -/
inductive OptionName where
  | numThreads | cpuPinning | threshold | scenario | inputSize | density
deriving DecidableEq, Repr

/-- All options. -/
def OptionName.all : List OptionName :=
  [.numThreads, .cpuPinning, .threshold, .scenario, .inputSize, .density]

/-- The name of an option. -/
def OptionName.name : OptionName → String
  | numThreads => "num-threads"
  | cpuPinning => "cpu-pinning"
  | threshold => "threshold"
  | scenario => "scenario"
  | inputSize => "input-size"
  | density => "density"

/-- The name of an option's value. -/
def OptionName.valueName : OptionName → String
  | numThreads => "NUM_THREADS"
  | cpuPinning => "CPU_PINNING"
  | threshold => "THRESHOLD"
  | scenario => "SCENARIO"
  | inputSize => "INPUT_SIZE"
  | density => "DENSITY"

/-- An option with the name of its value. -/
def OptionName.usage (o : OptionName) : String := s!"--{o.name} <{o.valueName}>"

/-- The option of a name. -/
def OptionName.ofName? (name : String) : Option OptionName := all.find? (·.name = name)

/-- Why a text is not taken for a number. -/
inductive NumberError where
  | empty | invalidDigit | tooLarge | zero
deriving DecidableEq, Repr

/-- The message for it. -/
def NumberError.message : NumberError → String
  | empty => "cannot parse integer from empty string"
  | invalidDigit => "invalid digit found in string"
  | tooLarge => "number too large to fit in target type"
  | zero => "number would be zero for non-zero type"

/-- Reads the digits of a size behind those that make up `n`. The first digit that is none or makes
it too large decides. -/
def readDigits (n : Nat) : List Char → Except NumberError Nat
  | [] => .ok n
  | c :: cs =>
    if !c.isDigit then .error .invalidDigit
    else
      let n := n * 10 + (c.toNat - '0'.toNat)
      if maxSize < n then .error .tooLarge else readDigits n cs

/-- Reads a size: digits, behind at most one plus sign. -/
def readSize (s : String) : Except NumberError Nat :=
  match s.toList with
  | [] => .error .empty
  | ['+'] => .error .invalidDigit
  | '+' :: cs => readDigits 0 cs
  | cs => readDigits 0 cs

/-- Reads a size that is not zero. -/
def readPositive (s : String) : Except NumberError Threshold := do
  match Threshold.ofNat? (← readSize s) with
  | some t => pure t
  | none => .error .zero

/-- What is wrong with the arguments. -/
inductive UsageError where
  | missingScenario
  | missingValue (option : OptionName)
  | notListed (option : OptionName) (value : String)
  | badNumber (option : OptionName) (value : String) (e : NumberError)
  | repeated (option : OptionName)
  | unexpected (argument : String)
deriving DecidableEq, Repr

open Terminal in
/-- The first line of the message for it. What was given is highlighted. -/
def UsageError.message : UsageError → String
  | missingScenario => "error: the following required arguments were not provided:"
  | missingValue o => s!"error: a value is required for '{o.usage}' but none was supplied"
  | notListed o v => s!"error: invalid value '{highlighted v}' for '{o.usage}'"
  | badNumber o v e => s!"error: invalid value '{highlighted v}' for '{o.usage}': {e.message}"
  | repeated o => s!"error: the argument '{o.usage}' cannot be used multiple times"
  | unexpected a => s!"error: unexpected argument '{highlighted a}' found"

/-- The scenario of a name. -/
def Scenario.ofName? : String → Option Scenario
  | "sum" => some sum
  | "summary" => some summary
  | "select" => some select
  | "cumulate" => some cumulate
  | "sort" => some sort
  | "find-any" => some findAny
  | _ => none

/-- The way of pinning of a name. -/
def pinningOfName? : String → Option Pinning
  | "no" => some .never
  | "if-supported" => some .ifSupported
  | "always" => some .always
  | _ => none

/-- The options read so far. -/
structure Given where
  numThreads : Option Threshold := none
  cpuPinning : Option Pinning := none
  threshold : Option Threshold := none
  scenario : Option Scenario := none
  inputSize : Option Nat := none
  density : Option Nat := none

/-- Whether an option was read. -/
def Given.has (g : Given) : OptionName → Bool
  | .numThreads => g.numThreads.isSome
  | .cpuPinning => g.cpuPinning.isSome
  | .threshold => g.threshold.isSome
  | .scenario => g.scenario.isSome
  | .inputSize => g.inputSize.isSome
  | .density => g.density.isSome

/-- A value out of a list. An empty value counts as missing. -/
def listed {α : Type} (o : OptionName) (v : String) (ofName? : String → Option α) :
    Except UsageError α :=
  match ofName? v with
  | some a => .ok a
  | none => .error (if v.isEmpty then .missingValue o else .notListed o v)

/-- A number, or what is wrong with it. -/
def numeric {α : Type} (o : OptionName) (v : String) (r : Except NumberError α) :
    Except UsageError α :=
  r.mapError (.badNumber o v)

/-- Takes the value of an option. -/
def Given.take (g : Given) (o : OptionName) (v : String) : Except UsageError Given := do
  if g.has o then .error (.repeated o)
  else match o with
    | .numThreads => do pure { g with numThreads := some (← numeric o v (readPositive v)) }
    | .cpuPinning => do pure { g with cpuPinning := some (← listed o v pinningOfName?) }
    | .threshold => do pure { g with threshold := some (← numeric o v (readPositive v)) }
    | .scenario => do pure { g with scenario := some (← listed o v Scenario.ofName?) }
    | .inputSize => do pure { g with inputSize := some (← numeric o v (readSize v)) }
    | .density => do pure { g with density := some (← numeric o v (readSize v)) }

/-- An argument by its form. -/
inductive Argument where
  /-- `--name` or `--name=value`. -/
  | long (name : String) (value : Option String)
  /-- `-x` and whatever follows it. -/
  | short (c : Char)
  /-- `--`, after which nothing is an option. -/
  | escape
  | plain
deriving DecidableEq, Repr

/-- A text up to the first equals sign, and what is behind the sign. -/
def cutAtEquals (cs : List Char) : String × Option String :=
  match cs.span (· ≠ '=') with
  | (name, _ :: value) => (String.ofList name, some (String.ofList value))
  | (name, []) => (String.ofList name, none)

/-- The form of an argument. -/
def Argument.ofText (s : String) : Argument :=
  match s.toList with
  | ['-', '-'] => .escape
  | '-' :: '-' :: cs =>
    let (name, value) := cutAtEquals cs
    .long name value
  | '-' :: c :: _ => .short c
  | _ => .plain

/-- Reads arguments. `pending` is an option whose value is to follow. -/
def readArguments (g : Given) (pending : Option OptionName) : List String → Except UsageError Given
  | [] => match pending with
    | some o => .error (.missingValue o)
    | none => .ok g
  | a :: rest => match Argument.ofText a, pending with
    | .plain, some o => do readArguments (← g.take o a) none rest
    | .plain, none => .error (.unexpected a)
    | .short c, _ => .error (.unexpected ("-" ++ c.toString))
    | .escape, some o => match rest with
      | [] => .error (.missingValue o)
      | b :: _ => .error (.unexpected b)
    | .escape, none => match rest with
      | [] => .ok g
      | b :: _ => .error (.unexpected b)
    | .long name value, pending => match OptionName.ofName? name, pending, value with
      | none, _, _ => .error (.unexpected ("--" ++ name))
      | some _, some o, _ => .error (.missingValue o)
      | some o, none, some v => do readArguments (← g.take o v) none rest
      | some o, none, none => readArguments g (some o) rest

/-- The options of a run. -/
structure Options where
  workers : Workers
  pinning : Pinning
  threshold : Option Threshold
  scenario : Scenario
  inputSize : Nat
  density : Nat

/-- The size of the input unless one is given. -/
def defaultInputSize : Nat := 1000000

/-- The number of matches to search for unless one is given. -/
def defaultDensity : Nat := 1

/-- Reads the options from the arguments. -/
def Options.parse (args : List String) : Except UsageError Options := do
  let g ← readArguments {} none args
  match g.scenario with
  | none => .error .missingScenario
  | some scenario => pure {
      workers := match g.numThreads with
        | some n => .count n.val
        | none => .available
      pinning := g.cpuPinning.getD .ifSupported
      threshold := g.threshold
      scenario := scenario
      inputSize := g.inputSize.getD defaultInputSize
      density := g.density.getD defaultDensity }

end Bisection.Command
