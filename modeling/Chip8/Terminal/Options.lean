import Chip8.Settings

/-!
# The command line

One ROM path and options in any order. Arguments are read from left to right. A value given as an
argument of its own is only looked at when the next known argument, or the end, settles it, so an
unknown argument further on is reported first.
-/

namespace Chip8.Terminal

open Number

structure Options where
  rom : String
  cpuRate : Single
  timerRate : Single
  seed : Option UInt64
  stackLimit : Option Nat
  log : Option String
  verbosity : Nat
  deriving DecidableEq, Repr

inductive UsageError where
  | missingRom
  | unknownArgument
  /-- An option without its value, or an empty path. -/
  | missingValue
  /-- A value that is no number of the kind asked for. -/
  | invalidValue
  /-- A value for an option that takes none. -/
  | unexpectedValue
  | repeated
  /-- Not an error: the user asks for help. -/
  | help
  deriving DecidableEq, Repr

/-- The options that take a value. -/
inductive Setting where
  | cpuRate
  | timerRate
  | seed
  | stackLimit
  | log
  deriving DecidableEq, Repr

def Setting.ofName? : String → Option Setting
  | "hz" => some cpuRate
  | "timer-hz" => some timerRate
  | "seed" => some seed
  | "stack-limit" => some stackLimit
  | "log" => some log
  | _ => none

/-- A 64-bit number: digits, after an optional plus sign. -/
def integer? (s : String) : Option Nat :=
  let digits := match s.toList with
    | '+' :: cs => cs
    | cs => cs
  if digits ≠ [] ∧ digits.all Char.isDigit ∧ Numeral.valueOf digits < UInt64.size then
    some (Numeral.valueOf digits)
  else none

/-! ## What has been read so far -/

structure Draft where
  rom : Option String := none
  cpuRate : Option Single := none
  timerRate : Option Single := none
  seed : Option UInt64 := none
  stackLimit : Option Nat := none
  log : Option String := none
  verbosity : Nat := 0
  deriving DecidableEq, Repr

/-- What has been read but not settled. -/
inductive Pending where
  | nothing
  | rom (path : String)
  | awaited (setting : Setting)
  | given (setting : Setting) (value : String)
  deriving DecidableEq, Repr

namespace Draft

def isSet (d : Draft) : Setting → Bool
  | .cpuRate => d.cpuRate.isSome
  | .timerRate => d.timerRate.isSome
  | .seed => d.seed.isSome
  | .stackLimit => d.stackLimit.isSome
  | .log => d.log.isSome

/-- Goes on with a value that could be read. -/
def valid {α : Type} (value : Option α) (put : α → Draft) : Except UsageError Draft :=
  match value with
  | some a => .ok (put a)
  | none => .error .invalidValue

/-- The draft with a value filled in, unless the text is no value of that kind. -/
def fill (d : Draft) (setting : Setting) (value : String) : Except UsageError Draft :=
  match setting with
  | .cpuRate => valid (Rate.parse? value) fun rate => { d with cpuRate := some rate }
  | .timerRate => valid (Rate.parse? value) fun rate => { d with timerRate := some rate }
  | .seed => valid (integer? value) fun n => { d with seed := some (UInt64.ofNat n) }
  | .stackLimit => valid (integer? value) fun n => { d with stackLimit := some n }
  | .log => if value = "" then .error .missingValue else .ok { d with log := some value }

/-- An option may be given once. That is checked before its value. -/
def assign (d : Draft) (setting : Setting) (value : String) : Except UsageError Draft :=
  if d.isSet setting then .error .repeated else d.fill setting value

def settle (d : Draft) : Pending → Except UsageError Draft
  | .nothing => .ok d
  | .rom path => if path = "" then .error .missingValue else .ok { d with rom := some path }
  | .awaited _ => .error .missingValue
  | .given setting value => d.assign setting value

def moreVerbose (d : Draft) : Draft := { d with verbosity := min 255 (d.verbosity + 1) }

end Draft

/-! ## Reading arguments -/

structure Reader where
  draft : Draft := {}
  pending : Pending := .nothing
  /-- After `--` everything is a path. -/
  pathsOnly : Bool := false
  deriving DecidableEq, Repr

namespace Reader

def hasRom (r : Reader) : Bool :=
  r.draft.rom.isSome || match r.pending with
    | .rom _ => true
    | _ => false

/-- Settles what is pending and goes on with the draft. -/
def update (r : Reader) (next : Draft → Except UsageError Draft) : Except UsageError Reader := do
  let draft ← r.draft.settle r.pending
  let draft ← next draft
  return { r with draft, pending := .nothing }

/-- Settles what is pending and leaves something else to be settled. -/
def defer (r : Reader) (pending : Pending) : Except UsageError Reader := do
  let draft ← r.draft.settle r.pending
  return { r with draft, pending }

def path (r : Reader) (arg : String) : Except UsageError Reader :=
  if r.hasRom then .error .unknownArgument else r.defer (.rom arg)

/-- Reads `--name` or `--name=value`, given without the dashes. -/
def long (r : Reader) (body : List Char) : Except UsageError Reader :=
  let name := String.ofList (body.takeWhile (· ≠ '='))
  let value := match body.dropWhile (· ≠ '=') with
    | [] => none
    | _ :: value => some (String.ofList value)
  match name, value with
  | "help", none => r.update fun _ => .error .help
  | "verbose", none => r.update fun d => .ok d.moreVerbose
  | "help", some _ | "verbose", some _ => .error .unexpectedValue
  | _, _ =>
    match Setting.ofName? name, value with
    | none, _ => .error .unknownArgument
    | some setting, none => r.defer (.awaited setting)
    | some setting, some value => r.update (·.assign setting value)

/-- Short options in one argument, without the dash. The first that takes a value takes the rest. -/
def short (r : Reader) : List Char → Except UsageError Reader
  | [] => .ok r
  | 'h' :: _ => r.update fun _ => .error .help
  | 'v' :: cs => do (← r.update fun d => .ok d.moreVerbose).short cs
  | ['l'] => r.defer (.awaited .log)
  | 'l' :: '=' :: value => r.update (·.assign .log (String.ofList value))
  | 'l' :: value => r.update (·.assign .log (String.ofList value))
  | _ => .error .unknownArgument

def argument (r : Reader) (arg : String) : Except UsageError Reader :=
  if r.pathsOnly then r.path arg
  else match arg.toList with
    | ['-', '-'] => .ok { r with pathsOnly := true }
    | '-' :: '-' :: body => r.long body
    | '-' :: c :: cs => r.short (c :: cs)
    | _ => match r.pending with
      | .awaited setting => .ok { r with pending := .given setting arg }
      | _ => r.path arg

end Reader

namespace Options

/-- Reads the arguments that follow the program's name. -/
def parse (args : List String) : Except UsageError Options := do
  let reader ← args.foldlM Reader.argument {}
  let draft ← reader.draft.settle reader.pending
  match draft.rom with
  | none => .error .missingRom
  | some rom => .ok {
      rom
      cpuRate := draft.cpuRate.getD Rate.standardCpu
      timerRate := draft.timerRate.getD Rate.standardTimer
      seed := draft.seed
      stackLimit := draft.stackLimit
      log := draft.log
      verbosity := draft.verbosity }

def settings (o : Options) : Settings where
  cpuRate := o.cpuRate
  timerRate := o.timerRate
  seed := o.seed
  stackLimit := o.stackLimit

/-- What is said when the log file cannot be written. -/
def logFailure (path : String) : String := "Failed to create log file '" ++ path ++ "'"

end Options

end Chip8.Terminal
