import Chip8.Machine.Journal
import Chip8.Terminal.Options
import Chip8.Terminal.Session
import Chip8.Terminal.View

/-!
# The terminal program

Reads the ROM and the options, and then plays: a frame of instructions, a picture, a key, again.
Everything that is decided is decided elsewhere. Keys arrive as the terminal delivers them, so it
should be in raw mode.
-/

namespace Chip8.Terminal

open Number

def usage : String :=
  "Usage: chip8 [OPTIONS] <ROM_PATH>\n\n" ++
  "Terminal CHIP-8 interpreter. Keys 1-4, Q-R, A-F, Z-V map to CHIP-8 keys. " ++
  "Escape or Ctrl+C exits.\n\n" ++
  "  --hz <HZ>                    Instructions executed per second [default: 700]\n" ++
  "  --timer-hz <TIMER_HZ>        Timer decrements per second [default: 1]\n" ++
  "  --seed <SEED>                Seed for the random number generator\n" ++
  "  --stack-limit <STACK_LIMIT>  Maximum subroutine nesting depth\n" ++
  "  -l, --log <FILE>             Write log output to this file\n" ++
  "  -v, --verbose                Increase log verbosity (-v debug, -vv trace)\n" ++
  "  -h, --help                   Print help"

def UsageError.message : UsageError → String
  | missingRom => "error: the ROM path is missing"
  | unknownArgument => "error: unexpected argument found"
  | missingValue => "error: a value is required"
  | invalidValue => "error: invalid value"
  | unexpectedValue => "error: unexpected value"
  | repeated => "error: an option cannot be used multiple times"
  | help => usage

/-! ## Terminal input and output -/

/-- The key that a byte of raw input stands for. -/
def keyEvent (b : UInt8) : KeyEvent :=
  if b = 27 then { code := .escape }
  else if b = 3 then { code := .char 'c', control := true }
  else { code := .char (Char.ofNat b.toNat) }

def Colour.escape : Colour → String
  | plain => "\x1b[39m"
  | green => "\x1b[32m"
  | red => "\x1b[31m"

def renderRow (row : List Cell) : String :=
  String.join (row.map fun c => c.colour.escape ++ c.glyph.toString)

def renderRows (rows : List (List Cell)) : String :=
  "\x1b[H" ++ "\r\n".intercalate (rows.map renderRow)

/-- The size that the environment names, or the smallest that shows everything. -/
def terminalSize : IO (Nat × Nat) := do
  let read := fun (name : String) (least : Nat) => do
    return ((← IO.getEnv name).bind String.toNat?).getD least
  return (← read "COLUMNS" View.minWidth, ← read "LINES" View.minHeight)

/-! ## Playing -/

structure Host where
  log : Option IO.FS.Handle
  verbosity : Nat

def Host.write (host : Host) (entries : List Entry) : IO Unit := do
  if let some file := host.log then
    for e in entries do
      if e.level.shownAt host.verbosity then file.putStrLn e.line
    file.flush

def elapsed (ns : Nat) : Single := .ofUnits false (ns * Single.one) Duration.second

/-- The next byte of input, asked for in the background. -/
def awaitInput (input : IO.FS.Stream) : IO (Task (Except IO.Error ByteArray)) :=
  IO.asTask (input.read 1)

partial def play (host : Host) (input : IO.FS.Stream) (session : Session)
    (key : Task (Except IO.Error ByteArray)) (lastFrame pressedAt : Nat) :
    IO (Option Fault) := do
  if session.quit then return none
  let now ← IO.monoNanosNow
  let session := if keyTimeout < now - pressedAt then session.expire else session
  let recorded : Recorded HeldKey := { machine := { session.machine with now } }
  match session.pacer.update Recorded.step (10 ^ 15) (elapsed (now - lastFrame)) recorded with
  | none => return none
  | some (pacer, recorded, outcome) =>
    host.write recorded.journal.toList
    if let .failed fault := outcome then return some fault
    if let .overflow := outcome then throw (IO.userError "timer overflow")
    let session := { session with machine := recorded.machine, pacer }
    let (width, height) ← terminalSize
    IO.print (renderRows ((View.picture session.machine width height).rows width height))
    (← IO.getStdout).flush
    IO.sleep 16
    if ← IO.hasFinished key then
      match key.get with
      | .ok bytes =>
        match bytes.toList with
        | b :: _ => play host input (session.handle (keyEvent b)) (← awaitInput input) now now
        | [] => return none
      | .error e => throw e
    else play host input session key now pressedAt

def run (options : Options) : IO UInt32 := do
  let log ← options.log.mapM fun (path : String) => do
    try IO.FS.Handle.mk path .write
    catch _ => throw (IO.userError (Options.logFailure path))
  let host : Host := { log, verbosity := options.verbosity }
  let rom ← try IO.FS.readBinFile options.rom
    catch _ => throw (IO.userError "Failed to read ROM file")
  let entropy ← IO.rand 0 (UInt64.size - 1)
  match Session.start rom.toList options.settings (UInt64.ofNat entropy) with
  | .error e => throw (IO.userError ("Failed to initialize application: " ++ e.message))
  | .ok session =>
    host.write [⟨.info, "Running " ++ options.rom⟩]
    let input ← IO.getStdin
    let now ← IO.monoNanosNow
    match ← play host input session (← awaitInput input) now now with
    | none => return 0
    | some fault =>
      let message := "CHIP-8 execution error: " ++ fault.message
      host.write [⟨.error, message⟩]
      IO.eprintln ("Error: " ++ message)
      return 1

end Chip8.Terminal

open Chip8.Terminal in
def main (args : List String) : IO UInt32 := do
  match Options.parse args with
  | .error .help => IO.println UsageError.help.message; return 0
  | .error e => IO.eprintln e.message; return 2
  | .ok options =>
    try run options
    catch e => IO.eprintln ("Error: " ++ toString e); return 1
