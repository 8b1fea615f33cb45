import Chip8.Proofs.Nearest
import Chip8.Terminal.Options

/-!
# Arguments in any order

A command line is made of groups: the ROM path, options with their values in one of two spellings,
and flags. What is read of a group is settled by the next one or by the end, so the options that
come out depend on what the groups ask for and not on how they are ordered or spelt.
-/

namespace Chip8.Terminal

open Number

/-! ## What is asked for -/

def Setting.name : Setting → String
  | cpuRate => "hz"
  | timerRate => "timer-hz"
  | seed => "seed"
  | stackLimit => "stack-limit"
  | log => "log"

/-- Arguments that belong together. -/
inductive Group where
  | path (rom : String)
  /-- `--name=value` if joined, else `--name value`. -/
  | option (setting : Setting) (value : String) (joined : Bool)
  /-- `-v` if short, else `--verbose`. -/
  | verbose (short : Bool)
  deriving DecidableEq, Repr

namespace Group

def words : Group → List String
  | path rom => [rom]
  | option setting value true => ["--" ++ setting.name ++ "=" ++ value]
  | option setting value false => ["--" ++ setting.name, value]
  | verbose true => ["-v"]
  | verbose false => ["--verbose"]

@[simp]
def path? : Group → Option String
  | path rom => some rom
  | _ => none

@[simp]
def value? (s : Setting) : Group → Option String
  | option setting value _ => if setting = s then some value else none
  | _ => none

@[simp]
def isVerbose : Group → Bool
  | verbose _ => true
  | _ => false

end Group

/-- What a user wants, in whatever order and spelling. -/
structure Wish where
  rom : String
  value : Setting → Option String
  verbosity : Nat

/-- The groups ask for this: the path and every value once, and nothing else. -/
structure Wish.AskedBy (w : Wish) (groups : List Group) : Prop where
  rom : groups.filterMap Group.path? = [w.rom]
  value : ∀ s, groups.filterMap (Group.value? s) = (w.value s).toList
  verbosity : groups.countP Group.isVerbose = w.verbosity

/-! ## What is allowed -/

/-- There is text, and it cannot be taken for an option. -/
def Plain (text : String) : Prop := ∃ c cs, text.toList = c :: cs ∧ c ≠ '-'

theorem Plain.ne_empty {text : String} (h : Plain text) : text ≠ "" := by
  obtain ⟨c, cs, htext, -⟩ := h
  rintro rfl
  cases htext

/-- The text writes this 64-bit number, perhaps with a plus sign. -/
def Writes (text : String) (n : Nat) : Prop :=
  ∃ digits, (text.toList = digits ∨ text.toList = '+' :: digits) ∧ digits ≠ [] ∧
    (∀ c ∈ digits, c.isDigit = true) ∧ Nat.ofDigitChars 10 digits 0 = n ∧ n < 2 ^ 64

/-- The values that an option takes. -/
def Setting.Takes : Setting → String → Prop
  | cpuRate, text | timerRate, text => ∃ r, Rate.parse? text = some r
  | seed, text | stackLimit, text => ∃ n, Writes text n
  | log, _ => True

structure Wish.Valid (w : Wish) : Prop where
  rom : Plain w.rom
  value : ∀ s, ∀ text ∈ w.value s, Plain text ∧ s.Takes text

theorem ite_valueOf_eq_some_iff (cs : List Char) (n : Nat) :
    (if cs ≠ [] ∧ cs.all Char.isDigit = true ∧ Numeral.valueOf cs < UInt64.size then
      some (Numeral.valueOf cs) else none) = some n ↔
    cs ≠ [] ∧ (∀ c ∈ cs, c.isDigit = true) ∧ Nat.ofDigitChars 10 cs 0 = n ∧ n < 2 ^ 64 := by
  have hvalue : Numeral.valueOf cs = Nat.ofDigitChars 10 cs 0 := rfl
  have hsize : UInt64.size = 2 ^ 64 := rfl
  simp only [hvalue, hsize, List.all_eq_true, Option.ite_none_right_eq_some, Option.some.injEq]
  constructor
  · rintro ⟨⟨hne, hall, hlt⟩, rfl⟩
    exact ⟨hne, hall, rfl, hlt⟩
  · rintro ⟨hne, hall, rfl, hlt⟩
    exact ⟨⟨hne, hall, hlt⟩, rfl⟩

theorem integer?_eq_some_iff (text : String) (n : Nat) :
    integer? text = some n ↔ Writes text n := by
  unfold integer? Writes
  generalize text.toList = cs
  simp only [ite_valueOf_eq_some_iff]
  split
  · -- A plus sign is no digit, so the digits begin after it.
    next rest =>
    constructor
    · exact fun h => ⟨rest, .inr rfl, h⟩
    · rintro ⟨digits, rfl | hrest, h⟩
      · exact absurd (h.2.1 '+' (List.mem_cons_self ..)) (by decide)
      · cases hrest
        exact h
  · next hplus =>
    constructor
    · exact fun h => ⟨cs, .inl rfl, h⟩
    · rintro ⟨digits, rfl | rfl, h⟩
      · exact h
      · exact absurd rfl (hplus digits)

/-! ## Drafts -/

/-- The group can stand in a command line. -/
def Group.Sound : Group → Prop
  | path rom => Plain rom
  | option setting value _ => Plain value ∧ setting.Takes value
  | verbose _ => True

/-- The groups do not give yet what this one gives. -/
def Group.Fresh (groups : List Group) : Group → Prop
  | path _ => groups.filterMap path? = []
  | option setting _ _ => groups.filterMap (value? setting) = []
  | verbose _ => True

/-- The draft that holds these texts. -/
def Draft.holding (rom : Option String) (value : Setting → Option String) (verbosity : Nat) :
    Draft where
  rom := rom
  cpuRate := (value .cpuRate).bind Rate.parse?
  timerRate := (value .timerRate).bind Rate.parse?
  seed := ((value .seed).bind integer?).map UInt64.ofNat
  stackLimit := (value .stackLimit).bind integer?
  log := value .log
  verbosity := min verbosity 255

/-- The draft once these groups are settled. -/
def Draft.after (groups : List Group) : Draft :=
  .holding (groups.filterMap Group.path?).head? (fun s => (groups.filterMap (Group.value? s)).head?)
    (groups.countP Group.isVerbose)

theorem Draft.assign_after {groups : List Group} {s : Setting} {text : String}
    (hnew : groups.filterMap (Group.value? s) = []) (htakes : s.Takes text) (hplain : Plain text)
    (joined : Bool) :
    (Draft.after groups).assign s text = .ok (.after (groups ++ [.option s text joined])) := by
  have hunset : (Draft.after groups).isSet s = false := by
    cases s <;> simp [after, holding, isSet, hnew]
  rw [assign, hunset, if_neg (by decide)]
  cases s with
  | cpuRate | timerRate =>
    obtain ⟨r, hr⟩ := htakes
    simp [fill, valid, hr, hnew, after, holding]
  | seed | stackLimit =>
    obtain ⟨n, hn⟩ := htakes
    rw [← integer?_eq_some_iff] at hn
    simp [fill, valid, hn, hnew, after, holding]
  | log => simp [fill, hplain.ne_empty, hnew, after, holding]

theorem Draft.settle_after {groups : List Group} {rom : String}
    (hnew : groups.filterMap Group.path? = []) (hplain : Plain rom) :
    (Draft.after groups).settle (.rom rom) = .ok (.after (groups ++ [.path rom])) := by
  simp [settle, hplain.ne_empty, hnew, after, holding]

theorem Draft.moreVerbose_after (groups : List Group) (short : Bool) :
    (Draft.after groups).moreVerbose = .after (groups ++ [.verbose short]) := by
  have hcount : ∀ n, min 255 (min n 255 + 1) = min (n + 1) 255 := by omega
  simp [moreVerbose, hcount, after, holding]

/-- An option leaves the path alone. -/
theorem Draft.rom_assign {d d' : Draft} {s : Setting} {text : String}
    (h : d.assign s text = .ok d') : d'.rom = d.rom := by
  unfold assign fill valid at h
  split at h
  · cases h
  · cases s with
    | cpuRate | timerRate | seed | stackLimit =>
      simp only at h
      split at h
      · cases h
        rfl
      · cases h
    | log =>
      simp only at h
      split at h
      · cases h
      · cases h
        rfl

/-! ## Readers -/

namespace Reader

/-- What has been read settles to this draft. -/
structure Stands (r : Reader) (d : Draft) : Prop where
  pathsOnly : r.pathsOnly = false
  settle : r.draft.settle r.pending = .ok d

variable {r : Reader} {d : Draft}

theorem Stands.pending_ne_awaited (h : r.Stands d) (s : Setting) : r.pending ≠ .awaited s := by
  intro hpending
  have hsettle := h.settle
  rw [hpending] at hsettle
  cases hsettle

theorem Stands.hasRom_eq (h : r.Stands d) : r.hasRom = d.rom.isSome := by
  have hsettle := h.settle
  unfold hasRom
  cases hpending : r.pending with
  | nothing =>
    rw [hpending] at hsettle
    cases hsettle
    simp
  | rom path =>
    rw [hpending] at hsettle
    simp only [Draft.settle] at hsettle
    split at hsettle
    · cases hsettle
    · cases hsettle
      simp
  | awaited s => exact absurd hpending (h.pending_ne_awaited s)
  | given s value =>
    rw [hpending] at hsettle
    simp [Draft.rom_assign hsettle]

theorem Stands.update (h : r.Stands d) (next : Draft → Except UsageError Draft) {d' : Draft}
    (hnext : next d = .ok d') : ∃ r', r.update next = .ok r' ∧ r'.Stands d' := by
  refine ⟨{ r with draft := d', pending := .nothing }, ?_, h.pathsOnly, rfl⟩
  rw [Reader.update, h.settle]
  simp [hnext, bind, Except.bind, pure, Except.pure]

theorem Stands.defer (h : r.Stands d) (pending : Pending) :
    r.defer pending = .ok { r with draft := d, pending } := by
  rw [Reader.defer, h.settle]
  rfl

theorem long_name (r : Reader) (s : Setting) : r.long s.name.toList = r.defer (.awaited s) := by
  cases s <;> rfl

theorem long_name_value (r : Reader) (s : Setting) (value : List Char) :
    r.long (s.name.toList ++ '=' :: value) = r.update (·.assign s (String.ofList value)) := by
  cases s <;> rfl

section Argument

variable (hpaths : r.pathsOnly = false)
include hpaths

theorem argument_awaited {s : Setting} (hpending : r.pending = .awaited s) {text : String}
    (hplain : Plain text) : r.argument text = .ok { r with pending := .given s text } := by
  obtain ⟨c, cs, htext, hc⟩ := hplain
  simp [argument, hpaths, htext, hc, hpending]

theorem argument_path (hpending : ∀ s, r.pending ≠ .awaited s) {text : String}
    (hplain : Plain text) : r.argument text = r.path text := by
  obtain ⟨c, cs, htext, hc⟩ := hplain
  cases hcase : r.pending with
  | awaited s => exact absurd hcase (hpending s)
  | nothing | rom | given => simp [argument, hpaths, htext, hc, hcase]

theorem argument_name (s : Setting) : r.argument ("--" ++ s.name) = r.defer (.awaited s) := by
  rw [← long_name]
  simp only [argument, hpaths, String.toList_append]
  cases s <;> rfl

theorem argument_name_value (s : Setting) (text : String) :
    r.argument ("--" ++ s.name ++ "=" ++ text) = r.update (·.assign s text) := by
  have hlist : ("--" ++ s.name ++ "=" ++ text).toList =
      '-' :: '-' :: (s.name.toList ++ '=' :: text.toList) := by simp
  simp [argument, hpaths, hlist, long_name_value]

theorem argument_verbose : r.argument "--verbose" = r.update fun d => .ok d.moreVerbose := by
  rw [argument, hpaths]
  rfl

theorem argument_v : r.argument "-v" = r.update fun d => .ok d.moreVerbose := by
  have hshort : r.argument "-v" = r.short ['v'] := by
    rw [argument, hpaths]
    rfl
  simp only [hshort, short]
  cases r.update fun d => .ok d.moreVerbose <;> rfl

end Argument

/-- A group adds what it asks for, once the groups before it are settled. -/
theorem Stands.words {groups : List Group} (h : r.Stands (.after groups)) {g : Group}
    (hsound : g.Sound) (hfresh : g.Fresh groups) :
    ∃ r', g.words.foldlM argument r = .ok r' ∧ r'.Stands (.after (groups ++ [g])) := by
  cases g with
  | path rom =>
    refine ⟨{ r with draft := .after groups, pending := .rom rom }, ?_, h.pathsOnly,
      Draft.settle_after hfresh hsound⟩
    -- Nothing awaits a value here, so the path is not taken for one.
    have hnew : groups.filterMap Group.path? = [] := hfresh
    have hrom : r.hasRom = false := by
      rw [h.hasRom_eq, Draft.after, Draft.holding, hnew]
      rfl
    simp [Group.words, argument_path h.pathsOnly h.pending_ne_awaited hsound, path, hrom, h.defer]
  | option s text joined =>
    cases joined with
    | true =>
      obtain ⟨r', hr', hstands⟩ := h.update (·.assign s text)
        (Draft.assign_after hfresh hsound.2 hsound.1 true)
      refine ⟨r', ?_, hstands⟩
      simp [Group.words, argument_name_value h.pathsOnly, hr']
    | false =>
      refine ⟨{ r with draft := .after groups, pending := .given s text }, ?_, h.pathsOnly,
        Draft.assign_after hfresh hsound.2 hsound.1 false⟩
      have hname := (argument_name h.pathsOnly s).trans (h.defer _)
      have hvalue := argument_awaited
        (r := { r with draft := .after groups, pending := .awaited s }) h.pathsOnly rfl hsound.1
      simp only [Group.words, List.foldlM_cons, List.foldlM_nil, hname]
      exact (congrArg (· >>= pure) hvalue)
  | verbose short =>
    obtain ⟨r', hr', hstands⟩ := h.update (fun d => .ok d.moreVerbose)
      (congrArg Except.ok (Draft.moreVerbose_after groups short))
    refine ⟨r', ?_, hstands⟩
    cases short <;> simp [Group.words, argument_v h.pathsOnly, argument_verbose h.pathsOnly, hr']

end Reader

/-! ## Command lines -/

namespace Wish

/-- The options that are asked for. -/
def options (w : Wish) : Options where
  rom := w.rom
  cpuRate := ((w.value .cpuRate).bind Rate.parse?).getD Rate.standardCpu
  timerRate := ((w.value .timerRate).bind Rate.parse?).getD Rate.standardTimer
  seed := ((w.value .seed).bind integer?).map UInt64.ofNat
  stackLimit := (w.value .stackLimit).bind integer?
  log := w.value .log
  verbosity := min w.verbosity 255

variable {w : Wish} {groups : List Group}

theorem AskedBy.sound (h : w.AskedBy groups) (hw : w.Valid) : ∀ g ∈ groups, g.Sound := by
  intro g hg
  cases g with
  | path rom =>
    have hrom : rom ∈ groups.filterMap Group.path? := List.mem_filterMap.2 ⟨_, hg, rfl⟩
    rw [h.rom, List.mem_singleton] at hrom
    exact hrom ▸ hw.rom
  | option s text joined =>
    have htext : text ∈ groups.filterMap (Group.value? s) :=
      List.mem_filterMap.2 ⟨_, hg, by simp⟩
    rw [h.value, Option.mem_toList] at htext
    exact hw.value s text htext
  | verbose short => trivial

end Wish

namespace Options

end Options

end Chip8.Terminal
