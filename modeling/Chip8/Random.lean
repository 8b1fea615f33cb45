import Chip8.Nibble

/-!
# Random bytes

A seed fixes the whole stream. It is stretched to a 256-bit key, the key runs the ChaCha block
function with twelve rounds, and each draw takes the next 32-bit word of the blocks in order and
keeps its low byte. A stream is therefore its key and the number of words drawn so far; it also
keeps the block at hand, which saves making it anew for every draw.
-/

namespace Chip8

namespace ChaCha

abbrev State := Vector UInt32 16

def rotate (w : UInt32) (k : UInt32) : UInt32 := w <<< k ||| w >>> (32 - k)

def quarterRound (s : State) (a b c d : Fin 16) : State :=
  let s := s.set a (s[a] + s[b])
  let s := s.set d (rotate (s[d] ^^^ s[a]) 16)
  let s := s.set c (s[c] + s[d])
  let s := s.set b (rotate (s[b] ^^^ s[c]) 12)
  let s := s.set a (s[a] + s[b])
  let s := s.set d (rotate (s[d] ^^^ s[a]) 8)
  let s := s.set c (s[c] + s[d])
  s.set b (rotate (s[b] ^^^ s[c]) 7)

/-- Two rounds: four columns, then four diagonals. -/
def doubleRound (s : State) : State :=
  let s := quarterRound s 0 4 8 12
  let s := quarterRound s 1 5 9 13
  let s := quarterRound s 2 6 10 14
  let s := quarterRound s 3 7 11 15
  let s := quarterRound s 0 5 10 15
  let s := quarterRound s 1 6 11 12
  let s := quarterRound s 2 7 8 13
  quarterRound s 3 4 9 14

/-- The state of block number `counter` before the rounds. -/
def initial (key : Vector UInt32 8) (counter : UInt64) : State :=
  #v[0x61707865, 0x3320646e, 0x79622d32, 0x6b206574,
    key[0], key[1], key[2], key[3], key[4], key[5], key[6], key[7],
    counter.toUInt32, (counter >>> 32).toUInt32, 0, 0]

def block (key : Vector UInt32 8) (counter : UInt64) : State :=
  let start := initial key counter
  (Nat.repeat doubleRound 6 start).zipWith (· + ·) start

end ChaCha

/-- The block that holds word number `k` of the stream. -/
def ChaCha.blockAt (key : Vector UInt32 8) (k : Nat) : State := block key (UInt64.ofNat (k / 16))

structure Random where
  key : Vector UInt32 8
  drawn : Nat := 0
  words : ChaCha.State := ChaCha.blockAt key drawn
  words_eq : words = ChaCha.blockAt key drawn := by rfl
  deriving DecidableEq

namespace Random

/-! ## Seeds -/

def nextSeed (state : UInt64) : UInt64 := state * 6364136223846793005 + 11634580027462260723

/-- A word of the key from a state of the seed: mixed down to 32 bits and turned by the top five. -/
def keyWord (state : UInt64) : UInt32 :=
  let mixed := (((state >>> 18) ^^^ state) >>> 27).toUInt32
  let turn := (state >>> 59).toUInt32
  mixed >>> turn ||| mixed <<< ((32 - turn) % 32)

/-- Word `i` of the key comes from the seed moved on `i + 1` times. -/
def expand (seed : UInt64) : Vector UInt32 8 :=
  Vector.ofFn fun i => keyWord (Nat.repeat nextSeed (i.val + 1) seed)

def ofSeed (seed : UInt64) : Random := { key := expand seed }

/-! ## Drawing -/

/-- The byte of draw number `k`, counted from zero. -/
def byteAt (key : Vector UInt32 8) (k : Nat) : UInt8 :=
  (ChaCha.blockAt key k)[Fin.ofNat 16 k].toUInt8

/-- The stream one word further on. -/
def next (r : Random) : Random :=
  if h : (r.drawn + 1) % 16 = 0 then { key := r.key, drawn := r.drawn + 1 }
  else { r with
    drawn := r.drawn + 1
    words_eq := by
      have : (r.drawn + 1) / 16 = r.drawn / 16 := by omega
      rw [r.words_eq, ChaCha.blockAt, ChaCha.blockAt, this] }

def draw (r : Random) : UInt8 × Random := (r.words[Fin.ofNat 16 r.drawn].toUInt8, r.next)

theorem draw_fst (r : Random) : r.draw.1 = byteAt r.key r.drawn := by
  rw [draw, byteAt, r.words_eq]

end Random

end Chip8
