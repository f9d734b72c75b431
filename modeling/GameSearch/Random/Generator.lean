/-
  GameSearch.Random.Generator

  A seeded generator of random words: the ChaCha stream with twelve rounds.  The
  stream is cut into blocks of sixteen words, and block number `n` is a function of
  the key and of `n` alone.
-/
import GameSearch.Arithmetic
import GameSearch.Random.Source

namespace GameSearch.Random

attribute [local instance] Arithmetic.power

/-- Sixteen words. -/
abbrev Block := Vector UInt32 16

def rotateLeft (x : UInt32) (k : UInt32) : UInt32 := (x <<< k) ||| (x >>> (32 - k))

/-- Mixes four words of a block. -/
def quarterRound (s : Block) (a b c d : Fin 16) : Block :=
  let s := s.set a (s[a] + s[b])
  let s := s.set d (rotateLeft (s[d] ^^^ s[a]) 16)
  let s := s.set c (s[c] + s[d])
  let s := s.set b (rotateLeft (s[b] ^^^ s[c]) 12)
  let s := s.set a (s[a] + s[b])
  let s := s.set d (rotateLeft (s[d] ^^^ s[a]) 8)
  let s := s.set c (s[c] + s[d])
  s.set b (rotateLeft (s[b] ^^^ s[c]) 7)

/-- Mixes the columns of a block and then its diagonals. -/
def doubleRound (s : Block) : Block :=
  let s := quarterRound s 0 4 8 12
  let s := quarterRound s 1 5 9 13
  let s := quarterRound s 2 6 10 14
  let s := quarterRound s 3 7 11 15
  let s := quarterRound s 0 5 10 15
  let s := quarterRound s 1 6 11 12
  let s := quarterRound s 2 7 8 13
  quarterRound s 3 4 9 14

/-- The block before mixing: four constants, the key, the block number and zeros. -/
def initialBlock (key : Vector UInt32 8) (number : UInt64) : Block :=
  #v[0x61707865, 0x3320646E, 0x79622D32, 0x6B206574,
    key[0], key[1], key[2], key[3], key[4], key[5], key[6], key[7],
    number.toUInt32, (number >>> 32).toUInt32, 0, 0]

/-- The block of the stream with the given number. -/
def block (key : Vector UInt32 8) (number : UInt64) : Block :=
  let start := initialBlock key number
  let mixed := Nat.repeat doubleRound 6 start
  Vector.zipWith (· + ·) mixed start

/-- A generator: its key, the block at hand with the number of words already taken from it, and
    the number of the next block. -/
structure Generator where
  key : Vector UInt32 8
  current : Block
  taken : Nat
  next : UInt64

namespace Generator

/-- One step of the sequence from which a key is made. -/
def seedStep (s : UInt64) : UInt64 := s * 0x5851F42D4C957F2D + 0xA17654E46FBE17F3

/-- The word for a state of that sequence. -/
def seedWord (s : UInt64) : UInt32 :=
  let mixed := (((s >>> 18) ^^^ s) >>> 27).toUInt32
  let turn := (s >>> 59).toUInt32
  (mixed >>> turn) ||| (mixed <<< ((32 - turn) % 32))

/-- The words of a key, made from a seed. -/
def keyOfSeed (seed : UInt64) : Vector UInt32 8 :=
  let state (k : Nat) := Nat.repeat seedStep (k + 1) seed
  Vector.ofFn fun i : Fin 8 => seedWord (state i)

/-- A generator at the beginning of the stream for a seed. -/
def ofSeed (seed : UInt64) : Generator where
  key := keyOfSeed seed
  current := Vector.replicate 16 0
  taken := 16
  next := 0

/-- The next word of the stream. -/
def word (g : Generator) : UInt32 × Generator :=
  if h : g.taken < 16 then (g.current[g.taken], { g with taken := g.taken + 1 })
  else
    let b := block g.key g.next
    (b[0], { g with current := b, taken := 1, next := g.next + 1 })

/-- The part of `n` that a word is of all words, rounded down. -/
theorem scaled_lt (x y : UInt32) (n : Nat) :
    (x.toNat * (n + 1) + y.toNat * (n + 1) / 2 ^ (32 : Nat)) / 2 ^ (32 : Nat) < n + 1 := by
  have hx : x.toNat + 1 ≤ 2 ^ (32 : Nat) := x.toNat_lt
  have hy : y.toNat < 2 ^ (32 : Nat) := y.toNat_lt
  have h₁ : y.toNat * (n + 1) / 2 ^ (32 : Nat) < n + 1 :=
    Nat.div_lt_of_lt_mul (Nat.mul_lt_mul_of_pos_right hy (Nat.succ_pos n))
  have h₂ : (x.toNat + 1) * (n + 1) ≤ 2 ^ (32 : Nat) * (n + 1) := Nat.mul_le_mul_right _ hx
  apply Nat.div_lt_of_lt_mul
  rw [Nat.add_mul, Nat.one_mul] at h₂
  omega

/-- One of the numbers from zero up to `n`.  A word decides; only when it falls so close to the
    end of a share that more bits could tip it over is a second word drawn. -/
def upTo (n : Nat) (g : Generator) : Fin (n + 1) × Generator :=
  let (x, g) := g.word
  let product := x.toNat * (n + 1)
  if 2 ^ (32 : Nat) - (n + 1) < product % 2 ^ (32 : Nat) then
    let (y, g) := g.word
    (⟨(product + y.toNat * (n + 1) / 2 ^ (32 : Nat)) / 2 ^ (32 : Nat), scaled_lt x y n⟩, g)
  else
    (⟨product / 2 ^ (32 : Nat), by simpa using scaled_lt x 0 n⟩, g)

end Generator

instance : RandomSource Generator where
  upTo := Generator.upTo

end GameSearch.Random
