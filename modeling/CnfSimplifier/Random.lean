/-!
# Seeded randomness

The order in which implications are explored is drawn from a reproducible stream
of 32-bit words: the ChaCha stream cipher with twelve rounds, keyed by eight
words that a linear congruential generator derives from the seed. Numbers below
a bound are drawn without bias by rejection, and arrays are shuffled from the
back.
-/
namespace CnfSimplifier

/-- A reproducible source of random words: the key, the counter of the next
block and the words left of the current one. -/
structure Random where
  key : Array UInt32
  counter : UInt64
  pending : List UInt32
deriving Inhabited

namespace Random

/-- Rotate a word to the left. -/
def rotateLeft (word : UInt32) (bits : UInt32) : UInt32 :=
  (word <<< bits) ||| (word >>> (32 - bits))

/-- Rotate a word to the right; a rotation by zero bits changes nothing. -/
def rotateRight (word : UInt32) (bits : UInt32) : UInt32 :=
  if bits == 0 then word else (word >>> bits) ||| (word <<< (32 - bits))

/-- The state from which the next key word is taken. -/
def advanceSeed (state : UInt64) : UInt64 :=
  state * 6364136223846793005 + 11634580027462260723

/-- The key word of a state. -/
def keyWord (state : UInt64) : UInt32 :=
  rotateRight (((state >>> 18) ^^^ state) >>> 27).toUInt32 (state >>> 59).toUInt32

/-- The next `count` key words after a state. -/
def keyWords : Nat → UInt64 → List UInt32
  | 0, _ => []
  | count + 1, state =>
    let next := advanceSeed state
    keyWord next :: keyWords count next

/-- The source of a seed. -/
def ofSeed (seed : UInt64) : Random := ⟨(keyWords 8 seed).toArray, 0, []⟩

/-- The quarter round on four words of a block. -/
def quarterRound (block : Array UInt32) (i j k l : Nat) : Array UInt32 :=
  let a := block.getD i 0
  let b := block.getD j 0
  let c := block.getD k 0
  let d := block.getD l 0
  let a := a + b
  let d := rotateLeft (d ^^^ a) 16
  let c := c + d
  let b := rotateLeft (b ^^^ c) 12
  let a := a + b
  let d := rotateLeft (d ^^^ a) 8
  let c := c + d
  let b := rotateLeft (b ^^^ c) 7
  (((block.setIfInBounds i a).setIfInBounds j b).setIfInBounds k c).setIfInBounds l d

/-- One round on the columns and one on the diagonals. -/
def doubleRound (block : Array UInt32) : Array UInt32 :=
  let block := quarterRound block 0 4 8 12
  let block := quarterRound block 1 5 9 13
  let block := quarterRound block 2 6 10 14
  let block := quarterRound block 3 7 11 15
  let block := quarterRound block 0 5 10 15
  let block := quarterRound block 1 6 11 12
  let block := quarterRound block 2 7 8 13
  quarterRound block 3 4 9 14

/-- Apply the double round a number of times. -/
def rounds : Nat → Array UInt32 → Array UInt32
  | 0, block => block
  | count + 1, block => rounds count (doubleRound block)

/-- The four words with which every block begins. -/
def constants : Array UInt32 := #[0x61707865, 0x3320646e, 0x79622d32, 0x6b206574]

/-- The sixteen words of the block with a given counter. -/
def block (key : Array UInt32) (counter : UInt64) : List UInt32 :=
  let start := constants ++ key ++ #[counter.toUInt32, (counter >>> 32).toUInt32, 0, 0]
  (Array.zipWith (· + ·) start (rounds 6 start)).toList

/-- The next word of the stream. -/
def next (random : Random) : UInt32 × Random :=
  match random.pending with
  | word :: rest => (word, { random with pending := rest })
  | [] =>
    match block random.key random.counter with
    | word :: rest =>
      (word, { random with counter := random.counter + 1, pending := rest })
    | [] => (0, random)

/-- How many rejected words are put up with in one draw. A word is rejected with a
probability below one half, so this many in a row have one below 2 to the -4096. A
draw without the limit could not be shown to end. That a shuffle permutes, which is
all that is used of one, holds for any words. -/
def attempts : Nat := 4096

/-- Draw below a bound: the high half of word times bound, unless the low half
falls into the last incomplete stretch, in which case another word is tried. -/
def drawBelow (bound zone : UInt32) : Nat → Random → UInt32 × Random
  | 0, random => (0, random)
  | tries + 1, random =>
    let (word, random) := random.next
    let product := word.toUInt64 * bound.toUInt64
    if product.toUInt32 ≤ zone then ((product >>> 32).toUInt32, random)
    else drawBelow bound zone tries random

/-- The number of leading zero bits of a word. -/
def leadingZeros (word : UInt32) : UInt32 :=
  if word == 0 then 32 else UInt32.ofNat (31 - Nat.log2 word.toNat)

/-- A number below a positive bound, all equally likely. -/
def below (random : Random) (bound : UInt32) : UInt32 × Random :=
  drawBelow bound ((bound <<< leadingZeros bound) - 1) attempts random

/-- Shuffle the entries of an array below a position: each entry, from the last
one down, changes places with one at or before it. -/
def shuffleBelow {α : Type} : Nat → Array α → Random → Array α × Random
  | 0, items, random => (items, random)
  | 1, items, random => (items, random)
  | last + 2, items, random =>
    let (place, random) := random.below (UInt32.ofNat (last + 2))
    shuffleBelow (last + 1) (items.swapIfInBounds (last + 1) place.toNat) random

/-- A random permutation of an array. -/
def shuffle {α : Type} (random : Random) (items : Array α) : Array α × Random :=
  shuffleBelow items.size items random

end Random

end CnfSimplifier
