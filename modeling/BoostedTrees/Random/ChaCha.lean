import BoostedTrees.Random.Xoshiro

/-!
# A stream generator

Synthetic data are drawn from a stream cipher with twelve rounds, whose key is spread
from a seed of one word by a congruential generator. The stream is the sequence of
the cipher's blocks, word after word.
-/

namespace BoostedTrees.Random.ChaCha

def rotateLeft (x : UInt32) (turn : UInt32) : UInt32 := (x <<< turn) ||| (x >>> (32 - turn))

def rotateRight (x : UInt32) (turn : UInt32) : UInt32 :=
  if turn = 0 then x else (x >>> turn) ||| (x <<< (32 - turn))

/-- The next word of the key, and the state after it. -/
def nextKeyWord (state : UInt64) : UInt32 × UInt64 :=
  let state := state * 6364136223846793005 + 11634580027462260723
  let shifted := (((state >>> 18) ^^^ state) >>> 27).toUInt32
  (rotateRight shifted (state >>> 59).toUInt32, state)

/-- The given number of words of the key. -/
def keyWords : (count : Nat) → UInt64 → List UInt32
  | 0, _ => []
  | count + 1, state =>
    let (word, state) := nextKeyWord state
    word :: keyWords count state

/-- The state of the cipher as sixteen words. -/
abbrev Words := Array UInt32

/-- Mixes four of the sixteen words. -/
def quarter (w : Words) (a b c d : Nat) : Words :=
  let step (w : Words) (x y z : Nat) (turn : UInt32) : Words :=
    let sum := w.getD x 0 + w.getD y 0
    let w := w.setIfInBounds x sum
    w.setIfInBounds z (rotateLeft (w.getD z 0 ^^^ sum) turn)
  let w := step w a b d 16
  let w := step w c d b 12
  let w := step w a b d 8
  step w c d b 7

/-- One round on the columns and one on the diagonals. -/
def doubleRound (w : Words) : Words :=
  let w := quarter w 0 4 8 12
  let w := quarter w 1 5 9 13
  let w := quarter w 2 6 10 14
  let w := quarter w 3 7 11 15
  let w := quarter w 0 5 10 15
  let w := quarter w 1 6 11 12
  let w := quarter w 2 7 8 13
  quarter w 3 4 9 14

/-- The four words that every state starts with. -/
def constants : List UInt32 := [0x61707865, 0x3320646e, 0x79622d32, 0x6b206574]

/-- The words of a block: the mixed state added to the state before. -/
def block (key : List UInt32) (counter : UInt64) : List UInt32 :=
  let start : Words :=
    (constants ++ key ++ [counter.toUInt32, (counter >>> 32).toUInt32, 0, 0]).toArray
  -- Twelve rounds, two at a time.
  let mixed := (List.range 6).foldl (fun w _ => doubleRound w) start
  List.zipWith (· + ·) mixed.toList start.toList

/-- The first words of the stream of a seed. -/
def words (seed : UInt64) (count : Nat) : List UInt32 :=
  let key := keyWords 8 seed
  ((List.range ((count + 15) / 16)).flatMap fun b => block key (UInt64.ofNat b)).take count

/-- The first numbers in `[0, 1)` of the stream of a seed. -/
def units (seed : UInt64) (count : Nat) : List Single := (words seed count).map unit

end BoostedTrees.Random.ChaCha
