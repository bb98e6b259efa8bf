import BoostedTrees.Growth.Score

/-!
# The search for a split

Every boundary between two different values of a feature is a place to split at. Rows
that lack the feature are tried on either side. A side whose second derivatives sum
to too little rules a split out; of the rest the one that lowers the loss most is
taken, where the earlier candidate wins a tie. The features are searched in two parts,
and these in two again, whose best candidates are compared.
-/

namespace BoostedTrees

/-- A place to split at. -/
structure Split where
  feature : UInt32
  threshold : Single
  /-- Whether rows that lack the feature go left. -/
  defaultLeft : Bool
  gain : Double
deriving DecidableEq

namespace Split

/-- The least gain that counts as one. -/
def leastGain : Double := Double.ofDecimal 1 (-6)

/-- Whether a row goes left. -/
def sendsLeft (s : Split) (m : Matrix) (row : Nat) : Bool :=
  let v := m.value row s.feature.toNat
  if v.isNaN then s.defaultLeft else v < s.threshold

/-- The better of two candidates: the one with more gain, of the same gain the one
with the smaller feature, else the first. -/
def better (a b : Split) : Split :=
  if a.gain < b.gain ∨ (b.gain.sameNumber a.gain ∧ b.feature < a.feature) then b else a

/-! ## Candidates of one feature -/

/-- The value that a row has for a feature. -/
structure Entry where
  value : Single
  row : Nat
deriving DecidableEq

/-- The rows that have the feature, from the smallest value to the largest. -/
def entries (m : Matrix) (rows : List Nat) (feature : Nat) : List Entry :=
  (rows.filterMap fun row =>
    let value := m.value row feature
    if value.isNaN then none else some ⟨value, row⟩).mergeSort fun a b =>
      decide (a.value.rank ≤ b.value.rank)

/-- A boundary between two values, with the sums over the rows before it. -/
structure Boundary where
  last : Single
  next : Single
  before : Sums
deriving DecidableEq

/-- The boundaries between values that are different as numbers. -/
def boundaries (g : Gradient) : (before : Sums) → List Entry → List Boundary
  | _, [] => []
  | _, [_] => []
  | before, a :: b :: rest =>
    let before := before + g.sumsAt a.row
    if a.value.sameNumber b.value then boundaries g before (b :: rest)
    else ⟨a.value, b.value, before⟩ :: boundaries g before (b :: rest)

/-- The middle between the two values, or the larger one where rounding leaves no
number between them. -/
def Boundary.threshold (b : Boundary) : Single :=
  let middle := b.last + (b.next - b.last) / 2
  if middle ≤ b.last then b.next else middle

/-- What candidates of one node are scored against. -/
structure Parent where
  rules : GrowthRules
  /-- The sums over all rows. -/
  total : Sums
  /-- The sums over the rows that lack the feature. -/
  missing : Sums

/-- The candidate at a boundary with missing rows on one side, unless a side is too
light. -/
def candidate? (parent : Parent) (feature : UInt32) (b : Boundary) (defaultLeft : Bool) :
    Option Split :=
  let lambda := parent.rules.lambda.toDouble
  let least := parent.rules.minChildWeight.toDouble
  let left := if defaultLeft then b.before + parent.missing else b.before
  let right := parent.total - left
  if left.second < least ∨ right.second < least then none
  else
    some {
      feature
      threshold := b.threshold
      defaultLeft
      gain := left.score lambda + right.score lambda - parent.total.score lambda }

/-- Keeps the first of two candidates of a feature unless the second gains more. -/
def keep : Option Split → Split → Option Split
  | some a, b => if b.gain ≤ a.gain then some a else some b
  | none, b => some b

/-- All candidates of a feature, boundary after boundary. Without rows that lack the
feature, one side stands for both. -/
def candidates (parent : Parent) (feature : UInt32) (lacking : Bool) (bs : List Boundary) :
    List Split :=
  let sides := if lacking then [true, false] else [true]
  bs.flatMap fun b => sides.filterMap (candidate? parent feature b)

/-- The best candidate of a feature. -/
def bestOf? (rules : GrowthRules) (m : Matrix) (g : Gradient) (rows : List Nat) (total : Sums)
    (feature : Nat) : Option Split :=
  let present := entries m rows feature
  -- What the present rows leave of the total belongs to the others.
  let missing := total - g.sums (present.map (·.row))
  if present.length < 2 then none
  else
    (candidates ⟨rules, total, missing⟩ (UInt32.ofNat feature)
      (decide (present.length < rows.length)) (boundaries g .zero present)).foldl keep none

/-! ## The best candidate of all -/

/-- The best of some candidates, taken from the left. -/
def best? : List Split → Option Split
  | [] => none
  | s :: rest => some (rest.foldl better s)

/-- How features are searched: from the first to the last, or in two parts apart. -/
inductive Division where
  | whole
  /-- So many features are the first part, and the others are the second. -/
  | cut (width : Nat) (first second : Division)
deriving DecidableEq

namespace Division

/-- The best of what the features offer. The best of the first part is compared with the best
of the second; a part that offers nothing is passed over. -/
def best? : Division → List (Option Split) → Option Split
  | whole, offers => Split.best? (offers.filterMap id)
  | cut width first second, offers =>
    Option.merge better (first.best? (offers.take width)) (second.best? (offers.drop width))

/-- Some features halved, and the halves again, as long as there are two and at most so many
times. -/
def halves : (times : Nat) → (width : Nat) → Division
  | 0, _ => whole
  | times + 1, width =>
    if width < 2 then whole
    else cut (width / 2) (halves times (width / 2)) (halves times (width - width / 2))

end Division

/-- What the features of a matrix offer for some rows. -/
def offers (rules : GrowthRules) (m : Matrix) (g : Gradient) (rows : List Nat) (total : Sums) :
    List (Option Split) :=
  (List.range (lowWord m.columns)).map (bestOf? rules m g rows total)

/-- The split of some rows that is found with the features divided in some way, unless no
candidate gains enough. -/
def findBy? (division : Division) (rules : GrowthRules) (m : Matrix) (g : Gradient)
    (rows : List Nat) (total : Sums) : Option Split :=
  if rows.length < 2 then none
  else
    match division.best? (offers rules m g rows total) with
    | none => none
    | some s =>
      if rules.gamma.toDouble < s.gain ∧ leastGain < s.gain then some s else none

/-- The split of some rows, with the features halved down to single ones. -/
def find? (rules : GrowthRules) (m : Matrix) (g : Gradient) (rows : List Nat) (total : Sums) :
    Option Split :=
  findBy? (.halves (lowWord m.columns) (lowWord m.columns)) rules m g rows total

end Split

end BoostedTrees
