import BoostedTrees.Lease.Basic

/-!
# Prediction and training through a lease

A prediction comes back from the engine as a flat list and is returned as a grid with
a row for every row of the data. A round of training may take its gradient from the
caller, who can compute it from the current margins.
-/

namespace BoostedTrees

/-- What is asked of a prediction for a matrix. -/
structure PredictOptions where
  margin : Bool := false
  leaf : Bool := false
  contributions : Bool := false
  /-- The number of rounds that are used; zero stands for all. -/
  limit : UInt32 := 0
deriving DecidableEq

namespace PredictOptions

/-- The flags do not combine: contributions win over leaves, and leaves over margins. -/
def kind (o : PredictOptions) : PredictionKind :=
  if o.contributions then .contributions
  else if o.leaf then .leaf
  else if o.margin then .margin
  else .value

def mask (o : PredictOptions) : Int32 := o.kind.mask

end PredictOptions

/-- What is asked of a prediction in place. -/
inductive InPlaceKind where
  | value
  | margin
deriving DecidableEq

namespace InPlaceKind

instance : Inhabited InPlaceKind := ⟨value⟩

def code : InPlaceKind → Int32
  | value => 0
  | margin => 1

def ofCode (code : Int32) : Except ArgumentError InPlaceKind :=
  if code = 0 then .ok value
  else if code = 1 then .ok margin
  else .error (.unknownPredictionCode code)

def ofName : String → Except ArgumentError InPlaceKind
  | "value" => .ok value
  | "margin" => .ok margin
  | other => .error (.unknownPrediction other)

@[simp] theorem ofCode_code (k : InPlaceKind) : ofCode k.code = .ok k := by cases k <;> rfl

end InPlaceKind

namespace Lease

variable {σ : Type} (e : Engine σ) (l : Lease)

/-! ## Prediction -/

/-- Predicts for a matrix. -/
def predictWith (m : Matrix) (options : PredictOptions) : LeaseM σ Grid := do
  let flat ← l.ask e (.predict m options.mask options.limit)
  judge (Grid.ofFlat m.rows flat)

/-- Values from all rounds. -/
def predict (m : Matrix) : LeaseM σ Grid := l.predictWith e m {}

/-- Margins from all rounds. -/
def predictMargin (m : Matrix) : LeaseM σ Grid := l.predictWith e m { margin := true }

/-- Values from the first rounds. -/
def predictLimited (m : Matrix) (limit : UInt32) : LeaseM σ Grid := l.predictWith e m { limit }

/-- The leaf of every tree. -/
def predictLeaf (m : Matrix) (limit : UInt32) : LeaseM σ Grid :=
  l.predictWith e m { leaf := true, limit }

/-- The contributions of the features and the bias. -/
def predictContributions (m : Matrix) (limit : UInt32) : LeaseM σ Grid :=
  l.predictWith e m { contributions := true, limit }

/-- Predicts for rows without a matrix, from the rounds of a range, which is given by
its two ends. -/
def predictInPlace (rows : DenseRows) (range : List UInt32) (kind : InPlaceKind)
    (baseMargin : Option (Array Single)) : LeaseM σ Grid := do
  match range with
  | [first, last] =>
    if !rows.fitsShape then
      refuse (.denseSize rows.values.size rows.rows rows.columns)
    else
      let flat ← l.ask e (.predictDense rows first last kind.code baseMargin)
      judge (Grid.ofFlat rows.rows flat)
  | range => refuse (.roundRangeLength range.length)

/-- Values for rows without a matrix from all rounds, with NaN for missing values. -/
def predictInPlaceDefault (values : Array Single) (rows columns : Nat) : LeaseM σ Grid :=
  l.predictInPlace e ⟨values, rows, columns, Single.nan⟩ [0, 0] default none

/-! ## Training -/

/-- A round with the objective of the model. -/
def update (iteration : Int32) (m : Matrix) : LeaseM σ Unit := l.ask e (.update iteration m)

/-- A round with a given gradient, whose two lists must be of the same length. -/
def boost (iteration : Int32) (m : Matrix) (g : Gradient) : LeaseM σ Unit := do
  if g.first.size ≠ g.second.size then
    refuse (.gradientLengths g.first.size g.second.size)
  else l.ask e (.boost iteration m g)

/-- A round with the gradient that an objective of the caller has at the margins. -/
def updateWith (objective : Grid → Matrix → Gradient) (iteration : Int32) (m : Matrix) :
    LeaseM σ Unit := do
  let margins ← l.predictMargin e m
  l.boost e iteration m (objective margins m)

end Lease

end BoostedTrees
