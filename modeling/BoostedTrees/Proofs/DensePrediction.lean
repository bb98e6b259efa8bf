import BoostedTrees.Proofs.PlainPrediction
import BoostedTrees.Proofs.StoredSettings

/-!
# Predictions with and without a matrix

Rows can be put into a matrix and predicted for, or predicted for in place. The matrix
replaces every missing value by one and the same NaN when it is made. In place, values are
replaced only if the marker for missing values is a number; if it is a NaN, the values
stay as they are, NaNs of any sign and payload among them. Trees do not tell NaNs apart,
and a marker that is a NaN marks nothing beside them, so both ways give the same answer:
the same refusal or the same bits, whatever is remembered of the matrix.

## Main definitions

* `Single.KeepsNumbers`: a change of values that leaves numbers alone

## Main results

* `sumsOf_map`: such a change does not change what trees say
* `Learner.predict_ofDense`: predictions for a matrix and in place agree
-/

namespace BoostedTrees

/-! ## Values that are not numbers -/

namespace Single

open Float.Model (UnpackedFloat Format)

/-- Bits with the highest exponent and a fraction stand for no number. -/
theorem unpack_eq_notANumber {b : BitVec 32} (hexponent : b.toNat / 2 ^ 23 % 2 ^ 8 = 2 ^ 8 - 1)
    (hfraction : b.toNat % 2 ^ 23 ≠ 0) :
    UnpackedFloat.unpack Format.binary32 b = .notANumber := by
  have hhighest : @UnpackedFloat.unpackExponent Format.binary32 b = -1#8 := by
    apply BitVec.eq_of_toNat_eq
    rw [UnpackedFloat.unpackExponent, BitVec.toNat_cast, BitVec.extractLsb_toNat,
      Nat.shiftRight_eq_div_pow]
    exact hexponent
  have hsome : @UnpackedFloat.unpackMantissa Format.binary32 b ≠ 0#23 := by
    intro hzero
    have hnat := congrArg BitVec.toNat hzero
    rw [UnpackedFloat.unpackMantissa, BitVec.toNat_cast, BitVec.extractLsb_toNat,
      Nat.shiftRight_zero] at hnat
    exact hfraction hnat
  unfold UnpackedFloat.unpack
  exact (if_pos hhighest).trans (if_neg hsome)

theorem unpack_of_isNaN {x : Single} (h : x.isNaN = true) :
    x.toFloat32.toModel.unpack = .notANumber := by
  obtain ⟨hexponent, hfraction⟩ := fields_of_isNaN h
  have hbits : UnpackedFloat.unpack Format.binary32 x.bits.toBitVec = .notANumber :=
    unpack_eq_notANumber hexponent hfraction
  show UnpackedFloat.unpack Format.binary32 (UnpackedFloat.pack Format.binary32
    (UnpackedFloat.unpack Format.binary32 x.bits.toBitVec)) = .notANumber
  rw [hbits]
  rfl

/-- Nothing is the same number as a NaN. -/
theorem sameNumber_of_isNaN (x : Single) {y : Single} (h : y.isNaN = true) :
    x.sameNumber y = false := by
  show UnpackedFloat.beq x.toFloat32.toModel.unpack y.toFloat32.toModel.unpack = false
  rw [unpack_of_isNaN h]
  cases x.toFloat32.toModel.unpack <;> rfl

/-- A change of values that leaves numbers alone, and makes none. -/
def KeepsNumbers (f : Single → Single) : Prop := ∀ v, f v = v ∨ v.isNaN ∧ (f v).isNaN

end Single

/-! ## What trees see -/

section Trees

variable {f : Single → Single} (hf : Single.KeepsNumbers f)

include hf

/-- A number goes where it went, and a missing value goes where missing values go. -/
theorem Node.childFor?_map (n : Node) (row : Array Single) :
    n.childFor? (row.map f) = n.childFor? row := by
  have hvalue : (row.map f).getD n.feature.toNat Single.nan = row.getD n.feature.toNat Single.nan ∨
      (row.getD n.feature.toNat Single.nan).isNaN ∧
        ((row.map f).getD n.feature.toNat Single.nan).isNaN := by
    by_cases hi : n.feature.toNat < row.size
    · have hmapped : (row.map f).getD n.feature.toNat Single.nan = f row[n.feature.toNat] := by
        rw [Array.getD_eq_getD_getElem?, Array.getElem?_map, Array.getElem?_eq_getElem hi]
        rfl
      have hgiven : row.getD n.feature.toNat Single.nan = row[n.feature.toNat] := by
        rw [Array.getD_eq_getD_getElem?, Array.getElem?_eq_getElem hi]
        rfl
      rw [hmapped, hgiven]
      exact hf _
    · -- A feature that the row does not have is missing before and after.
      left
      rw [Array.getD_eq_getD_getElem?, Array.getD_eq_getD_getElem?, Array.getElem?_map,
        Array.getElem?_eq_none (Nat.le_of_not_lt hi), Option.map_none]
  unfold Node.childFor?
  rcases hvalue with heq | ⟨hgiven, hmapped⟩
  · rw [heq]
  · simp only [hgiven, hmapped, if_true]

namespace Tree

theorem pathFrom_map (t : Tree) (row : Array Single) (fuel i : Nat) :
    t.pathFrom (row.map f) fuel i = t.pathFrom row fuel i := by
  induction fuel generalizing i with
  | zero => rfl
  | succ fuel ih => simp only [pathFrom, Node.childFor?_map hf, ih]

theorem output_map (t : Tree) (row : Array Single) : t.output (row.map f) = t.output row := by
  simp only [output, leafOf, path, pathFrom_map hf]

end Tree

theorem addOutputs_map (trees : List OutputTree) (row sums : Array Single) :
    addOutputs id trees (row.map f) sums = addOutputs id trees row sums := by
  simp only [addOutputs, Tree.output_map hf]

/-- Sums of outputs do not change with values that are not numbers. -/
theorem sumsOf_map (trees : List OutputTree) (rows : Rows) (outputs : Nat) :
    sumsOf trees { rows with values := rows.values.map f } outputs = sumsOf trees rows outputs := by
  have hrow : ∀ i, Rows.row { rows with values := rows.values.map f } i = (rows.row i).map f :=
    fun i => Array.map_extract.symm
  simp only [sumsOf, addToRows, hrow, addOutputs_map hf]

end Trees

/-! ## Marked values -/

/-- What stands for a value in rows where missing values are marked. -/
def markMissing (marker v : Single) : Single := if isMissing marker v then Single.nan else v

/-- Where the marker is a NaN, only values that are not numbers are replaced. -/
theorem keepsNumbers_markMissing {marker : Single} (h : marker.isNaN = true) :
    Single.KeepsNumbers (markMissing marker) := by
  intro v
  have hmarked : isMissing marker v = v.isNaN := by
    rw [isMissing, Single.sameNumber_of_isNaN v h, Bool.or_false]
  unfold markMissing
  rw [hmarked]
  cases hv : v.isNaN with
  | false => exact .inl rfl
  | true =>
    refine .inr ⟨rfl, ?_⟩
    rw [if_pos rfl]
    decide

namespace Matrix

variable {id rows columns : Nat} {data : Array Single} {marker : Single} {m : Matrix}

/-- What there is to know of a matrix that was made of a buffer. -/
theorem ofDense_eq_ok (h : ofDense id data rows columns marker = .ok m) :
    data.size = rows * columns ∧ rows * columns < sizeBound ∧
      m.toRows = ⟨rows, columns, data.map (markMissing marker)⟩ := by
  unfold ofDense cells? at h
  split at h
  · cases h
  next hcells =>
    split at hcells
    next hlt =>
      unfold ofRows at h
      split at h
      next hsize =>
        rw [Array.size_map] at hsize
        split at h
        · cases h
          exact ⟨hsize, hlt, rfl⟩
        · cases h
      · cases h
    · cases hcells

/-- Of a buffer of the right size a matrix can be made if its sides fit a signed word together,
where a side of zero counts as one. -/
theorem exists_ofDense_iff (id : Nat) (marker : Single) (hsize : data.size = rows * columns) :
    (∃ m, ofDense id data rows columns marker = .ok m) ↔ sidesFit rows columns = true := by
  have hmapped : (data.map (markMissing marker)).size = rows * columns := by
    rw [Array.size_map, hsize]
  constructor
  · rintro ⟨m, h⟩
    by_contra hsides
    have hlt := (ofDense_eq_ok h).2.1
    have hrefused : ofDense id data rows columns marker = .error .shapeTooLarge := by
      unfold ofDense cells? ofRows
      rw [if_pos hlt]
      exact (dif_pos hmapped).trans (if_neg hsides)
    rw [hrefused] at h
    cases h
  · intro hsides
    have hlt : rows * columns < sizeBound := by
      simp only [sidesFit, decide_eq_true_eq] at hsides
      calc rows * columns ≤ max rows 1 * max columns 1 :=
            Nat.mul_le_mul (Nat.le_max_left _ _) (Nat.le_max_left _ _)
        _ < sizeBound := Nat.lt_trans hsides (by decide)
    unfold ofDense cells? ofRows
    rw [if_pos hlt]
    exact ⟨_, (dif_pos hmapped).trans (if_pos hsides)⟩

end Matrix

/-- Rows in place have the values of the matrix of their buffer, or values that trees do not
tell from these. -/
theorem sumsOf_ofDense {id rows columns : Nat} {data : Array Single} {marker : Single} {m : Matrix}
    (h : Matrix.ofDense id data rows columns marker = .ok m) (trees : List OutputTree)
    (outputs : Nat) :
    sumsOf trees m.toRows outputs =
      sumsOf trees (DenseRows.toRows ⟨data, rows, columns, marker⟩) outputs := by
  obtain ⟨-, -, hrows⟩ := Matrix.ofDense_eq_ok h
  rw [hrows]
  unfold DenseRows.toRows
  by_cases hmarker : marker.isNaN = true
  · simp only [hmarker, if_true]
    exact sumsOf_map (keepsNumbers_markMissing hmarker) trees ⟨rows, columns, data⟩ outputs
  · simp only [hmarker]
    rfl

namespace Learner

variable {K : Matrix → Prop} {id rows columns : Nat} {data : Array Single} {marker : Single}
  {m : Matrix}

theorem eq_of_kindOfCode {code : Int32} {kind : PredictionKind} (h : kindOfCode code = .ok kind) :
    kind = .value ∨ kind = .margin := by
  unfold kindOfCode at h
  split at h
  · cases h
    exact .inl rfl
  · split at h
    · cases h
      exact .inr rfl
    · cases h

/-- Values and margins depend on rows only through their number and their sums. -/
theorem plainRows_congr (l : Learner) {kind : PredictionKind}
    (hkind : kind = .value ∨ kind = .margin) {rows rows' : Rows} (hcount : rows.count = rows'.count)
    (hsums : ∀ trees, sumsOf trees rows l.outputs = sumsOf trees rows' l.outputs)
    (first last : UInt32) (baseMargin : Array Single) :
    l.plainRows kind first last rows baseMargin = l.plainRows kind first last rows' baseMargin := by
  rcases hkind with rfl | rfl
  · simp only [plainRows, plainRange, hcount, hsums]
  · simp only [plainRows, plainRange, hcount, hsums]

/-- The trees alone say the same of a matrix and of its buffer. -/
theorem plainMatrix_ofDense (l : Learner)
    (h : Matrix.ofDense id data rows columns marker = .ok m) (baseMargin : Array Single)
    {code : Int32} {kind : PredictionKind} (hkind : kindOfCode code = .ok kind) (limit : UInt32) :
    l.plainMatrix { m with baseMargin } kind.mask limit =
      l.plainDense ⟨data, rows, columns, marker⟩ 0 limit code baseMargin := by
  obtain ⟨hsize, hlt, hrows⟩ := Matrix.ofDense_eq_ok h
  have hcolumns : m.columns = columns := congrArg Rows.columns hrows
  have hcount : m.rows = rows := congrArg Rows.count hrows
  -- A buffer that a matrix was made of has as many values as the shape asks for.
  have hfits : DenseRows.fitsShape ⟨data, rows, columns, marker⟩ = true := by
    unfold DenseRows.fitsShape Matrix.cells?
    rw [if_pos hlt, hsize]
    exact decide_eq_true rfl
  have hdense : l.plainDense ⟨data, rows, columns, marker⟩ 0 limit code baseMargin =
      (l.checkColumns columns >>= fun _ =>
        l.plainRows kind 0 limit (DenseRows.toRows ⟨data, rows, columns, marker⟩) baseMargin) := by
    unfold plainDense
    rw [hkind, hfits]
    rfl
  have hsums (trees : List OutputTree) : sumsOf trees m.toRows l.outputs =
      sumsOf trees (DenseRows.toRows ⟨data, rows, columns, marker⟩) l.outputs :=
    sumsOf_ofDense h trees l.outputs
  have hanswer := l.plainRows_congr (eq_of_kindOfCode hkind) hcount hsums 0 limit baseMargin
  rw [hdense, ← hanswer]
  show (l.checkColumns m.columns >>= fun _ =>
    l.plainRows (.ofMask kind.mask) 0 limit m.toRows baseMargin) = _
  rw [PredictionKind.ofMask_mask, hcolumns]

/-- Take any history of a new learner, a buffer of values with a marker for missing ones of
which a matrix can be made, and a base margin or none. Asked for values or for margins from the
first rounds, the learner answers for the matrix, with the base margin set, and for the
buffer in place alike: with the same error, or with the same numbers, bit by bit. The matrix may
be one that was trained on or asked about before. -/
theorem predict_ofDense (hK : Matrix.Numbered K) (created : List Matrix) (os : List Occasion)
    (hos : ∀ o ∈ os, ∀ m ∈ o.request.matrices, K m)
    (h : Matrix.ofDense id data rows columns marker = .ok m) (baseMargin? : Option (Array Single))
    (hm : K { m with baseMargin := baseMargin?.getD #[] })
    {code : Int32} {kind : PredictionKind} (hkind : kindOfCode code = .ok kind) (limit : UInt32)
    (files : Files) :
    let l := (create created).after os
    (respond files (.predict { m with baseMargin := baseMargin?.getD #[] } kind.mask limit) l).1 =
      (respond files (.predictDense ⟨data, rows, columns, marker⟩ 0 limit code baseMargin?) l).1 := by
  intro l
  have hagree : l.Agree K True l :=
    ((agree_create K True created).run hK fun o ho => ⟨hos o ho, fun _ => trivial⟩).2
  show (predict _ kind.mask limit l).1 = (predictDense _ 0 limit code _ l).1
  rw [predict_fst hK hagree.sound hm, predictDense_eq]
  exact l.plainMatrix_ofDense h _ hkind limit

theorem predict_ofDense_payload :
    ∃ m, Matrix.ofDense 7 #[⟨0x7fc00001⟩, 2] 1 2 ⟨0xffc00005⟩ = .ok m ∧
      let l := (create [m]).after [⟨.empty, .predict m 0 0⟩]
      (respond .empty (.predict { m with baseMargin := #[1] } PredictionKind.margin.mask 3) l).1 =
        (respond .empty
          (.predictDense ⟨#[⟨0x7fc00001⟩, 2], 1, 2, ⟨0xffc00005⟩⟩ 0 3 1 (some #[1])) l).1 := by
  have hsize : (#[⟨0x7fc00001⟩, 2] : Array Single).size = 1 * 2 := rfl
  obtain ⟨m, h⟩ := (Matrix.exists_ofDense_iff 7 ⟨0xffc00005⟩ hsize).mpr (by decide)
  -- All matrices under consideration have the rows of this one.
  have hnumbered : Matrix.Numbered fun n => n.toRows = m.toRows :=
    fun n n' hn hn' _ => hn.trans hn'.symm
  refine ⟨m, h, predict_ofDense hnumbered [m] _ ?_ h (some #[1]) rfl rfl 3 .empty⟩
  intro o ho n hn
  rw [List.mem_singleton.mp ho] at hn
  rw [List.mem_singleton.mp hn]

end Learner

end BoostedTrees
