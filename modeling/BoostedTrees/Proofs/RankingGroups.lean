import BoostedTrees.Proofs.FailedRequests

/-!
# Ranking looks at one query group at a time

The ranking objective compares rows pair by pair, and a pair changes the entries of both rows. In
place this is a pass over the groups, in two arrays for all rows: the rows of a group stand between
two running sums of the group sizes, and its pairs are counted in at these places. What is computed
instead is the gradient of every group alone, one after another.

Both give the same, bit for bit. A pair counted in at places of the middle part of an array changes
this part only, and there as if it stood alone. So behind each group the arrays hold the gradients
of the groups so far and zeros for all other rows, however many groups are empty. In particular
the entries of a group are those of a matrix that has the rows of this group and nothing else.

## Main definitions

* `Matrix.groupSpan`: the rows of a query group, counted from the group sizes
* `Matrix.group`: a query group as a matrix of its own
* `Objective.rankRange`, `Objective.rankPass`: the pass in place

## Main results

* `Objective.rankPair_middle`: a pair of rows changes one part of the arrays
* `Objective.foldl_rankRange`: what the pass leaves behind the groups so far
* `Gradient.within_foldl`: every part is found again in its run of rows
* `Objective.gradient_pairwiseRank`: the gradient is local to the query groups
-/

namespace BoostedTrees

/-! ## Parts of arrays -/

section Parts

variable {β : Type} {before middle after : Array β} {start i : Nat}

theorem modify_append_middle (hstart : before.size = start) (hi : i < middle.size) (f : β → β) :
    (before ++ middle ++ after).modify (start + i) f = before ++ middle.modify i f ++ after := by
  subst hstart
  apply Array.ext_getElem?
  intro k
  grind

theorem modify_twice_append_middle {j : Nat} (hstart : before.size = start) (hi : i < middle.size)
    (hj : j < middle.size) (f f' : β → β) :
    ((before ++ middle ++ after).modify (start + i) f).modify (start + j) f' =
      before ++ (middle.modify i f).modify j f' ++ after := by
  rw [modify_append_middle hstart hi, modify_append_middle hstart]
  rwa [Array.size_modify]

theorem extract_append_middle {s : Span} (hstart : before.size = s.start)
    (hlength : middle.size = s.length) : s.slice (before ++ middle ++ after) = middle := by
  rw [Span.slice, Span.stop, Array.extract_append, Array.extract_append, ← hstart, ← hlength]
  simp [Array.size_append]

theorem getD_extract {a : Array β} {stop : Nat} (hi : start + i < stop) (b : β) :
    (a.extract start stop).getD i b = a.getD (start + i) b := by
  rw [Array.getD_eq_getD_getElem?, Array.getD_eq_getD_getElem?, Array.getElem?_extract]
  split
  · rfl
  · -- Cut short, the array ends before the place.
    rw [Array.getElem?_eq_none]
    omega

end Parts

/-! ## Runs of rows -/

namespace Span

/-- Whether a row belongs to the run. -/
def Contains (s : Span) (i : Nat) : Prop := s.start ≤ i ∧ i < s.stop

theorem size_slice {α : Type} (s : Span) {a : Array α} (h : s.stop ≤ a.size) :
    (s.slice a).size = s.length := by
  rw [slice, Array.size_extract, Nat.min_eq_left h]
  exact Nat.add_sub_cancel_left s.start s.length

/-- The first rows of a run are all rows of it. -/
theorem slice_slice {α : Type} (s : Span) (a : Array α) :
    slice ⟨0, s.length⟩ (s.slice a) = s.slice a := by
  rw [slice, slice, Array.extract_extract]
  simp only [stop, Nat.add_zero, Nat.zero_add, Nat.min_self]

theorem take_chain (start : Nat) (lengths : List Nat) (q : Nat) :
    (chain start lengths).take q = chain start (lengths.take q) := by
  induction lengths generalizing start q with
  | nil => simp only [chain, List.take_nil]
  | cons length rest ih =>
    cases q with
    | zero => rfl
    | succ q => rw [chain, List.take_succ_cons, ih, List.take_succ_cons, chain]

/-- The runs stand between the running sums of their lengths. -/
theorem zip_scanl_tail (start : Nat) (lengths : List Nat) :
    (lengths.scanl (· + ·) start).zip (lengths.scanl (· + ·) start).tail =
      (chain start lengths).map fun s => (s.start, s.stop) := by
  induction lengths generalizing start with
  | nil => rfl
  | cons length rest ih =>
    obtain ⟨sums, hsums⟩ : ∃ sums, rest.scanl (· + ·) (start + length) = (start + length) :: sums := by
      cases rest with
      | nil => exact ⟨[], List.scanl_nil⟩
      | cons length' rest => exact ⟨_, List.scanl_cons⟩
    have hrest := ih (start + length)
    rw [hsums] at hrest
    rw [List.scanl_cons, List.tail_cons, hsums]
    exact congrArg ((start, start + length) :: ·) hrest

/-- A run starts behind all that come before it. -/
theorem getElem?_chain (start : Nat) (lengths : List Nat) (q : Nat) :
    (chain start lengths)[q]? = lengths[q]?.map (⟨start + (lengths.take q).sum, ·⟩) := by
  induction lengths generalizing start q with
  | nil => rfl
  | cons length rest ih =>
    cases q with
    | zero => rfl
    | succ q =>
      rw [chain, List.getElem?_cons_succ, ih, List.getElem?_cons_succ, List.take_succ_cons,
        List.sum_cons, Nat.add_assoc]

/-- Every row stands in one of the runs that follow each other, and in no other. -/
theorem existsUnique_run (lengths : List Nat) {i : Nat} (hi : i < lengths.sum) :
    ∃! q, q < lengths.length ∧ Contains ⟨(lengths.take q).sum, lengths.getD q 0⟩ i := by
  induction lengths generalizing i with
  | nil => exact absurd hi (Nat.not_lt_zero i)
  | cons length rest ih =>
    rw [List.sum_cons] at hi
    by_cases hfirst : i < length
    · refine ⟨0, ⟨Nat.succ_pos _, Nat.zero_le i, by simpa [stop] using hfirst⟩, ?_⟩
      rintro (_ | q) ⟨-, hle, -⟩
      · rfl
      · -- Any other run starts behind the first one.
        simp only [List.take_succ_cons, List.sum_cons] at hle
        omega
    · obtain ⟨q, ⟨hq, hstart, hstop⟩, hunique⟩ := @ih (i - length) (by omega)
      simp only [stop] at hstart hstop
      refine ⟨q + 1, ⟨Nat.succ_lt_succ hq, ?_, ?_⟩, ?_⟩
      · simp only [List.take_succ_cons, List.sum_cons]
        omega
      · simp only [stop, List.take_succ_cons, List.sum_cons, List.getD_cons_succ]
        omega
      · rintro (_ | q') ⟨hq', hstart', hstop'⟩
        · simp only [stop, List.take_zero, List.sum_nil, List.getD_cons_zero] at hstop'
          omega
        · simp only [stop, List.take_succ_cons, List.sum_cons, List.getD_cons_succ] at hstart' hstop'
          refine congrArg (· + 1) (hunique q' ⟨Nat.lt_of_succ_lt_succ hq', ?_, ?_⟩)
          · dsimp only
            omega
          · simp only [stop]
            omega

end Span

/-! ## Query groups -/

namespace Matrix

variable (m : Matrix)

/-- Where the query groups begin, and last where the rows end. -/
def groupBounds : List Nat := m.groupLengths.scanl (· + ·) 0

/-- The rows of a query group stand behind those of the groups before it. -/
def groupSpan (q : Nat) : Span :=
  ⟨((m.groups.take q).map (·.toNat)).sum, (m.groups.getD q 0).toNat⟩

/-- A query group as a matrix of its own. It has a weight if the groups have weights. -/
def group (q : Nat) : Matrix where
  id := m.id
  rows := (m.groupSpan q).length
  columns := m.columns
  values := (Array.range ((m.groupSpan q).length * m.columns)).map fun k =>
    m.values.getD ((m.groupSpan q).start * m.columns + k) .nan
  labels := (m.groupSpan q).slice m.labels
  weights := if m.weights.isEmpty then #[] else #[m.groupWeight q]
  groups := [m.groups.getD q 0]
  baseMargin := (m.groupSpan q).slice m.baseMargin
  size_values := by rw [Array.size_map, Array.size_range]

/-- There are query groups that cover the rows, and a label for every row. -/
structure Grouped : Prop where
  groups_ne_nil : m.groups ≠ []
  sum_groups : (m.groups.map (·.toNat)).sum = m.rows
  size_labels : m.labels.size = m.rows

theorem groupLengths_of_ne_nil {m : Matrix} (hgroups : m.groups ≠ []) :
    m.groupLengths = m.groups.map (·.toNat) := by
  rw [groupLengths, List.isEmpty_eq_false_iff.mpr hgroups]
  rfl

/-- A group keeps its weight when it stands alone. -/
theorem groupWeight_group (q : Nat) : (m.group q).groupWeight 0 = m.groupWeight q := by
  by_cases hweights : m.weights.isEmpty
  · have hnone : m.weights = #[] := Array.isEmpty_iff.mp hweights
    -- There is a group in `m` for every weight of none only if there is no group.
    have hone : m.groupWeight q = 1 := by
      rw [groupWeight, if_neg]
      rintro ⟨hsize, hgroups⟩
      rw [hnone, Array.size_empty] at hsize
      exact hgroups (List.eq_nil_of_length_eq_zero hsize.symm)
    rw [hone]
    simp [groupWeight, group, hweights]
  · simp [groupWeight, group, hweights]

/-- The rows of a group are the run at its place. -/
theorem getElem?_groupSpans {m : Matrix} (hgroups : m.groups ≠ []) {q : Nat}
    (hq : q < m.groups.length) : m.groupSpans[q]? = some (m.groupSpan q) := by
  rw [groupSpans, groupLengths_of_ne_nil hgroups, Span.getElem?_chain, List.getElem?_map,
    List.getElem?_eq_getElem hq, groupSpan, List.getD_eq_getElem?_getD,
    List.getElem?_eq_getElem hq, List.map_take, Nat.zero_add]
  rfl

theorem getD_map_toNat (groups : List UInt32) (q : Nat) :
    (groups.map (·.toNat)).getD q 0 = (groups.getD q 0).toNat := by
  simp only [List.getD_eq_getElem?_getD, List.getElem?_map]
  cases groups[q]? <;> rfl

namespace Grouped

variable {m : Matrix} (hm : m.Grouped) {q : Nat} (hq : q < m.groups.length)
include hm hq

theorem stop_groupSpan_le : (m.groupSpan q).stop ≤ m.labels.size := by
  have hlt : q < (m.groups.map (·.toNat)).length := by rwa [List.length_map]
  have htake : (m.groupSpan q).stop = ((m.groups.map (·.toNat)).take (q + 1)).sum := by
    rw [List.take_add_one, List.getElem?_eq_getElem hlt, Option.toList_some, List.sum_append_nat,
      List.sum_singleton, ← List.map_take, List.getElem_map, groupSpan,
      List.getD_eq_getElem?_getD, List.getElem?_eq_getElem hq]
    rfl
  rw [hm.size_labels, ← hm.sum_groups, htake]
  conv_rhs => rw [← List.take_append_drop (q + 1) (m.groups.map (·.toNat)), List.sum_append_nat]
  exact Nat.le_add_right ..

/-- A group alone is a matrix with one group. -/
theorem group : (m.group q).Grouped where
  groups_ne_nil := List.cons_ne_nil _ _
  sum_groups := Nat.add_zero _
  size_labels := Span.size_slice _ (hm.stop_groupSpan_le hq)

end Grouped

/-- Three queries with two, no and three rows, and a weight for each. -/
def threeQueries : Matrix where
  id := 0
  rows := 5
  columns := 1
  values := #[0, 0, 0, 0, 0]
  labels := #[1, 0, 0, 2, 1]
  weights := #[2, 1, 3]
  groups := [2, 0, 3]
  baseMargin := #[]
  size_values := rfl

end Matrix

/-! ## Parts of gradients -/

namespace Gradient

/-- The gradient before anything was counted in. -/
def zeros (n : Nat) : Gradient := ⟨Array.replicate n 0, Array.replicate n 0⟩

/-- The part of a gradient that belongs to a run of rows. -/
def within (s : Span) (g : Gradient) : Gradient := ⟨s.slice g.first, s.slice g.second⟩

/-- No second derivative is flatter than the least. -/
def lifted (g : Gradient) : Gradient := ⟨g.first, g.second.map (Single.larger · Objective.flattest)⟩

theorem hasSize_zeros (n : Nat) : (zeros n).HasSize n :=
  ⟨Array.size_replicate, Array.size_replicate⟩

theorem append_assoc (a b c : Gradient) : a ++ b ++ c = a ++ (b ++ c) :=
  congrArg₂ mk Array.append_assoc Array.append_assoc

theorem append_empty (g : Gradient) : g ++ empty = g :=
  congrArg₂ mk Array.append_empty Array.append_empty

theorem empty_append (g : Gradient) : empty ++ g = g :=
  congrArg₂ mk Array.empty_append Array.empty_append

theorem zeros_add (n n' : Nat) : zeros (n + n') = zeros n ++ zeros n' :=
  congrArg₂ mk Array.replicate_append_replicate.symm Array.replicate_append_replicate.symm

theorem lifted_empty : empty.lifted = empty := congrArg (mk _) Array.map_empty

theorem lifted_append (a b : Gradient) : (a ++ b).lifted = a.lifted ++ b.lifted :=
  congrArg (mk _) Array.map_append

/-- What comes later in a row of gradients does not look at what comes before. -/
theorem foldl_append_eq (g : Gradient) (parts : List Gradient) :
    parts.foldl (· ++ ·) g = g ++ parts.foldl (· ++ ·) empty := by
  induction parts generalizing g with
  | nil => exact (append_empty g).symm
  | cons part rest ih =>
    rw [List.foldl_cons, List.foldl_cons, ih (g ++ part), ih (empty ++ part), empty_append,
      append_assoc]

theorem lifted_foldl (g : Gradient) (parts : List Gradient) :
    (parts.foldl (· ++ ·) g).lifted = (parts.map lifted).foldl (· ++ ·) g.lifted := by
  induction parts generalizing g with
  | nil => rfl
  | cons part rest ih => rw [List.foldl_cons, ih, lifted_append, List.map_cons, List.foldl_cons]

theorem within_middle {s : Span} {before middle : Gradient} (hbefore : before.HasSize s.start)
    (hmiddle : middle.HasSize s.length) (after : Gradient) :
    within s (before ++ middle ++ after) = middle := by
  refine congrArg₂ mk ?_ ?_
  · exact extract_append_middle hbefore.1 hmiddle.1
  · exact extract_append_middle hbefore.2 hmiddle.2

/-- Every part is found again in its run of rows. -/
theorem within_foldl {ι : Type} {part : ι → Gradient} {size : ι → Nat}
    (h : ∀ i, (part i).HasSize (size i)) {is : List ι} {q : Nat} {i : ι} (hq : is[q]? = some i) :
    within ⟨((is.take q).map size).sum, size i⟩ ((is.map part).foldl (· ++ ·) empty) = part i := by
  obtain ⟨hlt, hi⟩ := List.getElem?_eq_some_iff.mp hq
  have hbefore := hasSize_foldl h (is.take q) (g := empty) (n := 0) ⟨rfl, rfl⟩
  rw [Nat.zero_add] at hbefore
  have hsplit : (is.map part).foldl (· ++ ·) empty =
      ((is.take q).map part).foldl (· ++ ·) empty ++ part i ++
        ((is.drop (q + 1)).map part).foldl (· ++ ·) empty := by
    conv_lhs => rw [← List.take_append_drop q is, List.drop_eq_getElem_cons hlt, hi]
    rw [List.map_append, List.foldl_append, List.map_cons, List.foldl_cons, foldl_append_eq]
  rw [hsplit]
  exact within_middle hbefore (h i) _

end Gradient

/-! ## The pass in place -/

namespace Objective

/-- Counts in every pair of rows between two bounds, in arrays for all rows. -/
def rankRange (weight : Single) (margins labels : Array Single) (g : Gradient)
    (start stop : Nat) : Gradient :=
  let rows := List.range' start (stop - start)
  let pairs := (rows.flatMap fun i => rows.map fun j => (i, j)).filter fun (i, j) =>
    !decide (labels.getD i 0 ≤ labels.getD j 0)
  pairs.foldl (rankPair weight margins) g

/-- The gradient of a ranking in two arrays for all rows: a group is what lies between two
bounds that follow each other. -/
def rankPass (m : Matrix) (margins : Array Single) : Gradient :=
  let windows := m.groupBounds.zip m.groupBounds.tail
  let g := windows.zipIdx.foldl (fun g (window, q) =>
    rankRange (m.groupWeight q) margins m.labels g window.1 window.2) (.zeros m.rows)
  g.lifted

/-- What the pairs of one query group add up to. -/
def rankPairs (weight : Single) (margins labels : Array Single) : Gradient :=
  ((orderedPairs labels.size).filter fun (i, j) =>
    !decide (labels.getD i 0 ≤ labels.getD j 0)).foldl (rankPair weight margins)
      (.zeros labels.size)

theorem rankGroup_eq_lifted (weight : Single) (margins labels : Array Single) :
    rankGroup weight margins labels = (rankPairs weight margins labels).lifted := rfl

variable {weight : Single} {margins labels : Array Single} {s : Span}
  {before middle after : Gradient}

/-- A pair of rows of one run changes this run, and there as if it stood alone. -/
theorem rankPair_middle (hbefore : before.HasSize s.start) (hmiddle : middle.HasSize s.length)
    {i j : Nat} (hi : i < s.length) (hj : j < s.length) :
    rankPair weight margins (before ++ middle ++ after) (s.start + i, s.start + j) =
      before ++ rankPair weight (s.slice margins) middle (i, j) ++ after := by
  have hmargin : ∀ k < s.length, (s.slice margins).getD k 0 = margins.getD (s.start + k) 0 :=
    fun k hk => getD_extract (Nat.add_lt_add_left hk s.start) 0
  obtain ⟨hfirst, hsecond⟩ := hmiddle
  simp only [rankPair, hmargin i hi, hmargin j hj]
  refine congrArg₂ Gradient.mk ?_ ?_
  · exact modify_twice_append_middle hbefore.1 (hfirst ▸ hi) (hfirst ▸ hj) _ _
  · exact modify_twice_append_middle hbefore.2 (hsecond ▸ hi) (hsecond ▸ hj) _ _

/-- The pairs of one run, one after another. -/
theorem foldl_rankPair_middle (hbefore : before.HasSize s.start)
    (hmiddle : middle.HasSize s.length) (pairs : List (Nat × Nat))
    (hpairs : ∀ p ∈ pairs, p.1 < s.length ∧ p.2 < s.length) :
    (pairs.map fun p => (s.start + p.1, s.start + p.2)).foldl (rankPair weight margins)
        (before ++ middle ++ after) =
      before ++ pairs.foldl (rankPair weight (s.slice margins)) middle ++ after := by
  induction pairs generalizing middle with
  | nil => rfl
  | cons p rest ih =>
    obtain ⟨hi, hj⟩ := hpairs p List.mem_cons_self
    rw [List.map_cons, List.foldl_cons, rankPair_middle hbefore hmiddle hi hj]
    exact ih (hasSize_rankPair hmiddle p) fun p' hp' => hpairs p' (List.mem_cons_of_mem p hp')

theorem mem_orderedPairs {n : Nat} {p : Nat × Nat} (hp : p ∈ orderedPairs n) :
    p.1 < n ∧ p.2 < n := by
  obtain ⟨i, hi, hp⟩ := List.mem_flatMap.mp hp
  obtain ⟨j, hj, rfl⟩ := List.mem_map.mp hp
  exact ⟨List.mem_range.mp hi, List.mem_range.mp hj⟩

/-- The pairs of rows between two bounds are those of the first rows, moved. -/
theorem pairs_range' (start n : Nat) :
    ((List.range' start n).flatMap fun i => (List.range' start n).map fun j => (i, j)) =
      (orderedPairs n).map fun p => (start + p.1, start + p.2) := by
  simp only [orderedPairs, List.range'_eq_map_range, List.flatMap_map, List.map_flatMap,
    List.map_map, Function.comp_def]

/-- A run of rows for which nothing was counted in yet gets the gradient of these rows alone. -/
theorem rankRange_middle (hbefore : before.HasSize s.start) (hlabels : s.stop ≤ labels.size) :
    rankRange weight margins labels (before ++ .zeros s.length ++ after) s.start s.stop =
      before ++ rankPairs weight (s.slice margins) (s.slice labels) ++ after := by
  have hlength : s.stop - s.start = s.length := Nat.add_sub_cancel_left s.start s.length
  have hsize : (s.slice labels).size = s.length := s.size_slice hlabels
  have hlabel : ∀ k < s.length, (s.slice labels).getD k 0 = labels.getD (s.start + k) 0 :=
    fun k hk => getD_extract (Nat.add_lt_add_left hk s.start) 0
  -- Whether a pair counts is seen in the labels of the run.
  have hcounts : (orderedPairs s.length).filter ((fun p => !decide (labels.getD p.1 0 ≤
      labels.getD p.2 0)) ∘ fun p => (s.start + p.1, s.start + p.2)) =
      (orderedPairs s.length).filter fun p =>
        !decide ((s.slice labels).getD p.1 0 ≤ (s.slice labels).getD p.2 0) := by
    apply List.filter_congr
    rintro p hp
    obtain ⟨hi, hj⟩ := mem_orderedPairs hp
    simp only [Function.comp_apply, hlabel _ hi, hlabel _ hj]
  simp only [rankRange, rankPairs, hlength, hsize, pairs_range', List.filter_map, hcounts]
  apply foldl_rankPair_middle hbefore (Gradient.hasSize_zeros s.length)
  exact fun p hp => mem_orderedPairs (List.mem_of_mem_filter hp)

theorem hasSize_rankPairs (weight : Single) (margins labels : Array Single) :
    (rankPairs weight margins labels).HasSize labels.size := by
  have hgroup := hasSize_rankGroup weight margins labels
  rw [rankGroup_eq_lifted] at hgroup
  obtain ⟨hfirst, hsecond⟩ := hgroup
  exact ⟨hfirst, (Array.size_map ..).symm.trans hsecond⟩

/-- Behind the groups so far the arrays hold what these groups give, and zeros for the rest. -/
theorem foldl_rankRange (weight : Nat → Single) (lengths : List Nat) {start : Nat} (q : Nat)
    (hbefore : before.HasSize start) (hlabels : start + lengths.sum ≤ labels.size) :
    ((Span.chain start lengths).zipIdx q).foldl (fun g p =>
        rankRange (weight p.2) margins labels g p.1.start p.1.stop)
        (before ++ .zeros lengths.sum) =
      (((Span.chain start lengths).zipIdx q).map fun p =>
        rankPairs (weight p.2) (p.1.slice margins) (p.1.slice labels)).foldl (· ++ ·) before := by
  -- With every group its part joins what stands before, and as many zeros are used up.
  induction lengths generalizing start q before with
  | nil => exact Gradient.append_empty before
  | cons length rest ih =>
    rw [List.sum_cons] at hlabels
    let s : Span := ⟨start, length⟩
    have hstop : s.stop ≤ labels.size := by
      simp only [s, Span.stop]
      omega
    have hpart : (rankPairs (weight q) (s.slice margins) (s.slice labels)).HasSize length := by
      have h := hasSize_rankPairs (weight q) (s.slice margins) (s.slice labels)
      rwa [s.size_slice hstop] at h
    rw [List.sum_cons, Gradient.zeros_add, ← Gradient.append_assoc, Span.chain,
      List.zipIdx_cons, List.foldl_cons, List.map_cons, List.foldl_cons]
    rw [rankRange_middle (s := s) hbefore hstop]
    exact ih (q + 1) (hbefore.append hpart) (by omega)

/-- The pass in place gives the gradients of the groups, one after another. -/
theorem rankPass_eq {m : Matrix} (hsum : m.groupLengths.sum = m.rows)
    (hlabels : m.labels.size = m.rows) (outputs : Nat) (margins : Array Single) :
    rankPass m margins = pairwiseRank.gradient outputs m margins := by
  have hwindows : m.groupBounds.zip m.groupBounds.tail =
      m.groupSpans.map fun s => (s.start, s.stop) := Span.zip_scanl_tail 0 m.groupLengths
  have hrun := @foldl_rankRange margins m.labels .empty m.groupWeight m.groupLengths 0 0
    ⟨rfl, rfl⟩ (by omega)
  rw [Gradient.empty_append, hsum] at hrun
  simp only [rankPass, hwindows, List.zipIdx_map, List.foldl_map]
  refine (congrArg Gradient.lifted hrun).trans ?_
  rw [Gradient.lifted_foldl, List.map_map, Gradient.lifted_empty]
  rfl

/-! ## Groups alone -/

variable {m : Matrix}

/-- The gradient of a group alone. -/
theorem gradient_group (outputs q : Nat) (margins : Array Single) :
    pairwiseRank.gradient outputs (m.group q) ((m.groupSpan q).slice margins) =
      rankGroup (m.groupWeight q) ((m.groupSpan q).slice margins)
        ((m.groupSpan q).slice m.labels) := by
  have hone : pairwiseRank.gradient outputs (m.group q) ((m.groupSpan q).slice margins) =
      Gradient.empty ++ rankGroup ((m.group q).groupWeight 0)
        ((⟨0, (m.groupSpan q).length⟩ : Span).slice ((m.groupSpan q).slice margins))
        ((⟨0, (m.groupSpan q).length⟩ : Span).slice ((m.groupSpan q).slice m.labels)) := rfl
  rw [hone, Gradient.empty_append, m.groupWeight_group, Span.slice_slice, Span.slice_slice]

/-- The entries of a group are the gradient on the rows of the group. -/
theorem within_gradient (hm : m.Grouped) (outputs : Nat) (margins : Array Single) {q : Nat}
    (hq : q < m.groups.length) :
    (pairwiseRank.gradient outputs m margins).within (m.groupSpan q) =
      rankGroup (m.groupWeight q) ((m.groupSpan q).slice margins)
        ((m.groupSpan q).slice m.labels) := by
  have hspan := Matrix.getElem?_groupSpans hm.groups_ne_nil hq
  have hplace : m.groupSpans.zipIdx[q]? = some (m.groupSpan q, q) := by
    rw [List.getElem?_zipIdx, hspan, Option.map_some, Nat.zero_add]
  have hstop := hm.stop_groupSpan_le hq
  -- The runs before this one cut out of the labels what they are long.
  have hstart : ((m.groupSpans.zipIdx.take q).map fun p => (p.1.slice m.labels).size).sum =
      (m.groupSpan q).start := by
    have hfst : (m.groupSpans.zipIdx.take q).map (fun p => (p.1.slice m.labels).size) =
        (m.groupSpans.take q).map fun s => (s.slice m.labels).size := by
      conv_rhs => rw [← List.zipIdx_map_fst 0 m.groupSpans, ← List.map_take, List.map_map]
      rfl
    rw [hfst, Matrix.groupSpans, Matrix.groupLengths_of_ne_nil hm.groups_ne_nil,
      Span.take_chain, ← List.map_take]
    apply sum_size_slice_chain
    rw [Nat.zero_add]
    exact Nat.le_trans (Nat.le_add_right ..) hstop
  have hlength : ((m.groupSpan q).slice m.labels).size = (m.groupSpan q).length :=
    Span.size_slice _ hstop
  have h := Gradient.within_foldl (fun p : Span × Nat => hasSize_rankGroup (m.groupWeight p.2)
    (p.1.slice margins) (p.1.slice m.labels)) hplace
  rwa [hstart, hlength] at h

/-- Ranking is local to the query groups. What is computed group by group is what the pass in
place leaves in arrays for all rows. Every row stands in exactly one group. The entries of a
group are those of a matrix that has this group only, and so no labels, margins or weight of
another group can change them. -/
theorem gradient_pairwiseRank (hm : m.Grouped) (outputs : Nat) (margins : Array Single) :
    pairwiseRank.gradient outputs m margins = rankPass m margins ∧
      (pairwiseRank.gradient outputs m margins).HasSize m.rows ∧
      (∀ i < m.rows, ∃! q, q < m.groups.length ∧ (m.groupSpan q).Contains i) ∧
      ∀ q < m.groups.length,
        (m.group q).Grouped ∧
        pairwiseRank.gradient outputs (m.group q) ((m.groupSpan q).slice margins) =
          (pairwiseRank.gradient outputs m margins).within (m.groupSpan q) ∧
        ∀ (m' : Matrix) (margins' : Array Single), m'.Grouped → m'.groups = m.groups →
          (m.groupSpan q).slice m'.labels = (m.groupSpan q).slice m.labels →
          (m.groupSpan q).slice margins' = (m.groupSpan q).slice margins →
          m'.groupWeight q = m.groupWeight q →
          (pairwiseRank.gradient outputs m' margins').within (m.groupSpan q) =
            (pairwiseRank.gradient outputs m margins).within (m.groupSpan q) := by
  have hlengths := Matrix.groupLengths_of_ne_nil hm.groups_ne_nil
  have hcovered : m.groupLengths.sum = m.rows := hlengths ▸ hm.sum_groups
  refine ⟨(rankPass_eq hcovered hm.size_labels outputs margins).symm,
    hasSize_perGroup hcovered hm.size_labels, ?_, ?_⟩
  · intro i hi
    simpa only [Matrix.groupSpan, List.length_map, List.map_take, Matrix.getD_map_toNat]
      using Span.existsUnique_run (m.groups.map (·.toNat)) (hm.sum_groups ▸ hi)
  · rintro q hq
    refine ⟨hm.group hq, ?_, ?_⟩
    · rw [gradient_group, within_gradient hm outputs margins hq]
    · rintro m' margins' hm' hgroups hlabels hmargins hweight
      have hspan : m'.groupSpan q = m.groupSpan q := by rw [Matrix.groupSpan, hgroups]; rfl
      have h := within_gradient hm' outputs margins' (q := q) (hgroups ▸ hq)
      rw [hspan, hlabels, hmargins, hweight] at h
      rw [h, within_gradient hm outputs margins hq]

/-- Two queries with two and three rows and one without rows between them, each with a weight. -/
theorem gradient_pairwiseRank_threeQueries :
    Matrix.threeQueries.Grouped ∧
      pairwiseRank.gradient 1 (Matrix.threeQueries.group 2) #[3, 1, 2] =
        (pairwiseRank.gradient 1 Matrix.threeQueries #[0, 1, 3, 1, 2]).within ⟨2, 3⟩ := by
  have hm : Matrix.threeQueries.Grouped := ⟨by decide, by decide, by decide⟩
  exact ⟨hm, ((gradient_pairwiseRank hm 1 #[0, 1, 3, 1, 2]).2.2.2 2 (by decide)).2.1⟩

end Objective

end BoostedTrees
