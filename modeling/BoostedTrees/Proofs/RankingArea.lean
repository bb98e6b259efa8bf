import BoostedTrees.Metric.Ranking
import BoostedTrees.Proofs.NumberSteps

/-!
# The area under the curve counts pairs

The walk down a ranking adds one trapezoid for every tie. Its width is the weight of the negative
rows of the tie, and its mean height is the weight of the positive rows above the tie and half of
those in it. So every pair of a positive and a negative row is counted once, at the tie of the
negative row: whole if the positive row stands above, half if it stands in the same tie.

The sort is finer than the ties, for it tells a zero from a negative zero. This changes the order
of rows within a tie only, and a tie takes its rows in any order. Weights are read into any field
in which there is a half, where nothing is rounded.

## Main definitions

* `Ranking.credit`: what a positive row is worth against a negative one
* `Ranking.pairCredits`: the credits of all pairs, with both weights
* `Ranking.Walk.behind`: where the walk should be behind given rows

## Main results

* `Ranking.Walk.addTie_behind`: a tie adds the pairs of its negative rows
* `Ranking.Walk.foldl_addTie`: the walk is always where it should be
* `Ranking.pairwise_ties`: ties are groups of equal scores, from the highest to the lowest
* `Ranking.rocArea?_eq_pairCredits`: the area is the share of the pairs
-/

namespace BoostedTrees

/-- What is the same number as another is no NaN, and neither is the other. -/
theorem Single.isNaN_of_sameNumber {x y : Single} (h : x.sameNumber y) :
    x.isNaN = false ∧ y.isNaN = false := by
  have hbeq : x.unpacked.beq y.unpacked := h
  constructor
  · apply Bool.eq_false_iff.mpr
    intro hx
    rw [unpacked_of_isNaN hx] at hbeq
    generalize y.unpacked = v at hbeq
    cases v <;> cases hbeq
  · apply Bool.eq_false_iff.mpr
    intro hy
    rw [unpacked_of_isNaN hy] at hbeq
    generalize x.unpacked = u at hbeq
    cases u <;> cases hbeq

namespace Ranking

/-- The rows that count as positive. -/
def positives (samples : List Sample) : List Sample := samples.filter (·.isPositive)

/-- The rows that do not count as positive. -/
def negatives (samples : List Sample) : List Sample := samples.filter (!·.isPositive)

/-! ## Pairs -/

section Pairs

variable {α : Type} [Field α] (read : Single → α)

/-- The weight of rows together. -/
def weightOf (samples : List Sample) : α := (samples.map (read ·.weight)).sum

/-- What a positive row is worth against a negative one: one if it has the higher score, a half
if both scores are the same number. -/
def credit (p n : Sample) : α :=
  if n.score < p.score then 1 else if p.score.sameNumber n.score then 1 / 2 else 0

/-- The credits of positive rows against negative ones, each pair with both weights. -/
def pairCredits (ps ns : List Sample) : α :=
  (ps.map fun p => (ns.map fun n => read p.weight * read n.weight * credit p n).sum).sum

@[simp] theorem weightOf_append (samples more : List Sample) :
    weightOf read (samples ++ more) = weightOf read samples + weightOf read more := by
  simp [weightOf]

theorem pairCredits_append_left (ps ps' ns : List Sample) :
    pairCredits read (ps ++ ps') ns = pairCredits read ps ns + pairCredits read ps' ns := by
  simp [pairCredits]

theorem pairCredits_append_right (ps ns ns' : List Sample) :
    pairCredits read ps (ns ++ ns') = pairCredits read ps ns + pairCredits read ps ns' := by
  simp [pairCredits, List.sum_map_add]

/-- Where all pairs have the same credit, the weights are multiplied out. -/
theorem pairCredits_eq {ps ns : List Sample} {c : α} (h : ∀ p ∈ ps, ∀ n ∈ ns, credit p n = c) :
    pairCredits read ps ns = weightOf read ps * weightOf read ns * c := by
  have hrow : ∀ p ∈ ps, (ns.map fun n => read p.weight * read n.weight * credit p n).sum =
      read p.weight * (weightOf read ns * c) := by
    intro p hp
    rw [weightOf, ← List.sum_map_mul_right, ← List.sum_map_mul_left]
    congr 1
    apply List.map_congr_left
    intro n hn
    rw [h p hp n hn, mul_assoc]
  rw [pairCredits, List.map_congr_left hrow, List.sum_map_mul_right, mul_assoc]
  rfl

/-- The credit of a pair by what the scores count. -/
theorem credit_eq {p n : Sample} (hp : p.score.isNaN = false) (hn : n.score.isNaN = false) :
    (credit p n : α) = if n.score.steps < p.score.steps then 1
      else if p.score.steps = n.score.steps then 1 / 2 else 0 := by
  simp only [credit, Single.lt_iff hn hp, Single.sameNumber_iff hp hn]

end Pairs

/-! ## The walk -/

namespace Walk

variable {α : Type} [Field α] (read : Single → α)

/-- Where the walk should be behind rows: at their weights, and at the credits of their pairs. -/
def behind (samples : List Sample) : Walk α where
  positive := weightOf read (positives samples)
  negative := weightOf read (negatives samples)
  area := pairCredits read (positives samples) (negatives samples)

/-- The rows of a tie add their weights, in whatever order they come. -/
theorem foldl_addWeight (w : Walk α) (tie : List Sample) :
    tie.foldl (addWeight read) w =
      { w with
        positive := w.positive + weightOf read (positives tie)
        negative := w.negative + weightOf read (negatives tie) } := by
  induction tie generalizing w with
  | nil => simp [weightOf, positives, negatives]
  | cons s tie ih =>
    rw [List.foldl_cons, ih, addWeight]
    cases hs : s.isPositive <;> simp [weightOf, positives, negatives, hs, add_assoc]

variable [NeZero (2 : α)]

/-- A tie below all rows so far adds the pairs of its negative rows: whole ones with the positive
rows so far, half ones with its own. Its positive rows are worth nothing against the negative rows
so far. -/
theorem addTie_behind {samples tie : List Sample}
    (hnumber : ∀ s ∈ samples ++ tie, s.score.isNaN = false)
    (habove : ∀ s ∈ samples, ∀ s' ∈ tie, s'.score.steps < s.score.steps)
    (htie : ∀ s ∈ tie, ∀ s' ∈ tie, s.score.steps = s'.score.steps) :
    addTie read (behind read samples) tie = behind read (samples ++ tie) := by
  obtain ⟨hsamples, htie'⟩ := List.forall_mem_append.mp hnumber
  have hmem : ∀ {s : Sample} {l : List Sample} {f : Sample → Bool}, s ∈ l.filter f → s ∈ l :=
    List.mem_of_mem_filter
  -- The new pairs are of three kinds, and in each of them all have the same credit.
  have hwhole : pairCredits read (positives samples) (negatives tie) =
      weightOf read (positives samples) * weightOf read (negatives tie) * 1 := by
    apply pairCredits_eq
    intro p hp n hn
    rw [credit_eq (hsamples p (hmem hp)) (htie' n (hmem hn)), if_pos (habove p (hmem hp) n (hmem hn))]
  have hhalf : pairCredits read (positives tie) (negatives tie) =
      weightOf read (positives tie) * weightOf read (negatives tie) * (1 / 2) := by
    apply pairCredits_eq
    intro p hp n hn
    have hsame := htie p (hmem hp) n (hmem hn)
    rw [credit_eq (htie' p (hmem hp)) (htie' n (hmem hn)), if_neg hsame.le.not_gt, if_pos hsame]
  have hnone : pairCredits read (positives tie) (negatives samples) =
      weightOf read (positives tie) * weightOf read (negatives samples) * 0 := by
    apply pairCredits_eq
    intro p hp n hn
    have hlt := habove n (hmem hn) p (hmem hp)
    rw [credit_eq (htie' p (hmem hp)) (hsamples n (hmem hn)), if_neg hlt.not_gt, if_neg hlt.ne]
  have hpositives : positives (samples ++ tie) = positives samples ++ positives tie :=
    List.filter_append _ _
  have hnegatives : negatives (samples ++ tie) = negatives samples ++ negatives tie :=
    List.filter_append _ _
  rw [addTie, foldl_addWeight]
  simp only [behind, hpositives, hnegatives, weightOf_append, pairCredits_append_left,
    pairCredits_append_right, hwhole, hnone, hhalf, mk.injEq, true_and]
  have htwo : (2 : α) ≠ 0 := NeZero.ne 2
  field_simp
  ring

/-- The walk over ties, each below all that come before it, is always where it should be. -/
theorem foldl_addTie {samples : List Sample} {ties : List (List Sample)}
    (hnumber : ∀ s ∈ samples ++ ties.flatten, s.score.isNaN = false)
    (habove : ∀ s ∈ samples, ∀ s' ∈ ties.flatten, s'.score.steps < s.score.steps)
    (hties : ∀ tie ∈ ties, ∀ s ∈ tie, ∀ s' ∈ tie, s.score.steps = s'.score.steps)
    (hbelow : ties.Pairwise fun tie tie' =>
      ∀ s ∈ tie, ∀ s' ∈ tie', s'.score.steps < s.score.steps) :
    ties.foldl (addTie read) (behind read samples) = behind read (samples ++ ties.flatten) := by
  -- With every tie its rows join those that the walk is behind.
  induction ties generalizing samples with
  | nil => simp
  | cons tie ties ih =>
    rw [List.flatten_cons] at hnumber habove ⊢
    rw [← List.append_assoc] at hnumber ⊢
    obtain ⟨htie, hties⟩ := List.forall_mem_cons.mp hties
    obtain ⟨hfirst, hbelow⟩ := List.pairwise_cons.mp hbelow
    rw [List.foldl_cons, addTie_behind read (fun s hs => hnumber s (List.mem_append_left _ hs))
      (fun s hs s' hs' => habove s hs s' (List.mem_append_left _ hs')) htie]
    apply ih hnumber ?_ hties hbelow
    intro s hs s' hs'
    rcases List.mem_append.mp hs with hs | hs
    · exact habove s hs s' (List.mem_append_right _ hs')
    · obtain ⟨tie', htie', hs'⟩ := List.mem_flatten.mp hs'
      exact hfirst tie' htie' s hs s' hs'

end Walk

/-! ## Ties -/

section Ties

variable {l : List Sample} (hnumber : ∀ s ∈ l, s.score.isNaN = false)
include hnumber

/-- The rows of a tie have one score. -/
theorem steps_eq_of_mem_ties {tie : List Sample} (htie : tie ∈ ties l) :
    ∀ s ∈ tie, ∀ s' ∈ tie, s.score.steps = s'.score.steps := by
  have hmem : ∀ s ∈ tie, s.score.isNaN = false := by
    intro s hs
    apply hnumber
    rw [← List.flatten_splitBy (fun a b => a.score.sameNumber b.score) l]
    exact List.mem_flatten.mpr ⟨tie, htie, hs⟩
  have hchain : (tie.map (·.score.steps)).IsChain (· = ·) := by
    apply (List.isChain_map _).mpr
    refine (List.isChain_of_mem_splitBy htie).imp_of_mem_imp ?_
    intro a b ha hb hsame
    exact (Single.sameNumber_iff (hmem a ha) (hmem b hb)).mp hsame
  intro s hs s' hs'
  exact (List.isChain_iff_pairwise.mp hchain).forall_of_forall (fun _ _ => rfl)
    (List.mem_map_of_mem hs) (List.mem_map_of_mem hs')

/-- In a ranking every tie stands above those that come after it. -/
theorem pairwise_ties (hsorted : l.Pairwise fun s s' => s'.score.steps ≤ s.score.steps) :
    (ties l).Pairwise fun tie tie' => ∀ s ∈ tie, ∀ s' ∈ tie', s'.score.steps < s.score.steps := by
  have hflat : (ties l).flatten = l := List.flatten_splitBy _ l
  rw [← hflat, List.pairwise_flatten] at hsorted
  have hacross := List.pairwise_iff_getElem.mp hsorted.2
  have hsame := fun i (hi : i < (ties l).length) =>
    steps_eq_of_mem_ties hnumber (List.getElem_mem hi)
  -- The last row of a tie and the first row of the next one have different scores.
  have hends : ∀ i (hi : i + 1 < (ties l).length), ∃ last ∈ (ties l)[i], ∃ first ∈ (ties l)[i + 1],
      last.score.steps ≠ first.score.steps := by
    intro i hi
    obtain ⟨hlast, hfirst, hdiffers⟩ :=
      List.isChain_iff_getElem.mp (List.isChain_getLast_head_splitBy _ l) i hi
    have hnumber' : ∀ j (hj : j < (ties l).length), ∀ s ∈ (ties l)[j], s.score.isNaN = false := by
      intro j hj s hs
      apply hnumber
      rw [← hflat]
      exact List.mem_flatten.mpr ⟨_, List.getElem_mem hj, hs⟩
    refine ⟨_, List.getLast_mem hlast, _, List.head_mem hfirst, ?_⟩
    exact (Single.sameNumber_iff (hnumber' _ _ _ (List.getLast_mem hlast))
      (hnumber' _ _ _ (List.head_mem hfirst))).not.mp (Bool.eq_false_iff.mp hdiffers)
  apply List.pairwise_iff_getElem.mpr
  intro i j hi hj hij s hs s' hs'
  have hnext : i + 1 < (ties l).length := by omega
  obtain ⟨last, hlast, first, hfirst, hne⟩ := hends i hnext
  have habove := hsame i hi s hs last hlast
  have hle := hacross i (i + 1) hi hnext (Nat.lt_succ_self i) last hlast first hfirst
  have hbelow : s'.score.steps ≤ first.score.steps := by
    rcases Nat.eq_or_lt_of_le (Nat.succ_le_of_lt hij) with rfl | hlt
    · exact (hsame _ hj s' hs' first hfirst).le
    · exact hacross (i + 1) j hnext hj hlt first hfirst s' hs'
  omega

end Ties

/-- A ranking goes from the highest to the lowest score. -/
theorem pairwise_descending {samples : List Sample}
    (hnumber : ∀ s ∈ samples, s.score.isNaN = false) :
    (descending (·.score) samples).Pairwise fun s s' => s'.score.steps ≤ s.score.steps := by
  have hsorted : (descending (·.score) samples).Pairwise fun s s' =>
      decide (s'.score.rank ≤ s.score.rank) = true := by
    apply List.pairwise_mergeSort
    · simp only [decide_eq_true_eq]
      exact fun a b c hab hbc => hbc.trans hab
    · simp only [Bool.or_eq_true, decide_eq_true_eq]
      exact fun a b => le_total _ _
  refine hsorted.imp_of_mem ?_
  intro s s' hs hs' hrank
  exact Single.steps_le_of_rank_le (hnumber s' (List.mem_mergeSort.mp hs'))
    (hnumber s (List.mem_mergeSort.mp hs)) (of_decide_eq_true hrank)

/-! ## The area -/

section Area

variable {α : Type} [Field α] (read : Single → α) {samples more : List Sample}

/-- Rows are alike if their scores are the same number, they count alike and weigh the same. -/
def Alike (s s' : Sample) : Prop :=
  s.score.sameNumber s'.score ∧ s.isPositive = s'.isPositive ∧ s.weight = s'.weight

theorem map_eq_of_alike {β : Type} {f g : Sample → β} (h : List.Forall₂ Alike samples more)
    (hf : ∀ s s', Alike s s' → f s = g s') : samples.map f = more.map g := by
  induction h with
  | nil => rfl
  | cons hs _ ih => rw [List.map_cons, List.map_cons, hf _ _ hs, ih]

/-- Rows that are alike have scores that are no NaN and count the same. -/
theorem Alike.score {s s' : Sample} (h : Alike s s') :
    s.score.isNaN = false ∧ s'.score.isNaN = false ∧ s.score.steps = s'.score.steps := by
  obtain ⟨hs, hs'⟩ := Single.isNaN_of_sameNumber h.1
  exact ⟨hs, hs', (Single.sameNumber_iff hs hs').mp h.1⟩

theorem Alike.refl {s : Sample} (h : s.score.isNaN = false) : Alike s s :=
  ⟨(Single.sameNumber_iff h h).mpr rfl, rfl, rfl⟩

theorem credit_alike {p p' n n' : Sample} (hp : Alike p p') (hn : Alike n n') :
    (credit p n : α) = credit p' n' := by
  obtain ⟨hp, hp', hsteps⟩ := hp.score
  obtain ⟨hn, hn', hsteps'⟩ := hn.score
  rw [credit_eq hp hn, credit_eq hp' hn', hsteps, hsteps']

/-- Rows that are alike do not differ in what their pairs are worth. -/
theorem behind_alike (h : List.Forall₂ Alike samples more) :
    Walk.behind read samples = Walk.behind read more := by
  have hpositives : List.Forall₂ Alike (positives samples) (positives more) :=
    List.rel_filter (fun {_ _} hs => Bool.eq_iff_iff.mp hs.2.1) h
  have hnegatives : List.Forall₂ Alike (negatives samples) (negatives more) :=
    List.rel_filter (fun {_ _} hs => Bool.eq_iff_iff.mp (congrArg (!·) hs.2.1)) h
  have hweight : ∀ s s', Alike s s' → read s.weight = read s'.weight := fun s s' hs =>
    congrArg read hs.2.2
  simp only [Walk.behind, weightOf, map_eq_of_alike hpositives hweight,
    map_eq_of_alike hnegatives hweight, Walk.mk.injEq, true_and, pairCredits]
  congr 1
  apply map_eq_of_alike hpositives
  intro p p' hp
  congr 1
  apply map_eq_of_alike hnegatives
  intro n n' hn
  rw [hweight p p' hp, hweight n n' hn, credit_alike hp hn]

/-- The order of rows does not matter for what their pairs are worth. -/
theorem behind_perm (h : samples.Perm more) :
    Walk.behind read samples = Walk.behind read more := by
  have hpositives : (positives samples).Perm (positives more) := h.filter _
  have hnegatives : (negatives samples).Perm (negatives more) := h.filter _
  have hrow : ∀ p, ((negatives samples).map fun n =>
      read p.weight * read n.weight * credit p n).sum =
        ((negatives more).map fun n => read p.weight * read n.weight * credit p n).sum := fun p =>
    (hnegatives.map _).sum_eq
  simp only [Walk.behind, weightOf, pairCredits, hrow, (hpositives.map _).sum_eq,
    (hnegatives.map _).sum_eq]

variable [NeZero (2 : α)]

/-- The walk down a ranking comes to the weights of its rows and to the credits of their pairs. -/
theorem foldl_ties_descending (hnumber : ∀ s ∈ samples, s.score.isNaN = false) :
    (ties (descending (·.score) samples)).foldl (Walk.addTie read) ⟨0, 0, 0⟩ =
      Walk.behind read samples := by
  have hperm : (descending (·.score) samples).Perm samples := List.mergeSort_perm _ _
  have hnumber' : ∀ s ∈ descending (·.score) samples, s.score.isNaN = false := fun s hs =>
    hnumber s (hperm.mem_iff.mp hs)
  have hflat : (ties (descending (·.score) samples)).flatten = descending (·.score) samples :=
    List.flatten_splitBy _ _
  have hstart : (⟨0, 0, 0⟩ : Walk α) = Walk.behind read [] := rfl
  rw [hstart, Walk.foldl_addTie read ?_ (fun s hs => absurd hs List.not_mem_nil)
    (fun _ => steps_eq_of_mem_ties hnumber')
    (pairwise_ties hnumber' (pairwise_descending hnumber)), List.nil_append, hflat]
  · exact behind_perm read hperm
  · rwa [List.nil_append, hflat]

variable [DecidableEq α]

/-- Without rounding, and if no score is a NaN, the area under the curve is the share of the pairs
of a positive and a negative row in which the positive row has the higher score, a pair of equal
scores counting half, and every pair with the product of its weights. There is none just if the
positive or the negative rows have no weight. So neither the order of the rows matters nor
the sign of a zero. -/
theorem rocArea?_eq_pairCredits (hnumber : ∀ s ∈ samples, s.score.isNaN = false) :
    rocArea? read samples =
        (if weightOf read (positives samples) = 0 ∨ weightOf read (negatives samples) = 0 then none
        else some (pairCredits read (positives samples) (negatives samples) /
          (weightOf read (positives samples) * weightOf read (negatives samples)))) ∧
      ∀ shuffled more, samples.Perm shuffled → List.Forall₂ Alike shuffled more →
        rocArea? read more = rocArea? read samples := by
  have harea : ∀ {samples : List Sample}, (∀ s ∈ samples, s.score.isNaN = false) →
      rocArea? read samples =
        let walk := Walk.behind read samples
        if walk.positive = 0 ∨ walk.negative = 0 then none
        else some (walk.area / (walk.positive * walk.negative)) := by
    intro samples hnumber
    rw [rocArea?, foldl_ties_descending read hnumber]
  refine ⟨harea hnumber, ?_⟩
  intro shuffled more hperm halike
  have hmore : ∀ s ∈ more, s.score.isNaN = false := by
    clear hperm
    induction halike with
    | nil => exact fun s hs => absurd hs List.not_mem_nil
    | cons hfirst _ ih => exact List.forall_mem_cons.mpr ⟨hfirst.score.2.1, ih⟩
  rw [harea hmore, harea hnumber, behind_perm read hperm, behind_alike read halike]

end Area

/-- Four rows with a tie of a zero and a negative zero, by their weights. -/
def tiedRows : List Sample :=
  [⟨0, 1, 2⟩, ⟨1, 0, 3⟩, ⟨-0, 0, 1⟩, ⟨2, 1, 4⟩]

/-- Against the negative rows, of weight four, the positive rows win `4 · 4` and a half of `2`. -/
theorem rocArea?_tiedRows :
    (∀ s ∈ tiedRows, s.score.isNaN = false) ∧
      rocArea? (fun x => (x.toNatSaturating : ℚ)) tiedRows = some (17 / 24) ∧
      rocArea? (fun x => (x.toNatSaturating : ℚ)) tiedRows.reverse = some (17 / 24) := by
  have hnumber : ∀ s ∈ tiedRows, s.score.isNaN = false := by decide +kernel
  obtain ⟨harea, horder⟩ :=
    rocArea?_eq_pairCredits (fun x => (x.toNatSaturating : ℚ)) hnumber
  have hvalue : rocArea? (fun x => (x.toNatSaturating : ℚ)) tiedRows = some (17 / 24) := by
    rw [harea]
    decide +kernel
  refine ⟨hnumber, hvalue, ?_⟩
  rw [horder _ _ (List.reverse_perm tiedRows).symm (List.forall₂_same.mpr ?_), hvalue]
  exact fun s hs => .refl (hnumber s (List.mem_reverse.mp hs))

end Ranking

end BoostedTrees
