import BoostedTrees.Proofs.BestSplits
import BoostedTrees.Proofs.GrowthRuns
import BoostedTrees.Proofs.Midpoints

/-!
# Rows on both sides of a split

The gain of a split is computed from the sums over the rows before a boundary, in the order of the
values of a feature. The split is made with a threshold, against which the values are compared once
more. Where the boundary has a middle, the rows that have the feature and go left are the rows that
were scored, so there are such rows on both sides, and both sides are smaller than the whole.

Where it has none, this fails. If the lower value is the negative infinity, no row that has the
feature goes left. If the difference of the values is too large, all rows go left that have a value
other than the positive infinity. A side that gets no rows at all is split in the same way for
ever, unless the depth is limited.

## Main definitions

* `Split.present`: the rows that have the feature of a split
* `Split.Candidate.scored`: the rows before the boundary

## Main results

* `Split.Candidate.perm_scored_iff`: the rows that go left are those that were scored if and only
  if there is a middle
* `Growth.separates_scored_iff`: this holds of all splits in growth, which ends if all boundaries
  have a middle
-/

namespace BoostedTrees

/-- What is below a bound between two neighbours in a sorted list comes before the bound. -/
theorem List.filter_lt_eq_take {α : Type} {f : α → ℤ} {l : List α}
    (hl : l.Pairwise fun a b => f a ≤ f b) {i : ℕ} (hi : i + 1 < l.length) {t : ℤ}
    (hlt : f l[i] < t) (hle : t ≤ f l[i + 1]) : l.filter (fun a => f a < t) = l.take (i + 1) := by
  have hsorted := List.pairwise_iff_getElem.mp hl
  have hbelow : (l.take (i + 1)).filter (fun a => f a < t) = l.take (i + 1) := by
    refine List.filter_eq_self.mpr fun a ha => decide_eq_true ?_
    obtain ⟨j, hj, rfl⟩ := List.getElem_of_mem ha
    rw [List.length_take] at hj
    rw [List.getElem_take]
    rcases (show j ≤ i by omega).eq_or_lt with rfl | hless
    · exact hlt
    · exact (hsorted j i (by omega) (by omega) hless).trans_lt hlt
  have habove : (l.drop (i + 1)).filter (fun a => f a < t) = [] := by
    refine List.filter_eq_nil_iff.mpr fun a ha => ?_
    obtain ⟨j, hj, rfl⟩ := List.getElem_of_mem ha
    rw [List.length_drop] at hj
    rw [List.getElem_drop, decide_eq_true_iff, not_lt]
    rcases Nat.eq_zero_or_pos j with rfl | hpos
    · exact hle
    · exact hle.trans (hsorted (i + 1) (i + 1 + j) hi (by omega) (by omega))
  conv_lhs => rw [← List.take_append_drop (i + 1) l]
  rw [List.filter_append, hbelow, habove, List.append_nil]

namespace Split

variable {m : Matrix} {rows : List Nat}

/-- The rows that have the feature of a split. -/
def present (s : Split) (m : Matrix) (rows : List Nat) : List Nat :=
  rows.filter fun row => !(m.value row s.feature.toNat).isNaN

/-- Rows that have the feature are compared with the threshold. -/
theorem leftRows_present (s : Split) (m : Matrix) (rows : List Nat) :
    s.leftRows m (s.present m rows) =
      (s.present m rows).filter fun row => m.value row s.feature.toNat < s.threshold := by
  refine List.filter_congr fun row hrow => ?_
  have hnumber := (List.mem_filter.mp hrow).2
  rw [Bool.not_eq_true'] at hnumber
  exact if_neg (Bool.eq_false_iff.mp hnumber)

/-- A split that separates the rows that have its feature separates all rows. -/
theorem Separates.of_present {s : Split} (h : s.Separates m (s.present m rows)) :
    s.Separates m rows := by
  have hsublist : (s.present m rows).Sublist rows := List.filter_sublist
  obtain ⟨hleft, hright⟩ := h
  exact ⟨fun hnil => hleft (List.sublist_nil.mp (hnil ▸ hsublist.filter _)),
    fun hnil => hright (List.sublist_nil.mp (hnil ▸ hsublist.filter _))⟩

/-! ## Entries -/

theorem mem_entries_iff {feature : Nat} {e : Entry} : e ∈ entries m rows feature ↔
    e.row ∈ rows ∧ e.value = m.value e.row feature ∧ e.value.isNaN = false := by
  rw [entries, List.mem_mergeSort, List.mem_filterMap]
  constructor
  · rintro ⟨row, hrow, he⟩
    dsimp only at he
    split at he
    · cases he
    · next hnumber =>
      cases he
      exact ⟨hrow, rfl, Bool.eq_false_iff.mpr hnumber⟩
  · rintro ⟨hrow, hvalue, hnumber⟩
    refine ⟨e.row, hrow, ?_⟩
    dsimp only
    rw [← hvalue, hnumber]
    rfl

/-- The entries stand in the order of their values. -/
theorem pairwise_entries (feature : Nat) :
    (entries m rows feature).Pairwise fun a b => a.value.steps ≤ b.value.steps := by
  have hranks : (entries m rows feature).Pairwise fun a b => a.value.rank ≤ b.value.rank := by
    refine (List.pairwise_mergeSort ?_ ?_ _).imp fun h => of_decide_eq_true h
    · intro a b c hab hbc
      exact decide_eq_true ((of_decide_eq_true hab).trans (of_decide_eq_true hbc))
    · intro a b
      rw [Bool.or_eq_true, decide_eq_true_iff, decide_eq_true_iff]
      exact le_total _ _
  refine hranks.imp_of_mem fun ha hb h => ?_
  exact Single.steps_le_of_rank_le (mem_entries_iff.mp ha).2.2 (mem_entries_iff.mp hb).2.2 h

/-- The entries are those of the rows that have the feature. -/
theorem perm_entries (feature : Nat) : ((entries m rows feature).map (·.row)).Perm
    (rows.filter fun row => !(m.value row feature).isNaN) := by
  refine ((List.mergeSort_perm _ _).map _).trans (.of_eq ?_)
  rw [List.map_filterMap, ← List.filterMap_eq_filter]
  refine List.filterMap_congr fun row _ => ?_
  cases h : (m.value row feature).isNaN <;> simp [Option.guard, h]

namespace Candidate

variable (c : Candidate m rows)

/-- The rows before the boundary, whose sums the gain is computed from. -/
def scored : List Nat := ((entries m rows c.feature).take (c.place + 1)).map (·.row)

/-- The boundary is between two different values. -/
theorem steps_lt (g : Gradient) : (c.boundary g).last.isNaN = false ∧
    (c.boundary g).next.isNaN = false ∧ (c.boundary g).last.steps < (c.boundary g).next.steps := by
  have hplace := c.place_lt
  have hlast := (mem_entries_iff.mp (List.getElem_mem (Nat.lt_of_succ_lt hplace))).2.2
  have hnext := (mem_entries_iff.mp (List.getElem_mem hplace)).2.2
  have hle := List.pairwise_iff_getElem.mp (pairwise_entries c.feature) c.place (c.place + 1)
    (Nat.lt_of_succ_lt hplace) hplace (Nat.lt_succ_self _)
  refine ⟨hlast, hnext, lt_of_le_of_ne hle fun heq => ?_⟩
  have hsame := (Single.sameNumber_iff hlast hnext).mpr heq
  rw [c.differ] at hsame
  cases hsame

variable (rules : GrowthRules) (g : Gradient) (total : Sums)

theorem toNat_feature : (c.toSplit rules g total).feature.toNat = c.feature :=
  UInt32.toNat_ofNat_of_lt' (c.feature_lt.trans (Nat.mod_lt _ (by decide)))

/-- The rows that have the feature and go left are those of the entries below the threshold. -/
theorem perm_leftRows : ((c.toSplit rules g total).leftRows m
    ((c.toSplit rules g total).present m rows)).Perm
      (((entries m rows c.feature).filter fun e => e.value < (c.boundary g).threshold).map
        (·.row)) := by
  rw [leftRows_present, present, toNat_feature]
  refine ((perm_entries c.feature).symm.filter _).trans (.of_eq ?_)
  rw [List.filter_map]
  refine congrArg _ (List.filter_congr fun e he => ?_)
  rw [Function.comp_apply, ← (mem_entries_iff.mp he).2.1]
  rfl

variable {g}

/-- Where there is a middle, the rows that have the feature and go left are those before the
boundary. -/
theorem perm_scored (h : (c.boundary g).HasMiddle) : ((c.toSplit rules g total).leftRows m
    ((c.toSplit rules g total).present m rows)).Perm c.scored := by
  obtain ⟨hlast, hnext, hlt⟩ := c.steps_lt g
  obtain ⟨hnumber, habove, hbelow⟩ := Boundary.threshold_between hlast hnext hlt h
  refine (c.perm_leftRows rules g total).trans (.of_eq (congrArg _ ?_))
  rw [← List.filter_lt_eq_take (pairwise_entries c.feature) c.place_lt habove hbelow]
  exact List.filter_congr fun e he => decide_eq_decide.mpr
    (Single.lt_iff (mem_entries_iff.mp he).2.2 hnumber)

variable {rules total}

theorem length_scored : c.scored.length = c.place + 1 := by
  have hplace := c.place_lt
  rw [scored, List.length_map, List.length_take]
  omega

/-- Above the negative infinity there is no threshold that a row could be below. -/
theorem leftRows_of_negInfinity (h : (c.boundary g).last = Single.negInfinity) :
    (c.toSplit rules g total).leftRows m ((c.toSplit rules g total).present m rows) = [] := by
  obtain ⟨-, hnext, hlt⟩ := c.steps_lt g
  have hthreshold : (c.toSplit rules g total).threshold = Single.indefinite :=
    Boundary.threshold_of_negInfinity hnext hlt h
  rw [leftRows_present, hthreshold]
  refine List.filter_eq_nil_iff.mpr fun row _ => ?_
  rw [decide_eq_true_iff]
  exact Single.not_lt_of_isNaN _ (by decide)

/-- If the difference is too large, all finite values are below the threshold. -/
theorem leftRows_of_overflow (h : (c.boundary g).last ≠ Single.negInfinity)
    (h' : ¬(c.boundary g).HasMiddle) :
    (c.toSplit rules g total).leftRows m ((c.toSplit rules g total).present m rows) =
      ((c.toSplit rules g total).present m rows).filter fun row =>
        m.value row (c.toSplit rules g total).feature.toNat < Single.infinity := by
  obtain ⟨hlast, hnext, hlt⟩ := c.steps_lt g
  have hthreshold : (c.toSplit rules g total).threshold = Single.infinity :=
    Boundary.threshold_of_overflow hlast hnext hlt h h'
  rw [leftRows_present, hthreshold]

/-- The rows that have the feature and go left are those that were scored if and only if there is
a middle. -/
theorem perm_scored_iff : ((c.toSplit rules g total).leftRows m
    ((c.toSplit rules g total).present m rows)).Perm c.scored ↔ (c.boundary g).HasMiddle := by
  refine ⟨fun hperm => by_contra fun hnone => ?_, c.perm_scored rules total⟩
  have hlength := hperm.length_eq.trans c.length_scored
  obtain ⟨hlast, hnext, hlt⟩ := c.steps_lt g
  by_cases hinfinite : (c.boundary g).last = Single.negInfinity
  · rw [c.leftRows_of_negInfinity hinfinite] at hlength
    cases hlength
  · -- The entry after the boundary goes left too.
    have hthreshold := Boundary.threshold_of_overflow hlast hnext hlt hinfinite hnone
    have hfinite := (Single.isFinite_iff_steps.mp (Boundary.isFinite_next hlast hnext hlt
      fun hnext => hnone ⟨hinfinite, .inl hnext⟩)).2
    have hbelow : ((entries m rows c.feature).take (c.place + 2)).filter
        (fun e => e.value < Single.infinity) = (entries m rows c.feature).take (c.place + 2) := by
      refine List.filter_eq_self.mpr fun e he => decide_eq_true ?_
      have hmem := List.mem_of_mem_take he
      rw [Single.lt_iff (mem_entries_iff.mp hmem).2.2 (by decide), Single.steps_infinity]
      obtain ⟨i, hi, rfl⟩ := List.getElem_of_mem he
      rw [List.length_take] at hi
      rw [List.getElem_take]
      have hle : (entries m rows c.feature)[i].value.steps ≤ (c.boundary g).next.steps := by
        rcases (show i ≤ c.place + 1 by omega).eq_or_lt with rfl | hless
        · exact le_rfl
        · exact List.pairwise_iff_getElem.mp (pairwise_entries c.feature) i (c.place + 1)
            (by omega) c.place_lt hless
      omega
    have hsublist := ((List.take_sublist (c.place + 2) (entries m rows c.feature)).filter
      fun e => e.value < Single.infinity).length_le
    have hperm' := (c.perm_leftRows rules g total).length_eq
    have hplace := c.place_lt
    rw [hthreshold, List.length_map] at hperm'
    rw [hbelow, List.length_take] at hsublist
    omega

variable (rules total) in
/-- Where there is a middle, there are rows that have the feature on both sides. -/
theorem separates (h : (c.boundary g).HasMiddle) : (c.toSplit rules g total).Separates m
    ((c.toSplit rules g total).present m rows) := by
  have hperm := (c.perm_scored rules total h).length_eq
  rw [c.length_scored] at hperm
  have hplace := c.place_lt
  have hlength := length_leftRows_add (c.toSplit rules g total) m
    ((c.toSplit rules g total).present m rows)
  have hentries : (entries m rows c.feature).length =
      ((c.toSplit rules g total).present m rows).length := by
    rw [present, toNat_feature, ← (perm_entries c.feature).length_eq, List.length_map]
  rw [Separates, ← List.length_pos_iff, ← List.length_pos_iff]
  omega

end Candidate

variable {rules : GrowthRules} {g : Gradient} {total : Sums} {s : Split}

/-- A split that is found is made of an admissible candidate. -/
theorem exists_candidate_of_find? (h : find? rules m g rows total = some s) :
    ∃ c : Candidate m rows, c.Admissible rules g total ∧ s = c.toSplit rules g total := by
  obtain ⟨feature, hfeature, hof⟩ := exists_of_findBy? h
  unfold bestOf? at hof
  dsimp only at hof
  split at hof
  · cases hof
  rcases mem_of_foldl_keep hof with hmem | hnone
  · rw [← parentOf, candidates_eq rules g total hfeature] at hmem
    obtain ⟨c, hc, rfl⟩ := List.mem_map.mp hmem
    exact ⟨c, ((mem_scan_iff rules g total).mp hc).2, rfl⟩
  · cases hnone

end Split

namespace Growth

/-- Every split that is found, for any rows, is made of an admissible candidate, with the gain that
the sums over the rows before its boundary give. The rows that have the feature and go left are
these rows if and only if the boundary has a middle. Then both sides get rows that have the feature,
and either side gets fewer rows than there are. Without a middle no row that has the feature goes
left if the lower value is the negative infinity, and else all go left but those whose value is the
positive infinity. Without a limit on the depth, growth ends if and only if every split on the way
sends rows to both sides, and it always ends if all their boundaries have a middle. -/
theorem separates_scored_iff (rules : GrowthRules) (m : Matrix) (g : Gradient) (rows : List Nat) :
    (∀ rows' s, Met rules m g rows rows' →
      Split.find? rules m g rows' (g.sums rows') = some s →
      (∃ c : Split.Candidate m rows', c.Admissible rules g (g.sums rows') ∧
        s = c.toSplit rules g (g.sums rows')) ∧
      ∀ c : Split.Candidate m rows', s = c.toSplit rules g (g.sums rows') →
        c.before g = g.sums c.scored ∧
        ((s.leftRows m (s.present m rows')).Perm c.scored ↔ (c.boundary g).HasMiddle) ∧
        ((c.boundary g).HasMiddle → s.Separates m (s.present m rows') ∧
          (s.leftRows m rows').length < rows'.length ∧
          (s.rightRows m rows').length < rows'.length) ∧
        ((c.boundary g).last = Single.negInfinity → s.leftRows m (s.present m rows') = []) ∧
        ((c.boundary g).last ≠ Single.negInfinity → ¬(c.boundary g).HasMiddle →
          s.leftRows m (s.present m rows') = (s.present m rows').filter fun row =>
            m.value row s.feature.toNat < Single.infinity)) ∧
    (rules.maxDepth = 0 → (Ends rules m g rows ↔ AllSeparate rules m g rows)) ∧
    ((∀ rows' s, Met rules m g rows rows' →
      Split.find? rules m g rows' (g.sums rows') = some s →
      ∃ c : Split.Candidate m rows', s = c.toSplit rules g (g.sums rows') ∧
        (c.boundary g).HasMiddle) → Ends rules m g rows) := by
  refine ⟨fun rows' s _ hs => ⟨Split.exists_candidate_of_find? hs, ?_⟩, ends_iff, fun h => ?_⟩
  · rintro c rfl
    refine ⟨rfl, c.perm_scored_iff, fun hmiddle => ?_, c.leftRows_of_negInfinity,
      c.leftRows_of_overflow⟩
    have hseparates := c.separates rules (g.sums rows') hmiddle
    exact ⟨hseparates, Split.separates_iff.mp hseparates.of_present⟩
  · rcases Nat.eq_zero_or_pos rules.maxDepth with hzero | hpos
    · refine (ends_iff hzero).mpr fun rows' s hmet hs => ?_
      obtain ⟨c, rfl, hmiddle⟩ := h rows' s hmet hs
      exact (c.separates _ _ hmiddle).of_present
    · exact ends_of_pos hpos rows

/-! ## Two rows that are not separated -/

/-- A feature whose two values are so far apart that their difference is no number. -/
def farRows : Matrix := ⟨0, 2, 1, #[-Single.largest, Single.largest], #[], #[], [], #[], rfl⟩

theorem entries_farRows :
    Split.entries farRows [0, 1] 0 = [⟨-Single.largest, 0⟩, ⟨Single.largest, 1⟩] :=
  List.mergeSort_of_pairwise (by decide +kernel)

theorem find?_farRows :
    Split.find? ⟨1, 0, 1, 0, 0⟩ farRows (.ofList [(1, 1), (-1, 1)]) [0, 1]
      ((Gradient.ofList [(1, 1), (-1, 1)]).sums [0, 1]) = some ⟨0, Single.infinity, true, 1⟩ := by
  have hcolumns : List.range (lowWord farRows.columns) = [0] := rfl
  rw [Split.find?, Split.findBy?, Split.offers, hcolumns, List.map_cons, List.map_nil,
    Split.bestOf?, entries_farRows]
  decide +kernel

theorem not_ends_farRows :
    Split.leftRows ⟨0, Single.infinity, true, 1⟩ farRows [0, 1] = [0, 1] ∧
      ¬Ends ⟨1, 0, 1, 0, 0⟩ farRows (.ofList [(1, 1), (-1, 1)]) [0, 1] := by
  have hleft : Split.leftRows ⟨0, Single.infinity, true, 1⟩ farRows [0, 1] = [0, 1] := by
    decide +kernel
  refine ⟨hleft, fun hends => ?_⟩
  have hall := ((separates_scored_iff ⟨1, 0, 1, 0, 0⟩ farRows _ [0, 1]).2.1 rfl).mp hends
  have hless := (Split.separates_iff.mp (hall [0, 1] _ (.here _) find?_farRows)).1
  rw [hleft] at hless
  exact absurd hless (lt_irrefl _)

end Growth

end BoostedTrees
