import BoostedTrees.Proofs.ReportRoundTrip
import BoostedTrees.Proofs.SplitCounts

/-!
# Importance from text dumps

A text dump is searched, not parsed: the feature of a line is what stands in the first brackets,
and a statistic what follows the first mention of its name. That finds what was written there if
the names of the features hold no mark of a label and mention no statistic. Then the splits are
added in the same order as from the structured dumps, under the same names, and only the numbers
differ. The text shows the shortest decimal of a single-precision number and is read as the
double-precision number nearest to it; a structured dump shows the number widened first.

## Main definitions

* `FeatureMap.IsPlain`: names that a line can be searched behind
* `Single.ReadsAs`: what the shortest decimal of a number is read as in double precision
* `Importance.total`: a sum or a mean, computed from the left

## Main results

* `Tree.splitFeature?_dumpRow`, `Tree.lineStatistic_dumpRow`: what is found in the line of a split
* `Importance.foldlM_addLine`: the splits of a text dump are added in preorder
* `Importance.ofTextDump_dump`: the importance of valid trees from both kinds of dumps
-/

namespace BoostedTrees

open Text

/-! ## Numbers in text -/

namespace Numeral

/-- What a numeral that is no NaN is read as has its magnitude and its sign. -/
theorem toDouble_spec {n : Numeral}
    (h : n.magnitude.bits Layout.double ≤ Layout.double.infinityBits) :
    n.toDouble.bits.toNat % 2 ^ 63 = n.magnitude.bits Layout.double ∧
      n.toDouble.isNegative = n.negative := by
  have hinfinity : Layout.double.infinityBits < 2 ^ 63 := by decide
  have hlt : n.magnitude.bits Layout.double < 2 ^ 63 := by omega
  have hword : (UInt64.ofNat (n.magnitude.bits Layout.double)).toNat =
      n.magnitude.bits Layout.double := UInt64.toNat_ofNat_of_lt (by rw [UInt64.size]; omega)
  have hclear : (n.magnitude.bits Layout.double).testBit 63 = false := Nat.testBit_lt_two_pow hlt
  have hflip : (0x8000000000000000 : UInt64).toNat = 2 ^ 63 := rfl
  rw [Double.isNegative_eq, toDouble]
  cases n.negative with
  | false =>
    rw [if_neg Bool.false_ne_true, hword]
    rw [Nat.div_eq_of_lt hlt]
    exact ⟨Nat.mod_eq_of_lt hlt, rfl⟩
  | true =>
    have hbits : (-(⟨UInt64.ofNat (n.magnitude.bits Layout.double)⟩ : Double)).bits.toNat =
        n.magnitude.bits Layout.double ^^^ 2 ^ 63 := by
      have hneg : (-(⟨UInt64.ofNat (n.magnitude.bits Layout.double)⟩ : Double)).bits =
          UInt64.ofNat (n.magnitude.bits Layout.double) ^^^ 0x8000000000000000 := rfl
      rw [hneg, UInt64.toNat_xor, hword, hflip]
    rw [if_pos rfl, hbits]
    constructor
    · rw [Nat.xor_mod_two_pow, Nat.mod_self, Nat.xor_zero, Nat.mod_eq_of_lt hlt]
    · have hbit : (n.magnitude.bits Layout.double ^^^ 2 ^ 63).testBit 63 = true := by
        rw [Nat.testBit_xor, hclear, Nat.testBit_two_pow_self]
        rfl
      rw [Nat.testBit_eq_decide_div_mod_eq] at hbit
      simpa using hbit

end Numeral

namespace Single

/-- The number in double precision is the nearest one to the shortest decimal of a finite number,
and has its sign. -/
def ReadsAs (x : Single) (y : Double) : Prop :=
  ∃ negative m e, x.datum = .finite negative m e ∧ y.isNegative = negative ∧
    IsNearest (Set.Iic Layout.double.infinityBits) Layout.double.magnitude
      (Decimal.shortest Layout.single .up m e).toRat (y.bits.toNat % 2 ^ 63)

/-- The text of a finite number is read in double precision, too. -/
theorem exists_readsAs {x : Single} (h : x.isFinite) :
    ∃ y, Double.ofText? x.chars = some y ∧ x.ReadsAs y := by
  obtain ⟨negative, m, e, hdatum⟩ := x.isFinite_iff.mp h
  obtain ⟨c, k, hread, hvalue⟩ :=
    (Decimal.shortest Layout.single .up m e).exists_read?_positional negative
  have hnearest := Layout.isNearest_nearestDecimal (L := Layout.double) (by decide) (by decide)
    (Layout.reach_of_shortest hdatum hvalue)
  obtain ⟨hbits, hsign⟩ := Numeral.toDouble_spec (n := ⟨negative, .decimal c k⟩) hnearest.mem
  refine ⟨_, ?_, negative, m, e, hdatum, hsign, ?_⟩
  · rw [Double.ofText?, chars, hdatum]
    exact congrArg (Option.map Numeral.toDouble) hread
  · rw [hbits, ← hvalue]
    exact hnearest

end Single

/-! ## Names -/

namespace Statistic

/-- The statistic of a node. -/
def of : Statistic → Node → Single
  | gain, n => n.gain
  | cover, n => n.cover

/-- How a line mentions a statistic. -/
def mention (s : Statistic) : List Char := s.name.toList ++ ['=']

/-- A letter by which the mention of a statistic is told from numbers and most words. -/
def letter : Statistic → Char
  | gain => 'g'
  | cover => 'v'

theorem letter_mem_mention (s : Statistic) : s.letter ∈ s.mention := by
  cases s <;> simp [letter, mention, name]

theorem notMem_mention (s : Statistic) {c : Char} (hc : c ∈ ['[', ']', '<', ' ', ',']) :
    c ∉ s.mention := by
  simp only [List.mem_cons, List.not_mem_nil, or_false] at hc
  rcases hc with rfl | rfl | rfl | rfl | rfl <;> cases s <;> simp [mention, name]

/-- What lacks a letter of a mention does not mention the statistic. -/
theorem not_infix_of_notMem {s : Statistic} {c : Char} {cs : List Char} (hc : c ∈ s.mention)
    (h : c ∉ cs) : ¬s.mention <:+: cs := fun hin => h (hin.subset hc)

theorem not_infix_of_letter (s : Statistic) {cs : List Char} (h : s.letter ∉ cs) :
    ¬s.mention <:+: cs := not_infix_of_notMem s.letter_mem_mention h

theorem letter_notMem_toDigits (s : Statistic) (n : Nat) : s.letter ∉ Nat.toDigits 10 n :=
  Numeral.notMem_toDigits (by cases s <;> rfl) n

theorem letter_notMem_chars (s : Statistic) (x : Single) : s.letter ∉ x.chars :=
  x.notMem_chars (by cases s <;> rfl) (by cases s <;> simp [letter])

end Statistic

namespace FeatureMap

/-- A name that does not end the label early and is not taken for a statistic. -/
structure IsPlain (name : List Char) : Prop where
  legible : IsLegible name
  silent : ∀ s : Statistic, ¬s.mention <:+: name

/-- If all names that are given are plain, so are those of all features. -/
theorem isPlain_name {map : FeatureMap} (h : ∀ name ∈ map.names, IsPlain name.toList)
    (feature : UInt32) : IsPlain (map.name feature).toList := by
  cases hname : map.names[feature.toNat]? with
  | some given =>
    rw [name, List.getD_eq_getElem?_getD, hname]
    exact h given (List.mem_of_getElem? hname)
  | none =>
    have hnot : ∀ {c : Char}, c.isDigit = false → c ≠ 'f' → c ∉ 'f' :: Nat.toDigits 10 feature.toNat :=
      fun hdigit hf => List.not_mem_cons_of_ne_of_not_mem hf (Numeral.notMem_toDigits hdigit _)
    rw [toList_name hname]
    refine ⟨⟨hnot rfl (by decide), hnot rfl (by decide), hnot rfl (by decide)⟩, fun s => ?_⟩
    apply Statistic.not_infix_of_notMem (c := '=')
    · exact List.mem_append_right _ List.mem_cons_self
    · exact hnot rfl (by decide)

end FeatureMap

/-! ## The line of a split -/

namespace Tree

variable {t : Tree} {map : FeatureMap} {p : Nat × Nat} {left right : Nat}

/-- The line of a split up to its statistics. -/
def beforeStatistics (t : Tree) (map : FeatureMap) (p : Nat × Nat) (left right : Nat) : List Char :=
  List.replicate p.2 '\t' ++ Nat.toDigits 10 p.1 ++ [':'] ++ '[' ::
    (map.label (t.node p.1).feature (t.node p.1).threshold ++ ']' :: ' ' ::
      t.childrenText p.1 left right)

theorem dumpRow_of_split (h : (t.node p.1).children = some (left, right)) :
    t.dumpRow map true p = t.beforeStatistics map p left right ++
      ',' :: (Statistic.gain.mention ++ ((t.node p.1).gain.chars ++
        ',' :: (Statistic.cover.mention ++ (t.node p.1).cover.chars))) := by
  rw [dumpRow, dumpLine_of_split h]
  simp [beforeStatistics, statisticsText, assignment, Statistic.mention]

/-- No label mentions a statistic. -/
theorem not_infix_label {name condition : List Char} (hname : FeatureMap.IsPlain name)
    (hcondition : FeatureMap.Condition condition) (s : Statistic) :
    ¬s.mention <:+: name ++ condition := by
  cases hcondition with
  | none =>
    rw [List.append_nil]
    exact hname.silent s
  | below hnumber =>
    have hletter := (FeatureMap.Condition.below hnumber).notMem (c := s.letter) (by cases s <;> rfl)
      (by cases s <;> simp [Statistic.letter, Single.marks])
    intro h
    rcases infix_or_infix (s.notMem_mention (by simp)) h with h | h
    · exact hname.silent s h
    · exact s.not_infix_of_letter (List.not_mem_of_not_mem_cons hletter) h

/-- The ids of the children mention no statistic. -/
theorem not_infix_childrenText (s : Statistic) : ¬s.mention <:+: t.childrenText p.1 left right := by
  have hdigits := s.letter_notMem_toDigits
  intro h
  -- A mention has no comma, so it would be in one of the three assignments.
  rcases infix_or_infix (s.notMem_mention (by simp)) h with h | h
  · exact s.not_infix_of_letter (by cases s <;> simp_all [assignment, Statistic.letter]) h
  rcases infix_or_infix (s.notMem_mention (by simp)) h with h | h
  · exact s.not_infix_of_letter (by cases s <;> simp_all [assignment, Statistic.letter]) h
  · -- The word for missing values has the letter of the gain, but not all letters of it.
    cases s with
    | gain =>
      refine Statistic.not_infix_of_notMem (c := 'a') (by simp [Statistic.mention, Statistic.name]) ?_ h
      simp [assignment, Numeral.notMem_toDigits]
    | cover => exact Statistic.cover.not_infix_of_letter (by simp_all [assignment, Statistic.letter]) h

/-- Before its statistics, the line of a split mentions none. -/
theorem not_infix_beforeStatistics (hname : FeatureMap.IsPlain (map.name (t.node p.1).feature).toList)
    (s : Statistic) : ¬s.mention <:+: t.beforeStatistics map p left right := by
  obtain ⟨condition, hcondition, hlabel⟩ :=
    map.exists_label_eq (t.node p.1).feature (t.node p.1).threshold
  rw [beforeStatistics, hlabel]
  intro h
  -- No mention goes over a mark, so it would be in a part between two of them.
  rcases infix_or_infix (s.notMem_mention (by simp)) h with h | h
  · refine s.not_infix_of_letter ?_ h
    cases s <;> simp [Statistic.letter, Numeral.notMem_toDigits]
  rcases infix_or_infix (s.notMem_mention (by simp)) h with h | h
  · exact not_infix_label hname hcondition s h
  rw [← List.nil_append (' ' :: _)] at h
  rcases infix_or_infix (s.notMem_mention (by simp)) h with h | h
  · exact s.not_infix_of_letter List.not_mem_nil h
  · exact not_infix_childrenText s h

/-- A statistic of a split is found in its line. -/
theorem lineStatistic_dumpRow (h : (t.node p.1).children = some (left, right))
    (hname : FeatureMap.IsPlain (map.name (t.node p.1).feature).toList) (s : Statistic) {x : Double}
    (hx : Double.ofText? (s.of (t.node p.1)).chars = some x) :
    Importance.lineStatistic (t.dumpRow map true p) s = .ok x := by
  have hcomma : ∀ {x : Single}, ∀ c ∈ x.chars, c ≠ ',' := by
    rintro x c hc rfl
    exact x.notMem_chars rfl (by simp) hc
  have hmark : ',' ∉ s.mention := s.notMem_mention (by simp)
  have hvalue : ∃ rest, afterFirst s.mention (t.dumpRow map true p) = some rest ∧
      rest.takeWhile (· ≠ ',') = (s.of (t.node p.1)).chars := by
    rw [dumpRow_of_split h]
    cases s with
    | gain =>
      refine ⟨_, afterFirst_append hmark (not_infix_beforeStatistics hname .gain) _, ?_⟩
      rw [List.takeWhile_append_of_pos (by simpa using hcomma), List.takeWhile_cons_of_neg (by simp),
        List.append_nil]
      rfl
    | cover =>
      -- The gain comes first, and it does not mention the cover.
      have hbefore : ¬Statistic.cover.mention <:+: t.beforeStatistics map p left right ++
          ',' :: (Statistic.gain.mention ++ (t.node p.1).gain.chars) := by
        intro h
        rcases infix_or_infix hmark h with h | h
        · exact not_infix_beforeStatistics hname .cover h
        · refine Statistic.cover.not_infix_of_letter ?_ h
          simp [Statistic.mention, Statistic.name, Statistic.letter_notMem_chars]
          simp [Statistic.letter]
      have hafter := afterFirst_append hmark hbefore (t.node p.1).cover.chars
      simp only [List.append_assoc, List.cons_append] at hafter
      refine ⟨_, hafter, ?_⟩
      exact List.takeWhile_eq_self_iff.mpr (by simpa using hcomma)
  obtain ⟨rest, hafter, htake⟩ := hvalue
  have htrim : trim (s.of (t.node p.1)).chars = (s.of (t.node p.1)).chars :=
    trim_eq_self (Single.isBlank_of_mem_chars _)
  have hafter : afterFirst (s.name.toList ++ ['=']) (t.dumpRow map true p) = some rest := hafter
  simp only [Importance.lineStatistic, hafter, htake, htrim, hx]

end Tree

/-! ## Lines of trees -/

namespace Importance

section Text

variable {kind : Importance} {s : Statistic} (hs : kind.statistic? = some s) {map : FeatureMap}
  {value : Node → Double}

include hs

/-- The splits of a text dump are added in preorder. -/
theorem foldlM_addLine {t : Tree} (hname : ∀ n ∈ t.splits,
      FeatureMap.IsPlain (map.name n.feature).toList)
    (hvalue : ∀ n ∈ t.splits, Double.ofText? (s.of n).chars = some (value n))
    (tallies : Dictionary Tally) :
    (t.outline.map (t.dumpRow map true)).foldlM kind.addLine tallies =
      .ok (Tally.addAll (map.name ·.feature) value tallies t.splits) := by
  rw [Tree.splits, Tree.preorder] at hname hvalue ⊢
  -- Lines are added one by one, so it does not matter that they are all those of the tree.
  generalize t.outline = outline at hname hvalue ⊢
  induction outline generalizing tallies with
  | nil => rfl
  | cons p rest ih =>
    rw [List.map_cons, List.foldlM_cons]
    cases hchildren : (t.node p.1).children with
    | none =>
      have hleaf : (!(t.node p.1).isLeaf) = false := by rw [Node.isLeaf, hchildren]; rfl
      have hadd : kind.addLine tallies (t.dumpRow map true p) = .ok tallies := by
        rw [addLine, Tree.splitFeature?_dumpRow_of_leaf hchildren]
      rw [List.map_cons, List.map_cons, List.filter_cons_of_neg (by simp [hleaf])] at hname hvalue ⊢
      rw [hadd]
      exact ih tallies hname hvalue
    | some children =>
      obtain ⟨left, right⟩ := children
      have hsplit : (!(t.node p.1).isLeaf) = true := by rw [Node.isLeaf, hchildren]; rfl
      rw [List.map_cons, List.map_cons, List.filter_cons_of_pos (by simp [hsplit])] at hname hvalue ⊢
      obtain ⟨hplain, hname⟩ := List.forall_mem_cons.mp hname
      obtain ⟨hread, hvalue⟩ := List.forall_mem_cons.mp hvalue
      have hadd : kind.addLine tallies (t.dumpRow map true p) =
          .ok (Tally.add tallies (map.name (t.node p.1).feature) (value (t.node p.1))) := by
        rw [addLine, Tree.splitFeature?_dumpRow hchildren hplain.legible, hs]
        dsimp only
        rw [Tree.lineStatistic_dumpRow hchildren hplain s hread, String.ofList_toList]
        rfl
      rw [hadd]
      exact ih _ hname hvalue

/-- The importance of trees from their text dumps. -/
theorem ofTextDump_dump {trees : List Tree} (hname : ∀ n ∈ trees.flatMap (·.splits),
      FeatureMap.IsPlain (map.name n.feature).toList)
    (hvalue : ∀ n ∈ trees.flatMap (·.splits), Double.ofText? (s.of n).chars = some (value n)) :
    ofTextDump (trees.map (·.dump map true .text)) kind =
      .ok (kind.scores (Tally.addAll (map.name ·.feature) value .empty
        (trees.flatMap (·.splits)))) := by
  have hfold : ∀ tallies, (dumpLines (trees.map (·.dump map true .text))).foldlM kind.addLine
      tallies = .ok (Tally.addAll (map.name ·.feature) value tallies (trees.flatMap (·.splits))) := by
    induction trees with
    | nil => exact fun tallies => rfl
    | cons t trees ih =>
      intro tallies
      rw [List.flatMap_cons, List.forall_mem_append] at hname hvalue
      have hlines : lines (t.dump map true .text).toList = t.outline.map (t.dumpRow map true) :=
        Tree.lines_dumpText fun n hn => (hname.1 n hn).legible.2.2
      rw [dumpLines, List.map_cons, List.flatMap_cons, hlines, List.foldlM_append,
        foldlM_addLine hs hname.1 hvalue.1, List.flatMap_cons, Tally.addAll_append]
      exact ih hname.2 hvalue.2 _
  rw [ofTextDump, hfold]
  rfl

end Text

/-! ## Both kinds of dumps -/

section Both

variable {kind : Importance} {s : Statistic} (hs : kind.statistic? = some s)

/-- The sum of values, added one after another, or their mean. -/
def total (kind : Importance) (values : List Double) : Double :=
  let sum := values.foldl (· + ·) 0
  if kind.isMean then sum / Double.ofNat values.length else sum

/-- The total over the splits with a name, in their order, if there are any. -/
def scoreUnder (kind : Importance) (name : Node → String) (value : Node → Double)
    (splits : List Node) (key : String) : Option Double :=
  let named := splits.filter (name · = key)
  if named.isEmpty then none else some (kind.total (named.map value))

include hs

theorem score_ofValues_eq_total (values : List Double) :
    Tally.score kind (.ofValues values) = kind.total values := by
  have hkind : kind ≠ .weight := by
    rintro rfl
    cases hs
  rw [Tally.score, if_neg hkind]
  rfl

/-- Under a name stands the total over the splits with this name, if there are any. -/
theorem get?_scores (name : Node → String) (value : Node → Double) (splits : List Node)
    (key : String) : (kind.scores (Tally.addAll name value .empty splits)).get? key =
      kind.scoreUnder name value splits key := by
  rw [scores, Dictionary.get?_map, Tally.get?_addAll, scoreUnder]
  split
  · rfl
  · exact congrArg some (score_ofValues_eq_total hs _)

theorem summand?_eq (n : Node) : kind.summand? n = (s.of n).toDouble.reread? := by
  rw [summand?, hs]
  cases s <;> rfl

/-- Let the names of features be plain, the trees valid, and the statistics of the splits finite.
Then the text dumps can be read, and if the structured dumps can be read, too, both give scores
to the same names. A score is a total over the same splits in the same order, in which a text
dump adds the number nearest to the shortest decimal of the statistic, and a structured dump what
is read of the statistic in double precision. -/
theorem dumps_agree {map : FeatureMap} (hnames : ∀ name ∈ map.names, FeatureMap.IsPlain name.toList)
    {trees : List Tree} (hvalid : ∀ t ∈ trees, ∃ features, t.validate features = .ok ())
    (hfinite : ∀ n ∈ trees.flatMap (·.splits), n.gain.isFinite ∧ n.cover.isFinite) :
    let splits := trees.flatMap (·.splits)
    ∃ shown reread : Node → Double,
      (∀ n ∈ splits, Double.ofText? (s.of n).chars = some (shown n) ∧ (s.of n).ReadsAs (shown n) ∧
        (s.of n).toDouble.reread? = some (reread n)) ∧
      ∃ scores, ofTextDump (trees.map (·.dump map true .text)) kind = .ok scores ∧
        (∀ key, scores.get? key = kind.scoreUnder (map.name ·.feature) shown splits key) ∧
        ∀ scores', ofJsonDump (trees.map (·.dump map true .json)) kind = .ok scores' →
          ∀ key, (scores'.get? key).isSome = (scores.get? key).isSome ∧
            scores'.get? key = kind.scoreUnder (map.name ·.feature) reread splits key := by
  intro splits
  have hstatistic : ∀ n ∈ splits, (s.of n).isFinite := by
    intro n hn
    cases s with
    | gain => exact (hfinite n hn).1
    | cover => exact (hfinite n hn).2
  let shown (n : Node) : Double := (Double.ofText? (s.of n).chars).getD 0
  let reread (n : Node) : Double := ((s.of n).toDouble.reread?).getD 0
  have hshown : ∀ n ∈ splits, Double.ofText? (s.of n).chars = some (shown n) ∧
      (s.of n).ReadsAs (shown n) := by
    intro n hn
    obtain ⟨x, hx, hreads⟩ := Single.exists_readsAs (hstatistic n hn)
    have hsame : shown n = x := by simp only [shown, hx, Option.getD_some]
    rw [hsame]
    exact ⟨hx, hreads⟩
  have hreread : ∀ n ∈ splits, (s.of n).toDouble.reread? = some (reread n) := by
    intro n hn
    obtain ⟨x, hx⟩ := Single.exists_reread?_toDouble (hstatistic n hn)
    simp only [reread, hx, Option.getD_some]
  have htext := ofTextDump_dump hs (fun n _ => FeatureMap.isPlain_name hnames n.feature)
    fun n hn => (hshown n hn).1
  have hkeys := get?_scores hs (map.name ·.feature) shown splits
  refine ⟨shown, reread, fun n hn => ⟨(hshown n hn).1, (hshown n hn).2, hreread n hn⟩, _, htext,
    hkeys, fun scores' hjson key => ?_⟩
  -- What is read of the structured dumps are totals of the same form.
  have hvalue : kind.scores (Tally.addAll (map.name ·.feature) reread .empty splits) = scores' := by
    let outputTrees : List OutputTree := trees.map (⟨·, 0⟩)
    have hsplits : outputTrees.flatMap (·.tree.splits) = splits := List.flatMap_map ..
    have hdumps := ofJsonDump_dump kind map reread
      (List.forall_mem_map.mpr hvalid : ∀ t ∈ outputTrees, _)
      (fun n hn => (summand?_eq hs n).trans (hreread n (hsplits ▸ hn)))
    rw [hsplits, List.map_map] at hdumps
    have hok := hjson.symm.trans hdumps
    split at hok
    · exact (Except.ok.inj hok).symm
    · cases hok
  have hkey := get?_scores hs (map.name ·.feature) reread splits key
  rw [hvalue] at hkey
  refine ⟨?_, hkey⟩
  rw [hkey, hkeys key, scoreUnder, scoreUnder]
  split <;> rfl

end Both

/-- A tree with splits of one feature, whose gains are `0.3`, `0.1` and `0.2` in preorder, as
near as single precision comes to them. The left child of the root stands behind the right one. -/
def tenthTree : Tree where
  nodes := #[⟨0, 1, some (2, 1), true, 0, Single.ofDecimal 3 (-1), 4⟩,
    ⟨0, 2, some (3, 4), true, 0, Single.ofDecimal 2 (-1), 2⟩,
    ⟨0, 0, some (5, 6), true, 0, Single.ofDecimal 1 (-1), 2⟩,
    .leaf 3 1, .leaf 4 1, .leaf 1 1, .leaf 2 1]

/-- The text gives the sum of the tenths in double precision, the structured dump that of the
widened numbers. Both add in preorder; in the order of places the sum of the tenths is another
one. -/
theorem dumps_agree_tenthTree :
    let map : FeatureMap := ⟨["is new"], [.indicator]⟩
    let tenths : List Double := [3, 1, 2].map (Double.ofDecimal · (-1))
    let widened : List Double := [3, 1, 2].map fun k => (Single.ofDecimal k (-1)).toDouble
    (∃ scores scores', ofTextDump [tenthTree.dump map true .text] .totalGain = .ok scores ∧
      ofJsonDump [tenthTree.dump map true .json] .totalGain = .ok scores' ∧
      scores.get? "is new" = some (tenths.foldl (· + ·) 0) ∧
      scores'.get? "is new" = some (widened.foldl (· + ·) 0)) ∧
    tenths.foldl (· + ·) 0 ≠ widened.foldl (· + ·) 0 ∧
    tenths.foldl (· + ·) 0 ≠ ([3, 2, 1].map (Double.ofDecimal · (-1))).foldl (· + ·) 0 := by
  intro map tenths widened
  have hnames : ∀ name ∈ map.names, FeatureMap.IsPlain name.toList := by
    intro name hname
    rw [List.mem_singleton.mp hname]
    refine ⟨by simp [FeatureMap.IsLegible], fun s => ?_⟩
    apply Statistic.not_infix_of_notMem (c := '=')
    · exact List.mem_append_right _ List.mem_cons_self
    · simp
  have hvalid : ∀ t ∈ [tenthTree], ∃ features, t.validate features = .ok () :=
    List.forall_mem_singleton.mpr ⟨1, by decide +kernel⟩
  have hfinite : ∀ n ∈ [tenthTree].flatMap (·.splits), n.gain.isFinite ∧ n.cover.isFinite := by
    decide +kernel
  obtain ⟨shown, reread, hstatistics, scores, htext, hkeys, hjson⟩ :=
    @dumps_agree .totalGain .gain rfl map hnames [tenthTree] hvalid hfinite
  have hdumps := @ofJsonDump_dump .totalGain map reread [⟨tenthTree, 0⟩]
    (List.forall_mem_singleton.mpr (hvalid _ List.mem_cons_self)) fun n hn => (hstatistics n hn).2.2
  rw [if_pos (by decide +kernel)] at hdumps
  have hsplits : [tenthTree].flatMap (·.splits) =
      [tenthTree.node 0, tenthTree.node 2, tenthTree.node 1] := by decide +kernel
  have hscore : ∀ value, Importance.totalGain.scoreUnder (map.name ·.feature) value
      ([tenthTree].flatMap (·.splits)) "is new" =
        some ((([tenthTree].flatMap (·.splits)).map value).foldl (· + ·) 0) := by
    rw [hsplits]
    exact fun value => rfl
  have hshown : ([tenthTree].flatMap (·.splits)).map shown = tenths := by
    have hread : ∀ n ∈ [tenthTree].flatMap (·.splits),
        shown n = (Double.ofText? (Statistic.gain.of n).chars).getD 0 :=
      fun n hn => by rw [(hstatistics n hn).1, Option.getD_some]
    rw [List.map_congr_left hread, hsplits]
    decide +kernel
  have hreread : ([tenthTree].flatMap (·.splits)).map reread = widened := by
    have hread : ∀ n ∈ [tenthTree].flatMap (·.splits),
        reread n = (Statistic.gain.of n).toDouble.reread?.getD 0 :=
      fun n hn => by rw [(hstatistics n hn).2.2, Option.getD_some]
    rw [List.map_congr_left hread, hsplits]
    decide +kernel
  refine ⟨⟨scores, _, htext, hdumps, ?_, ?_⟩, by decide +kernel, by decide +kernel⟩
  · rw [hkeys, hscore, hshown]
  · rw [(hjson _ hdumps _).2, hscore, hreread]

end Importance

end BoostedTrees
