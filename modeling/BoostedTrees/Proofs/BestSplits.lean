import BoostedTrees.Proofs.DividedSearch

/-!
# The best split

The search for a split goes through the features, and for each of them through the values that are
there, with running sums. What it goes through are the candidates: a feature, a boundary between
two values that differ as numbers, and a side for the rows that lack the feature, which only makes
a difference where there are such rows. A candidate is admissible if neither side is too light.

If no gain of an admissible candidate is a NaN, gains are in a linear order, and the search gives
the first of the candidates that gain most, provided that this gain counts.

## Main definitions

* `Split.Candidate`: a candidate, with its sides and its gain
* `Split.Candidate.Admissible`: neither side is too light
* `Split.Candidate.order`: the order in which candidates are met

## Main results

* `Split.candidates_eq`: the scan meets the admissible candidates of a feature, and no others
* `Split.find?_optimal`: a split is found if and only if an admissible candidate gains enough, and
  then it is the first of those that gain most
-/

namespace BoostedTrees

namespace Split

/-! ## Candidates -/

/-- A candidate for splitting some rows: a boundary between two neighbouring entries of a feature
that differ as numbers, and the side of the rows that lack the feature, the left one if there are
no such rows. Features are the columns that training numbers, with words of thirty-two bits. -/
structure Candidate (m : Matrix) (rows : List Nat) where
  feature : Nat
  feature_lt : feature < lowWord m.columns
  /-- The place of the last entry before the boundary. -/
  place : Nat
  place_lt : place + 1 < (entries m rows feature).length
  differ : (entries m rows feature)[place].value.sameNumber
    (entries m rows feature)[place + 1].value = false
  defaultLeft : Bool
  side : defaultLeft = true ∨ ∃ row ∈ rows, (m.value row feature).isNaN

namespace Candidate

variable {m : Matrix} {rows : List Nat} (rules : GrowthRules) (g : Gradient) (total : Sums)
  (c : Candidate m rows)

/-- The sums over the entries before the boundary. -/
def before : Sums := g.sums (((entries m rows c.feature).take (c.place + 1)).map (·.row))

/-- What the rows that have the feature leave of the total. -/
def missing : Sums := total - g.sums ((entries m rows c.feature).map (·.row))

/-- The sums over the left side. -/
def left : Sums := if c.defaultLeft then c.before g + c.missing g total else c.before g

/-- The sums over the right side. -/
def right : Sums := total - c.left g total

/-- Neither side is too light. -/
structure Admissible : Prop where
  left_heavy : ¬(c.left g total).second < rules.minChildWeight.toDouble
  right_heavy : ¬(c.right g total).second < rules.minChildWeight.toDouble

/-- How much the scores of the sides are more than that of all rows. -/
def gain : Double :=
  (c.left g total).score rules.lambda.toDouble + (c.right g total).score rules.lambda.toDouble -
    total.score rules.lambda.toDouble

/-- The place of what is gained among all numbers. -/
def key : Place := (c.gain rules g total).place

/-- The boundary, with the sums over the entries before it. -/
def boundary : Boundary where
  last := ((entries m rows c.feature).get ⟨c.place, Nat.lt_of_succ_lt c.place_lt⟩).value
  next := ((entries m rows c.feature).get ⟨c.place + 1, c.place_lt⟩).value
  before := c.before g

/-- The split that a candidate stands for. -/
def toSplit : Split where
  feature := UInt32.ofNat c.feature
  threshold := (c.boundary g).threshold
  defaultLeft := c.defaultLeft
  gain := c.gain rules g total

/-- Where a candidate stands among all: the feature first, then the boundary, then the left side
before the right one. -/
def order : ℕ ×ₗ ℕ ×ₗ Bool := toLex (c.feature, toLex (c.place, !c.defaultLeft))

instance : Decidable (c.Admissible rules g total) :=
  decidable_of_iff (¬(c.left g total).second < rules.minChildWeight.toDouble ∧
    ¬(c.right g total).second < rules.minChildWeight.toDouble)
    ⟨fun h => ⟨h.1, h.2⟩, fun h => ⟨h.1, h.2⟩⟩

/-- The search makes a split of an admissible candidate. -/
theorem candidate?_eq :
    candidate? ⟨rules, total, c.missing g total⟩ (UInt32.ofNat c.feature) (c.boundary g)
      c.defaultLeft =
        if c.Admissible rules g total then some (c.toSplit rules g total) else none := by
  by_cases h : c.Admissible rules g total
  · rw [if_pos h]
    exact if_neg (not_or.mpr ⟨h.left_heavy, h.right_heavy⟩)
  · rw [if_neg h]
    refine if_pos (by_contra fun hnot => h ?_)
    exact ⟨(not_or.mp hnot).1, (not_or.mp hnot).2⟩

end Candidate

/-! ## Boundaries -/

/-- The boundary after an entry, if it is one. -/
def boundaryAt? (g : Gradient) (before : Sums) (es : List Entry) (place : Nat) : Option Boundary :=
  match es[place]?, es[place + 1]? with
  | some a, some b =>
    if a.value.sameNumber b.value then none
    else some ⟨a.value, b.value,
      (es.take (place + 1)).foldl (fun s e => s + g.sumsAt e.row) before⟩
  | _, _ => none

theorem boundaries_eq (g : Gradient) (before : Sums) (es : List Entry) :
    boundaries g before es = (List.range es.length).filterMap (boundaryAt? g before es) := by
  induction es generalizing before with
  | nil => rfl
  | cons a es ih =>
    cases es with
    | nil => rfl
    | cons b rest =>
      have hrange : List.range (a :: b :: rest).length =
          0 :: (List.range (b :: rest).length).map Nat.succ := List.range_succ_eq_map
      have hlater : boundaryAt? g before (a :: b :: rest) ∘ Nat.succ =
          boundaryAt? g (before + g.sumsAt a.row) (b :: rest) := rfl
      have hfirst : boundaryAt? g before (a :: b :: rest) 0 =
          if a.value.sameNumber b.value then none
          else some ⟨a.value, b.value, before + g.sumsAt a.row⟩ := rfl
      rw [boundaries, ih, hrange, List.filterMap_cons, List.filterMap_map, hlater, hfirst]
      split <;> rfl

/-! ## The scan of one feature -/

variable (m : Matrix) (rows : List Nat)

/-- The candidate at a boundary of a feature with the missing rows on a side, if it is one. -/
def candidateAt? (feature place : Nat) (defaultLeft : Bool) : Option (Candidate m rows) :=
  if h : feature < lowWord m.columns ∧ ∃ hlt : place + 1 < (entries m rows feature).length,
      (entries m rows feature)[place].value.sameNumber
        (entries m rows feature)[place + 1].value = false ∧
      (defaultLeft = true ∨ ∃ row ∈ rows, (m.value row feature).isNaN) then
    some ⟨feature, h.1, place, h.2.1, h.2.2.1, defaultLeft, h.2.2.2⟩
  else none

/-- The admissible candidates of a feature, in order. -/
def scan (rules : GrowthRules) (g : Gradient) (total : Sums) (feature : Nat) :
    List (Candidate m rows) :=
  ((List.range (entries m rows feature).length).flatMap fun place =>
    [true, false].filterMap (candidateAt? m rows feature place)).filter
      fun c => c.Admissible rules g total

variable {m rows}

theorem candidateAt?_eq_some_iff {feature place : Nat} {defaultLeft : Bool}
    {c : Candidate m rows} : candidateAt? m rows feature place defaultLeft = some c ↔
      c.feature = feature ∧ c.place = place ∧ c.defaultLeft = defaultLeft := by
  constructor
  · intro h
    unfold candidateAt? at h
    split at h
    · cases h
      exact ⟨rfl, rfl, rfl⟩
    · cases h
  · rintro ⟨rfl, rfl, rfl⟩
    exact dif_pos ⟨c.feature_lt, c.place_lt, c.differ, c.side⟩

section Scan

variable (rules : GrowthRules) (g : Gradient) (total : Sums)

theorem mem_scan_iff {feature : Nat} {c : Candidate m rows} :
    c ∈ scan m rows rules g total feature ↔ c.feature = feature ∧ c.Admissible rules g total := by
  rw [scan, List.mem_filter, decide_eq_true_iff, List.mem_flatMap]
  refine and_congr_left fun _ => ⟨?_, ?_⟩
  · rintro ⟨place, -, hc⟩
    obtain ⟨side, -, hc⟩ := List.mem_filterMap.mp hc
    exact (candidateAt?_eq_some_iff.mp hc).1
  · rintro rfl
    refine ⟨c.place, List.mem_range.mpr (Nat.lt_of_succ_lt c.place_lt), ?_⟩
    refine List.mem_filterMap.mpr ⟨c.defaultLeft, ?_, candidateAt?_eq_some_iff.mpr ⟨rfl, rfl, rfl⟩⟩
    cases c.defaultLeft <;> simp

theorem pairwise_scan (feature : Nat) :
    (scan m rows rules g total feature).Pairwise fun c d => c.order < d.order := by
  refine List.Pairwise.filter _ (List.pairwise_flatMap.mpr ⟨fun place _ => ?_, ?_⟩)
  · refine List.pairwise_filterMap.mpr (List.pairwise_pair.mpr fun c hc d hd => ?_)
    obtain ⟨hfeature, hplace, hside⟩ := candidateAt?_eq_some_iff.mp hc
    obtain ⟨hfeature', hplace', hside'⟩ := candidateAt?_eq_some_iff.mp hd
    simp [Candidate.order, Prod.Lex.toLex_lt_toLex, *]
  · refine List.pairwise_lt_range.imp fun hlt c hc d hd => ?_
    obtain ⟨_, -, hc⟩ := List.mem_filterMap.mp hc
    obtain ⟨_, -, hd⟩ := List.mem_filterMap.mp hd
    obtain ⟨hfeature, hplace, -⟩ := candidateAt?_eq_some_iff.mp hc
    obtain ⟨hfeature', hplace', -⟩ := candidateAt?_eq_some_iff.mp hd
    simp [Candidate.order, Prod.Lex.toLex_lt_toLex, *]

variable (m rows) in
/-- What the candidates of a feature are scored against. -/
def parentOf (feature : Nat) : Parent :=
  ⟨rules, total, total - g.sums ((entries m rows feature).map (·.row))⟩

theorem length_entries_lt_iff (feature : Nat) :
    (entries m rows feature).length < rows.length ↔
      ∃ row ∈ rows, (m.value row feature).isNaN := by
  rw [entries, List.length_mergeSort, List.length_filterMap_lt_length_iff_exists]
  simp

theorem boundaryAt?_eq_some (c : Candidate m rows) :
    boundaryAt? g .zero (entries m rows c.feature) c.place = some (c.boundary g) := by
  simp only [boundaryAt?, List.getElem?_eq_getElem c.place_lt,
    List.getElem?_eq_getElem (Nat.lt_of_succ_lt c.place_lt), c.differ, Bool.false_eq_true, if_false,
    Candidate.boundary, Candidate.before, Gradient.sums, List.foldl_map, List.get_eq_getElem]

theorem boundaryAt?_eq_none {es : List Entry} {before : Sums} {place : Nat}
    (h : ¬∃ hlt : place + 1 < es.length, es[place].value.sameNumber es[place + 1].value = false) :
    boundaryAt? g before es place = none := by
  unfold boundaryAt?
  split
  · next a b ha hb =>
    obtain ⟨hlt, rfl⟩ := List.getElem?_eq_some_iff.mp hb
    obtain ⟨_, rfl⟩ := List.getElem?_eq_some_iff.mp ha
    exact if_pos (by_contra fun hdiffer => h ⟨hlt, Bool.eq_false_iff.mpr hdiffer⟩)
  · rfl

/-- What is met at a boundary of a feature. -/
theorem candidates_boundaryAt? {feature : Nat} (h : feature < lowWord m.columns) (place : Nat) :
    candidates (parentOf m rows rules g total feature)
        (UInt32.ofNat feature) (decide ((entries m rows feature).length < rows.length))
        (boundaryAt? g .zero (entries m rows feature) place).toList =
      (([true, false].filterMap (candidateAt? m rows feature place)).filter
        fun c => c.Admissible rules g total).map (Candidate.toSplit rules g total) := by
  by_cases hdiffer : ∃ hlt : place + 1 < (entries m rows feature).length,
      (entries m rows feature)[place].value.sameNumber
        (entries m rows feature)[place + 1].value = false
  · obtain ⟨hlt, hdiffer⟩ := hdiffer
    let c : Candidate m rows := ⟨feature, h, place, hlt, hdiffer, true, .inl rfl⟩
    have hc : candidateAt? m rows feature place true = some c :=
      candidateAt?_eq_some_iff.mpr ⟨rfl, rfl, rfl⟩
    have hleft : candidate? (parentOf m rows rules g total feature)
        (UInt32.ofNat feature) (c.boundary g) true = _ := c.candidate?_eq rules g total
    have hboundary : boundaryAt? g .zero (entries m rows feature) place = some (c.boundary g) :=
      boundaryAt?_eq_some g c
    by_cases hlack : ∃ row ∈ rows, (m.value row feature).isNaN
    · -- With rows that lack the feature there is a second candidate at the boundary.
      let d : Candidate m rows := ⟨feature, h, place, hlt, hdiffer, false, .inr hlack⟩
      have hd : candidateAt? m rows feature place false = some d :=
        candidateAt?_eq_some_iff.mpr ⟨rfl, rfl, rfl⟩
      have hright : candidate? (parentOf m rows rules g total feature)
          (UInt32.ofNat feature) (c.boundary g) false = _ := d.candidate?_eq rules g total
      have hlt := (length_entries_lt_iff feature).mpr hlack
      simp only [hboundary, candidates, hlt, decide_true, if_true, Option.toList_some,
        List.flatMap_cons, List.flatMap_nil, List.append_nil, List.filterMap_cons,
        List.filterMap_nil, hleft, hright, hc, hd, List.filter_cons, List.filter_nil]
      by_cases h₁ : c.Admissible rules g total <;> by_cases h₂ : d.Admissible rules g total <;>
        simp [h₁, h₂]
    · have hd : candidateAt? m rows feature place false = none := by
        refine Option.eq_none_iff_forall_ne_some.mpr fun d hd => hlack ?_
        obtain ⟨rfl, -, hside⟩ := candidateAt?_eq_some_iff.mp hd
        exact d.side.resolve_left (by simp [hside])
      have hnot := mt (length_entries_lt_iff feature).mp hlack
      simp only [hboundary, candidates, hnot, decide_false, Bool.false_eq_true, if_false,
        Option.toList_some, List.flatMap_cons, List.flatMap_nil, List.append_nil,
        List.filterMap_cons, List.filterMap_nil, hleft, hc, hd, List.filter_cons, List.filter_nil]
      by_cases h₁ : c.Admissible rules g total <;> simp [h₁]
  · have hnone : ∀ side, candidateAt? m rows feature place side = none := by
      refine fun side => Option.eq_none_iff_forall_ne_some.mpr fun c hc => hdiffer ?_
      obtain ⟨rfl, rfl, -⟩ := candidateAt?_eq_some_iff.mp hc
      exact ⟨c.place_lt, c.differ⟩
    rw [boundaryAt?_eq_none g hdiffer]
    simp [candidates, hnone]

/-- The scan of the boundaries of a feature meets the admissible candidates, in their order. -/
theorem candidates_eq {feature : Nat} (h : feature < lowWord m.columns) :
    candidates (parentOf m rows rules g total feature)
        (UInt32.ofNat feature) (decide ((entries m rows feature).length < rows.length))
        (boundaries g .zero (entries m rows feature)) =
      (scan m rows rules g total feature).map (Candidate.toSplit rules g total) := by
  rw [boundaries_eq, List.filterMap_eq_flatMap_toList, candidates, List.flatMap_assoc, scan,
    List.filter_flatMap, List.map_flatMap]
  exact List.flatMap_congr fun place _ => candidates_boundaryAt? rules g total h place

end Scan

/-! ## The first of the best -/

/-- Where values grow along a list, the first of the best has the least of them. -/
theorem le_of_mem_argmax {α β γ : Type} [LinearOrder β] [Preorder γ] {f : α → β} {p : α → γ}
    {l : List α} (hl : l.Pairwise fun a b => p a < p b) {a b : α} (ha : a ∈ l.argmax f) (hb : b ∈ l)
    (h : f a ≤ f b) : p a ≤ p b := by
  induction l with
  | nil => cases hb
  | cons c l ih =>
    obtain ⟨hc, hl⟩ := List.pairwise_cons.mp hl
    rw [List.argmax_cons] at ha
    cases hbest : l.argmax f with
    | none =>
      rw [hbest] at ha
      cases ha
      rw [List.argmax_eq_none.mp hbest, List.mem_singleton] at hb
      rw [hb]
    | some d =>
      rw [hbest] at ha
      dsimp only at ha
      split at ha
      · next hless =>
        cases ha
        rcases List.mem_cons.mp hb with rfl | hb
        · exact absurd hless (not_lt_of_ge h)
        · exact ih hl hbest hb
      · cases ha
        rcases List.mem_cons.mp hb with rfl | hb
        · exact le_rfl
        · exact (hc b hb).le

section Best

variable (m rows) (rules : GrowthRules) (g : Gradient) (total : Sums)

/-- The best candidates of the features that have admissible ones. -/
def winners : List (Candidate m rows) :=
  (List.range (lowWord m.columns)).filterMap fun feature =>
    (scan m rows rules g total feature).argmax (Candidate.key rules g total)

variable {m rows} {rules} {g} {total}

/-- The first of the best candidates is kept, as long as no gain is a NaN. -/
theorem foldl_keep_map {cs : List (Candidate m rows)}
    (h : ∀ c ∈ cs, (c.gain rules g total).unpacked ≠ .notANumber) :
    (cs.map (Candidate.toSplit rules g total)).foldl keep none =
      (cs.argmax (Candidate.key rules g total)).map (Candidate.toSplit rules g total) := by
  induction cs using List.reverseRecOn with
  | nil => rfl
  | append_singleton cs c ih =>
    have hcs := fun d hd => h d (List.mem_append_left _ hd)
    have hc := h c (List.mem_append_right _ List.mem_cons_self)
    rw [List.map_append, List.foldl_append, ih hcs, List.argmax_concat]
    cases hbest : cs.argmax (Candidate.key rules g total) with
    | none => rfl
    | some b =>
      have hle := Double.le_iff hc (hcs b (List.argmax_mem hbest))
      show (if c.gain rules g total ≤ b.gain rules g total then some (b.toSplit rules g total)
        else some (c.toSplit rules g total)) = _
      dsimp only
      by_cases hless : b.key rules g total < c.key rules g total
      · rw [if_pos hless, if_neg fun h => not_le_of_gt hless (hle.mp h)]
        rfl
      · rw [if_neg hless, if_pos (hle.mpr (not_lt.mp hless))]
        rfl

/-- The first of the winners is the best, since their features come in order. -/
theorem best?_map {cs : List (Candidate m rows)}
    (h : ∀ c ∈ cs, (c.gain rules g total).unpacked ≠ .notANumber)
    (hfeatures : cs.Pairwise fun c d => c.feature < d.feature) :
    best? (cs.map (Candidate.toSplit rules g total)) =
      (cs.argmax (Candidate.key rules g total)).map (Candidate.toSplit rules g total) := by
  induction cs using List.reverseRecOn with
  | nil => rfl
  | append_singleton cs c ih =>
    have hcs := fun d hd => h d (List.mem_append_left _ hd)
    have hc := h c (List.mem_append_right _ List.mem_cons_self)
    obtain ⟨hpair, -, hbefore⟩ := List.pairwise_append.mp hfeatures
    rw [List.map_append, List.map_cons, List.map_nil, best?_concat, ih hcs hpair,
      List.argmax_concat]
    cases hbest : cs.argmax (Candidate.key rules g total) with
    | none => rfl
    | some b =>
      have hmem := List.argmax_mem hbest
      have hlt := Double.lt_iff (hcs b hmem) hc
      have hfeature : ¬(UInt32.ofNat c.feature < UInt32.ofNat b.feature) := by
        have hless := hbefore b hmem c List.mem_cons_self
        have hword : c.feature < 2 ^ 32 := c.feature_lt.trans (Nat.mod_lt _ (by decide))
        rw [UInt32.lt_iff_toNat_lt, UInt32.toNat_ofNat_of_lt' hword,
          UInt32.toNat_ofNat_of_lt' (hless.trans hword)]
        exact not_lt_of_gt hless
      dsimp only [Option.map_some, better, Candidate.toSplit]
      by_cases hless : b.key rules g total < c.key rules g total
      · rw [if_pos hless, if_pos (.inl (hlt.mpr hless))]
        rfl
      · rw [if_neg hless, if_neg (not_or.mpr ⟨mt hlt.mp hless, fun h => hfeature h.2⟩)]
        rfl

theorem admissible_of_mem_winners {c : Candidate m rows} (hc : c ∈ winners m rows rules g total) :
    c.Admissible rules g total := by
  obtain ⟨feature, -, hc⟩ := List.mem_filterMap.mp hc
  exact ((mem_scan_iff rules g total).mp (List.argmax_mem hc)).2

theorem pairwise_winners :
    (winners m rows rules g total).Pairwise fun c d => c.feature < d.feature := by
  refine List.pairwise_filterMap.mpr (List.pairwise_lt_range.imp fun hlt c hc d hd => ?_)
  obtain ⟨rfl, -⟩ := (mem_scan_iff rules g total).mp (List.argmax_mem hc)
  obtain ⟨rfl, -⟩ := (mem_scan_iff rules g total).mp (List.argmax_mem hd)
  exact hlt

section Search

variable (hnan : ∀ c : Candidate m rows, c.Admissible rules g total →
  (c.gain rules g total).isNaN = false)
include hnan

/-- The best candidate of a feature is the first of those that gain most. -/
theorem bestOf?_eq {feature : Nat} (h : feature < lowWord m.columns) :
    bestOf? rules m g rows total feature =
      ((scan m rows rules g total feature).argmax (Candidate.key rules g total)).map
        (Candidate.toSplit rules g total) := by
  rw [← foldl_keep_map fun c hc =>
      Double.unpacked_ne (hnan c ((mem_scan_iff rules g total).mp hc).2),
    ← candidates_eq rules g total h]
  unfold bestOf?
  dsimp only
  split
  · next hshort =>
    -- Fewer than two entries have no boundary.
    have hempty : scan m rows rules g total feature = [] := by
      refine List.eq_nil_iff_forall_not_mem.mpr fun c hc => ?_
      obtain ⟨rfl, -⟩ := (mem_scan_iff rules g total).mp hc
      have := c.place_lt
      omega
    rw [candidates_eq rules g total h, hempty]
    rfl
  · rfl

/-- The best candidates of the features are the winners. -/
theorem offered_eq : offered rules m g rows total =
    (winners m rows rules g total).map (Candidate.toSplit rules g total) := by
  rw [winners, List.map_filterMap]
  exact List.filterMap_congr fun feature hfeature => bestOf?_eq hnan (List.mem_range.mp hfeature)

/-- The best of the winners is the first, however the features are divided. -/
theorem best?_eq (d : Division) : d.best? (offers rules m g rows total) =
    ((winners m rows rules g total).argmax (Candidate.key rules g total)).map
      (Candidate.toSplit rules g total) := by
  have hnumbers : ∀ s ∈ offered rules m g rows total, s.gain.isNaN = false := by
    rw [offered_eq hnan]
    refine List.forall_mem_map.mpr fun c hc => ?_
    exact hnan c (admissible_of_mem_winners hc)
  rw [d.best?_offers hnumbers, offered_eq hnan]
  exact best?_map (fun c hc => Double.unpacked_ne (hnan c (admissible_of_mem_winners hc)))
    pairwise_winners

end Search

/-- The feature of an admissible candidate has a winner. -/
theorem exists_winner {d : Candidate m rows} (hd : d.Admissible rules g total) :
    ∃ w ∈ (scan m rows rules g total d.feature).argmax (Candidate.key rules g total),
      w ∈ winners m rows rules g total := by
  cases hw : (scan m rows rules g total d.feature).argmax (Candidate.key rules g total) with
  | none =>
    have hmem := (mem_scan_iff rules g total).mpr ⟨rfl, hd⟩
    rw [List.argmax_eq_none.mp hw] at hmem
    cases hmem
  | some w => exact ⟨w, rfl, List.mem_filterMap.mpr ⟨_, List.mem_range.mpr d.feature_lt, hw⟩⟩

/-- The first of the winners is an admissible candidate, and the first of those that gain most. -/
theorem spec_of_mem_argmax_winners {c : Candidate m rows}
    (hc : c ∈ (winners m rows rules g total).argmax (Candidate.key rules g total)) :
    c.Admissible rules g total ∧ ∀ d : Candidate m rows, d.Admissible rules g total →
      d.key rules g total ≤ c.key rules g total ∧
        (d.key rules g total = c.key rules g total → c.order ≤ d.order) := by
  refine ⟨admissible_of_mem_winners (List.argmax_mem hc), fun d hd => ?_⟩
  obtain ⟨w, hw, hwinner⟩ := exists_winner hd
  have hmem := (mem_scan_iff rules g total).mpr ⟨rfl, hd⟩
  have hle : d.key rules g total ≤ w.key rules g total := List.le_of_mem_argmax hmem hw
  have hle' : w.key rules g total ≤ c.key rules g total := List.le_of_mem_argmax hwinner hc
  refine ⟨hle.trans hle', fun heq => ?_⟩
  -- A tie goes to the first feature, and in the feature to the first candidate.
  have horder : (winners m rows rules g total).Pairwise fun c d => c.order < d.order :=
    pairwise_winners.imp fun h => Prod.Lex.toLex_lt_toLex.mpr (.inl h)
  exact (le_of_mem_argmax horder hc hwinner (heq.ge.trans hle)).trans
    (le_of_mem_argmax (pairwise_scan rules g total d.feature) hw hmem (hle'.trans heq.ge))

end Best

/-- The search for a split is exhaustive, and it finds the best one. If no gain of an admissible
candidate is a NaN, a split is found if and only if there are two rows or more and some admissible
candidate gains more than `gamma` and than the least gain that counts. The split that is found is
an admissible candidate, no other gains more, and of those that gain as much it is the first: the
one with the lowest feature, then with the lowest boundary, then with the missing rows on the
left. -/
theorem find?_optimal (rules : GrowthRules) (m : Matrix) (g : Gradient) (rows : List Nat)
    (total : Sums) (hnan : ∀ c : Candidate m rows, c.Admissible rules g total →
      (c.gain rules g total).isNaN = false) :
    ((find? rules m g rows total).isSome ↔ 2 ≤ rows.length ∧
      ∃ c : Candidate m rows, c.Admissible rules g total ∧
        rules.gamma.toDouble < c.gain rules g total ∧ leastGain < c.gain rules g total) ∧
    ∀ s, find? rules m g rows total = some s →
      ∃ c : Candidate m rows, c.Admissible rules g total ∧ s = c.toSplit rules g total ∧
        ∀ d : Candidate m rows, d.Admissible rules g total →
          d.gain rules g total ≤ c.gain rules g total ∧
            ((d.gain rules g total).sameNumber (c.gain rules g total) → c.order ≤ d.order) := by
  by_cases hlength : rows.length < 2
  · have hnone : find? rules m g rows total = none := if_pos hlength
    rw [hnone]
    exact ⟨iff_of_false nofun fun h => absurd h.1 (Nat.not_le_of_lt hlength), nofun⟩
  unfold find? findBy?
  rw [if_neg hlength, best?_eq hnan, and_iff_right (Nat.le_of_not_lt hlength)]
  cases hbest : (winners m rows rules g total).argmax (Candidate.key rules g total) with
  | none =>
    refine ⟨iff_of_false nofun ?_, nofun⟩
    rintro ⟨d, hd, -⟩
    obtain ⟨w, -, hw⟩ := exists_winner hd
    rw [List.argmax_eq_none.mp hbest] at hw
    cases hw
  | some c =>
    obtain ⟨hc, hoptimal⟩ := spec_of_mem_argmax_winners hbest
    have hnumber := fun d hd => Double.unpacked_ne (hnan d hd)
    dsimp only [Option.map_some]
    constructor
    · constructor
      · intro hsome
        split at hsome
        · next hgain => exact ⟨c, hc, hgain⟩
        · cases hsome
      · rintro ⟨d, hd, hgamma, hleast⟩
        have hle := (hoptimal d hd).1
        have hgain := Double.lt_of_lt_of_place_le hgamma (hnumber c hc) hle
        rw [if_pos ⟨hgain, Double.lt_of_lt_of_place_le hleast (hnumber c hc) hle⟩]
        rfl
    · intro s hs
      split at hs
      · cases hs
        refine ⟨c, hc, rfl, fun d hd => ?_⟩
        exact ⟨(Double.le_iff (hnumber d hd) (hnumber c hc)).mpr (hoptimal d hd).1, fun hsame =>
          (hoptimal d hd).2 ((Double.sameNumber_iff (hnumber d hd) (hnumber c hc)).mp hsame)⟩
      · cases hs

/-! ## Two rows -/

/-- A feature that is `0` in one row and `1` in another. -/
def twoRows : Matrix := ⟨0, 2, 1, #[0, 1], #[], #[], [], #[], rfl⟩

theorem entries_twoRows : entries twoRows [0, 1] 0 = [⟨0, 0⟩, ⟨1, 1⟩] :=
  List.mergeSort_of_pairwise (by decide +kernel)

/-- The rows have one candidate only, and its left side is the first row. -/
theorem left_twoRows (c : Candidate twoRows [0, 1]) :
    c.left (.ofList [(1, 1), (-1, 1)]) ⟨0, 2⟩ = ⟨1, 1⟩ := by
  have hfeature : c.feature = 0 := Nat.lt_one_iff.mp c.feature_lt
  have hplace := c.place_lt
  have hside := c.side
  rw [hfeature] at hplace hside
  rw [entries_twoRows] at hplace
  have hplace : c.place = 0 := Nat.lt_one_iff.mp (Nat.lt_of_succ_lt_succ hplace)
  have hside : c.defaultLeft = true := hside.resolve_right (by decide +kernel)
  rw [Candidate.left, Candidate.missing, Candidate.before, hfeature, hplace, hside,
    entries_twoRows]
  decide +kernel

/-- Either side gains `1`. -/
theorem gain_twoRows (c : Candidate twoRows [0, 1]) :
    c.gain ⟨1, 1, 0, 0, 0⟩ (.ofList [(1, 1), (-1, 1)]) ⟨0, 2⟩ = 2 := by
  rw [Candidate.gain, Candidate.right, left_twoRows]
  decide +kernel

theorem isSome_find?_twoRows :
    (∀ c : Candidate twoRows [0, 1],
      c.Admissible ⟨1, 1, 0, 0, 0⟩ (.ofList [(1, 1), (-1, 1)]) ⟨0, 2⟩ →
        (c.gain ⟨1, 1, 0, 0, 0⟩ (.ofList [(1, 1), (-1, 1)]) ⟨0, 2⟩).isNaN = false) ∧
    (find? ⟨1, 1, 0, 0, 0⟩ twoRows (.ofList [(1, 1), (-1, 1)]) [0, 1] ⟨0, 2⟩).isSome := by
  have hnan : ∀ c : Candidate twoRows [0, 1],
      c.Admissible ⟨1, 1, 0, 0, 0⟩ (.ofList [(1, 1), (-1, 1)]) ⟨0, 2⟩ →
        (c.gain ⟨1, 1, 0, 0, 0⟩ (.ofList [(1, 1), (-1, 1)]) ⟨0, 2⟩).isNaN = false := by
    intro c _
    rw [gain_twoRows]
    decide +kernel
  let c : Candidate twoRows [0, 1] := ⟨0, by decide, 0, by rw [entries_twoRows]; decide,
    by simp only [entries_twoRows]; decide +kernel, true, .inl rfl⟩
  refine ⟨hnan, (find?_optimal _ _ _ _ _ hnan).1.mpr ⟨le_rfl, c, ⟨?_, ?_⟩, ?_⟩⟩
  · rw [left_twoRows]
    decide +kernel
  · rw [Candidate.right, left_twoRows]
    decide +kernel
  · rw [gain_twoRows]
    decide +kernel

end Split

end BoostedTrees
