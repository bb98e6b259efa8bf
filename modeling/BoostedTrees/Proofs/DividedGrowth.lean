import BoostedTrees.Proofs.DividedSearch
import BoostedTrees.Proofs.GrownTrees

/-!
# Growth with the features searched in parts

The features are searched for a split anew at every node, and they may be divided in another way
every time. A tree comes out the same however they are divided if and only if this holds of every
search on the way. A search does not depend on the division if one of the candidates of the
features leads, and also if none of them gains enough to be taken, for then none is.

Otherwise there is a first node, in the order of growth, at which another division finds another
split, or none. It stays as it is while the rest of the tree is grown, so the trees differ there.

## Main definitions

* `Growth.growBy`: growth with the features divided at every node as is given for that node
* `Growth.Searched`: the rows for which growth searches a split
* `Growth.Settled`: rows for which all divisions find the same

## Main results

* `Growth.settled_iff`: the candidates for which all divisions find the same
* `Growth.growBy_eq_iff`: when all divisions grow the same tree
* `Growth.division_irrelevant_iff`: the divisions of single comparisons, of searches and of growth
-/

namespace BoostedTrees

namespace Split

variable {rules : GrowthRules} {m : Matrix} {g : Gradient} {rows : List Nat} {total : Sums}
  {s s' : Split} {d d' : Division}

/-- A candidate gains enough to be taken. -/
def Counts (rules : GrowthRules) (s : Split) : Prop :=
  rules.gamma.toDouble < s.gain ∧ leastGain < s.gain

instance (rules : GrowthRules) (s : Split) : Decidable (s.Counts rules) :=
  inferInstanceAs (Decidable (_ ∧ _))

theorem Counts.of_lt (h : s.Counts rules) (hgain : s.gain < s'.gain) : s'.Counts rules :=
  ⟨Double.lt_trans h.1 hgain, Double.lt_trans h.2 hgain⟩

/-- A candidate that gains no less than one that counts does so as well, if it has a number. -/
theorem Counts.of_not_lt (h : s.Counts rules) (hnumber : s'.gain.isNaN = false)
    (hgain : ¬s'.gain < s.gain) : s'.Counts rules :=
  ⟨by_contra fun hnot => hgain (Double.lt_of_lt_of_not_lt h.1 hnumber hnot),
    by_contra fun hnot => hgain (Double.lt_of_lt_of_not_lt h.2 hnumber hnot)⟩

/-- Where no candidate leads, the best from the left has a number: a NaN would be the best only
behind other NaNs, and the first of them would lead. -/
theorem not_isNaN_of_best? {cs : List Split} (hbest : best? cs = some s) (hasc : Ascending cs)
    (h : ¬HasLeader cs) : s.gain.isNaN = false := by
  by_contra hnumber
  have hnan : s.gain.isNaN = true := Bool.not_eq_false _ ▸ hnumber
  obtain ⟨before, after, rfl, habove, -⟩ := exists_of_best? hbest hasc
  cases before with
  | nil => exact h ⟨[], s, after, rfl, leads_of_isNaN hnan after⟩
  | cons a before =>
    refine h ⟨[], a, _, rfl, leads_of_isNaN (by_contra fun ha => ?_) _⟩
    have hlt := habove a List.mem_cons_self (Bool.eq_false_iff.mpr ha)
    exact hnumber (Double.not_isNaN_of_lt hlt).2

/-- Where no candidate leads but one counts, the best from the left counts. -/
theorem Counts.best? {cs : List Split} (hc : s.Counts rules) (hs : s ∈ cs)
    (hbest : best? cs = some s') (hasc : Ascending cs) (h : ¬HasLeader cs) :
    s'.Counts rules := by
  have hnumber := not_isNaN_of_best? hbest hasc h
  obtain ⟨before, after, rfl, habove, hunbeaten⟩ := exists_of_best? hbest hasc
  rcases List.mem_append.mp hs with hs | hs
  · exact hc.of_lt (habove s hs (Double.not_isNaN_of_lt hc.1).2)
  rcases List.mem_cons.mp hs with rfl | hs
  · exact hc
  · exact hc.of_not_lt hnumber (hunbeaten s hs)

/-- Of several rows, the best candidate is found if it counts. -/
theorem findBy?_eq_some_iff (h : 2 ≤ rows.length) : findBy? d rules m g rows total = some s ↔
    d.best? (offers rules m g rows total) = some s ∧ s.Counts rules := by
  rw [findBy?, if_neg (Nat.not_lt_of_le h)]
  cases d.best? (offers rules m g rows total) with
  | none => simp
  | some b =>
    show (if b.Counts rules then some b else none) = some s ↔ _
    rw [Option.ite_none_right_eq_some, Option.some.injEq, and_comm, and_congr_right_iff]
    rintro rfl
    rfl

/-- Divisions with the same best find the same. -/
theorem findBy?_congr
    (h : d.best? (offers rules m g rows total) = d'.best? (offers rules m g rows total)) :
    findBy? d rules m g rows total = findBy? d' rules m g rows total := by
  rw [findBy?, h, findBy?]

/-- Two splits that are found for some rows, with their features divided in any way, are the same if
they have the same feature. -/
theorem eq_of_findBy?_of_feature_eq (h : findBy? d rules m g rows total = some s)
    (h' : findBy? d' rules m g rows total = some s') (heq : s.feature = s'.feature) : s = s' := by
  obtain ⟨i, hi, hs⟩ := exists_of_findBy? h
  obtain ⟨j, hj, hs'⟩ := exists_of_findBy? h'
  have hword : lowWord m.columns < 2 ^ 32 := Nat.mod_lt _ (by decide)
  rw [feature_of_bestOf? hs, feature_of_bestOf? hs'] at heq
  have hplace := congrArg UInt32.toNat heq
  rw [UInt32.toNat_ofNat_of_lt' (hi.trans hword), UInt32.toNat_ofNat_of_lt' (hj.trans hword)]
    at hplace
  rw [hplace] at hs
  exact Option.some.inj (hs.symm.trans hs')

end Split

namespace Growth

open Split (Division findBy? find? offers offered)

variable (rules : GrowthRules) (m : Matrix) (g : Gradient)

/-! ## Searches -/

/-- All divisions of the features find the same for some rows. -/
def Settled (rows : List Nat) : Prop :=
  ∀ d : Division, findBy? d rules m g rows (g.sums rows) = find? rules m g rows (g.sums rows)

variable {rules m g} {rows : List Nat}

/-- All divisions find the same if and only if there are no two rows, or one of the candidates
leads, or none of them counts. -/
theorem settled_iff : Settled rules m g rows ↔ (2 ≤ rows.length →
    Split.HasLeader (offered rules m g rows (g.sums rows)) ∨
      ∀ s ∈ offered rules m g rows (g.sums rows), ¬s.Counts rules) := by
  have hasc : Split.Ascending ((offers rules m g rows (g.sums rows)).filterMap id) := by
    rw [Split.filterMap_offers]
    exact Split.ascending_offered
  rw [← Split.filterMap_offers]
  constructor
  · intro hsettled hrows
    by_contra hnot
    obtain ⟨hleader, hcounts⟩ := not_or.mp hnot
    push Not at hcounts
    obtain ⟨s, hs, hc⟩ := hcounts
    obtain ⟨b, hb⟩ := Split.exists_best?_eq (List.ne_nil_of_mem hs)
    -- The best from the left is taken, and a cut has another best, with a smaller feature.
    have hfound : findBy? .whole rules m g rows (g.sums rows) = some b :=
      (Split.findBy?_eq_some_iff hrows).mpr ⟨hb, hc.best? hs hb hasc hleader⟩
    obtain ⟨width, a, ha, hlt⟩ := Division.exists_cut_best?_ne rfl hasc hb hleader
    rw [hsettled .whole, ← hsettled (.cut width .whole .whole),
      Split.findBy?_eq_some_iff hrows, ha] at hfound
    rw [Option.some.inj hfound.1] at hlt
    exact UInt32.lt_irrefl _ hlt
  · intro h d
    rcases Nat.lt_or_ge rows.length 2 with hrows | hrows
    · exact (if_pos hrows).trans (if_pos hrows).symm
    rcases h hrows with hleader | hnone
    · exact Split.findBy?_congr ((Division.best?_eq_iff hasc).mpr (.inr hleader) d _)
    · have hnothing : ∀ d : Division, findBy? d rules m g rows (g.sums rows) = none := by
        refine fun d => Option.eq_none_iff_forall_ne_some.mpr fun s hs => ?_
        obtain ⟨hbest, hc⟩ := (Split.findBy?_eq_some_iff hrows).mp hs
        exact hnone s (Division.mem_of_best? hbest) hc
      exact (hnothing d).trans (hnothing _).symm

/-! ## Trees -/

section Tree

variable (rules m g) (divide : Nat → Division)

/-- Grows as `growAt` does, but with the features divided at every node as is given for it. -/
def growAtBy : (levels : Nat) → (t : Tree) → (i : Nat) → (rows : List Nat) → Tree
  | 0, t, i, rows => measured rules g t i rows
  | levels + 1, t, i, rows =>
    match findBy? (divide i) rules m g rows (g.sums rows) with
    | none => measured rules g t i rows
    | some s =>
      growAtBy levels
        (growAtBy levels (branched rules g t i rows s) t.size (s.leftRows m rows))
        (t.size + 1) (s.rightRows m rows)

/-- The tree grown on some rows, with the features divided at every node as is given for it. -/
def growBy (rows : List Nat) : Tree :=
  growAtBy rules m g divide (levels rules rows) (Tree.leaf 0 0) 0 rows

/-- Growth over so many levels from some rows searches a split of certain rows. -/
inductive Searched : (levels : Nat) → List Nat → List Nat → Prop
  | here (levels : Nat) (rows : List Nat) : Searched (levels + 1) rows rows
  | left {levels : Nat} {rows rows' : List Nat} {s : Split}
      (h : find? rules m g rows (g.sums rows) = some s)
      (hsearched : Searched levels (s.leftRows m rows) rows') : Searched (levels + 1) rows rows'
  | right {levels : Nat} {rows rows' : List Nat} {s : Split}
      (h : find? rules m g rows (g.sums rows) = some s)
      (hsearched : Searched levels (s.rightRows m rows) rows') : Searched (levels + 1) rows rows'

variable {rules m g divide} {levels : Nat} {t : Tree} {i j : Nat}

theorem growAtBy_of_none (h : findBy? (divide i) rules m g rows (g.sums rows) = none) :
    growAtBy rules m g divide levels t i rows = measured rules g t i rows := by
  cases levels with
  | zero => rfl
  | succ levels => rw [growAtBy, h]

theorem growAtBy_succ_of_some {s : Split}
    (h : findBy? (divide i) rules m g rows (g.sums rows) = some s) :
    growAtBy rules m g divide (levels + 1) t i rows =
      growAtBy rules m g divide levels
        (growAtBy rules m g divide levels (branched rules g t i rows s) t.size
          (s.leftRows m rows))
        (t.size + 1) (s.rightRows m rows) := by
  rw [growAtBy, h]

/-- Growth as it is halves the features at every node. -/
theorem growAt_eq : growAt rules m g levels t i rows =
    growAtBy rules m g (fun _ => .halves (lowWord m.columns) (lowWord m.columns)) levels t i
      rows := by
  induction levels generalizing t i rows with
  | zero => rfl
  | succ levels ih =>
    cases hfind : find? rules m g rows (g.sums rows) with
    | none =>
      rw [growAt_of_none hfind, growAtBy_of_none]
      exact hfind
    | some s =>
      rw [growAt_succ_of_some hfind, ih, ih, growAtBy_succ_of_some]
      exact hfind

variable (rules m g divide levels t i) in
theorem size_le_growAtBy (rows : List Nat) :
    t.size ≤ (growAtBy rules m g divide levels t i rows).size := by
  induction levels generalizing t i rows with
  | zero => exact (size_measured rules g t i rows).ge
  | succ levels ih =>
    cases hfind : findBy? (divide i) rules m g rows (g.sums rows) with
    | none =>
      rw [growAtBy_of_none hfind]
      exact (size_measured rules g t i rows).ge
    | some s =>
      rw [growAtBy_succ_of_some hfind]
      calc t.size ≤ (branched rules g t i rows s).size := by
            rw [size_branched]
            exact Nat.le_add_right _ _
        _ ≤ _ := (ih _ _ _).trans (ih _ _ _)

/-- Growing at a node changes no other node that is there. -/
theorem node_growAtBy_of_ne (hj : j < t.size) (hne : j ≠ i) :
    (growAtBy rules m g divide levels t i rows).node j = t.node j := by
  induction levels generalizing t i rows with
  | zero => exact node_measured_of_ne hne
  | succ levels ih =>
    cases hfind : findBy? (divide i) rules m g rows (g.sums rows) with
    | none =>
      rw [growAtBy_of_none hfind]
      exact node_measured_of_ne hne
    | some s =>
      have hsize := size_branched rules g t i rows s
      have hle := size_le_growAtBy rules m g divide levels (branched rules g t i rows s) t.size
        (s.leftRows m rows)
      rw [growAtBy_succ_of_some hfind, ih (by omega) (by omega), ih (by omega) (by omega),
        node_branched_of_ne hne]

/-- What stands at a node over rows with the given sums, for which a split was found or not. -/
def nodeOver (rules : GrowthRules) (total : Sums) (found : Option Split) (left right : Nat) :
    Node :=
  found.elim (leafOver rules total) fun s => splitOver rules total s left right

theorem node_growAtBy (h : i < t.size) (hblank : t.node i = .blank) :
    (growAtBy rules m g divide (levels + 1) t i rows).node i =
      nodeOver rules (g.sums rows) (findBy? (divide i) rules m g rows (g.sums rows)) t.size
        (t.size + 1) := by
  cases hfind : findBy? (divide i) rules m g rows (g.sums rows) with
  | none =>
    rw [growAtBy_of_none hfind]
    exact node_measured h hblank
  | some s =>
    have hsize := size_branched rules g t i rows s
    have hle := size_le_growAtBy rules m g divide levels (branched rules g t i rows s) t.size
      (s.leftRows m rows)
    rw [growAtBy_succ_of_some hfind, node_growAtBy_of_ne (by omega) (by omega),
      node_growAtBy_of_ne (by omega) (by omega)]
    exact node_branched h hblank

/-- The node shows what was found: whether there is a split, and on which feature. -/
theorem findBy?_eq_of_nodeOver_eq {d d' : Division} {total : Sums} {left right : Nat}
    (h : nodeOver rules total (findBy? d rules m g rows total) left right =
      nodeOver rules total (findBy? d' rules m g rows total) left right) :
    findBy? d rules m g rows total = findBy? d' rules m g rows total := by
  have hchildren := congrArg Node.children h
  have hfeature := congrArg Node.feature h
  cases hs : findBy? d rules m g rows total with
  | none =>
    cases hs' : findBy? d' rules m g rows total with
    | none => rfl
    | some s' =>
      rw [hs, hs'] at hchildren
      cases hchildren
  | some s =>
    cases hs' : findBy? d' rules m g rows total with
    | none =>
      rw [hs, hs'] at hchildren
      cases hchildren
    | some s' =>
      rw [hs, hs'] at hfeature
      exact congrArg some (Split.eq_of_findBy?_of_feature_eq hs hs' hfeature)

/-- Growth is the same in any division if all searches on the way are settled. -/
theorem growAtBy_eq_growAt
    (h : ∀ rows', Searched rules m g levels rows rows' → Settled rules m g rows') :
    growAtBy rules m g divide levels t i rows = growAt rules m g levels t i rows := by
  induction levels generalizing t i rows with
  | zero => rfl
  | succ levels ih =>
    have hsame := h rows (.here levels rows) (divide i)
    cases hfind : find? rules m g rows (g.sums rows) with
    | none => rw [growAtBy_of_none (hsame.trans hfind), growAt_of_none hfind]
    | some s =>
      rw [growAtBy_succ_of_some (hsame.trans hfind), growAt_succ_of_some hfind,
        ih fun rows' hs => h rows' (.left hfind hs), ih fun rows' hs => h rows' (.right hfind hs)]

/-- Two trees differ at one node, or at one that has at least so many before it. -/
def DifferFrom (i n : Nat) (t t' : Tree) : Prop :=
  ∃ j, (j = i ∨ n ≤ j) ∧ j < t.size ∧ j < t'.size ∧ t.node j ≠ t'.node j

namespace DifferFrom

variable {t t' : Tree} {i j n n' : Nat}

theorem mono (h : DifferFrom j n t t') (hj : n' ≤ j) (hn : n' ≤ n) : DifferFrom i n' t t' := by
  obtain ⟨k, hk, hrest⟩ := h
  exact ⟨k, .inr (by omega), hrest⟩

/-- Trees that differ at a node still do so when another node is grown. -/
theorem growAt (h : DifferFrom j n t t') (hne : i ≠ j) (hlt : i < n) :
    DifferFrom j n (growAtBy rules m g divide levels t i rows)
      (growAt rules m g levels t' i rows) := by
  obtain ⟨k, hk, hsize, hsize', hnode⟩ := h
  rw [growAt_eq]
  refine ⟨k, hk, hsize.trans_le (size_le_growAtBy ..), hsize'.trans_le (size_le_growAtBy ..), ?_⟩
  rwa [node_growAtBy_of_ne hsize (by omega), node_growAtBy_of_ne hsize' (by omega)]

end DifferFrom

/-- If some search on the way is not settled, another tree grows with some division. -/
theorem exists_differFrom (h : i < t.size) (hblank : t.node i = .blank)
    (hs : ∃ rows', Searched rules m g levels rows rows' ∧ ¬Settled rules m g rows') :
    ∃ d : Division, DifferFrom i t.size (growAtBy rules m g (fun _ => d) levels t i rows)
      (growAt rules m g levels t i rows) := by
  induction levels generalizing t i rows with
  | zero =>
    obtain ⟨rows', hs, -⟩ := hs
    cases hs
  | succ levels ih =>
    by_cases hroot : Settled rules m g rows
    · -- All divisions find the same split here, so a search below is not settled.
      obtain ⟨s, hfind, hbelow⟩ : ∃ s, find? rules m g rows (g.sums rows) = some s ∧
          ((∃ rows', Searched rules m g levels (s.leftRows m rows) rows' ∧
              ¬Settled rules m g rows') ∨
            ∃ rows', Searched rules m g levels (s.rightRows m rows) rows' ∧
              ¬Settled rules m g rows') := by
        obtain ⟨rows', hs, hunsettled⟩ := hs
        cases hs with
        | here => exact absurd hroot hunsettled
        | left hfind hs => exact ⟨_, hfind, .inl ⟨rows', hs, hunsettled⟩⟩
        | right hfind hs => exact ⟨_, hfind, .inr ⟨rows', hs, hunsettled⟩⟩
      have hsize := size_branched rules g t i rows s
      have hchild : ∀ j, t.size ≤ j → (branched rules g t i rows s).node j = .blank := by
        intro j hj
        rw [node_branched_of_ne (Nat.ne_of_gt (h.trans_le hj)), Tree.node_of_size_le hj]
      by_cases hleft : ∃ rows', Searched rules m g levels (s.leftRows m rows) rows' ∧
          ¬Settled rules m g rows'
      · obtain ⟨d, hd⟩ := ih (by omega) (hchild t.size le_rfl) hleft
        refine ⟨d, ?_⟩
        rw [growAtBy_succ_of_some ((hroot d).trans hfind), growAt_succ_of_some hfind]
        exact (hd.growAt (Nat.succ_ne_self _) (by omega)).mono le_rfl (by omega)
      · -- The left subtrees are the same, and the right ones are grown behind them.
        have hsettled : ∀ rows', Searched rules m g levels (s.leftRows m rows) rows' →
            Settled rules m g rows' :=
          fun rows' hs => by_contra fun hunsettled => hleft ⟨rows', hs, hunsettled⟩
        obtain ⟨shape, hgrows⟩ : ∃ shape, Grows rules m g (branched rules g t i rows s) _ levels
            t.size (s.leftRows m rows) shape :=
          grows_growAt levels (by omega) (hchild t.size le_rfl)
        have hle := hgrows.size_le
        have hblank' := (hgrows.frame (t.size + 1) (by omega) (Nat.succ_ne_self _)).trans
          (hchild _ (Nat.le_succ _))
        obtain ⟨d, hd⟩ := ih (by omega) hblank' (hbelow.resolve_left hleft)
        refine ⟨d, ?_⟩
        rw [growAtBy_succ_of_some ((hroot d).trans hfind), growAt_succ_of_some hfind,
          growAtBy_eq_growAt hsettled]
        exact hd.mono (Nat.le_succ _) (by omega)
    · obtain ⟨d, hd⟩ := not_forall.mp hroot
      rw [growAt_eq]
      refine ⟨d, i, .inl rfl, h.trans_le (size_le_growAtBy ..), h.trans_le (size_le_growAtBy ..),
        fun hnode => hd ?_⟩
      rw [node_growAtBy h hblank, node_growAtBy h hblank] at hnode
      exact findBy?_eq_of_nodeOver_eq hnode

end Tree

/-! ## The whole tree -/

variable (rules m g rows)

/-- Growth is the same in all divisions if and only if all searches on the way are settled. -/
theorem growBy_eq_iff : (∀ divide, growBy rules m g divide rows = grow rules m g rows) ↔
    ∀ rows', Searched rules m g (levels rules rows) rows rows' → Settled rules m g rows' := by
  constructor
  · intro h rows' hs
    by_contra hunsettled
    obtain ⟨d, j, -, -, -, hnode⟩ : ∃ d : Division, DifferFrom 0 (Tree.leaf 0 0).size
        (growBy rules m g (fun _ => d) rows) (grow rules m g rows) :=
      exists_differFrom Nat.one_pos rfl ⟨rows', hs, hunsettled⟩
    exact hnode (congrArg (Tree.node · j) (h fun _ => d))
  · exact fun h divide => growAtBy_eq_growAt h

/-- How the features are divided matters only where a NaN is among the gains. Of three candidates
that features offer, in their order, both ways to compare them give the same unless the one in the
middle has a NaN and the last one gains more than the first. For any number of features, all
divisions have the same best if and only if nothing is offered or one of the candidates leads, which
is so if all gains are numbers. And a tree comes out the same, with the features divided anew at
every node, if and only if in every search on the way, for two rows or more, one of the candidates
leads or none of them counts; so it does if all gains on the way are numbers. -/
theorem division_irrelevant_iff :
    (∀ rows' total,
      (∀ a b c, [a, b, c].Sublist (offered rules m g rows' total) →
        (Split.better (Split.better a b) c = Split.better a (Split.better b c) ↔
          ¬(b.gain.isNaN ∧ a.gain < c.gain))) ∧
      ((∀ d d' : Division, d.best? (offers rules m g rows' total) =
          d'.best? (offers rules m g rows' total)) ↔
        offered rules m g rows' total = [] ∨ Split.HasLeader (offered rules m g rows' total)) ∧
      ((∀ s ∈ offered rules m g rows' total, s.gain.isNaN = false) →
        ∀ d d' : Division, d.best? (offers rules m g rows' total) =
          d'.best? (offers rules m g rows' total))) ∧
    ((∀ divide, growBy rules m g divide rows = grow rules m g rows) ↔
      ∀ rows', Searched rules m g (levels rules rows) rows rows' → 2 ≤ rows'.length →
        Split.HasLeader (offered rules m g rows' (g.sums rows')) ∨
          ∀ s ∈ offered rules m g rows' (g.sums rows'), ¬s.Counts rules) ∧
    ((∀ rows', Searched rules m g (levels rules rows) rows rows' →
        ∀ s ∈ offered rules m g rows' (g.sums rows'), s.gain.isNaN = false) →
      ∀ divide, growBy rules m g divide rows = grow rules m g rows) := by
  have hgrow : (∀ divide, growBy rules m g divide rows = grow rules m g rows) ↔ _ :=
    (growBy_eq_iff rules m g rows).trans (forall₂_congr fun rows' _ => settled_iff)
  refine ⟨fun rows' total => ⟨fun a b c habc => ?_, Division.best?_offers_eq_iff,
    fun hnumbers d d' => (d.best?_offers hnumbers).trans (d'.best?_offers hnumbers).symm⟩, hgrow,
    fun hnumbers => hgrow.mpr fun rows' hs _ => ?_⟩
  · obtain ⟨ha, hb⟩ := List.pairwise_cons.mp (Split.ascending_offered.sublist habc)
    exact Split.better_assoc_iff (ha b List.mem_cons_self)
      ((List.pairwise_cons.mp hb).1 c List.mem_cons_self)
  · refine (Split.eq_nil_or_hasLeader Split.ascending_offered (hnumbers rows' hs)).symm.imp_right ?_
    exact fun hnone s hs => absurd (hnone ▸ hs) List.not_mem_nil

/-! ## A hidden feature -/

/-- Three features of four rows. The second one splits off the last row, which lacks the others. -/
def hiddenRows : Matrix where
  id := 0
  rows := 4
  columns := 3
  values := #[0, 0, 0, 1, 0, 0, 1, 0, 1, Single.nan, 1, Single.nan]
  labels := #[]
  weights := #[]
  groups := []
  baseMargin := #[]
  size_values := rfl

/-- The second derivative at the last row is infinite. -/
def hiddenGradient : Gradient := .ofList [(2, 1), (4, 1), (1, 1), (1, Single.infinity)]

/-- What is left for rows that lack the second feature, of which there are none, is an infinite total
less an infinite sum. This is a NaN, and so is the gain of the feature. -/
theorem offers_hiddenRows :
    offers ⟨1, 1, 1, 0, 1⟩ hiddenRows hiddenGradient [0, 1, 2, 3]
        (hiddenGradient.sums [0, 1, 2, 3]) =
      [some ⟨0, .ofDecimal 5 (-1), false, 2⟩, some ⟨1, .ofDecimal 5 (-1), true, .indefinite⟩,
        some ⟨2, .ofDecimal 5 (-1), false, 12⟩] := by
  have hcolumns : List.range (lowWord hiddenRows.columns) = [0, 1, 2] := rfl
  have hfirst : Split.entries hiddenRows [0, 1, 2, 3] 0 = [⟨0, 0⟩, ⟨1, 1⟩, ⟨1, 2⟩] :=
    List.mergeSort_of_pairwise (by decide +kernel)
  have hsecond : Split.entries hiddenRows [0, 1, 2, 3] 1 = [⟨0, 0⟩, ⟨0, 1⟩, ⟨0, 2⟩, ⟨1, 3⟩] :=
    List.mergeSort_of_pairwise (by decide +kernel)
  have hthird : Split.entries hiddenRows [0, 1, 2, 3] 2 = [⟨0, 0⟩, ⟨0, 1⟩, ⟨1, 2⟩] :=
    List.mergeSort_of_pairwise (by decide +kernel)
  simp only [Split.offers, hcolumns, List.map_cons, List.map_nil, Split.bestOf?, hfirst, hsecond,
    hthird]
  decide +kernel

/-- Halved, the first feature is compared with the best of the other two, which is the second as its
NaN hides the third. -/
theorem not_forall_growBy_eq_hiddenRows :
    find? ⟨1, 1, 1, 0, 1⟩ hiddenRows hiddenGradient [0, 1, 2, 3]
        (hiddenGradient.sums [0, 1, 2, 3]) = some ⟨0, .ofDecimal 5 (-1), false, 2⟩ ∧
      findBy? .whole ⟨1, 1, 1, 0, 1⟩ hiddenRows hiddenGradient [0, 1, 2, 3]
        (hiddenGradient.sums [0, 1, 2, 3]) = some ⟨2, .ofDecimal 5 (-1), false, 12⟩ ∧
      ¬∀ divide, growBy ⟨1, 1, 1, 0, 1⟩ hiddenRows hiddenGradient divide [0, 1, 2, 3] =
        grow ⟨1, 1, 1, 0, 1⟩ hiddenRows hiddenGradient [0, 1, 2, 3] := by
  have hsplits := division_irrelevant_iff ⟨1, 1, 1, 0, 1⟩ hiddenRows hiddenGradient [0, 1, 2, 3]
  have hfind : find? ⟨1, 1, 1, 0, 1⟩ hiddenRows hiddenGradient [0, 1, 2, 3]
      (hiddenGradient.sums [0, 1, 2, 3]) = some ⟨0, .ofDecimal 5 (-1), false, 2⟩ := by
    unfold find? findBy?
    rw [offers_hiddenRows]
    decide +kernel
  have hwhole : findBy? .whole ⟨1, 1, 1, 0, 1⟩ hiddenRows hiddenGradient [0, 1, 2, 3]
      (hiddenGradient.sums [0, 1, 2, 3]) = some ⟨2, .ofDecimal 5 (-1), false, 12⟩ := by
    unfold findBy?
    rw [offers_hiddenRows]
    decide +kernel
  have hrows : 2 ≤ [0, 1, 2, 3].length := by decide
  refine ⟨hfind, hwhole, fun hsame => ?_⟩
  obtain ⟨hbest, hcounts⟩ := (Split.findBy?_eq_some_iff hrows).mp hfind
  rcases hsplits.2.1.mp hsame [0, 1, 2, 3] (.here 0 _) hrows with hleader | hnone
  · have hbest' := ((Split.findBy?_eq_some_iff hrows).mp hwhole).1
    rw [(hsplits.1 _ _).2.1.mpr (.inr hleader) .whole, hbest] at hbest'
    exact absurd hbest' (by decide)
  · have hmem := Division.mem_of_best? hbest
    rw [Split.filterMap_offers] at hmem
    exact hnone _ hmem hcounts

end Growth

end BoostedTrees
