import BoostedTrees.Growth.Grow
import Mathlib.Data.List.Basic
import Mathlib.Logic.Function.Iterate

/-!
# Growth, node after node

A tree grows one node at a time. The nodes that are still to be grown wait on a stack; the one
on top gets its statistics and either stays a leaf or is split, and its two children wait in its
place. Growth ends when no node waits any more. With a limit on the depth it always ends. Without
one it ends if and only if every split on the way sends rows to both sides: a side that gets all
rows of its node is split in the same way again, and for ever.

When growth ends, it has built the tree that `Growth.grow` gives, so the number of levels that
this function allows is never too small.

## Main definitions

* `Growth.Progress`, `Growth.step`: a tree under growth, and the growth of one node
* `Growth.Ends`: growth comes to an end
* `Growth.Met`: growth from some rows comes to a node with certain rows

## Main results

* `Growth.exists_run_of_pos`: with a limit on the depth, growth ends with the tree of `grow`
* `Growth.ends_iff`: without one, it ends if and only if all splits on the way separate rows
* `Growth.exists_run_of_ends`: where growth ends, it ends with the tree of `grow`
-/

namespace BoostedTrees

namespace Split

variable (s : Split) (m : Matrix) (rows : List Nat)

/-- The rows that a split sends to the left. -/
def leftRows : List Nat := rows.filter (s.sendsLeft m)

/-- The rows that a split sends to the right. -/
def rightRows : List Nat := rows.filter fun row => !s.sendsLeft m row

theorem partition_eq : rows.partition (s.sendsLeft m) = (s.leftRows m rows, s.rightRows m rows) :=
  List.partition_eq_filter_filter

theorem length_leftRows_add : (s.leftRows m rows).length + (s.rightRows m rows).length =
    rows.length :=
  (List.length_eq_length_filter_add (s.sendsLeft m)).symm

/-- A split of some rows that sends rows to both sides. -/
def Separates : Prop := s.leftRows m rows ≠ [] ∧ s.rightRows m rows ≠ []

variable {s m rows}

/-- The rows of either side are fewer if and only if there are rows on both sides. -/
theorem separates_iff : s.Separates m rows ↔
    (s.leftRows m rows).length < rows.length ∧ (s.rightRows m rows).length < rows.length := by
  have hlength := s.length_leftRows_add m rows
  rw [Separates, ← List.length_pos_iff, ← List.length_pos_iff]
  omega

/-- If a side gets no rows, the other gets all of them. -/
theorem eq_rows_of_not_separates (h : ¬s.Separates m rows) :
    s.leftRows m rows = rows ∨ s.rightRows m rows = rows := by
  rw [Separates, not_and_or, not_ne_iff, not_ne_iff] at h
  rcases h with h | h
  · refine .inr (List.filter_eq_self.mpr fun row hrow => ?_)
    have := List.filter_eq_nil_iff.mp h row hrow
    simpa using this
  · refine .inl (List.filter_eq_self.mpr fun row hrow => ?_)
    have := List.filter_eq_nil_iff.mp h row hrow
    simpa using this

theorem find?_eq_none_of_length {rules : GrowthRules} {g : Gradient} {total : Sums}
    (h : rows.length < 2) : find? rules m g rows total = none :=
  if_pos h

end Split

namespace Growth

variable (rules : GrowthRules) (m : Matrix) (g : Gradient)

/-! ## One node -/

/-- The tree in which a node has the statistics of some rows. -/
def measured (t : Tree) (i : Nat) (rows : List Nat) : Tree :=
  t.setStatistics i (value rules (g.sums rows)) (g.sums rows).second.toSingle

/-- The tree in which a node has the statistics of some rows and is split. -/
def branched (t : Tree) (i : Nat) (rows : List Nat) (s : Split) : Tree :=
  (measured rules g t i rows).split i s.feature s.threshold s.defaultLeft s.gain.toSingle

@[simp] theorem size_measured (t : Tree) (i : Nat) (rows : List Nat) :
    (measured rules g t i rows).size = t.size :=
  Tree.size_setStatistics t i _ _

@[simp] theorem size_branched (t : Tree) (i : Nat) (rows : List Nat) (s : Split) :
    (branched rules g t i rows s).size = t.size + 2 := by
  rw [branched, Tree.size_split, size_measured]

variable {rules m g} {rows : List Nat} {levels : Nat} {t : Tree} {i : Nat} {s : Split}

theorem growAt_zero : growAt rules m g 0 t i rows = measured rules g t i rows := rfl

theorem growAt_of_none (h : Split.find? rules m g rows (g.sums rows) = none) :
    growAt rules m g levels t i rows = measured rules g t i rows := by
  cases levels with
  | zero => rfl
  | succ levels =>
    rw [growAt, h]
    rfl

theorem growAt_succ_of_some (h : Split.find? rules m g rows (g.sums rows) = some s) :
    growAt rules m g (levels + 1) t i rows =
      growAt rules m g levels
        (growAt rules m g levels (branched rules g t i rows s) t.size (s.leftRows m rows))
        (t.size + 1) (s.rightRows m rows) := by
  rw [growAt, h]
  dsimp only
  rw [Split.partition_eq, Tree.size_setStatistics]
  rfl

/-! ## Steps -/

/-- A node that is still to be grown, with the rows that reach it. -/
structure Waiting where
  node : Nat
  rows : List Nat
  depth : Nat

/-- A tree under growth, with the nodes that are still to be grown, the next one first. -/
structure Progress where
  tree : Tree
  waiting : List Waiting

/-- Before the first step there is one leaf, which waits with all rows. -/
def start (rows : List Nat) : Progress := ⟨Tree.leaf 0 0, [⟨0, rows, 0⟩]⟩

/-- Whether nodes of some depth are not split any more. -/
def AtLimit (rules : GrowthRules) (depth : Nat) : Prop :=
  0 < rules.maxDepth ∧ rules.maxDepth ≤ depth

instance (rules : GrowthRules) (depth : Nat) : Decidable (AtLimit rules depth) :=
  inferInstanceAs (Decidable (_ ∧ _))

variable (rules m g)

/-- The next node is grown. -/
def step (p : Progress) : Progress :=
  match p.waiting with
  | [] => p
  | w :: rest =>
    if AtLimit rules w.depth then ⟨measured rules g p.tree w.node w.rows, rest⟩
    else
      match Split.find? rules m g w.rows (g.sums w.rows) with
      | none => ⟨measured rules g p.tree w.node w.rows, rest⟩
      | some s =>
        ⟨branched rules g p.tree w.node w.rows s,
          ⟨p.tree.size, s.leftRows m w.rows, w.depth + 1⟩ ::
            ⟨p.tree.size + 1, s.rightRows m w.rows, w.depth + 1⟩ :: rest⟩

/-- Growth on some rows comes to an end. -/
def Ends (rows : List Nat) : Prop := ∃ n, ((step rules m g)^[n] (start rows)).waiting = []

/-- Growth from some rows comes to a node with certain rows, if nothing limits its depth. -/
inductive Met : List Nat → List Nat → Prop
  | here (rows : List Nat) : Met rows rows
  | left {rows rows' : List Nat} {s : Split}
      (h : Split.find? rules m g rows (g.sums rows) = some s)
      (hmet : Met (s.leftRows m rows) rows') : Met rows rows'
  | right {rows rows' : List Nat} {s : Split}
      (h : Split.find? rules m g rows (g.sums rows) = some s)
      (hmet : Met (s.rightRows m rows) rows') : Met rows rows'

/-- All splits that growth from some rows comes to send rows to both sides. -/
def AllSeparate (rows : List Nat) : Prop :=
  ∀ rows' s, Met rules m g rows rows' →
    Split.find? rules m g rows' (g.sums rows') = some s → s.Separates m rows'

variable {rules m g}

theorem AllSeparate.left (h : AllSeparate rules m g rows)
    (hs : Split.find? rules m g rows (g.sums rows) = some s) :
    AllSeparate rules m g (s.leftRows m rows) :=
  fun rows' s' hmet => h rows' s' (.left hs hmet)

theorem AllSeparate.right (h : AllSeparate rules m g rows)
    (hs : Split.find? rules m g rows (g.sums rows) = some s) :
    AllSeparate rules m g (s.rightRows m rows) :=
  fun rows' s' hmet => h rows' s' (.right hs hmet)

section Step

variable {rest : List Waiting} {depth : Nat}

theorem step_of_atLimit (h : AtLimit rules depth) :
    step rules m g ⟨t, ⟨i, rows, depth⟩ :: rest⟩ = ⟨measured rules g t i rows, rest⟩ :=
  if_pos h

theorem step_of_none (h : Split.find? rules m g rows (g.sums rows) = none) :
    step rules m g ⟨t, ⟨i, rows, depth⟩ :: rest⟩ = ⟨measured rules g t i rows, rest⟩ := by
  simp only [step, h, ite_self]

theorem step_of_some (hlimit : ¬AtLimit rules depth)
    (h : Split.find? rules m g rows (g.sums rows) = some s) :
    step rules m g ⟨t, ⟨i, rows, depth⟩ :: rest⟩ =
      ⟨branched rules g t i rows s, ⟨t.size, s.leftRows m rows, depth + 1⟩ ::
        ⟨t.size + 1, s.rightRows m rows, depth + 1⟩ :: rest⟩ := by
  simp only [step, if_neg hlimit, h]

/-! ## Runs that end -/

/-- A node is grown, with all that comes below it, before the nodes that wait behind it, if the
levels are those up to the limit, or without one at least as many as there are rows. -/
theorem exists_run (hlimit : 0 < rules.maxDepth → depth + levels = rules.maxDepth)
    (hseparate : rules.maxDepth = 0 → AllSeparate rules m g rows ∧ rows.length ≤ levels) :
    ∃ n, (step rules m g)^[n] ⟨t, ⟨i, rows, depth⟩ :: rest⟩ =
      ⟨growAt rules m g levels t i rows, rest⟩ := by
  induction levels generalizing t i rows depth rest with
  | zero =>
    refine ⟨1, ?_⟩
    rw [Function.iterate_one, growAt_zero]
    rcases Nat.eq_zero_or_pos rules.maxDepth with hzero | hpos
    · have hlength := (hseparate hzero).2
      exact step_of_none (Split.find?_eq_none_of_length (by omega))
    · exact step_of_atLimit ⟨hpos, Nat.le_of_eq (hlimit hpos).symm⟩
  | succ levels ih =>
    cases hs : Split.find? rules m g rows (g.sums rows) with
    | none =>
      refine ⟨1, ?_⟩
      rw [Function.iterate_one, growAt_of_none hs]
      exact step_of_none hs
    | some s =>
      have hnot : ¬AtLimit rules depth := by
        rintro ⟨hpos, hle⟩
        have := hlimit hpos
        omega
      have hlimit' : 0 < rules.maxDepth → depth + 1 + levels = rules.maxDepth := by
        intro hpos
        have := hlimit hpos
        omega
      have hshorter : rules.maxDepth = 0 →
          (s.leftRows m rows).length ≤ levels ∧ (s.rightRows m rows).length ≤ levels := by
        intro hzero
        obtain ⟨hall, hlength⟩ := hseparate hzero
        have := Split.separates_iff.mp (hall rows s (.here rows) hs)
        omega
      -- The left child is grown before the right one, which waits behind it.
      obtain ⟨a, ha⟩ := @ih (s.leftRows m rows) (branched rules g t i rows s) t.size
        (⟨t.size + 1, s.rightRows m rows, depth + 1⟩ :: rest) (depth + 1) hlimit'
        fun hzero => ⟨(hseparate hzero).1.left hs, (hshorter hzero).1⟩
      obtain ⟨b, hb⟩ := @ih (s.rightRows m rows)
        (growAt rules m g levels (branched rules g t i rows s) t.size (s.leftRows m rows))
        (t.size + 1) rest (depth + 1) hlimit'
        fun hzero => ⟨(hseparate hzero).1.right hs, (hshorter hzero).2⟩
      refine ⟨b + (a + 1), ?_⟩
      rw [Function.iterate_add_apply, Function.iterate_succ_apply, step_of_some hnot hs, ha, hb,
        growAt_succ_of_some hs]

end Step

/-- With a limit on the depth growth ends, with the tree of `grow`. -/
theorem exists_run_of_pos (h : 0 < rules.maxDepth) (rows : List Nat) :
    ∃ n, (step rules m g)^[n] (start rows) = ⟨grow rules m g rows, []⟩ := by
  refine exists_run (fun _ => ?_) fun hzero => absurd hzero (Nat.ne_of_gt h)
  rw [levels, if_neg (Nat.ne_of_gt h), Nat.zero_add]

/-- Without a limit growth ends if all splits separate rows, with the tree of `grow`. -/
theorem exists_run_of_allSeparate (h : rules.maxDepth = 0) (hall : AllSeparate rules m g rows) :
    ∃ n, (step rules m g)^[n] (start rows) = ⟨grow rules m g rows, []⟩ := by
  refine exists_run (fun hpos => absurd h (Nat.ne_of_gt hpos)) fun _ => ⟨hall, ?_⟩
  exact Nat.le_of_eq (if_pos h).symm

/-! ## Runs that do not end -/

/-- Without a limit, a node stays on its way to rows that a split does not separate. -/
theorem exists_waiting_step (h : rules.maxDepth = 0) {rows : List Nat}
    (hs : Split.find? rules m g rows (g.sums rows) = some s) (hall : ¬s.Separates m rows)
    {p : Progress} (hp : ∃ w ∈ p.waiting, Met rules m g w.rows rows) :
    ∃ w ∈ (step rules m g p).waiting, Met rules m g w.rows rows := by
  obtain ⟨t, waiting⟩ := p
  obtain ⟨w, hw, hmet⟩ := hp
  have hnot : ∀ depth, ¬AtLimit rules depth := fun depth hlimit => absurd h (Nat.ne_of_gt hlimit.1)
  cases waiting with
  | nil => exact absurd hw List.not_mem_nil
  | cons first rest =>
    obtain ⟨i, firstRows, depth⟩ := first
    cases hfirst : Split.find? rules m g firstRows (g.sums firstRows) with
    | none =>
      rw [step_of_none hfirst]
      rcases List.mem_cons.mp hw with rfl | hrest
      · -- The rows are split, so a node that is not split has others and does not lead to them.
        exfalso
        cases hmet with
        | here _ => exact absurd (hfirst.symm.trans hs) nofun
        | left hsplit _ => exact absurd (hfirst.symm.trans hsplit) nofun
        | right hsplit _ => exact absurd (hfirst.symm.trans hsplit) nofun
      · exact ⟨w, hrest, hmet⟩
    | some s' =>
      rw [step_of_some (hnot depth) hfirst]
      rcases List.mem_cons.mp hw with rfl | hrest
      · -- It is enough that one of the two children leads to the rows.
        suffices h : Met rules m g (s'.leftRows m firstRows) rows ∨
            Met rules m g (s'.rightRows m firstRows) rows by
          rcases h with h | h
          · exact ⟨_, List.mem_cons_self, h⟩
          · exact ⟨_, List.mem_cons_of_mem _ List.mem_cons_self, h⟩
        cases hmet with
        | here _ =>
          -- The side that gets all rows leads to them once more.
          cases Option.some.inj (hfirst.symm.trans hs)
          rcases Split.eq_rows_of_not_separates hall with hsame | hsame
          · exact .inl (hsame.symm ▸ .here _)
          · exact .inr (hsame.symm ▸ .here _)
        | left hsplit hmet =>
          cases Option.some.inj (hfirst.symm.trans hsplit)
          exact .inl hmet
        | right hsplit hmet =>
          cases Option.some.inj (hfirst.symm.trans hsplit)
          exact .inr hmet
      · exact ⟨w, List.mem_cons_of_mem _ (List.mem_cons_of_mem _ hrest), hmet⟩

/-- Without a limit, growth that ends has separated rows with every split. -/
theorem allSeparate_of_ends (h : rules.maxDepth = 0) (hends : Ends rules m g rows) :
    AllSeparate rules m g rows := by
  intro rows' s hmet hs
  by_contra hall
  have hforever : ∀ n, ∃ w ∈ ((step rules m g)^[n] (start rows)).waiting,
      Met rules m g w.rows rows' := by
    intro n
    induction n with
    | zero => exact ⟨_, List.mem_cons_self, hmet⟩
    | succ n ih =>
      rw [Function.iterate_succ_apply']
      exact exists_waiting_step h hs hall ih
  obtain ⟨n, hn⟩ := hends
  obtain ⟨w, hw, -⟩ := hforever n
  rw [hn] at hw
  exact absurd hw List.not_mem_nil

/-- Without a limit, growth ends if and only if all splits on the way separate rows. -/
theorem ends_iff (h : rules.maxDepth = 0) : Ends rules m g rows ↔ AllSeparate rules m g rows := by
  refine ⟨allSeparate_of_ends h, fun hall => ?_⟩
  obtain ⟨n, hn⟩ := exists_run_of_allSeparate h hall
  exact ⟨n, congrArg Progress.waiting hn⟩

theorem ends_of_pos (h : 0 < rules.maxDepth) (rows : List Nat) : Ends rules m g rows := by
  obtain ⟨n, hn⟩ := exists_run_of_pos h rows
  exact ⟨n, congrArg Progress.waiting hn⟩

/-- Growth that ends has built the tree of `grow`. -/
theorem exists_run_of_ends (h : Ends rules m g rows) :
    ∃ n, (step rules m g)^[n] (start rows) = ⟨grow rules m g rows, []⟩ := by
  rcases Nat.eq_zero_or_pos rules.maxDepth with hzero | hpos
  · exact exists_run_of_allSeparate hzero (allSeparate_of_ends hzero h)
  · exact exists_run_of_pos hpos rows

end Growth

end BoostedTrees
