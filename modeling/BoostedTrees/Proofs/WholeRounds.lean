import BoostedTrees.Proofs.Effects
import BoostedTrees.Proofs.Loading

/-!
# Whole rounds

The trees of a learner should form whole rounds: every tree adds to an output that there
is, and there are as many trees as fill rounds. Training and loading keep to that. What
breaks it is a change of the number of outputs under trees that are there already, which
a request that gives settings may make; the loader would refuse such trees, but nobody
asks then.

## Main definitions

* `Forest.WholeRounds`: the trees form whole rounds of a number of outputs

## Main results

* `Learner.wholeRounds_iff`: the law holds along a history if and only if whatever
  changes the number of outputs finds trees that fit the new number
* `Learner.Effect.rounds_cases`: what may change the number of rounds
-/

namespace BoostedTrees

/-! ## Forests -/

namespace Forest

/-- Every tree adds to one of the outputs, and the trees fill whole rounds. -/
structure WholeRounds (f : Forest) (outputs : Nat) : Prop where
  output_lt : ∀ t ∈ f.trees, t.output.toNat < outputs
  dvd_size : outputs ∣ f.size

variable {f : Forest} {outputs : Nat}

theorem wholeRounds_empty (outputs : Nat) : empty.WholeRounds outputs :=
  ⟨fun _ h => absurd h List.not_mem_nil, Nat.dvd_zero _⟩

/-- A round of one tree for every output keeps the rounds whole. -/
theorem WholeRounds.addRound (h : f.WholeRounds outputs) {round : List Tree}
    (hround : round.length = outputs) : (f.addRound round).WholeRounds outputs := by
  constructor
  · intro t ht
    rcases List.mem_append.mp ht with ht | ht
    · exact h.output_lt t ht
    · -- The trees of a round are given the outputs in order.
      obtain ⟨⟨tree, k⟩, hk, rfl⟩ := List.mem_map.mp ht
      have hlt : k < outputs := hround ▸ (List.mem_zipIdx' hk).1
      exact Nat.lt_of_le_of_lt (Nat.mod_le _ _) hlt
  · rw [size_addRound, hround]
    exact Nat.dvd_add h.dvd_size (Nat.dvd_refl _)

theorem rounds_addRound (houtputs : 0 < outputs) {round : List Tree}
    (hround : round.length = outputs) :
    (f.addRound round).rounds outputs = f.rounds outputs + 1 := by
  have hmax : max outputs 1 = outputs := Nat.max_eq_left houtputs
  simp only [rounds, size_addRound, hround, hmax, Nat.add_div_right _ houtputs, UInt32.ofNat_add]
  rfl

/-- A range of rounds goes from one round up to another that the forest has. -/
theorem exists_of_range? {first last : UInt32} {r : Range}
    (h : f.range? outputs first last = some r) :
    ∃ stop, first ≤ stop ∧ stop ≤ f.rounds outputs ∧
      r = ⟨first.toNat * outputs, stop.toNat * outputs⟩ := by
  simp only [range?] at h
  -- A range without an end goes as far as there are rounds.
  generalize (if last = 0 then f.rounds outputs else last) = stop at h
  split at h
  · cases h
  · next hbounds =>
    cases h
    obtain ⟨hfirst, hstop⟩ := not_or.mp hbounds
    exact ⟨stop, UInt32.not_lt.mp hfirst, UInt32.not_lt.mp hstop, rfl⟩

/-- Without limits the range is that of all whole rounds. -/
theorem range?_all (f : Forest) (outputs : Nat) :
    f.range? outputs 0 0 = some ⟨0, (f.rounds outputs).toNat * outputs⟩ := by
  have hbounds : ¬(f.rounds outputs < 0 ∨ f.rounds outputs < f.rounds outputs) :=
    not_or.mpr ⟨UInt32.not_lt_zero, UInt32.lt_irrefl _⟩
  simp only [range?, if_true]
  rw [if_neg hbounds, UInt32.toNat_zero, Nat.zero_mul]

theorem start_le_stop {first last : UInt32} {r : Range}
    (h : f.range? outputs first last = some r) : r.start ≤ r.stop := by
  obtain ⟨stop, hle, -, rfl⟩ := exists_of_range? h
  exact Nat.mul_le_mul_right _ hle

/-- A range of rounds ends within the forest. -/
theorem stop_le_size {first last : UInt32} {r : Range}
    (h : f.range? outputs first last = some r) : r.stop ≤ f.size := by
  obtain ⟨stop, -, hle, rfl⟩ := exists_of_range? h
  have hstop : stop.toNat ≤ f.size / max outputs 1 := Nat.le_trans hle (Nat.mod_le _ _)
  calc stop.toNat * outputs ≤ f.size / max outputs 1 * max outputs 1 :=
        Nat.mul_le_mul hstop (Nat.le_max_left _ _)
    _ ≤ f.size := Nat.div_mul_le_self _ _

theorem mem_of_mem_within {r : Range} {t : OutputTree} (h : t ∈ f.within r) : t ∈ f.trees :=
  List.mem_of_mem_take (List.mem_of_mem_drop h)

end Forest

/-! ## Training and loading -/

namespace Learner

theorem length_growOutputs (s : Settings) (m : Matrix) (g : Gradient) (ks : List Nat)
    (source : Random.Xoshiro) : (growOutputs s m g ks source).length = ks.length := by
  induction ks generalizing source with
  | nil => rfl
  | cons k ks ih => simp only [growOutputs, List.length_cons, ih]

/-- A round has a tree for every output. -/
theorem length_growRound (s : Settings) (iteration : Int32) (m : Matrix) (g : Gradient) :
    (growRound s iteration m g).length = s.outputs := by
  rw [growRound, length_growOutputs, List.length_range]

theorem wholeRounds_storedForest {m : StoredModel} {outputs : Nat} {f : Forest}
    (h : storedForest m outputs = .ok f) : f.WholeRounds outputs := by
  obtain ⟨hrounds, -, -, ts, hts, rfl⟩ := storedForest_eq_ok h
  obtain ⟨hlength, hlt, hdvd⟩ := checkRounds_ok hrounds
  constructor
  · intro t ht
    rw [← List.map_uncurry_zip_eq_zipWith] at ht
    obtain ⟨⟨tree, k⟩, hk, rfl⟩ := List.mem_map.mp ht
    exact hlt k (List.of_mem_zip hk).2
  · simpa only [Forest.size, List.length_zipWith, length_storedTrees hts, hlength, Nat.min_self]
      using hdvd

/-! ## Learners -/

variable {l : Learner}

/-- A request keeps the rounds of a learner whole, unless it gives settings that change
the number of outputs and the trees do not fit the new number. -/
theorem Effect.keeps_wholeRounds_iff {r : Request} {p} (h : Effect l r p)
    (hl : l.forest.WholeRounds l.outputs) :
    p.2.forest.WholeRounds p.2.outputs ↔
      (r.givesSettings → p.2.outputs ≠ l.outputs → l.forest.WholeRounds p.2.outputs) := by
  cases h with
  | looked _ c => exact iff_of_true hl fun _ hne => absurd rfl hne
  | setAttributes a => exact iff_of_true hl fun _ hne => absurd rfl hne
  | setNames _ => exact iff_of_true hl fun _ hne => absurd rfl hne
  | setTypes _ => exact iff_of_true hl fun _ hne => absurd rfl hne
  | refusedTraining _ _ c => exact iff_of_true hl fun _ hne => absurd rfl hne
  | trained _ _ iteration m g c =>
    exact iff_of_true (hl.addRound (length_growRound ..)) fun _ hne => absurd rfl hne
  | loaded hr hs hforest =>
    exact iff_of_true (wholeRounds_storedForest hforest) fun hgives =>
      absurd hgives (Request.not_givesSettings_of_loads hr)
  | gaveSettings hr s _ =>
    -- The forest stays, so all depends on whether the number of outputs does.
    simp only [outputs, withSettings_settings, withSettings_forest]
    by_cases hs : s.outputs = l.settings.outputs
    · exact iff_of_true (hs ▸ hl) fun _ hne => absurd hs hne
    · exact ⟨fun h _ _ => h, fun hfits => hfits hr hs⟩

/-- A round of training that succeeds adds one to the number of rounds. -/
theorem Effect.rounds_of_trains {r : Request} {p} (h : Effect l r p) (hr : r.trains)
    (hok : ∃ a, p.1 = .ok a) : p.2.rounds = l.rounds + 1 := by
  cases h with
  | trained _ _ iteration m g c =>
    exact Forest.rounds_addRound l.settings.outputs_pos (length_growRound ..)
  | refusedTraining _ _ c =>
    obtain ⟨a, ha⟩ := hok
    cases ha
  | looked hlooked c => rw [hr] at hlooked; cases hlooked
  | setAttributes a => cases hr
  | setNames _ => cases hr
  | setTypes _ => cases hr
  | loaded hloads => exact absurd hr (Request.not_trains_of_loads hloads)
  | gaveSettings hgives => exact absurd hr (Request.not_trains_of_givesSettings hgives)

/-- The number of rounds is changed by rounds of training, by models that are loaded, and
by other numbers of outputs, and by nothing else. -/
theorem Effect.rounds_cases {r : Request} {p} (h : Effect l r p) (hne : p.2.rounds ≠ l.rounds) :
    (r.trains ∨ r.loads) ∧ (∃ a, p.1 = .ok a) ∨ r.givesSettings ∧ p.2.outputs ≠ l.outputs := by
  cases h with
  | trained hr => exact .inl ⟨.inl hr, _, rfl⟩
  | loaded hr => exact .inl ⟨.inr hr, _, rfl⟩
  | gaveSettings hr s =>
    refine .inr ⟨hr, fun hs => hne ?_⟩
    simp only [rounds, withSettings_forest, hs]
  | refusedTraining _ _ c => exact absurd rfl hne
  | looked _ c => exact absurd rfl hne
  | setAttributes a => exact absurd rfl hne
  | setNames _ => exact absurd rfl hne
  | setTypes _ => exact absurd rfl hne

/-- The law along any history of a new learner. Stored, there is an output for every tree
in every state. The trees form whole rounds in every state if and only if all settings
that change the number of outputs find trees that form whole rounds of the new number.
The number of rounds grows by one with every round of training that succeeds, and changes
otherwise only when a model is loaded or when settings change the number of outputs. And
where the rounds are whole, predictions from any range of rounds look at trees that there
are, each of which adds within the outputs, and the columns, of a row. -/
theorem wholeRounds_iff (created : List Matrix) (os : List Occasion) :
    (∀ l ∈ (create created).states os,
      l.toStored.forest.treeInfo.length = l.toStored.forest.trees.length) ∧
    ((∀ l ∈ (create created).states os, l.forest.WholeRounds l.outputs) ↔
      ∀ s ∈ (create created).steps os, s.2.request.givesSettings →
        (s.1.answer s.2).2.outputs ≠ s.1.outputs →
          s.1.forest.WholeRounds (s.1.answer s.2).2.outputs) ∧
    (∀ s ∈ (create created).steps os,
      (s.2.request.trains → (s.1.answer s.2).1.Succeeded →
        (s.1.answer s.2).2.rounds = s.1.rounds + 1) ∧
      ((s.1.answer s.2).2.rounds ≠ s.1.rounds →
        (s.2.request.trains ∨ s.2.request.loads) ∧ (s.1.answer s.2).1.Succeeded ∨
          s.2.request.givesSettings ∧ (s.1.answer s.2).2.outputs ≠ s.1.outputs)) ∧
    ∀ l ∈ (create created).states os, l.forest.WholeRounds l.outputs →
      ∀ first last range, l.forest.range? l.outputs first last = some range →
        range.stop ≤ l.forest.size ∧
        ∀ t ∈ l.forest.within range, t.output.toNat < l.outputs ∧
          ∀ features, ∀ column ≤ features,
            t.output.toNat * (features + 1) + column < l.outputs * (features + 1) := by
  refine ⟨?_, ?_, ?_, ?_⟩
  · intro l _
    simp only [toStored, List.length_map]
  · exact forall_states_iff (fun l o hl => (effect_answer l o).keeps_wholeRounds_iff hl)
      (Forest.wholeRounds_empty _) os
  · intro s _
    have h := effect_answer s.1 s.2
    exact ⟨h.rounds_of_trains, h.rounds_cases⟩
  · intro l _ hl first last range hrange
    refine ⟨Forest.stop_le_size hrange, ?_⟩
    intro t ht
    have hlt := hl.output_lt t (Forest.mem_of_mem_within ht)
    refine ⟨hlt, ?_⟩
    intro features column hcolumn
    calc t.output.toNat * (features + 1) + column
        < (t.output.toNat + 1) * (features + 1) := by rw [Nat.succ_mul]; omega
      _ ≤ l.outputs * (features + 1) := Nat.mul_le_mul_right _ hlt

end Learner

end BoostedTrees
