import BoostedTrees.Proofs.PlainPrediction
import BoostedTrees.Proofs.WholeRounds
import Mathlib.Algebra.GroupWithZero.Nat

/-!
# Rounds are only appended

Training never touches the trees that are there. A round that succeeds puts one tree for every
output behind them, in the order of the outputs, and a round that fails puts none. So a
prediction that is limited to rounds which were there before says the same after any
further training. What it is computed from differs: the limit may have stood for all
trees, whose sums are remembered, and now stands for a part of them, which is summed anew.

Once there are trees and the number of features is known, training cannot change that number
either, on which depend the columns of contributions and which matrices are refused.

## Main definitions

* `Forest.AddsRound`: one forest is another with a round more
* `Learner.TrainedFrom`: what training keeps of a learner

## Main results

* `Learner.TrainedFrom.after`: training of any length keeps it
* `Learner.TrainedFrom.plainMatrix_eq`: the trees of earlier rounds say what they said
* `Learner.predict_after_training`: so do predictions, and all trees come in rounds
-/

namespace BoostedTrees

open BoostedTrees.Matrix (lonelyRow numbered_lonelyRow)

/-! ## Forests -/

namespace Forest

/-- One tree for every output, in the order of the outputs, comes behind the trees of `f`. -/
def AddsRound (outputs : Nat) (f f' : Forest) : Prop :=
  ∃ new, f'.trees = f.trees ++ new ∧ new.map (·.output.toNat) = List.range outputs

variable {f f' : Forest} {outputs : Nat}

/-- Outputs are numbered by words of thirty-two bits, which is enough where there are not more
of them. -/
theorem addsRound_addRound (f : Forest) {round : List Tree} (hround : round.length = outputs)
    (houtputs : outputs ≤ 2 ^ 32) : f.AddsRound outputs (f.addRound round) := by
  refine ⟨_, rfl, ?_⟩
  rw [List.map_map, ← hround, List.range_eq_range', ← List.zipIdx_map_snd 0 round]
  refine List.map_congr_left fun p hp => ?_
  have hlt : p.2 < 2 ^ 32 :=
    Nat.lt_of_lt_of_le ((List.mem_zipIdx' hp).1) (hround ▸ houtputs)
  show (UInt32.ofNat p.2).toNat = p.2
  rw [UInt32.toNat_ofNat_of_lt' hlt]

/-- The trees of a range that ends among the first trees are these trees. -/
theorem within_of_prefix (h : f.trees <+: f'.trees) {r : Range} (hr : r.stop ≤ f.size) :
    f'.within r = f.within r := by
  obtain ⟨new, hnew⟩ := h
  rw [within, within, ← hnew, List.take_append_of_le_length hr]

/-- Rounds that can be counted are as many as trees fill. -/
theorem toNat_rounds (houtputs : 0 < outputs) (hcounted : f.size / outputs < 2 ^ 32) :
    (f.rounds outputs).toNat = f.size / outputs := by
  rw [rounds, Nat.max_eq_left houtputs, UInt32.toNat_ofNat_of_lt' hcounted]

/-- Behind rounds that are counted there may come more, as long as all can be counted. -/
theorem rounds_le_of_prefix (h : f.trees <+: f'.trees) (houtputs : 0 < outputs)
    (hcounted : f'.size / outputs < 2 ^ 32) : f.rounds outputs ≤ f'.rounds outputs := by
  have hle : f.size / outputs ≤ f'.size / outputs := Nat.div_le_div_right h.length_le
  rw [UInt32.le_iff_toNat_le, toNat_rounds houtputs hcounted,
    toNat_rounds houtputs (Nat.lt_of_le_of_lt hle hcounted)]
  exact hle

/-- The first rounds are a range of a forest that has as many. -/
theorem range?_zero_of_le {k : UInt32} (hk : 0 < k) (hle : k ≤ f.rounds outputs) :
    f.range? outputs 0 k = some ⟨0, k.toNat * outputs⟩ := by
  have hlast : k ≠ 0 := (UInt32.ne_of_lt hk).symm
  have hbounds : ¬(k < 0 ∨ f.rounds outputs < k) :=
    not_or.mpr ⟨UInt32.not_lt_zero, UInt32.not_lt.mpr hle⟩
  simp only [range?, if_neg hlast]
  rw [if_neg hbounds, UInt32.toNat_zero, Nat.zero_mul]

end Forest

/-- The number of outputs is one or a word. -/
theorem Settings.outputs_le (s : Settings) : s.outputs ≤ 2 ^ 32 := by
  have hword : s.numClass.toNat < 2 ^ 32 := s.numClass.toNat_lt
  unfold outputs
  split <;> omega

namespace Learner

variable {K : Matrix → Prop} {l l' l'' : Learner}

/-! ## Training -/

/-- What training keeps: the settings, the trees that are there, and the number of features
once it is known and there are trees. -/
structure TrainedFrom (l l' : Learner) : Prop where
  settings : l'.settings = l.settings
  forest : l.forest.trees <+: l'.forest.trees
  features : l.features ≠ 0 → l.forest.trees ≠ [] → l'.features = l.features

namespace TrainedFrom

theorem refl (l : Learner) : l.TrainedFrom l := ⟨rfl, List.prefix_refl _, fun _ _ => rfl⟩

theorem trans (h : l.TrainedFrom l') (h' : l'.TrainedFrom l'') : l.TrainedFrom l'' where
  settings := h'.settings.trans h.settings
  forest := h.forest.trans h'.forest
  features hknown htrees := by
    have heq : l'.features = l.features := h.features hknown htrees
    have htrees' : l'.forest.trees ≠ [] := fun hnil =>
      htrees (List.prefix_nil.mp (hnil ▸ h.forest))
    exact (h'.features (heq ▸ hknown) htrees').trans heq

theorem outputs_eq (h : l.TrainedFrom l') : l'.outputs = l.outputs :=
  congrArg Settings.outputs h.settings

end TrainedFrom

/-- Where there are trees and the number of features is known, training leaves it. -/
theorem FeaturesFixed.eq {n : UInt64} (h : l.FeaturesFixed n) (hknown : l.features ≠ 0)
    (htrees : l.forest.trees ≠ []) : n = l.features := by
  rcases h with heq | hzero | ⟨hnil, -⟩
  · exact heq
  · exact absurd hzero hknown
  · exact absurd hnil htrees

/-- The two ends of a request for training: a round more, or the same trees. -/
theorem Effect.trainedFrom {r : Request} {p} (h : Effect l r p) (hr : r.trains) :
    l.TrainedFrom p.2 ∧ ((∃ a, p.1 = .ok a) → l.forest.AddsRound l.outputs p.2.forest) ∧
      (¬(∃ a, p.1 = .ok a) → p.2.forest = l.forest) := by
  cases h with
  | trained _ hn iteration m g c =>
    have hround := length_growRound l.settings iteration m g
    refine ⟨⟨rfl, List.prefix_append _ _, hn.eq⟩, ?_, fun hfail => absurd ⟨_, rfl⟩ hfail⟩
    intro _
    exact Forest.addsRound_addRound _ hround l.settings.outputs_le
  | refusedTraining _ hn c =>
    refine ⟨⟨rfl, List.prefix_refl _, hn.eq⟩, ?_, fun _ => rfl⟩
    rintro ⟨a, ha⟩
    cases ha
  | looked hlooked c => rw [hr] at hlooked; cases hlooked
  | setAttributes a => cases hr
  | setNames _ => cases hr
  | setTypes _ => cases hr
  | loaded hloads => exact absurd hr (Request.not_trains_of_loads hloads)
  | gaveSettings hgives => exact absurd hr (Request.not_trains_of_givesSettings hgives)

/-- A history of training, of any length and with any failures, keeps what one request keeps. -/
theorem TrainedFrom.after {training : List Occasion} (h : ∀ o ∈ training, o.request.trains) :
    l.TrainedFrom (l.after training) :=
  after_induction (.refl l) fun o ho l₁ hl =>
    hl.trans ((effect_answer l₁ o).trainedFrom (h o ho)).1

/-! ## Predictions -/

/-- The trees of earlier rounds say of a matrix what they said before training. -/
theorem TrainedFrom.plainMatrix_eq (h : l.TrainedFrom l') (hknown : l.features ≠ 0)
    (hcounted : l'.forest.size / l'.outputs < 2 ^ 32) {k : UInt32} (hk : 0 < k)
    (hle : k ≤ l.rounds) (m : Matrix) (mask : Int32) :
    l'.plainMatrix m mask k = l.plainMatrix m mask k := by
  have houtputs : l'.outputs = l.outputs := h.outputs_eq
  have hle' : k ≤ l'.forest.rounds l.outputs :=
    UInt32.le_trans hle (Forest.rounds_le_of_prefix h.forest l.outputs_pos (houtputs ▸ hcounted))
  have hrange : l.forest.range? l.outputs 0 k = some ⟨0, k.toNat * l.outputs⟩ :=
    Forest.range?_zero_of_le hk hle
  have hrange' : l'.forest.range? l.outputs 0 k = some ⟨0, k.toNat * l.outputs⟩ :=
    Forest.range?_zero_of_le hk hle'
  have htrees : l'.forest.within ⟨0, k.toNat * l.outputs⟩ =
      l.forest.within ⟨0, k.toNat * l.outputs⟩ :=
    Forest.within_of_prefix h.forest (Forest.stop_le_size hrange)
  -- A round that is there has trees, so the number of features is final.
  have hsome : l.forest.trees ≠ [] := by
    intro hnil
    have hnone : l.rounds = 0 := by simp [rounds, Forest.rounds, Forest.size, hnil]
    exact absurd (hnone ▸ hle) (UInt32.not_le.mpr hk)
  have hfeatures : l'.features = l.features := h.features hknown hsome
  have hstart : l'.startingMargins = l.startingMargins := by
    funext rows given
    unfold startingMargins outputCount
    rw [houtputs, h.settings]
  simp only [plainMatrix, checkColumns, hfeatures, plainRows, houtputs, hrange, hrange', hstart]
  refine congrArg _ (funext fun _ => congrArg _ (funext fun start => ?_))
  cases PredictionKind.ofMask mask <;>
    simp only [plainRange, contributionColumns, htrees, houtputs, hfeatures, h.settings]

/-- What holds at the start of a history and is kept by its requests holds wherever one of them
is answered. -/
theorem forall_steps {P : Learner → Prop} {os : List Occasion} (h : P l)
    (hstep : ∀ o ∈ os, ∀ l, P l → P (l.answer o).2) : ∀ s ∈ l.steps os, P s.1 ∧ s.2 ∈ os := by
  induction os generalizing l with
  | nil => exact fun s hs => absurd hs List.not_mem_nil
  | cons o os ih =>
    intro s hs
    rcases List.mem_cons.mp hs with rfl | hs
    · exact ⟨h, List.mem_cons_self⟩
    · have hrest := ih (hstep o List.mem_cons_self l h)
        (fun o ho => hstep o (List.mem_cons_of_mem _ ho)) s hs
      exact ⟨hrest.1, List.mem_cons_of_mem _ hrest.2⟩

/-- Take any history of a new learner that knows its features in the end, and let only requests
for training follow, which may succeed or fail. Every round that succeeds puts one tree for
every output behind those that are there, in the order of the outputs, and a round that fails
leaves the trees. As long as the rounds can be counted, a prediction of any kind for any matrix
that is limited to some of the rounds that were there answers as it did: with the same error, or
with the same numbers, bit by bit. -/
theorem predict_after_training (hK : Matrix.Numbered K) (created : List Matrix)
    (os training : List Occasion) (hos : ∀ o ∈ os, ∀ m ∈ o.request.matrices, K m)
    (htrains : ∀ o ∈ training, o.request.trains)
    (htraining : ∀ o ∈ training, ∀ m ∈ o.request.matrices, K m)
    (hknown : ((create created).after os).features ≠ 0)
    (hcounted : (((create created).after os).after training).forest.size /
      (((create created).after os).after training).outputs < 2 ^ 32) :
    let l := (create created).after os
    (∀ s ∈ l.steps training,
      ((s.1.answer s.2).1.Succeeded →
        s.1.forest.AddsRound l.outputs (s.1.answer s.2).2.forest) ∧
      (¬(s.1.answer s.2).1.Succeeded → (s.1.answer s.2).2.forest = s.1.forest)) ∧
    ∀ k, 0 < k → k ≤ l.rounds → ∀ m, K m → ∀ mask,
      (predict m mask k (l.after training)).1 = (predict m mask k l).1 := by
  intro l
  constructor
  · intro s hs
    obtain ⟨hkept, ho⟩ := forall_steps (P := (l.TrainedFrom ·)) (.refl l) (fun o ho l₁ hl =>
      hl.trans ((effect_answer l₁ o).trainedFrom (htrains o ho)).1) s hs
    obtain ⟨-, hround⟩ := (effect_answer s.1 s.2).trainedFrom (htrains s.2 ho)
    rw [hkept.outputs_eq] at hround
    exact hround
  · intro k hk hle m hm mask
    have hsound := sound_after hK (sound_create K created) hos
    rw [predict_fst hK hsound hm, predict_fst hK (sound_after hK hsound htraining) hm]
    exact (TrainedFrom.after htrains).plainMatrix_eq hknown hcounted hk hle m mask

/-- A round of training on one row. -/
def lonelyRound (iteration : Int32) : Occasion := ⟨.empty, .update iteration (lonelyRow 7)⟩

/-- A gradient without entries, which fits no row. -/
def gradientlessRound : Occasion := ⟨.empty, .boost 1 (lonelyRow 7) ⟨#[], #[]⟩⟩

theorem predict_after_training_lonelyRow :
    let l := (create [lonelyRow 7]).after [lonelyRound 0]
    l.rounds = 1 ∧
      (predict (lonelyRow 9) PredictionKind.leaf.mask 1
          (l.after [gradientlessRound, lonelyRound 1])).1 =
        (predict (lonelyRow 9) PredictionKind.leaf.mask 1 l).1 := by
  have hrounds : ((create [lonelyRow 7]).after [lonelyRound 0]).rounds = 1 := by decide +kernel
  have hlonely : ∀ o ∈ [lonelyRound 0, gradientlessRound, lonelyRound 1],
      ∀ m ∈ o.request.matrices, ∃ id, m = lonelyRow id := by
    simp [lonelyRound, gradientlessRound, Request.matrices]
  obtain ⟨hfirst, htraining⟩ := List.forall_mem_cons.mp hlonely
  have htrains : ∀ o ∈ [gradientlessRound, lonelyRound 1], o.request.trains := by
    simp [lonelyRound, gradientlessRound, Request.trains]
  obtain ⟨-, hpredict⟩ := predict_after_training numbered_lonelyRow [lonelyRow 7] [lonelyRound 0]
    [gradientlessRound, lonelyRound 1] (List.forall_mem_singleton.mpr hfirst) htrains htraining
    (by decide +kernel) (by decide +kernel)
  exact ⟨hrounds, hpredict 1 (by decide) (UInt32.le_of_eq hrounds.symm) (lonelyRow 9) ⟨9, rfl⟩ _⟩

end Learner

end BoostedTrees
