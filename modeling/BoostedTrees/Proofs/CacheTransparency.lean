import BoostedTrees.Proofs.Agreement

/-!
# Remembering never shows

What a learner remembers saves it work and does nothing else. Entries of its cache may
be dropped between any two requests of a history, and a matrix may be replaced by a
clone under another number: the answers are the same, and so are the learners in all
but their caches. Matrices are known by their numbers, so the matrices of a history must
be told apart by these (`Matrix.Numbered`).

## Main definitions

* `Learner.forgetting`: a learner that has dropped entries of its cache
* `Learner.runForgetting`: a history in which entries are dropped before requests

## Main results

* `Learner.runForgetting_eq_run`: the answers to a history do not depend on what is
  dropped in it, nor on the numbers of the matrices that are asked about afterwards
-/

namespace BoostedTrees

namespace Learner

open BoostedTrees.Matrix (lonelyRow numbered_lonelyRow)

/-- The learner with only those entries of its cache that are kept. -/
def forgetting (l : Learner) (keep : RememberedSums → Bool) : Learner :=
  { l with cache := ⟨l.cache.entries.filter keep⟩ }

/-- The answers to a history, and the learner that it leaves, where entries may be
dropped before every request. -/
def runForgetting (l : Learner) :
    List ((RememberedSums → Bool) × Occasion) → List Answered × Learner
  | [] => ([], l)
  | (keep, o) :: rest =>
    let (a, l) := (l.forgetting keep).answer o
    let (as, l) := l.runForgetting rest
    (a :: as, l)

/-- Two calls were answered alike and left learners that differ in their caches only. -/
def SameButCache {α : Type} (x y : Except EngineError α × Learner) : Prop :=
  x.1 = y.1 ∧ ∃ c, y.2 = { x.2 with cache := c }

variable {K : Matrix → Prop} {shown : Prop} {l l' : Learner}

theorem Agree.eq (h : l.Agree K True l') : l' = { l with cache := l'.cache } := by
  have hs := Settings.eq_of_meaning_eq h.settings.meaning_eq
  rw [h.settings.given_eq trivial] at hs
  rw [hs, h.attributes, h.featureNames, h.featureTypes, h.features, h.forest]

theorem Agree.forgetting (h : l.Agree K shown l') (keep : RememberedSums → Bool) :
    l.Agree K shown (l'.forgetting keep) :=
  { h with sound' := h.sound'.mono fun _ he => List.mem_of_mem_filter he }

/-- Learners that agree answer a history alike, whatever is dropped on one side. -/
theorem Agree.runForgetting (hK : Matrix.Numbered K)
    {steps : List ((RememberedSums → Bool) × Occasion)} (h : l.Agree K True l')
    (hsteps : ∀ s ∈ steps, ∀ m ∈ s.2.request.matrices, K m) :
    (l'.runForgetting steps).1 = (l.run (steps.map (·.2))).1 ∧
      (l.run (steps.map (·.2))).2.Agree K True (l'.runForgetting steps).2 := by
  -- Dropping entries keeps the learners in agreement, and so does every answer.
  induction steps generalizing l l' with
  | nil => exact ⟨rfl, h⟩
  | cons s steps ih =>
    obtain ⟨keep, o⟩ := s
    obtain ⟨hanswer, hnext⟩ :=
      (h.forgetting keep).answer hK (hsteps _ List.mem_cons_self) fun _ => trivial
    obtain ⟨hrest, hend⟩ := ih hnext fun s hs => hsteps s (List.mem_cons_of_mem _ hs)
    refine ⟨?_, hend⟩
    simp only [Learner.runForgetting, Learner.run, List.map_cons, hanswer, hrest]

theorem Agree.sameButCache {α : Type} {x y : LearnerM α} (h : l.Agree K True l')
    (hxy : EngineM.Related (Agree K True) Eq x y) : SameButCache (x l) (y l') := by
  obtain ⟨hreply, hafter⟩ := hxy h
  exact ⟨EngineM.alike_eq_iff.mp hreply, _, hafter.eq⟩

/-- Take any history of a new learner whose matrices have numbers of their own, and run it
twice, the second time with entries of the cache dropped between the requests. Both
runs give the same answers, and the learners that they leave differ in their caches only.
Predictions, evaluations and training rounds that follow do not tell a matrix from a
clone of it either. -/
theorem runForgetting_eq_run (hK : Matrix.Numbered K) (created : List Matrix)
    (steps : List ((RememberedSums → Bool) × Occasion))
    (hsteps : ∀ s ∈ steps, ∀ m ∈ s.2.request.matrices, K m) :
    let kept := (create created).run (steps.map (·.2))
    let dropped := (create created).runForgetting steps
    dropped.1 = kept.1 ∧ (∃ c, dropped.2 = { kept.2 with cache := c }) ∧
      (∀ m id, K m → K (m.withId id) →
        (∀ mask limit,
          SameButCache (predict m mask limit kept.2) (predict (m.withId id) mask limit dropped.2)) ∧
        (∀ iteration,
          SameButCache (update iteration m kept.2) (update iteration (m.withId id) dropped.2)) ∧
        ∀ iteration g,
          SameButCache (boost iteration m g kept.2) (boost iteration (m.withId id) g dropped.2)) ∧
      ∀ (ids : Matrix → Nat) (ms : List Matrix), (∀ m ∈ ms, K m ∧ K (cloned ids m)) →
        ∀ iteration names,
          SameButCache (evaluate iteration ms names kept.2)
            (evaluate iteration (ms.map (cloned ids)) names dropped.2) := by
  obtain ⟨hanswers, hend⟩ := (agree_create K True created).runForgetting hK hsteps
  refine ⟨hanswers, ⟨_, hend.eq⟩, ?_, ?_⟩
  · intro m id hm hm'
    refine ⟨?_, ?_, ?_⟩
    · intro mask limit
      exact hend.sameButCache (predict_related hK hm hm' mask limit)
    · intro iteration
      exact hend.sameButCache (update_related hK hm hm' iteration)
    · intro iteration g
      exact hend.sameButCache (boost_related hK hm hm' iteration g)
  · intro ids ms hms iteration names
    exact hend.sameButCache (evaluate_related hK ids hms iteration names)

/-- Training on a matrix, and a prediction for it with an empty cache. -/
def lonelyHistory : List ((RememberedSums → Bool) × Occasion) :=
  [(fun _ => true, ⟨.empty, .update 0 (lonelyRow 7)⟩),
    (fun _ => false, ⟨.empty, .predict (lonelyRow 7) 0 0⟩)]

theorem lonelyRow_of_mem_lonelyHistory :
    ∀ s ∈ lonelyHistory, ∀ m ∈ s.2.request.matrices, ∃ id, m = lonelyRow id := by
  simp only [lonelyHistory, List.forall_mem_cons, List.not_mem_nil, Request.matrices]
  exact ⟨⟨⟨7, rfl⟩, nofun⟩, ⟨⟨7, rfl⟩, nofun⟩, nofun⟩

theorem runForgetting_eq_run_lonelyRow :
    ((create [lonelyRow 7]).runForgetting lonelyHistory).1 =
        ((create [lonelyRow 7]).run (lonelyHistory.map (·.2))).1 ∧
      SameButCache
        (predict (lonelyRow 7) 0 0 ((create [lonelyRow 7]).run (lonelyHistory.map (·.2))).2)
        (predict (lonelyRow 8) 0 0 ((create [lonelyRow 7]).runForgetting lonelyHistory).2) := by
  have h := runForgetting_eq_run numbered_lonelyRow [lonelyRow 7] lonelyHistory
    lonelyRow_of_mem_lonelyHistory
  exact ⟨h.1, (h.2.2.1 (lonelyRow 7) 8 ⟨7, rfl⟩ ⟨8, rfl⟩).1 0 0⟩

end Learner

end BoostedTrees
