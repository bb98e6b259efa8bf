import BoostedTrees.Engine.Recorder
import BoostedTrees.Proofs.LeaseOperations

/-!
# Arguments that are refused

What an operation is given is looked at before anything is asked of the engine, and an
operation that fails for its arguments has made no call. There is one exception. A round
with an objective of the caller asks for the margins first; only then does it have the
gradient, and the two lists of that may be of different lengths.

## Main definitions

* `Lease.Operation.Uneven`: an objective of the caller gives lists of different lengths

## Main results

* `Lease.perform_eq_contract_iff`: when an operation fails for its arguments, and what it
  has called until then
-/

namespace BoostedTrees

namespace Lease

open LeaseM

variable {σ : Type} {e : Engine σ} {l : Lease} {s : σ} {err : ArgumentError}

/-- What is wrong with the gradient that an objective of the caller gives at the margins. -/
def Operation.Uneven (e : Engine σ) (l : Lease) (s : σ) (err : ArgumentError) : Operation → Prop
  | updateWith objective _ m =>
    ∃ margins, (l.predictMargin e m s).1 = .ok margins ∧
      gradientFault? (objective margins m) = some err
  | _ => False

/-- A round with an objective of the caller is refused for the gradient, or not at all. -/
theorem updateWith_eq_contract_iff {objective : Grid → Matrix → Gradient} {iteration : Int32}
    {m : Matrix} :
    (l.updateWith e objective iteration m s).1 = .error (.contract err) ↔
      Operation.Uneven e l s err (.updateWith objective iteration m) := by
  have hmargins : l.Asking e (l.predictMargin e m) := .predictWith m _
  rw [updateWith, Operation.Uneven]
  cases hp : (l.predictMargin e m s).1 with
  | error err' =>
    rw [bind_error hp]
    refine iff_of_false (fun h => hmargins.unrefused s err (hp.trans (congrArg _ ?_))) ?_
    · exact Except.error.inj h
    · rintro ⟨_, ⟨⟩, -⟩
  | ok margins =>
    -- The margins are there, so all hangs on what the objective makes of them.
    rw [bind_ok hp, boost_eq]
    cases hg : gradientFault? (objective margins m) with
    | none =>
      refine iff_of_false ((Asking.ask _).unrefused _ err) ?_
      rintro ⟨_, ⟨⟩, hfault⟩
      cases hg.symm.trans hfault
    | some err' =>
      constructor
      · rintro ⟨⟩
        exact ⟨margins, rfl, hg⟩
      · rintro ⟨_, ⟨⟩, hfault⟩
        cases hg.symm.trans hfault
        rfl

/-- A prediction is one request, whatever becomes of the answer. -/
theorem snd_predictWith {h : Handle} (hh : l.handle? = some h) (m : Matrix)
    (options : PredictOptions) : (l.predictWith e m options s).2 =
      (e.answer h (.predict m options.mask options.limit) s).2 := by
  have hask : (l.ask e (.predict m options.mask options.limit) s).2 =
      (e.answer h (.predict m options.mask options.limit) s).2 := by
    simp only [ask, hh]
    rfl
  rw [← hask, predictWith, bind_apply]
  rcases l.ask e (.predict m options.mask options.limit) s with ⟨err | flat, t⟩
  · rfl
  · dsimp only
    rw [judge_apply]

theorem exists_handle_of_predictMargin {m : Matrix} {margins : Grid}
    (h : (l.predictMargin e m s).1 = .ok margins) : ∃ handle, l.handle? = some handle := by
  cases hh : l.handle? with
  | some handle => exact ⟨handle, rfl⟩
  | none =>
    rw [predictMargin, predictWith, bind_error (by rw [ask_of_isNone e hh])] at h
    cases h

/-- All other operations fail for their arguments as far as these alone tell it. -/
theorem perform_eq_contract_iff_fault? {o : Operation}
    (ho : ∀ objective iteration m, o ≠ .updateWith objective iteration m) :
    (l.perform e o s).1 = .error (.contract err) ↔ o.fault? = some err := by
  cases h : o.fault? with
  | none => exact iff_of_false ((Asking.perform h ho).unrefused s err) nofun
  | some err' =>
    rw [perform_of_fault? h]
    constructor
    · rintro ⟨⟩
      rfl
    · rintro ⟨⟩
      rfl

/-- An operation on a lease fails for its arguments in two cases only. Either they are at fault
by themselves; then the operation has done nothing at all. Or an objective of the caller has given
a gradient whose lists are of different lengths; then there has been one call, for the margins. A
report of an evaluator is refused for the matrices and their names, without a call, and is the
evaluator's business otherwise. -/
theorem perform_eq_contract_iff (e : Engine σ) (l : Lease) (s : Recorded σ) (o : Operation)
    (err : ArgumentError) :
    ((l.perform e.recorded o s).1 = .error (.contract err) ↔
      o.fault? = some err ∨ o.Uneven e.recorded l s err) ∧
    (o.fault? = some err → (l.perform e.recorded o s).2 = s) ∧
    (o.Uneven e.recorded l s err → ∃ h objective iteration m, l.handle? = some h ∧
      o = .updateWith objective iteration m ∧ (l.perform e.recorded o s).2.calls =
        s.calls ++ [.request h (.predict m PredictionKind.margin.mask 0)]) ∧
    ∀ (evaluator : Evaluator (Recorded σ)) (ms : List Matrix) (names : List String)
      (iteration : Int32),
      l.evaluateBy evaluator ms names iteration s =
        match namesFault? ms names with
        | some err => (.error (.contract err), s)
        | none => evaluator l iteration ms names s := by
  refine ⟨?_, fun hfault => ?_, fun huneven => ?_, fun evaluator ms names iteration => ?_⟩
  · cases o with
    | updateWith objective iteration m =>
      exact updateWith_eq_contract_iff.trans (or_iff_right nofun).symm
    | _ =>
      refine Iff.trans (perform_eq_contract_iff_fault? ?_) (or_iff_left id).symm
      nofun
  · rw [perform_of_fault? hfault]
    rfl
  · cases o with
    | updateWith objective iteration m =>
      obtain ⟨margins, hmargins, hfault⟩ := huneven
      obtain ⟨h, hh⟩ := exists_handle_of_predictMargin hmargins
      refine ⟨h, objective, iteration, m, hh, rfl, ?_⟩
      have hcalls : (l.predictMargin e.recorded m s).2.calls =
          s.calls ++ [.request h (.predict m PredictionKind.margin.mask 0)] := by
        rw [predictMargin, snd_predictWith hh]
        rfl
      rw [← hcalls, perform, updateWith, bind_ok hmargins, boost_eq, hfault]
      rfl
    | _ => exact huneven.elim
  · rw [evaluateBy, checkNames_eq]
    cases namesFault? ms names with
    | none => rfl
    | some err => rfl

-- An objective that gives three second derivatives for two rows is found out after one call.
example :
    let m : Matrix := ⟨0, 2, 1, #[1, 2], #[0, 1], #[], [], #[], by decide⟩
    let result := updateWith Workshop.engine.recorded ⟨some ⟨1, by decide⟩, 0⟩
      (fun _ _ => ⟨#[1, 1], #[1, 1, 1]⟩) 0 m ⟨(Workshop.create [] .empty).2, []⟩
    (match result.1 with
      | .error err => some err
      | .ok _ => none) = some (.contract (.gradientLengths 2 3)) ∧
    result.2.calls.length = 1 := by
  decide +kernel

end Lease

end BoostedTrees
