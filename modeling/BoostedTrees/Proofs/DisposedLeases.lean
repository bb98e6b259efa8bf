import BoostedTrees.Proofs.LeaseSessions

/-!
# What is done with a lease that was disposed of

A lease that was disposed of has no handle to ask about. So the engine is not called any more,
whatever is done with the lease, and what asks it for anything is refused. It is the request
that is refused, not the operation: four operations go over a list and have nothing to ask for
where that is empty, and these end well.

## Main definitions

* `Lease.Operation.idle?`: what an operation gives that has nothing to ask for
* `Lease.Operation.refusal`: why an operation is refused that asks in vain

## Main results

* `Lease.perform_of_isNone`: every operation on a lease that holds nothing
* `Session.perform_after_dispose`: every operation on a lease that was disposed of
-/

namespace BoostedTrees

namespace Lease

open LeaseM

variable {σ α β : Type} {e : Engine σ} {l : Lease}

/-- What an operation gives that asks the engine for nothing at all. -/
def Operation.idle? : (o : Operation) → Option o.Result
  | setParameters [] => some ()
  | setAttributes [] => some ()
  | evaluateCustom [] [] iteration _ => some (String.ofList (Report.opening iteration))
  | evaluateCustomInto [] [] iteration _ => some (String.ofList (Report.opening iteration), [])
  | _ => none

/-- Why an operation is refused that asks in vain, unless it is for its arguments. -/
def Operation.refusal (o : Operation) : LeaseError :=
  match o.fault? with
  | some err => .contract err
  | none => .disposed

/-! ## Without a handle -/

/-- Requests about no handle are no requests. -/
theorem Asks.eq_of_isNone {s t : σ} (hasks : l.Asks e s t) (hh : l.handle? = none) : t = s := by
  cases hasks with
  | refl => rfl
  | tail _ hstep =>
    obtain ⟨h, -, hsome, -⟩ := hstep
    cases hh.symm.trans hsome

theorem bind_disposed {x : LeaseM σ α} {s : σ} (hx : x s = (.error .disposed, s))
    (f : α → LeaseM σ β) : (x >>= f) s = (.error .disposed, s) := by
  rw [bind_apply, hx]

section Disposed

variable (hh : l.handle? = none)

include hh

/-- An operation that begins with a request ends with it. -/
theorem ask_bind_of_isNone (r : Request) (f : r.Reply → LeaseM σ α) (s : σ) :
    (l.ask e r >>= f) s = (.error .disposed, s) := bind_disposed (ask_of_isNone e hh r s) f

theorem dump_of_isNone (naming : Naming) (statistics : Bool) (format : DumpFormat) (s : σ) :
    l.dump e naming statistics format s = (.error .disposed, s) := by
  cases naming with
  | file path? => exact ask_of_isNone e hh _ s
  | names names => exact ask_of_isNone e hh _ s

/-- Where the lease is refused, it is not tried again with text dumps. -/
theorem statisticsDump_of_isNone (naming : Naming) (s : σ) :
    l.statisticsDump e naming s = (.error .disposed, s) := by
  rw [statisticsDump, dump_of_isNone hh]

/-- The first matrix is refused, if there is one. -/
theorem scoreEach_of_isNone (metric : CustomMetric) (m : Matrix × String)
    (ms : List (Matrix × String)) (s : σ) :
    l.scoreEach e metric (m :: ms) s = (.error .disposed, s) := by
  exact bind_disposed (ask_bind_of_isNone hh _ _ s) _

theorem evaluate_of_isNone {ms : List Matrix} {names : List String}
    (h : namesFault? ms names = none) (iteration : Int32) (s : σ) :
    l.evaluate e ms names iteration s = (.error .disposed, s) := by
  rw [evaluate, checkNames_eq, h]
  exact ask_of_isNone e hh _ s

/-- Reports of a metric of the caller need no answers for no matrices. -/
theorem evaluateCustomInto_of_isNone {ms : List Matrix} {names : List String}
    (h : namesFault? ms names = none) (iteration : Int32) (metric : CustomMetric) (s : σ) :
    l.evaluateCustomInto e ms names iteration metric s =
      (if ms = [] then .ok (String.ofList (Report.opening iteration), [])
        else .error .disposed, s) := by
  rw [evaluateCustomInto, checkNames_eq, h]
  cases ms with
  | nil =>
    cases names with
    | nil =>
      show ((.ok (String.ofList (Report.opening iteration ++ []), []), s) :
        Except LeaseError (String × List Single) × σ) = _
      rw [List.append_nil]
      rfl
    | cons name names => cases h
  | cons m ms =>
    cases names with
    | nil => cases h
    | cons name names =>
      have hscores := scoreEach_of_isNone (e := e) hh metric (m, name) (ms.zip names) s
      rw [if_neg (List.cons_ne_nil m ms)]
      exact bind_disposed hscores fun scores => pure
        (String.ofList (Report.opening iteration ++ scores.flatMap (·.2)), scores.map (·.1))

theorem importance_of_isNone (naming : Naming) {kind : String} (h : kindFault? kind = none)
    (s : σ) : l.importance e naming kind s = (.error .disposed, s) := by
  obtain ⟨k, hk⟩ := exists_ofName_of_kindFault? h
  rw [importance, hk]
  exact bind_disposed (statisticsDump_of_isNone hh naming s) _

omit hh in
theorem Operation.idle?_of_fault? {o : Operation} {err : ArgumentError} (h : o.fault? = some err) :
    o.idle? = none := by
  cases o with
  | evaluateCustom ms names iteration metric =>
    cases ms with
    | nil =>
      cases names with
      | nil => cases h
      | cons name names => rfl
    | cons m ms => rfl
  | evaluateCustomInto ms names iteration metric =>
    cases ms with
    | nil =>
      cases names with
      | nil => cases h
      | cons name names => rfl
    | cons m ms => rfl
  | setParameters parameters => cases h
  | setAttributes attributes => cases h
  | _ => rfl

/-- Without a handle, an operation is refused unless it has nothing to ask for, and the engine is
not called. -/
theorem perform_of_isNone (o : Operation) (s : σ) :
    l.perform e o s = (match o.idle? with
      | some a => .ok a
      | none => .error o.refusal, s) := by
  cases hfault : o.fault? with
  | some err =>
    rw [perform_of_fault? hfault, Operation.idle?_of_fault? hfault, Operation.refusal, hfault]
    rfl
  | none =>
    have hrefusal : o.refusal = .disposed := by rw [Operation.refusal, hfault]
    rw [hrefusal]
    -- Operations over lists come to the handle with their first element only.
    cases o with
    | setParameters parameters =>
      cases parameters with
      | nil => rfl
      | cons p rest => exact ask_bind_of_isNone hh _ _ s
    | setAttributes attributes =>
      cases attributes with
      | nil => rfl
      | cons a rest => exact ask_bind_of_isNone hh _ _ s
    | attributes => exact ask_bind_of_isNone hh _ _ s
    | predictWith m options => exact ask_bind_of_isNone hh _ _ s
    | predictInPlace rows range kind baseMargin =>
      obtain ⟨first, last, heq⟩ := exists_predictInPlace_eq hfault kind baseMargin
      rw [perform, heq]
      exact ask_bind_of_isNone hh _ _ s
    | boost iteration m g =>
      rw [perform, boost_eq, show gradientFault? g = none from hfault]
      exact ask_of_isNone e hh _ s
    | updateWith objective iteration m => exact bind_disposed (ask_bind_of_isNone hh _ _ s) _
    | evaluate ms names iteration => exact evaluate_of_isNone hh hfault iteration s
    | evaluateInto ms names iteration =>
      exact bind_disposed (evaluate_of_isNone hh hfault iteration s) _
    | evaluateCustom ms names iteration metric =>
      rw [perform, evaluateCustom, bind_apply, evaluateCustomInto_of_isNone hh hfault]
      cases ms with
      | nil =>
        cases names with
        | nil => rfl
        | cons name names => cases hfault
      | cons m ms => rfl
    | evaluateCustomInto ms names iteration metric =>
      rw [perform, evaluateCustomInto_of_isNone hh hfault]
      cases ms with
      | nil =>
        cases names with
        | nil => rfl
        | cons name names => cases hfault
      | cons m ms => rfl
    | dump naming statistics format => exact dump_of_isNone hh naming statistics format s
    | splitCounts naming => exact bind_disposed (dump_of_isNone hh naming _ _ s) _
    | importance naming kind => exact importance_of_isNone hh naming hfault s
    | toRecord => exact ask_bind_of_isNone hh _ _ s
    | writeFrame => exact bind_disposed (ask_bind_of_isNone hh _ _ s) _
    | _ => exact ask_of_isNone e hh _ s

end Disposed

end Lease

namespace Session

open Lease

variable {σ : Type}

/-- Take any engine, and a lease that was disposed of, whatever was done before and after. Each
operation on it leaves the engine as it is. It is refused, for its arguments if they are at
fault and else because the lease was disposed of, unless it has nothing to ask for. A report of
an evaluator that does no more than ask leaves the engine as it is, too. -/
theorem perform_after_dispose (e : Engine σ) (s : σ) {before rest : List Act} {i : Nat}
    {l₀ l : Lease} (hl₀ : ((start s).after e before).lease? i = some l₀)
    (hl : ((start s).after e (before ++ .dispose i :: rest)).lease? i = some l) :
    let x := (start s).after e (before ++ .dispose i :: rest)
    (∀ o : Operation, l.perform e.watched o x.engine = (match o.idle? with
      | some a => .ok a
      | none => .error o.refusal, x.engine)) ∧
    ∀ (evaluator : Evaluator (Recorded (Issuing σ))) (ms : List Matrix) (names : List String)
      (iteration : Int32), l.OnlyAsks e.watched (evaluator l iteration ms names) →
      l.evaluateBy evaluator ms names iteration x.engine = (match namesFault? ms names with
        | some err => .error (.contract err)
        | none => (evaluator l iteration ms names x.engine).1, x.engine) := by
  intro x
  have hspent : x.Spent i := by
    show ((start s).after e (before ++ .dispose i :: rest)).Spent i
    rw [after_append]
    exact (spent_dispose hl₀).after e rest
  have hnone := hspent.2 l hl
  refine ⟨fun o => perform_of_isNone hnone o x.engine, fun evaluator ms names iteration hasks => ?_⟩
  have hsame := (hasks x.engine).eq_of_isNone hnone
  rw [evaluateBy, checkNames_eq]
  cases namesFault? ms names with
  | some err => rfl
  | none => exact Prod.ext rfl hsame

/-- After its disposal a lease is given a version; then it is asked for its rounds, given an uneven
gradient, and given no parameters. -/
theorem perform_after_dispose_versioned :
    let x := (start Workshop.empty).after Workshop.engine
      ([.acquire (.new [] [])] ++ .dispose 0 :: [.setVersion 0 3])
    let l : Lease := ⟨none, 3⟩
    l.perform Workshop.engine.watched .roundCount x.engine = (.error .disposed, x.engine) ∧
    (∀ m, l.perform Workshop.engine.watched (.boost 0 m ⟨#[1], #[]⟩) x.engine =
      (.error (.contract (.gradientLengths 1 0)), x.engine)) ∧
    l.perform Workshop.engine.watched (.setParameters []) x.engine = (.ok (), x.engine) := by
  intro x l
  have hl₀ : ((start Workshop.empty).after Workshop.engine [.acquire (.new [] [])]).lease? 0 =
      some ⟨some ⟨1, by decide⟩, 0⟩ := rfl
  have hl : x.lease? 0 = some l := rfl
  have h := (perform_after_dispose Workshop.engine Workshop.empty hl₀ hl).1
  exact ⟨h .roundCount, fun m => h (.boost 0 m ⟨#[1], #[]⟩), h (.setParameters [])⟩

end Session

end BoostedTrees
