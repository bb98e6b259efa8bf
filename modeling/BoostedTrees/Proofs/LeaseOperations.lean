import BoostedTrees.Lease.Evaluation
import BoostedTrees.Lease.Importance
import BoostedTrees.Lease.Stream
import BoostedTrees.Proofs.Requests
import Mathlib.Logic.Relation

/-!
# What leases do with an engine

A lease is opened in one of several ways, worked with, and given up. What is wrong with the
arguments of an operation is found before anything else is done (`Lease.perform_of_fault?`).
However much happens in an operation then, the engine sees little of it: requests about the
one handle that the lease holds, as many as it takes, and none once the handle is gone
(`Lease.onlyAsks_perform`). And however a lease is opened, one model is created at most,
requests are made about it, and if any of this fails it is released again
(`Lease.opened_run`). What an engine goes through can be followed from these facts alone.

## Main definitions

* `Lease.Operation`: all that can be done with a lease short of giving it up
* `Lease.Operation.fault?`: what is wrong with the arguments of an operation
* `Lease.Asks`: requests about the handle of a lease, one after another
* `Lease.Asking`: what asks about the handle of a lease, and is not refused for its arguments
* `Lease.Opening`: the ways to open a lease
-/

namespace BoostedTrees

/-! ## Running an operation -/

namespace LeaseM

variable {σ α β : Type}

theorem bind_apply (x : LeaseM σ α) (f : α → LeaseM σ β) (s : σ) :
    (x >>= f) s = match x s with
      | (.ok a, t) => f a t
      | (.error err, t) => (.error err, t) := by
  simp only [bind, ExceptT.bind, ExceptT.mk, StateT.bind]
  rcases x s with ⟨a | a, t⟩ <;> rfl

theorem bind_ok {x : LeaseM σ α} {s : σ} {a : α} (h : (x s).1 = .ok a) (f : α → LeaseM σ β) :
    (x >>= f) s = f a (x s).2 := by
  rw [bind_apply]
  rcases hx : x s with ⟨err | a', t⟩
  · rw [hx] at h
    cases h
  · rw [hx] at h
    cases h
    rfl

/-- If the first part of an operation fails, that is the end of it. -/
theorem bind_error {x : LeaseM σ α} {s : σ} {err : LeaseError} (h : (x s).1 = .error err)
    (f : α → LeaseM σ β) : (x >>= f) s = (.error err, (x s).2) := by
  rw [bind_apply]
  rcases hx : x s with ⟨err' | a, t⟩
  · rw [hx] at h
    cases h
    rfl
  · rw [hx] at h
    cases h

theorem native_apply (use : EngineM σ α) (s : σ) :
    Lease.native use s = ((use s).1.mapError LeaseError.native, (use s).2) := rfl

/-- What came of an operation, without the cause if it failed. -/
def outcome (x : LeaseM σ α) : StateM σ (Option α) := fun s => ((x s).1.toOption, (x s).2)

end LeaseM

namespace Lease

open LeaseM

variable {σ α β : Type}

theorem judge_apply (result : Except EngineError α) (s : σ) :
    (judge result : LeaseM σ α) s = (result.mapError .native, s) := by
  cases result <;> rfl

/-- A request that the local engine has the learner of a handle answer by a call. -/
theorem ask_apply {w : Workshop} {h : Handle} {learner : Learner} {version : Int32}
    (hl : w.learner? h = some learner) {r : Request} {call : LearnerM r.Reply}
    (hr : Workshop.answer h r = Workshop.onLearner h call) :
    ask Workshop.engine ⟨some h, version⟩ r w =
      ((call learner).1.mapError .native, w.setLearner h (call learner).2) := by
  show native (Workshop.answer h r) w = _
  rw [hr, native_apply, Workshop.onLearner_apply hl]

/-! ## Operations -/

/-- All that can be done with a lease short of giving it up. -/
inductive Operation where
  | setParameter (key value : String)
  | setParameters (parameters : List (String × String))
  | getAttribute (key : String)
  | setAttribute (key value : String)
  | removeAttribute (key : String)
  | setAttributes (attributes : List (String × String))
  | attributes
  | featureNames
  | setFeatureNames (names : List String)
  | featureTypes
  | setFeatureTypes (types : List String)
  | featureCount
  | roundCount
  | predictWith (m : Matrix) (options : PredictOptions)
  | predictInPlace (rows : DenseRows) (range : List UInt32) (kind : InPlaceKind)
      (baseMargin : Option (Array Single))
  | update (iteration : Int32) (m : Matrix)
  | boost (iteration : Int32) (m : Matrix) (g : Gradient)
  | updateWith (objective : Grid → Matrix → Gradient) (iteration : Int32) (m : Matrix)
  | evaluate (ms : List Matrix) (names : List String) (iteration : Int32)
  | evaluateInto (ms : List Matrix) (names : List String) (iteration : Int32)
  | evaluateCustom (ms : List Matrix) (names : List String) (iteration : Int32)
      (metric : CustomMetric)
  | evaluateCustomInto (ms : List Matrix) (names : List String) (iteration : Int32)
      (metric : CustomMetric)
  | saveFile (path : String)
  | saveAs (format : ModelFormat)
  | load (bytes : List UInt8)
  | config
  | loadConfig (text : String)
  | dump (naming : Naming) (statistics : Bool) (format : DumpFormat)
  | splitCounts (naming : Naming)
  | importance (naming : Naming) (kind : String)
  | toRecord
  | writeFrame

/-- What an operation gives if it succeeds. -/
@[reducible] def Operation.Result : Operation → Type
  | setParameter .. => Unit
  | setParameters _ => Unit
  | getAttribute _ => Option String
  | setAttribute .. => Unit
  | removeAttribute _ => Unit
  | setAttributes _ => Unit
  | attributes => Dictionary String
  | featureNames => List String
  | setFeatureNames _ => Unit
  | featureTypes => List String
  | setFeatureTypes _ => Unit
  | featureCount => UInt64
  | roundCount => UInt32
  | predictWith .. => Grid
  | predictInPlace .. => Grid
  | update .. => Unit
  | boost .. => Unit
  | updateWith .. => Unit
  | evaluate .. => String
  | evaluateInto .. => String × List Single
  | evaluateCustom .. => String
  | evaluateCustomInto .. => String × List Single
  | saveFile _ => Unit
  | saveAs _ => List UInt8
  | load _ => Unit
  | config => String
  | loadConfig _ => Unit
  | dump .. => List String
  | splitCounts _ => Dictionary Nat
  | importance .. => Dictionary Double
  | toRecord => LeaseRecord
  | writeFrame => List UInt8

/-- Does something with a lease. -/
def perform (l : Lease) (e : Engine σ) : (o : Operation) → LeaseM σ o.Result
  | .setParameter key value => l.setParameter e key value
  | .setParameters parameters => l.setParameters e parameters
  | .getAttribute key => l.attribute? e key
  | .setAttribute key value => l.setAttribute e key value
  | .removeAttribute key => l.removeAttribute e key
  | .setAttributes attributes => l.setAttributes e attributes
  | .attributes => l.attributes e
  | .featureNames => l.featureNames e
  | .setFeatureNames names => l.setFeatureNames e names
  | .featureTypes => l.featureTypes e
  | .setFeatureTypes types => l.setFeatureTypes e types
  | .featureCount => l.featureCount e
  | .roundCount => l.roundCount e
  | .predictWith m options => l.predictWith e m options
  | .predictInPlace rows range kind baseMargin => l.predictInPlace e rows range kind baseMargin
  | .update iteration m => l.update e iteration m
  | .boost iteration m g => l.boost e iteration m g
  | .updateWith objective iteration m => l.updateWith e objective iteration m
  | .evaluate ms names iteration => l.evaluate e ms names iteration
  | .evaluateInto ms names iteration => l.evaluateInto e ms names iteration
  | .evaluateCustom ms names iteration metric => l.evaluateCustom e ms names iteration metric
  | .evaluateCustomInto ms names iteration metric =>
    l.evaluateCustomInto e ms names iteration metric
  | .saveFile path => l.saveFile e path
  | .saveAs format => l.saveAs e format
  | .load bytes => l.load e bytes
  | .config => l.config e
  | .loadConfig text => l.loadConfig e text
  | .dump naming statistics format => l.dump e naming statistics format
  | .splitCounts naming => l.splitCounts e naming
  | .importance naming kind => l.importance e naming kind
  | .toRecord => l.toRecord e
  | .writeFrame => l.writeFrame e

/-! ## What is wrong with arguments -/

/-- What is wrong with the lists of a gradient. -/
def gradientFault? (g : Gradient) : Option ArgumentError :=
  if g.first.size ≠ g.second.size then some (.gradientLengths g.first.size g.second.size) else none

/-- What is wrong with matrices and their names. -/
def namesFault? (ms : List Matrix) (names : List String) : Option ArgumentError :=
  if ms.length ≠ names.length then some (.matrixNames ms.length names.length) else none

/-- What is wrong with rows for a prediction in place, and with its range of rounds. -/
def rowsFault? (rows : DenseRows) : List UInt32 → Option ArgumentError
  | [_, _] =>
    if !rows.fitsShape then some (.denseSize rows.values.size rows.rows rows.columns) else none
  | range => some (.roundRangeLength range.length)

/-- What is wrong with the name of a kind of importance. -/
def kindFault? (kind : String) : Option ArgumentError :=
  match Importance.ofName kind with
  | .error err => some err
  | .ok _ => none

/-- What is wrong with the arguments of an operation, as far as they alone tell it. -/
def Operation.fault? : Operation → Option ArgumentError
  | predictInPlace rows range _ _ => rowsFault? rows range
  | boost _ _ g => gradientFault? g
  | evaluate ms names _ => namesFault? ms names
  | evaluateInto ms names _ => namesFault? ms names
  | evaluateCustom ms names _ _ => namesFault? ms names
  | evaluateCustomInto ms names _ _ => namesFault? ms names
  | importance _ kind => kindFault? kind
  | _ => none

variable {e : Engine σ} {l : Lease} {o : Operation} {err : ArgumentError}

/-- What is refused is refused before anything else is done. -/
theorem refuse_bind (err : ArgumentError) (f : α → LeaseM σ β) :
    refuse err >>= f = refuse err := rfl

theorem checkNames_eq (ms : List Matrix) (names : List String) :
    (checkNames ms names : LeaseM σ Unit) =
      match namesFault? ms names with
      | some err => refuse err
      | none => pure () := by
  unfold checkNames namesFault?
  split
  · rfl
  · rfl

theorem boost_eq (iteration : Int32) (m : Matrix) (g : Gradient) :
    l.boost e iteration m g =
      match gradientFault? g with
      | some err => refuse err
      | none => l.ask e (.boost iteration m g) := by
  unfold boost gradientFault?
  split
  · rfl
  · rfl

theorem ofName_of_kindFault? {kind : String} (h : kindFault? kind = some err) :
    Importance.ofName kind = .error err := by
  unfold kindFault? at h
  cases hkind : Importance.ofName kind with
  | error err' =>
    rw [hkind] at h
    cases h
    rfl
  | ok k =>
    rw [hkind] at h
    cases h

theorem exists_ofName_of_kindFault? {kind : String} (h : kindFault? kind = none) :
    ∃ k, Importance.ofName kind = .ok k := by
  unfold kindFault? at h
  cases hkind : Importance.ofName kind with
  | error err =>
    rw [hkind] at h
    cases h
  | ok k => exact ⟨k, rfl⟩

theorem predictInPlace_of_rowsFault? {rows : DenseRows} {range : List UInt32}
    (h : rowsFault? rows range = some err) (kind : InPlaceKind)
    (baseMargin : Option (Array Single)) :
    l.predictInPlace e rows range kind baseMargin = refuse err := by
  match range, h with
  | [first, last], h =>
    rw [rowsFault?] at h
    split at h
    next hshape =>
      cases h
      exact if_pos hshape
    next => cases h
  | [], rfl => rfl
  | [_], rfl => rfl
  | _ :: _ :: _ :: _, rfl => rfl

theorem exists_predictInPlace_eq {rows : DenseRows} {range : List UInt32}
    (h : rowsFault? rows range = none) (kind : InPlaceKind) (baseMargin : Option (Array Single)) :
    ∃ first last, l.predictInPlace e rows range kind baseMargin =
      l.ask e (.predictDense rows first last kind.code baseMargin) >>= fun flat =>
        judge (Grid.ofFlat rows.rows flat) := by
  match range, h with
  | [first, last], h =>
    rw [rowsFault?] at h
    split at h
    next => cases h
    next hshape => exact ⟨first, last, if_neg hshape⟩

/-- Where the arguments of an operation are at fault, it is refused and nothing else. -/
theorem perform_of_fault? (h : o.fault? = some err) (l : Lease) (e : Engine σ) :
    l.perform e o = refuse err := by
  cases o with
  | predictInPlace rows range kind baseMargin =>
    exact predictInPlace_of_rowsFault? h kind baseMargin
  | boost iteration m g => rw [perform, boost_eq, show gradientFault? g = some err from h]
  | evaluate ms names iteration =>
    rw [perform, evaluate, checkNames_eq, show namesFault? ms names = some err from h, refuse_bind]
  | evaluateInto ms names iteration =>
    rw [perform, evaluateInto, evaluate, checkNames_eq, show namesFault? ms names = some err from h,
      refuse_bind, refuse_bind]
  | evaluateCustom ms names iteration metric =>
    rw [perform, evaluateCustom, evaluateCustomInto, checkNames_eq,
      show namesFault? ms names = some err from h, refuse_bind, refuse_bind]
  | evaluateCustomInto ms names iteration metric =>
    rw [perform, evaluateCustomInto, checkNames_eq, show namesFault? ms names = some err from h,
      refuse_bind]
  | importance naming kind => rw [perform, importance, ofName_of_kindFault? h]
  | _ => cases h

/-! ## What the engine sees of an operation -/

/-- Requests about the handle of the lease, one after another, take an engine from one state
to the other. -/
def Asks (e : Engine σ) (l : Lease) : σ → σ → Prop :=
  Relation.ReflTransGen fun s t => ∃ h r, l.handle? = some h ∧ t = (e.answer h r s).2

/-- All that an engine sees of an operation are requests about the handle of the lease. -/
def OnlyAsks (e : Engine σ) (l : Lease) (x : LeaseM σ α) : Prop := ∀ s, l.Asks e s (x s).2

/-- An operation asks about the handle of the lease only, and it does not fail for its
arguments, whatever the answers are. -/
structure Asking (e : Engine σ) (l : Lease) (x : LeaseM σ α) : Prop where
  onlyAsks : l.OnlyAsks e x
  unrefused : ∀ s err, (x s).1 ≠ .error (.contract err)

theorem OnlyAsks.bind {x : LeaseM σ α} {f : α → LeaseM σ β} (hx : l.OnlyAsks e x)
    (hf : ∀ a, l.OnlyAsks e (f a)) : l.OnlyAsks e (x >>= f) := by
  intro s
  rw [bind_apply]
  have hs := hx s
  generalize x s = p at hs ⊢
  rcases p with ⟨err | a, t⟩
  · exact hs
  · exact hs.trans (hf a t)

namespace Asking

theorem pure (a : α) : l.Asking e (pure a) := ⟨fun _ => .refl, nofun⟩

theorem judge (result : Except EngineError α) : l.Asking e (judge result) := by
  cases result with
  | error err => exact ⟨fun _ => .refl, nofun⟩
  | ok a => exact pure a

theorem bind {x : LeaseM σ α} {f : α → LeaseM σ β} (hx : l.Asking e x)
    (hf : ∀ a, l.Asking e (f a)) : l.Asking e (x >>= f) := by
  refine ⟨hx.onlyAsks.bind fun a => (hf a).onlyAsks, fun s err => ?_⟩
  rw [bind_apply]
  have hs := hx.unrefused s err
  generalize x s = p at hs ⊢
  rcases p with ⟨err' | a, t⟩
  · exact fun h => hs (congrArg _ (Except.error.inj h))
  · exact (hf a).unrefused t err

theorem ask (r : Request) : l.Asking e (l.ask e r) := by
  unfold Lease.ask
  cases hh : l.handle? with
  | none => exact ⟨fun _ => .refl, nofun⟩
  | some h =>
    refine ⟨fun s => .single ⟨h, r, hh, rfl⟩, fun s err hrefused => ?_⟩
    dsimp only at hrefused
    rw [native_apply] at hrefused
    cases hr : (e.answer h r s).1 with
    | error err' =>
      rw [hr] at hrefused
      cases hrefused
    | ok a =>
      rw [hr] at hrefused
      cases hrefused

theorem setParameters (parameters : List (String × String)) :
    l.Asking e (l.setParameters e parameters) := by
  induction parameters with
  | nil => exact pure ()
  | cons p rest ih => exact (ask _).bind fun _ => ih

theorem setAttributes (attributes : List (String × String)) :
    l.Asking e (l.setAttributes e attributes) := by
  induction attributes with
  | nil => exact pure ()
  | cons a rest ih => exact (ask _).bind fun _ => ih

theorem collectAttributes (names : List String) (found : Dictionary String) :
    l.Asking e (l.collectAttributes e found names) := by
  induction names generalizing found with
  | nil => exact pure found
  | cons name rest ih =>
    refine (ask _).bind fun value? => ?_
    cases value? with
    | none => exact ih found
    | some value => exact ih _

theorem predictWith (m : Matrix) (options : PredictOptions) :
    l.Asking e (l.predictWith e m options) := (ask _).bind fun _ => judge _

theorem predictInPlace {rows : DenseRows} {range : List UInt32} (h : rowsFault? rows range = none)
    (kind : InPlaceKind) (baseMargin : Option (Array Single)) :
    l.Asking e (l.predictInPlace e rows range kind baseMargin) := by
  obtain ⟨first, last, heq⟩ := exists_predictInPlace_eq h kind baseMargin
  rw [heq]
  exact (ask _).bind fun _ => judge _

theorem boost {g : Gradient} (h : gradientFault? g = none) (iteration : Int32) (m : Matrix) :
    l.Asking e (l.boost e iteration m g) := by
  rw [boost_eq, h]
  exact ask _

theorem checkNames {ms : List Matrix} {names : List String} (h : namesFault? ms names = none) :
    l.Asking e (checkNames ms names : LeaseM σ Unit) := by
  rw [checkNames_eq, h]
  exact pure ()

theorem evaluate {ms : List Matrix} {names : List String} (h : namesFault? ms names = none)
    (iteration : Int32) : l.Asking e (l.evaluate e ms names iteration) :=
  (checkNames h).bind fun _ => ask _

theorem scoreEach (metric : CustomMetric) (ms : List (Matrix × String)) :
    l.Asking e (l.scoreEach e metric ms) := by
  induction ms with
  | nil => exact pure []
  | cons m rest ih => exact (predictWith _ _).bind fun _ => ih.bind fun _ => pure _

theorem evaluateCustomInto {ms : List Matrix} {names : List String}
    (h : namesFault? ms names = none) (iteration : Int32) (metric : CustomMetric) :
    l.Asking e (l.evaluateCustomInto e ms names iteration metric) :=
  (checkNames h).bind fun _ => (scoreEach metric _).bind fun _ => pure _

theorem dump (naming : Naming) (statistics : Bool) (format : DumpFormat) :
    l.Asking e (l.dump e naming statistics format) := by
  cases naming with
  | file path? => exact ask _
  | names names => exact ask _

/-- Where the structured dumps are refused, text dumps are asked for after them. -/
theorem statisticsDump (naming : Naming) : l.Asking e (l.statisticsDump e naming) := by
  have hdump (format : DumpFormat) : l.Asking e (l.dump e naming true format) :=
    dump naming true format
  refine ⟨fun s => ?_, fun s err => ?_⟩
  · have hjson := (hdump .json).onlyAsks s
    unfold Lease.statisticsDump
    split
    next t ht => simpa only [ht] using hjson
    next t ht =>
      have hmid : l.Asks e s t := by simpa only [ht] using hjson
      have htext : l.Asks e s (l.dump e naming true .text t).2 :=
        hmid.trans ((hdump .text).onlyAsks t)
      split
      next u hu => simpa only [hu] using htext
      next u hu => simpa only [hu] using htext
    next t ht => simpa only [ht] using hjson
  · have hjson := (hdump .json).unrefused s err
    unfold Lease.statisticsDump
    split
    next => nofun
    next t ht =>
      have htext := (hdump .text).unrefused t err
      split
      next => nofun
      next u hu =>
        rw [hu] at htext
        exact fun h => htext (congrArg _ (Except.error.inj h))
    next t ht =>
      rw [ht] at hjson
      exact fun h => hjson (congrArg _ (Except.error.inj h))

theorem importance (naming : Naming) {kind : String} (h : kindFault? kind = none) :
    l.Asking e (l.importance e naming kind) := by
  obtain ⟨k, hk⟩ := exists_ofName_of_kindFault? h
  rw [Lease.importance, hk]
  refine (statisticsDump naming).bind fun dumps => ?_
  rcases dumps with ⟨_ | _, trees⟩
  · exact judge _
  · exact judge _

theorem toRecord : l.Asking e (l.toRecord e) := (ask _).bind fun _ => pure _

theorem writeFrame : l.Asking e (l.writeFrame e) := by
  refine toRecord.bind fun r => ?_
  split
  · exact pure _
  · exact ⟨fun _ => .refl, nofun⟩

/-- So is everything that is done with a lease where the arguments are not at fault. An
objective of the caller is another matter: it gives further arguments. -/
theorem perform (h : o.fault? = none)
    (ho : ∀ objective iteration m, o ≠ .updateWith objective iteration m) :
    l.Asking e (l.perform e o) := by
  cases o with
  | setParameters parameters => exact setParameters parameters
  | setAttributes attributes => exact setAttributes attributes
  | attributes => exact (ask _).bind fun names => collectAttributes names _
  | predictWith m options => exact predictWith m options
  | predictInPlace rows range kind baseMargin => exact predictInPlace h kind baseMargin
  | boost iteration m g => exact boost h iteration m
  | updateWith objective iteration m => exact absurd rfl (ho objective iteration m)
  | evaluate ms names iteration => exact evaluate h iteration
  | evaluateInto ms names iteration =>
    exact (evaluate h iteration).bind fun _ => (judge _).bind fun _ => pure _
  | evaluateCustom ms names iteration metric =>
    exact (evaluateCustomInto h iteration metric).bind fun _ => pure _
  | evaluateCustomInto ms names iteration metric => exact evaluateCustomInto h iteration metric
  | dump naming statistics format => exact dump naming statistics format
  | splitCounts naming => exact (dump naming _ _).bind fun _ => pure _
  | importance naming kind => exact importance naming h
  | toRecord => exact toRecord
  | writeFrame => exact writeFrame
  -- What is left makes one request.
  | _ => exact ask _

end Asking

/-- Whatever is done with a lease, the engine sees requests about its handle only. -/
theorem onlyAsks_perform (e : Engine σ) (l : Lease) (o : Operation) :
    l.OnlyAsks e (l.perform e o) := by
  have hrest (o : Operation) (ho : ∀ objective iteration m, o ≠ .updateWith objective iteration m) :
      l.OnlyAsks e (l.perform e o) := by
    cases h : o.fault? with
    | none => exact (Asking.perform h ho).onlyAsks
    | some err =>
      rw [perform_of_fault? h]
      exact fun _ => .refl
  -- A round with an objective of the caller is a prediction and then a round with a gradient.
  cases o with
  | updateWith objective iteration m =>
    exact (Asking.predictWith m _).onlyAsks.bind fun margins =>
      hrest (.boost iteration m (objective margins m)) nofun
  | _ => exact hrest _ nofun

/-! ## Opening a lease -/

/-- The ways to open a lease. What is read from a stream or a text may fail to be there. -/
inductive Opening where
  | new (parameters : List (String × String)) (cache : List Matrix)
  | file (path : String)
  | buffer (bytes : List UInt8)
  /-- The model that a stream holds up to its end, or why it could not be read. -/
  | stream (content : Except LeaseError (List UInt8))
  /-- A model in a frame at the front of a stream. -/
  | frame (content : Except LeaseError (List UInt8))
  /-- A record that was read from a text, if one was. -/
  | record (record? : Option LeaseRecord)

/-- The lease, unless it cannot be opened. -/
def Opening.run (e : Engine σ) : Opening → StateM σ (Option Lease)
  | new parameters cache => outcome (create e parameters cache)
  | file path => outcome (ofFile e path)
  | buffer bytes => outcome (ofBytes e bytes)
  | stream (.error _) => return none
  | stream (.ok bytes) => outcome (ofBytes e bytes)
  | frame (.error _) => return none
  | frame (.ok bytes) => return (← outcome (readFrame e bytes)).map (·.1)
  | record none => return none
  | record (some r) => outcome (ofRecord e r)

/-- What may come of opening a lease: no lease, after no call at all; no lease, because no
model was created; a lease on a model that was created and asked about; or no lease,
because an answer was a refusal, and the model was released. -/
inductive Opened (e : Engine σ) (s : σ) : Option Lease × σ → Prop
  | refused : Opened e s (none, s)
  | uncreated {cache : List Matrix} {err : EngineError} {t : σ}
      (hcreate : e.create cache s = (.error err, t)) : Opened e s (none, t)
  | held {cache : List Matrix} {h : Handle} {t u : σ} {version : Int32}
      (hcreate : e.create cache s = (.ok h, t)) (hasks : Asks e ⟨some h, 0⟩ t u) :
      Opened e s (some ⟨some h, version⟩, u)
  | released {cache : List Matrix} {h : Handle} {t u : σ}
      (hcreate : e.create cache s = (.ok h, t)) (hasks : Asks e ⟨some h, 0⟩ t u) :
      Opened e s (none, (e.free h u).2)

theorem fresh_apply (cache : List Matrix) (s : σ) :
    fresh e cache s = ((e.create cache s).1.mapError LeaseError.native |>.map
      fun h => ⟨some h, 0⟩, (e.create cache s).2) := by
  unfold fresh
  rw [bind_apply, native_apply]
  cases (e.create cache s).1 with
  | error err => rfl
  | ok h => rfl

/-- A new model that is set up is held, or else released. -/
theorem opened_orDispose (cache : List Matrix) {setup : Lease → LeaseM σ Unit}
    (hsetup : ∀ l : Lease, l.OnlyAsks e (setup l)) (s : σ) :
    Opened e s (outcome (fresh e cache >>= fun l => l.orDispose e (setup l)) s) := by
  unfold outcome
  rw [bind_apply, fresh_apply]
  rcases hcreate : e.create cache s with ⟨err | h, t⟩
  · exact .uncreated hcreate
  · have hasks := hsetup ⟨some h, 0⟩ t
    show Opened e s (Except.toOption (orDispose e ⟨some h, 0⟩ (setup ⟨some h, 0⟩) t).1,
      (orDispose e ⟨some h, 0⟩ (setup ⟨some h, 0⟩) t).2)
    unfold orDispose
    generalize setup ⟨some h, 0⟩ t = done at hasks ⊢
    rcases done with ⟨err | _, u⟩
    · exact .released hcreate hasks
    · exact .held hcreate hasks

theorem opened_loaded (r : Request) (s : σ) : Opened e s (outcome (loaded e r) s) :=
  opened_orDispose [] (fun _ => ((Asking.ask r).bind fun _ => .pure _).onlyAsks) s

/-- A record asks for its model and settles the version. -/
theorem opened_ofRecord (r : LeaseRecord) (s : σ) : Opened e s (outcome (ofRecord e r) s) := by
  have h := opened_loaded (e := e) (.load r.model) s
  unfold outcome at h ⊢
  unfold ofRecord ofBytes
  rw [bind_apply]
  rcases hloaded : loaded e (.load r.model) s with ⟨err | l, t⟩
  · rw [hloaded] at h
    exact h
  · rw [hloaded] at h
    cases h with
    | held hcreate hasks => exact .held hcreate hasks

theorem opened_readFrame (bytes : List UInt8) (s : σ) :
    Opened e s (((outcome (readFrame e bytes) s).1.map (·.1)), (outcome (readFrame e bytes) s).2) := by
  unfold outcome readFrame
  cases hframe : LeaseRecord.ofFrame bytes with
  | error err => exact .refused
  | ok p =>
    have h := opened_ofRecord (e := e) p.1 s
    unfold outcome at h
    simp only [bind_apply]
    rcases hlease : ofRecord e p.1 s with ⟨err | l, t⟩
    · rw [hlease] at h
      exact h
    · rw [hlease] at h
      exact h

/-- However a lease is opened, one model is created at most, and it is held or released. -/
theorem opened_run (e : Engine σ) (o : Opening) (s : σ) : Opened e s (o.run e s) := by
  cases o with
  | new parameters cache =>
    exact opened_orDispose cache (fun _ => (Asking.setParameters parameters).onlyAsks) s
  | file path => exact opened_loaded _ s
  | buffer bytes => exact opened_loaded _ s
  | stream content =>
    cases content with
    | error err => exact .refused
    | ok bytes => exact opened_loaded _ s
  | frame content =>
    cases content with
    | error err => exact .refused
    | ok bytes => exact opened_readFrame bytes s
  | record record? =>
    cases record? with
    | none => exact .refused
    | some r => exact opened_ofRecord r s

end Lease

end BoostedTrees
