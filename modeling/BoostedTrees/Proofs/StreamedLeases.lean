import BoostedTrees.Proofs.Frames
import BoostedTrees.Proofs.HandleLedger
import BoostedTrees.Proofs.LeaseOperations
import BoostedTrees.Proofs.StoredRoundTrip

/-!
# Leases through streams

Leases are written to a stream as frames, one after another, and read back on the same
engine or another one. What is read back are leases in the same order, of the same versions,
on models that are saved as the same bytes; what stands behind the frames is left. A frame
that is cut off is noticed before anything is asked of the engine. A text takes a lease
along as well as a frame does.

There is one model that changes on its way, if only in its bits. A base score is taken over
as a text, and all NaNs have one text, so a NaN comes back without its sign and payload.

## Main definitions

* `Lease.writeFrames`, `Lease.readFrames`: leases one after another in a stream
* `Lease.Transferable`: the model of a lease fits a frame and is loaded
* `Lease.ReadBack`: a lease is what another one was written as

## Main results

* `Learner.load_fst_eq`: whether bytes are loaded does not depend on what was there before
* `Lease.readFrames_writeFrames`: leases that were written are read back
-/

namespace BoostedTrees

/-! ## Models that are saved and loaded -/

/-- A stored model with its base score read back from a text. -/
def StoredModel.withScoreReadBack (m : StoredModel) : StoredModel :=
  { m with parameters := { m.parameters with baseScore := m.parameters.baseScore.readBack } }

theorem Objective.name_ne_linear (o : Objective) : o.name ≠ "reg:linear" := by
  cases o <;> decide

namespace Single

/-- Numbers other than NaNs are read back as they are, and so is the NaN that texts stand for. -/
theorem readBack_eq_self_iff {x : Single} : x.readBack = x ↔ (x.isNaN = true → x = nan) := by
  unfold readBack
  split
  next h => exact ⟨fun heq _ => heq.symm, fun heq => (heq h).symm⟩
  next h => exact iff_of_true rfl fun hnan => absurd hnan h

end Single

namespace Learner

variable {l l' : Learner}

/-- Whether bytes are loaded does not depend on what was there before. -/
theorem load_fst_eq (bytes : List UInt8) (l l' : Learner) :
    (load bytes l).1 = (load bytes l').1 := by
  unfold load
  cases StoredModel.decode bytes with
  | error e => rfl
  | ok m =>
    simp only [loadStored_apply, storedSettings_eq]
    cases Objective.ofName m.objective with
    | error e => rfl
    | ok o =>
      -- The outputs that decide which trees are accepted are those of the stored model.
      have houtputs : (l.settings.fixedBy m o).outputs = (l'.settings.fixedBy m o).outputs := rfl
      simp only [Except.map, houtputs]
      cases storedForest m (l'.settings.fixedBy m o).outputs with
      | error fault => rfl
      | ok forest => rfl

/-- What a learner stores, taken over and stored again, is what it was but for a NaN. -/
theorem restored_toStored (l : Learner) : l.toStored.restored = l.toStored.withScoreReadBack := by
  have hname : l.toStored.objective ≠ "reg:linear" := Objective.name_ne_linear _
  rw [StoredModel.restored, if_neg hname]
  rfl

/-- A learner that has loaded what another one saved saves the same, but for a NaN. -/
theorem toStored_of_load (h : (load l.toStored.toUbj l').1 = .ok ()) :
    Wire.ModelFits l.toStored ∧
      (load l.toStored.toUbj l').2.toStored = l.toStored.withScoreReadBack := by
  unfold load at h ⊢
  cases hm : StoredModel.decode l.toStored.toUbj with
  | error e =>
    rw [hm] at h
    cases h
  | ok m =>
    rw [hm] at h
    obtain ⟨hfits, rfl⟩ := StoredModel.decode_toUbj_eq_ok_iff.mp hm
    exact ⟨hfits, (toStored_of_loadStored h).trans l.restored_toStored⟩

end Learner

/-- The bytes of a model tell its base score, if they can be read at all. -/
theorem StoredModel.toUbj_withScoreReadBack_iff {m : StoredModel} (h : Wire.ModelFits m) :
    m.withScoreReadBack.toUbj = m.toUbj ↔
      (m.parameters.baseScore.isNaN = true → m.parameters.baseScore = Single.nan) := by
  rw [← Single.readBack_eq_self_iff]
  constructor
  · intro heq
    -- Both models are read from the same bytes, so they are one model.
    have hfits : Wire.ModelFits m.withScoreReadBack :=
      ⟨h.attributes, h.featureNames, h.featureTypes, h.objective, h.forest⟩
    have hdecode := decode_toUbj_eq_ok_iff.mpr ⟨hfits, rfl⟩
    rw [heq, decode_toUbj_eq_ok_iff] at hdecode
    exact congrArg (·.parameters.baseScore) hdecode.2
  · intro heq
    rw [withScoreReadBack, heq]

/-! ## The local engine -/

namespace Workshop

variable {w v : Workshop} {l : Lease} {learner : Learner}

/-- A lease holds a handle that is kept for a learner. -/
def Holds (w : Workshop) (l : Lease) (learner : Learner) : Prop :=
  ∃ h, l.handle? = some h ∧ w.learner? h = some learner

theorem Holds.eq {a b : Learner} (ha : w.Holds l a) (hb : w.Holds l b) : a = b := by
  obtain ⟨h, hh, hl⟩ := ha
  obtain ⟨h', hh', hl'⟩ := hb
  cases hh.symm.trans hh'
  exact Option.some.inj (hl.symm.trans hl')

/-- How many words there are from one on, before they come around to zero. -/
def wordsFrom (n : UInt64) : Nat := if n = 0 then 0 else UInt64.size - n.toNat

theorem wordsFrom_succ (n : UInt64) : wordsFrom (n + 1) + 1 = UInt64.size - n.toNat := by
  have hlt : n.toNat < UInt64.size := n.toNat_lt
  have hsucc : (n + 1).toNat = (n.toNat + 1) % UInt64.size := UInt64.toNat_add _ _
  by_cases hlast : n.toNat + 1 = UInt64.size
  · rw [hlast, Nat.mod_self] at hsucc
    rw [wordsFrom, if_pos (UInt64.toNat_inj.mp hsucc)]
    omega
  · rw [Nat.mod_eq_of_lt (by omega)] at hsucc
    have hne : n + 1 ≠ 0 := fun hzero => by
      rw [hzero, UInt64.toNat_zero] at hsucc
      omega
    rw [wordsFrom, if_neg hne, hsucc]
    omega

/-- How many handles can be given out before their words run out. -/
def handlesLeft (w : Workshop) : Nat := wordsFrom w.next

/-- The model of a lease is saved in its default format, and no learner changes. -/
theorem save_apply (h : w.Holds l learner) :
    ∃ w', l.save engine w = (.ok learner.toStored.toUbj, w') ∧ w'.learner? = w.learner? := by
  obtain ⟨h, hh, hl⟩ := h
  obtain ⟨handle?, version⟩ := l
  subst hh
  have hanswer : answer h (.save ModelFormat.ubj.name) =
      onLearner h (Learner.check (·.save ModelFormat.ubj.name)) := rfl
  have hask : Lease.save engine ⟨some h, version⟩ w =
      (.ok learner.toStored.toUbj, w.setLearner h learner) := by
    rw [Lease.save, Lease.saveAs]
    exact Lease.ask_apply hl hanswer
  obtain ⟨hsame, hothers⟩ := served_setLearner hl learner
  refine ⟨w.setLearner h learner, hask, ?_⟩
  -- The learner is put back as it was found.
  funext h'
  by_cases heq : h' = h
  · rw [heq, hsame, hl]
  · exact hothers h' heq

theorem holds_of_save {bytes : List UInt8} (h : (l.save engine w).1 = .ok bytes) :
    ∃ learner, w.Holds l learner ∧ bytes = learner.toStored.toUbj := by
  cases hh : l.handle? with
  | none =>
    rw [Lease.save, Lease.saveAs, Lease.ask_of_isNone engine hh] at h
    cases h
  | some handle =>
    cases hl : w.learner? handle with
    | none =>
      have hrefused : (l.save engine w).1 = .error (.native (.invalidHandle handle)) := by
        simp only [Lease.save, Lease.saveAs, Lease.ask, hh]
        rw [LeaseM.native_apply]
        simp only [engine, answer, ofLearner, onLearner, EngineM.get_bind_apply, hl]
        rfl
      rw [hrefused] at h
      cases h
    | some learner =>
      have hholds : w.Holds l learner := ⟨handle, hh, hl⟩
      obtain ⟨w', hsave, -⟩ := save_apply hholds
      rw [hsave] at h
      exact ⟨learner, hholds, (Except.ok.inj h).symm⟩

/-- Where no handle is left, no model is created. -/
theorem create_of_handlesLeft_eq_zero (h : v.handlesLeft = 0) (cache : List Matrix) :
    (create cache v).1 = .error .handlesExhausted := by
  have hnext : v.next = 0 := by
    have hlt : v.next.toNat < UInt64.size := v.next.toNat_lt
    unfold handlesLeft wordsFrom at h
    split at h
    next hzero => exact hzero
    next => omega
  rw [create_apply, Handle.ofRaw?, dif_neg (not_not.mpr hnext)]

/-- Where there are handles left, a model is created under the one that comes next. -/
theorem create_of_handlesLeft_pos (h : 0 < v.handlesLeft) (cache : List Matrix) :
    ∃ new v', create cache v = (.ok new, v') ∧
      new.raw.toNat + v.handlesLeft = UInt64.size ∧ v'.handlesLeft + 1 = v.handlesLeft ∧
      v'.learner? new = some (.create cache) ∧ ∀ h ≠ new, v'.learner? h = v.learner? h := by
  have hlt : v.next.toNat < UInt64.size := v.next.toNat_lt
  have hnext : v.next ≠ 0 := fun hzero => by
    rw [handlesLeft, wordsFrom, if_pos hzero] at h
    exact Nat.lt_irrefl _ h
  have hleft : v.handlesLeft = UInt64.size - v.next.toNat := if_neg hnext
  rw [create_apply, Handle.ofRaw?, dif_pos hnext]
  refine ⟨_, _, rfl, ?_, (wordsFrom_succ v.next).trans hleft.symm, ?_, fun h hne => ?_⟩
  · dsimp only
    omega
  · simp [learner?]
  · simp [learner?, hne.symm]

end Workshop

/-! ## Leases one after another -/

namespace LeaseRecord

/-- The model of a record fits a frame and is loaded. -/
def Loadable (r : LeaseRecord) : Prop :=
  r.model.length < 2 ^ 32 ∧ ∃ l : Learner, (Learner.load r.model l).1 = .ok ()

end LeaseRecord

namespace Lease

open Workshop (engine)

section Streams

variable {σ : Type} (e : Engine σ)

/-- Writes leases one after another. -/
def writeFrames : List Lease → LeaseM σ (List UInt8)
  | [] => return []
  | l :: ls => do
    let frame ← l.writeFrame e
    return frame ++ (← writeFrames ls)

/-- Reads a number of leases one after another, and tells what follows them. -/
def readFrames : Nat → List UInt8 → LeaseM σ (List Lease × List UInt8)
  | 0, stream => return ([], stream)
  | n + 1, stream => do
    let (l, stream) ← readFrame e stream
    let (ls, stream) ← readFrames n stream
    return (l :: ls, stream)

end Streams

/-- The model of a lease fits a frame and is loaded. -/
def Transferable (w : Workshop) (l : Lease) : Prop :=
  ∃ r, (l.toRecord engine w).1 = .ok r ∧ r.Loadable

/-- A frame is the one of a lease whose model is loaded. -/
def Framed (w : Workshop) (l : Lease) (f : List UInt8) : Prop :=
  ∃ r, (l.toRecord engine w).1 = .ok r ∧ r.toFrame = .ok f ∧ r.Loadable

/-- A lease has the version that another one was written with, and its model is saved as the
same bytes, unless the base score is a NaN that is not the one of texts. -/
def ReadBack (w v : Workshop) (l l' : Lease) : Prop :=
  l'.version = l.version ∧ ∃ learner : Learner, w.Holds l learner ∧
    (l.save engine w).1 = .ok learner.toStored.toUbj ∧
    (l'.save engine v).1 = .ok learner.toStored.withScoreReadBack.toUbj ∧
    (learner.toStored.withScoreReadBack.toUbj = learner.toStored.toUbj ↔
      (learner.settings.baseScore.isNaN = true → learner.settings.baseScore = Single.nan))

section Writing

variable {w w' : Workshop} {l : Lease} {learner : Learner} {f : List UInt8}

theorem toRecord_apply (h : w.Holds l learner) :
    ∃ w', l.toRecord engine w = (.ok ⟨l.version, learner.toStored.toUbj⟩, w') ∧
      w'.learner? = w.learner? := by
  obtain ⟨w', hsave, hsame⟩ := Workshop.save_apply h
  refine ⟨w', ?_, hsame⟩
  rw [toRecord, LeaseM.bind_apply, hsave]
  rfl

/-- What is recorded of a lease is the model of its learner. -/
theorem holds_of_toRecord {r : LeaseRecord} (h : (l.toRecord engine w).1 = .ok r) :
    ∃ learner, w.Holds l learner ∧ r = ⟨l.version, learner.toStored.toUbj⟩ := by
  rw [toRecord] at h
  cases hsave : (l.save engine w).1 with
  | error err =>
    rw [LeaseM.bind_error hsave] at h
    cases h
  | ok bytes =>
    obtain ⟨learner, hholds, rfl⟩ := Workshop.holds_of_save hsave
    rw [LeaseM.bind_ok hsave] at h
    exact ⟨learner, hholds, (Except.ok.inj h).symm⟩

theorem writeFrame_apply (h : w.Holds l learner)
    (hf : LeaseRecord.toFrame ⟨l.version, learner.toStored.toUbj⟩ = .ok f) :
    ∃ w', l.writeFrame engine w = (.ok f, w') ∧ w'.learner? = w.learner? := by
  obtain ⟨w', hrecord, hsame⟩ := toRecord_apply h
  refine ⟨w', ?_, hsame⟩
  rw [writeFrame, LeaseM.bind_apply, hrecord]
  dsimp only
  rw [hf]
  rfl

theorem transferable_of_holds (h : w.Holds l learner)
    (hlength : learner.toStored.toUbj.length < 2 ^ 32)
    (hload : (Learner.load learner.toStored.toUbj (.create [])).1 = .ok ()) : l.Transferable w := by
  obtain ⟨w', hrecord, -⟩ := toRecord_apply h
  exact ⟨_, congrArg Prod.fst hrecord, hlength, _, hload⟩

/-- A frame that was written is the one of a record. -/
theorem toFrame_of_writeFrame {σ : Type} {e : Engine σ} {s : σ} (h : (l.writeFrame e s).1 = .ok f) :
    ∃ r, (l.toRecord e s).1 = .ok r ∧ r.toFrame = .ok f := by
  rw [writeFrame] at h
  cases hrecord : (l.toRecord e s).1 with
  | error err =>
    rw [LeaseM.bind_error hrecord] at h
    cases h
  | ok r =>
    rw [LeaseM.bind_ok hrecord] at h
    cases hf : r.toFrame with
    | error err =>
      rw [hf] at h
      cases h
    | ok f' =>
      rw [hf] at h
      cases h
      exact ⟨r, rfl, hf⟩

/-- The frames of leases stand in the stream in their order. -/
theorem writeFrames_apply {ls : List Lease} {fs : List (List UInt8)}
    (h : List.Forall₂ (Framed w) ls fs) (hw' : w'.learner? = w.learner?) :
    ∃ w'', writeFrames engine ls w' = (.ok fs.flatten, w'') ∧ w''.learner? = w.learner? := by
  induction h generalizing w' with
  | nil => exact ⟨w', rfl, hw'⟩
  | @cons l f ls fs hl _ ih =>
    obtain ⟨r, hrecord, hf, -⟩ := hl
    obtain ⟨learner, hholds, rfl⟩ := holds_of_toRecord hrecord
    -- What was written before has left all learners as they were.
    have hholds' : w'.Holds l learner := by
      simpa only [Workshop.Holds, hw'] using hholds
    obtain ⟨w₁, hfirst, hsame⟩ := writeFrame_apply hholds' hf
    obtain ⟨w₂, hrest, hsame'⟩ := ih (hsame.trans hw')
    refine ⟨w₂, ?_, hsame'⟩
    rw [writeFrames, LeaseM.bind_apply, hfirst]
    dsimp only
    rw [LeaseM.bind_apply, hrest]
    rfl

/-- Leases that can be transferred have frames. -/
theorem exists_framed {ls : List Lease} (hls : ∀ l ∈ ls, l.Transferable w) :
    ∃ fs, List.Forall₂ (Framed w) ls fs := by
  induction ls with
  | nil => exact ⟨[], .nil⟩
  | cons l ls ih =>
    obtain ⟨r, hrecord, hr⟩ := hls l List.mem_cons_self
    obtain ⟨fs, hframes⟩ := ih fun l hl => hls l (List.mem_cons_of_mem _ hl)
    exact ⟨_ :: fs, .cons ⟨r, hrecord, LeaseRecord.toFrame_eq_ok_iff.mpr ⟨hr.1, rfl⟩, hr⟩ hframes⟩

end Writing

section Reading

variable {w v : Workshop} {l l' : Lease} {r : LeaseRecord}

/-- A model is created and asked about once, and released if the answer is a refusal. -/
theorem loaded_apply {σ : Type} (e : Engine σ) (q : Request) (s : σ) :
    loaded e q s = match e.create [] s with
      | (.error err, t) => (.error (.native err), t)
      | (.ok h, t) => match ask e ⟨some h, 0⟩ q t with
        | (.ok _, u) => (.ok ⟨some h, 0⟩, u)
        | (.error err, u) => (.error err, (dispose e ⟨some h, 0⟩ u).2) := by
  rw [loaded, LeaseM.bind_apply, fresh_apply]
  rcases e.create [] s with ⟨err | h, t⟩
  · rfl
  · show orDispose e ⟨some h, 0⟩ (discard (ask e ⟨some h, 0⟩ q)) t = _
    have hdiscard : discard (ask e ⟨some h, 0⟩ q) = ask e ⟨some h, 0⟩ q >>= fun _ => pure () := rfl
    rw [orDispose, hdiscard, LeaseM.bind_apply]
    dsimp only
    rcases ask e ⟨some h, 0⟩ q t with ⟨err | a, u⟩
    · rfl
    · rfl

/-- A record of a model that is loaded becomes a lease on a new handle. -/
theorem ofRecord_apply (h : ∃ l : Learner, (Learner.load r.model l).1 = .ok ())
    (hleft : 0 < v.handlesLeft) :
    ∃ new v', ofRecord engine r v = (.ok ⟨some new, r.version⟩, v') ∧
      new.raw.toNat + v.handlesLeft = UInt64.size ∧ v'.handlesLeft + 1 = v.handlesLeft ∧
      v'.learner? new = some (Learner.load r.model (.create [])).2 ∧
      ∀ h ≠ new, v'.learner? h = v.learner? h := by
  obtain ⟨l, hl⟩ := h
  obtain ⟨new, v₁, hcreate, hnew, hcount, hlearner, hothers⟩ :=
    Workshop.create_of_handlesLeft_pos hleft []
  obtain ⟨hsame, hframe⟩ :=
    Workshop.served_setLearner hlearner (Learner.load r.model (.create [])).2
  have hanswer : Workshop.answer new (.load r.model) =
      Workshop.onLearner new (Learner.load r.model) := rfl
  have haccepted : (Learner.load r.model (.create [])).1 = .ok () :=
    (Learner.load_fst_eq r.model _ l).trans hl
  have hload : ask engine ⟨some new, 0⟩ (.load r.model) v₁ =
      (.ok (), v₁.setLearner new (Learner.load r.model (.create [])).2) := by
    rw [ask_apply hlearner hanswer, haccepted]
    rfl
  refine ⟨new, v₁.setLearner new (Learner.load r.model (.create [])).2, ?_, hnew, hcount, hsame,
    fun h hne => (hframe h hne).trans (hothers h hne)⟩
  rw [ofRecord, LeaseM.bind_apply, ofBytes, loaded_apply, show engine.create [] v = _ from hcreate]
  dsimp only
  rw [hload]
  rfl

theorem ofRecord_of_handlesLeft_eq_zero (h : v.handlesLeft = 0) (r : LeaseRecord) :
    (ofRecord engine r v).1 = .error (.native .handlesExhausted) := by
  have hcreate : (engine.create [] v).1 = .error .handlesExhausted :=
    Workshop.create_of_handlesLeft_eq_zero h []
  have hfresh : (fresh engine [] v).1 = .error (.native .handlesExhausted) := by
    rw [fresh_apply, hcreate]
    rfl
  have hloaded : (loaded engine (.load r.model) v).1 = .error (.native .handlesExhausted) := by
    rw [loaded, LeaseM.bind_error hfresh]
  rw [ofRecord, ofBytes, LeaseM.bind_error hloaded]

/-- A lease that was opened from a record has what was recorded. -/
theorem readBack_of_toRecord (hrecord : (l.toRecord engine w).1 = .ok r) (hr : r.Loadable)
    (hversion : l'.version = r.version)
    (hholds' : v.Holds l' (Learner.load r.model (.create [])).2) : ReadBack w v l l' := by
  obtain ⟨learner, hholds, rfl⟩ := holds_of_toRecord hrecord
  obtain ⟨-, acceptor, haccepted⟩ := hr
  have hload : (Learner.load learner.toStored.toUbj (.create [])).1 = .ok () :=
    (Learner.load_fst_eq _ _ acceptor).trans haccepted
  obtain ⟨hfits, hstored⟩ := Learner.toStored_of_load hload
  obtain ⟨_, hsave, -⟩ := Workshop.save_apply hholds
  obtain ⟨_, hsave', -⟩ := Workshop.save_apply hholds'
  refine ⟨hversion, learner, hholds, congrArg Prod.fst hsave, ?_,
    StoredModel.toUbj_withScoreReadBack_iff hfits⟩
  rw [hsave', hstored]

variable {ls : List Lease} {fs : List (List UInt8)}

/-- What the frames of leases are read as, while there are handles left for all of them. -/
theorem readFrames_apply (h : List.Forall₂ (Framed w) ls fs) (t : List UInt8)
    (hleft : ls.length ≤ v.handlesLeft) :
    ∃ ls' v', readFrames engine ls.length (fs.flatten ++ t) v = (.ok (ls', t), v') ∧
      List.Forall₂ (ReadBack w v') ls ls' ∧
      ∀ h : Handle, h.raw.toNat + v.handlesLeft < UInt64.size → v'.learner? h = v.learner? h := by
  induction h generalizing v with
  | nil => exact ⟨[], v, rfl, .nil, fun _ _ => rfl⟩
  | @cons l f ls fs hl _ ih =>
    obtain ⟨r, hrecord, hf, hr⟩ := hl
    rw [List.length_cons] at hleft
    obtain ⟨new, v₁, hfirst, hnew, hcount, hlearner, hothers⟩ :=
      ofRecord_apply hr.2 (v := v) (by omega)
    obtain ⟨ls', v₂, hrest, hread, hframe⟩ := ih (v := v₁) (by omega)
    have hread₁ : readFrame engine ((f :: fs).flatten ++ t) v =
        (.ok (⟨some new, r.version⟩, fs.flatten ++ t), v₁) := by
      rw [readFrame, List.flatten_cons, List.append_assoc, LeaseRecord.ofFrame_append hf]
      dsimp only
      rw [LeaseM.bind_apply, hfirst]
      rfl
    -- What is read later goes to handles with higher words.
    have hholds : v₂.Holds ⟨some new, r.version⟩ (Learner.load r.model (.create [])).2 :=
      ⟨new, rfl, by rw [hframe new (by omega), hlearner]⟩
    refine ⟨⟨some new, r.version⟩ :: ls', v₂, ?_,
      .cons (readBack_of_toRecord hrecord hr rfl hholds) hread, fun h hh => ?_⟩
    · rw [List.length_cons, readFrames, LeaseM.bind_apply, hread₁]
      dsimp only
      rw [LeaseM.bind_apply, hrest]
      rfl
    · have hne : h ≠ new := fun heq => by
        rw [heq] at hh
        omega
      rw [hframe h (by omega), hothers h hne]

/-- Where there are more frames than handles left, one of them is refused a handle. -/
theorem readFrames_of_handlesLeft_lt (h : List.Forall₂ (Framed w) ls fs) (t : List UInt8)
    (hleft : v.handlesLeft < ls.length) :
    (readFrames engine ls.length (fs.flatten ++ t) v).1 = .error (.native .handlesExhausted) := by
  induction h generalizing v with
  | nil => cases hleft
  | @cons l f ls fs hl _ ih =>
    obtain ⟨r, -, hf, hr⟩ := hl
    rw [List.length_cons] at hleft ⊢
    have hframe : readFrame engine ((f :: fs).flatten ++ t) =
        (do return (← ofRecord engine r, fs.flatten ++ t)) := by
      rw [readFrame, List.flatten_cons, List.append_assoc, LeaseRecord.ofFrame_append hf]
    rw [readFrames, hframe]
    by_cases hzero : v.handlesLeft = 0
    · have hrefused := ofRecord_of_handlesLeft_eq_zero hzero r
      rw [LeaseM.bind_error (by rw [LeaseM.bind_error hrefused])]
    · obtain ⟨new, v₁, hfirst, -, hcount, -⟩ := ofRecord_apply hr.2 (Nat.pos_of_ne_zero hzero)
      have hrest := ih (v := v₁) (by omega)
      rw [LeaseM.bind_apply, LeaseM.bind_apply, hfirst]
      show ((readFrames engine ls.length (fs.flatten ++ t) >>= _) v₁).1 = _
      rw [LeaseM.bind_error hrest]

/-- A frame that is cut off is not read, and the engine is as before. -/
theorem readFrame_of_prefix {σ : Type} {e : Engine σ} {s : σ} {f p : List UInt8}
    (hwrite : (l.writeFrame e s).1 = .ok f) (hp : p <+: f) (hne : p ≠ f) {τ : Type}
    (e' : Engine τ) (t : τ) :
    readFrame e' p t = (.error (if p.length < 8 then .streamEnded
      else .serialization (.endsEarly (p.length - 8) (f.length - 8))), t) := by
  obtain ⟨r, -, hf⟩ := toFrame_of_writeFrame hwrite
  have hlength : f.length - 8 = r.model.length := by
    obtain ⟨-, rfl⟩ := LeaseRecord.toFrame_eq_ok_iff.mp hf
    simp only [List.length_append, Wire.length_word]
    omega
  rw [readFrame, LeaseRecord.ofFrame_of_prefix hf hp hne, hlength]
  rfl

end Reading

/-- Leases that are written to a stream are read back in their order, as far as there are
handles left for them, and what stands behind them is left. Of a frame that is cut off nothing
is read, and the engine is as before. A lease that is taken along in a text is read back as well. -/
theorem readFrames_writeFrames {w v : Workshop} {ls : List Lease}
    (hls : ∀ l ∈ ls, l.Transferable w) (t : List UInt8) :
    (∃ stream, (writeFrames engine ls w).1 = .ok stream ∧
      if ls.length ≤ v.handlesLeft then
        ∃ ls' v', readFrames engine ls.length (stream ++ t) v = (.ok (ls', t), v') ∧
          List.Forall₂ (ReadBack w v') ls ls'
      else (readFrames engine ls.length (stream ++ t) v).1 = .error (.native .handlesExhausted)) ∧
    (∀ (l : Lease) (f : List UInt8), (l.writeFrame engine w).1 = .ok f → ∀ p, p <+: f → p ≠ f →
      readFrame engine p v = (.error (if p.length < 8 then .streamEnded
        else .serialization (.endsEarly (p.length - 8) (f.length - 8))), v)) ∧
    ∀ l ∈ ls, ∃ r, (l.toRecord engine w).1 = .ok r ∧
      LeaseRecord.ofText? (String.ofList r.toJson) = some r ∧
      (0 < v.handlesLeft →
        ∃ l' v', ofRecord engine r v = (.ok l', v') ∧ ReadBack w v' l l') := by
  refine ⟨?_, fun l f hwrite p hp hne => readFrame_of_prefix hwrite hp hne engine v, ?_⟩
  · obtain ⟨fs, hframes⟩ := exists_framed hls
    obtain ⟨w', hwrite, -⟩ := writeFrames_apply hframes rfl
    refine ⟨fs.flatten, congrArg Prod.fst hwrite, ?_⟩
    split
    next hleft =>
      obtain ⟨ls', v', hread, hreadBack, -⟩ := readFrames_apply hframes t hleft
      exact ⟨ls', v', hread, hreadBack⟩
    next hleft => exact readFrames_of_handlesLeft_lt hframes t (Nat.lt_of_not_le hleft)
  · intro l hl
    obtain ⟨r, hrecord, hr⟩ := hls l hl
    refine ⟨r, hrecord, r.ofText?_toJson, fun hleft => ?_⟩
    obtain ⟨new, v', hopen, -, -, hlearner, -⟩ := ofRecord_apply hr.2 hleft
    exact ⟨_, v', hopen, readBack_of_toRecord hrecord hr rfl ⟨new, rfl, hlearner⟩⟩

/-! A stump and a model whose base score is a NaN with a sign, with versions of their own. -/

/-- A model without trees whose base score is a NaN with a sign. -/
def signedNaN : Learner :=
  { Learner.create [] with settings := { Settings.initial with baseScore := ⟨0xffc00000⟩ } }

def stumpLease : Lease := ⟨Handle.ofRaw? 1, 3⟩

def signedNaNLease : Lease := ⟨Handle.ofRaw? 2, -1⟩

/-- An engine that keeps the models of both. -/
def pairWorkshop : Workshop :=
  { Workshop.empty with
    next := 3
    created := 2
    learners := [(1, Learner.stump), (2, signedNaN)].filterMap fun (raw, learner) =>
      (Handle.ofRaw? raw).map (·, learner) }

/-- Both are read back, with the bytes behind them left; only the stump is what it was. -/
theorem readFrames_writeFrames_pair :
    ∃ stream a b w',
      (writeFrames engine [stumpLease, signedNaNLease] pairWorkshop).1 = .ok stream ∧
      readFrames engine 2 (stream ++ [7]) pairWorkshop = (.ok ([a, b], [7]), w') ∧
      a.version = 3 ∧ (a.save engine w').1 = (stumpLease.save engine pairWorkshop).1 ∧
      b.version = -1 ∧ (b.save engine w').1 ≠ (signedNaNLease.save engine pairWorkshop).1 := by
  have hstump : pairWorkshop.Holds stumpLease .stump := ⟨_, rfl, rfl⟩
  have hsigned : pairWorkshop.Holds signedNaNLease signedNaN := ⟨_, rfl, rfl⟩
  have hls : ∀ l ∈ [stumpLease, signedNaNLease], l.Transferable pairWorkshop := by
    intro l hl
    simp only [List.mem_cons, List.not_mem_nil, or_false] at hl
    rcases hl with rfl | rfl
    · obtain ⟨given, hload⟩ := Learner.load_stump (.create [])
      exact transferable_of_holds hstump (by decide +kernel) (congrArg Prod.fst hload)
    · have hload : (Learner.load signedNaN.toStored.toUbj (.create [])).1 = .ok () := by
        decide +kernel
      exact transferable_of_holds hsigned (by decide +kernel) hload
  obtain ⟨⟨stream, hwrite, hread⟩, -⟩ := readFrames_writeFrames (v := pairWorkshop) hls [7]
  rw [if_pos (by decide)] at hread
  obtain ⟨ls', w', hread, hpair⟩ := hread
  obtain _ | @⟨_, a, _, _, ha, _ | @⟨_, b, _, _, hb, _ | _⟩⟩ := hpair
  refine ⟨stream, a, b, w', hwrite, hread, ha.1, ?_, hb.1, ?_⟩
  · obtain ⟨-, learner, hholds, hsave, hsave', hsame⟩ := ha
    rw [hholds.eq hstump] at hsave hsave' hsame
    rw [hsave, hsave', hsame.mpr (by decide)]
  · obtain ⟨-, learner, hholds, hsave, hsave', hsame⟩ := hb
    rw [hholds.eq hsigned] at hsave hsave' hsame
    rw [hsave, hsave']
    intro heq
    exact absurd (hsame.mp (Except.ok.inj heq)) (by decide)

end Lease

end BoostedTrees
