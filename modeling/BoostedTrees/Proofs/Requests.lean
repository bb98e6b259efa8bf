import BoostedTrees.Engine.Local
import BoostedTrees.Proofs.Calls

/-!
# Requests to one learner

The local engine looks a learner up, lets it answer, and puts it back. What a learner
answers is `Learner.respond`; it may depend on the files that the engine's directory
holds, which other programs may change at any time, so a history of a learner is a
list of requests, each with the files that there are when it is made.

## Main definitions

* `Learner.respond`: what one learner answers to a request
* `Learner.run`, `Learner.after`: the answers to a history, and the learner it leaves

## Main results

* `Workshop.answer_learner`: the local engine answers as the learner of the handle
  does, and changes no other learner
-/

namespace BoostedTrees

/-! ## One request -/

/-- The feature map of a file, or the empty one where no file is named. -/
def Files.featureMap (files : Files) : Option String → Except EngineError FeatureMap
  | none => .ok .empty
  | some path =>
    match (files.read? path).bind Text.ofUtf8? with
    | none => .error (.unreadableFeatureMap path)
    | some text => FeatureMap.ofText text

/-- Whether bytes can be written to the file that a path names. -/
def Files.checkWritable (files : Files) (path : String) (bytes : List UInt8) :
    Except EngineError Unit :=
  match files.write? path bytes with
  | none => .error (.unwritableFile path)
  | some _ => .ok ()

namespace Learner

/-- What a learner answers to a request, where the directory holds the given files. -/
def respond (files : Files) : (r : Request) → LearnerM r.Reply
  | .setParameter key value => setParameter key value
  | .getAttribute key => check fun l => .ok (l.attributes.get? key)
  | .setAttribute key value? => setAttribute key value?
  | .attributeNames => check fun l => .ok l.attributes.keys
  | .setFeatureInfo field values => setFeatureInfo field values
  | .featureInfo field => check (·.featureInfo field)
  | .featureCount => check fun l => .ok l.features
  | .roundCount => check fun l => .ok l.rounds
  | .update iteration m => update iteration m
  | .boost iteration m g => boost iteration m g
  | .evaluate iteration ms names => evaluate iteration ms names
  | .predict m mask limit => predict m mask limit
  | .predictDense rows first last code baseMargin =>
    predictDense rows first last code (baseMargin.getD #[])
  | .loadFile path =>
    match files.read? path with
    | none => throw (.unreadableFile path)
    | some bytes => load bytes
  | .saveFile path => check fun l =>
    (l.saveAs ((ModelFormat.ofPath? path).getD default)).bind (files.checkWritable path)
  | .load bytes => load bytes
  | .save format => check (·.save format)
  | .dump mapPath? statistics format => check fun l =>
    (files.featureMap mapPath?).bind fun map => l.dump map statistics format
  | .dumpNamed names statistics format => check (·.dump (.ofNames names) statistics format)
  | .config => check fun l => .ok l.settings.config
  | .loadConfig text => loadConfig text

end Learner

/-! ## Histories -/

/-- A request to a learner, and the files that there are when it is made. -/
structure Occasion where
  files : Files
  request : Request

/-- A request and what it was answered with. -/
structure Answered where
  request : Request
  reply : Except EngineError request.Reply

/-- The request was not refused. -/
def Answered.Succeeded (a : Answered) : Prop := ∃ v, a.reply = .ok v

/-- The matrices that a request names. -/
def Request.matrices : Request → List Matrix
  | .update _ m => [m]
  | .boost _ m _ => [m]
  | .evaluate _ ms _ => ms
  | .predict m _ _ => [m]
  | _ => []

namespace Learner

/-- The answer on one occasion, and the learner that it leaves. -/
def answer (l : Learner) (o : Occasion) : Answered × Learner :=
  (⟨o.request, (respond o.files o.request l).1⟩, (respond o.files o.request l).2)

/-- The answers to a history, and the learner that it leaves. -/
def run (l : Learner) : List Occasion → List Answered × Learner
  | [] => ([], l)
  | o :: rest =>
    let (a, l) := l.answer o
    let (as, l) := l.run rest
    (a :: as, l)

/-- The learner that a history leaves. -/
def after (l : Learner) (os : List Occasion) : Learner := (l.run os).2

@[simp] theorem after_nil (l : Learner) : l.after [] = l := rfl

@[simp] theorem after_cons (l : Learner) (o : Occasion) (os : List Occasion) :
    l.after (o :: os) = (l.answer o).2.after os := rfl

/-- What every answer preserves, a history preserves. -/
theorem after_induction {P : Learner → Prop} {os : List Occasion} {l : Learner} (h : P l)
    (hstep : ∀ o ∈ os, ∀ l, P l → P (l.answer o).2) : P (l.after os) := by
  induction os generalizing l with
  | nil => exact h
  | cons o os ih =>
    exact ih (hstep o List.mem_cons_self l h) fun o ho => hstep o (List.mem_cons_of_mem _ ho)

end Learner

/-! ## The engine -/

namespace Workshop

variable {α : Type} {w : Workshop} {h : Handle} {l : Learner}

theorem learner?_setLearner (hl : w.learner? h = some l) (l' : Learner) :
    (w.setLearner h l').learner? h = some l' := by
  simp only [learner?, setLearner, Option.map_eq_some_iff] at hl ⊢
  obtain ⟨entry, he, -⟩ := hl
  refine ⟨(h, l'), ?_, rfl⟩
  have hp := List.find?_some he
  rw [List.find?_map]
  refine Option.map_eq_some_iff.mpr ⟨entry, ?_, by simp_all⟩
  rw [← he]
  -- The entry is put back under its handle, so the search stops at it as before.
  congr 1
  funext e
  by_cases heq : e.1 = h <;> simp [heq]

theorem learner?_setLearner_of_ne {h' : Handle} (hne : h' ≠ h) (l' : Learner) :
    (w.setLearner h l').learner? h' = w.learner? h' := by
  simp only [learner?, setLearner, List.find?_map, Option.map_map]
  have hp : ((fun x : Handle × Learner => decide (x.1 = h')) ∘
      fun entry => if entry.1 = h then (h, l') else entry) = fun x => decide (x.1 = h') := by
    funext e
    by_cases heq : e.1 = h
    · simp [heq]
    · simp [heq]
  rw [hp]
  -- What is found under another handle was left as it is.
  cases hf : w.learners.find? fun x => decide (x.1 = h') with
  | none => rfl
  | some e =>
    have he : e.1 = h' := by simpa using List.find?_some hf
    simp [he, hne]

theorem onLearner_apply (hl : w.learner? h = some l) (call : LearnerM α) :
    onLearner h call w = ((call l).1, w.setLearner h (call l).2) := by
  simp only [onLearner, EngineM.bind_apply, EngineM.get_apply, hl, ExceptT.run]
  rcases call l with ⟨a | a, t⟩ <;> rfl

theorem ofLearner_apply (hl : w.learner? h = some l) (f : Learner → Except EngineError α) :
    ofLearner h f w = (f l, w.setLearner h l) := by
  simp only [ofLearner, onLearner_apply hl, EngineM.check_apply]

theorem featureMap_apply (path? : Option String) (w : Workshop) :
    featureMap path? w = (w.files.featureMap path?, w) := by
  cases path? with
  | none => rfl
  | some path =>
    simp only [featureMap, EngineM.bind_apply, EngineM.get_apply, Files.featureMap]
    cases (w.files.read? path).bind Text.ofUtf8? with
    | none => rfl
    | some text => rcases hm : FeatureMap.ofText text with e | m <;> simp only [hm] <;> rfl

/-- A workshop in which one learner answered a request: the learner of the handle is the
one that the answer leaves, and all other learners are as before. -/
def Served (w w' : Workshop) (h : Handle) (l' : Learner) : Prop :=
  w'.learner? h = some l' ∧ ∀ h', h' ≠ h → w'.learner? h' = w.learner? h'

theorem served_setLearner (hl : w.learner? h = some l) (l' : Learner) :
    Served w (w.setLearner h l') h l' :=
  ⟨learner?_setLearner hl l', fun _ hne => learner?_setLearner_of_ne hne l'⟩

theorem served_self (hl : w.learner? h = some l) : Served w w h l := ⟨hl, fun _ _ => rfl⟩

theorem saveFile_served (hl : w.learner? h = some l) (path : String) :
    (saveFile h path w).1 = (Learner.respond w.files (.saveFile path) l).1 ∧
      Served w (saveFile h path w).2 h l := by
  simp only [saveFile, Learner.respond, EngineM.bind_apply, EngineM.get_apply,
    ofLearner_apply hl, EngineM.check_apply]
  cases l.saveAs ((ModelFormat.ofPath? path).getD default) with
  | error e => exact ⟨rfl, served_setLearner hl l⟩
  | ok bytes =>
    have hfiles : (w.setLearner h l).files = w.files := rfl
    simp only [Except.bind, Files.checkWritable, hfiles]
    cases w.files.write? path bytes with
    | none => exact ⟨rfl, served_setLearner hl l⟩
    | some files => exact ⟨rfl, served_setLearner hl l⟩

/-- The local engine answers a request as the learner of the handle does. -/
theorem answer_learner (hl : w.learner? h = some l) (r : Request) :
    (answer h r w).1 = (Learner.respond w.files r l).1 ∧
      Served w (answer h r w).2 h (Learner.respond w.files r l).2 := by
  cases r with
  | saveFile path =>
    obtain ⟨ha, hs⟩ := saveFile_served hl path
    refine ⟨ha, ?_⟩
    simpa only [answer, Learner.respond, EngineM.check_apply] using hs
  | loadFile path =>
    rw [answer, loadFile, EngineM.get_bind_apply, onLearner_apply hl]
    exact ⟨rfl, served_setLearner hl _⟩
  | dump path? statistics format =>
    simp only [answer, EngineM.bind_apply, featureMap_apply, Learner.respond, EngineM.check_apply]
    cases w.files.featureMap path? with
    | error e => exact ⟨rfl, served_self hl⟩
    | ok map =>
      simp only [ofLearner_apply hl]
      exact ⟨rfl, served_setLearner hl l⟩
  | _ =>
    simp only [answer, Learner.respond, onLearner_apply hl, ofLearner_apply hl,
      EngineM.check_apply]
    exact ⟨trivial, served_setLearner hl _⟩

end Workshop

end BoostedTrees
