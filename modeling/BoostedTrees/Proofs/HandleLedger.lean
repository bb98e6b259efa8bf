import BoostedTrees.Engine.Recorder
import BoostedTrees.Proofs.Requests
import Mathlib.Data.List.Nodup
import Mathlib.Logic.Relation

/-!
# The books on handles

Every use of an engine is an entry in a ledger (`Ledger.Move`): a model is asked for, a
handle that is held is used, or it is released. However little the engine can be relied
on, the books balance: every handle was released as often as it was given out, less the
times that it is held. Where the engine gives no handle out twice, "as often" means once
or never, and nothing follows the release (`Ledger.Accounted`).

The local engine keeps a book of its own. The models that it keeps are those of the
handles that are held (`Workshop.Keeps`), and it gives no handle out twice before its
words run out (`Workshop.Numbers`).

## Main definitions

* `Ledger`: an engine and the handles that are held
* `Ledger.Move`: an entry in a ledger

## Main results

* `Ledger.Accounted.of_moves`: entries leave books that balance in balance
* `Ledger.keeps_of_moves`: the local engine keeps the models of the handles that are held
-/

namespace BoostedTrees

/-! ## Handles that were given out -/

/-- The state of an engine, and the handles that it has given out so far. -/
structure Issuing (σ : Type) where
  inner : σ
  issued : List Handle

/-- The engine with the handles noted that it gives out. -/
def Engine.issuing {σ : Type} (e : Engine σ) : Engine (Issuing σ) where
  create cache := fun s =>
    match e.create cache s.inner with
    | (.ok h, t) => (.ok h, ⟨t, s.issued ++ [h]⟩)
    | (.error err, t) => (.error err, ⟨t, s.issued⟩)
  free h := fun s => ((e.free h s.inner).1, ⟨(e.free h s.inner).2, s.issued⟩)
  answer h r := fun s => ((e.answer h r s.inner).1, ⟨(e.answer h r s.inner).2, s.issued⟩)

/-- The engine with its calls recorded, and the handles noted that it gives out. -/
def Engine.watched {σ : Type} (e : Engine σ) : Engine (Recorded (Issuing σ)) := e.issuing.recorded

/-- A call that releases a handle. -/
def Call.frees (h : Handle) : Call → Bool
  | free h' => h' = h
  | _ => false

/-- A call that asks for a model. -/
def Call.creates : Call → Bool
  | create _ => true
  | _ => false

theorem Call.frees_free (h h' : Handle) : (free h').frees h = decide (h' = h) := rfl

/-! ## Books -/

/-- A watched engine, and the handles that are held. -/
structure Ledger (σ : Type) where
  engine : Recorded (Issuing σ)
  held : List Handle

namespace Ledger

variable {σ : Type} {e : Engine σ} {x y : Ledger σ}

def calls (x : Ledger σ) : List Call := x.engine.calls

def issued (x : Ledger σ) : List Handle := x.engine.inner.issued

/-- An entry in the books: one use of the engine. -/
inductive Move (e : Engine σ) : Ledger σ → Ledger σ → Prop
  /-- A model is asked for. If it is created, its handle is held from then on. -/
  | created {s t : Recorded (Issuing σ)} {held : List Handle} {cache : List Matrix}
      {created : Except EngineError Handle} (h : e.watched.create cache s = (created, t)) :
      Move e ⟨s, held⟩ ⟨t, held ++ created.toOption.toList⟩
  /-- Only about a handle that is held are there requests. -/
  | asked {s : Recorded (Issuing σ)} {held : List Handle} {h : Handle} (hh : h ∈ held)
      (r : Request) : Move e ⟨s, held⟩ ⟨(e.watched.answer h r s).2, held⟩
  /-- A handle that is held is released, and is not held any more. -/
  | freed {s : Recorded (Issuing σ)} {before after : List Handle} (h : Handle) :
      Move e ⟨s, before ++ h :: after⟩ ⟨(e.watched.free h s).2, before ++ after⟩

/-- Entries one after another. -/
def Moves (e : Engine σ) : Ledger σ → Ledger σ → Prop := Relation.ReflTransGen (Move e)

/-- What asking for a model writes into the books. -/
theorem create_watched {cache : List Matrix} {s t : Recorded (Issuing σ)}
    {created : Except EngineError Handle} (h : e.watched.create cache s = (created, t)) :
    t.calls = s.calls ++ [.create cache] ∧
      t.inner.issued = s.inner.issued ++ created.toOption.toList ∧
      e.create cache s.inner.inner = (created, t.inner.inner) := by
  simp only [Engine.watched, Engine.recorded, Engine.issuing, Recorded.noting] at h
  rcases hinner : e.create cache s.inner.inner with ⟨err | handle, u⟩
  · rw [hinner] at h
    cases h
    exact ⟨rfl, (List.append_nil _).symm, rfl⟩
  · rw [hinner] at h
    cases h
    exact ⟨rfl, rfl, rfl⟩

/-- Nothing is ever struck out. -/
theorem Move.extends (h : Move e x y) : x.calls <+: y.calls ∧ x.issued <+: y.issued := by
  cases h with
  | created hcreate =>
    obtain ⟨hcalls, hissued, -⟩ := create_watched hcreate
    exact ⟨⟨_, hcalls.symm⟩, ⟨_, hissued.symm⟩⟩
  | asked hh r => exact ⟨⟨_, rfl⟩, List.prefix_refl _⟩
  | freed h => exact ⟨⟨_, rfl⟩, List.prefix_refl _⟩

theorem Moves.extends (h : Moves e x y) : x.calls <+: y.calls ∧ x.issued <+: y.issued := by
  induction h with
  | refl => exact ⟨List.prefix_refl _, List.prefix_refl _⟩
  | tail _ hlast ih =>
    obtain ⟨hcalls, hissued⟩ := hlast.extends
    exact ⟨ih.1.trans hcalls, ih.2.trans hissued⟩

/-- No call is about a handle that a call before it released. -/
def Final (calls : List Call) : Prop :=
  calls.Pairwise fun c c' => ∀ h, c.frees h → c'.handle? ≠ some h

/-- A call may follow if it is about no handle that was released. -/
theorem Final.append {calls : List Call} {c : Call} (hcalls : Final calls)
    (hc : ∀ h, c.handle? = some h → calls.countP (Call.frees h) = 0) : Final (calls ++ [c]) := by
  refine List.pairwise_append.mpr ⟨hcalls, List.pairwise_singleton _ _, ?_⟩
  intro c₀ hc₀ c' hc' h hfrees hh
  rw [List.mem_singleton.mp hc'] at hh
  exact List.countP_eq_zero.mp (hc h hh) c₀ hc₀ hfrees

/-- The books balance, and no handle is used after its release. -/
structure Accounted (x : Ledger σ) : Prop where
  /-- What was given out is held or was released. -/
  balance (h : Handle) : x.calls.countP (Call.frees h) + x.held.count h = x.issued.count h
  /-- Handles that were given out more than once are beyond this. -/
  final : x.issued.Nodup → Final x.calls

namespace Accounted

/-- A handle that was not given out was not released either, and nobody holds it. -/
theorem of_not_mem (hx : x.Accounted) {h : Handle} (hh : h ∉ x.issued) :
    x.calls.countP (Call.frees h) = 0 ∧ h ∉ x.held := by
  have hbalance := hx.balance h
  rw [List.count_eq_zero.mpr hh] at hbalance
  exact ⟨by omega, List.count_eq_zero.mp (by omega)⟩

theorem nodup_held (hx : x.Accounted) (hfresh : x.issued.Nodup) : x.held.Nodup := by
  rw [List.nodup_iff_count_le_one] at hfresh ⊢
  intro h
  have hbalance := hx.balance h
  have honce := hfresh h
  omega

/-- A handle that is held was not released, if it was given out once only. -/
theorem of_held (hx : x.Accounted) (hfresh : x.issued.Nodup) {h : Handle} (hh : h ∈ x.held) :
    x.calls.countP (Call.frees h) = 0 := by
  have hbalance := hx.balance h
  have honce := List.nodup_iff_count_le_one.mp hfresh h
  have hpos := List.count_pos_iff.mpr hh
  omega

/-- A handle was released once if it was given out and is not held, and never else. -/
theorem count_frees (hx : x.Accounted) (hfresh : x.issued.Nodup) (h : Handle) :
    x.calls.countP (Call.frees h) = if h ∈ x.issued ∧ h ∉ x.held then 1 else 0 := by
  by_cases hissued : h ∈ x.issued
  · by_cases hheld : h ∈ x.held
    · rw [if_neg fun hboth => hboth.2 hheld]
      exact hx.of_held hfresh hheld
    · rw [if_pos ⟨hissued, hheld⟩]
      have hbalance := hx.balance h
      have honce := List.nodup_iff_count_le_one.mp hfresh h
      have hpos := List.count_pos_iff.mpr hissued
      rw [List.count_eq_zero.mpr hheld] at hbalance
      omega
  · rw [if_neg fun hboth => hissued hboth.1]
    exact (hx.of_not_mem hissued).1

/-- An entry leaves books that balance in balance. -/
theorem of_move (hx : x.Accounted) (h : Move e x y) : y.Accounted := by
  have hold (hfresh : y.issued.Nodup) : x.issued.Nodup := hfresh.sublist h.extends.2.sublist
  cases h with
  | @created s t held cache created hcreate =>
    obtain ⟨hcalls, hissued, -⟩ := create_watched hcreate
    constructor
    · intro h
      have hbalance : s.calls.countP (Call.frees h) + held.count h = s.inner.issued.count h :=
        hx.balance h
      -- What is held grows by what is given out.
      show t.calls.countP _ + _ = t.inner.issued.count h
      have hnot : (Call.create cache).frees h = false := rfl
      rw [hcalls, hissued, List.countP_append, List.count_append, List.count_append, ← hbalance,
        List.countP_singleton, hnot, if_neg Bool.false_ne_true]
      omega
    · intro hfresh
      show Final t.calls
      rw [hcalls]
      exact (hx.final (hold hfresh)).append fun h hh => nomatch hh
  | @asked s held h hh r =>
    constructor
    · intro h'
      show (s.calls ++ [Call.request h r]).countP _ + _ = s.inner.issued.count h'
      rw [List.countP_append]
      exact hx.balance h'
    · intro hfresh
      show Final (s.calls ++ [Call.request h r])
      refine (hx.final (hold hfresh)).append fun h' hh' => ?_
      cases hh'
      exact hx.of_held (hold hfresh) hh
  | @freed s before after h =>
    constructor
    · intro h'
      have hbalance : s.calls.countP (Call.frees h') + (before ++ h :: after).count h' =
        s.inner.issued.count h' := hx.balance h'
      rw [List.count_append, List.count_cons] at hbalance
      -- One more call releases the handle, and it is held once less.
      show (s.calls ++ [Call.free h]).countP _ + (before ++ after).count h' =
        s.inner.issued.count h'
      rw [List.countP_append, List.count_append, List.countP_singleton, Call.frees_free]
      simp only [beq_iff_eq, decide_eq_true_eq] at hbalance ⊢
      omega
    · intro hfresh
      show Final (s.calls ++ [Call.free h])
      refine (hx.final (hold hfresh)).append fun h' hh' => ?_
      cases hh'
      exact hx.of_held (hold hfresh) (List.mem_append_right _ List.mem_cons_self)

theorem of_moves (hx : x.Accounted) (h : Moves e x y) : y.Accounted := by
  induction h with
  | refl => exact hx
  | tail _ hlast ih => exact ih.of_move hlast

end Accounted

end Ledger

/-! ## The book of the local engine -/

namespace Workshop

variable {w : Workshop} {h : Handle}

/-- The handles that are kept. -/
def handles (w : Workshop) : List Handle := w.learners.map (·.1)

/-- All that the local engine knows of handles. -/
def book (w : Workshop) : List Handle × UInt64 × Nat × Nat :=
  (w.handles, w.next, w.created, w.freed)

theorem book_setLearner (w : Workshop) (h : Handle) (l : Learner) :
    (w.setLearner h l).book = w.book := by
  have hhandles : (w.setLearner h l).handles = w.handles := by
    unfold handles setLearner
    rw [List.map_map]
    refine List.map_congr_left fun entry _ => ?_
    show (if entry.1 = h then (h, l) else entry).1 = entry.1
    split
    next heq => exact heq.symm
    · rfl
  exact congrArg (·, w.next, w.created, w.freed) hhandles

section Book

variable {α : Type} {b : List Handle × UInt64 × Nat × Nat}

theorem book_onLearner (h : Handle) (call : LearnerM α) :
    EngineM.Preserves (fun w : Workshop => w.book = b) (onLearner h call) := by
  intro w hw
  cases hl : w.learner? h with
  | none =>
    have hrefused : onLearner h call w = (.error (.invalidHandle h), w) := by
      unfold onLearner
      rw [EngineM.get_bind_apply]
      simp only [hl]
      rfl
    rw [hrefused]
    exact hw
  | some l =>
    rw [onLearner_apply hl, book_setLearner]
    exact hw

theorem book_featureMap (path? : Option String) :
    EngineM.Preserves (fun w : Workshop => w.book = b) (featureMap path?) := by
  intro w hw
  rw [featureMap_apply]
  exact hw

theorem book_saveFile (h : Handle) (path : String) :
    EngineM.Preserves (fun w : Workshop => w.book = b) (saveFile h path) := by
  refine (book_onLearner h _).bind fun bytes => EngineM.Preserves.get.bind fun w => ?_
  cases w.files.write? path bytes with
  | none => exact .throw _
  | some files => exact .modify fun w hw => hw

/-- No answer changes what there is to know of handles. -/
theorem book_answer (h : Handle) (r : Request) :
    EngineM.Preserves (fun w : Workshop => w.book = b) (answer h r) := by
  cases r with
  | saveFile path => exact book_saveFile h path
  | loadFile path =>
    unfold answer loadFile
    exact EngineM.Preserves.get.bind fun w => book_onLearner h _
  | dump path? statistics format =>
    unfold answer
    exact (book_featureMap path?).bind fun map => book_onLearner h _
  | _ =>
    simp only [answer, ofLearner]
    exact book_onLearner h _

end Book

/-- The next handle is given out, unless words have run out. -/
theorem create_apply (cache : List Matrix) (w : Workshop) :
    create cache w =
      match Handle.ofRaw? w.next with
      | none => (.error .handlesExhausted, { w with next := w.next + 1 })
      | some h =>
        (.ok h, { w with
          next := w.next + 1
          learners := (h, .create cache) :: w.learners
          created := w.created + 1 }) := by
  unfold create
  rw [EngineM.get_bind_apply]
  cases Handle.ofRaw? w.next with
  | none => rfl
  | some h => rfl

/-- A handle that is kept can be released. -/
theorem free_apply (hh : h ∈ w.handles) :
    free h w =
      (.ok (), { w with learners := w.learners.filter (·.1 ≠ h), freed := w.freed + 1 }) := by
  obtain ⟨entry, hentry, heq⟩ := List.mem_map.mp hh
  have hfound : ∃ l, w.learner? h = some l := by
    unfold learner?
    cases hfind : w.learners.find? (·.1 = h) with
    | none => exact absurd (decide_eq_true heq) (List.find?_eq_none.mp hfind entry hentry)
    | some found => exact ⟨found.2, rfl⟩
  obtain ⟨l, hl⟩ := hfound
  unfold free
  rw [EngineM.get_bind_apply]
  simp only [hl]
  rfl

/-- A release does not change what was given out, nor what comes next. -/
theorem counters_free (h : Handle) (w : Workshop) :
    (free h w).2.created = w.created ∧ (free h w).2.next = w.next := by
  unfold free
  rw [EngineM.get_bind_apply]
  cases w.learner? h with
  | none => exact ⟨rfl, rfl⟩
  | some l => exact ⟨rfl, rfl⟩

/-- The local engine, which has given out some handles, keeps a model for each of them that
is held, and has counted what it did. -/
structure Keeps (w : Workshop) (issued held : List Handle) : Prop where
  created : w.created = issued.length
  handles : issued.Nodup → w.handles.Perm held
  counted : issued.Nodup → w.live + w.freed = w.created

namespace Keeps

variable {issued held : List Handle}

/-- A handle that is given out is kept and held. -/
theorem create (hw : w.Keeps issued held) (cache : List Matrix) :
    let new := (Workshop.create cache w).1.toOption.toList
    (Workshop.create cache w).2.Keeps (issued ++ new) (held ++ new) := by
  rw [create_apply]
  cases hnext : Handle.ofRaw? w.next with
  | none =>
    simp only [Except.toOption, Option.toList_none, List.append_nil]
    exact ⟨hw.created, hw.handles, hw.counted⟩
  | some h =>
    simp only [Except.toOption, Option.toList_some]
    have hold (hfresh : (issued ++ [h]).Nodup) : issued.Nodup := (List.nodup_append.mp hfresh).1
    refine ⟨?_, ?_, ?_⟩
    · rw [List.length_append]
      exact congrArg (· + 1) hw.created
    · intro hfresh
      exact ((hw.handles (hold hfresh)).cons h).trans (List.perm_append_singleton h held).symm
    · intro hfresh
      have hcounted := hw.counted (hold hfresh)
      show w.live + 1 + w.freed = w.created + 1
      omega

theorem live_eq {w' : Workshop} (h : w'.handles = w.handles) : w'.live = w.live := by
  have hlength := congrArg List.length h
  rwa [Workshop.handles, Workshop.handles, List.length_map, List.length_map] at hlength

theorem answer (hw : w.Keeps issued held) (h : Handle) (r : Request) :
    (Workshop.answer h r w).2.Keeps issued held := by
  obtain ⟨hhandles, hrest⟩ := Prod.mk.inj (book_answer h r w rfl)
  obtain ⟨-, hrest⟩ := Prod.mk.inj hrest
  obtain ⟨hcreated, hfreed⟩ := Prod.mk.inj hrest
  refine ⟨hcreated.trans hw.created, ?_, ?_⟩
  · intro hfresh
    rw [hhandles]
    exact hw.handles hfresh
  · intro hfresh
    rw [live_eq hhandles, hfreed, hcreated]
    exact hw.counted hfresh

/-- A handle that is held is kept, so it can be released. -/
theorem free {before after : List Handle} (hw : w.Keeps issued (before ++ h :: after))
    (honce : issued.Nodup → (before ++ h :: after).Nodup) :
    (Workshop.free h w).2.Keeps issued (before ++ after) := by
  have hfreed (hfresh : issued.Nodup) :=
    free_apply ((hw.handles hfresh).mem_iff.mpr (List.mem_append_right before List.mem_cons_self))
  -- Of the handles that are kept, all but this one are left.
  have hleft (hfresh : issued.Nodup) : (Workshop.free h w).2.handles.Perm (before ++ after) := by
    have hkept := (hw.handles hfresh).trans List.perm_middle
    have hnodup : w.handles.Nodup := (hw.handles hfresh).nodup_iff.mpr (honce hfresh)
    have hfilter : (w.learners.filter (·.1 ≠ h)).map (·.1) = w.handles.erase h := by
      rw [hnodup.erase_eq_filter, Workshop.handles, List.filter_map]
      congr 1
      exact List.filter_congr fun entry _ => decide_not
    have herase := hkept.erase h
    rw [List.erase_cons_head, ← hfilter] at herase
    rw [hfreed hfresh]
    exact herase
  refine ⟨(counters_free h w).1.trans hw.created, hleft, ?_⟩
  intro hfresh
  have hcounted := hw.counted hfresh
  have hbefore := (hw.handles hfresh).length_eq
  have hafter := (hleft hfresh).length_eq
  rw [hfreed hfresh] at hafter ⊢
  simp only [Workshop.handles, live, List.length_map, List.length_append, List.length_cons]
    at hcounted hbefore hafter ⊢
  omega

end Keeps

/-- The local engine, which was asked for a number of models, numbers their handles. -/
structure Numbers (w : Workshop) (asked : Nat) (issued : List Handle) : Prop where
  next : w.next = UInt64.ofNat (asked + 1)
  /-- Until the counter comes around, the handles are the first numbers. -/
  issued : asked < UInt64.size → issued.map (·.raw.toNat) = List.range' 1 asked

namespace Numbers

variable {issued : List Handle} {asked : Nat}

theorem create (hw : w.Numbers asked issued) (cache : List Matrix) :
    (Workshop.create cache w).2.Numbers (asked + 1)
      (issued ++ (Workshop.create cache w).1.toOption.toList) := by
  rw [create_apply]
  have hmoved : w.next + 1 = UInt64.ofNat (asked + 1 + 1) := by
    rw [hw.next]
    exact (UInt64.ofNat_add _ 1).symm
  have hword (hlt : asked + 1 < UInt64.size) : w.next.toNat = asked + 1 := by
    rw [hw.next]
    exact UInt64.toNat_ofNat_of_lt' hlt
  cases hraw : Handle.ofRaw? w.next with
  | none =>
    refine ⟨hmoved, fun hlt => ?_⟩
    -- The counter is at zero only when it has come around.
    have hzero : w.next = 0 := by
      unfold Handle.ofRaw? at hraw
      split at hraw
      · cases hraw
      next hnot => exact Decidable.not_not.mp hnot
    have hcount := hword hlt
    rw [hzero] at hcount
    cases hcount
  | some h =>
    have hh : h.raw = w.next := by
      unfold Handle.ofRaw? at hraw
      split at hraw
      · cases hraw
        rfl
      · cases hraw
    refine ⟨hmoved, fun hlt => ?_⟩
    simp only [Except.toOption, Option.toList_some, List.map_append, List.map_singleton]
    rw [hw.issued (Nat.lt_of_succ_lt hlt), hh, hword hlt, List.range'_concat, Nat.one_mul,
      Nat.add_comm]

/-- Before the counter comes around, no handle is given out twice. -/
theorem nodup (hw : w.Numbers asked issued) (hlt : asked < UInt64.size) : issued.Nodup :=
  List.Nodup.of_map _ (hw.issued hlt ▸ List.nodup_range')

end Numbers

end Workshop

namespace Ledger

variable {x y : Ledger Workshop}

def workshop (x : Ledger Workshop) : Workshop := x.engine.inner.inner

/-- The local engine keeps the models of the handles that are held. -/
theorem keeps_of_move (hx : x.workshop.Keeps x.issued x.held) (hbooks : x.Accounted)
    (h : Move Workshop.engine x y) : y.workshop.Keeps y.issued y.held := by
  cases h with
  | @created s t held cache created hcreate =>
    obtain ⟨-, hissued, hinner⟩ := create_watched hcreate
    have hkeeps := hx.create cache
    have hinner : Workshop.create cache s.inner.inner = (created, t.inner.inner) := hinner
    show t.inner.inner.Keeps t.inner.issued _
    rw [hissued]
    simpa only [workshop, hinner, issued] using hkeeps
  | asked hh r => exact hx.answer _ r
  | freed h => exact hx.free hbooks.nodup_held

theorem keeps_of_moves (hx : x.workshop.Keeps x.issued x.held) (hbooks : x.Accounted)
    (h : Moves Workshop.engine x y) : y.workshop.Keeps y.issued y.held := by
  induction h with
  | refl => exact hx
  | tail hfirst hlast ih => exact keeps_of_move ih (hbooks.of_moves hfirst) hlast

theorem numbers_of_move
    (hx : x.workshop.Numbers (x.calls.countP Call.creates) x.issued)
    (h : Move Workshop.engine x y) :
    y.workshop.Numbers (y.calls.countP Call.creates) y.issued := by
  cases h with
  | @created s t held cache created hcreate =>
    obtain ⟨hcalls, hissued, hinner⟩ := create_watched hcreate
    have hinner : Workshop.create cache s.inner.inner = (created, t.inner.inner) := hinner
    have hnumbers := hx.create cache
    show t.inner.inner.Numbers (t.calls.countP Call.creates) t.inner.issued
    have hone : [Call.create cache].countP Call.creates = 1 := rfl
    rw [hcalls, hissued, List.countP_append, hone]
    simpa only [workshop, hinner, issued, calls] using hnumbers
  | @asked s held h hh r =>
    have hnext := congrArg (·.2.1) (Workshop.book_answer h r s.inner.inner rfl)
    show Workshop.Numbers _ ((s.calls ++ [Call.request h r]).countP Call.creates) s.inner.issued
    rw [List.countP_append]
    exact ⟨hnext.trans hx.next, hx.issued⟩
  | @freed s before after h =>
    show Workshop.Numbers _ ((s.calls ++ [Call.free h]).countP Call.creates) s.inner.issued
    rw [List.countP_append]
    exact ⟨(Workshop.counters_free h _).2.trans hx.next, hx.issued⟩

theorem numbers_of_moves
    (hx : x.workshop.Numbers (x.calls.countP Call.creates) x.issued)
    (h : Moves Workshop.engine x y) :
    y.workshop.Numbers (y.calls.countP Call.creates) y.issued := by
  induction h with
  | refl => exact hx
  | tail _ hlast ih => exact numbers_of_move ih hlast

end Ledger

end BoostedTrees
