import BoostedTrees.Proofs.HandleLedger
import BoostedTrees.Proofs.LeaseOperations

/-!
# Every handle is released once

Leases are opened, worked with, disposed of and dropped in any order, on an engine that may
refuse anything at any time. A handle that the engine has given out is then either held
by one lease or was released by one call, and it is never used again after that call.

## Main definitions

* `Session`: an engine and the leases on it
* `Session.GivesUp`: an action by which a handle loses its owner

## Main results

* `Session.moves_step`: all that a session does to its books are entries
* `Session.released_once`: no handle is released twice, or used after its release
-/

namespace BoostedTrees

/-! ## Giving a lease up -/

namespace Lease

variable {σ : Type} {e : Engine σ}

/-- A lease that was disposed of holds nothing, whatever the engine has answered. -/
theorem handle?_dispose (l : Lease) (s : σ) : (l.dispose e s).1.2.handle? = none := by
  unfold dispose
  cases hh : l.handle? with
  | none => exact hh
  | some h => rfl

/-- Disposing of a lease that holds nothing ends well, without a call. -/
theorem dispose_of_isNone {l : Lease} (h : l.handle? = none) (s : σ) :
    l.dispose e s = ((.ok (), l), s) := by
  unfold dispose
  rw [h]
  rfl

/-- So does dropping it. -/
theorem drop_of_isNone {l : Lease} (h : l.handle? = none) (s : σ) : l.drop e s = ((), s) := by
  show ((), (l.dispose e s).2) = ((), s)
  rw [dispose_of_isNone h]

end Lease

/-! ## Sessions -/

/-- An engine and the leases on it, each until it is dropped. -/
structure Session (σ : Type) where
  engine : Recorded (Issuing σ)
  leases : List (Option Lease)

/-- What is done in a session. Leases are numbered in the order in which they are opened. -/
inductive Act where
  | acquire (o : Lease.Opening)
  | perform (i : Nat) (o : Lease.Operation)
  | setVersion (i : Nat) (version : Int32)
  | dispose (i : Nat)
  | drop (i : Nat)

namespace Session

variable {σ : Type} {e : Engine σ} {x : Session σ}

/-- No lease yet. -/
def start (s : σ) : Session σ := ⟨⟨⟨s, []⟩, []⟩, []⟩

/-- The lease of a number, until it is dropped. -/
def lease? (x : Session σ) (i : Nat) : Option Lease := x.leases[i]?.join

/-- The session with what came of opening a lease. -/
def opened (x : Session σ) (result : Option Lease × Recorded (Issuing σ)) : Session σ :=
  ⟨result.2, x.leases ++ result.1.toList.map some⟩

/-- Does something with a lease, if it is there. -/
def onLease (x : Session σ) (i : Nat) (f : Lease → Session σ) : Session σ :=
  match x.lease? i with
  | none => x
  | some l => f l

/-- The session after one thing was done. -/
def step (e : Engine σ) (x : Session σ) : Act → Session σ
  | .acquire o => x.opened (o.run e.watched x.engine)
  | .perform i o => x.onLease i fun l => { x with engine := (l.perform e.watched o x.engine).2 }
  | .setVersion i version =>
    x.onLease i fun l => { x with leases := x.leases.set i (some { l with version }) }
  | .dispose i =>
    x.onLease i fun l =>
      ⟨(l.dispose e.watched x.engine).2,
        x.leases.set i (some (l.dispose e.watched x.engine).1.2)⟩
  | .drop i =>
    x.onLease i fun l => ⟨(l.drop e.watched x.engine).2, x.leases.set i none⟩

/-- The session that is left by a list of things to do. -/
def after (e : Engine σ) (x : Session σ) (acts : List Act) : Session σ := acts.foldl (step e) x

/-- The handles of the leases that are neither disposed of nor dropped. -/
def held (x : Session σ) : List Handle := x.leases.filterMap fun l? => l?.bind Lease.handle?

def calls (x : Session σ) : List Call := x.engine.calls

/-- The handles that the engine has given out. -/
def issued (x : Session σ) : List Handle := x.engine.inner.issued

def ledger (x : Session σ) : Ledger σ := ⟨x.engine, x.held⟩

/-! ### What is held -/

theorem filterMap_append_cons {α β : Type} (f : α → Option β) (before after : List α) (a : α) :
    (before ++ a :: after).filterMap f =
      before.filterMap f ++ (f a).toList ++ after.filterMap f := by
  rw [List.filterMap_append, List.append_assoc]
  cases hf : f a with
  | none => rw [List.filterMap_cons_none hf, Option.toList_none, List.nil_append]
  | some b => rw [List.filterMap_cons_some hf, Option.toList_some, List.singleton_append]

/-- The place of a lease among the handles that are held, and what is held when something
else stands in that place. -/
theorem held_set {i : Nat} {l : Lease} (hl : x.lease? i = some l) :
    ∃ before after, x.held = before ++ l.handle?.toList ++ after ∧
      ∀ (s : Recorded (Issuing σ)) (l? : Option Lease),
        held ⟨s, x.leases.set i l?⟩ = before ++ (l?.bind Lease.handle?).toList ++ after := by
  obtain ⟨hi, hget⟩ := List.getElem?_eq_some_iff.mp (Option.join_eq_some_iff.mp hl)
  have hall : x.leases = x.leases.take i ++ some l :: x.leases.drop (i + 1) := by
    rw [← hget, List.getElem_cons_drop, List.take_append_drop]
  refine ⟨_, _, (congrArg (List.filterMap _) hall).trans (filterMap_append_cons _ _ _ _), ?_⟩
  intro s l?
  unfold held
  rw [List.set_eq_take_append_cons_drop, if_pos hi, filterMap_append_cons]

/-- Requests about a handle that is held are entries in the books. -/
theorem moves_of_asks {l : Lease} {s t : Recorded (Issuing σ)} {held : List Handle}
    (hheld : ∀ h, l.handle? = some h → h ∈ held) (h : l.Asks e.watched s t) :
    Ledger.Moves e ⟨s, held⟩ ⟨t, held⟩ := by
  induction h with
  | refl => exact .refl
  | tail _ hlast ih =>
    obtain ⟨h, r, hh, rfl⟩ := hlast
    exact ih.tail (.asked (hheld h hh) r)

/-- Giving a lease up releases its handle, if it holds one. -/
theorem moves_dispose (l : Lease) (s : Recorded (Issuing σ)) (before after : List Handle) :
    Ledger.Moves e ⟨s, before ++ l.handle?.toList ++ after⟩
      ⟨(l.dispose e.watched s).2, before ++ after⟩ := by
  unfold Lease.dispose
  cases hh : l.handle? with
  | none =>
    rw [Option.toList_none, List.append_nil]
    exact .refl
  | some h =>
    rw [Option.toList_some, List.append_assoc, List.singleton_append]
    exact .single (.freed h)

theorem moves_onLease {i : Nat} {f : Lease → Session σ}
    (h : ∀ l, x.lease? i = some l → Ledger.Moves e x.ledger (f l).ledger) :
    Ledger.Moves e x.ledger (x.onLease i f).ledger := by
  unfold onLease
  cases hl : x.lease? i with
  | none => exact .refl
  | some l => exact h l hl

theorem held_opened (x : Session σ) (result : Option Lease × Recorded (Issuing σ)) :
    (x.opened result).held = x.held ++ (result.1.bind Lease.handle?).toList := by
  unfold held opened
  cases result.1 with
  | none => rw [Option.toList_none, List.map_nil, List.append_nil]; exact (List.append_nil _).symm
  | some l =>
    rw [List.filterMap_append]
    cases hh : l.handle? <;> simp [hh]

/-- Opening a lease makes entries in the books, in the end one that releases the handle if
no lease holds it. -/
theorem moves_opened {result : Option Lease × Recorded (Issuing σ)}
    (h : Lease.Opened e.watched x.engine result) :
    Ledger.Moves e x.ledger (x.opened result).ledger := by
  have hmine : ∀ (held : List Handle) (h : Handle), ∀ h', some h = some h' → h' ∈ held ++ [h] := by
    rintro held h h' ⟨⟩
    exact List.mem_append_right _ List.mem_cons_self
  unfold ledger
  cases h with
  | refused =>
    rw [held_opened, Option.bind_none, Option.toList_none, List.append_nil]
    exact .refl
  | uncreated hcreate =>
    rw [held_opened]
    exact .single (.created hcreate)
  | @held cache h t u version hcreate hasks =>
    have hgranted : Ledger.Moves e x.ledger ⟨t, x.held ++ [h]⟩ := .single (.created hcreate)
    rw [held_opened]
    exact hgranted.trans (moves_of_asks (hmine x.held h) hasks)
  | @released cache h t u hcreate hasks =>
    -- While the lease is being made its handle is held, and what fails then releases it.
    have hgranted : Ledger.Moves e x.ledger ⟨t, x.held ++ [h]⟩ := .single (.created hcreate)
    rw [held_opened]
    exact (hgranted.trans (moves_of_asks (hmine x.held h) hasks)).tail (.freed h)

/-- All that a session does to its books are entries. -/
theorem moves_step (e : Engine σ) (x : Session σ) (a : Act) :
    Ledger.Moves e x.ledger (x.step e a).ledger := by
  cases a with
  | acquire o => exact moves_opened (Lease.opened_run e.watched o x.engine)
  | perform i o =>
    refine moves_onLease fun l hl => ?_
    obtain ⟨before, after, hheld, -⟩ := held_set hl
    refine moves_of_asks (fun h hh => ?_) (Lease.onlyAsks_perform e.watched l o x.engine)
    rw [hheld, hh]
    exact List.mem_append_left _ (List.mem_append_right _ List.mem_cons_self)
  | setVersion i version =>
    refine moves_onLease fun l hl => ?_
    obtain ⟨before, after, hheld, hset⟩ := held_set hl
    unfold ledger
    rw [hheld, hset]
    exact .refl
  | dispose i =>
    refine moves_onLease fun l hl => ?_
    obtain ⟨before, after, hheld, hset⟩ := held_set hl
    unfold ledger
    rw [hheld, hset, Option.bind_some, Lease.handle?_dispose, Option.toList_none, List.append_nil]
    exact moves_dispose l x.engine before after
  | drop i =>
    refine moves_onLease fun l hl => ?_
    obtain ⟨before, after, hheld, hset⟩ := held_set hl
    unfold ledger
    rw [hheld, hset, Option.bind_none, Option.toList_none, List.append_nil]
    exact moves_dispose l x.engine before after

theorem moves_after (e : Engine σ) (x : Session σ) (acts : List Act) :
    Ledger.Moves e x.ledger (x.after e acts).ledger := by
  induction acts generalizing x with
  | nil => exact .refl
  | cons a acts ih => exact (moves_step e x a).trans (ih (x.step e a))

theorem accounted_start (s : σ) : (start s).ledger.Accounted where
  balance _ := rfl
  final _ := List.Pairwise.nil

/-- The books of every session balance. -/
theorem accounted_after (e : Engine σ) (s : σ) (acts : List Act) :
    ((start s).after e acts).ledger.Accounted :=
  (accounted_start s).of_moves (moves_after e (start s) acts)

/-! ### What is given up -/

/-- An action by which a handle loses its owner: a lease that holds it is disposed of or
dropped, or it is given out for a lease that cannot be opened. -/
def GivesUp (e : Engine σ) (x : Session σ) (h : Handle) : Act → Prop
  | .acquire o =>
    (o.run e.watched x.engine).1 = none ∧ h ∈ (x.step e (.acquire o)).issued ∧ h ∉ x.issued
  | .dispose i => ∃ l, x.lease? i = some l ∧ l.handle? = some h
  | .drop i => ∃ l, x.lease? i = some l ∧ l.handle? = some h
  | _ => False

/-- Where a lease holds a handle, no other lease holds it. -/
theorem not_mem_held_set (hx : x.ledger.Accounted) (hfresh : x.issued.Nodup) {i : Nat}
    {l : Lease} {h : Handle} (hl : x.lease? i = some l) (hh : l.handle? = some h)
    (s : Recorded (Issuing σ)) (l? : Option Lease) (hnone : l?.bind Lease.handle? = none) :
    h ∈ x.issued ∧ h ∉ held ⟨s, x.leases.set i l?⟩ := by
  obtain ⟨before, after, hheld, hset⟩ := held_set hl
  rw [hh, Option.toList_some, List.append_assoc, List.singleton_append] at hheld
  have hmem : h ∈ x.held := by
    rw [hheld]
    exact List.mem_append_right _ List.mem_cons_self
  -- Handles that are all different are held once each, so this place is the only one.
  have honce : (before ++ h :: after).Nodup := hheld ▸ hx.nodup_held hfresh
  constructor
  · by_contra hnot
    exact (hx.of_not_mem hnot).2 hmem
  · rw [hset, hnone, Option.toList_none, List.append_nil]
    exact (List.nodup_cons.mp (List.nodup_middle.mp honce)).1

/-- What an action gives up was given out, and is not held after it. -/
theorem GivesUp.spec {h : Handle} {a : Act} (ha : x.GivesUp e h a) (hx : x.ledger.Accounted)
    (hfresh : x.issued.Nodup) : h ∈ (x.step e a).issued ∧ h ∉ (x.step e a).held := by
  have hgrown : x.issued <+: (x.step e a).issued := (moves_step e x a).extends.2
  cases a with
  | acquire o =>
    obtain ⟨hnone, hissued, hnew⟩ := ha
    refine ⟨hissued, ?_⟩
    rw [step, held_opened, hnone, Option.bind_none, Option.toList_none, List.append_nil]
    exact (hx.of_not_mem hnew).2
  | dispose i =>
    obtain ⟨l, hl, hh⟩ := ha
    have hlost := not_mem_held_set hx hfresh hl hh (l.dispose e.watched x.engine).2
      (some (l.dispose e.watched x.engine).1.2) (Lease.handle?_dispose l _)
    refine ⟨hgrown.subset hlost.1, ?_⟩
    simp only [step, onLease, hl]
    exact hlost.2
  | drop i =>
    obtain ⟨l, hl, hh⟩ := ha
    have hlost := not_mem_held_set hx hfresh hl hh (l.drop e.watched x.engine).2 none rfl
    refine ⟨hgrown.subset hlost.1, ?_⟩
    simp only [step, onLease, hl]
    exact hlost.2
  | perform i o => exact ha.elim
  | setVersion i version => exact ha.elim

/-! ### What is disposed of -/

/-- There is, or was, a lease of the number, and it holds nothing any more. -/
def Spent (x : Session σ) (i : Nat) : Prop :=
  i < x.leases.length ∧ ∀ l, x.lease? i = some l → l.handle? = none

/-- What takes the place of a lease holds no more than the lease. -/
theorem Spent.set {i j : Nat} {l : Lease} (h : x.Spent i) (s : Recorded (Issuing σ))
    (hl : x.lease? j = some l) {l? : Option Lease}
    (hless : ∀ l', l? = some l' → l.handle? = none → l'.handle? = none) :
    Spent ⟨s, x.leases.set j l?⟩ i := by
  obtain ⟨hi, hnone⟩ := h
  constructor
  · rw [List.length_set]
    exact hi
  · intro l' hl'
    unfold lease? at hl'
    rw [List.getElem?_set] at hl'
    by_cases hij : j = i
    · rw [if_pos hij, if_pos (hij ▸ hi)] at hl'
      exact hless l' hl' (hnone l (hij ▸ hl))
    · rw [if_neg hij] at hl'
      exact hnone l' hl'

theorem Spent.onLease {i j : Nat} {f : Lease → Session σ} (h : x.Spent i)
    (hf : ∀ l, x.lease? j = some l → (f l).Spent i) : (x.onLease j f).Spent i := by
  unfold Session.onLease
  cases hl : x.lease? j with
  | none => exact h
  | some l => exact hf l hl

/-- A lease that holds nothing never holds anything again. -/
theorem Spent.step {i : Nat} (h : x.Spent i) (e : Engine σ) (a : Act) : (x.step e a).Spent i := by
  cases a with
  | acquire o =>
    constructor
    · show i < (x.leases ++ _).length
      rw [List.length_append]
      exact Nat.lt_add_right _ h.1
    · intro l hl
      -- A lease that is opened gets a number of its own.
      refine h.2 l ?_
      unfold lease?
      rw [← List.getElem?_append_left h.1]
      exact hl
  | perform j o => exact h.onLease fun l _ => h
  | setVersion j version =>
    refine h.onLease fun l hl => h.set _ hl ?_
    rintro l' ⟨⟩ hh
    exact hh
  | dispose j =>
    refine h.onLease fun l hl => h.set _ hl ?_
    rintro l' ⟨⟩ -
    exact Lease.handle?_dispose l _
  | drop j => exact h.onLease fun l hl => h.set _ hl nofun

theorem Spent.after {i : Nat} (h : x.Spent i) (e : Engine σ) (acts : List Act) :
    (x.after e acts).Spent i := by
  induction acts generalizing x with
  | nil => exact h
  | cons a acts ih => exact ih (h.step e a)

theorem spent_dispose {i : Nat} {l : Lease} (hl : x.lease? i = some l) :
    (x.step e (.dispose i)).Spent i := by
  have hi : i < x.leases.length := (List.getElem?_eq_some_iff.mp (Option.join_eq_some_iff.mp hl)).1
  simp only [step, onLease, hl]
  constructor
  · rw [List.length_set]
    exact hi
  · intro l' hl'
    unfold lease? at hl'
    rw [List.getElem?_set_self hi] at hl'
    cases hl'
    exact Lease.handle?_dispose l _

/-! ### Whole sessions -/

theorem after_append (e : Engine σ) (x : Session σ) (acts acts' : List Act) :
    x.after e (acts ++ acts') = (x.after e acts).after e acts' := List.foldl_append

/-- What was given up in the course of a session was released, and once only. -/
theorem count_frees_of_givesUp (s : σ) {before rest : List Act} {a : Act} {h : Handle}
    (hfresh : ((start s).after e (before ++ a :: rest)).issued.Nodup)
    (ha : ((start s).after e before).GivesUp e h a) :
    ((start s).after e (before ++ a :: rest)).calls.countP (Call.frees h) = 1 := by
  rw [after_append] at hfresh ⊢
  have hbooks := accounted_after e s before
  generalize (start s).after e before = x at hfresh ha hbooks ⊢
  obtain ⟨hcalls, hissued⟩ := (moves_after e (x.step e a) rest).extends
  have hthen : (x.step e a).issued.Nodup := hfresh.sublist hissued.sublist
  have hbefore : x.issued.Nodup := hthen.sublist (moves_step e x a).extends.2.sublist
  obtain ⟨hmem, hnot⟩ := ha.spec hbooks hbefore
  have hnext := hbooks.of_moves (moves_step e x a)
  -- It was released by the end of this action, and no handle is released twice.
  have hreleased : (x.step e a).calls.countP (Call.frees h) = 1 :=
    (hnext.count_frees hthen h).trans (if_pos ⟨hmem, hnot⟩)
  have hleast : (x.step e a).calls.countP (Call.frees h) ≤
      (x.after e (a :: rest)).calls.countP (Call.frees h) := hcalls.sublist.countP_le
  have hmost : (x.after e (a :: rest)).calls.countP (Call.frees h) ≤ 1 := by
    have hbalanced := hnext.of_moves (moves_after e _ rest)
    refine Nat.le_trans (Nat.le_of_eq (hbalanced.count_frees hfresh h)) ?_
    split
    · exact Nat.le_refl 1
    · exact Nat.zero_le 1
  exact Nat.le_antisymm hmost (hreleased ▸ hleast)

/-- The state of the local engine. -/
def workshop (x : Session Workshop) : Workshop := x.engine.inner.inner

/-- Take any engine, whatever it answers, and anything that is done in a session on it, where
no handle is given out twice. A handle is released once if it was given out and no lease
holds it any more, and never else; no call that comes later is about it; and from the
moment that its lease is disposed of, is dropped, or cannot be opened, it is a handle that
was released once. Disposing of a lease again ends well, without a call, and so does
dropping it afterwards.

On the local engine, the models that are kept and those that were released make up those
that were created, and there is one for each lease that is neither disposed of nor dropped.
It gives no handle out twice unless it was asked for as many models as there are words. -/
theorem released_once (e : Engine σ) (s : σ) (acts : List Act)
    (hfresh : ((start s).after e acts).issued.Nodup) :
    let x := (start s).after e acts
    (∀ h, x.calls.countP (Call.frees h) = if h ∈ x.issued ∧ h ∉ x.held then 1 else 0) ∧
    Ledger.Final x.calls ∧
    (∀ before a rest, acts = before ++ a :: rest →
      ∀ h, ((start s).after e before).GivesUp e h a → x.calls.countP (Call.frees h) = 1) ∧
    (∀ before i rest l₀, acts = before ++ .dispose i :: rest →
      ((start s).after e before).lease? i = some l₀ → ∀ l, x.lease? i = some l →
        l.dispose e.watched x.engine = ((.ok (), l), x.engine) ∧
          l.drop e.watched x.engine = ((), x.engine)) ∧
    ∀ (files : Files) (acts : List Act),
      let y := (start { Workshop.empty with files }).after Workshop.engine acts
      (y.issued.Nodup →
        y.workshop.live + y.workshop.freed = y.workshop.created ∧
          y.workshop.live = y.held.length) ∧
      (y.calls.countP Call.creates < UInt64.size → y.issued.Nodup) := by
  intro x
  have hbooks := accounted_after e s acts
  refine ⟨hbooks.count_frees hfresh, hbooks.final hfresh, ?_, ?_, ?_⟩
  · rintro before a rest rfl h ha
    exact count_frees_of_givesUp s hfresh ha
  · rintro before i rest l₀ rfl hl₀ l hl
    have hspent : x.Spent i := by
      show ((start s).after e (before ++ .dispose i :: rest)).Spent i
      rw [after_append]
      exact (spent_dispose hl₀).after e rest
    have hnone := hspent.2 l hl
    exact ⟨Lease.dispose_of_isNone hnone x.engine, Lease.drop_of_isNone hnone x.engine⟩
  · intro files acts y
    have hmoves := moves_after Workshop.engine (start { Workshop.empty with files }) acts
    constructor
    · intro hfresh
      have hkeeps := Ledger.keeps_of_moves ⟨rfl, fun _ => .refl _, fun _ => rfl⟩
        (accounted_start _) hmoves
      have hlength := (hkeeps.handles hfresh).length_eq
      unfold Workshop.handles at hlength
      rw [List.length_map] at hlength
      exact ⟨hkeeps.counted hfresh, hlength⟩
    · intro hlt
      exact (Ledger.numbers_of_moves ⟨rfl, fun _ => rfl⟩ hmoves).nodup hlt

/-- A lease that is used and disposed of twice, and one that cannot be opened. -/
def shortSession : List Act :=
  [.acquire (.new [] []), .acquire (.buffer []), .perform 0 .roundCount, .dispose 0, .dispose 0,
    .drop 0]

theorem released_once_short :
    let x := (start Workshop.empty).after Workshop.engine shortSession
    x.issued.length = 2 ∧ x.held = [] ∧ ∀ h ∈ x.issued, x.calls.countP (Call.frees h) = 1 := by
  have hissued : ((start Workshop.empty).after Workshop.engine shortSession).issued =
      [⟨1, by decide⟩, ⟨2, by decide⟩] := rfl
  have hheld : ((start Workshop.empty).after Workshop.engine shortSession).held = [] := rfl
  refine ⟨congrArg List.length hissued, hheld, ?_⟩
  intro h hh
  have hfresh : ((start Workshop.empty).after Workshop.engine shortSession).issued.Nodup := by
    rw [hissued]
    decide
  rw [(released_once Workshop.engine Workshop.empty shortSession hfresh).1 h, hheld,
    if_pos ⟨hh, List.not_mem_nil⟩]

end Session

end BoostedTrees
