import BoostedTrees.Learner.Basic
import BoostedTrees.Engine.Basic

/-!
# Calls, taken apart

A call takes a state to an answer and a state. Its parts are run one after another
(`EngineM.bind_apply`). A call preserves what each of its parts preserves
(`EngineM.Preserves`), and two calls are compared part by part: `EngineM.Related` says
that, started from related states, they end alike.
-/

namespace BoostedTrees

/-- Steps that end well have all ended well. -/
theorem Except.bind_eq_ok {ε α β : Type} {x : Except ε α} {f : α → Except ε β} {b : β}
    (h : x >>= f = .ok b) : ∃ a, x = .ok a ∧ f a = .ok b := by
  rcases x with e | a
  · cases h
  · exact ⟨a, rfl, h⟩

/-- Of steps that fail, it is the first or one that follows. -/
theorem Except.bind_eq_error {ε α β : Type} {x : Except ε α} {f : α → Except ε β} {e : ε}
    (h : x >>= f = .error e) : x = .error e ∨ ∃ a, x = .ok a ∧ f a = .error e := by
  rcases x with e' | a
  · cases h
    exact .inl rfl
  · exact .inr ⟨a, rfl, h⟩

/-- Where every call for an element gives a value, the calls for a list give all values. -/
theorem List.mapM_eq_pure {m : Type → Type} [Monad m] [LawfulMonad m] {α β : Type} {f : α → m β}
    {g : α → β} {l : List α} (h : ∀ a ∈ l, f a = pure (g a)) : l.mapM f = pure (l.map g) := by
  induction l with
  | nil => rfl
  | cons a l ih =>
    obtain ⟨ha, hl⟩ := List.forall_mem_cons.mp h
    simp only [List.mapM_cons, ha, ih hl, pure_bind, List.map_cons]

namespace EngineM

variable {σ α β γ δ : Type}

/-! ## Running a call -/

theorem bind_apply (x : EngineM σ α) (f : α → EngineM σ β) (s : σ) :
    (x >>= f) s = match x s with
      | (.ok a, t) => f a t
      | (.error e, t) => (.error e, t) := by
  simp only [bind, ExceptT.bind, ExceptT.mk, StateT.bind]
  rcases x s with ⟨a | a, t⟩ <;> rfl

theorem get_apply (s : σ) : (get : EngineM σ σ) s = (.ok s, s) := rfl

theorem modify_apply (f : σ → σ) (s : σ) :
    (modify f : EngineM σ PUnit) s = (.ok ⟨⟩, f s) := rfl

theorem lift_apply (x : StateM σ α) (s : σ) :
    (liftM x : EngineM σ α) s = (.ok (x s).1, (x s).2) := rfl

theorem check_apply (f : Learner → Except EngineError α) (l : Learner) :
    Learner.check f l = (f l, l) := by
  simp only [Learner.check, bind_apply, get_apply]
  cases f l <;> rfl

theorem get_bind_apply (f : σ → EngineM σ β) (s : σ) : (get >>= f) s = f s s := rfl

theorem modify_bind_apply (f : σ → σ) (g : PUnit → EngineM σ β) (s : σ) :
    (modify f >>= g) s = g ⟨⟩ (f s) := rfl

/-- To show something of what a call of two parts ends in, show it of the failures of the
first part, and of the second part where the first one ends well. -/
theorem bind_ends {P : Except EngineError β × σ → Prop} {x : EngineM σ α}
    {f : α → EngineM σ β} {s : σ} (herror : ∀ e t, x s = (.error e, t) → P (.error e, t))
    (hok : ∀ a t, x s = (.ok a, t) → P (f a t)) : P ((x >>= f) s) := by
  rw [bind_apply]
  rcases h : x s with ⟨e | a, t⟩
  · exact herror e t h
  · exact hok a t h

theorem check_bind_ends {P : Except EngineError β × Learner → Prop}
    {g : Learner → Except EngineError α} {f : α → EngineM Learner β} {l : Learner}
    (herror : ∀ e, g l = .error e → P (.error e, l)) (hok : ∀ a, g l = .ok a → P (f a l)) :
    P ((Learner.check g >>= f) l) := by
  rw [bind_apply, check_apply]
  cases h : g l with
  | error e => exact herror e h
  | ok a => exact hok a h

/-! ## Preserving a property of the state -/

/-- Whether the call ends well or fails, the property holds afterwards if it held before. -/
def Preserves (P : σ → Prop) (x : EngineM σ α) : Prop := ∀ s, P s → P (x s).2

namespace Preserves

variable {P : σ → Prop}

theorem bind {x : EngineM σ α} {f : α → EngineM σ β} (hx : Preserves P x)
    (hf : ∀ a, Preserves P (f a)) : Preserves P (x >>= f) := by
  intro s hs
  refine bind_ends (P := fun p => P p.2) (fun e t ht => ?_) fun a t ht => ?_
  · simpa only [ht] using hx s hs
  · have hmid : P t := by simpa only [ht] using hx s hs
    exact hf a t hmid

theorem pure (a : α) : Preserves P (pure a) := fun _ hs => hs

theorem throw (e : EngineError) : Preserves P (throw e : EngineM σ α) := fun _ hs => hs

theorem get : Preserves P get := fun _ hs => hs

theorem modify {f : σ → σ} (h : ∀ s, P s → P (f s)) :
    Preserves P (modify f : EngineM σ PUnit) := h

theorem check {P : Learner → Prop} (f : Learner → Except EngineError α) :
    Preserves P (Learner.check f) := by
  intro l hl
  rw [check_apply]
  exact hl

end Preserves

/-! ## Comparing two calls -/

/-- Two answers are alike if they are the same error or values that are related. -/
def Alike (V : α → β → Prop) : Except EngineError α → Except EngineError β → Prop
  | .ok a, .ok b => V a b
  | .error e, .error f => e = f
  | _, _ => False

theorem alike_eq_iff {a b : Except EngineError α} : Alike Eq a b ↔ a = b := by
  rcases a with a | a <;> rcases b with b | b <;> simp [Alike]

theorem alike_refl (a : Except EngineError α) : Alike Eq a a := alike_eq_iff.mpr rfl

theorem Alike.bind {V : α → β → Prop} {W : γ → δ → Prop} {x : Except EngineError α}
    {y : Except EngineError β} {f : α → Except EngineError γ} {g : β → Except EngineError δ}
    (h : Alike V x y) (hfg : ∀ a b, V a b → Alike W (f a) (g b)) : Alike W (x >>= f) (y >>= g) := by
  rcases x with e | a <;> rcases y with e' | b
  · exact h
  · exact False.elim h
  · exact False.elim h
  · exact hfg a b h

/-- From related states, two calls answer alike and leave related states. -/
def Related (R : σ → σ → Prop) (V : α → β → Prop) (x : EngineM σ α) (y : EngineM σ β) : Prop :=
  ∀ ⦃s t⦄, R s t → Alike V (x s).1 (y t).1 ∧ R (x s).2 (y t).2

namespace Related

variable {R : σ → σ → Prop} {V : α → β → Prop} {W : γ → δ → Prop}

theorem bind {x : EngineM σ α} {y : EngineM σ β} {f : α → EngineM σ γ} {g : β → EngineM σ δ}
    (h : Related R V x y) (hfg : ∀ a b, V a b → Related R W (f a) (g b)) :
    Related R W (x >>= f) (y >>= g) := by
  intro s t hst
  have h := h hst
  simp only [bind_apply]
  generalize x s = p at h
  generalize y t = q at h
  obtain ⟨hv, hr⟩ := h
  -- Either both first parts fail alike, or the second parts start from related states.
  rcases p with ⟨e | a, s'⟩ <;> rcases q with ⟨e' | b, t'⟩
  · exact ⟨hv, hr⟩
  · exact False.elim hv
  · exact False.elim hv
  · exact hfg a b hv hr

theorem pure {a : α} {b : β} (h : V a b) : Related R V (pure a) (pure b) :=
  fun _ _ hst => ⟨h, hst⟩

theorem throw (e : EngineError) : Related R V (throw e) (throw e) := fun _ _ hst => ⟨rfl, hst⟩

theorem get : Related R R get get := fun _ _ hst => ⟨hst, hst⟩

theorem set {s t : σ} (h : R s t) :
    Related R Eq (MonadStateOf.set s : EngineM σ PUnit) (MonadStateOf.set t : EngineM σ PUnit) :=
  fun _ _ _ => ⟨rfl, h⟩

theorem modify {f g : σ → σ} (h : ∀ s t, R s t → R (f s) (g t)) :
    Related R Eq (modify f : EngineM σ PUnit) (modify g : EngineM σ PUnit) :=
  fun _ _ hst => ⟨rfl, h _ _ hst⟩

theorem lift {x : StateM σ α} {y : StateM σ β}
    (h : ∀ s t, R s t → V (x s).1 (y t).1 ∧ R (x s).2 (y t).2) :
    Related R V (liftM x : EngineM σ α) (liftM y : EngineM σ β) := fun _ _ hst => h _ _ hst

theorem check {R : Learner → Learner → Prop} {f : Learner → Except EngineError α}
    {g : Learner → Except EngineError β} (h : ∀ l l', R l l' → Alike V (f l) (g l')) :
    Related R V (Learner.check f) (Learner.check g) := by
  intro l l' hl
  simp only [check_apply]
  exact ⟨h l l' hl, hl⟩

theorem check_of_eq {R : Learner → Learner → Prop} {f g : Learner → Except EngineError α}
    (h : ∀ l l', R l l' → f l = g l') : Related R Eq (Learner.check f) (Learner.check g) :=
  check fun l l' hl => alike_eq_iff.mpr (h l l' hl)

end Related

end EngineM

end BoostedTrees
