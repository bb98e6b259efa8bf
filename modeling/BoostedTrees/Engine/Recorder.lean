import BoostedTrees.Engine.Basic

/-!
# Recorded calls

An engine under a recorder answers as it would without; the recorder notes every call
before it passes it on.
-/

namespace BoostedTrees

/-- The state of a recorded engine, and its calls, the oldest first. -/
structure Recorded (σ : Type) where
  inner : σ
  calls : List Call

namespace Recorded

variable {σ α : Type}

/-- Notes a call, then makes it. -/
def noting (call : Call) (use : EngineM σ α) : EngineM (Recorded σ) α := fun s =>
  let (result, inner) := use s.inner
  (result, ⟨inner, s.calls ++ [call]⟩)

/-- The recorder changes no answer. -/
@[simp] theorem noting_fst (call : Call) (use : EngineM σ α) (s : Recorded σ) :
    (noting call use s).1 = (use s.inner).1 := rfl

@[simp] theorem calls_noting (call : Call) (use : EngineM σ α) (s : Recorded σ) :
    (noting call use s).2.calls = s.calls ++ [call] := rfl

/-- The state with no calls. -/
def cleared (s : Recorded σ) : Recorded σ := { s with calls := [] }

end Recorded

/-- The engine with every call recorded. -/
def Engine.recorded {σ : Type} (e : Engine σ) : Engine (Recorded σ) where
  create cache := Recorded.noting (.create cache) (e.create cache)
  free handle := Recorded.noting (.free handle) (e.free handle)
  answer handle r := Recorded.noting (.request handle r) (e.answer handle r)

end BoostedTrees
