import BoostedTrees.Matrix
import BoostedTrees.Engine.Error

/-!
# What stands beside the features

A matrix takes labels, weights, query groups and starting margins as they come. Here
is what they mean, and the check that they fit the rows, which training and
evaluation make first.
-/

namespace BoostedTrees

/-- A run of consecutive rows. -/
structure Span where
  start : Nat
  length : Nat
deriving DecidableEq

namespace Span

def stop (s : Span) : Nat := s.start + s.length

/-- The runs of the given lengths, one after another. -/
def chain : (start : Nat) → (lengths : List Nat) → List Span
  | _, [] => []
  | start, length :: rest => ⟨start, length⟩ :: chain (start + length) rest

/-- The part of an array that belongs to the run. -/
def slice {α : Type} (s : Span) (values : Array α) : Array α := values.extract s.start s.stop

end Span

namespace Matrix

variable (m : Matrix)

/-- The lengths of the query groups. Without groups, all rows are one. -/
def groupLengths : List Nat :=
  if m.groups.isEmpty then [m.rows] else m.groups.map (·.toNat)

/-- How many rows the query groups cover. -/
def coveredRows : Nat := m.groupLengths.foldl (· + ·) 0

/-- The rows of every query group. -/
def groupSpans : List Span := Span.chain 0 m.groupLengths

/-- The weight of a row, which is one unless every row has a weight. -/
def rowWeight (i : Nat) : Single :=
  if m.weights.size = m.rows then m.weights.getD i 1 else 1

/-- The weight of a query group, which is one unless every group has a weight. -/
def groupWeight (q : Nat) : Single :=
  if m.weights.size = m.groups.length ∧ m.groups ≠ [] then m.weights.getD q 1 else 1

def label (i : Nat) : Single := m.labels.getD i 0

/-- Checks that groups, labels, weights and starting margins fit the rows. -/
def checkMetadata (outputs : Nat) : Except EngineError Unit :=
  let weights := m.weights.size
  let margins := m.baseMargin.size
  if m.coveredRows ≠ m.rows then .error (.groupTotal m.coveredRows m.rows)
  else if m.labels.size ≠ m.rows then .error (.labelCount m.labels.size m.rows)
  else if weights ≠ 0 ∧ weights ≠ m.rows ∧ weights ≠ m.groups.length then
    .error (.weightCount weights m.rows m.groups.length)
  else if margins ≠ 0 ∧ margins ≠ entryCount m.rows outputs then
    .error (.baseMarginSize margins (entryCount m.rows outputs))
  else .ok ()

end Matrix

end BoostedTrees
