import OpenArangoDBCore.Lib.CounterMode

/-!
# Cells that are written at positions

Data written at a position goes over what was there. A store whose cells are
combined with a stream, each with the element of its own position, takes the
same writes as the plain one, and what is read of it is combined back.
-/

namespace OpenArangoDBCore.Overlay
open CounterMode
variable {α β : Type}

/-- A cell that was never written is `none`. -/
abbrev Cells (α : Type) := ℕ → Option α

def Cells.empty : Cells α := fun _ => none

def write (cells : Cells α) (pos : ℕ) (data : List α) : Cells α := fun i =>
  if pos ≤ i then data[i - pos]?.or (cells i) else cells i

/-- The data is what the cells from the position on hold. -/
def Holds (cells : Cells α) (pos : ℕ) (data : List α) : Prop :=
  ∀ j, j < data.length → cells (pos + j) = data[j]?

/-! ### Combined with a stream -/

section Coded
variable (f : α → β → α) (stream : ℕ → β)

/-- Cell by cell, one store is the other combined with the stream. -/
def Coded (plain stored : Cells α) : Prop := ∀ i, stored i = (plain i).map fun x => f x (stream i)

variable {f stream} {plain stored : Cells α} {pos : ℕ} {data : List α}

theorem coded_empty : Coded f stream Cells.empty Cells.empty := fun _ => rfl

theorem getElem?_combineFrom (j : ℕ) :
    (combineFrom f stream pos data)[j]? = data[j]?.map fun x => f x (stream (pos + j)) := by
  unfold combineFrom
  rw [List.getElem?_mapIdx]

theorem Coded.write (h : Coded f stream plain stored) (pos : ℕ) (data : List α) :
    Coded f stream (write plain pos data) (write stored pos (combineFrom f stream pos data)) := by
  intro i
  unfold Overlay.write
  split
  next hpos =>
    rw [getElem?_combineFrom, Nat.add_sub_cancel' hpos, h i]
    cases data[i - pos]? <;> rfl
  next => exact h i

/-- What is read and combined once more is what was written. -/
theorem Coded.read (h : Coded f stream plain stored) (hf : ∀ x y, f (f x y) y = x)
    (hheld : Holds stored pos data) : Holds plain pos (combineFrom f stream pos data) := by
  intro j hj
  rw [combineFrom_length] at hj
  rw [getElem?_combineFrom, ← hheld j hj, h (pos + j), Option.map_map]
  cases plain (pos + j) with
  | none => rfl
  | some x =>
    show some x = some (f (f x (stream (pos + j))) (stream (pos + j)))
    rw [hf]

end Coded

end OpenArangoDBCore.Overlay
