import Mathlib.Data.List.Sort
import Mathlib.Tactic
import OpenArangoDBCore.Lib.Interleaving

/-!
# Early termination of top-k queries (IResearchOptimizeTopK.cpp)

Scores are elements of a linear order with a zero, since no modelled function
computes with them. The threshold manager is shared by all iterators that are
wrapped from one execution context.
-/

namespace OpenArangoDBCore.IResearch
open Interleaving

structure DocEntry (α : Type) [LE α] where
  docId : UInt64
  score : α
  maxScore : α
  bounded : score ≤ maxScore

/-- The min-heap is the ascending list of its elements: `front()` is the head,
`pop_heap` takes it away and `push_heap` inserts. -/
structure ScoreThresholdManager (α : Type) [LE α] where
  k : ℕ
  heap : List α
  ascending : heap.Pairwise (· ≤ ·)

variable {α : Type} [LinearOrder α] [Zero α]

namespace ScoreThresholdManager

def new (k : ℕ) : ScoreThresholdManager α := ⟨k, [], .nil⟩

/- `front()` of an empty heap, which only `k = 0` could ask for, is read as 0. -/
def addScore (m : ScoreThresholdManager α) (score : α) : Bool × ScoreThresholdManager α :=
  if m.heap.length < m.k then
    (true, ⟨m.k, m.heap.orderedInsert (· ≤ ·) score, m.ascending.orderedInsert score _⟩)
  else if m.heap.headD 0 < score then
    (true, ⟨m.k, m.heap.tail.orderedInsert (· ≤ ·) score, m.ascending.tail.orderedInsert score _⟩)
  else (false, m)

def threshold (m : ScoreThresholdManager α) : α :=
  if m.heap.length < m.k then 0 else m.heap.headD 0

end ScoreThresholdManager

/-- An iterator over a list of documents. `rest` comes after `current`; with
`stays` a seek to a document not behind the current one does not move. -/
structure DocListIterator (α : Type) [LE α] where
  current : Option (DocEntry α)
  rest : List (DocEntry α)
  stays : Bool

namespace DocListIterator

def new (docs : List (DocEntry α)) (stays : Bool) : DocListIterator α := ⟨none, docs, stays⟩

def next (it : DocListIterator α) : Bool × DocListIterator α :=
  match it.rest with
  | [] => (false, ⟨none, [], it.stays⟩)
  | doc :: rest => (true, ⟨some doc, rest, it.stays⟩)

def value (it : DocListIterator α) : UInt64 := it.current.elim 0 DocEntry.docId
def score (it : DocListIterator α) : α := it.current.elim 0 DocEntry.score
def maxScore (it : DocListIterator α) : α := it.current.elim 0 DocEntry.maxScore

def seek (it : DocListIterator α) (target : UInt64) : UInt64 × DocListIterator α :=
  if it.stays = true ∧ it.current.isSome = true ∧ target ≤ it.value then (it.value, it)
  else
    let it' := (next ⟨none, it.rest.dropWhile fun doc => doc.docId < target, it.stays⟩).2
    (it'.value, it')

end DocListIterator

structure WandIterator (α : Type) [LE α] where
  inner : DocListIterator α
  skipped : ℕ

namespace WandIterator
variable (manager : ScoreThresholdManager α)

/-- `while (_inner->next())` over what is left of the list. -/
def nextLoop (stays : Bool) : List (DocEntry α) → ℕ → Bool × WandIterator α
  | [], skipped => (false, ⟨⟨none, [], stays⟩, skipped⟩)
  | doc :: rest, skipped =>
    if manager.threshold ≤ doc.maxScore then (true, ⟨⟨some doc, rest, stays⟩, skipped⟩)
    else nextLoop stays rest (skipped + 1)

def next (w : WandIterator α) : Bool × WandIterator α :=
  nextLoop manager w.inner.stays w.inner.rest w.skipped

def seek (w : WandIterator α) (target : UInt64) : UInt64 × WandIterator α :=
  let (docId, inner) := w.inner.seek target
  let w' : WandIterator α := ⟨inner, w.skipped⟩
  if docId ≠ 0 ∧ inner.maxScore < manager.threshold then
    let (found, w'') := w'.next manager
    (if found then w''.inner.value else 0, w'')
  else (docId, w')

def score (w : WandIterator α) : α × ScoreThresholdManager α :=
  (w.inner.score, (manager.addScore w.inner.score).2)

/-- The loop as it is written: advance the inner iterator, then compare. -/
theorem next_loop (w : WandIterator α) : w.next manager =
    if w.inner.next.1 then
      if manager.threshold ≤ w.inner.next.2.maxScore then (true, ⟨w.inner.next.2, w.skipped⟩)
      else next manager ⟨w.inner.next.2, w.skipped + 1⟩
    else (false, ⟨w.inner.next.2, w.skipped⟩) := by
  obtain ⟨⟨current, rest, stays⟩, skipped⟩ := w
  cases rest with
  | nil => rfl
  | cons doc rest => rfl

end WandIterator

/-- What `wrapIterator` hands out: the base iterator itself or its wrapper. -/
inductive ScoredDocIterator (α : Type) [LE α] where
  | base (it : DocListIterator α)
  | wand (it : WandIterator α)

namespace ScoredDocIterator

def next (manager : ScoreThresholdManager α) : ScoredDocIterator α → Bool × ScoredDocIterator α
  | .base it => (it.next.1, .base it.next.2)
  | .wand w => ((w.next manager).1, .wand (w.next manager).2)

def seek (manager : ScoreThresholdManager α) (target : UInt64) :
    ScoredDocIterator α → UInt64 × ScoredDocIterator α
  | .base it => ((it.seek target).1, .base (it.seek target).2)
  | .wand w => ((w.seek manager target).1, .wand (w.seek manager target).2)

def score (manager : ScoreThresholdManager α) :
    ScoredDocIterator α → α × ScoreThresholdManager α
  | .base it => (it.score, manager)
  | .wand w => w.score manager

def docs : ScoredDocIterator α → DocListIterator α
  | .base it => it
  | .wand w => w.inner

end ScoredDocIterator

structure WandExecutionContext (α : Type) [LE α] where
  enabled : Bool
  heapSize : ℕ
  thresholdManager : Option (ScoreThresholdManager α)

def createWandContext (enabled : Bool) (heapSize : ℕ) : WandExecutionContext α :=
  ⟨enabled, heapSize, if enabled = true ∧ 0 < heapSize then some (.new heapSize) else none⟩

def WandExecutionContext.wrapIterator (ctx : WandExecutionContext α) (base : DocListIterator α) :
    ScoredDocIterator α :=
  if ctx.enabled = false ∨ ctx.heapSize = 0 ∨ ctx.thresholdManager.isNone = true then .base base
  else .wand ⟨base, 0⟩

/-! ### Several iterators over one manager -/

/-- The documents that a call has moved over, the one it has stopped at included. -/
def moved (before after : DocListIterator α) : List (DocEntry α) :=
  before.rest.take (before.rest.length - after.rest.length)

/-- The document that a call returns, if it is not the one returned before. -/
def arrivedAt (before after : DocListIterator α) : Option (DocEntry α) :=
  if after.current.isSome then (moved before after).getLast? else none

def passedOver (before after : DocListIterator α) : List (DocEntry α) :=
  if after.current.isSome then (moved before after).dropLast else moved before after

/-- `owed` says that a document has been returned and not yet scored. -/
structure Cursor (α : Type) [LE α] where
  iterator : ScoredDocIterator α
  owed : Bool

inductive Call where
  | next
  | seek (target : UInt64)
  | score

/- Each document that is returned is scored once, before its iterator moves on. -/
def driver : Program (ScoreThresholdManager α) (Cursor α) Call
  | m, ⟨it, false⟩, .next =>
    let it' := (it.next m).2
    some (m, ⟨it', (arrivedAt it.docs it'.docs).isSome⟩)
  | m, ⟨it, false⟩, .seek target =>
    let it' := (it.seek m target).2
    some (m, ⟨it', (arrivedAt it.docs it'.docs).isSome⟩)
  | m, ⟨it, true⟩, .score => some ((it.score m).2, ⟨it, false⟩)
  | _, _, _ => none

def wandStart {ι : Type} (k : ℕ) (docs : ι → List (DocEntry α)) (stays : ι → Bool) :
    Config ι (ScoreThresholdManager α) (Cursor α) :=
  let ctx : WandExecutionContext α := createWandContext true k
  ⟨ctx.thresholdManager.getD (.new k), fun i => ⟨ctx.wrapIterator (.new (docs i) (stays i)), false⟩⟩

end OpenArangoDBCore.IResearch
