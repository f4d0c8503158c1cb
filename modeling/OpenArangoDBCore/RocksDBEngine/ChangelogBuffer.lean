import OpenArangoDBCore.Basics

/-!
# The changelog of a background build (ChangelogBuffer.cpp)

`append` and `clear` are one critical section each. `forEach` holds the
buffer's mutex while it calls out for every entry, so its steps are spread
over the interleaving model of the builder.
-/

namespace OpenArangoDBCore.RocksDBEngine

inductive ChangelogOpType where
  | kInsert
  | kUpdate
  | kDelete
  deriving DecidableEq, Repr

/-- A `std::string` object: the budget counts its capacity, not its size. -/
structure OwnedString where
  bytes : ByteString
  capacity : UInt64
  fits : bytes.length ≤ capacity.toNat
  deriving DecidableEq

structure ChangelogEntry where
  opType : ChangelogOpType
  documentKey : OwnedString
  documentRev : OwnedString
  documentData : OwnedString
  deriving DecidableEq

structure ChangelogBuffer where
  entries : List ChangelogEntry
  memoryBudgetBytes : UInt64
  currentMemoryUsage : UInt64

def kEntryBaseOverhead : UInt64 := 1 + 3 * 32 + 8

def estimateEntrySize (entry : ChangelogEntry) : UInt64 :=
  kEntryBaseOverhead + entry.documentKey.capacity + entry.documentRev.capacity +
    entry.documentData.capacity

namespace ChangelogBuffer

def new (memoryBudgetBytes : UInt64) : ChangelogBuffer := ⟨[], memoryBudgetBytes, 0⟩

def admits (c : ChangelogBuffer) (entry : ChangelogEntry) : Bool :=
  decide (c.currentMemoryUsage + estimateEntrySize entry ≤ c.memoryBudgetBytes)

def append (c : ChangelogBuffer) (entry : ChangelogEntry) : Bool × ChangelogBuffer :=
  if c.memoryBudgetBytes < c.currentMemoryUsage + estimateEntrySize entry then (false, c)
  else (true, ⟨c.entries ++ [entry], c.memoryBudgetBytes,
    c.currentMemoryUsage + estimateEntrySize entry⟩)

def clear (c : ChangelogBuffer) : ChangelogBuffer := ⟨[], c.memoryBudgetBytes, 0⟩

theorem append_accepted (c : ChangelogBuffer) (entry : ChangelogEntry) :
    (c.append entry).1 = c.admits entry := by
  by_cases h : c.memoryBudgetBytes < c.currentMemoryUsage + estimateEntrySize entry
  · have hn := UInt64.not_le.mpr h
    simp [append, admits, h, hn]
  · have hn := UInt64.not_lt.mp h
    simp [append, admits, h, hn]

theorem append_entries (c : ChangelogBuffer) (entry : ChangelogEntry) :
    (c.append entry).2.entries =
      if c.admits entry = true then c.entries ++ [entry] else c.entries := by
  rw [← append_accepted]
  by_cases h : c.memoryBudgetBytes < c.currentMemoryUsage + estimateEntrySize entry
  · simp [append, h]
  · simp [append, h]

end ChangelogBuffer
end OpenArangoDBCore.RocksDBEngine
