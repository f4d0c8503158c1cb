import OpenArangoDBCore.Basics
import OpenArangoDBCore.Lib.Delimited

/-! # Shard of a value (ShardingStrategyEE.cpp) -/

namespace OpenArangoDBCore.Sharding
open Delimited

def kFnvOffsetBasis : UInt32 := 2166136261
def kFnvPrime : UInt32 := 16777619

/-- FNV-1a, then the remainder. -/
def computeShardIndex (value : ByteString) (numberOfShards : UInt32) : UInt32 :=
  value.foldl (fun hash c => (hash ^^^ UInt32.ofNat c.val) * kFnvPrime) kFnvOffsetBasis %
    numberOfShards

/-- `':'` -/
def smartSeparator : Byte := 0x3A

/-- What stands before the first `':'`, the whole key without one. -/
def extractSmartPrefix (key : ByteString) : ByteString :=
  if smartSeparator ∈ key then key.takeWhile (· ≠ smartSeparator) else key

def EnterpriseHashSmartEdgeShardingStrategy.getResponsibleShard (key : ByteString)
    (numberOfShards : UInt32) : UInt32 :=
  computeShardIndex (extractSmartPrefix key) numberOfShards

def EnterpriseHexSmartVertexShardingStrategy.getResponsibleShard (key : ByteString)
    (numberOfShards : UInt32) : UInt32 :=
  computeShardIndex (extractSmartPrefix key) numberOfShards

def EnterpriseSmartEdgeCompatShardingStrategy.getResponsibleShard (key : ByteString)
    (numberOfShards : UInt32) : UInt32 :=
  computeShardIndex (extractSmartPrefix key) numberOfShards

theorem computeShardIndex_lt (value : ByteString) {numberOfShards : UInt32}
    (h : 1 ≤ numberOfShards) : computeShardIndex value numberOfShards < numberOfShards := by
  apply UInt32.mod_lt
  rw [UInt32.lt_iff_toNat_lt, UInt32.toNat_zero]
  rw [UInt32.le_iff_toNat_le, UInt32.toNat_one] at h
  omega

theorem extractSmartPrefix_of_notMem {key : ByteString} (h : smartSeparator ∉ key) :
    extractSmartPrefix key = key := if_neg h

/-- The first `':'` decides, whatever stands behind it. -/
theorem extractSmartPrefix_append (before rest : ByteString) :
    extractSmartPrefix (before ++ smartSeparator :: rest) = extractSmartPrefix before := by
  have hmem : smartSeparator ∈ before ++ smartSeparator :: rest := by simp
  rw [extractSmartPrefix, if_pos hmem]
  by_cases h : smartSeparator ∈ before
  · obtain ⟨front, back, rfl, hfront⟩ := List.eq_append_cons_of_mem h
    rw [extractSmartPrefix, if_pos h, List.append_assoc, List.cons_append,
      takeWhile_delimited hfront, takeWhile_delimited hfront]
  · rw [takeWhile_delimited h, extractSmartPrefix_of_notMem h]

end OpenArangoDBCore.Sharding
