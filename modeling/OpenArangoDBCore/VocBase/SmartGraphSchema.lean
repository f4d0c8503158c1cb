import OpenArangoDBCore.Lib.Delimited
import OpenArangoDBCore.Sharding.ShardingStrategyEE

/-!
# Keys of smart graphs (SmartGraphSchema.cpp)

`extractSmartValue` and the `extractSmartPrefix` of the sharding differ on a
key without a `':'`: the one gives nothing, the other the whole key.
-/

namespace OpenArangoDBCore.VocBase
open Delimited Sharding

structure SmartGraphValidationResult where
  ok : Bool
  errorMessage : ByteString
  deriving DecidableEq

namespace SmartGraphValidationResult

def success : SmartGraphValidationResult := ⟨true, []⟩
def error (msg : ByteString) : SmartGraphValidationResult := ⟨false, msg⟩

end SmartGraphValidationResult

namespace SmartGraphSchema

def slash : Byte := 0x2F

def extractSmartValue (key : ByteString) : ByteString :=
  if smartSeparator ∈ key then key.takeWhile (· ≠ smartSeparator) else []

def buildSmartKey (smartValue localKey : ByteString) : ByteString :=
  smartValue ++ smartSeparator :: localKey

def buildSmartEdgeKey (fromSmart toSmart edgeKey : ByteString) : ByteString :=
  fromSmart ++ smartSeparator :: (toSmart ++ smartSeparator :: edgeKey)

def parseCollectionName (handle : ByteString) : ByteString :=
  if slash ∈ handle then handle.takeWhile (· ≠ slash) else []

/-- The part of a handle behind the first `'/'`; a plain key as it is. -/
def keyPart (value : ByteString) : ByteString :=
  if slash ∈ value then (value.dropWhile (· ≠ slash)).tail else value

def extractPrefixFromKeyOrHandle (value : ByteString) : ByteString :=
  extractSmartValue (keyPart value)

def validateDocument (key smartAttributeValue smartAttributeName : ByteString) :
    SmartGraphValidationResult :=
  if smartAttributeValue = [] then
    .error (lit "missing smartGraphAttribute '" ++ smartAttributeName ++ lit "'")
  else if smartSeparator ∉ key then
    .error (lit "key '" ++ key ++ lit "' does not contain ':' separator required for SmartGraph")
  else
    let found := key.takeWhile (· ≠ smartSeparator)
    if found ≠ smartAttributeValue then
      .error (lit "key prefix '" ++ found ++ lit "' does not match smartGraphAttribute value '" ++
        smartAttributeValue ++ lit "'")
    else .success

def isSatelliteSide (satelliteCollections : Finset ByteString) (handle : ByteString) : Bool :=
  parseCollectionName handle ≠ [] ∧ parseCollectionName handle ∈ satelliteCollections

def validateEdge (fromKey toKey : ByteString) (isDisjoint : Bool)
    (satelliteCollections : Finset ByteString) : SmartGraphValidationResult :=
  if isDisjoint = false then .success
  else if isSatelliteSide satelliteCollections fromKey ∨
      isSatelliteSide satelliteCollections toKey then .success
  else
    let fromPrefix := extractPrefixFromKeyOrHandle fromKey
    let toPrefix := extractPrefixFromKeyOrHandle toKey
    if fromPrefix ≠ toPrefix then
      .error (lit "disjoint SmartGraph edge crosses partitions: from prefix '" ++ fromPrefix ++
        lit "' != to prefix '" ++ toPrefix ++ lit "'")
    else .success

/-! ### What the checks accept -/

theorem extractSmartValue_of_mem {key : ByteString} (h : smartSeparator ∈ key) :
    extractSmartValue key = extractSmartPrefix key := by
  rw [extractSmartValue, if_pos h, extractSmartPrefix, if_pos h]

theorem extractSmartValue_of_notMem {key : ByteString} (h : smartSeparator ∉ key) :
    extractSmartValue key = [] := if_neg h

theorem validateDocument_ok_iff (key smartAttributeValue smartAttributeName : ByteString) :
    (validateDocument key smartAttributeValue smartAttributeName).ok = true ↔
      smartAttributeValue ≠ [] ∧ smartSeparator ∈ key ∧
        extractSmartValue key = smartAttributeValue := by
  unfold validateDocument extractSmartValue
  by_cases hvalue : smartAttributeValue = []
  · simp [hvalue, SmartGraphValidationResult.error]
  · by_cases hkey : smartSeparator ∈ key
    · rw [if_neg hvalue, if_neg (not_not.mpr hkey), if_pos hkey]
      dsimp only
      split
      next hne => exact iff_of_false nofun fun h => hne h.2.2
      next heq => exact iff_of_true rfl ⟨hvalue, hkey, not_not.mp heq⟩
    · simp [hvalue, hkey, SmartGraphValidationResult.error]

/-! ### Keys as `buildSmartKey` writes them -/

theorem smartSeparator_mem_buildSmartKey (smartValue localKey : ByteString) :
    smartSeparator ∈ buildSmartKey smartValue localKey :=
  List.mem_append_right _ List.mem_cons_self

/-- A built key is read up to the first `':'`, whichever that is. -/
theorem extractSmartValue_buildSmartKey_iff (smartValue localKey : ByteString) :
    extractSmartValue (buildSmartKey smartValue localKey) = smartValue ↔
      smartSeparator ∉ smartValue := by
  rw [extractSmartValue, if_pos (smartSeparator_mem_buildSmartKey smartValue localKey)]
  exact takeWhile_delimited_iff localKey

/-- The smart value is copied as it is, while the reader cuts at the first
`':'`: a built key is valid for the values that hold no separator. -/
theorem buildSmartKey_validates_iff (smartValue localKey smartAttributeName : ByteString)
    (hvalue : smartValue ≠ []) :
    ((validateDocument (buildSmartKey smartValue localKey) smartValue smartAttributeName).ok =
        true ∧
      extractSmartValue (buildSmartKey smartValue localKey) = smartValue) ↔
      smartSeparator ∉ smartValue := by
  have hread := extractSmartValue_buildSmartKey_iff smartValue localKey
  rw [validateDocument_ok_iff]
  constructor
  · intro h
    exact hread.mp h.2
  · intro h
    exact ⟨⟨hvalue, smartSeparator_mem_buildSmartKey smartValue localKey, hread.mpr h⟩,
      hread.mpr h⟩

theorem buildSmartKey_validates_eu :
    (validateDocument (buildSmartKey (lit "eu") (lit "42")) (lit "eu") (lit "region")).ok = true ∧
      extractSmartValue (buildSmartKey (lit "eu") (lit "42")) = lit "eu" :=
  (buildSmartKey_validates_iff (lit "eu") (lit "42") (lit "region") (by decide)).mpr (by decide)

/-- The key `"a:b:x"` built for the value `"a:b"` is refused and reads back as
`"a"`. -/
theorem buildSmartKey_separator_in_value :
    ¬ ∀ smartValue localKey smartAttributeName : ByteString, smartValue ≠ [] →
      (validateDocument (buildSmartKey smartValue localKey) smartValue smartAttributeName).ok =
          true ∧
        extractSmartValue (buildSmartKey smartValue localKey) = smartValue := by
  intro h
  exact absurd (h (lit "a:b") (lit "x") (lit "region") (by decide)).2 (by decide)

theorem validateEdge_ok_iff {fromKey toKey : ByteString} {satellites : Finset ByteString}
    (hfrom : isSatelliteSide satellites fromKey = false)
    (hto : isSatelliteSide satellites toKey = false) :
    (validateEdge fromKey toKey true satellites).ok = true ↔
      extractSmartValue (keyPart fromKey) = extractSmartValue (keyPart toKey) := by
  unfold validateEdge extractPrefixFromKeyOrHandle
  rw [if_neg nofun, if_neg (by simp [hfrom, hto])]
  dsimp only
  split
  next hne => exact iff_of_false nofun hne
  next heq => exact iff_of_true rfl (not_not.mp heq)

end SmartGraphSchema
end OpenArangoDBCore.VocBase
