import OpenArangoDBCore.Basics

/-!
# Splitting a key range (KeySpacePartitioner.cpp:13-99)

The `double` arithmetic of the partitioner is a parameter, so that a result
can be stated for every value the split points may take. `exactOps` is the
same arithmetic without rounding.
-/

namespace OpenArangoDBCore.RocksDBEngine

/-- Lower bound inclusive, upper bound exclusive, empty upper bound unbounded. -/
structure KeyRange where
  lowerBound : ByteString
  upperBound : ByteString
  deriving DecidableEq, Repr

/- `ratio i n` is `i / n`, `mixByte lo hi f` the clamped and truncated
`lo + (hi - lo) * f`, and `scaleByte f` the truncated `f * 255`. -/
structure FractionOps (F : Type) where
  ratio : ℕ → ℕ → F
  mixByte : Byte → Byte → F → Byte
  scaleByte : F → Byte

/-- `static_cast<uint8_t>(std::clamp(val, 0.0, 255.0))` -/
def toByte (val : ℚ) : Byte := Fin.ofNat 256 (⌊max 0 (min val 255)⌋).toNat

def exactOps : FractionOps ℚ where
  ratio i n := (i : ℚ) / n
  mixByte lo hi f := toByte ((lo.val : ℚ) + ((hi.val : ℚ) - lo.val) * f)
  scaleByte f := toByte (f * 255)

variable {F : Type}

def trimReversed : ByteString → ByteString
  | 0 :: b :: rest => trimReversed (b :: rest)
  | bytes => bytes

/-- `while (result.size() > 1 && result.back() == '\0') result.pop_back();` -/
def trimZeros (bytes : ByteString) : ByteString := (trimReversed bytes.reverse).reverse

def interpolateKey (ops : FractionOps F) (lower upper : ByteString) (fraction : F) : ByteString :=
  if lower = [] ∧ upper = [] then []
  else
    let maxLen := max lower.length upper.length
    if maxLen = 0 then []
    else trimZeros ((List.range maxLen).map fun i =>
      ops.mixByte (lower.getD i 0) (upper.getD i 0) fraction)

def splitKey (ops : FractionOps F) (lowerBound upperBound : ByteString) (numPartitions i : ℕ) :
    ByteString :=
  let fraction := ops.ratio i numPartitions
  if upperBound = [] then lowerBound ++ [ops.scaleByte fraction]
  else interpolateKey ops lowerBound upperBound fraction

def chainRanges (prevBound : ByteString) : List ByteString → ByteString → List KeyRange
  | [], upperBound => [⟨prevBound, upperBound⟩]
  | split :: rest, upperBound => ⟨prevBound, split⟩ :: chainRanges split rest upperBound

def splitKeys (ops : FractionOps F) (lowerBound upperBound : ByteString) (numPartitions : ℕ) :
    List ByteString :=
  (List.range' 1 (numPartitions - 1)).map (splitKey ops lowerBound upperBound numPartitions)

def partition (ops : FractionOps F) (lowerBound upperBound : ByteString) (numPartitions : UInt32) :
    List KeyRange :=
  if numPartitions = 0 then []
  else if upperBound ≠ [] ∧ upperBound ≤ lowerBound then []
  else if numPartitions = 1 then [⟨lowerBound, upperBound⟩]
  else chainRanges lowerBound (splitKeys ops lowerBound upperBound numPartitions.toNat) upperBound

end OpenArangoDBCore.RocksDBEngine
