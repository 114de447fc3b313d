/-!
# Hashes and forms of keys

Keys of a `ChainMap` choose their bucket by a hash that is fixed for good, because the order of the
map's entries shows it. They may be looked up by data of another type, of which each key has a form.
-/

namespace DynLisp

/-- Keys that choose their own bucket. -/
class BucketHash (κ : Type) where
  /-- The hash, before it is reduced to the number of buckets. -/
  bucketHash : κ → UInt64

export BucketHash (bucketHash)

/-- Keys that have a form by which they can be looked up. -/
class KeyForm (κ q : Type) where
  form : κ → q

export KeyForm (form)

/-- Every key is a form of itself. -/
instance (κ : Type) : KeyForm κ κ where
  form := id

/-- The sum of the bytes, the first counted `weight` times, the next once more, and so on. -/
def weightedSum (weight sum : UInt64) : List UInt8 → UInt64
  | [] => sum
  | b :: bs => weightedSum (weight + 1) (sum + b.toUInt64 * weight) bs

/-- A text is hashed to the sum of its bytes, each multiplied by its position counted from one. -/
instance : BucketHash String where
  bucketHash s := weightedSum 1 0 s.toUTF8.data.toList

/-- An integer is its own hash, read without a sign. -/
instance : BucketHash Int64 where
  bucketHash n := n.toUInt64

end DynLisp
