import DynLisp.ChainMap.Hash
import DynLisp.Text.Quoted

/-!
# Chained maps

A `ChainMap` keeps its entries in a fixed number of buckets; entries of one bucket form a chain in
the order of their insertion. The order of the whole map is by bucket, then along the chain, so it
is the same for the same history. A key that is present is never inserted again. The chains are
only there while the map has, or has had, an entry since it was last cleared.
-/

namespace DynLisp

/-- A map from keys to values in a fixed number of buckets. -/
structure ChainMap (κ ν : Type) where
  bucketCount : Nat
  chains : Array (List (κ × ν))
  size : Nat
  bucketCount_pos : 0 < bucketCount
  /-- There are no chains yet, or one for each bucket. -/
  size_chains : chains = #[] ∨ chains.size = bucketCount

namespace ChainMap

variable {κ ν : Type}

/-- The bucket count of a map for which none is asked for. -/
def defaultBuckets : Nat := 2011

/-- The empty map with this many buckets, but at least one. -/
def withBuckets (buckets : Nat) : ChainMap κ ν where
  bucketCount := max buckets 1
  chains := #[]
  size := 0
  bucketCount_pos := Nat.le_max_right buckets 1
  size_chains := .inl rfl

/-- The empty map with the default number of buckets. -/
def empty : ChainMap κ ν :=
  withBuckets defaultBuckets

instance : EmptyCollection (ChainMap κ ν) := ⟨empty⟩
instance : Inhabited (ChainMap κ ν) := ⟨empty⟩

def isEmpty (m : ChainMap κ ν) : Bool :=
  m.size == 0

/-- The bucket of a hash. -/
@[inline] def index (m : ChainMap κ ν) (hash : UInt64) : Nat :=
  hash.toNat % m.bucketCount

/-- The chain of a hash; an empty one if the map has no chains yet. -/
@[inline] def chain (m : ChainMap κ ν) (hash : UInt64) : List (κ × ν) :=
  m.chains.getD (m.index hash) []

/-- The entries in the order of the map. -/
def toList (m : ChainMap κ ν) : List (κ × ν) :=
  m.chains.toList.flatten

/-- The map without entries and chains. -/
def clear (m : ChainMap κ ν) : ChainMap κ ν :=
  { m with chains := #[], size := 0, size_chains := .inl rfl }

/-- The chains, made on first use. -/
def allocated (m : ChainMap κ ν) : Array (List (κ × ν)) :=
  if m.chains.isEmpty then Array.replicate m.bucketCount [] else m.chains

theorem size_allocated (m : ChainMap κ ν) : m.allocated.size = m.bucketCount := by
  unfold allocated
  split
  · exact Array.size_replicate
  · rename_i h
    exact m.size_chains.resolve_left fun hc => h (by rw [hc]; rfl)

theorem size_chains_modify (m : ChainMap κ ν) (i : Nat) (f : List (κ × ν) → List (κ × ν)) :
    m.chains.modify i f = #[] ∨ (m.chains.modify i f).size = m.bucketCount := by
  rw [Array.size_modify]
  exact m.size_chains.imp_left fun h => by rw [h]; rfl

section Forms

variable {q : Type} [BucketHash q] [BEq q] [KeyForm κ q]

/-- Whether an entry is that of the key with this form. -/
@[inline] def isEntryOf (k : q) (e : κ × ν) : Bool :=
  form e.1 == k

/-- The value of a key whose hash is known. -/
@[inline] def getHashed? (m : ChainMap κ ν) (hash : UInt64) (k : q) : Option ν :=
  ((m.chain hash).find? (isEntryOf k)).map Prod.snd

/-- The value of a key. -/
def get? (m : ChainMap κ ν) (k : q) : Option ν :=
  m.getHashed? (bucketHash k) k

def contains (m : ChainMap κ ν) (k : q) : Bool :=
  (m.get? k).isSome

/-- The chain with another value in the first entry of a key. -/
def replaceFirst (k : q) (v : ν) : List (κ × ν) → List (κ × ν)
  | [] => []
  | e :: es => if isEntryOf k e then (e.1, v) :: es else e :: replaceFirst k v es

/-- The map with another value for a key that is present. -/
def replace (m : ChainMap κ ν) (k : q) (v : ν) : ChainMap κ ν :=
  let i := m.index (bucketHash k)
  { m with
    chains := m.chains.modify i (replaceFirst k v)
    size_chains := m.size_chains_modify _ _ }

/-- The map without a key. The other entries of the chain keep their order. -/
def erase (m : ChainMap κ ν) (k : q) : ChainMap κ ν :=
  if m.contains k then
    let i := m.index (bucketHash k)
    { m with
      chains := m.chains.modify i (·.eraseP (isEntryOf k))
      size := m.size - 1
      size_chains := m.size_chains_modify _ _ }
  else m

end Forms

/-- The map with a new entry at the end of its chain; none if the key is present already. -/
def insertNew? [BucketHash κ] [BEq κ] (m : ChainMap κ ν) (k : κ) (v : ν) :
    Option (ChainMap κ ν) :=
  if m.contains k then none
  else
    let i := m.index (bucketHash k)
    some { m with
      chains := m.allocated.modify i (· ++ [(k, v)])
      size := m.size + 1
      size_chains := .inr (by rw [Array.size_modify, size_allocated]) }

/-- The text of one entry in the debug form. -/
def debugEntry (key : κ → String) (value : ν → String) (e : κ × ν) : String :=
  key e.1 ++ ": " ++ value e.2

/-- The debug form of a map, from those of its keys and values. -/
def debug (key : κ → String) (value : ν → String) (m : ChainMap κ ν) : String :=
  "\x7b" ++ ", ".intercalate (m.toList.map (debugEntry key value)) ++ "\x7d"

end ChainMap

end DynLisp
