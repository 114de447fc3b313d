import DynLisp.ChainMap.Basic

/-!
# Looking up keys

The value of a key is found in the chain of its hash, so what an operation does to the chains
(`chain_of_insertNew?`, `chain_replace`, `chain_erase`) tells what it does to values. Equal keys
have to choose the same bucket for that (`LawfulBucketHash`), and the form of a key has to hash and
compare like the key (`LawfulKeyForm`):

* `get?_of_insertNew?`: a new entry gives its key a value and leaves all other keys alone;
* `get?_replace`: another value for a key that has one;
* `get?_erase_of_ne`: a key that is not erased keeps its value.
-/

namespace DynLisp

/-- Equal keys choose the same bucket. -/
class LawfulBucketHash (κ : Type) [BEq κ] [BucketHash κ] : Prop where
  bucketHash_eq : ∀ {k k' : κ}, k == k' → bucketHash k = bucketHash k'

/-- The form of a key hashes and compares like the key. -/
class LawfulKeyForm (κ q : Type) [BEq κ] [BucketHash κ] [BEq q] [BucketHash q] [KeyForm κ q] :
    Prop where
  bucketHash_form : ∀ k : κ, bucketHash (form k : q) = bucketHash k
  form_beq_form : ∀ k k' : κ, ((form k : q) == form k') = (k == k')

export LawfulBucketHash (bucketHash_eq)
export LawfulKeyForm (bucketHash_form form_beq_form)

instance {κ : Type} [BEq κ] [LawfulBEq κ] [BucketHash κ] : LawfulBucketHash κ where
  bucketHash_eq h := congrArg bucketHash (eq_of_beq h)

instance {κ : Type} [BEq κ] [BucketHash κ] : LawfulKeyForm κ κ where
  bucketHash_form _ := rfl
  form_beq_form _ _ := rfl

namespace LawfulKeyForm

variable {κ : Type} (q : Type) [BEq κ] [BucketHash κ] [BEq q] [BucketHash q] [KeyForm κ q]
  [LawfulKeyForm κ q]

/-- Keys are compared by an equivalence if their forms are. -/
theorem equivBEq [EquivBEq q] : EquivBEq κ where
  rfl := by
    intro k
    rw [← form_beq_form (q := q)]
    exact BEq.rfl
  symm := by
    intro k k' h
    rw [← form_beq_form (q := q)] at h ⊢
    exact BEq.symm h
  trans := by
    intro k₁ k₂ k₃ h h'
    rw [← form_beq_form (q := q)] at h h' ⊢
    exact BEq.trans h h'

theorem lawfulBucketHash [LawfulBucketHash q] : LawfulBucketHash κ where
  bucketHash_eq := by
    intro k k' h
    rw [← bucketHash_form (q := q) k, ← bucketHash_form (q := q) k']
    exact bucketHash_eq ((form_beq_form k k').trans h)

end LawfulKeyForm

namespace ChainMap

variable {κ ν q : Type}

/-! ## Entries of a key -/

section Entries

variable [BEq q] [KeyForm κ q] [EquivBEq q]

/-- An entry is that of one key only. -/
theorem isEntryOf_eq {k : q} {e : κ × ν} (h : isEntryOf k e = true) (k' : q) :
    isEntryOf k' e = (k == k') :=
  BEq.congr_left h

theorem isEntryOf_congr {k k' : q} (h : (k == k') = true) :
    (isEntryOf k : κ × ν → Bool) = isEntryOf k' :=
  funext fun _ => BEq.congr_right h

end Entries

/-! ## Chains -/

theorem getD_modify (chains : Array (List (κ × ν))) (f : List (κ × ν) → List (κ × ν)) {i : Nat}
    (hi : i < chains.size ∨ f [] = []) (j : Nat) :
    (chains.modify i f).getD j [] = if i = j then f (chains.getD j []) else chains.getD j [] := by
  simp only [Array.getD_eq_getD_getElem?, Array.getElem?_modify]
  split
  · rename_i hij
    subst hij
    cases hc : chains[i]? with
    | some c => rfl
    | none =>
      have hsize : chains.size ≤ i := Array.getElem?_eq_none_iff.1 hc
      exact (hi.resolve_left (by omega)).symm
  · rfl

theorem getD_allocated (m : ChainMap κ ν) (i : Nat) :
    m.allocated.getD i [] = m.chains.getD i [] := by
  unfold allocated
  split
  · rename_i h
    rw [Array.isEmpty_iff.1 h]
    simp only [Array.getD_eq_getD_getElem?, Array.getElem?_replicate]
    split <;> rfl
  · rfl

theorem index_lt (m : ChainMap κ ν) (hash : UInt64) : m.index hash < m.bucketCount :=
  Nat.mod_lt _ m.bucketCount_pos

section Forms

variable [BEq q] [BucketHash q] [KeyForm κ q] {m : ChainMap κ ν} {k : q}

theorem chain_replace (m : ChainMap κ ν) (k : q) (v : ν) (hash : UInt64) :
    (m.replace k v).chain hash = if m.index (bucketHash k) = m.index hash then
        replaceFirst k v (m.chain hash)
      else m.chain hash :=
  getD_modify m.chains _ (.inr rfl) _

theorem chain_erase (h : m.contains k = true) (hash : UInt64) :
    (m.erase k).chain hash = if m.index (bucketHash k) = m.index hash then
        (m.chain hash).eraseP (isEntryOf k)
      else m.chain hash := by
  unfold erase
  rw [if_pos h]
  exact getD_modify m.chains _ (.inr rfl) _

theorem erase_of_not_contains (h : m.contains k = false) : m.erase k = m := by
  unfold erase
  rw [if_neg (by rw [h]; exact Bool.false_ne_true)]

theorem get?_eq_none_iff :
    m.get? k = none ↔ ∀ e ∈ m.chain (bucketHash k), isEntryOf k e = false := by
  unfold get? getHashed?
  rw [Option.map_eq_none_iff, List.find?_eq_none]
  simp only [Bool.not_eq_true]

theorem get?_eq_none_iff_contains : m.get? k = none ↔ m.contains k = false := by
  unfold contains
  cases m.get? k <;> simp

end Forms

section Keys

variable [BEq κ] [BucketHash κ] {m m' : ChainMap κ ν} {k : κ} {v : ν}

theorem contains_of_insertNew? (h : m.insertNew? k v = some m') : m.contains k = false := by
  unfold insertNew? at h
  split at h
  · cases h
  · rename_i hk
    exact Bool.eq_false_iff.2 hk

theorem exists_insertNew? (h : m.contains k = false) (v : ν) : ∃ m', m.insertNew? k v = some m' :=
  ⟨_, if_neg fun h' => Bool.false_ne_true (h.symm.trans h')⟩

theorem chain_of_insertNew? (h : m.insertNew? k v = some m') (hash : UInt64) :
    m'.chain hash = if m.index (bucketHash k) = m.index hash then m.chain hash ++ [(k, v)]
      else m.chain hash := by
  unfold insertNew? at h
  split at h
  · cases h
  · cases h
    have hi : m.index (bucketHash k) < m.allocated.size := by
      rw [size_allocated]
      exact m.index_lt _
    show (m.allocated.modify _ _).getD (m.index hash) [] = _
    rw [getD_modify _ _ (.inl hi), getD_allocated]
    rfl

end Keys

/-! ## Values -/

section Forms

variable [BEq q] [BucketHash q] [KeyForm κ q]

theorem get?_withBuckets (buckets : Nat) (k : q) :
    (withBuckets buckets : ChainMap κ ν).get? k = none := rfl

variable [EquivBEq q] {m : ChainMap κ ν}

/-- A key that is not erased keeps its value. -/
theorem get?_erase_of_ne {k k' : q} (h : (k == k') = false) : (m.erase k).get? k' = m.get? k' := by
  have hfind : ∀ c : List (κ × ν),
      (c.eraseP (isEntryOf k)).find? (isEntryOf k') = c.find? (isEntryOf k') := by
    intro c
    rcases List.exists_or_eq_self_of_eraseP (isEntryOf k) c with
      hc | ⟨e, before, after, -, he, hc, hc'⟩
    · rw [hc]
    · rw [hc', hc]
      simp only [List.find?_append, List.find?_cons, isEntryOf_eq he, h]
  cases hk : m.contains k with
  | false => rw [erase_of_not_contains hk]
  | true =>
    unfold get? getHashed?
    rw [chain_erase hk]
    split
    · rw [hfind]
    · rfl

variable [LawfulBucketHash q]

theorem get?_congr {k k' : q} (h : (k == k') = true) : m.get? k = m.get? k' := by
  unfold get? getHashed?
  rw [bucketHash_eq h, isEntryOf_congr h]

/-- A key that has a value is given another one, and all other keys are left alone. -/
theorem get?_replace (m : ChainMap κ ν) (k : q) (v : ν) (k' : q) :
    (m.replace k v).get? k' = if k == k' then (m.get? k').map fun _ => v else m.get? k' := by
  -- The entry that is found for a key is the one that is given another value.
  have hfind : ∀ c : List (κ × ν),
      ((replaceFirst k v c).find? (isEntryOf k')).map Prod.snd =
        if k == k' then ((c.find? (isEntryOf k')).map Prod.snd).map fun _ => v
        else (c.find? (isEntryOf k')).map Prod.snd := by
    intro c
    induction c with
    | nil => simp [replaceFirst]
    | cons e c ih =>
      rw [replaceFirst]
      cases he : isEntryOf k e with
      | true =>
        have he' : isEntryOf k' (e.1, v) = (k == k') := isEntryOf_eq he k'
        rw [if_pos rfl, List.find?_cons, List.find?_cons, isEntryOf_eq he, he']
        cases k == k' <;> rfl
      | false =>
        rw [if_neg Bool.false_ne_true, List.find?_cons, List.find?_cons]
        cases he' : isEntryOf k' e with
        | true =>
          have hk : (k == k') = false := by
            rw [BEq.comm, ← isEntryOf_eq he' k, he]
          rw [hk]
          rfl
        | false => exact ih
  unfold get? getHashed?
  rw [chain_replace]
  split
  · exact hfind _
  · rename_i hindex
    split
    · rename_i hk
      exact (hindex (by rw [bucketHash_eq hk])).elim
    · rfl

end Forms

section Keys

variable [BEq κ] [BucketHash κ] [BEq q] [BucketHash q] [KeyForm κ q] [LawfulKeyForm κ q]
  {m m' : ChainMap κ ν}

theorem isEntryOf_form (k : κ) (e : κ × ν) : isEntryOf (form k : q) e = isEntryOf k e :=
  form_beq_form e.1 k

/-- A key and its form have the same value. -/
theorem get?_form (m : ChainMap κ ν) (k : κ) : m.get? (form k : q) = m.get? k := by
  unfold get? getHashed?
  rw [bucketHash_form, show (isEntryOf (form k : q) : κ × ν → Bool) = isEntryOf k from
    funext (isEntryOf_form k)]

theorem contains_form (m : ChainMap κ ν) (k : κ) : m.contains (form k : q) = m.contains k := by
  unfold contains
  rw [get?_form]

variable [EquivBEq q] [LawfulBucketHash q]

/-- A new entry gives its key a value and leaves all other keys alone. -/
theorem get?_of_insertNew? {k : κ} {v : ν} (h : m.insertNew? k v = some m') (k' : q) :
    m'.get? k' = if (form k : q) == k' then some v else m.get? k' := by
  have hentry : isEntryOf k' (k, v) = ((form k : q) == k') := rfl
  have hfind : m'.get? k' = (((if m.index (bucketHash k) = m.index (bucketHash k') then
      m.chain (bucketHash k') ++ [(k, v)] else m.chain (bucketHash k')).find?
        (isEntryOf k')).map Prod.snd) := by
    rw [← chain_of_insertNew? h]
    rfl
  rw [hfind]
  cases hk : (form k : q) == k' with
  | true =>
    have hhash : bucketHash k' = bucketHash k := by rw [← bucketHash_eq hk, bucketHash_form]
    -- The key had no entry, so the search of its chain comes to the new one.
    have hnone : (m.chain (bucketHash k')).find? (isEntryOf k') = none := by
      have hk' := get?_eq_none_iff_contains.2 (contains_of_insertNew? h)
      rw [← get?_form (q := q), get?_congr hk] at hk'
      exact Option.map_eq_none_iff.1 hk'
    rw [if_pos (by rw [hhash]), List.find?_append, hnone, List.find?_singleton, hentry, hk]
    rfl
  | false =>
    split
    · rw [List.find?_append, List.find?_singleton, hentry, hk]
      simp only [Bool.false_eq_true, if_false, Option.or_none]
      rfl
    · rfl

end Keys

/-- The same for keys that are looked up by themselves. -/
theorem get?_of_insertNew?_self {κ ν : Type} [DecidableEq κ] [BucketHash κ] {m m' : ChainMap κ ν}
    {k : κ} {v : ν} (h : m.insertNew? k v = some m') (k' : κ) :
    m'.get? k' = if k = k' then some v else m.get? k' := by
  rw [get?_of_insertNew? h k']
  simp only [form, id, beq_iff_eq]

end ChainMap

end DynLisp
