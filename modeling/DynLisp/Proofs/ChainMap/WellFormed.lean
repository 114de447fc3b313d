import Mathlib.Data.List.Pairwise
import DynLisp.Proofs.ChainMap.Lookup

/-!
# Well-formed maps

In a map that was made by its operations every entry is in the chain of its own hash, no key occurs
twice, and the size is the number of entries (`WellFormed`). The empty map is well-formed
(`WellFormed.withBuckets`), and each operation keeps a map so (`WellFormed.insertNew?`,
`WellFormed.replace`, `WellFormed.erase`, `WellFormed.clear`). In a well-formed map

* `WellFormed.get?_eq_some_iff`: the keys that have a value are those of the entries;
* `WellFormed.get?_eq_find?`: the value of a key is that of its entry, wherever that stands;
* `WellFormed.get?_erase`: an erased key has none.
-/

namespace DynLisp.ChainMap

variable {κ ν q : Type}

/-- What holds of every map that was made by its operations. -/
structure WellFormed [BEq κ] [BucketHash κ] (m : ChainMap κ ν) : Prop where
  /-- Each entry is in the chain of its own hash. -/
  placed : ∀ i es, m.chains[i]? = some es → ∀ e ∈ es, m.index (bucketHash e.1) = i
  /-- No key occurs twice. -/
  distinct : m.toList.Pairwise fun e e' => (e.1 == e'.1) = false
  size_eq : m.size = m.toList.length

/-! ## The list of entries -/

theorem mem_toList_iff {m : ChainMap κ ν} {e : κ × ν} :
    e ∈ m.toList ↔ ∃ (i : Nat) (es : List (κ × ν)), m.chains[i]? = some es ∧ e ∈ es := by
  unfold toList
  rw [List.mem_flatten]
  constructor
  · rintro ⟨es, hes, he⟩
    obtain ⟨i, hi⟩ := List.getElem?_of_mem hes
    exact ⟨i, es, by rw [← Array.getElem?_toList]; exact hi, he⟩
  · rintro ⟨i, es, hes, he⟩
    rw [← Array.getElem?_toList] at hes
    exact ⟨es, List.mem_of_getElem? hes, he⟩

theorem mem_chain_iff {m : ChainMap κ ν} {hash : UInt64} {e : κ × ν} :
    e ∈ m.chain hash ↔ ∃ es, m.chains[m.index hash]? = some es ∧ e ∈ es := by
  unfold chain
  rw [Array.getD_eq_getD_getElem?]
  cases m.chains[m.index hash]? <;> simp

theorem mem_toList_of_mem_chain {m : ChainMap κ ν} {hash : UInt64} {e : κ × ν}
    (h : e ∈ m.chain hash) : e ∈ m.toList :=
  let ⟨es, hes, he⟩ := mem_chain_iff.1 h
  mem_toList_iff.2 ⟨_, es, hes, he⟩

theorem toList_allocated (m : ChainMap κ ν) : m.allocated.toList.flatten = m.toList := by
  unfold allocated toList
  split
  · rename_i h
    rw [Array.isEmpty_iff.1 h, Array.toList_replicate, List.flatten_replicate_nil]
    rfl
  · rfl

/-- A change to one chain leaves the entries before and after that chain. -/
theorem exists_toList_modify (chains : Array (List (κ × ν)))
    (f : List (κ × ν) → List (κ × ν)) {i : Nat} (hi : i < chains.size) :
    ∃ before after, chains.toList.flatten = before ++ chains.getD i [] ++ after ∧
      (chains.modify i f).toList.flatten = before ++ f (chains.getD i []) ++ after := by
  obtain ⟨before, c, after, hchains, hlength, hmodify⟩ :=
    List.exists_of_modify f (l := chains.toList) (i := i) (by rwa [Array.length_toList])
  have hc : chains.getD i [] = c := by
    rw [Array.getD_eq_getD_getElem?, ← Array.getElem?_toList, hchains, ← hlength,
      List.getElem?_append_right (Nat.le_refl _), Nat.sub_self]
    rfl
  refine ⟨before.flatten, after.flatten, ?_, ?_⟩
  · rw [hchains, hc]
    simp
  · rw [Array.toList_modify, hmodify, hc]
    simp

/-- A change to one chain that leaves all keys leaves those of the whole list. -/
theorem keys_flatten_modify (f : List (κ × ν) → List (κ × ν))
    (hf : ∀ c, (f c).map Prod.fst = c.map Prod.fst) (chains : List (List (κ × ν))) (i : Nat) :
    (chains.modify i f).flatten.map Prod.fst = chains.flatten.map Prod.fst := by
  induction chains generalizing i with
  | nil => simp
  | cons c chains ih =>
    cases i with
    | zero => simp [hf]
    | succ i => simpa using ih i

section Forms

variable [BEq q] [BucketHash q] [KeyForm κ q] {m : ChainMap κ ν} {k : q}

omit [BucketHash q] in
theorem keys_replaceFirst (k : q) (v : ν) (c : List (κ × ν)) :
    (replaceFirst k v c).map Prod.fst = c.map Prod.fst := by
  induction c with
  | nil => rfl
  | cons e c ih =>
    rw [replaceFirst]
    split
    · rfl
    · rw [List.map_cons, List.map_cons, ih]

theorem keys_replace (m : ChainMap κ ν) (k : q) (v : ν) :
    (m.replace k v).toList.map Prod.fst = m.toList.map Prod.fst := by
  unfold toList replace
  rw [Array.toList_modify]
  exact keys_flatten_modify _ (keys_replaceFirst k v) _ _

/-- A key that is present has an entry. -/
theorem exists_mem_chain_of_contains (h : m.contains k = true) :
    ∃ e ∈ m.chain (bucketHash k), isEntryOf k e = true := by
  unfold contains get? getHashed? at h
  rw [Option.isSome_map, List.find?_isSome] at h
  exact h

/-- Erasing a key that is present takes one entry of that key away. -/
theorem exists_perm_of_erase (h : m.contains k = true) :
    ∃ e, isEntryOf k e = true ∧ m.toList.Perm (e :: (m.erase k).toList) := by
  obtain ⟨e, he, hk⟩ := exists_mem_chain_of_contains h
  have hi : m.index (bucketHash k) < m.chains.size := by
    obtain ⟨es, hes, -⟩ := mem_chain_iff.1 he
    exact (Array.getElem?_eq_some_iff.1 hes).1
  obtain ⟨before, after, htoList, herase⟩ :=
    exists_toList_modify m.chains (·.eraseP (isEntryOf k)) hi
  obtain ⟨e', left, right, -, hk', hc, hc'⟩ := List.exists_of_eraseP he hk
  have hchain : m.chains.getD (m.index (bucketHash k)) [] = left ++ e' :: right := hc
  refine ⟨e', hk', ?_⟩
  have herased : (m.erase k).toList = before ++ (left ++ right) ++ after := by
    unfold erase toList
    rw [if_pos h, herase]
    exact congrArg (before ++ · ++ after) hc'
  have hlist : m.toList = before ++ (left ++ e' :: right) ++ after := by
    rw [← hchain]
    exact htoList
  rw [herased, hlist]
  simp only [List.append_assoc, List.cons_append]
  rw [← List.append_assoc before left, ← List.append_assoc before left]
  exact List.perm_middle

end Forms

section Keys

variable [BEq κ] [BucketHash κ] {m m' : ChainMap κ ν}

/-- A new entry is added to the entries there were. -/
theorem toList_perm_of_insertNew? {k : κ} {v : ν} (h : m.insertNew? k v = some m') :
    m'.toList.Perm ((k, v) :: m.toList) := by
  unfold insertNew? at h
  split at h
  · cases h
  · cases h
    have hi : m.index (bucketHash k) < m.allocated.size := by
      rw [size_allocated]
      exact m.index_lt _
    obtain ⟨before, after, htoList, hinsert⟩ :=
      exists_toList_modify m.allocated (· ++ [(k, v)]) hi
    rw [toList_allocated] at htoList
    show (m.allocated.modify _ _).toList.flatten.Perm _
    rw [hinsert, htoList]
    simp only [List.append_assoc, List.cons_append, List.nil_append]
    rw [← List.append_assoc before, ← List.append_assoc before]
    exact List.perm_middle

namespace WellFormed

/-- Two entries of one key are the same entry. -/
theorem eq_of_beq [EquivBEq κ] (hm : m.WellFormed) {e e' : κ × ν} (he : e ∈ m.toList)
    (he' : e' ∈ m.toList) (h : (e.1 == e'.1) = true) : e = e' := by
  by_contra hne
  have : Std.Symm fun e e' : κ × ν => (e.1 == e'.1) = false := ⟨fun _ _ h => BEq.comm.trans h⟩
  have hfalse := hm.distinct.forall he he' hne
  rw [h] at hfalse
  cases hfalse

theorem mem_chain (hm : m.WellFormed) {e : κ × ν} (he : e ∈ m.toList) :
    e ∈ m.chain (bucketHash e.1) := by
  obtain ⟨i, es, hes, he⟩ := mem_toList_iff.1 he
  refine mem_chain_iff.2 ⟨es, ?_, he⟩
  rw [hm.placed i es hes e he]
  exact hes

/-! ## Operations -/

theorem withBuckets (buckets : Nat) : (withBuckets buckets : ChainMap κ ν).WellFormed where
  placed _ _ h := nomatch h
  distinct := .nil
  size_eq := rfl

theorem clear (m : ChainMap κ ν) : m.clear.WellFormed where
  placed _ _ h := nomatch h
  distinct := .nil
  size_eq := rfl

variable [EquivBEq κ] [LawfulBucketHash κ]

/-- A key that is not present is not that of any entry. -/
theorem beq_eq_false (hm : m.WellFormed) {k : κ} (hk : m.contains k = false) {e : κ × ν}
    (he : e ∈ m.toList) : (k == e.1) = false := by
  cases hke : k == e.1 with
  | false => rfl
  | true =>
    have hentry := get?_eq_none_iff.1 (get?_eq_none_iff_contains.2 hk) e
      (by rw [bucketHash_eq hke]; exact hm.mem_chain he)
    exact ((BEq.comm.trans hentry).symm.trans hke).symm

theorem insertNew? (hm : m.WellFormed) {k : κ} {v : ν} (h : m.insertNew? k v = some m') :
    m'.WellFormed := by
  have hperm := toList_perm_of_insertNew? h
  have hk := contains_of_insertNew? h
  refine ⟨fun i es hes e he => ?_, ?_, ?_⟩
  · unfold ChainMap.insertNew? at h
    rw [hk] at h
    cases h
    show m.index (bucketHash e.1) = i
    -- The entries of the chains that were made on this occasion are none.
    have hold : ∀ es', m.allocated[i]? = some es' → e ∈ es' → m.index (bucketHash e.1) = i := by
      intro es' hes' he'
      unfold allocated at hes'
      split at hes'
      · rw [Array.getElem?_replicate] at hes'
        split at hes'
        · cases hes'
          cases he'
        · cases hes'
      · exact hm.placed i es' hes' e he'
    replace hes : (m.allocated.modify _ _)[i]? = some es := hes
    rw [Array.getElem?_modify] at hes
    split at hes
    · rename_i hindex
      obtain ⟨es', hes', rfl⟩ := Option.map_eq_some_iff.1 hes
      rcases List.mem_append.1 he with he | he
      · exact hold es' hes' he
      · rw [List.mem_singleton.1 he]
        exact hindex
    · exact hold es hes he
  · rw [hperm.pairwise_iff fun h => BEq.comm.trans h]
    exact List.pairwise_cons.2 ⟨fun e he => hm.beq_eq_false hk he, hm.distinct⟩
  · rw [hperm.length_eq, List.length_cons, ← hm.size_eq]
    unfold ChainMap.insertNew? at h
    rw [hk] at h
    cases h
    rfl

end WellFormed

end Keys

section Values

variable [BEq κ] [BucketHash κ] [BEq q] [BucketHash q] [KeyForm κ q] {m m' : ChainMap κ ν}

namespace WellFormed

theorem replace (hm : m.WellFormed) (k : q) (v : ν) : (m.replace k v).WellFormed := by
  refine ⟨fun i es hes e he => ?_, ?_, ?_⟩
  · replace hes : (m.chains.modify _ _)[i]? = some es := hes
    rw [Array.getElem?_modify] at hes
    split at hes
    · obtain ⟨es', hes', rfl⟩ := Option.map_eq_some_iff.1 hes
      have hkey : e.1 ∈ es'.map Prod.fst :=
        keys_replaceFirst k v es' ▸ List.mem_map_of_mem he
      obtain ⟨e', he', heq⟩ := List.mem_map.1 hkey
      rw [← heq]
      exact hm.placed i es' hes' e' he'
    · exact hm.placed i es hes e he
  · have h := hm.distinct
    rw [← List.pairwise_map (f := Prod.fst) (R := fun k k' => (k == k') = false)] at h ⊢
    rw [keys_replace]
    exact h
  · have h := congrArg List.length (keys_replace m k v)
    rw [List.length_map, List.length_map] at h
    rw [h]
    exact hm.size_eq

theorem erase [EquivBEq κ] (hm : m.WellFormed) (k : q) : (m.erase k).WellFormed := by
  cases hk : m.contains k with
  | false =>
    rw [erase_of_not_contains hk]
    exact hm
  | true =>
    obtain ⟨e, -, hperm⟩ := exists_perm_of_erase hk
    refine ⟨fun i es hes e he => ?_, ?_, ?_⟩
    · unfold ChainMap.erase at hes ⊢
      rw [if_pos hk] at hes ⊢
      replace hes : (m.chains.modify _ _)[i]? = some es := hes
      rw [Array.getElem?_modify] at hes
      split at hes
      · obtain ⟨es', hes', rfl⟩ := Option.map_eq_some_iff.1 hes
        exact hm.placed i es' hes' e (List.mem_of_mem_eraseP he)
      · exact hm.placed i es hes e he
    · have h := (hperm.pairwise_iff fun h => BEq.comm.trans h).1 hm.distinct
      exact h.of_cons
    · have h := hperm.length_eq
      rw [List.length_cons, ← hm.size_eq] at h
      unfold ChainMap.erase at h ⊢
      rw [if_pos hk] at h ⊢
      show m.size - 1 = _
      rw [h]
      rfl

variable [EquivBEq q] [LawfulBucketHash q] [LawfulKeyForm κ q]

/-- The keys that have a value are those of the entries. -/
theorem get?_eq_some_iff (hm : m.WellFormed) {k : q} {v : ν} :
    m.get? k = some v ↔ ∃ e ∈ m.toList, isEntryOf k e = true ∧ e.2 = v := by
  constructor
  · intro h
    obtain ⟨e, he, rfl⟩ := Option.map_eq_some_iff.1 h
    exact ⟨e, mem_toList_of_mem_chain (List.mem_of_find?_eq_some he), List.find?_some he, rfl⟩
  · rintro ⟨e, he, hk, rfl⟩
    have hchain : e ∈ m.chain (bucketHash k) := by
      have := hm.mem_chain he
      rwa [← bucketHash_form (q := q), bucketHash_eq hk] at this
    cases hf : (m.chain (bucketHash k)).find? (isEntryOf k) with
    | none => exact (List.find?_eq_none.1 hf e hchain hk).elim
    | some e' =>
      have := LawfulKeyForm.equivBEq (κ := κ) q
      have hk' : isEntryOf k e' = true := List.find?_some hf
      have he' := mem_toList_of_mem_chain (List.mem_of_find?_eq_some hf)
      have heq : e' = e := hm.eq_of_beq he' he (by
        rw [← form_beq_form (q := q)]
        exact BEq.trans hk' (BEq.symm hk))
      show ((m.chain (bucketHash k)).find? (isEntryOf k)).map Prod.snd = _
      rw [hf, heq]
      rfl

/-- In which order the entries are searched makes no difference. -/
theorem get?_eq_find? (hm : m.WellFormed) (k : q) :
    m.get? k = (m.toList.find? (isEntryOf k)).map Prod.snd := by
  cases hf : m.toList.find? (isEntryOf k) with
  | none =>
    refine get?_eq_none_iff.2 fun e he => ?_
    exact Bool.eq_false_iff.2 (List.find?_eq_none.1 hf e (mem_toList_of_mem_chain he))
  | some e =>
    exact hm.get?_eq_some_iff.2 ⟨e, List.mem_of_find?_eq_some hf, List.find?_some hf, rfl⟩

/-- An erased key has no value, and the others keep theirs. -/
theorem get?_erase (hm : m.WellFormed) (k k' : q) :
    (m.erase k).get? k' = if k == k' then none else m.get? k' := by
  cases hkk' : k == k' with
  | false => exact get?_erase_of_ne hkk'
  | true =>
    rw [← get?_congr hkk']
    cases hk : m.contains k with
    | false =>
      rw [erase_of_not_contains hk]
      exact get?_eq_none_iff_contains.2 hk
    | true =>
      have := LawfulKeyForm.equivBEq (κ := κ) q
      obtain ⟨e, he, hperm⟩ := exists_perm_of_erase hk
      have hdistinct := (hperm.pairwise_iff fun h => BEq.comm.trans h).1 hm.distinct
      refine get?_eq_none_iff.2 fun e' he' => ?_
      have hne := (List.pairwise_cons.1 hdistinct).1 e' (mem_toList_of_mem_chain he')
      rw [← form_beq_form (q := q), BEq.congr_left he, BEq.comm] at hne
      exact hne

end WellFormed

end Values

end DynLisp.ChainMap
