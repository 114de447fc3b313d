import Mathlib.Data.Finmap
import Mathlib.Data.String.Basic
import DynLisp.Proofs.ChainMap.WellFormed

/-!
# Chained maps as finite maps

A sequence of requests to a chained map is answered as it would be by a finite map, of which only
the values of its keys are known (`FiniteMap`). The chained map is well-formed all the time, and
what it does with its chains and its size is always possible (`requests_served_as_by_finiteMap`).
A chained map stands for a finite map if all keys have the same values in both (`Represents`):

* `Represents.serve`: then they answer a request alike, and one stands for the other again;
* `Represents.serveAll`: so it is for any sequence of requests.
-/

namespace DynLisp

/-- A request to a map. An insertion gives the key itself, the others a form of it. -/
inductive Request (κ q ν : Type) where
  | insert (k : κ) (v : ν)
  | get (k : q)
  /-- The present value of a key is asked for and, if there is one, another put in its place. -/
  | assign (k : q) (v : ν)
  | remove (k : q)
  | contains (k : q)
  | size
  | isEmpty
  | clear

/-- What a map answers to a request. -/
inductive Answer (ν : Type) where
  | flag (b : Bool)
  | value (v : Option ν)
  | count (n : Nat)
  | done
deriving DecidableEq

/-- The answers to requests that are made one after the other, and the state after the last. -/
def serveAll {σ ρ α : Type} (serve : σ → ρ → α × σ) (s : σ) : List ρ → List α × σ
  | [] => ([], s)
  | r :: rs =>
    let (answer, s) := serve s r
    let (answers, s) := serveAll serve s rs
    (answer :: answers, s)

namespace ChainMap

variable {κ q ν : Type} [BEq κ] [BucketHash κ] [BEq q] [BucketHash q] [KeyForm κ q]

/-- The answer of a chained map to a request, and the map after it. -/
def serve (m : ChainMap κ ν) : Request κ q ν → Answer ν × ChainMap κ ν
  | .insert k v =>
    match m.insertNew? k v with
    | some m' => (.flag true, m')
    | none => (.flag false, m)
  | .get k => (.value (m.get? k), m)
  | .assign k v => (.value (m.get? k), m.replace k v)
  | .remove k => (.value (m.get? k), m.erase k)
  | .contains k => (.flag (m.contains k), m)
  | .size => (.count m.size, m)
  | .isEmpty => (.flag m.isEmpty, m)
  | .clear => (.done, m.clear)

theorem bucketCount_serve (m : ChainMap κ ν) (r : Request κ q ν) :
    (m.serve r).2.bucketCount = m.bucketCount := by
  cases r with
  | insert k v =>
    simp only [serve, insertNew?]
    cases m.contains k <;> rfl
  | remove k =>
    simp only [serve, erase]
    split <;> rfl
  | _ => rfl

theorem bucketCount_serveAll (m : ChainMap κ ν) (requests : List (Request κ q ν)) :
    (serveAll serve m requests).2.bucketCount = m.bucketCount := by
  induction requests generalizing m with
  | nil => rfl
  | cons r rs ih => exact (ih _).trans (m.bucketCount_serve r)

end ChainMap

/-! ## Finite maps -/

section FiniteMap

variable {κ q ν : Type} [BEq q] [EquivBEq q]

/-- The equality of keys. -/
def keySetoid (q : Type) [BEq q] [EquivBEq q] : Setoid q where
  r k k' := (k == k') = true
  iseqv := ⟨fun _ => BEq.rfl, BEq.symm, BEq.trans⟩

/-- A key, of which equal forms are not told apart. -/
def Key (q : Type) [BEq q] [EquivBEq q] : Type :=
  Quotient (keySetoid q)

/-- The key with this form. -/
def Key.of (k : q) : Key q :=
  Quotient.mk (keySetoid q) k

theorem Key.of_eq_iff {k k' : q} : Key.of k = Key.of k' ↔ (k == k') = true :=
  ⟨Quotient.exact, Quotient.sound (s := keySetoid q)⟩

instance : DecidableEq (Key q) :=
  @Quotient.decidableEq q (keySetoid q) fun k k' =>
    inferInstanceAs (Decidable ((k == k') = true))

/-- A finite map from keys to values. -/
abbrev FiniteMap (q ν : Type) [BEq q] [EquivBEq q] : Type :=
  Finmap fun _ : Key q => ν

namespace FiniteMap

/-- The answer of a finite map to a request, and the map after it. A key that is present is not
inserted again. -/
def serve [KeyForm κ q] (a : FiniteMap q ν) : Request κ q ν → Answer ν × FiniteMap q ν
  | .insert k v =>
    if Key.of (form k : q) ∈ a then (.flag false, a)
    else (.flag true, a.insert (Key.of (form k : q)) v)
  | .get k => (.value (a.lookup (Key.of k)), a)
  | .assign k v =>
    (.value (a.lookup (Key.of k)), if Key.of k ∈ a then a.insert (Key.of k) v else a)
  | .remove k => (.value (a.lookup (Key.of k)), a.erase (Key.of k))
  | .contains k => (.flag (decide (Key.of k ∈ a)), a)
  | .size => (.count a.keys.card, a)
  | .isEmpty => (.flag (decide (a.keys = ∅)), a)
  | .clear => (.done, ∅)

theorem keys_insert (a : FiniteMap q ν) (k : Key q) (v : ν) :
    (a.insert k v).keys = insert k a.keys := by
  ext k'
  rw [Finmap.mem_keys, Finmap.mem_insert, Finset.mem_insert, Finmap.mem_keys]

theorem lookup_insert_of (a : FiniteMap q ν) (k k' : q) (v : ν) :
    (a.insert (Key.of k) v).lookup (Key.of k') =
      if k == k' then some v else a.lookup (Key.of k') := by
  split
  · rename_i h
    rw [Key.of_eq_iff.2 h]
    exact Finmap.lookup_insert a
  · rename_i h
    exact Finmap.lookup_insert_of_ne a fun heq => h (Key.of_eq_iff.1 heq.symm)

theorem lookup_erase_of (a : FiniteMap q ν) (k k' : q) :
    (a.erase (Key.of k)).lookup (Key.of k') =
      if k == k' then none else a.lookup (Key.of k') := by
  split
  · rename_i h
    rw [Key.of_eq_iff.2 h]
    exact Finmap.lookup_erase _ a
  · rename_i h
    exact Finmap.lookup_erase_ne fun heq => h (Key.of_eq_iff.1 heq.symm)

end FiniteMap

end FiniteMap

/-! ## Refinement -/

section Refinement

variable {κ q ν : Type} [BEq κ] [BucketHash κ] [BEq q] [EquivBEq q] [BucketHash q] [KeyForm κ q]

/-- All keys have the values in a chained map that they have in a finite map. -/
structure Represents (m : ChainMap κ ν) (a : FiniteMap q ν) : Prop where
  wellFormed : m.WellFormed
  get?_eq : ∀ k : q, m.get? k = a.lookup (Key.of k)
  size_eq : m.size = a.keys.card

namespace Represents

theorem withBuckets (buckets : Nat) :
    Represents (.withBuckets buckets : ChainMap κ ν) (∅ : FiniteMap q ν) :=
  ⟨.withBuckets buckets, fun _ => rfl, rfl⟩

variable {m : ChainMap κ ν} {a : FiniteMap q ν}

theorem clear (m : ChainMap κ ν) : Represents m.clear (∅ : FiniteMap q ν) :=
  ⟨.clear m, fun _ => rfl, rfl⟩

theorem contains_eq (h : Represents m a) (k : q) : m.contains k = decide (Key.of k ∈ a) := by
  unfold ChainMap.contains
  rw [h.get?_eq, Bool.eq_iff_iff, decide_eq_true_iff]
  exact Finmap.lookup_isSome

theorem isEmpty_eq (h : Represents m a) : m.isEmpty = decide (a.keys = ∅) := by
  unfold ChainMap.isEmpty
  rw [h.size_eq, Bool.eq_iff_iff, beq_iff_eq, decide_eq_true_iff, Finset.card_eq_zero]

variable [LawfulBucketHash q]

theorem assign (h : Represents m a) (k : q) (v : ν) :
    Represents (m.replace k v) (if Key.of k ∈ a then a.insert (Key.of k) v else a) := by
  refine ⟨h.wellFormed.replace k v, fun k' => ?_, ?_⟩
  · rw [ChainMap.get?_replace, h.get?_eq]
    by_cases hk : Key.of k ∈ a
    · rw [if_pos hk, FiniteMap.lookup_insert_of]
      split
      · rename_i hkk'
        obtain ⟨w, hw⟩ := Finmap.mem_iff.1 hk
        rw [← Key.of_eq_iff.2 hkk', hw]
        rfl
      · rfl
    · rw [if_neg hk]
      split
      · rename_i hkk'
        rw [← Key.of_eq_iff.2 hkk', Finmap.lookup_eq_none.2 hk]
        rfl
      · rfl
  · have hsize : (m.replace k v).size = m.size := rfl
    rw [hsize, h.size_eq]
    split
    · rename_i hk
      rw [FiniteMap.keys_insert, Finset.insert_eq_of_mem (Finmap.mem_keys.2 hk)]
    · rfl

variable [LawfulKeyForm κ q]

theorem insert (h : Represents m a) {k : κ} {v : ν} {m' : ChainMap κ ν}
    (hm' : m.insertNew? k v = some m') : Represents m' (a.insert (Key.of (form k : q)) v) := by
  have := LawfulKeyForm.equivBEq (κ := κ) q
  have := LawfulKeyForm.lawfulBucketHash (κ := κ) q
  have hnew : Key.of (form k : q) ∉ a := by
    have hk := h.contains_eq (form k : q)
    rw [ChainMap.contains_form, ChainMap.contains_of_insertNew? hm'] at hk
    exact of_decide_eq_false hk.symm
  refine ⟨h.wellFormed.insertNew? hm', fun k' => ?_, ?_⟩
  · rw [ChainMap.get?_of_insertNew? hm', FiniteMap.lookup_insert_of, h.get?_eq]
  · rw [FiniteMap.keys_insert, Finset.card_insert_of_notMem fun hk => hnew (Finmap.mem_keys.1 hk),
      ← h.size_eq, h.wellFormed.size_eq, (h.wellFormed.insertNew? hm').size_eq,
      (ChainMap.toList_perm_of_insertNew? hm').length_eq, List.length_cons]

theorem remove (h : Represents m a) (k : q) : Represents (m.erase k) (a.erase (Key.of k)) := by
  have := LawfulKeyForm.equivBEq (κ := κ) q
  refine ⟨h.wellFormed.erase k, fun k' => ?_, ?_⟩
  · rw [h.wellFormed.get?_erase, FiniteMap.lookup_erase_of, h.get?_eq]
  · rw [Finmap.keys_erase]
    have hk := h.contains_eq k
    cases hc : m.contains k with
    | false =>
      rw [hc] at hk
      rw [ChainMap.erase_of_not_contains hc, h.size_eq, Finset.erase_eq_of_notMem]
      exact fun hmem => of_decide_eq_false hk.symm (Finmap.mem_keys.1 hmem)
    | true =>
      rw [hc] at hk
      rw [Finset.card_erase_of_mem (Finmap.mem_keys.2 (of_decide_eq_true hk.symm)), ← h.size_eq]
      unfold ChainMap.erase
      rw [if_pos hc]

/-- Both maps answer a request alike, and one stands for the other again. -/
theorem serve (h : Represents m a) (r : Request κ q ν) :
    (m.serve r).1 = (FiniteMap.serve a r).1 ∧
      Represents (m.serve r).2 (FiniteMap.serve a r).2 := by
  cases r with
  | insert k v =>
    simp only [ChainMap.serve, FiniteMap.serve]
    have hk := h.contains_eq (form k : q)
    rw [ChainMap.contains_form] at hk
    cases hm' : m.insertNew? k v with
    | some m' =>
      rw [ChainMap.contains_of_insertNew? hm'] at hk
      rw [if_neg (of_decide_eq_false hk.symm)]
      exact ⟨rfl, h.insert hm'⟩
    | none =>
      have hc : m.contains k = true := by
        unfold ChainMap.insertNew? at hm'
        split at hm'
        · assumption
        · cases hm'
      rw [hc] at hk
      rw [if_pos (of_decide_eq_true hk.symm)]
      exact ⟨rfl, h⟩
  | get k => exact ⟨congrArg Answer.value (h.get?_eq k), h⟩
  | assign k v => exact ⟨congrArg Answer.value (h.get?_eq k), h.assign k v⟩
  | remove k => exact ⟨congrArg Answer.value (h.get?_eq k), h.remove k⟩
  | contains k => exact ⟨congrArg Answer.flag (h.contains_eq k), h⟩
  | size => exact ⟨congrArg Answer.count h.size_eq, h⟩
  | isEmpty => exact ⟨congrArg Answer.flag h.isEmpty_eq, h⟩
  | clear => exact ⟨rfl, .clear m⟩

/-- Both maps answer a sequence of requests alike. -/
theorem serveAll (h : Represents m a) (requests : List (Request κ q ν)) :
    (DynLisp.serveAll ChainMap.serve m requests).1 =
        (DynLisp.serveAll FiniteMap.serve a requests).1 ∧
      Represents (DynLisp.serveAll ChainMap.serve m requests).2
        (DynLisp.serveAll FiniteMap.serve a requests).2 := by
  induction requests generalizing m a with
  | nil => exact ⟨rfl, h⟩
  | cons r rs ih =>
    obtain ⟨hanswer, hstate⟩ := h.serve r
    obtain ⟨hanswers, hstate⟩ := ih hstate
    exact ⟨congrArg₂ List.cons hanswer hanswers, hstate⟩

end Represents

variable [LawfulBucketHash q] [LawfulKeyForm κ q]

/-- However many buckets are asked for and whatever the requests are, a map that is empty at first
answers them as a finite map does. After them there are no chains or one for each bucket, and as
many buckets as were asked for but at least one; each entry is in the chain of its own hash, no key
occurs twice, and the size is the number of entries. A chain that an insertion writes to exists, and
where a removal makes the size smaller it is not zero. -/
theorem requests_served_as_by_finiteMap (buckets : Nat) (requests : List (Request κ q ν)) :
    let run := serveAll ChainMap.serve (.withBuckets buckets : ChainMap κ ν) requests
    run.1 = (serveAll FiniteMap.serve (∅ : FiniteMap q ν) requests).1 ∧
      run.2.bucketCount = max buckets 1 ∧
      (run.2.chains = #[] ∨ run.2.chains.size = run.2.bucketCount) ∧
      run.2.WellFormed ∧
      (∀ k : κ, run.2.index (bucketHash k) < run.2.allocated.size) ∧
      ∀ k : q, run.2.contains k = true → 0 < run.2.size := by
  intro run
  obtain ⟨hanswers, hstate⟩ := (Represents.withBuckets (κ := κ) (q := q) (ν := ν) buckets).serveAll
    requests
  refine ⟨hanswers, ChainMap.bucketCount_serveAll _ requests, run.2.size_chains,
    hstate.wellFormed, fun k => ?_, fun k hk => ?_⟩
  · rw [ChainMap.size_allocated]
    exact run.2.index_lt _
  · obtain ⟨e, he, -⟩ := ChainMap.exists_mem_chain_of_contains hk
    rw [hstate.wellFormed.size_eq]
    exact List.length_pos_of_mem (ChainMap.mem_toList_of_mem_chain he)

/-- Two keys in the one bucket, one of them inserted twice. -/
def collidingRequests : List (Request String String Nat) :=
  [.insert "ab" 1, .insert "b" 2, .insert "ab" 3, .assign "b" 4, .remove "ab", .get "b", .get "ab",
    .clear, .contains "b", .insert "b" 5, .size]

theorem answers_to_collidingRequests :
    let run := serveAll ChainMap.serve (.withBuckets 0 : ChainMap String Nat) collidingRequests
    run.1 = [.flag true, .flag true, .flag false, .value (some 2), .value (some 1),
        .value (some 4), .value none, .done, .flag false, .flag true, .count 1] ∧
      run.1 = (serveAll FiniteMap.serve (∅ : FiniteMap String Nat) collidingRequests).1 ∧
      run.2.bucketCount = 1 ∧ run.2.WellFormed := by
  intro run
  obtain ⟨hanswers, hcount, -, hwell, -⟩ := requests_served_as_by_finiteMap 0 collidingRequests
  exact ⟨by decide +kernel, hanswers, hcount, hwell⟩

end Refinement

end DynLisp
