import DynLisp.ChainMap.Cursor
import DynLisp.Proofs.ChainMap.FiniteMap

/-!
# Walking through a map with a history

What was inserted is live until its key is removed or the map is cleared, and it keeps the time of
its insertion (`live`). After any sequence of requests, each chain of the map holds the live entries
of its bucket by their times (`Follows`), so the whole map is in the order of buckets and then of
times, and a cursor comes by each live entry once (`iteration_follows_history`):

* `Follows.serve`, `Follows.serveAll`: a request keeps the chains so, and so do all;
* `Follows.exists_ordered`: the chains one after the other are all live entries in that order;
* `Cursor.Counts.next_iterate`: what a cursor gives after some steps, and how many are left then.
-/

namespace DynLisp

/-! ## Histories -/

/-- An entry with the time of its insertion. -/
structure Dated (κ ν : Type) where
  key : κ
  value : ν
  since : Nat
deriving DecidableEq

namespace Dated

variable {κ q ν : Type} [BEq q] [KeyForm κ q]

def entry (d : Dated κ ν) : κ × ν :=
  (d.key, d.value)

/-- Whether the entry is that of the key with this form. -/
def isOf (k : q) (d : Dated κ ν) : Bool :=
  form d.key == k

/-- The entry with another value if it is that of the key. -/
def assign (k : q) (v : ν) (d : Dated κ ν) : Dated κ ν :=
  if d.isOf k then { d with value := v } else d

@[simp] theorem key_assign (k : q) (v : ν) (d : Dated κ ν) : (d.assign k v).key = d.key := by
  unfold assign
  split <;> rfl

@[simp] theorem since_assign (k : q) (v : ν) (d : Dated κ ν) :
    (d.assign k v).since = d.since := by
  unfold assign
  split <;> rfl

end Dated

section Histories

variable {κ q ν : Type} [BEq κ] [BEq q] [KeyForm κ q]

/-- The live entries after a request that is made at time `now`. -/
def liveAfter (now : Nat) (entries : List (Dated κ ν)) : Request κ q ν → List (Dated κ ν)
  | .insert k v =>
    if entries.any (Dated.isOf k) then entries else entries ++ [⟨k, v, now⟩]
  | .assign k v => entries.map (Dated.assign k v)
  | .remove k => entries.filter fun d => !d.isOf k
  | .clear => []
  | _ => entries

/-- The live entries after requests that are made one after the other, the first at time `now`. -/
def live (now : Nat) (entries : List (Dated κ ν)) : List (Request κ q ν) → List (Dated κ ν)
  | [] => entries
  | r :: rs => live (now + 1) (liveAfter now entries r) rs

/-- An entry with this key and time was live before, or is inserted now. -/
theorem mem_liveAfter {now : Nat} {entries : List (Dated κ ν)} {r : Request κ q ν}
    {d : Dated κ ν} (h : d ∈ liveAfter now entries r) :
    (∃ d' ∈ entries, d'.key = d.key ∧ d'.since = d.since) ∨
      d.since = now ∧ ∃ v, r = .insert d.key v := by
  cases r with
  | insert k v =>
    rw [liveAfter] at h
    split at h
    · exact .inl ⟨d, h, rfl, rfl⟩
    · rcases List.mem_append.1 h with h | h
      · exact .inl ⟨d, h, rfl, rfl⟩
      · rw [List.mem_singleton.1 h]
        exact .inr ⟨rfl, v, rfl⟩
  | assign k v =>
    obtain ⟨d', hd', rfl⟩ := List.mem_map.1 h
    exact .inl ⟨d', hd', (d'.key_assign k v).symm, (d'.since_assign k v).symm⟩
  | remove k => exact .inl ⟨d, (List.mem_filter.1 h).1, rfl, rfl⟩
  | clear => cases h
  | _ => exact .inl ⟨d, h, rfl, rfl⟩

/-- The time of a live entry is that of a request to insert its key. -/
theorem mem_live {now : Nat} {entries : List (Dated κ ν)} {requests : List (Request κ q ν)}
    {d : Dated κ ν} (h : d ∈ live now entries requests) :
    (∃ d' ∈ entries, d'.key = d.key ∧ d'.since = d.since) ∨
      ∃ i v, d.since = now + i ∧ requests[i]? = some (.insert d.key v) := by
  induction requests generalizing now entries with
  | nil => exact .inl ⟨d, h, rfl, rfl⟩
  | cons r rs ih =>
    rcases ih h with ⟨d', hd', hkey, hsince⟩ | ⟨i, v, hsince, hrequest⟩
    · rcases mem_liveAfter hd' with ⟨d'', hd'', hkey', hsince'⟩ | ⟨hnow, v, rfl⟩
      · exact .inl ⟨d'', hd'', hkey'.trans hkey, hsince'.trans hsince⟩
      · exact .inr ⟨0, v, hsince.symm.trans hnow, by rw [hkey]; rfl⟩
    · exact .inr ⟨i + 1, v, by omega, hrequest⟩

end Histories

namespace ChainMap

variable {κ q ν : Type}

/-- The bucket of an entry. -/
def bucketOf [BucketHash κ] (m : ChainMap κ ν) (d : Dated κ ν) : Nat :=
  m.index (bucketHash d.key)

/-- The order of buckets and, in one bucket, of times. -/
def Precedes [BucketHash κ] (m : ChainMap κ ν) (d d' : Dated κ ν) : Prop :=
  m.bucketOf d < m.bucketOf d' ∨ m.bucketOf d = m.bucketOf d' ∧ d.since < d'.since

/-! ## Chains -/

/-- The chains hold the live entries of their buckets, which are all from before `now`, by time. -/
structure Follows [BEq κ] [BucketHash κ] (m : ChainMap κ ν) (entries : List (Dated κ ν))
    (now : Nat) : Prop where
  chain_eq : ∀ i, m.chains.getD i [] = (entries.filter fun d => m.bucketOf d == i).map Dated.entry
  size_eq : m.size = entries.length
  ordered : entries.Pairwise fun d d' => d.since < d'.since
  past : ∀ d ∈ entries, d.since < now
  distinct : entries.Pairwise fun d d' => (d.key == d'.key) = false

/-- If only one element satisfies `p`, erasing it leaves all that do not. -/
theorem eraseP_eq_filter {α : Type} {p : α → Bool} {l : List α}
    (h : l.Pairwise fun a b => p a = true → p b = false) :
    l.eraseP p = l.filter fun a => !p a := by
  induction h with
  | nil => rfl
  | @cons a l ha _ ih =>
    cases hp : p a with
    | false => simp [hp, ih]
    | true =>
      rw [List.eraseP_cons_of_pos hp, List.filter_cons_of_neg (by simp [hp])]
      exact (List.filter_eq_self.2 fun b hb => by simp [ha b hb hp]).symm

/-- If only one entry is that of a key, it is the one that is given another value. -/
theorem replaceFirst_eq_map [BEq q] [KeyForm κ q] {k : q} {c : List (κ × ν)}
    (h : c.Pairwise fun e e' => isEntryOf k e = true → isEntryOf k e' = false) (v : ν) :
    replaceFirst k v c = c.map fun e => if isEntryOf k e then (e.1, v) else e := by
  induction h with
  | nil => rfl
  | @cons e c he _ ih =>
    rw [replaceFirst, List.map_cons]
    split
    · rename_i hk
      have hrest : c.map (fun e => if isEntryOf k e then (e.1, v) else e) = c.map id :=
        List.map_congr_left fun e' he' => if_neg (Bool.eq_false_iff.1 (he e' he' hk))
      rw [hrest, List.map_id]
    · rw [ih]

namespace Follows

section Keys

variable [BEq κ] [BucketHash κ] {m : ChainMap κ ν} {entries : List (Dated κ ν)} {now : Nat}

theorem withBuckets (buckets now : Nat) :
    Follows (.withBuckets buckets : ChainMap κ ν) [] now where
  chain_eq _ := rfl
  size_eq := rfl
  ordered := .nil
  past := nofun
  distinct := .nil

theorem clear (m : ChainMap κ ν) (now : Nat) : Follows m.clear [] now where
  chain_eq _ := rfl
  size_eq := rfl
  ordered := .nil
  past := nofun
  distinct := .nil

theorem later (h : Follows m entries now) : Follows m entries (now + 1) :=
  { h with past := fun d hd => (h.past d hd).trans (Nat.lt_succ_self now) }

end Keys

variable [BEq κ] [BucketHash κ] [BEq q] [BucketHash q] [KeyForm κ q] [LawfulKeyForm κ q]
  {m m' : ChainMap κ ν} {entries : List (Dated κ ν)} {now : Nat}

/-- Only one entry is that of a key. -/
theorem isOf_unique [EquivBEq q] (h : Follows m entries now) (k : q) :
    entries.Pairwise fun d d' => d.isOf k = true → d'.isOf k = false := by
  refine h.distinct.imp fun {d d'} hne hd => Bool.eq_false_iff.2 fun hd' => ?_
  rw [← form_beq_form (q := q), BEq.trans hd (BEq.symm hd')] at hne
  cases hne

variable [LawfulBucketHash q]

/-- Entries of a key are in its bucket. -/
theorem bucketOf_eq {k : q} {d : Dated κ ν} (h : d.isOf k = true) :
    m.bucketOf d = m.index (bucketHash k) := by
  unfold bucketOf
  rw [← bucketHash_form (q := q), bucketHash_eq h]

theorem contains_eq (h : Follows m entries now) (k : q) :
    m.contains k = entries.any (Dated.isOf k) := by
  have hchain : m.chain (bucketHash k) = _ := h.chain_eq (m.index (bucketHash k))
  unfold contains get? getHashed?
  rw [Option.isSome_map, hchain, Bool.eq_iff_iff, List.find?_isSome, List.any_eq_true]
  constructor
  · rintro ⟨_, he, hk⟩
    obtain ⟨d, hd, rfl⟩ := List.mem_map.1 he
    exact ⟨d, (List.mem_filter.1 hd).1, hk⟩
  · rintro ⟨d, hd, hk⟩
    have hbucket := beq_iff_eq.2 (bucketOf_eq (m := m) hk)
    exact ⟨d.entry, List.mem_map_of_mem (List.mem_filter.2 ⟨hd, hbucket⟩), hk⟩

/-- A new entry comes last in its chain. -/
theorem insert [LawfulBucketHash κ] (h : Follows m entries now) {k : κ} {v : ν}
    (hm' : m.insertNew? k v = some m') : Follows m' (entries ++ [⟨k, v, now⟩]) (now + 1) := by
  have hk := contains_of_insertNew? hm'
  unfold insertNew? at hm'
  rw [if_neg (by simp [hk])] at hm'
  cases hm'
  refine ⟨fun i => ?_, ?_, ?_, ?_, ?_⟩
  · have hi : m.index (bucketHash k) < m.allocated.size := by
      rw [size_allocated]
      exact m.index_lt _
    show (m.allocated.modify _ _).getD i [] =
      ((entries ++ [(⟨k, v, now⟩ : Dated κ ν)]).filter fun d => m.bucketOf d == i).map Dated.entry
    rw [getD_modify _ _ (.inl hi), getD_allocated, h.chain_eq, List.filter_append, List.map_append]
    by_cases hi' : m.index (bucketHash k) = i <;> simp [hi', bucketOf, Dated.entry]
  · show m.size + 1 = _
    rw [h.size_eq, List.length_append, List.length_singleton]
  · exact List.pairwise_append.2 ⟨h.ordered, List.pairwise_singleton _ _, by simpa using h.past⟩
  · intro d hd
    rcases List.mem_append.1 hd with hd | hd
    · exact h.later.past d hd
    · rw [List.mem_singleton.1 hd]
      exact Nat.lt_succ_self now
  · have hnone : entries.any (Dated.isOf k) = false := (h.contains_eq k).symm.trans hk
    have hdistinct : ∀ d ∈ entries, (d.key == k) = false := fun d hd =>
      Bool.eq_false_iff.2 (List.any_eq_false.1 hnone d hd)
    exact List.pairwise_append.2
      ⟨h.distinct, List.pairwise_singleton _ _, by simpa using hdistinct⟩

variable [EquivBEq q]

/-- An entry that is given another value keeps its place. -/
theorem assign (h : Follows m entries now) (k : q) (v : ν) :
    Follows (m.replace k v) (entries.map (Dated.assign k v)) now := by
  refine ⟨fun i => ?_, ?_, ?_, ?_, ?_⟩
  · show (m.chains.modify _ _).getD i [] =
      ((entries.map (Dated.assign k v)).filter fun d => m.bucketOf d == i).map Dated.entry
    have hbucket : ((fun d => m.bucketOf d == i) ∘ Dated.assign k v) =
        fun d => m.bucketOf d == i := by
      funext d
      simp [bucketOf]
    rw [getD_modify _ _ (.inr rfl), h.chain_eq, List.filter_map, hbucket]
    split
    · have hunique := ((h.isOf_unique k).filter fun d => m.bucketOf d == i)
      rw [replaceFirst_eq_map (List.pairwise_map.2 hunique), List.map_map, List.map_map]
      refine List.map_congr_left fun d _ => ?_
      show (if d.isOf k then (d.key, v) else d.entry) = (d.assign k v).entry
      unfold Dated.assign
      split <;> rfl
    · rename_i hi
      -- The key has no entry in this bucket.
      rw [List.map_map]
      refine List.map_congr_left fun d hd => ?_
      have hne : ¬ d.isOf k = true := fun hk =>
        hi ((bucketOf_eq hk).symm.trans (beq_iff_eq.1 (List.mem_filter.1 hd).2))
      show d.entry = (d.assign k v).entry
      rw [Dated.assign, if_neg hne]
  · rw [List.length_map]
    exact h.size_eq
  · simpa [List.pairwise_map] using h.ordered
  · simpa using h.past
  · simpa [List.pairwise_map] using h.distinct

/-- The others keep their order when an entry is removed. -/
theorem remove (h : Follows m entries now) (k : q) :
    Follows (m.erase k) (entries.filter fun d => !d.isOf k) now := by
  have herased := eraseP_eq_filter (h.isOf_unique k)
  have hany := h.contains_eq k
  cases hk : m.contains k with
  | false =>
    rw [hk] at hany
    rw [erase_of_not_contains hk, ← herased, List.eraseP_of_forall_not (by simpa using hany.symm)]
    exact h
  | true =>
    unfold erase
    rw [if_pos hk]
    refine ⟨fun i => ?_, ?_, ?_, ?_, ?_⟩
    · show (m.chains.modify _ _).getD i [] =
        ((entries.filter fun d => !d.isOf k).filter fun d => m.bucketOf d == i).map Dated.entry
      rw [getD_modify _ _ (.inr rfl), h.chain_eq, List.filter_comm]
      have hchain := eraseP_eq_filter ((h.isOf_unique k).filter fun d => m.bucketOf d == i)
      rw [← hchain]
      split
      · rw [List.eraseP_map]
        rfl
      · rename_i hi
        refine congrArg _ (List.eraseP_of_forall_not fun d hd hk => ?_).symm
        exact hi ((bucketOf_eq hk).symm.trans (beq_iff_eq.1 (List.mem_filter.1 hd).2))
    · show m.size - 1 = _
      rw [← herased, List.length_eraseP, ← hany, hk, if_pos rfl, h.size_eq]
    · exact h.ordered.filter _
    · exact fun d hd => h.past d (List.mem_filter.1 hd).1
    · exact h.distinct.filter _

/-- A request changes the map and the live entries alike. -/
theorem serve (h : Follows m entries now) (r : Request κ q ν) :
    Follows (m.serve r).2 (liveAfter now entries r) (now + 1) := by
  have := LawfulKeyForm.lawfulBucketHash (κ := κ) q
  cases r with
  | insert k v =>
    have hany := h.contains_eq k
    simp only [ChainMap.serve, liveAfter, ← hany]
    cases hk : m.contains k with
    | true =>
      have : m.insertNew? k v = none := if_pos hk
      rw [this]
      exact h.later
    | false =>
      obtain ⟨m', hm'⟩ := exists_insertNew? hk v
      rw [hm']
      exact h.insert hm'
  | assign k v => exact (h.assign k v).later
  | remove k => exact (h.remove k).later
  | clear => exact .clear m _
  | _ => exact h.later

/-- So do requests that are made one after the other. -/
theorem serveAll (h : Follows m entries now) (requests : List (Request κ q ν)) :
    ∃ last, Follows (DynLisp.serveAll ChainMap.serve m requests).2 (live now entries requests)
      last := by
  induction requests generalizing m entries now with
  | nil => exact ⟨now, h⟩
  | cons r rs ih => exact ih (h.serve r)

end Follows

/-! ## The order of the map -/

/-- Bucket after bucket, every entry is met. -/
theorem perm_flatMap_filter {α : Type} (f : α → Nat) (n : Nat) (l : List α) :
    ((List.range n).flatMap fun i => l.filter fun a => f a == i).Perm
      (l.filter fun a => f a < n) := by
  induction n with
  | zero => simp
  | succ n ih =>
    rw [List.range_succ, List.flatMap_append, List.flatMap_singleton]
    have hsplit := List.filter_append_perm (fun a => decide (f a < n))
      (l.filter fun a => decide (f a < n + 1))
    rw [List.filter_filter, List.filter_filter] at hsplit
    have hbelow : ∀ a, (decide (f a < n) && decide (f a < n + 1)) = decide (f a < n) := by
      intro a
      rw [Bool.eq_iff_iff]
      simp only [Bool.and_eq_true, decide_eq_true_eq]
      omega
    have hlast : ∀ a, (!decide (f a < n) && decide (f a < n + 1)) = (f a == n) := by
      intro a
      rw [Bool.eq_iff_iff]
      simp only [Bool.and_eq_true, Bool.not_eq_true', decide_eq_true_eq, decide_eq_false_iff_not,
        beq_iff_eq]
      omega
    simp only [hbelow, hlast] at hsplit
    exact (ih.append_right _).trans hsplit

theorem toList_eq_flatMap (m : ChainMap κ ν) :
    m.toList = (List.range m.bucketCount).flatMap fun i => m.chains.getD i [] := by
  unfold toList
  rcases m.size_chains with hchains | hsize
  · rw [hchains]
    simp
  · rw [List.flatMap_def, ← hsize]
    refine congrArg List.flatten (List.ext_getElem (by simp) fun i hi hi' => ?_)
    have hi : i < m.chains.size := by simpa using hi
    simp [hi]

namespace Follows

variable [BEq κ] [BucketHash κ] {m : ChainMap κ ν} {entries : List (Dated κ ν)} {now : Nat}

/-- The order of the map is that of buckets and times. -/
theorem exists_ordered (h : Follows m entries now) : ∃ walk : List (Dated κ ν),
    walk.Perm entries ∧ walk.Pairwise m.Precedes ∧ m.toList = walk.map Dated.entry := by
  refine ⟨(List.range m.bucketCount).flatMap fun i => entries.filter fun d => m.bucketOf d == i,
    ?_, ?_, ?_⟩
  · have hall : entries.filter (fun d => decide (m.bucketOf d < m.bucketCount)) = entries :=
      List.filter_eq_self.2 fun d _ => decide_eq_true (m.index_lt _)
    have hperm := perm_flatMap_filter m.bucketOf m.bucketCount entries
    rwa [hall] at hperm
  · refine List.pairwise_flatMap.2 ⟨fun i _ => ?_, ?_⟩
    · refine (h.ordered.filter _).imp_of_mem fun {d d'} hd hd' hlt => .inr ⟨?_, hlt⟩
      have hi := beq_iff_eq.1 (List.mem_filter.1 hd).2
      exact hi.trans (beq_iff_eq.1 (List.mem_filter.1 hd').2).symm
    · refine List.pairwise_lt_range.imp fun {i j} hij d hd d' hd' => .inl ?_
      rw [beq_iff_eq.1 (List.mem_filter.1 hd).2, beq_iff_eq.1 (List.mem_filter.1 hd').2]
      exact hij
  · rw [toList_eq_flatMap, List.map_flatMap]
    exact congrArg (List.flatMap · _) (funext h.chain_eq)

end Follows

/-! ## Steps of a cursor -/

namespace Cursor

/-- The cursor knows how many entries lie ahead. -/
def Counts (c : Cursor κ ν) : Prop :=
  c.remaining = c.entries.length

theorem remaining_step (remaining : Nat) (chain : List (κ × ν)) (chains : List (List (κ × ν))) :
    (step remaining chain chains).2.remaining =
      if chain ++ chains.flatten = [] then remaining else remaining - 1 := by
  induction chains generalizing chain with
  | nil => cases chain <;> rfl
  | cons c cs ih =>
    cases chain with
    | nil =>
      rw [step]
      exact ih c
    | cons e es => rfl

theorem Counts.next {c : Cursor κ ν} (h : c.Counts) : c.next.2.Counts := by
  unfold Counts
  rw [c.entries_next.2, List.length_tail, ← h]
  refine (remaining_step ..).trans ?_
  split
  · rename_i hnil
    have hzero : c.remaining = 0 := h.trans (congrArg List.length hnil)
    rw [hzero]
  · rfl

/-- Steps take the entries ahead one by one, and the cursor goes on counting. -/
theorem Counts.iterate {c : Cursor κ ν} (h : c.Counts) (k : Nat) :
    ((fun c => c.next.2)^[k] c).entries = c.entries.drop k ∧
      ((fun c => c.next.2)^[k] c).Counts := by
  induction k with
  | zero => exact ⟨rfl, h⟩
  | succ k ih =>
    rw [Function.iterate_succ_apply']
    refine ⟨?_, ih.2.next⟩
    rw [(entries_next _).2, ih.1, List.tail_drop]

/-- What the step after `k` steps gives, and how many are left before it. -/
theorem Counts.next_iterate {c : Cursor κ ν} (h : c.Counts) (k : Nat) :
    let c' := (fun c => c.next.2)^[k] c
    c'.next.1 = c.entries[k]? ∧ c'.remaining = c.entries.length - k ∧
      (c'.next.1.isSome → 0 < c'.remaining) := by
  intro c'
  obtain ⟨hentries, hcounts⟩ := h.iterate k
  have hnext : c'.next.1 = c.entries[k]? := by
    rw [(entries_next _).1, hentries, List.head?_drop]
  have hremaining : c'.remaining = c.entries.length - k := by
    rw [show c'.remaining = c'.entries.length from hcounts, hentries, List.length_drop]
  refine ⟨hnext, hremaining, fun hsome => ?_⟩
  have hlt : k < c.entries.length := by simpa [hnext] using hsome
  rw [hremaining]
  exact Nat.sub_pos_of_lt hlt

end Cursor

end ChainMap

section Iteration

variable {κ q ν : Type} [BEq κ] [BucketHash κ] [BEq q] [EquivBEq q] [BucketHash q] [KeyForm κ q]
  [LawfulBucketHash q] [LawfulKeyForm κ q]

/-- However many buckets are asked for and whatever the requests are, there is one order of the live
entries, by buckets and in each bucket by the times at which they were inserted. They hold the
values that a finite map has after the requests, and the map is walked through in this order: after
any number `k` of steps the next one gives entry `k` of it, if there is such an entry, and the cursor
says how many are left. A step that gives an entry finds this number not zero. The debug form of the
map lists the entries in the same order. -/
theorem iteration_follows_history (buckets : Nat) (requests : List (Request κ q ν)) :
    let m := (serveAll ChainMap.serve (.withBuckets buckets : ChainMap κ ν) requests).2
    ∃ walk : List (Dated κ ν), walk.Perm (live 0 [] requests) ∧ walk.Pairwise m.Precedes ∧
      (∀ d ∈ walk, ∃ v, requests[d.since]? = some (.insert d.key v)) ∧
      (∀ k : q, (walk.find? (Dated.isOf k)).map Dated.value =
        (serveAll FiniteMap.serve (∅ : FiniteMap q ν) requests).2.lookup (Key.of k)) ∧
      m.size = walk.length ∧
      (∀ k, let c := (fun c => c.next.2)^[k] m.cursor
        c.next.1 = walk[k]?.map Dated.entry ∧ c.remaining = walk.length - k ∧
          (c.next.1.isSome → 0 < c.remaining)) ∧
      ∀ (key : κ → String) (value : ν → String), m.debug key value =
        "\x7b" ++ ", ".intercalate (walk.map fun d => key d.key ++ ": " ++ value d.value) ++
          "\x7d" := by
  intro m
  obtain ⟨last, hfollows⟩ := ChainMap.Follows.serveAll
    (ChainMap.Follows.withBuckets (κ := κ) (ν := ν) buckets 0) requests
  obtain ⟨walk, hperm, hordered, htoList⟩ := hfollows.exists_ordered
  have hsize : m.size = walk.length := hfollows.size_eq.trans hperm.length_eq.symm
  have hcounts : m.cursor.Counts := by
    show m.size = m.toList.length
    rw [htoList, List.length_map, hsize]
  refine ⟨walk, hperm, hordered, fun d hd => ?_, fun k => ?_, hsize, fun k => ?_,
    fun key value => ?_⟩
  · rcases mem_live (hperm.mem_iff.1 hd) with ⟨_, hnone, -⟩ | ⟨i, v, hsince, hrequest⟩
    · cases hnone
    · exact ⟨v, by rw [hsince, Nat.zero_add]; exact hrequest⟩
  · obtain ⟨-, hrepresents⟩ := (Represents.withBuckets (κ := κ) (q := q) (ν := ν)
      buckets).serveAll requests
    rw [← hrepresents.get?_eq, hrepresents.wellFormed.get?_eq_find?]
    show _ = (m.toList.find? (ChainMap.isEntryOf k)).map Prod.snd
    rw [htoList, List.find?_map, Option.map_map]
    rfl
  · have hsteps := hcounts.next_iterate k
    rwa [ChainMap.Cursor.entries_cursor, htoList, List.getElem?_map, List.length_map] at hsteps
  · unfold ChainMap.debug
    rw [htoList, List.map_map]
    rfl

/-- Three keys in two buckets, of which one is removed and inserted again. -/
def reinsertingRequests : List (Request String String Nat) :=
  [.insert "a" 1, .insert "b" 2, .insert "c" 3, .insert "a" 4, .assign "c" 5, .remove "a",
    .insert "a" 6]

theorem walk_after_reinsertingRequests :
    let m := (serveAll ChainMap.serve (.withBuckets 2 : ChainMap String Nat)
      reinsertingRequests).2
    live 0 [] reinsertingRequests = [⟨"b", 2, 1⟩, ⟨"c", 5, 2⟩, ⟨"a", 6, 6⟩] ∧
      m.toList = [("b", 2), ("c", 5), ("a", 6)] ∧
      ∃ walk : List (Dated String Nat), walk.Perm (live 0 [] reinsertingRequests) ∧
        walk.Pairwise m.Precedes ∧ m.size = walk.length := by
  intro m
  obtain ⟨walk, hperm, hordered, -, -, hsize, -⟩ := iteration_follows_history 2 reinsertingRequests
  exact ⟨by decide +kernel, by decide +kernel, walk, hperm, hordered, hsize⟩

end Iteration

end DynLisp
