import DynLisp.Proofs.Number.FloatEquality
import DynLisp.Value.Identity

/-!
# Equality of values

Equality looks at cells where it can, so that a pair is equal to itself even if there is a NaN in
it. It is symmetric and transitive all the same, because a cell holds one pair (`StoredIn`), and
reflexive but for NaN by itself. Where there is no NaN, values are equal exactly if they look alike,
in whichever cells they are (`Alike`). All this is `equality_of_stored_values`.

Values that are made one after the other are stored in this sense, however they share their cells
(`Made.hold`).
-/

namespace DynLisp

open FloatEquality

/-- What the pair in each cell holds. -/
abbrev Heap := Nat → Tracked × Tracked

namespace Tracked

def IsPair (v : Tracked) : Prop :=
  ∃ cell head tail, v = pair cell head tail

/-- Each pair in the value is the one in its cell. -/
def StoredIn (heap : Heap) : Tracked → Prop
  | pair cell head tail => heap cell = (head, tail) ∧ head.StoredIn heap ∧ tail.StoredIn heap
  | _ => True

/-- There is no NaN among the elements, at any depth. -/
def NoNaN : Tracked → Prop
  | float x => x.isNaN = false
  | pair _ head tail => head.NoNaN ∧ tail.NoNaN
  | _ => True

/-- Values of one shape with equal integers, floats that stand for one number, symbols of one name
and the same procedures. The cells of pairs make no difference. -/
inductive Alike : Tracked → Tracked → Prop where
  | nil : Alike nil nil
  | int (n : Int64) : Alike (int n) (int n)
  | float {x y : Float} {r : Extended} : number? x = some r → number? y = some r →
      Alike (float x) (float y)
  | symbol (name : String) : Alike (symbol name) (symbol name)
  | pair {c d : Nat} {head tail head' tail' : Tracked} : Alike head head' → Alike tail tail' →
      Alike (pair c head tail) (pair d head' tail')
  | procedure {cell : Nat} {formals body formals' body' : Value} :
      Alike (procedure cell formals body) (procedure cell formals' body')

variable {heap : Heap} {u v w : Tracked}

/-! ## Looking alike -/

namespace Alike

theorem symm (h : Alike v w) : Alike w v := by
  induction h with
  | nil => exact .nil
  | int n => exact .int n
  | float hx hy => exact .float hy hx
  | symbol name => exact .symbol name
  | pair _ _ ihHead ihTail => exact .pair ihHead ihTail
  | procedure => exact .procedure

theorem trans (h : Alike u v) (h' : Alike v w) : Alike u w := by
  induction h generalizing w with
  | nil => exact h'
  | int n => exact h'
  | float hx hy =>
    cases h' with
    | float hy' hz =>
      rw [hy] at hy'
      cases hy'
      exact .float hx hz
  | symbol name => exact h'
  | pair _ _ ihHead ihTail =>
    cases h' with
    | pair hhead htail => exact .pair (ihHead hhead) (ihTail htail)
  | procedure =>
    cases h' with
    | procedure => exact .procedure

theorem refl (h : v.NoNaN) : Alike v v := by
  induction v with
  | nil => exact .nil
  | int n => exact .int n
  | float x =>
    cases hx : number? x with
    | none => exact absurd (number?_eq_none_iff.1 hx) (Bool.eq_false_iff.1 h)
    | some r => exact .float hx hx
  | symbol name => exact .symbol name
  | pair cell head tail ihHead ihTail => exact .pair (ihHead h.1) (ihTail h.2)
  | procedure cell formals body => exact .procedure

end Alike

/-! ## Pairs, and all else -/

theorem same_pair_iff {c : Nat} {head tail : Tracked} : same (pair c head tail) w = true ↔
    ∃ d head' tail', w = pair d head' tail' ∧
      (c = d ∨ same head head' = true ∧ sameSpine tail tail' = true) := by
  cases w with
  | pair d head' tail' =>
    rw [same, Bool.or_eq_true, beq_iff_eq, Bool.and_eq_true]
    constructor
    · exact fun h => ⟨d, head', tail', rfl, h⟩
    · rintro ⟨_, _, _, heq, h⟩
      cases heq
      exact h
  | _ => exact iff_of_false nofun nofun

theorem sameSpine_pair_iff {c : Nat} {head tail : Tracked} :
    sameSpine (pair c head tail) w = true ↔
      ∃ d head' tail', w = pair d head' tail' ∧ same head head' = true ∧
        sameSpine tail tail' = true := by
  cases w with
  | pair d head' tail' =>
    rw [sameSpine, Bool.and_eq_true]
    constructor
    · exact fun h => ⟨d, head', tail', rfl, h⟩
    · rintro ⟨_, _, _, heq, h⟩
      cases heq
      exact h
  | _ => exact iff_of_false nofun nofun

theorem sameLeaf_iff_alike (h : ¬ v.IsPair) : sameLeaf v w = true ↔ Alike v w := by
  cases v with
  | nil =>
    cases w with
    | nil => exact iff_of_true rfl .nil
    | _ => exact iff_of_false nofun nofun
  | int n =>
    cases w with
    | int m =>
      refine beq_iff_eq.trans ⟨?_, ?_⟩
      · rintro rfl
        exact .int n
      · rintro ⟨⟩
        rfl
    | _ => exact iff_of_false nofun nofun
  | float x =>
    cases w with
    | float y =>
      refine beq_iff_number.trans ⟨?_, ?_⟩
      · rintro ⟨r, hx, hy⟩
        exact .float hx hy
      · rintro ⟨⟩
        exact ⟨_, ‹_›, ‹_›⟩
    | _ => exact iff_of_false nofun nofun
  | symbol name =>
    cases w with
    | symbol name' =>
      refine beq_iff_eq.trans ⟨?_, ?_⟩
      · rintro rfl
        exact .symbol name
      · rintro ⟨⟩
        rfl
    | _ => exact iff_of_false nofun nofun
  | pair cell head tail => exact (h ⟨cell, head, tail, rfl⟩).elim
  | procedure cell formals body =>
    cases w with
    | procedure cell' formals' body' =>
      refine beq_iff_eq.trans ⟨?_, ?_⟩
      · rintro rfl
        exact .procedure
      · rintro ⟨⟩
        rfl
    | _ => exact iff_of_false nofun nofun

/-- Induction along pairs. -/
theorem pair_induction {motive : Tracked → Prop} (leaf : ∀ v, ¬ v.IsPair → motive v)
    (pair : ∀ cell head tail, motive head → motive tail → motive (pair cell head tail))
    (v : Tracked) : motive v := by
  induction v with
  | pair cell head tail ihHead ihTail => exact pair cell head tail ihHead ihTail
  | _ => exact leaf _ (by rintro ⟨_, _, _, hpair⟩; cases hpair)

/-- What is no pair is compared by what it is, wherever it stands. -/
theorem same_iff_alike_of_not_pair (h : ¬ v.IsPair) :
    (same v w = true ↔ Alike v w) ∧ (sameSpine v w = true ↔ Alike v w) := by
  have hleaf := sameLeaf_iff_alike (w := w) h
  cases v with
  | pair cell head tail => exact (h ⟨cell, head, tail, rfl⟩).elim
  | _ => exact ⟨hleaf, hleaf⟩

theorem Alike.not_isPair (h : Alike v w) (hv : ¬ v.IsPair) : ¬ w.IsPair := by
  rintro ⟨cell, head, tail, rfl⟩
  cases h with
  | pair => exact hv ⟨_, _, _, rfl⟩

/-! ## Symmetry and transitivity

Both are shown for the two kinds of comparison at once, as the one goes on with the other. -/

theorem same_and_sameSpine_symm :
    (same v w = true → same w v = true) ∧ (sameSpine v w = true → sameSpine w v = true) := by
  induction v using pair_induction generalizing w with
  | leaf v hv =>
    have hcompare := same_iff_alike_of_not_pair (w := w) hv
    have hback : Alike v w → same w v = true ∧ sameSpine w v = true := fun h =>
      have hw := same_iff_alike_of_not_pair (w := v) (h.not_isPair hv)
      ⟨hw.1.2 h.symm, hw.2.2 h.symm⟩
    exact ⟨fun h => (hback (hcompare.1.1 h)).1, fun h => (hback (hcompare.2.1 h)).2⟩
  | pair c head tail ihHead ihTail =>
    constructor
    · intro h
      obtain ⟨d, head', tail', rfl, hpair⟩ := same_pair_iff.1 h
      exact same_pair_iff.2 ⟨c, head, tail, rfl, hpair.imp Eq.symm (And.imp ihHead.1 ihTail.2)⟩
    · intro h
      obtain ⟨d, head', tail', rfl, hhead, htail⟩ := sameSpine_pair_iff.1 h
      exact sameSpine_pair_iff.2 ⟨c, head, tail, rfl, ihHead.1 hhead, ihTail.2 htail⟩

theorem same_comm (v w : Tracked) : same v w = same w v :=
  Bool.eq_iff_iff.2 ⟨same_and_sameSpine_symm.1, same_and_sameSpine_symm.1⟩

/-- Pairs in one cell are the same pair. -/
theorem StoredIn.eq {cell : Nat} {head tail head' tail' : Tracked}
    (h : (pair cell head tail).StoredIn heap) (h' : (pair cell head' tail').StoredIn heap) :
    head = head' ∧ tail = tail' :=
  Prod.mk.inj (h.1.symm.trans h'.1)

theorem same_and_sameSpine_trans (hu : u.StoredIn heap) (hv : v.StoredIn heap)
    (hw : w.StoredIn heap) :
    (same u v = true → same v w = true → same u w = true) ∧
      (sameSpine u v = true → sameSpine v w = true → sameSpine u w = true) := by
  induction u using pair_induction generalizing v w with
  | leaf u hleaf =>
    have huv := same_iff_alike_of_not_pair (w := v) hleaf
    have huw := same_iff_alike_of_not_pair (w := w) hleaf
    constructor
    · intro h h'
      have halike := huv.1.1 h
      have hvw := same_iff_alike_of_not_pair (w := w) (halike.not_isPair hleaf)
      exact huw.1.2 (halike.trans (hvw.1.1 h'))
    · intro h h'
      have halike := huv.2.1 h
      have hvw := same_iff_alike_of_not_pair (w := w) (halike.not_isPair hleaf)
      exact huw.2.2 (halike.trans (hvw.2.1 h'))
  | pair c head tail ihHead ihTail =>
    constructor
    · intro huv hvw
      obtain ⟨d, head', tail', rfl, h⟩ := same_pair_iff.1 huv
      obtain ⟨e, head'', tail'', rfl, h'⟩ := same_pair_iff.1 hvw
      -- If two of the pairs are in one cell, they are one pair.
      rcases h with rfl | ⟨hhead, htail⟩
      · obtain ⟨rfl, rfl⟩ := hu.eq hv
        exact hvw
      rcases h' with rfl | ⟨hhead', htail'⟩
      · obtain ⟨rfl, rfl⟩ := hv.eq hw
        exact huv
      exact same_pair_iff.2 ⟨_, _, _, rfl, .inr
        ⟨(ihHead hu.2.1 hv.2.1 hw.2.1).1 hhead hhead',
          (ihTail hu.2.2 hv.2.2 hw.2.2).2 htail htail'⟩⟩
    · intro huv hvw
      obtain ⟨d, head', tail', rfl, hhead, htail⟩ := sameSpine_pair_iff.1 huv
      obtain ⟨e, head'', tail'', rfl, hhead', htail'⟩ := sameSpine_pair_iff.1 hvw
      exact sameSpine_pair_iff.2 ⟨_, _, _, rfl, (ihHead hu.2.1 hv.2.1 hw.2.1).1 hhead hhead',
        (ihTail hu.2.2 hv.2.2 hw.2.2).2 htail htail'⟩

/-! ## Reflexivity -/

/-- NaN by itself is all that differs from itself. -/
theorem same_self_iff : same v v = true ↔ ∀ x, v = float x → x.isNaN = false := by
  cases v with
  | pair cell head tail => exact iff_of_true (same_pair_iff.2 ⟨_, _, _, rfl, .inl rfl⟩) nofun
  | float x =>
    have hself : same (float x) (float x) = true ↔ number? x ≠ none := by
      refine beq_iff_number.trans ⟨?_, fun h => ?_⟩
      · rintro ⟨r, hx, -⟩ hnone
        cases hnone.symm.trans hx
      · obtain ⟨r, hx⟩ := Option.ne_none_iff_exists'.1 h
        exact ⟨r, hx, hx⟩
    rw [hself, ne_eq, number?_eq_none_iff, Bool.not_eq_true]
    constructor
    · rintro h _ ⟨⟩
      exact h
    · exact fun h => h x rfl
  | nil => exact iff_of_true rfl nofun
  | _ => exact iff_of_true (beq_self_eq_true _) nofun

/-! ## Equality without NaN -/

theorem same_and_sameSpine_of_alike (h : Alike v w) : same v w = true ∧ sameSpine v w = true := by
  induction v using pair_induction generalizing w with
  | leaf v hv =>
    have hcompare := same_iff_alike_of_not_pair (w := w) hv
    exact ⟨hcompare.1.2 h, hcompare.2.2 h⟩
  | pair c head tail ihHead ihTail =>
    cases h with
    | pair hhead htail =>
      have hparts := And.intro (ihHead hhead).1 (ihTail htail).2
      exact ⟨same_pair_iff.2 ⟨_, _, _, rfl, .inr hparts⟩,
        sameSpine_pair_iff.2 ⟨_, _, _, rfl, hparts⟩⟩

theorem alike_of_same_and_sameSpine (hv : v.StoredIn heap) (hw : w.StoredIn heap)
    (hnan : v.NoNaN) : (same v w = true → Alike v w) ∧ (sameSpine v w = true → Alike v w) := by
  induction v using pair_induction generalizing w with
  | leaf v hleaf =>
    have hcompare := same_iff_alike_of_not_pair (w := w) hleaf
    exact ⟨hcompare.1.1, hcompare.2.1⟩
  | pair c head tail ihHead ihTail =>
    constructor
    · intro h
      obtain ⟨d, head', tail', rfl, rfl | ⟨hhead, htail⟩⟩ := same_pair_iff.1 h
      · obtain ⟨rfl, rfl⟩ := hv.eq hw
        exact .refl hnan
      · exact .pair ((ihHead hv.2.1 hw.2.1 hnan.1).1 hhead)
          ((ihTail hv.2.2 hw.2.2 hnan.2).2 htail)
    · intro h
      obtain ⟨d, head', tail', rfl, hhead, htail⟩ := sameSpine_pair_iff.1 h
      exact .pair ((ihHead hv.2.1 hw.2.1 hnan.1).1 hhead) ((ihTail hv.2.2 hw.2.2 hnan.2).2 htail)

/-- Take values that are stored in the same cells, with any sharing and NaN anywhere. Equality is
symmetric and transitive among them, and each is equal to itself unless it is NaN. A value without
NaN is equal to another exactly if they look alike. -/
theorem equality_of_stored_values {heap : Heap} {u v w : Tracked} (hu : u.StoredIn heap)
    (hv : v.StoredIn heap) (hw : w.StoredIn heap) :
    u.same v = v.same u ∧
      (u.same v = true → v.same w = true → u.same w = true) ∧
      (v.same v = true ↔ ∀ x, v = float x → x.isNaN = false) ∧
      (u.NoNaN → (u.same v = true ↔ Alike u v)) :=
  ⟨same_comm u v, (same_and_sameSpine_trans hu hv hw).1, same_self_iff, fun hnan =>
    ⟨(alike_of_same_and_sameSpine hu hv hnan).1, fun h => (same_and_sameSpine_of_alike h).1⟩⟩

/-- Three lists of one pair with NaN in it: by transitivity the first is equal to the third. Lists
of the two zeros are equal and look alike. -/
theorem lists_of_nan_and_of_zeros :
    let nan : Float := 0.0 / 0.0
    let shared := pair 0 (float nan) nil
    let heap : Heap := fun cell =>
      if cell = 0 then (float nan, nil) else if cell ≤ 3 then (shared, nil)
      else if cell = 4 then (float 0.0, nil) else (float (-0.0), nil)
    (∀ cell ∈ [1, 2, 3], (pair cell shared nil).StoredIn heap) ∧
      (pair 4 (float 0.0) nil).StoredIn heap ∧ (pair 5 (float (-0.0)) nil).StoredIn heap ∧
      same (float nan) (float nan) = false ∧
      same (pair 1 shared nil) (pair 3 shared nil) = true ∧
      Alike (pair 4 (float 0.0) nil) (pair 5 (float (-0.0)) nil) := by
  intro nan shared heap
  have hshared : shared.StoredIn heap := ⟨rfl, trivial, trivial⟩
  have hstored : ∀ cell ∈ [1, 2, 3], (pair cell shared nil).StoredIn heap := by
    intro cell hcell
    fin_cases hcell <;> exact ⟨rfl, hshared, trivial⟩
  have hplus : (pair 4 (float 0.0) nil).StoredIn heap := ⟨rfl, trivial, trivial⟩
  have hminus : (pair 5 (float (-0.0)) nil).StoredIn heap := ⟨rfl, trivial, trivial⟩
  refine ⟨hstored, hplus, hminus, by decide +kernel, ?_, ?_⟩
  · exact (equality_of_stored_values (hstored 1 (by decide)) (hstored 2 (by decide))
      (hstored 3 (by decide))).2.1 rfl rfl
  · exact ((equality_of_stored_values hplus hminus hminus).2.2.2 ⟨rfl, trivial⟩).1 rfl

/-! ## Values that are made

A new pair is put in a cell not used before, so that the cells go on holding one pair each. -/

/-- The pairs in the value are in the cells before `n`. -/
def Below (n : Nat) : Tracked → Prop
  | pair cell head tail => cell < n ∧ head.Below n ∧ tail.Below n
  | _ => True

theorem Below.mono {n m : Nat} (h : v.Below n) (hle : n ≤ m) : v.Below m := by
  induction v with
  | pair cell head tail ihHead ihTail => exact ⟨h.1.trans_le hle, ihHead h.2.1, ihTail h.2.2⟩
  | _ => trivial

theorem StoredIn.update {n : Nat} {contents : Tracked × Tracked} (h : v.StoredIn heap)
    (hbelow : v.Below n) : v.StoredIn (Function.update heap n contents) := by
  induction v with
  | pair cell head tail ihHead ihTail =>
    refine ⟨?_, ihHead h.2.1 hbelow.2.1, ihTail h.2.2 hbelow.2.2⟩
    rw [Function.update_of_ne hbelow.1.ne]
    exact h.1
  | _ => trivial

end Tracked

/-- The values are stored in the cells that are in use. -/
def Cells.Hold (cells : Cells) (vs : List Tracked) : Prop :=
  ∃ heap : Heap, ∀ v ∈ vs, v.StoredIn heap ∧ v.Below cells.next

namespace Cells.Hold

variable {cells : Cells} {vs ws : List Tracked}

theorem subset (h : cells.Hold vs) (hsub : ws ⊆ vs) : cells.Hold ws := by
  obtain ⟨heap, hheap⟩ := h
  exact ⟨heap, fun v hv => hheap v (hsub hv)⟩

/-- A value that is no pair needs no room in the cells. -/
theorem leaf {v : Tracked} (h : cells.Hold vs) (hv : ¬ v.IsPair) {n : Nat}
    (hn : cells.next ≤ n) : (Cells.mk n).Hold (v :: vs) := by
  obtain ⟨heap, hheap⟩ := h
  refine ⟨heap, List.forall_mem_cons.2 ⟨?_, fun w hw => ⟨(hheap w hw).1, (hheap w hw).2.mono hn⟩⟩⟩
  cases v with
  | pair cell head tail => exact (hv ⟨_, _, _, rfl⟩).elim
  | _ => exact ⟨trivial, trivial⟩

theorem cons {head tail : Tracked} (h : cells.Hold vs) (hhead : head ∈ vs) (htail : tail ∈ vs) :
    (cells.cons head tail).2.Hold ((cells.cons head tail).1 :: vs) := by
  obtain ⟨heap, hheap⟩ := h
  have hkept : ∀ v ∈ vs, v.StoredIn (Function.update heap cells.next (head, tail)) ∧
      v.Below (cells.next + 1) := fun v hv =>
    ⟨(hheap v hv).1.update (hheap v hv).2, (hheap v hv).2.mono (Nat.le_succ _)⟩
  have hhead' := hkept head hhead
  have htail' := hkept tail htail
  exact ⟨_, List.forall_mem_cons.2 ⟨⟨⟨Function.update_self .., hhead'.1, htail'.1⟩,
    Nat.lt_succ_self _, hhead'.2, htail'.2⟩, hkept⟩⟩

theorem place (h : cells.Hold vs) (v : Value) :
    (cells.place v).2.Hold ((cells.place v).1 :: vs) := by
  induction v generalizing cells vs with
  | pair head tail ihHead ihTail =>
    have hparts := ihTail (ihHead h)
    have hpair := hparts.cons (.tail _ (.head _)) (.head _)
    exact hpair.subset fun w hw => by
      obtain rfl | hw := List.mem_cons.1 hw
      · exact .head _
      · exact .tail _ (.tail _ (.tail _ hw))
  | procedure formals body => exact h.leaf (by rintro ⟨_, _, _, ⟨⟩⟩) (Nat.le_succ _)
  | _ => exact h.leaf (by rintro ⟨_, _, _, ⟨⟩⟩) le_rfl

theorem list {elements : List Tracked} {tail : Tracked} (h : cells.Hold vs)
    (helements : elements ⊆ vs) (htail : tail ∈ vs) :
    (cells.list elements tail).2.Hold ((cells.list elements tail).1 :: vs) := by
  induction elements with
  | nil => exact h.subset (List.cons_subset.2 ⟨htail, List.Subset.refl _⟩)
  | cons v elements ih =>
    have hrest := ih fun w hw => helements (.tail _ hw)
    have hpair := hrest.cons (.tail _ (helements (.head _))) (.head _)
    exact hpair.subset fun w hw => by
      obtain rfl | hw := List.mem_cons.1 hw
      · exact .head _
      · exact .tail _ (.tail _ hw)

end Cells.Hold

/-- Values made one after the other, with the cells that are then in use: data put in new cells,
pairs and lists of what was made before, and the parts of pairs. -/
inductive Made : List Tracked → Cells → Prop where
  | start : Made [] {}
  | place {vs : List Tracked} {cells : Cells} (v : Value) : Made vs cells →
      Made ((cells.place v).1 :: vs) (cells.place v).2
  | cons {vs : List Tracked} {cells : Cells} {head tail : Tracked} : Made vs cells → head ∈ vs →
      tail ∈ vs → Made ((cells.cons head tail).1 :: vs) (cells.cons head tail).2
  | list {vs elements : List Tracked} {cells : Cells} {tail : Tracked} : Made vs cells →
      elements ⊆ vs → tail ∈ vs →
      Made ((cells.list elements tail).1 :: vs) (cells.list elements tail).2
  | car {vs : List Tracked} {cells : Cells} {v head : Tracked} : Made vs cells → v ∈ vs →
      v.car = .ok head → Made (head :: vs) cells
  | cdr {vs : List Tracked} {cells : Cells} {v tail : Tracked} : Made vs cells → v ∈ vs →
      v.cdr = .ok tail → Made (tail :: vs) cells

/-- All values that are made are stored in the same cells. -/
theorem Made.hold {vs : List Tracked} {cells : Cells} (h : Made vs cells) : cells.Hold vs := by
  induction h with
  | start => exact ⟨fun _ => (.nil, .nil), nofun⟩
  | place v _ ih => exact ih.place v
  | cons _ hhead htail ih => exact ih.cons hhead htail
  | list _ helements htail ih => exact ih.list helements htail
  | @car vs cells v head _ hv hcar ih =>
    obtain ⟨heap, hheap⟩ := ih
    cases v with
    | pair cell head' tail =>
      cases hcar
      have hpair := hheap _ hv
      exact ⟨heap, List.forall_mem_cons.2 ⟨⟨hpair.1.2.1, hpair.2.2.1⟩, hheap⟩⟩
    | _ => cases hcar
  | @cdr vs cells v tail _ hv hcdr ih =>
    obtain ⟨heap, hheap⟩ := ih
    cases v with
    | pair cell head tail' =>
      cases hcdr
      have hpair := hheap _ hv
      exact ⟨heap, List.forall_mem_cons.2 ⟨⟨hpair.1.2.2, hpair.2.2.2⟩, hheap⟩⟩
    | _ => cases hcdr

end DynLisp
