/-!
# Computations that may fail

What the outcome of a computation tells about its parts: of a sequence (`exists_of_bind_eq_ok`,
`error_of_bind_eq_error`), of a fold (`exists_of_foldlM_cons_eq_ok`), and of one computation for each
element of a list (`exists_of_mapM_eq_ok`, `exists_first_of_mapM_eq_error`). Errors can be told in
another way in each part or in the whole (`mapError_bind`).
-/

namespace DynLisp

variable {ε α β : Type}

theorem exists_of_bind_eq_ok {x : Except ε α} {f : α → Except ε β} {b : β}
    (h : x >>= f = .ok b) : ∃ a, x = .ok a ∧ f a = .ok b := by
  cases x with
  | error e => cases h
  | ok a => exact ⟨a, rfl, h⟩

theorem error_of_bind_eq_error {x : Except ε α} {f : α → Except ε β} {e : ε}
    (h : x >>= f = .error e) : x = .error e ∨ ∃ a, x = .ok a ∧ f a = .error e := by
  cases x with
  | error e' =>
    cases h
    exact .inl rfl
  | ok a => exact .inr ⟨a, rfl, h⟩

/-- An error of a sequence is one of a part of it. -/
theorem mapError_bind {ε' : Type} (f : ε → ε') (x : Except ε α) (g : α → Except ε β) :
    (x >>= g).mapError f = x.mapError f >>= fun a => (g a).mapError f := by
  cases x <;> rfl

theorem exists_of_foldlM_cons_eq_ok {f : β → α → Except ε β} {a : α} {as : List α} {b c : β}
    (h : (a :: as).foldlM f b = .ok c) : ∃ b', f b a = .ok b' ∧ as.foldlM f b' = .ok c := by
  rw [List.foldlM_cons] at h
  exact exists_of_bind_eq_ok h

/-- Every result is that of some element. -/
theorem exists_of_mapM_eq_ok {f : α → Except ε β} {as : List α} {bs : List β}
    (h : as.mapM f = .ok bs) {b : β} (hb : b ∈ bs) : ∃ a ∈ as, f a = .ok b := by
  induction as generalizing bs with
  | nil =>
    cases h
    cases hb
  | cons a as ih =>
    rw [List.mapM_cons] at h
    obtain ⟨first, hfirst, hrest⟩ := exists_of_bind_eq_ok h
    obtain ⟨others, hothers, hresult⟩ := exists_of_bind_eq_ok hrest
    cases hresult
    rcases List.mem_cons.1 hb with rfl | hb
    · exact ⟨a, List.mem_cons_self, hfirst⟩
    · obtain ⟨a', ha', hfa'⟩ := ih hothers hb
      exact ⟨a', List.mem_cons_of_mem a ha', hfa'⟩

/-- A failure is that of the first element that fails. -/
theorem exists_first_of_mapM_eq_error {f : α → Except ε β} {as : List α} {e : ε}
    (h : as.mapM f = .error e) : ∃ before a after bs, as = before ++ a :: after ∧
      before.mapM f = .ok bs ∧ f a = .error e := by
  induction as with
  | nil => cases h
  | cons a as ih =>
    rw [List.mapM_cons] at h
    rcases error_of_bind_eq_error h with hfirst | ⟨b, hb, hrest⟩
    · exact ⟨[], a, as, [], rfl, rfl, hfirst⟩
    · rcases error_of_bind_eq_error hrest with hothers | ⟨others, -, hresult⟩
      · obtain ⟨before, a', after, bs, rfl, hbefore, ha'⟩ := ih hothers
        refine ⟨a :: before, a', after, b :: bs, rfl, ?_, ha'⟩
        rw [List.mapM_cons, hb, hbefore]
        rfl
      · cases hresult

theorem exists_of_mapM_eq_error {f : α → Except ε β} {as : List α} {e : ε}
    (h : as.mapM f = .error e) : ∃ a ∈ as, f a = .error e := by
  obtain ⟨before, a, after, -, rfl, -, ha⟩ := exists_first_of_mapM_eq_error h
  exact ⟨a, List.mem_append_right before List.mem_cons_self, ha⟩

end DynLisp
