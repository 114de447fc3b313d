import DynLisp.Proofs.Reading.OpenForms

/-!
# Where faults are noticed

Lexemes begin and stop in the text that they are cut from (`within_lexemes`), and a fault is
noticed where a lexeme begins or stops, or at the end of the text. So the text that is left at a
fault is the end of the input (`Config.tells_of_parse`, `Config.tells_of_parseAll`), and the position
of the fault counts the bytes of what stands before (`Fault.position_eq`).
-/

namespace DynLisp.Reader

variable {comments : Bool} {maxDepth : Nat} {config : Config} {text here after : List Char}

/-! ## Bytes -/

@[simp] theorem byteCount_nil : byteCount [] = 0 := rfl

@[simp] theorem byteCount_cons (c : Char) (s : List Char) :
    byteCount (c :: s) = c.utf8Size + byteCount s := rfl

@[simp] theorem byteCount_append (s t : List Char) :
    byteCount (s ++ t) = byteCount s + byteCount t := by
  induction s with
  | nil => simp
  | cons c s ih => simp [ih, Nat.add_assoc]

/-- The position of a fault counts the bytes of what stands before it. -/
theorem Fault.position_eq (cause : Cause) (front rest : List Char) :
    (⟨cause, rest⟩ : Fault).position (front ++ rest) = byteCount front := by
  simp [Fault.position]

/-! ## Lexemes -/

/-- The lexeme begins and stops in the text. -/
structure Lexeme.Within (text : List Char) (l : Lexeme) : Prop where
  start : l.start <:+ text
  stop : l.stop <:+ text

namespace Mode

/-- An atom of which a part was read begins in the text. -/
def Within (text : List Char) : Mode → Prop
  | atom start _ => start <:+ text
  | _ => True

theorem within_begin (comments : Bool) (c : Char) (hhere : here <:+ text)
    (hafter : after <:+ text) :
    (∀ l ∈ (begin comments c here after).1, l.Within text) ∧
      (begin comments c here after).2.Within text := by
  have hnone : ∀ l ∈ ([] : List Lexeme), l.Within text := List.forall_mem_nil _
  have hone : ∀ token, ∀ l ∈ [(⟨token, here, after⟩ : Lexeme)], l.Within text :=
    fun token => List.forall_mem_singleton.2 ⟨hhere, hafter⟩
  unfold begin
  repeat' split
  · exact ⟨hnone, trivial⟩
  · exact ⟨hone .openParen, trivial⟩
  · exact ⟨hone .closeParen, trivial⟩
  · exact ⟨hone .quoteMark, trivial⟩
  · exact ⟨hnone, trivial⟩
  · exact ⟨hone .stray, trivial⟩
  · exact ⟨hnone, hhere⟩

theorem within_finish {m : Mode} (hm : m.Within text) {stop : List Char} (hstop : stop <:+ text) :
    ∀ l ∈ m.finish stop, l.Within text := by
  cases m with
  | atom start read => exact List.forall_mem_singleton.2 ⟨hm, hstop⟩
  | _ => exact List.forall_mem_nil _

theorem within_next (comments : Bool) {m : Mode} (hm : m.Within text) (c : Char)
    (hhere : here <:+ text) (hafter : after <:+ text) :
    (∀ l ∈ (m.next comments c here after).1, l.Within text) ∧
      (m.next comments c here after).2.Within text := by
  have hbegin := within_begin comments c hhere hafter
  cases m with
  | between => exact hbegin
  | comment =>
    refine ⟨List.forall_mem_nil _, ?_⟩
    simp only [next]
    split <;> trivial
  | atom start read =>
    simp only [next]
    split
    · exact ⟨List.forall_mem_append.2 ⟨within_finish hm hhere, hbegin.1⟩, hbegin.2⟩
    · exact ⟨List.forall_mem_nil _, hm⟩

end Mode

theorem within_lexemesFrom {m : Mode} (hm : m.Within text) {s : List Char} (hs : s <:+ text) :
    ∀ l ∈ lexemesFrom comments m s, l.Within text := by
  induction s generalizing m with
  | nil => exact Mode.within_finish hm hs
  | cons c s ih =>
    have hafter : s <:+ text := (List.suffix_cons c s).trans hs
    obtain ⟨hlexemes, hmode⟩ := Mode.within_next comments hm c hs hafter
    rw [lexemesFrom_cons]
    exact List.forall_mem_append.2 ⟨hlexemes, ih hmode hafter⟩

/-- Lexemes begin and stop in the text that they are cut from. -/
theorem within_lexemes (comments : Bool) (text : List Char) :
    ∀ l ∈ lexemes comments text, l.Within text :=
  within_lexemesFrom (m := .between) trivial (List.suffix_refl text)

/-! ## Faults -/

open Progress

variable {p : Progress} {fault : Fault}

theorem Lexeme.Within.rest_of_step {l : Lexeme} (hl : l.Within text)
    (h : p.step maxDepth l = .error fault) : fault.rest <:+ text := by
  rcases (faultAt_of_step h).rest with hrest | hrest
  · exact hrest ▸ hl.start
  · exact hrest ▸ hl.stop

theorem rest_of_finish (h : p.finish maxDepth = .error fault) : fault.rest = [] := by
  unfold finish at h
  split at h
  · cases h
  · split at h <;> cases h <;> rfl

theorem rest_of_readAll {ls : List Lexeme} (hls : ∀ l ∈ ls, l.Within text)
    (h : readAll maxDepth p ls = .error fault) : fault.rest <:+ text := by
  induction ls generalizing p with
  | nil => exact rest_of_finish h ▸ List.nil_suffix
  | cons l ls ih =>
    obtain ⟨hl, hrest⟩ := List.forall_mem_cons.1 hls
    rw [readAll_cons] at h
    rcases error_of_bind_eq_error h with hstep | ⟨p', -, hmore⟩
    · exact hl.rest_of_step hstep
    · exact ih hrest hmore

theorem rest_of_readOne {ls : List Lexeme} (hls : ∀ l ∈ ls, l.Within text)
    (h : readOne maxDepth p ls = .error fault) : fault.rest <:+ text := by
  induction ls generalizing p with
  | nil => exact rest_of_finish h ▸ List.nil_suffix
  | cons l ls ih =>
    obtain ⟨hl, hrest⟩ := List.forall_mem_cons.1 hls
    cases hsingle : p.isSingle with
    | true =>
      rw [readOne_of_isSingle hsingle] at h
      cases h
      exact hl.start
    | false =>
      rw [readOne_cons hsingle] at h
      rcases error_of_bind_eq_error h with hstep | ⟨p', -, hmore⟩
      · exact hl.rest_of_step hstep
      · exact ih hrest hmore

/-! ## Errors -/

/-- The error tells of a fault in the text. -/
def ReadError.Tells (e : ReadError) (text : List Char) : Prop :=
  ∃ cause front rest, text = front ++ rest ∧ e = (⟨cause, rest⟩ : Fault).toError text

theorem tells_of_suffix (h : fault.rest <:+ text) : (fault.toError text).Tells text := by
  obtain ⟨cause, rest⟩ := fault
  obtain ⟨front, hfront⟩ := h
  exact ⟨cause, front, rest, hfront.symm, rfl⟩

/-- Every error of reading all data tells of a fault. -/
theorem Config.tells_of_parseAll {text : String} {e : ReadError}
    (h : config.parseAll text = .error e) : e.Tells text.toList := by
  unfold parseAll at h
  dsimp only at h
  split at h
  · cases h
  · rename_i fault hfault
    cases h
    exact tells_of_suffix (rest_of_readAll (within_lexemes _ _) hfault)

/-- So does every error of reading one datum, unless there is none. -/
theorem Config.tells_of_parse {text : String} {e : ReadError}
    (h : config.parse text = .error e) : e = .emptyInput ∨ e.Tells text.toList := by
  unfold parse at h
  dsimp only at h
  split at h
  · cases h
    exact .inl rfl
  · cases h
  · rename_i fault hfault
    cases h
    exact .inr (tells_of_suffix (rest_of_readOne (within_lexemes _ _) hfault))

end DynLisp.Reader
