import DynLisp.Proofs.Reading.OpenForms

/-!
# One datum, and all data

Reading one datum stops at the first lexeme behind it, and is reading all data up to there. A
lexeme begins a datum or goes on with one (`Progress.begun_of_advances`), so a text with a lexeme
behind its first datum has at least two data, if it is accepted at all (`Progress.readOne_cases`).
What the two ways to read a text tell about each other is in `Compared`, in four cases.
-/

namespace DynLisp.Reader

open Progress

namespace Progress

variable {maxDepth : Nat} {p p' : Progress}

/-- How many data have begun: those that are complete, and the one that the open forms are part
of. -/
def begun (p : Progress) : Nat :=
  p.done.length + if p.pending.isEmpty then 0 else 1

theorem begun_le (p : Progress) : p.begun ≤ p.done.length + 1 := by
  unfold begun
  split <;> omega

theorem begun_complete (done : List Value) (pending : List Pending) (v : Value) :
    (complete done pending v).begun = done.length + 1 := by
  induction pending generalizing v with
  | nil => rfl
  | cons form pending ih =>
    cases form with
    | quoted => exact ih (Reader.quoted v)
    | _ => rfl

/-- After a lexeme, one datum more has begun than were complete before. -/
theorem begun_of_advances {token : Token} (h : Advances maxDepth p token p') :
    p'.begun = p.done.length + 1 := by
  cases h with
  | openParen => rfl
  | quoteMark => rfl
  | atom => exact begun_complete _ _ _
  | dot => rfl
  | closeList => exact begun_complete _ _ _
  | closeEnding => exact begun_complete _ _ _

theorem begun_le_of_foldlM {ls : List Lexeme} (h : ls.foldlM (step maxDepth) p = .ok p') :
    p.begun ≤ p'.begun :=
  foldlM_induction (P := fun q => p.begun ≤ q.begun)
    (fun hadvances hle => by
      rw [begun_of_advances hadvances]
      exact Nat.le_trans hle (begun_le _))
    h (Nat.le_refl _)

/-- In the end, what has begun is complete. -/
theorem length_of_finish {vs : List Value} (h : p.finish maxDepth = .ok vs) :
    vs.length = p.begun := by
  by_cases hpending : p.pending = []
  · rw [finish_of_complete hpending] at h
    obtain rfl := Except.ok.inj h
    simp [begun, hpending]
  · rw [finish_of_pending hpending] at h
    cases h

theorem isSingle_iff : p.isSingle = true ↔ p.pending = [] ∧ 0 < p.done.length := by
  simp only [isSingle, Bool.and_eq_true, Bool.not_eq_true', List.isEmpty_iff,
    List.isEmpty_eq_false_iff, List.length_pos_iff]

/-- Until one datum is complete, none is. -/
theorem length_done_of_not_isSingle (hp : p.begun ≤ 1) (h : p.isSingle = false) :
    p.done.length = 0 := by
  by_cases hpending : p.pending = []
  · by_contra hdone
    have hsingle : p.isSingle = true := isSingle_iff.2 ⟨hpending, Nat.pos_of_ne_zero hdone⟩
    rw [h] at hsingle
    cases hsingle
  · have hbegun : p.begun = p.done.length + 1 := by
      simp [begun, hpending]
    omega

/-- Where at most one datum has begun, one datum is read as all are, and there is no second one; or
reading stops at a lexeme behind the datum, and all data are at least two. -/
theorem readOne_cases (hp : p.begun ≤ 1) (ls : List Lexeme) :
    (readOne maxDepth p ls = readAll maxDepth p ls ∧
      ∀ vs, readAll maxDepth p ls = .ok vs → vs.length ≤ 1) ∨
    (∃ rest, readOne maxDepth p ls = .error ⟨.trailing, rest⟩) ∧
      ∀ vs, readAll maxDepth p ls = .ok vs → 2 ≤ vs.length := by
  induction ls generalizing p with
  | nil =>
    refine .inl ⟨rfl, fun vs hvs => ?_⟩
    rw [length_of_finish hvs]
    exact hp
  | cons l ls ih =>
    cases hsingle : p.isSingle with
    | true =>
      refine .inr ⟨⟨l.start, readOne_of_isSingle hsingle maxDepth l ls⟩, fun vs hvs => ?_⟩
      obtain ⟨q, hrun, hfinish⟩ := exists_of_bind_eq_ok hvs
      obtain ⟨p', hl, hls⟩ := exists_of_foldlM_cons_eq_ok hrun
      calc 2 ≤ p.done.length + 1 := Nat.succ_le_succ (isSingle_iff.1 hsingle).2
        _ = p'.begun := (begun_of_advances (advances_of_step hl)).symm
        _ ≤ q.begun := begun_le_of_foldlM hls
        _ = vs.length := (length_of_finish hfinish).symm
    | false =>
      rw [readOne_cons hsingle, readAll_cons]
      cases hl : p.step maxDepth l with
      | error fault => exact .inl ⟨rfl, nofun⟩
      | ok p' =>
        refine ih ?_
        rw [begun_of_advances (advances_of_step hl), length_done_of_not_isSingle hp hsingle]

end Progress

/-! ## Whole texts -/

/-- What reading one datum of a text and reading all of them tell about each other. -/
inductive Compared : Except ReadError Value → Except ReadError (List Value) → Prop where
  | empty : Compared (.error .emptyInput) (.ok [])
  | single (v : Value) : Compared (.ok v) (.ok [v])
  | refused {e : ReadError} : e.text ≠ ReadError.emptyInput.text → Compared (.error e) (.error e)
  /-- There is more text behind the first datum. -/
  | trailing {e : ReadError} {all : Except ReadError (List Value)} :
      e.text ≠ ReadError.emptyInput.text → e.kind = .trailingContent →
        (∀ vs, all = .ok vs → 2 ≤ vs.length) → Compared (.error e) all

/-- No fault is told in the words in which missing input is. -/
theorem Fault.text_ne_emptyInput (f : Fault) (input : List Char) :
    (f.toError input).text ≠ ReadError.emptyInput.text := by
  have htext : ∀ position, f.text position ≠ ReadError.emptyInput.text := by
    obtain ⟨cause, rest⟩ := f
    intro position
    cases cause <;> simp [Fault.text, ReadError.emptyInput, String.ext_iff]
  exact htext (f.position input)

/-- Of every text, one of the four cases holds. -/
theorem compared (config : Config) (text : String) :
    Compared (config.parse text) (config.parseAll text) := by
  unfold Config.parse Config.parseAll
  dsimp only
  rcases @readOne_cases config.maxDepth {} (Nat.zero_le 1) (lexemes config.comments text.toList)
    with ⟨heq, hle⟩ | ⟨⟨rest, htrailing⟩, hge⟩
  · rw [heq]
    cases hall : readAll config.maxDepth {} (lexemes config.comments text.toList) with
    | error fault => exact .refused (fault.text_ne_emptyInput text.toList)
    | ok vs =>
      match vs, hle vs hall with
      | [], _ => exact .empty
      | [v], _ => exact .single v
  · rw [htrailing]
    refine .trailing (Fault.text_ne_emptyInput _ _) rfl fun vs hvs => ?_
    cases hall : readAll config.maxDepth {} (lexemes config.comments text.toList) with
    | error fault =>
      rw [hall] at hvs
      cases hvs
    | ok vs' =>
      rw [hall] at hvs
      cases hvs
      exact hge vs hall

namespace Compared

variable {one : Except ReadError Value} {all : Except ReadError (List Value)}

theorem ok_iff (h : Compared one all) (v : Value) : one = .ok v ↔ all = .ok [v] := by
  cases h with
  | empty => exact iff_of_false nofun nofun
  | single w => simp
  | refused => exact iff_of_false nofun nofun
  | trailing _ _ hge =>
    refine iff_of_false nofun fun hall => ?_
    exact absurd (hge [v] hall) (Nat.not_succ_le_self 1)

theorem nil_iff (h : Compared one all) :
    all = .ok [] ↔ ∃ e, one = .error e ∧ e.text = ReadError.emptyInput.text := by
  cases h with
  | empty => exact iff_of_true rfl ⟨_, rfl, rfl⟩
  | single w => exact iff_of_false nofun nofun
  | refused hne =>
    refine iff_of_false nofun ?_
    rintro ⟨_, ⟨⟩, htext⟩
    exact hne htext
  | trailing hne _ hge =>
    refine iff_of_false (fun hall => absurd (hge [] hall) (Nat.not_succ_le_zero 1)) ?_
    rintro ⟨_, ⟨⟩, htext⟩
    exact hne htext

theorem trailing_of_two_le (h : Compared one all) {vs : List Value} (hall : all = .ok vs)
    (hvs : 2 ≤ vs.length) : ∃ e, one = .error e ∧ e.kind = .trailingContent := by
  cases h with
  | empty =>
    cases hall
    exact absurd hvs (Nat.not_succ_le_zero 1)
  | single w =>
    cases hall
    exact absurd hvs (Nat.not_succ_le_self 1)
  | refused => cases hall
  | trailing _ hkind _ => exact ⟨_, rfl, hkind⟩

theorem error_of_error (h : Compared one all) {e : ReadError} (hone : one = .error e)
    (htext : e.text ≠ ReadError.emptyInput.text) (hkind : e.kind ≠ .trailingContent) :
    all = .error e := by
  cases h with
  | empty =>
    cases hone
    exact absurd rfl htext
  | single w => cases hone
  | refused =>
    cases hone
    rfl
  | trailing _ htrailing _ =>
    cases hone
    exact absurd htrailing hkind

end Compared

/-- Reading one datum of a text and reading all of them agree: a text is read as one datum exactly
if its data are this one; it has no data exactly if it is refused as empty; where it has at least
two, the text behind the first one is refused; and every other error is the same for both. -/
theorem one_and_all_agree (config : Config) (text : String) :
    (∀ v, config.parse text = .ok v ↔ config.parseAll text = .ok [v]) ∧
      (config.parseAll text = .ok [] ↔
        ∃ e, config.parse text = .error e ∧ e.text = "Empty input") ∧
      (∀ vs, config.parseAll text = .ok vs → 2 ≤ vs.length →
        ∃ e, config.parse text = .error e ∧ e.kind = .trailingContent) ∧
      ∀ e, config.parse text = .error e → e.text ≠ "Empty input" → e.kind ≠ .trailingContent →
        config.parseAll text = .error e := by
  have h := compared config text
  exact ⟨h.ok_iff, h.nil_iff, fun _ => h.trailing_of_two_le, fun _ => h.error_of_error⟩

/-- A quoted symbol is a second datum behind a comment; a number that is none is refused in the same
words, wherever it stands. -/
theorem second_datum_and_bad_number :
    (∃ e, ({} : Config).parse "a;b\n'c" = .error e ∧ e.kind = .trailingContent) ∧
      ({} : Config).parseAll "('1x" =
        .error ⟨.invalidSyntax, "Invalid number '1x' at position 2", some "('1x"⟩ := by
  have htwo : ({} : Config).parseAll "a;b\n'c" = .ok [.symbol "a", quoted (.symbol "c")] := by
    decide +kernel
  have hnumber : ({} : Config).parse "('1x" =
      .error ⟨.invalidSyntax, "Invalid number '1x' at position 2", some "('1x"⟩ := by
    decide +kernel
  obtain ⟨-, -, htrailing, -⟩ := one_and_all_agree {} "a;b\n'c"
  obtain ⟨-, -, -, hsame⟩ := one_and_all_agree {} "('1x"
  exact ⟨htrailing _ htwo (by decide), hsame _ hnumber (by decide) (by decide)⟩

end DynLisp.Reader
