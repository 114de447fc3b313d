import DynLisp.Proofs.Reading.Descent

/-!
# Reading by descent, from a lexeme on

What is read by descent where a lexeme stands: its token tells which of the readings goes on, with
one call less, or two (`readDatum_spelled`, `readItems_spelled`). Blanks before the lexeme make no
difference (`skipBlank_cases`).
-/

namespace DynLisp.Reader

variable {comments : Bool} {config : Config} {depth : Nat} {s : List Char} {l : Lexeme}

/-! ## The text of a lexeme -/

theorem Spelled.length_stop_lt (h : Spelled comments l) : l.stop.length < l.start.length := by
  cases h with
  | @atom text s hne =>
    show s.length < (text ++ s).length
    have hpos := List.length_pos_iff.2 hne
    rw [List.length_append]
    omega
  | _ => exact Nat.lt_succ_self _

theorem Spelled.start_ne (h : Spelled comments l) : ¬ l.start.isEmpty = true := by
  intro hempty
  have hlt := h.length_stop_lt
  rw [List.isEmpty_iff.1 hempty] at hlt
  exact Nat.not_lt_zero _ hlt

/-- Nothing is left out before a lexeme. -/
theorem Spelled.bare (h : Spelled comments l) : Bare comments l.start := by
  have hmark : ∀ {c}, isBlank c = false → c ≠ ';' → ∀ s, Bare comments (c :: s) := by
    rintro c hblank hne s _ ⟨⟩
    exact ⟨hblank, fun h => hne h.2⟩
  cases h with
  | openParen s => exact hmark (by decide) (by decide) s
  | closeParen s => exact hmark (by decide) (by decide) s
  | quoteMark s => exact hmark (by decide) (by decide) s
  | stray s hblank _ _ _ hcomment =>
    rintro _ ⟨⟩
    refine ⟨hblank, ?_⟩
    rintro ⟨rfl, rfl⟩
    cases hcomment
  | @atom text s hne htext =>
    cases text with
    | nil => exact (hne rfl).elim
    | cons c text =>
      have hc : isDelimiter c = false := htext c List.mem_cons_self
      refine hmark ?_ ?_ (text ++ s)
      · rw [Bool.eq_false_iff]
        exact fun hblank => Bool.eq_false_iff.1 hc (isDelimiter_of_isBlank hblank)
      · rintro rfl
        cases hc

/-- A parenthesis is one character, and so is a dot. -/
theorem Spelled.tail_start (h : Spelled comments l)
    (htoken : l.token = .closeParen ∨ l.token = .atom ['.']) : l.start.tail = l.stop := by
  cases h with
  | closeParen s => rfl
  | atom hne =>
    rcases htoken with htoken | htoken <;> cases htoken
    rfl
  | _ => rcases htoken with htoken | htoken <;> cases htoken

/-- A closing parenthesis is known by its character. -/
theorem Spelled.head?_start_iff (hl : Spelled comments l) :
    l.start.head? = some ')' ↔ l.token = .closeParen := by
  cases hl with
  | closeParen s => exact iff_of_true rfl rfl
  | stray s _ _ hclose => exact iff_of_false (fun h => hclose (Option.some.inj h)) nofun
  | @atom text s hne htext =>
    refine iff_of_false (fun h => ?_) nofun
    cases text with
    | nil => exact hne rfl
    | cons c text =>
      cases h
      cases htext ')' List.mem_cons_self
  | _ => exact iff_of_false nofun nofun

namespace Descent

/-! ## Blanks before a lexeme -/

theorem skipBlank_of_bare (h : Bare comments s) :
    Settles (skipBlank comments s) (s.length + 1) (pure s) := by
  obtain ⟨t, ht, hblank, -⟩ := exists_skipBlank comments s
  rwa [h.eq_of_blank hblank] at ht

/-- After its blanks a text is at its end, or a lexeme stands there. -/
theorem skipBlank_cases (comments : Bool) (s : List Char) :
    (Settles (skipBlank comments s) (s.length + 1) (pure []) ∧ lexemes comments s = []) ∨
    ∃ l, Spelled comments l ∧ l.start <:+ s ∧
      Settles (skipBlank comments s) (s.length + 1) (pure l.start) ∧
      lexemes comments s = l :: lexemes comments l.stop := by
  obtain ⟨t, hskip, hblank, hbare⟩ := exists_skipBlank comments s
  rcases @blank_or_spelled comments t with hend | ⟨l, hstart, hl⟩
  · obtain rfl : [] = t := hbare.eq_of_blank hend
    exact .inl ⟨hskip, lexemes_of_blank hblank⟩
  · obtain rfl : l.start = t := hbare.eq_of_blank hstart
    refine .inr ⟨l, hl, hblank.suffix, hskip, ?_⟩
    rw [lexemes_of_blank hblank, lexemes_of_spelled hl]

/-! ## Atoms -/

theorem readAtomAt_atom {text : List Char} (hne : text ≠ [])
    (htext : ∀ c ∈ text, isDelimiter c = false) (hends : EndsAtom s) :
    readAtomAt (text ++ s) = match readAtom text with
      | .ok v => pure (v, s)
      | .error cause => throw ⟨cause, text ++ s⟩ := by
  have htext' : ∀ c ∈ text, (!isDelimiter c) = true := fun c hc => by rw [htext c hc]; rfl
  have hrun : (text ++ s).takeWhile (fun c => !isDelimiter c) = text := by
    rw [List.takeWhile_append_of_pos htext']
    cases s with
    | nil => exact List.append_nil text
    | cons c s =>
      rw [List.takeWhile_cons_of_neg (by rw [hends c rfl]; decide), List.append_nil]
  have hempty : ¬ text.isEmpty = true := fun h => hne (List.isEmpty_iff.1 h)
  unfold readAtomAt
  cases hread : readAtom text with
  | ok v => simp only [hrun, hread, if_neg hempty, List.drop_left]
  | error cause => simp only [hrun, hread, if_neg hempty]

theorem readAtomAt_delimiter {c : Char} (hc : isDelimiter c = true) (s : List Char) :
    readAtomAt (c :: s) = throw ⟨.invalid, c :: s⟩ := by
  unfold readAtomAt
  rw [List.takeWhile_cons_of_neg (by rw [hc]; decide)]
  rfl

/-! ## Data -/

variable {calls : Nat}

theorem readDatum_of_le (h : config.maxDepth ≤ depth) (s : List Char) (hcalls : 0 < calls) :
    readDatum config depth s calls = throw ⟨.tooDeep config.maxDepth, s⟩ := by
  obtain ⟨calls, rfl⟩ := Nat.exists_eq_add_one.2 hcalls
  rw [readDatum.eq_2, if_pos h]

/-- A datum is read behind blanks as it is read behind none. -/
theorem readDatum_of_skipBlank {t : List Char} (hcalls : s.length + 2 ≤ calls)
    (hskip : Settles (skipBlank config.comments s) (s.length + 1) (pure t)) (ht : t <:+ s)
    (hbare : Bare config.comments t) (h : depth < config.maxDepth) :
    readDatum config depth s calls = readDatum config depth t calls := by
  obtain ⟨calls, rfl⟩ := Nat.exists_eq_add_one.2 (Nat.zero_lt_of_lt hcalls)
  have hle := ht.length_le
  rw [readDatum.eq_2, readDatum.eq_2 config depth t, if_neg (Nat.not_le.2 h),
    if_neg (Nat.not_le.2 h), hskip calls (by omega), skipBlank_of_bare hbare calls (by omega)]

theorem readDatum_nil (hcalls : 2 ≤ calls) (h : depth < config.maxDepth) :
    readDatum config depth [] calls = throw ⟨.unexpectedEnd, []⟩ := by
  obtain ⟨calls, rfl⟩ := Nat.exists_eq_add_one.2 (Nat.zero_lt_of_lt hcalls)
  have hskip := @skipBlank_of_bare config.comments [] nofun calls (Nat.le_of_succ_le_succ hcalls)
  rw [readDatum.eq_2, if_neg (Nat.not_le.2 h), hskip]
  rfl

/-- A datum is read by the lexeme that it begins with. -/
theorem readDatum_spelled (hcalls : l.start.length ≤ calls) (h : depth < config.maxDepth)
    (hl : Spelled config.comments l) :
    readDatum config depth l.start (calls + 2) = match l.token with
      | .openParen => readItems config depth [] l.stop calls
      | .closeParen => throw ⟨.unexpected, l.start⟩
      | .quoteMark => readDatum config (depth + 1) l.stop calls >>= fun p =>
        pure (quoted p.1, p.2)
      | .stray => throw ⟨.invalid, l.start⟩
      | .atom text =>
        match readAtom text with
        | .ok v => pure (v, l.stop)
        | .error cause => throw ⟨cause, l.start⟩ := by
  rw [readDatum.eq_2, if_neg (Nat.not_le.2 h),
    skipBlank_of_bare hl.bare (calls + 1) (Nat.succ_le_succ hcalls), pure_bind]
  cases hl with
  | openParen s => exact readList.eq_2 config depth ('(' :: s) calls
  | closeParen s => rfl
  | quoteMark s => exact readQuote.eq_2 config depth ('\x27' :: s) calls
  | stray s _ hopen hclose hquote _ hdelimiter =>
    simp [hopen, hclose, hquote, readAtomAt_delimiter hdelimiter]
  | @atom text s hne htext hends =>
    refine Eq.trans ?_ (readAtomAt_atom hne htext hends)
    cases text with
    | nil => exact (hne rfl).elim
    | cons c text =>
      have hother : ∀ d, isDelimiter d = true → ¬ (c :: text ++ s).head? = some d := by
        rintro d hd ⟨⟩
        rw [htext c List.mem_cons_self] at hd
        cases hd
      rw [if_neg (hother '(' (by decide)), if_neg (hother '\x27' (by decide)),
        if_neg (hother ')' (by decide)), if_neg (hother '\x22' (by decide))]
      rfl

/-! ## Elements of a list -/

theorem atDot_of_ne {c : Char} (h : c ≠ '.') (s : List Char) : atDot (c :: s) = false := by
  unfold atDot
  split
  · rename_i heq
    cases heq
    exact (h rfl).elim
  · rfl

/-- A dot stands alone where it is an atom. -/
theorem atDot_spelled (hl : Spelled comments l) : atDot l.start = true ↔ l.token = .atom ['.'] := by
  have hother : ∀ {c s token}, c ≠ '.' → token ≠ Token.atom ['.'] →
      (atDot (c :: s) = true ↔ token = .atom ['.']) := by
    intro c s token hc htoken
    rw [atDot_of_ne hc]
    exact iff_of_false Bool.false_ne_true htoken
  cases hl with
  | openParen s => exact hother (by decide) nofun
  | closeParen s => exact hother (by decide) nofun
  | quoteMark s => exact hother (by decide) nofun
  | stray s _ _ _ _ _ hdelimiter =>
    refine hother ?_ nofun
    rintro rfl
    cases hdelimiter
  | @atom text s hne htext hends =>
    match text, hne with
    | [c], _ =>
      by_cases hc : c = '.'
      · subst hc
        refine iff_of_true ?_ rfl
        show s.head?.all isDelimiter = true
        exact (Option.all_eq_true _ _).2 hends
      · exact hother hc fun heq => by cases heq; exact hc rfl
    | c :: d :: text, _ =>
      by_cases hc : c = '.'
      · subst hc
        refine iff_of_false (fun hdot => ?_) nofun
        have hd : isDelimiter d = false := htext d (by simp)
        change isDelimiter d = true at hdot
        rw [hd] at hdot
        cases hdot
      · exact hother hc nofun

section Items

variable {elements : List Value} {calls : Nat}

theorem readItems_nil (hskip : skipBlank config.comments s calls = pure []) :
    readItems config depth elements s (calls + 1) =
      readDatum config (depth + 1) [] calls >>= fun p =>
        readItems config depth (p.1 :: elements) p.2 calls := by
  rw [readItems.eq_2, hskip]
  rfl

theorem readItems_spelled (hskip : skipBlank config.comments s calls = pure l.start)
    (hl : Spelled config.comments l) :
    readItems config depth elements s (calls + 1) =
      if l.token = .closeParen then pure (.ofList elements.reverse, l.start.tail)
      else if l.token = .atom ['.'] then
        if elements.isEmpty then throw ⟨.unexpected, l.start⟩
        else readDatum config (depth + 1) l.start.tail calls >>= fun p =>
          readClose config.comments p.2 calls >>= fun t =>
            pure (.ofListTail elements.reverse p.1, t)
      else readDatum config (depth + 1) l.start calls >>= fun p =>
        readItems config depth (p.1 :: elements) p.2 calls := by
  rw [readItems.eq_2, hskip, pure_bind]
  simp only [hl.head?_start_iff, atDot_spelled hl]

end Items

end Descent

end DynLisp.Reader
