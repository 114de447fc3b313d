import DynLisp.Proofs.Reading.Lexemes
import DynLisp.Proofs.Reading.Tokens

/-!
# White space

All white space ends an atom, but only blanks may stand between tokens. Where a text without
semicolons has no other white space, it does not matter which blanks these are
(`tokensFrom_spaced`). Any other white space character is a stray lexeme, and a text is refused at
the first one, if not before (`mapError_kind_parseAll_of_stray`). So spaces may take the place of
all white space exactly if there is no stray character among it, or if the text is refused with
spaces too, and in the same way (`spaced_reads_alike_iff`).
-/

namespace DynLisp.Reader

open Progress

variable {comments : Bool} {config : Config}

/-- White space that may not stand between tokens. -/
def isStraySpace (c : Char) : Bool :=
  isWhiteSpace c && !isBlank c

/-- What stands in the place of a character where all white space is spaces. -/
def toSpace (c : Char) : Char :=
  if isWhiteSpace c then ' ' else c

/-- The text with spaces in the place of all white space. -/
def spaced (text : String) : String :=
  String.ofList (text.toList.map toSpace)

/-- The kind of error with which a text is refused that goes on with a stray character. -/
def refusalKind (config : Config) (before : List Char) : ErrorKind :=
  match ({} : Progress).read config before with
  | .error fault => fault.cause.kind
  | .ok p => if config.maxDepth ≤ p.depth then .tooDeeplyNested else .invalidSyntax

/-! ## Blanks -/

/-- A blank ends what stands before it, and nothing more. -/
theorem tokensFrom_blank {m m' : Mode} (h : m.Alike m') {c : Char} (hc : isBlank c = true)
    (s : List Char) :
    tokensFrom comments m (c :: s) = (m'.finish []).map Lexeme.token ++ tokens comments s := by
  have hends : EndsAtom (c :: s) := by
    rintro _ ⟨⟩
    exact isDelimiter_of_isBlank hc
  have hblank : tokens comments (c :: s) = tokens comments s :=
    congrArg (List.map Lexeme.token) (lexemes_of_blank (.char (isBlank_iff.1 hc) (.done s)))
  rw [tokensFrom_of_endsAtom h hends, hblank]

/-- Blanks can be replaced by spaces. -/
theorem tokensFrom_spaced {m m' : Mode} (h : m.Alike m') {s : List Char} (hs : ';' ∉ s)
    (hblank : ∀ c ∈ s, isWhiteSpace c → isBlank c) :
    tokensFrom comments m (s.map toSpace) = tokensFrom comments m' s := by
  induction s generalizing m m' with
  | nil => exact h.finish [] []
  | cons c s ih =>
    rw [List.mem_cons, not_or] at hs
    obtain ⟨hc, hrest⟩ := List.forall_mem_cons.1 hblank
    rw [List.map_cons]
    by_cases hspace : isWhiteSpace c
    · have htail : tokens comments (s.map toSpace) = tokens comments s := ih .between hs.2 hrest
      rw [toSpace, if_pos hspace, tokensFrom_blank h (by decide), htail,
        tokensFrom_blank h.symm (hc hspace), h.finish]
    · rw [toSpace, if_neg hspace]
      obtain ⟨htokens, hmode⟩ := h.next comments comments (Ne.symm hs.1) (c :: s.map toSpace)
        (s.map toSpace) (c :: s) s
      rw [tokensFrom_cons, tokensFrom_cons, htokens, ih hmode hs.2 hrest]

/-! ## Other white space -/

theorem spelled_of_isStraySpace {c : Char} (hc : isStraySpace c = true) (s : List Char) :
    Spelled comments ⟨.stray, c :: s, s⟩ := by
  simp only [isStraySpace, Bool.and_eq_true, Bool.not_eq_true'] at hc
  obtain ⟨hspace, hblank⟩ := hc
  have hne : ∀ d, isWhiteSpace d = false → c ≠ d := by
    rintro d hd rfl
    rw [hspace] at hd
    cases hd
  refine .stray s hblank (hne '(' (by decide)) (hne ')' (by decide)) (hne '\x27' (by decide)) ?_ ?_
  · rw [decide_eq_false (hne ';' (by decide)), Bool.false_and]
  · simp only [isDelimiter, hspace, Bool.true_or]

theorem tokens_stray {before : List Char} (hbefore : ';' ∉ before) {c : Char}
    (hc : isStraySpace c = true) (after : List Char) :
    tokens comments (before ++ c :: after) =
      tokens comments before ++ .stray :: tokens comments after := by
  have hspelled : Spelled comments ⟨.stray, c :: after, after⟩ := spelled_of_isStraySpace hc after
  have hends : EndsAtom (c :: after) := by
    rintro _ ⟨⟩
    cases hspelled with
    | stray => assumption
  have hstray : tokens comments (c :: after) = .stray :: tokens comments after :=
    congrArg (List.map Lexeme.token) (lexemes_of_spelled hspelled)
  rw [tokens_append hbefore hends, hstray]

/-- Nowhere may a stray character stand; where nothing may stand, that is told first. -/
theorem take_stray {maxDepth : Nat} {p : Progress} (hp : WellNested maxDepth p) :
    ∃ cause, p.take maxDepth .stray = .error cause ∧
      cause.kind = if maxDepth ≤ p.depth then .tooDeeplyNested else .invalidSyntax := by
  obtain ⟨done, pending⟩ := p
  by_cases hawaits : Awaits pending
  · have hstep : step maxDepth ⟨done, pending⟩ ⟨.stray, [], []⟩ =
        datum maxDepth ⟨done, pending⟩ ⟨.stray, [], []⟩ := by
      rw [step_datum hawaits]
      all_goals nofun
    rw [take, hstep]
    by_cases hdepth : maxDepth ≤ pending.length
    · have hdeep : datum maxDepth ⟨done, pending⟩ ⟨.stray, [], []⟩ =
          .error ⟨.tooDeep maxDepth, []⟩ := if_pos hdepth
      rw [hdeep]
      exact ⟨.tooDeep maxDepth, rfl, (if_pos hdepth).symm⟩
    · rw [datum_eq (Nat.lt_of_not_le hdepth)]
      exact ⟨.invalid, rfl, (if_neg hdepth).symm⟩
  · simp only [Awaits, ne_eq, not_forall, not_not] at hawaits
    obtain ⟨elements, tail, more, rfl⟩ := hawaits
    -- A list with its tail is not at the greatest depth.
    have hdepth : ¬ maxDepth ≤ (⟨done, .ending elements tail :: more⟩ : Progress).depth := by
      intro hle
      rcases hp.atLimit (Nat.le_antisymm hp.depth_le hle) with hnil | ⟨_, hlist⟩
      · cases hnil
      · cases hlist
    exact ⟨.unexpected, rfl, (if_neg hdepth).symm⟩

/-- A text is refused at its first stray character, if not before. -/
theorem mapError_kind_parseAll_of_stray {text : String} {before after : List Char} {c : Char}
    (htext : text.toList = before ++ c :: after) (hbefore : ';' ∉ before)
    (hc : isStraySpace c = true) :
    (config.parseAll text).mapError ReadError.kind = .error (refusalKind config before) := by
  rw [Config.mapError_kind_parseAll_eq_tokens, htext, tokens_stray hbefore hc, List.foldlM_append,
    ← mapError_cause_read, refusalKind]
  cases hread : ({} : Progress).read config before with
  | error fault => rfl
  | ok p =>
    obtain ⟨cause, hcause, hkind⟩ := take_stray ((wellNested_start _).read hread)
    have hstop : (Token.stray :: tokens config.comments after).foldlM (take config.maxDepth) p =
        .error cause := by
      rw [List.foldlM_cons, hcause]
      rfl
    show (Except.mapError Cause.kind ((List.foldlM _ p _) >>= _) : Except _ (List Value)) = _
    rw [hstop]
    exact congrArg Except.error hkind

/-- The first stray character, and what stands before it. -/
theorem exists_stray {s : List Char} (h : ¬ ∀ c ∈ s, isWhiteSpace c → isBlank c) :
    ∃ c after, s = s.takeWhile (fun c => !isStraySpace c) ++ c :: after ∧ isStraySpace c := by
  have hsplit := @List.takeWhile_append_dropWhile _ (fun c => !isStraySpace c) s
  cases hafter : s.dropWhile fun c => !isStraySpace c with
  | nil =>
    refine (h fun c hc hspace => ?_).elim
    have hstray : (!isStraySpace c) = true := List.dropWhile_eq_nil_iff.1 hafter c hc
    simpa [isStraySpace, hspace] using hstray
  | cons c after =>
    rw [hafter] at hsplit
    have hstray : (!isStraySpace c) = false :=
      head?_dropWhile_false (fun c => !isStraySpace c) s c (by rw [hafter]; rfl)
    exact ⟨c, after, hsplit.symm, by simpa using hstray⟩

/-- Take a text without semicolons. With spaces in the place of all white space it is read as it is,
with the same result or with an error of the same kind, exactly if it has no white space but blanks,
or if with spaces it is refused too, with the kind of error that the first other white space is
refused with. -/
theorem spaced_reads_alike_iff (config : Config) (text : String) (h : ';' ∉ text.toList) :
    ReadAlike (config.parseAll text) (config.parseAll (spaced text)) ↔
      (∀ c ∈ text.toList, isWhiteSpace c → isBlank c) ∨
        ∃ e, config.parseAll (spaced text) = .error e ∧
          e.kind = refusalKind config (text.toList.takeWhile fun c => !isStraySpace c) := by
  by_cases hall : ∀ c ∈ text.toList, isWhiteSpace c → isBlank c
  · refine iff_of_true (Config.readAlike_of_tokens rfl ?_).2 (.inl hall)
    rw [spaced, String.toList_ofList]
    exact (tokensFrom_spaced .between h hall).symm
  · obtain ⟨c, after, htext, hc⟩ := exists_stray hall
    have hbefore : ';' ∉ text.toList.takeWhile fun c => !isStraySpace c :=
      fun hmem => h ((List.takeWhile_prefix _).subset hmem)
    rw [readAlike_iff, mapError_kind_parseAll_of_stray htext hbefore hc, or_iff_right hall]
    cases hspaced : config.parseAll (spaced text) with
    | error e =>
      constructor
      · intro hkind
        exact ⟨e, rfl, (Except.error.inj hkind).symm⟩
      · rintro ⟨_, ⟨⟩, hkind⟩
        exact congrArg Except.error hkind.symm
    | ok vs => exact iff_of_false nofun nofun

/-- Behind a non-breaking space there is one parenthesis too many. -/
theorem surplus_parenthesis_reads_alike :
    ';' ∉ "(a\u00a0))".toList ∧
      ReadAlike (({} : Config).parseAll "(a\u00a0))")
        (({} : Config).parseAll (spaced "(a\u00a0))")) := by
  have h : ';' ∉ "(a\u00a0))".toList := by decide
  refine ⟨h, (spaced_reads_alike_iff {} "(a\u00a0))" h).2 (.inr ?_)⟩
  refine ⟨⟨.invalidSyntax, "Unexpected ')' at position 4", some "(a ))"⟩, ?_⟩
  decide +kernel

/-- A non-breaking space ends a symbol, but no other may follow it. -/
theorem nonbreaking_space_separates_nothing :
    ';' ∉ "a\u00a0b".toList ∧
      ¬ ReadAlike (({} : Config).parseAll "a\u00a0b")
        (({} : Config).parseAll (spaced "a\u00a0b")) := by
  have hspaced : ({} : Config).parseAll (spaced "a\u00a0b") = .ok [.symbol "a", .symbol "b"] := by
    decide +kernel
  have hrefused : (({} : Config).parseAll "a\u00a0b").mapError ReadError.kind =
      .error .invalidSyntax := by
    decide +kernel
  refine ⟨by decide, ?_⟩
  rw [readAlike_iff, hspaced, hrefused]
  exact nofun

end DynLisp.Reader
