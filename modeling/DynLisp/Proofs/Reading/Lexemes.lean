import Mathlib.Data.List.TakeWhile
import DynLisp.Proofs.Reading.Grammar

/-!
# Blanks and lexemes in a text

Cutting a text character by character finds what stands there:

* `lexemes_of_blank`: blanks and comments are nothing;
* `lexemes_of_spelled`: the characters of a lexeme are that lexeme, whatever follows them;
* `lexemes_cases`: a text is blank, or it begins with a lexeme after its blanks.
-/

namespace DynLisp.Reader

/-- An atom may end where this text follows. -/
def EndsAtom (s : List Char) : Prop :=
  ∀ c ∈ s.head?, isDelimiter c = true

theorem endsAtom_iff {s : List Char} : EndsAtom s ↔ Delimited s :=
  forall₂_congr fun _ _ => isDelimiter_iff

/-- The text of a lexeme is what such a token looks like. -/
inductive Spelled (comments : Bool) : Lexeme → Prop where
  | openParen (s) : Spelled comments ⟨.openParen, '(' :: s, s⟩
  | closeParen (s) : Spelled comments ⟨.closeParen, ')' :: s, s⟩
  | quoteMark (s) : Spelled comments ⟨.quoteMark, '\x27' :: s, s⟩
  | stray {c} (s) : isBlank c = false → c ≠ '(' → c ≠ ')' → c ≠ '\x27' →
      (c = ';' && comments) = false → isDelimiter c = true → Spelled comments ⟨.stray, c :: s, s⟩
  | atom {text s} : text ≠ [] → (∀ c ∈ text, isDelimiter c = false) → EndsAtom s →
      Spelled comments ⟨.atom text, text ++ s, s⟩

variable {comments : Bool}

theorem Spelled.of_delimited {text s : List Char} (hne : text ≠ [])
    (htext : ∀ c ∈ text, ¬ DelimiterChar c) (hs : Delimited s) :
    Spelled comments ⟨.atom text, text ++ s, s⟩ :=
  .atom hne (forall_not_delimiter_iff.2 htext) (endsAtom_iff.2 hs)

theorem Blank.trans {s t u : List Char} (h : Blank comments s t) (h' : Blank comments t u) :
    Blank comments s u := by
  induction h with
  | done => exact h'
  | char hc _ ih => exact .char hc (ih h')
  | comment hcomments hbody hend _ ih => exact .comment hcomments hbody hend (ih h')

/-- Where a comment may end, what follows it is cut as if there were none. -/
theorem lexemesFrom_comment {body s : List Char} (hbody : '\n' ∉ body)
    (hend : s = [] ∨ s.head? = some '\n') :
    lexemesFrom comments .comment (body ++ s) = lexemes comments s := by
  induction body with
  | nil =>
    rcases hend with rfl | hend
    · rfl
    · obtain ⟨s, rfl⟩ := List.head?_eq_some_iff.1 hend
      rw [List.nil_append, lexemes, lexemesFrom_cons, lexemesFrom_cons]
      rfl
  | cons c body ih =>
    rw [List.mem_cons, not_or] at hbody
    rw [List.cons_append, lexemesFrom_cons]
    show lexemesFrom comments (if c = '\n' then .between else .comment) (body ++ s) = _
    rw [if_neg (Ne.symm hbody.1)]
    exact ih hbody.2

theorem begin_of_isBlank {c : Char} (h : isBlank c = true) (here after : List Char) :
    Mode.begin comments c here after = ([], .between) :=
  if_pos h

/-- Blanks and comments are nothing. -/
theorem lexemes_of_blank {s t : List Char} (h : Blank comments s t) :
    lexemes comments s = lexemes comments t := by
  induction h with
  | done => rfl
  | char hc _ ih =>
    rw [← ih, lexemes, lexemesFrom_cons]
    show (Mode.begin comments _ _ _).1 ++ lexemesFrom comments (Mode.begin comments _ _ _).2 _ = _
    rw [begin_of_isBlank (isBlank_iff.2 hc)]
    rfl
  | comment hcomments hbody hend _ ih =>
    rw [← ih, lexemes, lexemesFrom_cons, hcomments]
    exact lexemesFrom_comment hbody hend

theorem begin_of_not_isDelimiter {c : Char} (h : isDelimiter c = false) (here after : List Char) :
    Mode.begin comments c here after = ([], .atom here [c]) := by
  have hne : ∀ d, isDelimiter d = true → c ≠ d := by
    rintro d hd rfl
    rw [h] at hd
    cases hd
  have hblank : ¬ isBlank c = true := fun hc => by
    rw [isDelimiter_of_isBlank hc] at h
    cases h
  unfold Mode.begin
  rw [if_neg hblank, if_neg (hne '(' (by decide)), if_neg (hne ')' (by decide)),
    if_neg (hne '\x27' (by decide)), if_neg, if_neg (Bool.eq_false_iff.1 h)]
  intro hc
  simp only [Bool.and_eq_true, decide_eq_true_eq] at hc
  exact hne ';' (by decide) hc.1

/-- An atom goes on to the next delimiter. -/
theorem lexemesFrom_atom {text s start read : List Char} (htext : ∀ c ∈ text, isDelimiter c = false)
    (hs : EndsAtom s) : lexemesFrom comments (.atom start read) (text ++ s) =
      ⟨.atom (read.reverse ++ text), start, s⟩ :: lexemes comments s := by
  induction text generalizing read with
  | nil =>
    rw [List.nil_append, List.append_nil]
    cases s with
    | nil => rfl
    | cons c s =>
      rw [lexemes, lexemesFrom_cons, lexemesFrom_cons]
      show (if isDelimiter c = true then _ else _ : List Lexeme × Mode).1 ++
        lexemesFrom comments (if isDelimiter c = true then _ else _ : List Lexeme × Mode).2 s = _
      rw [if_pos (hs c rfl)]
      rfl
  | cons c text ih =>
    rw [List.cons_append, lexemesFrom_cons]
    show (if isDelimiter c = true then _ else _ : List Lexeme × Mode).1 ++
      lexemesFrom comments (if isDelimiter c = true then _ else _ : List Lexeme × Mode).2
        (text ++ s) = _
    rw [if_neg (Bool.eq_false_iff.1 (htext c List.mem_cons_self)), List.nil_append,
      ih fun d hd => htext d (List.mem_cons_of_mem c hd), List.reverse_cons, List.append_assoc]
    rfl

/-- The characters of a lexeme are that lexeme, whatever follows them. -/
theorem lexemes_of_spelled {l : Lexeme} (h : Spelled comments l) :
    lexemes comments l.start = l :: lexemes comments l.stop := by
  cases h with
  | openParen s => exact lexemesFrom_cons comments .between '(' s
  | closeParen s => exact lexemesFrom_cons comments .between ')' s
  | quoteMark s => exact lexemesFrom_cons comments .between '\x27' s
  | @stray c s hblank hopen hclose hquote hcomment hdelimiter =>
    have hbegin : Mode.begin comments c (c :: s) s = ([⟨.stray, c :: s, s⟩], .between) := by
      unfold Mode.begin
      rw [if_neg (Bool.eq_false_iff.1 hblank), if_neg hopen, if_neg hclose, if_neg hquote,
        if_neg (Bool.eq_false_iff.1 hcomment), if_pos hdelimiter]
    show lexemesFrom comments .between (c :: s) = _
    rw [lexemesFrom_cons]
    show (Mode.begin comments c _ _).1 ++ lexemesFrom comments (Mode.begin comments c _ _).2 s = _
    rw [hbegin]
    rfl
  | @atom text s hne htext hs =>
    cases text with
    | nil => exact (hne rfl).elim
    | cons c text =>
      show lexemesFrom comments .between (c :: (text ++ s)) = _
      rw [lexemesFrom_cons]
      show (Mode.begin comments c _ _).1 ++ lexemesFrom comments (Mode.begin comments c _ _).2 _ = _
      rw [begin_of_not_isDelimiter (htext c List.mem_cons_self)]
      exact lexemesFrom_atom (fun d hd => htext d (List.mem_cons_of_mem c hd)) hs

/-- A longest run of characters of a class, and what follows it. -/
theorem exists_run (p : Char → Bool) (s : List Char) :
    ∃ run t, s = run ++ t ∧ (∀ c ∈ run, p c = true) ∧ ∀ c ∈ t.head?, p c = false :=
  ⟨s.takeWhile p, s.dropWhile p, List.takeWhile_append_dropWhile.symm,
    fun _ hc => List.mem_takeWhile_imp hc, head?_dropWhile_false p s⟩

theorem exists_comment (s : List Char) :
    ∃ body t, s = body ++ t ∧ '\n' ∉ body ∧ (t = [] ∨ t.head? = some '\n') := by
  obtain ⟨body, t, rfl, hbody, ht⟩ := exists_run (· ≠ '\n') s
  refine ⟨body, t, rfl, fun h => by simpa using hbody '\n' h, ?_⟩
  cases t with
  | nil => exact .inl rfl
  | cons c t => exact .inr (by simpa using ht c rfl)

/-- A character that is no delimiter begins an atom. -/
theorem exists_atom {c : Char} (hc : isDelimiter c = false) (s : List Char) :
    ∃ l, l.start = c :: s ∧ Spelled comments l := by
  obtain ⟨text, t, heq, htext, ht⟩ := exists_run (fun c => !isDelimiter c) (c :: s)
  rw [heq]
  refine ⟨⟨.atom text, text ++ t, t⟩, rfl, .atom ?_ (fun d hd => ?_) fun d hd => ?_⟩
  · rintro rfl
    rw [List.nil_append] at heq
    have := ht c (by rw [← heq]; rfl)
    rw [hc] at this
    cases this
  · simpa using htext d hd
  · simpa using ht d hd

/-- A text is blank, or it begins with a lexeme after its blanks. -/
theorem blank_or_spelled (s : List Char) :
    Blank comments s [] ∨ ∃ l, Blank comments s l.start ∧ Spelled comments l := by
  -- On the length, as a comment takes many characters at once.
  induction hlength : s.length using Nat.strong_induction_on generalizing s with
  | _ n ih =>
    cases s with
    | nil => exact .inl (.done [])
    | cons c s =>
      by_cases hblank : isBlank c = true
      · rcases ih s.length (by rw [← hlength]; exact Nat.lt_succ_self _) s rfl with h | ⟨l, h, hl⟩
        · exact .inl (.char (isBlank_iff.1 hblank) h)
        · exact .inr ⟨l, .char (isBlank_iff.1 hblank) h, hl⟩
      by_cases hcomment : (c = ';' && comments) = true
      · simp only [Bool.and_eq_true, decide_eq_true_eq] at hcomment
        obtain ⟨rfl, hcomments⟩ := hcomment
        obtain ⟨body, t, rfl, hbody, hend⟩ := exists_comment s
        have hlt : t.length < n := by
          rw [← hlength, List.length_cons, List.length_append]
          omega
        rcases ih t.length hlt t rfl with h | ⟨l, h, hl⟩
        · exact .inl (.comment hcomments hbody hend h)
        · exact .inr ⟨l, .comment hcomments hbody hend h, hl⟩
      right
      by_cases hdelimiter : isDelimiter c = true
      · by_cases hopen : c = '('
        · exact ⟨_, hopen ▸ .done _, .openParen s⟩
        by_cases hclose : c = ')'
        · exact ⟨_, hclose ▸ .done _, .closeParen s⟩
        by_cases hquote : c = '\x27'
        · exact ⟨_, hquote ▸ .done _, .quoteMark s⟩
        exact ⟨⟨.stray, c :: s, s⟩, .done _, .stray s (Bool.eq_false_iff.2 hblank) hopen hclose
          hquote (Bool.eq_false_iff.2 hcomment) hdelimiter⟩
      · obtain ⟨l, hstart, hl⟩ := @exists_atom comments c (Bool.eq_false_iff.2 hdelimiter) s
        exact ⟨l, hstart ▸ .done _, hl⟩

/-- The first lexeme of a text, if there is one. -/
theorem lexemes_cases (s : List Char) : (Blank comments s [] ∧ lexemes comments s = []) ∨
    ∃ l, Blank comments s l.start ∧ Spelled comments l ∧
      lexemes comments s = l :: lexemes comments l.stop := by
  rcases @blank_or_spelled comments s with h | ⟨l, h, hl⟩
  · exact .inl ⟨h, lexemes_of_blank h⟩
  · exact .inr ⟨l, h, hl, (lexemes_of_blank h).trans (lexemes_of_spelled hl)⟩

end DynLisp.Reader
