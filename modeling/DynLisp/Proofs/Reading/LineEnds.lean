import DynLisp.Proofs.Except
import DynLisp.Reader.Datum

/-!
# Reading past the end of a line

At the end of a line no lexeme is open and no comment: what was read up to there does not depend on
the text that follows, and reading goes on as if a new text began (`Progress.read_append_newline`).
Only the text that lexemes and faults know to be left is longer (`Lexeme.extend`, `Fault.extend`).

* `lexemesFrom_append_newline`: the lexemes of a text and of what follows its last line;
* `Progress.step_extend`: a step does not look at the text that is left;
* `Progress.read_append_newline`, `Config.parseAll_eq_read`: reading a text in two parts.
-/

namespace DynLisp.Reader

variable {comments : Bool} {maxDepth : Nat}

/-! ## Lexemes -/

/-- The lexeme in a text that goes on with `t`. -/
def Lexeme.extend (t : List Char) (l : Lexeme) : Lexeme :=
  { l with start := l.start ++ t, stop := l.stop ++ t }

namespace Mode

/-- Where the cutting stands in a text that goes on with `t`. -/
def extend (t : List Char) : Mode → Mode
  | atom start read => atom (start ++ t) read
  | m => m

theorem begin_extend (c : Char) (here after t : List Char) :
    begin comments c (here ++ t) (after ++ t) =
      ((begin comments c here after).1.map (Lexeme.extend t),
        (begin comments c here after).2.extend t) := by
  unfold begin
  repeat' split
  all_goals rfl

theorem next_extend (m : Mode) (c : Char) (here after t : List Char) :
    (m.extend t).next comments c (here ++ t) (after ++ t) =
      ((m.next comments c here after).1.map (Lexeme.extend t),
        (m.next comments c here after).2.extend t) := by
  cases m with
  | between => exact begin_extend c here after t
  | comment =>
    simp only [extend, next]
    split <;> rfl
  | atom start read =>
    simp only [extend, next]
    split
    · rw [begin_extend]
      rfl
    · rfl

end Mode

/-- A line end closes what is open before it. -/
theorem lexemesFrom_newline (m : Mode) (t : List Char) :
    lexemesFrom comments (m.extend ('\n' :: t)) ('\n' :: t) =
      (m.finish []).map (Lexeme.extend ('\n' :: t)) ++ lexemes comments t := by
  rw [lexemesFrom_cons]
  cases m <;> rfl

/-- What stands before the end of a line is cut as if nothing followed, and what follows as if
nothing stood before. -/
theorem lexemesFrom_append_newline (m : Mode) (s t : List Char) :
    lexemesFrom comments (m.extend ('\n' :: t)) (s ++ '\n' :: t) =
      (lexemesFrom comments m s).map (Lexeme.extend ('\n' :: t)) ++ lexemes comments t := by
  induction s generalizing m with
  | nil => exact lexemesFrom_newline m t
  | cons c s ih =>
    rw [List.cons_append, lexemesFrom_cons, lexemesFrom_cons, ← List.cons_append, Mode.next_extend,
      ih, List.map_append, List.append_assoc]

theorem lexemes_append_newline (comments : Bool) (s t : List Char) :
    lexemes comments (s ++ '\n' :: t) =
      (lexemes comments s).map (Lexeme.extend ('\n' :: t)) ++ lexemes comments t :=
  lexemesFrom_append_newline .between s t

/-! ## Steps -/

/-- The fault in a text that goes on with `t`. -/
def Fault.extend (t : List Char) (f : Fault) : Fault :=
  { f with rest := f.rest ++ t }

namespace Progress

theorem datum_extend (p : Progress) (l : Lexeme) (t : List Char) :
    p.datum maxDepth (l.extend t) = (p.datum maxDepth l).mapError (Fault.extend t) := by
  obtain ⟨token, start, stop⟩ := l
  unfold datum
  dsimp only [Lexeme.extend]
  split
  · rfl
  · cases token with
    | quoteMark => dsimp only; split <;> rfl
    | atom text => dsimp only; cases readAtom text <;> rfl
    | _ => rfl

/-- A step does not look at the text that is left. -/
theorem step_extend (p : Progress) (l : Lexeme) (t : List Char) :
    p.step maxDepth (l.extend t) = (p.step maxDepth l).mapError (Fault.extend t) := by
  have hdatum := @datum_extend maxDepth p l t
  obtain ⟨token, start, stop⟩ := l
  unfold step
  split
  · dsimp only [Lexeme.extend]
    split
    · rfl
    · split <;> rfl
    · exact hdatum
  · dsimp only [Lexeme.extend]
    split <;> rfl
  · exact hdatum

theorem foldlM_step_extend (p : Progress) (ls : List Lexeme) (t : List Char) :
    (ls.map (Lexeme.extend t)).foldlM (step maxDepth) p =
      (ls.foldlM (step maxDepth) p).mapError (Fault.extend t) := by
  induction ls generalizing p with
  | nil => rfl
  | cons l ls ih =>
    rw [List.map_cons, List.foldlM_cons, List.foldlM_cons, step_extend]
    cases p.step maxDepth l with
    | error f => rfl
    | ok p' => exact ih p'

/-! ## Texts in parts -/

/-- What is read after a further piece of text. -/
def read (config : Config) (p : Progress) (text : List Char) : Except Fault Progress :=
  (lexemes config.comments text).foldlM (step config.maxDepth) p

variable {config : Config}

/-- After the end of a line, reading goes on with what was read before. -/
theorem read_append_newline (p : Progress) (s t : List Char) :
    p.read config (s ++ '\n' :: t) =
      (p.read config s).mapError (Fault.extend ('\n' :: t)) >>= fun p => p.read config t := by
  unfold read
  rw [lexemes_append_newline, List.foldlM_append, foldlM_step_extend]

theorem read_append_newline_of_ok {p p' : Progress} {s : List Char} (h : p.read config s = .ok p')
    (t : List Char) : p.read config (s ++ '\n' :: t) = p'.read config t := by
  rw [read_append_newline, h]
  rfl

end Progress

theorem Config.parseAll_eq_read (config : Config) (text : String) :
    config.parseAll text =
      ((({} : Progress).read config text.toList >>= fun p => p.finish config.maxDepth).mapError
        fun fault => fault.toError text.toList) := by
  have h : Progress.readAll config.maxDepth {} (lexemes config.comments text.toList) =
      ({} : Progress).read config text.toList >>= fun p => p.finish config.maxDepth := rfl
  simp only [parseAll]
  rw [h]
  cases ({} : Progress).read config text.toList >>= fun p => p.finish config.maxDepth <;> rfl

end DynLisp.Reader
