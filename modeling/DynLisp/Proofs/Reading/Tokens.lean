import DynLisp.Proofs.Reading.OpenForms

/-!
# Tokens, and what they decide

A step looks at the token of a lexeme alone; the text around the lexeme only goes into the fault. So
what is read of a text, or the kind of error with which it is refused, depends on nothing but its
tokens (`Config.readAlike_of_tokens`). Away from comments, a text can be cut where an atom may end
(`tokens_append`).

* `ReadAlike`: what two readings have in common up to the place and the wording of errors;
* `Mode.Alike`: the same place in the cutting of two texts;
* `Progress.take`: a step, as far as the token of a lexeme decides it.
-/

namespace DynLisp.Reader

/-- Both are the same result, or both are errors of one kind. -/
inductive ReadAlike {α : Type} : Except ReadError α → Except ReadError α → Prop where
  | accepted (a : α) : ReadAlike (.ok a) (.ok a)
  | refused {e e' : ReadError} : e.kind = e'.kind → ReadAlike (.error e) (.error e')

theorem readAlike_iff {α : Type} {r r' : Except ReadError α} :
    ReadAlike r r' ↔ r.mapError ReadError.kind = r'.mapError ReadError.kind := by
  constructor
  · rintro (a | hkind)
    · rfl
    · exact congrArg Except.error hkind
  · intro h
    cases r with
    | error e =>
      cases r' with
      | error e' => exact .refused (Except.error.inj h)
      | ok a' => cases h
    | ok a =>
      cases r' with
      | error e' => cases h
      | ok a' =>
        obtain rfl : a = a' := Except.ok.inj h
        exact .accepted a

/-! ## Tokens of a text -/

variable {comments : Bool}

/-- The tokens of a text whose cutting stands at `m`. -/
def tokensFrom (comments : Bool) (m : Mode) (text : List Char) : List Token :=
  (lexemesFrom comments m text).map Lexeme.token

/-- The tokens of a text. -/
def tokens (comments : Bool) (text : List Char) : List Token :=
  tokensFrom comments .between text

theorem tokensFrom_cons (m : Mode) (c : Char) (text : List Char) :
    tokensFrom comments m (c :: text) =
      (m.next comments c (c :: text) text).1.map Lexeme.token ++
        tokensFrom comments (m.next comments c (c :: text) text).2 text := by
  rw [tokensFrom, lexemesFrom_cons, List.map_append]
  rfl

namespace Mode

/-- The cutting stands at the same place of two texts, and not in a comment. -/
inductive Alike : Mode → Mode → Prop where
  | between : Alike .between .between
  | atom (start start' read) : Alike (.atom start read) (.atom start' read)

variable {m m' : Mode} {c : Char}

theorem Alike.symm (h : m.Alike m') : m'.Alike m := by
  cases h <;> constructor

theorem Alike.finish (h : m.Alike m') (stop stop' : List Char) :
    (m.finish stop).map Lexeme.token = (m'.finish stop').map Lexeme.token := by
  cases h <;> rfl

/-- Without a semicolon it makes no difference whether there are comments. -/
theorem begin_alike (comments comments' : Bool) (hc : c ≠ ';')
    (here after here' after' : List Char) :
    (begin comments c here after).1.map Lexeme.token =
        (begin comments' c here' after').1.map Lexeme.token ∧
      (begin comments c here after).2.Alike (begin comments' c here' after').2 := by
  have hcomment : ∀ comments : Bool, ¬ (c = ';' && comments) = true := by
    intro comments h
    simp only [Bool.and_eq_true, decide_eq_true_eq] at h
    exact hc h.1
  unfold begin
  rw [if_neg (hcomment comments), if_neg (hcomment comments')]
  repeat' split
  all_goals exact ⟨rfl, by constructor⟩

theorem Alike.next (h : m.Alike m') (comments comments' : Bool) (hc : c ≠ ';')
    (here after here' after' : List Char) :
    (m.next comments c here after).1.map Lexeme.token =
        (m'.next comments' c here' after').1.map Lexeme.token ∧
      (m.next comments c here after).2.Alike (m'.next comments' c here' after').2 := by
  cases h with
  | between => exact begin_alike comments comments' hc here after here' after'
  | atom start start' read =>
    have hbegin := begin_alike comments comments' hc here after here' after'
    simp only [Mode.next]
    split
    · refine ⟨?_, hbegin.2⟩
      rw [List.map_append, List.map_append, hbegin.1]
      rfl
    · exact ⟨rfl, .atom start start' (c :: read)⟩

end Mode

/-- Where an atom may end, what was read of one is complete. -/
theorem tokensFrom_of_endsAtom {m m' : Mode} (h : m.Alike m') {text : List Char}
    (htext : EndsAtom text) :
    tokensFrom comments m text = (m'.finish []).map Lexeme.token ++ tokens comments text := by
  cases h with
  | between => rfl
  | atom start start' read =>
    have hcut : lexemesFrom comments (.atom start read) ([] ++ text) =
        ⟨.atom (read.reverse ++ []), start, text⟩ :: lexemes comments text :=
      lexemesFrom_atom nofun htext
    rw [List.nil_append, List.append_nil] at hcut
    rw [tokensFrom, hcut]
    rfl

/-- Where an atom may end, a text without semicolons can be cut in two. -/
theorem tokensFrom_append {m m' : Mode} (h : m.Alike m') {s t : List Char} (hs : ';' ∉ s)
    (ht : EndsAtom t) :
    tokensFrom comments m (s ++ t) = tokensFrom comments m' s ++ tokens comments t := by
  induction s generalizing m m' with
  | nil => exact tokensFrom_of_endsAtom h ht
  | cons c s ih =>
    rw [List.mem_cons, not_or] at hs
    obtain ⟨htokens, hmode⟩ :=
      h.next comments comments (Ne.symm hs.1) (c :: (s ++ t)) (s ++ t) (c :: s) s
    rw [List.cons_append, tokensFrom_cons, tokensFrom_cons, htokens, ih hmode hs.2,
      List.append_assoc]

theorem tokens_append {s t : List Char} (hs : ';' ∉ s) (ht : EndsAtom t) :
    tokens comments (s ++ t) = tokens comments s ++ tokens comments t :=
  tokensFrom_append .between hs ht

/-! ## Steps -/

namespace Progress

variable {maxDepth : Nat}

/-- What a lexeme with this token does, wherever it stands. -/
def take (maxDepth : Nat) (p : Progress) (t : Token) : Except Cause Progress :=
  (p.step maxDepth ⟨t, [], []⟩).mapError Fault.cause

theorem mapError_cause_datum (p : Progress) (l : Lexeme) :
    (p.datum maxDepth l).mapError Fault.cause =
      (p.datum maxDepth ⟨l.token, [], []⟩).mapError Fault.cause := by
  obtain ⟨token, start, stop⟩ := l
  unfold datum
  dsimp only
  split
  · rfl
  · cases token with
    | quoteMark => dsimp only; split <;> rfl
    | atom text => dsimp only; cases readAtom text <;> rfl
    | _ => rfl

/-- A step looks at nothing but the token. -/
theorem mapError_cause_step (p : Progress) (l : Lexeme) :
    (p.step maxDepth l).mapError Fault.cause = p.take maxDepth l.token := by
  have hdatum := @mapError_cause_datum maxDepth p l
  obtain ⟨token, start, stop⟩ := l
  unfold take step
  split
  · dsimp only
    split
    · rfl
    · split <;> rfl
    · exact hdatum
  · dsimp only
    split <;> rfl
  · exact hdatum

theorem mapError_cause_foldlM (p : Progress) (ls : List Lexeme) :
    (ls.foldlM (step maxDepth) p).mapError Fault.cause =
      (ls.map Lexeme.token).foldlM (take maxDepth) p := by
  induction ls generalizing p with
  | nil => rfl
  | cons l ls ih =>
    rw [List.map_cons, List.foldlM_cons, List.foldlM_cons, mapError_bind, mapError_cause_step]
    exact congrArg (p.take maxDepth l.token >>= ·) (funext fun p' => ih p')

/-- Nor does a run look at anything else. -/
theorem mapError_cause_read {config : Config} (p : Progress) (text : List Char) :
    (p.read config text).mapError Fault.cause =
      (tokens config.comments text).foldlM (take config.maxDepth) p :=
  mapError_cause_foldlM p (lexemes config.comments text)

theorem mapError_cause_readAll (p : Progress) (ls : List Lexeme) :
    (readAll maxDepth p ls).mapError Fault.cause =
      (ls.map Lexeme.token).foldlM (take maxDepth) p >>= fun p =>
        (p.finish maxDepth).mapError Fault.cause := by
  unfold readAll
  rw [mapError_bind, mapError_cause_foldlM]

theorem mapError_cause_readOne {ls ls' : List Lexeme}
    (h : ls.map Lexeme.token = ls'.map Lexeme.token) (p : Progress) :
    (readOne maxDepth p ls).mapError Fault.cause =
      (readOne maxDepth p ls').mapError Fault.cause := by
  induction ls generalizing ls' p with
  | nil =>
    obtain rfl : ls' = [] := List.map_eq_nil_iff.1 h.symm
    rfl
  | cons l ls ih =>
    cases ls' with
    | nil => cases h
    | cons l' ls' =>
      obtain ⟨htoken, hrest⟩ := List.cons.inj h
      cases hsingle : p.isSingle with
      | true =>
        rw [readOne_of_isSingle hsingle, readOne_of_isSingle hsingle]
        rfl
      | false =>
        rw [readOne_cons hsingle, readOne_cons hsingle, mapError_bind, mapError_bind,
          mapError_cause_step, mapError_cause_step, htoken]
        exact congrArg (p.take maxDepth l'.token >>= ·) (funext fun p => ih hrest p)

end Progress

/-! ## Whole texts -/

open Progress

namespace Config

theorem mapError_kind_parseAll (config : Config) (text : String) :
    (config.parseAll text).mapError ReadError.kind =
      (({} : Progress).read config text.toList >>= finish config.maxDepth).mapError
        fun fault => fault.cause.kind := by
  rw [parseAll_eq_read]
  cases ({} : Progress).read config text.toList >>= finish config.maxDepth <;> rfl

/-- What is told of all data of a text is told by its tokens. -/
theorem mapError_kind_parseAll_eq_tokens (config : Config) (text : String) :
    (config.parseAll text).mapError ReadError.kind =
      ((tokens config.comments text.toList).foldlM (take config.maxDepth) {} >>= fun p =>
        (p.finish config.maxDepth).mapError Fault.cause).mapError Cause.kind := by
  have hcause := @mapError_cause_readAll config.maxDepth {} (lexemes config.comments text.toList)
  have hread : (tokens config.comments text.toList).foldlM (take config.maxDepth) {} >>= (fun p =>
      (p.finish config.maxDepth).mapError Fault.cause) =
        (({} : Progress).read config text.toList >>= finish config.maxDepth).mapError Fault.cause :=
    hcause.symm
  rw [mapError_kind_parseAll, hread]
  cases ({} : Progress).read config text.toList >>= finish config.maxDepth <;> rfl

variable {config config' : Config} {text text' : String}

theorem readAlike_parse
    (h : (readOne config.maxDepth {} (lexemes config.comments text.toList)).mapError Fault.cause =
      (readOne config'.maxDepth {} (lexemes config'.comments text'.toList)).mapError Fault.cause) :
    ReadAlike (config.parse text) (config'.parse text') := by
  unfold parse
  dsimp only
  generalize readOne config.maxDepth {} (lexemes config.comments text.toList) = r at h ⊢
  generalize readOne config'.maxDepth {} (lexemes config'.comments text'.toList) = r' at h ⊢
  cases r with
  | error fault =>
    cases r' with
    | error fault' => exact .refused (congrArg Cause.kind (Except.error.inj h))
    | ok vs' => cases h
  | ok vs =>
    cases r' with
    | error fault' => cases h
    | ok vs' =>
      obtain rfl : vs = vs' := Except.ok.inj h
      cases vs with
      | nil => exact .refused rfl
      | cons v vs => exact .accepted v

/-- Texts with the same tokens are read alike: for one datum, and for all. -/
theorem readAlike_of_tokens (hdepth : config.maxDepth = config'.maxDepth)
    (htokens : tokens config.comments text.toList = tokens config'.comments text'.toList) :
    ReadAlike (config.parse text) (config'.parse text') ∧
      ReadAlike (config.parseAll text) (config'.parseAll text') := by
  constructor
  · refine readAlike_parse ?_
    rw [← hdepth]
    exact mapError_cause_readOne htokens {}
  · rw [readAlike_iff, mapError_kind_parseAll_eq_tokens, mapError_kind_parseAll_eq_tokens, htokens,
      hdepth]

end Config

end DynLisp.Reader
