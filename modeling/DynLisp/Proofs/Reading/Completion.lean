import DynLisp.Proofs.Reading.OpenForms

/-!
# Text that is not complete

Forms that are open can always be completed: from the stack of open forms one reads off a text,
after which none of them is open any more (`completion`, `ReadsOn.completion`). So a text that is
refused as incomplete is the beginning of one that is accepted
(`incomplete_text_can_be_completed`).

The two ways to read lexemes differ only where no form is open, so what is shown here is shown for
both of them at once (`ReadsOn`).
-/

namespace DynLisp.Reader

open Progress

variable {config : Config} {maxDepth : Nat} {p : Progress} {pending : List Pending}

/-! ## Completing open forms -/

/-- What ends the open forms, once there is a datum in the innermost one. A datum after a quote mark
ends it. -/
def closing : List Pending → List Char
  | [] => []
  | .quoted :: pending => closing pending
  | _ :: pending => ')' :: closing pending

/-- What completes the open forms: `()` where a datum is missing, and the ends of all of them. -/
def completion : List Pending → List Char
  | .dotted elements :: pending => '(' :: ')' :: closing (.dotted elements :: pending)
  | .quoted :: pending => '(' :: ')' :: closing (.quoted :: pending)
  | pending => closing pending

/-- Lexemes are read one by one as long as a form is open. -/
def ReadsOn (maxDepth : Nat) (reads : Progress → List Lexeme → Except Fault (List Value)) : Prop :=
  ∀ p l ls, p.pending ≠ [] → reads p (l :: ls) = p.step maxDepth l >>= fun p => reads p ls

theorem readsOn_readAll (maxDepth : Nat) : ReadsOn maxDepth (readAll maxDepth) :=
  fun p l ls _ => readAll_cons p maxDepth l ls

theorem readsOn_readOne (maxDepth : Nat) : ReadsOn maxDepth (readOne maxDepth) := by
  intro p l ls hpending
  refine readOne_cons ?_ maxDepth l ls
  simp [isSingle, hpending]

namespace ReadsOn

variable {reads : Progress → List Lexeme → Except Fault (List Value)} {comments : Bool}

/-- Reading goes on after a lexeme that may stand where it stands. -/
theorem of_advances (h : ReadsOn maxDepth reads) {l : Lexeme} {p' : Progress}
    (hl : Spelled comments l) (hpending : p.pending ≠ [])
    (hadvances : Advances maxDepth p l.token p') :
    reads p (lexemes comments l.start) = reads p' (lexemes comments l.stop) := by
  rw [lexemes_of_spelled hl, h p l _ hpending, step_of_advances hadvances]
  rfl

/-- A closing parenthesis may follow any number of elements, and a tail. -/
theorem of_closeParen (h : ReadsOn maxDepth reads) {p' : Progress} (hpending : p.pending ≠ [])
    (hadvances : Advances maxDepth p .closeParen p') (s : List Char) :
    reads p (lexemes comments (')' :: s)) = reads p' (lexemes comments s) :=
  h.of_advances (.closeParen s) hpending hadvances

theorem closing (h : ReadsOn maxDepth reads) (hpending : AllAwait pending) (done : List Value)
    (v : Value) : ∃ w, reads (complete done pending v) (lexemes comments (closing pending)) =
      reads ⟨w :: done, []⟩ [] := by
  induction pending generalizing v with
  | nil => exact ⟨v, rfl⟩
  | cons form pending ih =>
    cases form with
    | quoted => exact ih hpending.of_cons (Reader.quoted v)
    | list elements =>
      obtain ⟨w, hw⟩ := ih hpending.of_cons (.ofList (v :: elements).reverse)
      exact ⟨w, (h.of_closeParen (List.cons_ne_nil _ _) .closeList _).trans hw⟩
    | dotted elements =>
      obtain ⟨w, hw⟩ := ih hpending.of_cons (.ofListTail elements.reverse v)
      exact ⟨w, (h.of_closeParen (List.cons_ne_nil _ _) .closeEnding _).trans hw⟩
    | ending elements tail => exact (hpending elements tail List.mem_cons_self).elim

/-- Where a datum is missing, `()` is one. -/
theorem emptyList (h : ReadsOn maxDepth reads) (hp : WellNested maxDepth p)
    (hawaits : Awaits p.pending) (hpending : p.pending ≠ [])
    (hlist : ∀ pending, p.pending ≠ .list [] :: pending) :
    ∃ w, reads p (lexemes comments ('(' :: ')' :: Reader.closing p.pending)) =
      reads ⟨w :: p.done, []⟩ [] := by
  have hdepth : p.pending.length < maxDepth := by
    refine Nat.lt_of_le_of_ne hp.depth_le fun heq => ?_
    rcases hp.atLimit heq with hnil | ⟨pending, hnil⟩
    · exact hpending hnil
    · exact hlist pending hnil
  have hopen : reads p (lexemes comments ('(' :: ')' :: Reader.closing p.pending)) =
      reads ⟨p.done, .list [] :: p.pending⟩ (lexemes comments (')' :: Reader.closing p.pending)) :=
    h.of_advances (.openParen _) hpending (.openParen hawaits hdepth)
  have hclose : reads ⟨p.done, .list [] :: p.pending⟩
        (lexemes comments (')' :: Reader.closing p.pending)) =
      reads (complete p.done p.pending (.ofList []))
        (lexemes comments (Reader.closing p.pending)) :=
    h.of_closeParen (List.cons_ne_nil _ _) .closeList _
  obtain ⟨w, hw⟩ := h.closing (allAwait_of_awaits hawaits hp.allAwait) p.done (.ofList [])
  exact ⟨w, (hopen.trans hclose).trans hw⟩

/-- Whatever forms are open, their completion leaves none open. -/
theorem completion (h : ReadsOn maxDepth reads) (hp : WellNested maxDepth p)
    (hpending : p.pending ≠ []) (comments : Bool) :
    ∃ w, reads p (lexemes comments (completion p.pending)) = reads ⟨w :: p.done, []⟩ [] := by
  obtain ⟨done, pending⟩ := p
  match pending, hpending with
  | .list elements :: pending, hpending =>
    obtain ⟨w, hw⟩ := h.closing hp.allAwait done (.ofList elements.reverse)
    exact ⟨w, (h.of_closeParen hpending .closeList _).trans hw⟩
  | .ending elements tail :: pending, hpending =>
    obtain ⟨w, hw⟩ := h.closing hp.allAwait done (.ofListTail elements.reverse tail)
    exact ⟨w, (h.of_closeParen hpending .closeEnding _).trans hw⟩
  | .dotted elements :: pending, hpending =>
    exact h.emptyList hp (.dotted elements pending) hpending nofun
  | .quoted :: pending, hpending => exact h.emptyList hp (.quoted pending) hpending nofun

end ReadsOn

/-! ## Kinds of faults -/

/-- A lexeme cannot show that text is missing. -/
theorem kind_of_read {text : List Char} {fault : Fault} (h : p.read config text = .error fault) :
    fault.cause.kind = .invalidSyntax ∨ fault.cause.kind = .tooDeeplyNested := by
  unfold Progress.read at h
  generalize lexemes config.comments text = ls at h
  induction ls generalizing p with
  | nil => cases h
  | cons l ls ih =>
    rw [List.foldlM_cons] at h
    cases hl : p.step config.maxDepth l with
    | error fault' =>
      rw [hl] at h
      cases h
      exact (faultAt_of_step hl).kind
    | ok p' =>
      rw [hl] at h
      exact ih h

/-! ## Incomplete texts -/

/-- One datum is read of an incomplete text as all data are: to its end, where a form is open. On a
new line, reading goes on from there. -/
theorem read_of_readOne_incomplete {text : List Char} {fault : Fault}
    (h : readOne config.maxDepth p (lexemes config.comments text) = .error fault)
    (hkind : fault.cause.kind = .incomplete) :
    ∃ p', p.read config text = .ok p' ∧ p'.pending ≠ [] ∧
      ∀ t, readOne config.maxDepth p (lexemes config.comments (text ++ '\n' :: t)) =
        readOne config.maxDepth p' (lexemes config.comments t) := by
  unfold Progress.read
  simp only [lexemes_append_newline]
  generalize lexemes config.comments text = ls at h
  induction ls generalizing p with
  | nil =>
    refine ⟨p, rfl, ?_, fun t => rfl⟩
    intro hpending
    have hok : readOne config.maxDepth p [] = .ok p.done.reverse := by
      simp only [readOne, finish, hpending]
    rw [hok] at h
    cases h
  | cons l ls ih =>
    cases hsingle : p.isSingle with
    | true =>
      rw [readOne_of_isSingle hsingle] at h
      cases h
      cases hkind
    | false =>
      rw [readOne_cons hsingle] at h
      cases hl : p.step config.maxDepth l with
      | error fault' =>
        rw [hl] at h
        cases h
        rcases (faultAt_of_step hl).kind with hstep | hstep <;> rw [hstep] at hkind <;> cases hkind
      | ok p₁ =>
        rw [hl] at h
        obtain ⟨p', hp', hpending, hmore⟩ := ih h
        refine ⟨p', ?_, hpending, fun t => ?_⟩
        · rw [List.foldlM_cons, hl]
          exact hp'
        · rw [List.map_cons, List.cons_append, readOne_cons hsingle, step_extend, hl]
          exact hmore t

theorem toList_line_append (line t : String) :
    (line ++ "\n" ++ t).toList = line.toList ++ '\n' :: t.toList := by
  rw [String.toList_append, String.toList_append, List.append_assoc]
  rfl

theorem Config.parse_of_readOne {text : String} {v : Value} {vs : List Value}
    (h : readOne config.maxDepth {} (lexemes config.comments text.toList) = .ok (v :: vs)) :
    config.parse text = .ok v := by
  unfold Config.parse
  dsimp only
  rw [h]

theorem parse_completion {text : String} {e : ReadError} (h : config.parse text = .error e)
    (hkind : e.kind = .incomplete) : ∃ t v, config.parse (text ++ "\n" ++ t) = .ok v := by
  unfold Config.parse at h
  dsimp only at h
  split at h
  · cases h
    cases hkind
  · cases h
  · rename_i fault hfault
    cases h
    obtain ⟨p, hread, hpending, hmore⟩ := read_of_readOne_incomplete hfault hkind
    have hnested : WellNested config.maxDepth p := (wellNested_start _).read hread
    obtain ⟨w, hw⟩ := (readsOn_readOne config.maxDepth).completion hnested hpending config.comments
    have hok : readOne config.maxDepth ⟨w :: p.done, []⟩ [] = .ok (w :: p.done).reverse :=
      finish_of_complete rfl
    cases hvs : (w :: p.done).reverse with
    | nil => exact absurd hvs (by simp)
    | cons v vs =>
      refine ⟨String.ofList (completion p.pending), v, @Config.parse_of_readOne _ _ v vs ?_⟩
      rw [toList_line_append, String.toList_ofList, hmore, hw, hok, hvs]

/-- Whatever forms are open at the end of a line, more text completes them. -/
theorem parseAll_completion {text : String}
    (hread : ({} : Progress).read config text.toList = .ok p) (hpending : p.pending ≠ []) :
    ∃ t vs, config.parseAll (text ++ "\n" ++ t) = .ok vs := by
  have hnested : WellNested config.maxDepth p := (wellNested_start _).read hread
  obtain ⟨w, hw⟩ := (readsOn_readAll config.maxDepth).completion hnested hpending config.comments
  have hok : finish config.maxDepth ⟨w :: p.done, []⟩ = .ok (w :: p.done).reverse :=
    finish_of_complete rfl
  have hmore : p.read config (completion p.pending) >>= finish config.maxDepth =
      .ok (w :: p.done).reverse := hw.trans hok
  refine ⟨String.ofList (completion p.pending), (w :: p.done).reverse, ?_⟩
  rw [Config.parseAll_eq_read, toList_line_append, String.toList_ofList,
    read_append_newline_of_ok hread, hmore]
  rfl

/-- Text that is refused as incomplete is only incomplete: more text makes it one that is accepted,
be it read for one datum or for all. -/
theorem incomplete_text_can_be_completed (config : Config) (text : String) :
    (∀ e, config.parse text = .error e → e.kind = .incomplete →
      ∃ t v, config.parse (text ++ t) = .ok v) ∧
    (∀ e, config.parseAll text = .error e → e.kind = .incomplete →
      ∃ t vs, config.parseAll (text ++ t) = .ok vs) := by
  constructor
  · intro e h hkind
    obtain ⟨t, v, ht⟩ := parse_completion h hkind
    exact ⟨"\n" ++ t, v, by rwa [← String.append_assoc]⟩
  · intro e h hkind
    rcases Config.read_of_parseAll_error h with ⟨fault, hread, rfl⟩ | ⟨p, hread, hpending, _⟩
    · rcases kind_of_read hread with hfault | hfault
      · exact absurd (hfault.symm.trans hkind) nofun
      · exact absurd (hfault.symm.trans hkind) nofun
    · obtain ⟨t, vs, ht⟩ := parseAll_completion hread hpending
      exact ⟨"\n" ++ t, vs, by rwa [← String.append_assoc]⟩

/-- A tail is missing behind a comment, one level above the greatest depth. -/
theorem commented_tail_can_be_completed :
    (∃ t v, ({ maxDepth := 4 } : Config).parse ("('(a . ;b" ++ t) = .ok v) ∧
      ∃ t vs, ({ maxDepth := 4 } : Config).parseAll ("('(a . ;b" ++ t) = .ok vs := by
  have h := incomplete_text_can_be_completed { maxDepth := 4 } "('(a . ;b"
  constructor
  · refine h.1 ⟨.incomplete, "Unexpected end of input", some "('(a . ;b"⟩ ?_ rfl
    decide +kernel
  · refine h.2 ⟨.incomplete, "Unexpected end of input", some "('(a . ;b"⟩ ?_ rfl
    decide +kernel

end DynLisp.Reader
