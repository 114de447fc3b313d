import DynLisp.Proofs.Reading.Acceptance
import DynLisp.Proofs.Reading.LineEnds

/-!
# The forms that are open while text is read

What a lexeme does to the progress of the reader, said once (`Progress.Advances`,
`Progress.step_eq_ok_iff`, and `Progress.faultAt_of_step` where it may not stand), and what follows
for a whole run:

* `WellNested.read`: only the innermost open form can be one that takes no further datum, and at the
  greatest depth only a list that was just opened can be open;
* `Progress.read_mono`: a higher limit reads as much, and in the same way;
* `Progress.read_after`: data that are complete have no influence on what is read after them;
* `Config.exists_read_of_parseAll`, `Config.read_of_parseAll_error`: what the answer to a whole text
  tells about the forms that are open at its end.
-/

namespace DynLisp.Reader.Progress

variable {config : Config} {maxDepth : Nat} {p p' : Progress} {pending : List Pending}

/-- What a lexeme may do, by its token. -/
inductive Advances (maxDepth : Nat) : Progress → Token → Progress → Prop where
  | openParen {done pending} : Awaits pending → pending.length < maxDepth →
      Advances maxDepth ⟨done, pending⟩ .openParen ⟨done, .list [] :: pending⟩
  | quoteMark {done pending} : Awaits pending → pending.length + 1 < maxDepth →
      Advances maxDepth ⟨done, pending⟩ .quoteMark ⟨done, .quoted :: pending⟩
  | atom {done pending text v} : Awaits pending → pending.length < maxDepth →
      readAtom text = .ok v →
        Advances maxDepth ⟨done, pending⟩ (.atom text) (complete done pending v)
  | dot {done pending elements} : elements ≠ [] →
      Advances maxDepth ⟨done, .list elements :: pending⟩ (.atom ['.'])
        ⟨done, .dotted elements :: pending⟩
  | closeList {done pending elements} :
      Advances maxDepth ⟨done, .list elements :: pending⟩ .closeParen
        (complete done pending (.ofList elements.reverse))
  | closeEnding {done pending elements tail} :
      Advances maxDepth ⟨done, .ending elements tail :: pending⟩ .closeParen
        (complete done pending (.ofListTail elements.reverse tail))

theorem advances_of_datum {done : List Value} {l : Lexeme} (hawaits : Awaits pending)
    (h : datum maxDepth ⟨done, pending⟩ l = .ok p') :
    Advances maxDepth ⟨done, pending⟩ l.token p' := by
  by_cases hdepth : pending.length < maxDepth
  · obtain ⟨token, start, stop⟩ := l
    rw [datum_eq hdepth] at h
    cases token with
    | openParen =>
      cases h
      exact .openParen hawaits hdepth
    | quoteMark =>
      dsimp only at h
      split at h
      · cases h
      · cases h
        exact .quoteMark hawaits (by omega)
    | atom text =>
      dsimp only at h
      cases hread : readAtom text with
      | error cause =>
        rw [hread] at h
        cases h
      | ok v =>
        rw [hread] at h
        cases h
        exact .atom hawaits hdepth hread
    | closeParen => cases h
    | stray => cases h
  · have hdeep : datum maxDepth ⟨done, pending⟩ l = .error ⟨.tooDeep maxDepth, l.start⟩ :=
      if_pos (Nat.le_of_not_lt hdepth)
    rw [hdeep] at h
    cases h

theorem advances_of_step {l : Lexeme} (h : p.step maxDepth l = .ok p') :
    Advances maxDepth p l.token p' := by
  obtain ⟨done, pending⟩ := p
  unfold step at h
  split at h
  · rename_i elements pending' hpending
    obtain rfl : pending = _ := hpending
    split at h
    · rename_i htoken
      cases h
      rw [htoken]
      exact .closeList
    · rename_i htoken
      split at h
      · cases h
      · rename_i hne
        cases h
        rw [htoken]
        exact .dot fun hnil => hne (List.isEmpty_iff.2 hnil)
    · exact advances_of_datum (.list elements pending') h
  · rename_i elements tail pending' hpending
    obtain rfl : pending = _ := hpending
    split at h
    · rename_i htoken
      cases h
      rw [htoken]
      exact .closeEnding
    · cases h
  · rename_i hawaits
    exact advances_of_datum (fun elements tail more => hawaits elements tail more) h

theorem step_of_advances {l : Lexeme} (h : Advances maxDepth p l.token p') :
    p.step maxDepth l = .ok p' := by
  obtain ⟨token, start, stop⟩ := l
  cases h with
  | openParen hawaits hdepth =>
    rw [step_datum hawaits, datum_eq hdepth]
    all_goals nofun
  | quoteMark hawaits hdepth =>
    rw [step_datum hawaits, datum_quoteMark (Nat.lt_of_succ_lt hdepth) hdepth]
    all_goals nofun
  | atom hawaits hdepth hread =>
    have hatom := readAtom_eq_ok_iff.1 hread
    rw [step_datum hawaits, datum_atom hdepth hatom]
    · nofun
    · exact fun hdot => hatom.ne_dot (Token.atom.inj hdot)
  | dot hne => exact if_neg fun hempty => hne (List.isEmpty_iff.1 hempty)
  | closeList => rfl
  | closeEnding => rfl

/-- A step succeeds exactly where the token of the lexeme may stand. -/
theorem step_eq_ok_iff {l : Lexeme} :
    p.step maxDepth l = .ok p' ↔ Advances maxDepth p l.token p' :=
  ⟨advances_of_step, step_of_advances⟩

/-- What is told of a lexeme that may not stand where it stands. It is noticed where the lexeme begins
or stops, and it is never that text is missing. -/
structure FaultAt (l : Lexeme) (fault : Fault) : Prop where
  rest : fault.rest = l.start ∨ fault.rest = l.stop
  kind : fault.cause.kind = .invalidSyntax ∨ fault.cause.kind = .tooDeeplyNested

theorem kind_of_readAtom {text : List Char} {cause : Cause} (h : readAtom text = .error cause) :
    cause.kind = .invalidSyntax := by
  unfold readAtom at h
  split at h
  · unfold Numeral.toValue at h
    split at h
    · split at h
      · cases h
      · cases h
        rfl
    · cases h
  · split at h
    · cases h
      rfl
    · split at h
      · cases h
        rfl
      · cases h

theorem faultAt_of_datum {l : Lexeme} {fault : Fault} (h : p.datum maxDepth l = .error fault) :
    FaultAt l fault := by
  unfold datum at h
  split at h
  · cases h
    exact ⟨.inl rfl, .inr rfl⟩
  · split at h
    · cases h
    · cases h
      exact ⟨.inl rfl, .inl rfl⟩
    · split at h
      · cases h
        exact ⟨.inr rfl, .inr rfl⟩
      · cases h
    · cases h
      exact ⟨.inl rfl, .inl rfl⟩
    · split at h
      · cases h
      · rename_i cause hcause
        cases h
        exact ⟨.inl rfl, .inl (kind_of_readAtom hcause)⟩

/-- A step fails at its lexeme. -/
theorem faultAt_of_step {l : Lexeme} {fault : Fault} (h : p.step maxDepth l = .error fault) :
    FaultAt l fault := by
  unfold step at h
  split at h
  · split at h
    · cases h
    · split at h
      · cases h
        exact ⟨.inl rfl, .inl rfl⟩
      · cases h
    · exact faultAt_of_datum h
  · split at h
    · cases h
    · cases h
      exact ⟨.inl rfl, .inl rfl⟩
  · exact faultAt_of_datum h

/-- What all steps keep, a run keeps. -/
theorem foldlM_induction {P : Progress → Prop}
    (hstep : ∀ {p token p'}, Advances maxDepth p token p' → P p → P p') {ls : List Lexeme}
    (h : ls.foldlM (step maxDepth) p = .ok p') (hp : P p) : P p' := by
  induction ls generalizing p with
  | nil =>
    cases h
    exact hp
  | cons l ls ih =>
    obtain ⟨p₁, hl, hls⟩ := exists_of_foldlM_cons_eq_ok h
    exact ih hls (hstep (step_eq_ok_iff.1 hl) hp)

theorem read_induction {P : Progress → Prop}
    (hstep : ∀ {p token p'}, Advances config.maxDepth p token p' → P p → P p') {text : List Char}
    (h : p.read config text = .ok p') (hp : P p) : P p' :=
  foldlM_induction hstep h hp

/-! ## Nesting -/

/-- None of the forms has all its elements and its tail. -/
def AllAwait (pending : List Pending) : Prop :=
  ∀ elements tail, .ending elements tail ∉ pending

theorem AllAwait.of_cons {form : Pending} (h : AllAwait (form :: pending)) : AllAwait pending :=
  fun elements tail hmem => h elements tail (List.mem_cons_of_mem _ hmem)

theorem AllAwait.cons {form : Pending} (hform : ∀ elements tail, .ending elements tail ≠ form)
    (h : AllAwait pending) : AllAwait (form :: pending) := by
  intro elements tail hmem
  rcases List.mem_cons.1 hmem with heq | hmem
  · exact hform elements tail heq
  · exact h elements tail hmem

theorem allAwait_of_awaits (h : Awaits pending) (htail : AllAwait pending.tail) :
    AllAwait pending := by
  cases pending with
  | nil => exact fun _ _ => List.not_mem_nil
  | cons form pending =>
    exact .cons (fun elements tail heq => h elements tail pending (heq ▸ rfl)) htail

/-- A complete datum completes some of the innermost forms. -/
theorem depth_complete_le (done : List Value) (pending : List Pending) (v : Value) :
    (complete done pending v).depth ≤ pending.length := by
  induction pending generalizing v with
  | nil => exact Nat.le_refl 0
  | cons form pending ih =>
    cases form with
    | quoted => exact Nat.le_succ_of_le (ih (Reader.quoted v))
    | _ => exact Nat.le_refl _

theorem AllAwait.tail_complete (h : AllAwait pending) (done : List Value) (v : Value) :
    AllAwait (complete done pending v).pending.tail := by
  induction pending generalizing v with
  | nil => exact h
  | cons form pending ih =>
    cases form with
    | quoted => exact ih h.of_cons (Reader.quoted v)
    | _ => exact h.of_cons

/-- Only the innermost form may be without need of a datum, and forms are not nested too deeply. -/
structure WellNested (maxDepth : Nat) (p : Progress) : Prop where
  allAwait : AllAwait p.pending.tail
  depth_le : p.depth ≤ maxDepth
  /-- At the greatest depth nothing was read yet in the innermost form. -/
  atLimit : p.depth = maxDepth → p.pending = [] ∨ ∃ pending, p.pending = .list [] :: pending

theorem wellNested_start (maxDepth : Nat) : WellNested maxDepth {} where
  allAwait _ _ := List.not_mem_nil
  depth_le := Nat.zero_le _
  atLimit _ := .inl rfl

theorem WellNested.of_lt (h : AllAwait p.pending.tail) (hdepth : p.depth < maxDepth) :
    WellNested maxDepth p where
  allAwait := h
  depth_le := Nat.le_of_lt hdepth
  atLimit heq := absurd heq (Nat.ne_of_lt hdepth)

theorem wellNested_complete (h : AllAwait pending) (hdepth : pending.length < maxDepth)
    (done : List Value) (v : Value) : WellNested maxDepth (complete done pending v) :=
  .of_lt (h.tail_complete done v) (Nat.lt_of_le_of_lt (depth_complete_le done pending v) hdepth)

theorem WellNested.advances {token : Token} (h : Advances maxDepth p token p')
    (hp : WellNested maxDepth p) : WellNested maxDepth p' := by
  obtain ⟨hallAwait, hdepth, hlimit⟩ := hp
  cases h with
  | openParen hawaits hlt =>
    exact ⟨allAwait_of_awaits hawaits hallAwait, hlt, fun _ => .inr ⟨_, rfl⟩⟩
  | quoteMark hawaits hlt => exact .of_lt (allAwait_of_awaits hawaits hallAwait) hlt
  | atom hawaits hlt => exact wellNested_complete (allAwait_of_awaits hawaits hallAwait) hlt _ _
  | @dot done pending elements hne =>
    refine .of_lt hallAwait (Nat.lt_of_le_of_ne hdepth fun heq => ?_)
    -- A list with elements is not at the greatest depth.
    rcases hlimit heq with hnil | ⟨_, hnil⟩
    · cases hnil
    · exact hne (Pending.list.inj (List.cons.inj hnil).1)
  | closeList => exact wellNested_complete hallAwait hdepth _ _
  | closeEnding => exact wellNested_complete hallAwait hdepth _ _

theorem WellNested.read {text : List Char} (hp : WellNested config.maxDepth p)
    (h : p.read config text = .ok p') : WellNested config.maxDepth p' :=
  read_induction WellNested.advances h hp

/-! ## Limits -/

theorem Advances.mono {maxDepth' : Nat} {token : Token} (h : Advances maxDepth p token p')
    (hle : maxDepth ≤ maxDepth') : Advances maxDepth' p token p' := by
  cases h with
  | openParen hawaits hdepth => exact .openParen hawaits (Nat.lt_of_lt_of_le hdepth hle)
  | quoteMark hawaits hdepth => exact .quoteMark hawaits (Nat.lt_of_lt_of_le hdepth hle)
  | atom hawaits hdepth hread => exact .atom hawaits (Nat.lt_of_lt_of_le hdepth hle) hread
  | dot hne => exact .dot hne
  | closeList => exact .closeList
  | closeEnding => exact .closeEnding

/-- With a higher limit, text is read as with a lower one. -/
theorem read_mono {config' : Config} (hcomments : config.comments = config'.comments)
    (hle : config.maxDepth ≤ config'.maxDepth) {text : List Char}
    (h : p.read config text = .ok p') : p.read config' text = .ok p' := by
  unfold read at h ⊢
  rw [← hcomments]
  generalize lexemes config.comments text = ls at h
  induction ls generalizing p with
  | nil => exact h
  | cons l ls ih =>
    obtain ⟨p₁, hl, hls⟩ := exists_of_foldlM_cons_eq_ok h
    rw [List.foldlM_cons, step_of_advances ((advances_of_step hl).mono hle)]
    exact ih hls

/-! ## Data that are complete -/

/-- The progress after further data that were complete before. -/
def after (done : List Value) (p : Progress) : Progress :=
  { p with done := p.done ++ done }

theorem complete_append (done done' : List Value) (pending : List Pending) (v : Value) :
    complete (done ++ done') pending v = (complete done pending v).after done' := by
  induction pending generalizing v with
  | nil => rfl
  | cons form pending ih =>
    cases form with
    | quoted => exact ih (Reader.quoted v)
    | _ => rfl

theorem datum_after (p : Progress) (done : List Value) (l : Lexeme) :
    (p.after done).datum maxDepth l = (p.datum maxDepth l).map (after done) := by
  by_cases hdepth : p.pending.length < maxDepth
  · obtain ⟨done', pending⟩ := p
    obtain ⟨token, start, stop⟩ := l
    dsimp only [after]
    rw [datum_eq hdepth, datum_eq hdepth]
    cases token with
    | quoteMark => dsimp only; split <;> rfl
    | atom text =>
      dsimp only
      cases readAtom text with
      | error cause => rfl
      | ok v => exact congrArg Except.ok (complete_append done' done pending v)
    | _ => rfl
  · have hdeep : ∀ done, datum maxDepth ⟨done, p.pending⟩ l = .error ⟨.tooDeep maxDepth, l.start⟩ :=
      fun done => if_pos (Nat.le_of_not_lt hdepth)
    exact (hdeep _).trans (congrArg (Except.map (after done)) (hdeep p.done).symm)

/-- A step does not look at the data that are complete. -/
theorem step_after (p : Progress) (done : List Value) (l : Lexeme) :
    (p.after done).step maxDepth l = (p.step maxDepth l).map (after done) := by
  have hdatum := @datum_after maxDepth p done l
  obtain ⟨done', pending⟩ := p
  unfold step
  dsimp only [after] at hdatum ⊢
  split
  · split
    · exact congrArg Except.ok (complete_append _ _ _ _)
    · split <;> rfl
    · exact hdatum
  · split
    · exact congrArg Except.ok (complete_append _ _ _ _)
    · rfl
  · exact hdatum

/-- Nor does a run. -/
theorem read_after (p : Progress) (done : List Value) (text : List Char) :
    (p.after done).read config text = (p.read config text).map (after done) := by
  unfold read
  induction lexemes config.comments text generalizing p with
  | nil => rfl
  | cons l ls ih =>
    rw [List.foldlM_cons, List.foldlM_cons, step_after]
    cases p.step config.maxDepth l with
    | error fault => rfl
    | ok p' => exact ih p'

/-- Where no form is open, reading goes on as if a new text began. -/
theorem read_of_complete {q : Progress} {text : List Char} (hpending : p.pending = [])
    (h : p.read config text = .ok q) :
    ∃ q', ({} : Progress).read config text = .ok q' ∧ q = q'.after p.done := by
  obtain ⟨done, pending⟩ := p
  obtain rfl : pending = [] := hpending
  have hafter : (⟨done, []⟩ : Progress) = ({} : Progress).after done := rfl
  rw [hafter, read_after] at h
  cases hq : ({} : Progress).read config text with
  | error fault =>
    rw [hq] at h
    cases h
  | ok q' =>
    rw [hq] at h
    cases h
    exact ⟨q', rfl, rfl⟩

theorem finish_of_complete (h : p.pending = []) : p.finish maxDepth = .ok p.done.reverse := by
  simp only [finish, h]

/-- Where a form is open, a text may not end; what is told depends on the depth alone. -/
theorem finish_of_pending (h : p.pending ≠ []) : p.finish maxDepth =
    .error ⟨if maxDepth ≤ p.depth then .tooDeep maxDepth else .unexpectedEnd, []⟩ := by
  unfold finish
  split
  · exact (h ‹_›).elim
  · split <;> rfl

end DynLisp.Reader.Progress

namespace DynLisp.Reader

open Progress

/-! ## Whole texts -/

variable {config : Config} {p : Progress} {text : String}

namespace Config

theorem parseAll_of_complete (hread : ({} : Progress).read config text.toList = .ok p)
    (hpending : p.pending = []) : config.parseAll text = .ok p.done.reverse := by
  rw [parseAll_eq_read, hread]
  exact congrArg (Except.mapError _) (finish_of_complete hpending)

theorem parseAll_of_pending (hread : ({} : Progress).read config text.toList = .ok p)
    (hpending : p.pending ≠ []) : ∃ e, config.parseAll text = .error e ∧
      e.kind = if config.maxDepth ≤ p.depth then .tooDeeplyNested else .incomplete := by
  rw [parseAll_eq_read, hread]
  refine ⟨_, congrArg (Except.mapError _) (finish_of_pending hpending), ?_⟩
  split <;> rfl

theorem parseAll_of_fault {fault : Fault}
    (hread : ({} : Progress).read config text.toList = .error fault) :
    config.parseAll text = .error (fault.toError text.toList) := by
  rw [parseAll_eq_read, hread]
  rfl

/-- A text is read if no form is open at its end. -/
theorem exists_read_of_parseAll {es : List Value} (h : config.parseAll text = .ok es) :
    ∃ p, ({} : Progress).read config text.toList = .ok p ∧ p.pending = [] ∧
      p.done.reverse = es := by
  cases hread : ({} : Progress).read config text.toList with
  | error fault =>
    rw [parseAll_of_fault hread] at h
    cases h
  | ok p =>
    by_cases hpending : p.pending = []
    · rw [parseAll_of_complete hread hpending] at h
      exact ⟨p, rfl, hpending, Except.ok.inj h⟩
    · obtain ⟨e, he, -⟩ := parseAll_of_pending hread hpending
      rw [he] at h
      cases h

/-- A text is refused at a lexeme, or at its end for the forms that are open there. -/
theorem read_of_parseAll_error {e : ReadError} (h : config.parseAll text = .error e) :
    (∃ fault, ({} : Progress).read config text.toList = .error fault ∧
      e = fault.toError text.toList) ∨
    ∃ p, ({} : Progress).read config text.toList = .ok p ∧ p.pending ≠ [] ∧
      e.kind = if config.maxDepth ≤ p.depth then .tooDeeplyNested else .incomplete := by
  cases hread : ({} : Progress).read config text.toList with
  | error fault =>
    rw [parseAll_of_fault hread] at h
    exact .inl ⟨fault, rfl, (Except.error.inj h).symm⟩
  | ok p =>
    by_cases hpending : p.pending = []
    · rw [parseAll_of_complete hread hpending] at h
      cases h
    · obtain ⟨e', he', hkind⟩ := parseAll_of_pending hread hpending
      rw [he'] at h
      cases h
      exact .inr ⟨p, rfl, hpending, hkind⟩

end Config

end DynLisp.Reader
