import DynLisp.Proofs.Reading.Lexemes
import DynLisp.Proofs.Reading.Literals

/-!
# What the reader accepts

The reader accepts exactly the texts of the grammar, each with the one value that the grammar gives
it (`parse_eq_ok_iff_derives`). In one direction a derivation is followed by the reader from its
first lexeme to its last (`readOne_of_datum`). In the other direction, all that the reader has read
at any time is the beginning of a derivation (`Reads`): each lexeme keeps this (`Reads.step`), and
so does every run (`Reads.readOne`).
-/

namespace DynLisp.Reader

open Progress

variable {config : Config}

/-- The next lexeme may begin a datum: no list has its tail already. -/
def Awaits (pending : List Pending) : Prop :=
  ∀ elements tail more, pending ≠ .ending elements tail :: more

theorem Datum.depth_lt {depth : Nat} {s t : List Char} {v : Value} (h : Datum config depth s t v) :
    depth < config.maxDepth := by
  cases h with
  | atom hdepth => exact hdepth
  | quote hdepth => exact hdepth
  | list hdepth => exact hdepth
  | dotted hdepth => exact hdepth

/-! ## Following a derivation -/

section Following

variable {pending : List Pending}

theorem step_datum {done : List Value} (h : Awaits pending) {l : Lexeme}
    (hclose : l.token ≠ .closeParen) (hdot : l.token ≠ .atom ['.']) (maxDepth : Nat) :
    step maxDepth ⟨done, pending⟩ l = datum maxDepth ⟨done, pending⟩ l := by
  unfold step
  split
  · split
    · exact (hclose ‹_›).elim
    · exact (hdot ‹_›).elim
    · rfl
  · rename_i heq
    exact (h _ _ _ heq).elim
  · rfl

theorem isSingle_nil (pending : List Pending) : Progress.isSingle ⟨[], pending⟩ = false := by
  cases pending <;> rfl

/-- As long as no datum is complete, lexemes are read one by one. -/
theorem readOne_cons {p : Progress} (h : p.isSingle = false) (maxDepth : Nat) (l : Lexeme)
    (ls : List Lexeme) :
    readOne maxDepth p (l :: ls) = p.step maxDepth l >>= fun p => readOne maxDepth p ls :=
  if_neg (Bool.eq_false_iff.1 h)

/-- Behind the datum nothing is read. -/
theorem readOne_of_isSingle {p : Progress} (h : p.isSingle = true) (maxDepth : Nat) (l : Lexeme)
    (ls : List Lexeme) :
    readOne maxDepth p (l :: ls) = .error ⟨.trailing, l.start⟩ :=
  if_pos h

theorem readAll_cons (p : Progress) (maxDepth : Nat) (l : Lexeme) (ls : List Lexeme) :
    readAll maxDepth p (l :: ls) = p.step maxDepth l >>= fun p => readAll maxDepth p ls := by
  unfold readAll
  rw [List.foldlM_cons, bind_assoc]

/-- After a lexeme that begins a datum. -/
theorem readOne_of_datum_step {l : Lexeme} {p : Progress} (hl : Spelled config.comments l)
    (h : Awaits pending) (hclose : l.token ≠ .closeParen) (hdot : l.token ≠ .atom ['.'])
    (hdatum : datum config.maxDepth ⟨[], pending⟩ l = .ok p) :
    readOne config.maxDepth ⟨[], pending⟩ (lexemes config.comments l.start) =
      readOne config.maxDepth p (lexemes config.comments l.stop) := by
  rw [lexemes_of_spelled hl, readOne_cons (isSingle_nil _), step_datum h hclose hdot, hdatum]
  rfl

section Datum

variable {maxDepth : Nat} (hdepth : pending.length < maxDepth)

include hdepth

theorem datum_eq (done : List Value) (l : Lexeme) :
    datum maxDepth ⟨done, pending⟩ l = match l.token with
      | .openParen => .ok ⟨done, .list [] :: pending⟩
      | .closeParen => .error ⟨.unexpected, l.start⟩
      | .quoteMark =>
        if maxDepth ≤ pending.length + 1 then .error ⟨.tooDeep maxDepth, l.stop⟩
        else .ok ⟨done, .quoted :: pending⟩
      | .stray => .error ⟨.invalid, l.start⟩
      | .atom text =>
        match readAtom text with
        | .ok v => .ok (complete done pending v)
        | .error cause => .error ⟨cause, l.start⟩ :=
  if_neg (Nat.not_le.2 hdepth)

theorem datum_quoteMark (hdepth' : pending.length + 1 < maxDepth) (done : List Value)
    (s t : List Char) :
    datum maxDepth ⟨done, pending⟩ ⟨.quoteMark, s, t⟩ = .ok ⟨done, .quoted :: pending⟩ := by
  rw [datum_eq hdepth]
  exact if_neg (Nat.not_le.2 hdepth')

theorem datum_atom {text : List Char} {v : Value} (h : Atom text v) (done : List Value)
    (s t : List Char) :
    datum maxDepth ⟨done, pending⟩ ⟨.atom text, s, t⟩ = .ok (complete done pending v) := by
  rw [datum_eq hdepth]
  dsimp only
  rw [readAtom_eq_ok_iff.2 h]

end Datum

end Following

theorem Awaits.nil : Awaits [] :=
  fun _ _ _ h => nomatch h

theorem Awaits.list (elements : List Value) (pending : List Pending) :
    Awaits (.list elements :: pending) :=
  fun _ _ _ h => nomatch h

theorem Awaits.dotted (elements : List Value) (pending : List Pending) :
    Awaits (.dotted elements :: pending) :=
  fun _ _ _ h => nomatch h

theorem Awaits.quoted (pending : List Pending) : Awaits (.quoted :: pending) :=
  fun _ _ _ h => nomatch h

theorem Atom.ne_dot {text : List Char} {v : Value} (h : Atom text v) : text ≠ ['.'] := by
  cases h with
  | integer hinteger =>
    rintro rfl
    obtain ⟨n, hliteral, -⟩ := hinteger.exists_literal
    cases hliteral.looksNumeric
  | float hliteral =>
    rintro rfl
    cases hliteral.looksNumeric
  | symbol _ hdot => exact hdot

/-- A datum begins with a lexeme that ends no list and announces no tail. -/
theorem Datum.first {depth : Nat} {s t : List Char} {v : Value} (h : Datum config depth s t v) :
    ∃ l, l.start = s ∧ Spelled config.comments l ∧ l.token ≠ .closeParen ∧
      l.token ≠ .atom ['.'] := by
  cases h with
  | atom _ hne htext ht hatom =>
    exact ⟨_, rfl, .of_delimited hne htext ht, nofun,
      fun hdot => hatom.ne_dot (Token.atom.inj hdot)⟩
  | quote => exact ⟨_, rfl, .quoteMark _, nofun, nofun⟩
  | list => exact ⟨_, rfl, .openParen _, nofun, nofun⟩
  | dotted => exact ⟨_, rfl, .openParen _, nofun, nofun⟩

mutual

/-- Where a datum may begin, the reader reads all of it. -/
theorem readOne_of_datum {depth : Nat} {s t : List Char} {v : Value} {pending : List Pending} :
    Datum config depth s t v → Awaits pending → pending.length = depth →
      readOne config.maxDepth ⟨[], pending⟩ (lexemes config.comments s) =
        readOne config.maxDepth (complete [] pending v) (lexemes config.comments t)
  | .atom hdepth hne htext ht hatom, h, hlength =>
    readOne_of_datum_step (.of_delimited hne htext ht) h nofun
      (fun hdot => hatom.ne_dot (Token.atom.inj hdot)) (datum_atom (hlength ▸ hdepth) hatom _ _ _)
  | @Datum.quote _ _ s t u v hdepth hblank hdatum, h, hlength => by
    have hquote := readOne_of_datum_step (.quoteMark s) h nofun nofun
      (datum_quoteMark (hlength ▸ hdepth) (hlength ▸ hdatum.depth_lt) [] _ _)
    rw [lexemes_of_blank hblank,
      readOne_of_datum hdatum (.quoted pending) (congrArg (· + 1) hlength)] at hquote
    exact hquote
  | @Datum.list _ _ s t u vs hdepth hblank hitems, h, hlength => by
    have hopen := readOne_of_datum_step (.openParen s) h nofun nofun
      (datum_eq (hlength ▸ hdepth) [] _)
    rw [lexemes_of_blank hblank, readOne_of_items hitems (congrArg (· + 1) hlength),
      lexemes_of_spelled (.closeParen u), readOne_cons (isSingle_nil _)] at hopen
    rw [hopen]
    show readOne _ (complete [] pending (.ofList (vs.reverse ++ []).reverse)) _ = _
    rw [List.append_nil, List.reverse_reverse]
    rfl
  | @Datum.dotted _ _ s t u w x y vs v hdepth hblank hitems hne hends hblank' hdatum hclose, h,
      hlength => by
    have hopen := readOne_of_datum_step (.openParen s) h nofun nofun
      (datum_eq (hlength ▸ hdepth) [] _)
    have hdot : Spelled config.comments ⟨.atom ['.'], '.' :: u, u⟩ :=
      .atom (List.cons_ne_nil _ _) (List.forall_mem_singleton.2 (by decide)) (endsAtom_iff.2 hends)
    have hstep : step config.maxDepth ⟨[], .list (vs.reverse ++ []) :: pending⟩
        ⟨.atom ['.'], '.' :: u, u⟩ = .ok ⟨[], .dotted vs.reverse :: pending⟩ := by
      rw [List.append_nil]
      exact if_neg fun hempty => hne (List.reverse_eq_nil_iff.1 (List.isEmpty_iff.1 hempty))
    rw [lexemes_of_blank hblank, readOne_of_items hitems (congrArg (· + 1) hlength),
      lexemes_of_spelled hdot, readOne_cons (isSingle_nil _), hstep] at hopen
    rw [hopen]
    show readOne _ ⟨[], .dotted vs.reverse :: pending⟩ (lexemes _ u) = _
    rw [lexemes_of_blank hblank', readOne_of_datum hdatum (.dotted _ _) (congrArg (· + 1) hlength),
      lexemes_of_blank hclose, lexemes_of_spelled (.closeParen y)]
    show readOne _ ⟨[], .ending vs.reverse v :: pending⟩ (_ :: _) = _
    rw [readOne_cons (isSingle_nil _)]
    show readOne _ (complete [] pending (.ofListTail vs.reverse.reverse v)) _ = _
    rw [List.reverse_reverse]
    rfl

/-- In a list, the reader reads all data up to where they end. -/
theorem readOne_of_items {depth : Nat} {s t : List Char} {vs elements : List Value}
    {pending : List Pending} :
    Items config depth s t vs → pending.length + 1 = depth →
      readOne config.maxDepth ⟨[], .list elements :: pending⟩ (lexemes config.comments s) =
        readOne config.maxDepth ⟨[], .list (vs.reverse ++ elements) :: pending⟩
          (lexemes config.comments t)
  | .nil, _ => rfl
  | @Items.cons _ _ s t u w v vs hdatum hblank hitems, hlength => by
    rw [readOne_of_datum hdatum (.list elements pending) hlength, lexemes_of_blank hblank]
    show readOne _ ⟨[], .list (v :: elements) :: pending⟩ _ = _
    rw [readOne_of_items hitems hlength, List.reverse_cons, List.append_assoc]
    rfl

end

/-! ## What has been read -/

/-- The forms that are open after the beginning of a text, and what is left of the text. -/
inductive Opened (config : Config) (text : List Char) : List Pending → List Char → Prop where
  | start {s} : Blank config.comments text s → Opened config text [] s
  | list {pending s t u elements} : Opened config text pending ('(' :: s) → Awaits pending →
      pending.length < config.maxDepth → Blank config.comments s t →
        Items config (pending.length + 1) t u elements.reverse →
          Opened config text (.list elements :: pending) u
  | dotted {pending s t elements} : Opened config text (.list elements :: pending) ('.' :: s) →
      elements ≠ [] → Delimited s → Blank config.comments s t →
        Opened config text (.dotted elements :: pending) t
  | ending {pending s t u elements tail} : Opened config text (.dotted elements :: pending) s →
      Datum config (pending.length + 1) s t tail → Blank config.comments t u →
        Opened config text (.ending elements tail :: pending) u
  | quoted {pending s t} : Opened config text pending ('\x27' :: s) → Awaits pending →
      pending.length < config.maxDepth → Blank config.comments s t →
        Opened config text (.quoted :: pending) t

/-- What the reader has made of the beginning of a text: it is in the middle of a derivation, or it
has come to the end of one. -/
inductive Reads (config : Config) (text : List Char) : Progress → List Char → Prop where
  | opened {pending s} : Opened config text pending s → Reads config text ⟨[], pending⟩ s
  | single {s t u v} : Blank config.comments text s → Datum config 0 s t v →
      Blank config.comments t u → Reads config text ⟨[v], []⟩ u

theorem Items.append {depth : Nat} {s t u w : List Char} {vs : List Value} {v : Value} :
    Items config depth s t vs → Datum config depth t u v → Blank config.comments u w →
      Items config depth s w (vs ++ [v])
  | .nil, hdatum, hblank => .cons hdatum hblank .nil
  | .cons hfirst hblank' hitems, hdatum, hblank =>
    .cons hfirst hblank' (hitems.append hdatum hblank)

theorem Items.blank {depth : Nat} {s t u : List Char} {vs : List Value} :
    Items config depth s t vs → vs ≠ [] → Blank config.comments t u → Items config depth s u vs
  | .cons hdatum hblank .nil, _, h => .cons hdatum (hblank.trans h) .nil
  | .cons hdatum hblank (.cons hdatum' hblank' hitems), _, h =>
    .cons hdatum hblank ((Items.cons hdatum' hblank' hitems).blank (List.cons_ne_nil _ _) h)

variable {text : List Char}

theorem Opened.blank {pending : List Pending} {s t : List Char} (h : Opened config text pending s)
    (h' : Blank config.comments s t) : Opened config text pending t := by
  cases h with
  | start hblank => exact .start (hblank.trans h')
  | dotted hlist hne hends hblank => exact .dotted hlist hne hends (hblank.trans h')
  | ending hdotted hdatum hblank => exact .ending hdotted hdatum (hblank.trans h')
  | quoted hopened hawaits hdepth hblank => exact .quoted hopened hawaits hdepth (hblank.trans h')
  | @list pending s' t' _ elements hopened hawaits hdepth hblank hitems =>
    by_cases hnil : elements = []
    · subst hnil
      cases hitems
      exact .list hopened hawaits hdepth (hblank.trans h') .nil
    · exact .list hopened hawaits hdepth hblank
        (hitems.blank (fun h => hnil (List.reverse_eq_nil_iff.1 h)) h')

theorem Reads.blank {p : Progress} {s t : List Char} (h : Reads config text p s)
    (h' : Blank config.comments s t) : Reads config text p t := by
  cases h with
  | opened h => exact .opened (h.blank h')
  | single hblank hdatum hblank' => exact .single hblank hdatum (hblank'.trans h')

/-- A complete datum goes to the innermost open form. -/
theorem Opened.complete {pending : List Pending} {s t : List Char} {v : Value}
    (h : Opened config text pending s) (hawaits : Awaits pending)
    (hdatum : Datum config pending.length s t v) : Reads config text (complete [] pending v) t := by
  induction pending generalizing s v with
  | nil =>
    cases h with
    | start hblank => exact .single hblank hdatum (.done t)
  | cons form pending ih =>
    cases h with
    | list hopened hawaits' hdepth hblank hitems =>
      refine .opened (.list hopened hawaits' hdepth hblank ?_)
      rw [List.reverse_cons]
      exact hitems.append hdatum (.done t)
    | dotted hlist hne hends hblank =>
      exact .opened (.ending (.dotted hlist hne hends hblank) hdatum (.done t))
    | ending => exact (hawaits _ _ _ rfl).elim
    | quoted hopened hawaits' hdepth hblank =>
      -- The quoted datum completes a datum of the form around the quote mark.
      exact ih hopened hawaits' (.quote hdepth hblank hdatum)

/-- A lexeme with which a datum begins. -/
theorem Opened.datum {pending : List Pending} {l : Lexeme} {p : Progress}
    (h : Opened config text pending l.start) (hawaits : Awaits pending)
    (hl : Spelled config.comments l) (hp : datum config.maxDepth ⟨[], pending⟩ l = .ok p) :
    Reads config text p l.stop := by
  have hdepth : pending.length < config.maxDepth := by
    refine Nat.lt_of_not_le fun hle => ?_
    have hdeep : Progress.datum config.maxDepth ⟨[], pending⟩ l = .error ⟨.tooDeep _, l.start⟩ :=
      if_pos hle
    rw [hp] at hdeep
    cases hdeep
  rw [datum_eq hdepth] at hp
  cases hl with
  | openParen s =>
    cases hp
    exact .opened (.list h hawaits hdepth (.done s) .nil)
  | closeParen => cases hp
  | quoteMark s =>
    dsimp only at hp
    split at hp
    · cases hp
    · cases hp
      exact .opened (.quoted h hawaits hdepth (.done s))
  | stray => cases hp
  | @atom atomText s hne htext hs =>
    dsimp only at hp
    cases hread : readAtom atomText with
    | error cause =>
      rw [hread] at hp
      cases hp
    | ok v =>
      rw [hread] at hp
      cases hp
      exact h.complete hawaits (.atom hdepth hne (forall_not_delimiter_iff.1 htext)
        (endsAtom_iff.1 hs) (readAtom_eq_ok_iff.1 hread))

/-- The end of a list without a dot. -/
theorem Opened.closeList {pending : List Pending} {elements : List Value} {s : List Char}
    (h : Opened config text (.list elements :: pending) (')' :: s)) :
    Reads config text (Progress.complete [] pending (.ofList elements.reverse)) s := by
  cases h with
  | list hopened hawaits hdepth hblank hitems =>
    exact hopened.complete hawaits (.list hdepth hblank hitems)

/-- The end of a list with a tail. -/
theorem Opened.closeEnding {pending : List Pending} {elements : List Value} {tail : Value}
    {s : List Char} (h : Opened config text (.ending elements tail :: pending) (')' :: s)) :
    Reads config text (Progress.complete [] pending (.ofListTail elements.reverse tail)) s := by
  cases h with
  | ending hdotted hdatum hblank' =>
    cases hdotted with
    | dotted hlist hne hends hdot =>
      cases hlist with
      | list hopened hawaits hdepth hblank hitems =>
        have hne' : elements.reverse ≠ [] := fun h => hne (List.reverse_eq_nil_iff.1 h)
        exact hopened.complete hawaits
          (.dotted hdepth hblank hitems hne' hends hdot hdatum hblank')

/-- A lexeme after which a list is still open, or not open any more. -/
theorem Opened.stepList {pending : List Pending} {elements : List Value} {l : Lexeme} {p : Progress}
    (h : Opened config text (.list elements :: pending) l.start) (hl : Spelled config.comments l)
    (hp : Progress.step config.maxDepth ⟨[], .list elements :: pending⟩ l = .ok p) :
    Reads config text p l.stop := by
  have hawaits := Awaits.list elements pending
  by_cases hclose : l.token = .closeParen
  · cases hl <;> cases hclose
    cases hp
    exact h.closeList
  by_cases hdot : l.token = .atom ['.']
  · cases hl with
    | @atom dot s _ _ hends =>
      cases hdot
      by_cases hne : elements = []
      · subst hne
        cases hp
      · have hstep : Progress.step config.maxDepth ⟨[], .list elements :: pending⟩
            ⟨.atom ['.'], ['.'] ++ s, s⟩ = .ok ⟨[], .dotted elements :: pending⟩ :=
          if_neg fun hempty => hne (List.isEmpty_iff.1 hempty)
        rw [hstep] at hp
        cases hp
        exact .opened (.dotted h hne (endsAtom_iff.1 hends) (.done s))
    | _ => cases hdot
  · rw [step_datum hawaits hclose hdot] at hp
    exact h.datum hawaits hl hp

/-- One lexeme more. -/
theorem Reads.step {p p' : Progress} {l : Lexeme} (h : Reads config text p l.start)
    (hsingle : p.isSingle = false) (hl : Spelled config.comments l)
    (hp : p.step config.maxDepth l = .ok p') : Reads config text p' l.stop := by
  cases h with
  | single => cases hsingle
  | @opened pending _ hopened =>
    match pending, hopened, hp with
    | [], hopened, hp => exact hopened.datum .nil hl hp
    | .list elements :: pending, hopened, hp => exact hopened.stepList hl hp
    | .dotted elements :: pending, hopened, hp => exact hopened.datum (.dotted _ _) hl hp
    | .quoted :: pending, hopened, hp => exact hopened.datum (.quoted _) hl hp
    | .ending elements tail :: pending, hopened, hp =>
      cases hl with
      | closeParen s =>
        cases hp
        exact hopened.closeEnding
      | _ => cases hp

/-- A whole run. -/
theorem Reads.readOne {p : Progress} {s : List Char} {vs : List Value} (h : Reads config text p s)
    (hvs : Progress.readOne config.maxDepth p (lexemes config.comments s) = .ok vs) :
    ∃ p', p'.finish config.maxDepth = .ok vs ∧ Reads config text p' [] := by
  -- On the lexemes, of which there are fewer with each step.
  induction hls : lexemes config.comments s generalizing p s with
  | nil =>
    rcases lexemes_cases s with ⟨hblank, -⟩ | ⟨l, -, -, heq⟩
    · rw [hls] at hvs
      exact ⟨p, hvs, h.blank hblank⟩
    · rw [heq] at hls
      cases hls
  | cons l ls ih =>
    rcases lexemes_cases s with ⟨-, heq⟩ | ⟨l', hblank, hl, heq⟩
    · rw [heq] at hls
      cases hls
    · rw [heq] at hls hvs
      cases hsingle : p.isSingle with
      | true =>
        rw [readOne_of_isSingle hsingle] at hvs
        cases hvs
      | false =>
        rw [readOne_cons hsingle] at hvs
        cases hp : p.step config.maxDepth l' with
        | error fault =>
          rw [hp] at hvs
          cases hvs
        | ok p' =>
          rw [hp] at hvs
          exact ih ((h.blank hblank).step hsingle hl hp) hvs (List.cons.inj hls).2

/-! ## The grammar of the reader -/

theorem parse_eq_ok_iff_readOne {text : String} {v : Value} : config.parse text = .ok v ↔
    ∃ vs, readOne config.maxDepth {} (lexemes config.comments text.toList) = .ok (v :: vs) := by
  simp only [Config.parse]
  cases readOne config.maxDepth {} (lexemes config.comments text.toList) with
  | error fault => exact iff_of_false (nomatch ·) fun ⟨_, h⟩ => nomatch h
  | ok vs =>
    cases vs with
    | nil => exact iff_of_false (nomatch ·) fun ⟨_, h⟩ => nomatch h
    | cons w vs =>
      constructor
      · intro hv
        cases hv
        exact ⟨vs, rfl⟩
      · rintro ⟨_, hv⟩
        cases hv
        rfl

theorem parse_of_derives {text : String} {v : Value} (h : Derives config text.toList v) :
    config.parse text = .ok v := by
  obtain ⟨s, t, hblank, hdatum, hblank'⟩ := h
  refine parse_eq_ok_iff_readOne.2 ⟨[], ?_⟩
  rw [lexemes_of_blank hblank]
  show readOne _ ⟨[], []⟩ _ = _
  rw [readOne_of_datum hdatum .nil rfl, lexemes_of_blank hblank']
  rfl

theorem derives_of_parse {text : String} {v : Value} (h : config.parse text = .ok v) :
    Derives config text.toList v := by
  obtain ⟨vs, hvs⟩ := parse_eq_ok_iff_readOne.1 h
  have hstart : Reads config text.toList {} text.toList := .opened (.start (.done _))
  obtain ⟨p, hfinish, hreads⟩ := hstart.readOne hvs
  cases hreads with
  | single hblank hdatum hblank' =>
    cases hfinish
    exact ⟨_, _, hblank, hdatum, hblank'⟩
  | @opened pending _ hopened =>
    cases pending with
    | nil => cases hfinish
    | cons form pending =>
      unfold finish at hfinish
      dsimp only at hfinish
      split at hfinish <;> cases hfinish

/-- The reader accepts exactly the texts of the grammar, each with the value that it has there, and
no text has two values. -/
theorem parse_eq_ok_iff_derives (config : Config) (text : String) (v : Value) :
    (config.parse text = .ok v ↔ Derives config text.toList v) ∧
      ∀ w, Derives config text.toList v → Derives config text.toList w → v = w := by
  refine ⟨⟨derives_of_parse, parse_of_derives⟩, fun w hv hw => ?_⟩
  have hparse := parse_of_derives hv
  rw [parse_of_derives hw] at hparse
  cases hparse
  rfl

/-- Atoms end where a list, a quote or a comment begins, and a dot before a delimiter announces a
tail. An integer of more than 64 bits is no datum. -/
theorem juxtaposed_data_derive :
    (∀ v, Derives {} "(a(b)'c;d\n-07 .(e))".toList v ↔ v =
      .pair (.symbol "a") (.pair (.pair (.symbol "b") .nil)
        (.pair (.pair (.symbol "quote") (.pair (.symbol "c") .nil))
          (.pair (.int (-7)) (.pair (.symbol "e") .nil))))) ∧
      ∀ v, ¬ Derives {} "-9223372036854775809".toList v := by
  constructor
  · intro v
    rw [← (parse_eq_ok_iff_derives {} _ v).1]
    have hparse : ({} : Config).parse "(a(b)'c;d\n-07 .(e))" =
        .ok (.pair (.symbol "a") (.pair (.pair (.symbol "b") .nil)
          (.pair (.pair (.symbol "quote") (.pair (.symbol "c") .nil))
            (.pair (.int (-7)) (.pair (.symbol "e") .nil))))) := by
      decide +kernel
    rw [hparse, Except.ok.injEq, eq_comm]
  · intro v hv
    have hrefused : (({} : Config).parse "-9223372036854775809").isOk = false := by
      decide +kernel
    rw [(parse_eq_ok_iff_derives {} _ v).1.2 hv] at hrefused
    cases hrefused

end DynLisp.Reader
