import DynLisp.Proofs.Reading.Completion
import DynLisp.Proofs.Reading.DescentSteps
import DynLisp.Proofs.Reading.Positions

/-!
# Reading by descent and by lexemes

The reader takes a text lexeme by lexeme and keeps the forms that are open in a list. Reading by
descent keeps them in the calls that are not finished, and comes to the same (`settles_readData`,
`settles_readSingle`): where a datum is read by descent, the lexemes of the same text are read with
the same outcome (`Followed`), by induction on the length of the text (`followed`). So the loops and
calls of the descent end for every text, and what they fail with is a fault inside it
(`reading_ends_inside_text`).
-/

namespace DynLisp.Reader

open Progress

variable {config : Config} {s : List Char} {l : Lexeme}

/-! ## Steps inside a list -/

namespace Progress

variable {maxDepth : Nat} (done elements : List Value) (pending : List Pending) (l : Lexeme)

theorem datum_of_le {p : Progress} (h : maxDepth ≤ p.depth) :
    datum maxDepth p l = .error ⟨.tooDeep maxDepth, l.start⟩ :=
  if_pos h

theorem step_list : step maxDepth ⟨done, .list elements :: pending⟩ l =
    if l.token = .closeParen then .ok (complete done pending (.ofList elements.reverse))
    else if l.token = .atom ['.'] then
      if elements.isEmpty then .error ⟨.unexpected, l.start⟩
      else .ok ⟨done, .dotted elements :: pending⟩
    else datum maxDepth ⟨done, .list elements :: pending⟩ l := by
  by_cases hclose : l.token = .closeParen
  · rw [if_pos hclose]
    simp only [step, hclose]
  · rw [if_neg hclose]
    by_cases hdot : l.token = .atom ['.']
    · rw [if_pos hdot]
      simp only [step, hdot]
    · rw [if_neg hdot]
      exact step_datum (.list elements pending) hclose hdot maxDepth

theorem step_ending (tail : Value) : step maxDepth ⟨done, .ending elements tail :: pending⟩ l =
    if l.token = .closeParen then .ok (complete done pending (.ofListTail elements.reverse tail))
    else .error ⟨.unexpected, l.start⟩ := by
  obtain ⟨token, start, stop⟩ := l
  cases token <;> rfl

end Progress

namespace Descent

/-! ## Following the lexemes -/

/-- A reading of a value ends as `x` does: with a value and a rest of the text with which `x` goes
on by `k`, or with the same fault. -/
inductive Follows {α : Type} (x : Except Fault α) (k : Value → List Char → Except Fault α) :
    Reading (Value × List Char) → Prop where
  | reads {v t} : x = k v t → Follows x k (pure (v, t))
  | fails {fault} : x = .error fault → Follows x k (throw fault)

theorem Follows.bind {α : Type} {x : Except Fault α} {k k' : Value → List Char → Except Fault α}
    {r : Reading (Value × List Char)} (h : Follows x k r) (hr : Consumes s r)
    {f : Value × List Char → Reading (Value × List Char)}
    (hf : ∀ v t, t.length < s.length → Follows (k v t) k' (f (v, t))) :
    Follows x k' (r >>= f) := by
  cases h with
  | reads hx =>
    rw [hx]
    exact hf _ _ (hr.length_lt rfl)
  | fails hx => exact .fails hx

/-- A way to read lexemes that goes on with each as long as a form is open, up to the end. -/
structure ReadsThrough (maxDepth : Nat)
    (reads : Progress → List Lexeme → Except Fault (List Value)) : Prop where
  readsOn : ReadsOn maxDepth reads
  atEnd (p : Progress) : reads p [] = p.finish maxDepth

/-- What the lexemes make of a text after a value that the forms around it wait for. -/
def goesOn (config : Config) (reads : Progress → List Lexeme → Except Fault (List Value))
    (done : List Value) (pending : List Pending) (v : Value) (t : List Char) :
    Except Fault (List Value) :=
  reads (complete done pending v) (lexemes config.comments t)

section Following

variable {reads : Progress → List Lexeme → Except Fault (List Value)}

/-- What is left of a text is read by the lexemes as it is by descent, with as many calls as that
takes: a datum that an open form waits for, and the rest of a list. -/
structure Followed (config : Config) (reads : Progress → List Lexeme → Except Fault (List Value))
    (s : List Char) : Prop where
  datum {p : Progress} : p.pending ≠ [] → Awaits p.pending →
    (∀ elements pending, p.pending ≠ .list elements :: pending) → p.depth < config.maxDepth →
    ∀ calls, 3 * s.length + 2 ≤ calls →
      Follows (reads p (lexemes config.comments s))
        (goesOn config reads p.done p.pending)
        (readDatum config p.depth s calls)
  items {done pending elements} : (elements ≠ [] → pending.length + 1 < config.maxDepth) →
    ∀ calls, 3 * s.length + 3 ≤ calls →
      Follows (reads ⟨done, .list elements :: pending⟩ (lexemes config.comments s))
        (goesOn config reads done pending)
        (readItems config pending.length elements s calls)

variable {p : Progress} {calls : Nat}

/-- By a lexeme that begins a datum all of the datum is read. -/
theorem follows_lexeme (hl : Spelled config.comments l) (hcalls : 3 * l.start.length + 2 ≤ calls)
    (hdepth : p.depth < config.maxDepth) (hrest : Followed config reads l.stop) :
    Follows (p.datum config.maxDepth l >>= fun p => reads p (lexemes config.comments l.stop))
      (goesOn config reads p.done p.pending)
      (readDatum config p.depth l.start calls) := by
  obtain ⟨calls, rfl⟩ := Nat.exists_eq_add_of_le' (Nat.le_of_add_left_le hcalls)
  have hlt := hl.length_stop_lt
  have hstop : 3 * l.stop.length + 3 ≤ calls := by omega
  obtain ⟨done, pending⟩ := p
  rw [readDatum_spelled (by omega) hdepth hl, datum_eq hdepth]
  obtain ⟨token, start, stop⟩ := l
  cases token with
  | openParen => exact hrest.items nofun calls hstop
  | closeParen => exact .fails rfl
  | stray => exact .fails rfl
  | atom text =>
    dsimp only
    cases readAtom text with
    | ok v => exact .reads rfl
    | error cause => exact .fails rfl
  | quoteMark =>
    dsimp only
    split
    · have hdeep : config.maxDepth ≤ (⟨done, pending⟩ : Progress).depth + 1 := ‹_›
      rw [readDatum_of_le hdeep _ (Nat.zero_lt_of_lt hstop)]
      exact .fails rfl
    · rename_i hdeep
      have hcalls' : 3 * stop.length + 2 ≤ calls := Nat.le_of_succ_le hstop
      have hdatum := hrest.datum (p := ⟨done, .quoted :: pending⟩) (List.cons_ne_nil _ _)
        (.quoted pending) nofun (Nat.lt_of_not_le hdeep) calls hcalls'
      have hconsumes := (ends_readDatum config (pending.length + 1) stop).consumes hcalls'
      exact hdatum.bind hconsumes fun v t _ => .reads rfl

variable (h : ReadsThrough config.maxDepth reads)

include h

theorem ReadsThrough.atEnd_of_lt (hpending : p.pending ≠ []) (hdepth : p.depth < config.maxDepth) :
    reads p [] = .error ⟨.unexpectedEnd, []⟩ := by
  rw [h.atEnd, finish_of_pending hpending, if_neg (Nat.not_le.2 hdepth)]

/-- A datum that an open form waits for. -/
theorem follows_datum (hpending : p.pending ≠ []) (hawaits : Awaits p.pending)
    (hlist : ∀ elements pending, p.pending ≠ .list elements :: pending)
    (hdepth : p.depth < config.maxDepth) (hcalls : 3 * s.length + 2 ≤ calls)
    (hrest : ∀ t, t.length < s.length → Followed config reads t) :
    Follows (reads p (lexemes config.comments s))
      (goesOn config reads p.done p.pending)
      (readDatum config p.depth s calls) := by
  have hcalls' : s.length + 2 ≤ calls := by omega
  rcases skipBlank_cases config.comments s with ⟨hskip, hnone⟩ | ⟨l, hl, hstart, hskip, hlexemes⟩
  · rw [hnone, readDatum_of_skipBlank hcalls' hskip s.nil_suffix nofun hdepth,
      readDatum_nil (by omega) hdepth]
    exact .fails (h.atEnd_of_lt hpending hdepth)
  · have hstep : p.step config.maxDepth l = p.datum config.maxDepth l := by
      unfold step
      split
      · exact (hlist _ _ ‹_›).elim
      · exact (hawaits _ _ _ ‹_›).elim
      · rfl
    have hle := hstart.length_le
    rw [hlexemes, h.readsOn p l _ hpending, hstep,
      readDatum_of_skipBlank hcalls' hskip hstart hl.bare hdepth]
    exact follows_lexeme hl (by omega) hdepth (hrest _ (Nat.lt_of_lt_of_le hl.length_stop_lt hle))

/-- The closing parenthesis after the tail of a list. -/
theorem follows_close {done elements : List Value} {tail : Value} {pending : List Pending}
    (hdepth : pending.length + 1 < config.maxDepth) (hcalls : s.length + 1 ≤ calls) :
    Follows (reads ⟨done, .ending elements tail :: pending⟩ (lexemes config.comments s))
      (goesOn config reads done pending)
      (readClose config.comments s calls >>= fun t =>
        pure (.ofListTail elements.reverse tail, t)) := by
  have hpending : (.ending elements tail :: pending : List Pending) ≠ [] := List.cons_ne_nil _ _
  unfold readClose
  rcases skipBlank_cases config.comments s with ⟨hskip, hnone⟩ | ⟨l, hl, hstart, hskip, hlexemes⟩
  · rw [hnone, hskip calls hcalls]
    exact .fails (h.atEnd_of_lt hpending hdepth)
  · rw [hlexemes, h.readsOn _ l _ hpending, step_ending, hskip calls hcalls, pure_bind,
      if_neg hl.start_ne]
    unfold expect
    by_cases hclose : l.token = .closeParen
    · rw [if_pos hclose, if_pos ((hl.head?_start_iff).2 hclose), pure_bind,
        hl.tail_start (.inl hclose)]
      exact .reads rfl
    · rw [if_neg hclose, if_neg (mt (hl.head?_start_iff).1 hclose)]
      exact .fails rfl

/-- The tail of a list, and its end. -/
theorem follows_tail {done elements : List Value} {pending : List Pending}
    (hdepth : pending.length + 1 < config.maxDepth) (hcalls : 3 * s.length + 2 ≤ calls)
    (hrest : Followed config reads s) :
    Follows (reads ⟨done, .dotted elements :: pending⟩ (lexemes config.comments s))
      (goesOn config reads done pending)
      (readDatum config (pending.length + 1) s calls >>= fun p =>
        readClose config.comments p.2 calls >>= fun t =>
          pure (.ofListTail elements.reverse p.1, t)) := by
  have hdatum := hrest.datum (p := ⟨done, .dotted elements :: pending⟩) (List.cons_ne_nil _ _)
    (.dotted elements pending) nofun hdepth calls hcalls
  have hconsumes := (ends_readDatum config (pending.length + 1) s).consumes hcalls
  exact hdatum.bind hconsumes fun v t ht => follows_close h hdepth (by omega)

omit h in
/-- One more element of a list, and those after it. -/
theorem follows_element {done elements : List Value} {pending : List Pending}
    (hl : Spelled config.comments l) (hcalls : 3 * l.start.length + 2 ≤ calls)
    (hrest : ∀ t, t.length < l.start.length → Followed config reads t) :
    Follows (datum config.maxDepth ⟨done, .list elements :: pending⟩ l >>= fun p =>
        reads p (lexemes config.comments l.stop))
      (goesOn config reads done pending)
      (readDatum config (pending.length + 1) l.start calls >>= fun p =>
        readItems config pending.length (p.1 :: elements) p.2 calls) := by
  by_cases hdepth : pending.length + 1 < config.maxDepth
  · have hdatum := follows_lexeme (p := ⟨done, .list elements :: pending⟩) hl hcalls hdepth
      (hrest _ hl.length_stop_lt)
    have hconsumes := (ends_readDatum config (pending.length + 1) l.start).consumes hcalls
    exact hdatum.bind hconsumes fun v t ht =>
      (hrest t ht).items (fun _ => hdepth) calls (by omega)
  · have hdeep : config.maxDepth ≤ pending.length + 1 := Nat.le_of_not_lt hdepth
    rw [readDatum_of_le hdeep _ (by omega),
      datum_of_le (p := ⟨done, .list elements :: pending⟩) l hdeep]
    exact .fails rfl

/-- Where a text ends inside a list, the next element would be missing. -/
theorem follows_end {done elements : List Value} {pending : List Pending}
    {k : Value → List Char → Except Fault (List Value)}
    {f : Value × List Char → Reading (Value × List Char)} (hcalls : 2 ≤ calls) :
    Follows (reads ⟨done, .list elements :: pending⟩ []) k
      (readDatum config (pending.length + 1) [] calls >>= f) := by
  have hpending : (.list elements :: pending : List Pending) ≠ [] := List.cons_ne_nil _ _
  by_cases hdepth : pending.length + 1 < config.maxDepth
  · rw [readDatum_nil hcalls hdepth]
    exact .fails (h.atEnd_of_lt hpending hdepth)
  · have hdeep : config.maxDepth ≤ pending.length + 1 := Nat.le_of_not_lt hdepth
    rw [readDatum_of_le hdeep _ (Nat.zero_lt_of_lt hcalls), h.atEnd, finish_of_pending hpending,
      depth, List.length_cons, if_pos hdeep]
    exact .fails rfl

/-- The rest of a list, by the lexeme that it begins with. -/
theorem follows_items {done elements : List Value} {pending : List Pending}
    (helements : elements ≠ [] → pending.length + 1 < config.maxDepth)
    (hcalls : 3 * s.length + 3 ≤ calls)
    (hrest : ∀ t, t.length < s.length → Followed config reads t) :
    Follows (reads ⟨done, .list elements :: pending⟩ (lexemes config.comments s))
      (goesOn config reads done pending)
      (readItems config pending.length elements s calls) := by
  obtain ⟨calls, rfl⟩ := Nat.exists_eq_add_one.2 (Nat.zero_lt_of_lt hcalls)
  have hpending : (.list elements :: pending : List Pending) ≠ [] := List.cons_ne_nil _ _
  rcases skipBlank_cases config.comments s with ⟨hskip, hnone⟩ | ⟨l, hl, hstart, hskip, hlexemes⟩
  · rw [hnone, readItems_nil (hskip calls (by omega))]
    exact follows_end h (by omega)
  · have hle := hstart.length_le
    have hlt := hl.length_stop_lt
    have hrest' : ∀ t, t.length < l.start.length → Followed config reads t := fun t ht =>
      hrest t (Nat.lt_of_lt_of_le ht hle)
    rw [hlexemes, h.readsOn _ l _ hpending, step_list,
      readItems_spelled (hskip calls (by omega)) hl]
    by_cases hclose : l.token = .closeParen
    · rw [if_pos hclose, if_pos hclose, hl.tail_start (.inl hclose)]
      exact .reads rfl
    · rw [if_neg hclose, if_neg hclose]
      by_cases hdot : l.token = .atom ['.']
      · rw [if_pos hdot, if_pos hdot, hl.tail_start (.inr hdot)]
        split
        · exact .fails rfl
        · rename_i hne
          have hdepth := helements fun hnil => hne (List.isEmpty_iff.2 hnil)
          exact follows_tail h hdepth (by omega) (hrest' _ hlt)
      · rw [if_neg hdot, if_neg hdot]
        exact follows_element hl (by omega) hrest'

/-- Reading by descent follows the lexemes, wherever it begins. -/
theorem followed (s : List Char) : Followed config reads s := by
  induction hlength : s.length using Nat.strong_induction_on generalizing s with
  | _ n ih =>
    have hrest : ∀ t, t.length < s.length → Followed config reads t := fun t ht =>
      ih t.length (hlength ▸ ht) t rfl
    constructor
    · intro p hpending hawaits hlist hdepth calls hcalls
      exact follows_datum h hpending hawaits hlist hdepth hcalls hrest
    · intro done pending elements helements calls hcalls
      exact follows_items h helements hcalls hrest

end Following

/-! ## Whole texts -/

theorem readsThrough_readAll (maxDepth : Nat) : ReadsThrough maxDepth (readAll maxDepth) :=
  ⟨readsOn_readAll maxDepth, fun _ => rfl⟩

theorem readsThrough_readOne (maxDepth : Nat) : ReadsThrough maxDepth (readOne maxDepth) :=
  ⟨readsOn_readOne maxDepth, fun _ => rfl⟩

section Whole

variable {calls : Nat}

/-- Where no form is open, a lexeme is read as the first of a datum. -/
theorem follows_first {reads : Progress → List Lexeme → Except Fault (List Value)}
    (h : ReadsThrough config.maxDepth reads) (hl : Spelled config.comments l)
    (hcalls : 3 * l.start.length + 2 ≤ calls) (done : List Value) :
    Follows
      (step config.maxDepth ⟨done, []⟩ l >>= fun p => reads p (lexemes config.comments l.stop))
      (fun v t => reads ⟨v :: done, []⟩ (lexemes config.comments t))
      (readDatum config 0 l.start calls) := by
  show Follows (datum config.maxDepth ⟨done, []⟩ l >>= _) _ _
  by_cases hdepth : 0 < config.maxDepth
  · exact follows_lexeme (p := ⟨done, []⟩) hl hcalls hdepth (followed h l.stop)
  · have hdeep : config.maxDepth ≤ 0 := Nat.le_of_not_lt hdepth
    rw [readDatum_of_le hdeep _ (by omega), datum_of_le (p := ⟨done, []⟩) l hdeep]
    exact .fails rfl

/-- The loop over all data of a text ends, and reads what the lexemes make. -/
theorem settles_readData (config : Config) (done : List Value) (s : List Char) :
    Settles (readData config done s) (3 * s.length + 3)
      (.mk (some (readAll config.maxDepth ⟨done, []⟩ (lexemes config.comments s)))) := by
  induction hlength : s.length using Nat.strong_induction_on generalizing s done with
  | _ n ih =>
    intro calls hcalls
    obtain ⟨calls, rfl⟩ := Nat.exists_eq_add_one.2 (Nat.zero_lt_of_lt hcalls)
    rw [readData.eq_2]
    rcases skipBlank_cases config.comments s with ⟨hskip, hnone⟩ | ⟨l, hl, hstart, hskip, hlexemes⟩
    · rw [hskip calls (by omega), hnone]
      rfl
    · have hle := hstart.length_le
      have hcalls' : 3 * l.start.length + 2 ≤ calls := by omega
      have hfirst := follows_first (readsThrough_readAll config.maxDepth) hl hcalls' done
      have hconsumes := (ends_readDatum config 0 l.start).consumes hcalls'
      rw [hskip calls (by omega), hlexemes, readAll_cons, pure_bind, if_neg hl.start_ne]
      generalize readDatum config 0 l.start calls = r at hfirst hconsumes
      cases hfirst with
      | reads hmore =>
        have hlt := hconsumes.length_lt rfl
        rw [hmore]
        exact ih _ (by omega) _ _ rfl calls (by omega)
      | fails hfault =>
        rw [hfault]
        rfl

theorem settles_readSingle (config : Config) (s : List Char) :
    Settles (readSingle config s) (3 * s.length + 3)
      (.mk (some (readOne config.maxDepth {} (lexemes config.comments s)))) := by
  intro calls hcalls
  unfold readSingle
  rcases skipBlank_cases config.comments s with ⟨hskip, hnone⟩ | ⟨l, hl, hstart, hskip, hlexemes⟩
  · rw [hskip calls (by omega), hnone]
    rfl
  · have hle := hstart.length_le
    have hcalls' : 3 * l.start.length + 2 ≤ calls := by omega
    have hfirst := follows_first (readsThrough_readOne config.maxDepth) hl hcalls' []
    have hconsumes := (ends_readDatum config 0 l.start).consumes hcalls'
    rw [hskip calls (by omega), hlexemes, readOne_cons rfl, pure_bind, if_neg hl.start_ne]
    generalize readDatum config 0 l.start calls = r at hfirst hconsumes
    cases hfirst with
    | fails hfault =>
      rw [hfault]
      rfl
    | @reads v t hmore =>
      have hlt := hconsumes.length_lt rfl
      rw [hmore, pure_bind]
      dsimp only
      rcases skipBlank_cases config.comments t with ⟨hskip, hnone⟩ | ⟨l', hl', -, hskip, hlexemes⟩
      · rw [hskip calls (by omega), hnone]
        rfl
      · rw [hskip calls (by omega), hlexemes, readOne_of_isSingle rfl, pure_bind,
          if_neg hl'.start_ne]
        rfl

end Whole

end Descent

/-! ## Positions -/

theorem utf8ByteSize_ofList (cs : List Char) : (String.ofList cs).utf8ByteSize = byteCount cs := by
  induction cs with
  | nil => rfl
  | cons c cs ih =>
    rw [String.ofList_cons, String.utf8ByteSize_append, String.utf8ByteSize_singleton, ih]
    rfl

theorem Fault.isValid_position {fault : Fault} {text : String} (h : fault.rest <:+ text.toList) :
    (⟨fault.position text.toList⟩ : String.Pos.Raw).IsValid text := by
  obtain ⟨cause, rest⟩ := fault
  obtain ⟨front, hfront⟩ := h
  refine String.Pos.Raw.isValid_iff_exists_append.2
    ⟨String.ofList front, String.ofList rest, ?_, ?_⟩
  · rw [← String.ofList_append, hfront, String.ofList_toList]
  · rw [← hfront, Fault.position_eq, String.rawEndPos, utf8ByteSize_ofList]

namespace Descent

/-- What the reading of a whole text comes to with calls enough. Where it is a fault, what is left
is an end of the text, and the position of the fault is one between two characters. -/
structure EndsWithin (text : String) (r : Nat → Reading (List Value))
    (x : Except Fault (List Value)) : Prop where
  ends : Settles r (3 * text.toList.length + 3) (.mk (some x))
  suffix : ∀ fault, x = .error fault → fault.rest <:+ text.toList
  isValid : ∀ fault, x = .error fault →
    (⟨fault.position text.toList⟩ : String.Pos.Raw).IsValid text

/-- The one datum that is asked for. -/
def firstDatum : List Value → Except ReadError Value
  | [] => .error .emptyInput
  | v :: _ => .ok v

theorem endsWithin {text : String} {r : Nat → Reading (List Value)}
    {x : Except Fault (List Value)}
    (hends : Settles r (3 * text.toList.length + 3) (.mk (some x)))
    (h : ∀ fault, x = .error fault → fault.rest <:+ text.toList) : EndsWithin text r x :=
  ⟨hends, h, fun fault hfault => Fault.isValid_position (h fault hfault)⟩

/-- Reading by descent ends wherever it begins, with a rest that is an end of the text, shorter
after a datum, or with a fault inside the text. So it ends for whole texts, of which one datum or
all data are read in this way, and the position that an error tells is one between two
characters. -/
theorem reading_ends_inside_text (config : Config) :
    (∀ s, ∃ t, Settles (skipBlank config.comments s) (s.length + 1) (pure t) ∧ t <:+ s) ∧
    (∀ s, Consumes s (readAtomAt s)) ∧
    (∀ depth s, Ends s (3 * s.length + 1) (readList config depth s) ∧
      Ends s (3 * s.length + 1) (readQuote config depth s) ∧
      Ends s (3 * s.length + 2) (readDatum config depth s)) ∧
    (∀ depth elements s, Ends s (3 * s.length + 3) (readItems config depth elements s)) ∧
    ∀ text : String,
      (∃ x, EndsWithin text (readSingle config text.toList) x ∧
        config.parse text = x.mapError (·.toError text.toList) >>= firstDatum) ∧
      ∃ x, EndsWithin text (readData config [] text.toList) x ∧
        config.parseAll text = x.mapError (·.toError text.toList) := by
  refine ⟨fun s => ?_, consumes_readAtomAt, fun depth s => ⟨ends_readList config depth s,
    ends_readQuote config depth s, ends_readDatum config depth s⟩, ends_readItems config,
    fun text => ⟨?_, ?_⟩⟩
  · obtain ⟨t, ht, hblank, -⟩ := exists_skipBlank config.comments s
    exact ⟨t, ht, hblank.suffix⟩
  · refine ⟨_, endsWithin (settles_readSingle config text.toList) fun fault =>
      rest_of_readOne (within_lexemes _ _), ?_⟩
    unfold Config.parse
    dsimp only
    cases readOne config.maxDepth {} (lexemes config.comments text.toList) with
    | error fault => rfl
    | ok vs => cases vs <;> rfl
  · refine ⟨_, endsWithin (settles_readData config [] text.toList) fun fault =>
      rest_of_readAll (within_lexemes _ _), ?_⟩
    unfold Config.parseAll
    dsimp only
    cases readAll config.maxDepth {} (lexemes config.comments text.toList) <;> rfl

end Descent

end DynLisp.Reader
