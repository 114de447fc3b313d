import Mathlib.Data.List.TakeWhile
import DynLisp.Proofs.Reading.Lexemes

/-!
# Reading by recursive descent

The reader once more, as functions that call each other the way data are nested, and that hand on
what is left of the text. Nothing in their definitions says that these calls come to an end: each
takes a number of calls that may be nested in it, and is left unfinished without one. At any depth
a text needs three calls for each of its characters and a few more (`ends_readDatum`,
`ends_readItems`): a datum, the list that it is and the elements of that list are three calls, and
then the parenthesis is behind. What is read fails inside the text that is given (`Consumes`).
-/

namespace DynLisp.Reader

/-- A reading of text that may fail, or not be finished. -/
abbrev Reading (α : Type) := ExceptT Fault Option α

/-- A reading that was given too few calls. -/
def Reading.unfinished {α : Type} : Reading α :=
  ExceptT.mk none

namespace Descent

/-! ## Readings -/

/-- Leaves out blanks and, where there are any, comments. -/
def skipBlank (comments : Bool) (s : List Char) : Nat → Reading (List Char)
  | 0 => .unfinished
  | calls + 1 =>
    let t := s.dropWhile isBlank
    if comments ∧ t.head? = some ';' then skipBlank comments (t.dropWhile (· ≠ '\n')) calls
    else pure t

/-- Takes off the character that has to come next. -/
def expect (c : Char) (s : List Char) : Reading (List Char) :=
  if s.head? = some c then pure s.tail else throw ⟨.unexpected, s⟩

/-- Takes off the closing parenthesis that has to come after the tail of a list. -/
def readClose (comments : Bool) (s : List Char) (calls : Nat) : Reading (List Char) := do
  let t ← skipBlank comments s calls
  if t.isEmpty then throw ⟨.unexpectedEnd, t⟩ else expect ')' t

/-- Reads the longest run of characters that are no delimiters as an atom. -/
def readAtomAt (s : List Char) : Reading (Value × List Char) :=
  let text := s.takeWhile fun c => !isDelimiter c
  if text.isEmpty then throw ⟨.invalid, s⟩
  else
    match readAtom text with
    | .ok v => pure (v, s.drop text.length)
    | .error cause => throw ⟨cause, s⟩

/-- Whether the text begins with a dot that stands alone. -/
def atDot : List Char → Bool
  | '.' :: s => s.head?.all isDelimiter
  | _ => false

mutual

/-- Reads a list from its opening parenthesis on. -/
def readList (config : Config) (depth : Nat) (s : List Char) : Nat → Reading (Value × List Char)
  | 0 => .unfinished
  | calls + 1 => do
    let t ← expect '(' s
    readItems config depth [] t calls
termination_by structural calls => calls

/-- Reads what follows some elements of a list. They are kept with the last one first. -/
def readItems (config : Config) (depth : Nat) (elements : List Value) (s : List Char) :
    Nat → Reading (Value × List Char)
  | 0 => .unfinished
  | calls + 1 => do
    let t ← skipBlank config.comments s calls
    if t.head? = some ')' then pure (.ofList elements.reverse, t.tail)
    else if atDot t then
      if elements.isEmpty then throw ⟨.unexpected, t⟩
      else do
        let (tail, u) ← readDatum config (depth + 1) t.tail calls
        let rest ← readClose config.comments u calls
        pure (.ofListTail elements.reverse tail, rest)
    else do
      let (v, u) ← readDatum config (depth + 1) t calls
      readItems config depth (v :: elements) u calls
termination_by structural calls => calls

/-- Reads a quote mark and the datum after it. -/
def readQuote (config : Config) (depth : Nat) (s : List Char) : Nat → Reading (Value × List Char)
  | 0 => .unfinished
  | calls + 1 => do
    let t ← expect '\x27' s
    let (v, u) ← readDatum config (depth + 1) t calls
    pure (quoted v, u)
termination_by structural calls => calls

/-- Reads a datum after blanks. The depth is checked before anything is skipped. -/
def readDatum (config : Config) (depth : Nat) (s : List Char) : Nat → Reading (Value × List Char)
  | 0 => .unfinished
  | calls + 1 =>
    if config.maxDepth ≤ depth then throw ⟨.tooDeep config.maxDepth, s⟩
    else do
      let t ← skipBlank config.comments s calls
      if t.isEmpty then throw ⟨.unexpectedEnd, t⟩
      else if t.head? = some '(' then readList config depth t calls
      else if t.head? = some '\x27' then readQuote config depth t calls
      else if t.head? = some ')' then throw ⟨.unexpected, t⟩
      else if t.head? = some '\x22' then throw ⟨.invalid, t⟩
      else readAtomAt t
termination_by structural calls => calls

end

/-- Reads all data that follow others. -/
def readData (config : Config) (done : List Value) (s : List Char) : Nat → Reading (List Value)
  | 0 => .unfinished
  | calls + 1 => do
    let t ← skipBlank config.comments s calls
    if t.isEmpty then pure done.reverse
    else do
      let (v, u) ← readDatum config 0 t calls
      readData config (v :: done) u calls

/-- Reads one datum, if there is any, and nothing after it. -/
def readSingle (config : Config) (s : List Char) (calls : Nat) : Reading (List Value) := do
  let t ← skipBlank config.comments s calls
  if t.isEmpty then pure []
  else do
    let (v, u) ← readDatum config 0 t calls
    let w ← skipBlank config.comments u calls
    if w.isEmpty then pure [v] else throw ⟨.trailing, w⟩

end Descent

/-! ## Blanks -/

variable {comments : Bool} {s t : List Char}

theorem Blank.suffix (h : Blank comments s t) : t <:+ s := by
  induction h with
  | done => exact List.suffix_refl _
  | char _ _ ih => exact ih.trans (List.suffix_cons _ _)
  | comment _ _ _ _ ih => exact (ih.trans (List.suffix_append _ _)).trans (List.suffix_cons _ _)

theorem blank_dropWhile (comments : Bool) (s : List Char) :
    Blank comments s (s.dropWhile isBlank) := by
  induction s with
  | nil => exact .done []
  | cons c s ih =>
    rw [List.dropWhile_cons]
    split
    · exact .char (isBlank_iff.1 ‹_›) ih
    · exact .done _

theorem blank_comment (hcomments : comments = true) (s : List Char) :
    Blank comments (';' :: s) (s.dropWhile (· ≠ '\n')) := by
  have hcomment : Blank comments (';' :: (s.takeWhile (· ≠ '\n') ++ s.dropWhile (· ≠ '\n')))
      (s.dropWhile (· ≠ '\n')) := by
    refine .comment hcomments (fun h => ?_) ?_ (.done _)
    · simpa using List.mem_takeWhile_imp h
    · cases hrest : s.dropWhile (· ≠ '\n') with
      | nil => exact .inl rfl
      | cons c t =>
        have hc := head?_dropWhile_false (· ≠ '\n') s c (by rw [hrest]; rfl)
        exact .inr (by simpa using hc)
  rwa [List.takeWhile_append_dropWhile] at hcomment

/-- The text begins with nothing that is left out. -/
def Bare (comments : Bool) (s : List Char) : Prop :=
  ∀ c ∈ s.head?, isBlank c = false ∧ ¬(comments = true ∧ c = ';')

theorem Bare.eq_of_blank (h : Bare comments s) (hblank : Blank comments s t) : t = s := by
  cases hblank with
  | done => rfl
  | char hc =>
    have hbare := (h _ rfl).1
    rw [isBlank_iff.2 hc] at hbare
    cases hbare
  | comment hcomments => exact ((h _ rfl).2 ⟨hcomments, rfl⟩).elim

namespace Descent

variable {config : Config}

/-! ## Readings that are finished -/

/-- The reading comes to this result with any number of calls from `n` on. -/
def Settles {α : Type} (f : Nat → Reading α) (n : Nat) (r : Reading α) : Prop :=
  ∀ calls, n ≤ calls → f calls = r

namespace Settles

variable {α : Type} {n : Nat} {f g : Nat → Reading α} {r : Reading α}

theorem of_le {m : Nat} (h : Settles f m r) (hle : m ≤ n) : Settles f n r :=
  fun calls hcalls => h calls (Nat.le_trans hle hcalls)

/-- What calls another reading needs one call more. -/
theorem succ (hf : ∀ calls, f (calls + 1) = g calls) (h : Settles g n r) :
    Settles f (n + 1) r := by
  intro calls hcalls
  cases calls with
  | zero => exact absurd hcalls (Nat.not_succ_le_zero n)
  | succ calls => rw [hf, h calls (Nat.le_of_succ_le_succ hcalls)]

theorem bind {β : Type} {g : α → Nat → Reading β} {r' : Reading β} {v : α}
    (h : Settles f n (pure v)) (hg : Settles (g v) n r') :
    Settles (fun calls => f calls >>= fun v => g v calls) n r' := by
  intro calls hcalls
  show f calls >>= _ = r'
  rw [h calls hcalls, pure_bind, hg calls hcalls]

theorem bind_throw {β : Type} {g : α → Nat → Reading β} {fault : Fault}
    (h : Settles f n (throw fault)) :
    Settles (fun calls => f calls >>= fun v => g v calls) n (throw fault) := by
  intro calls hcalls
  show f calls >>= _ = _
  rw [h calls hcalls]
  rfl

end Settles

/-- The loop over blanks and comments ends: each comment takes its semicolon with it. -/
theorem exists_skipBlank (comments : Bool) (s : List Char) :
    ∃ t, Settles (skipBlank comments s) (s.length + 1) (pure t) ∧ Blank comments s t ∧
      Bare comments t := by
  induction hlength : s.length using Nat.strong_induction_on generalizing s with
  | _ n ih =>
    have hblank := blank_dropWhile comments s
    have hlead := head?_dropWhile_false isBlank s
    have hle := hblank.suffix.length_le
    have hstep := skipBlank.eq_2 comments s
    generalize s.dropWhile isBlank = t at hblank hlead hle hstep
    by_cases hcomment : comments = true ∧ t.head? = some ';'
    · obtain ⟨u, rfl⟩ := List.head?_eq_some_iff.1 hcomment.2
      have hbody := blank_comment hcomment.1 u
      have hlt : (u.dropWhile (· ≠ '\n')).length < n := by
        have hshorter := (List.dropWhile_suffix (· ≠ '\n') (l := u)).length_le
        rw [List.length_cons] at hle
        omega
      obtain ⟨w, hw, hrest, hbare⟩ := ih _ hlt _ rfl
      refine ⟨w, .succ (fun calls => ?_) (hw.of_le hlt), (hblank.trans hbody).trans hrest, hbare⟩
      rw [hstep, ← List.dropWhile_cons_of_pos (a := ';') (by decide)]
      exact if_pos hcomment
    · exact ⟨t, .succ (fun calls => (hstep calls).trans (if_neg hcomment)) fun _ _ => rfl, hblank,
        fun c hc => ⟨hlead c hc, fun h => hcomment ⟨h.1, h.2 ▸ hc⟩⟩⟩

/-- The reading ends: with a value and a shorter end of the text, or with a fault inside it. -/
inductive Consumes (s : List Char) : Reading (Value × List Char) → Prop where
  | reads {v t} : t <:+ s → t.length < s.length → Consumes s (pure (v, t))
  | fails {fault} : fault.rest <:+ s → Consumes s (throw fault)

namespace Consumes

variable {r : Reading (Value × List Char)}

theorem of_suffix (h : Consumes t r) (hs : t <:+ s) : Consumes s r := by
  cases h with
  | reads hrest hlt => exact .reads (hrest.trans hs) (Nat.lt_of_lt_of_le hlt hs.length_le)
  | fails hrest => exact .fails (hrest.trans hs)

theorem length_lt {v : Value} (h : Consumes s r) (hr : r = pure (v, t)) : t.length < s.length := by
  cases h with
  | reads _ hlt =>
    cases hr
    exact hlt
  | fails => cases hr

end Consumes

theorem consumes_readAtomAt (s : List Char) : Consumes s (readAtomAt s) := by
  unfold readAtomAt
  dsimp only
  split
  · exact .fails (List.suffix_refl s)
  · rename_i hne
    have hpos : 0 < (s.takeWhile fun c => !isDelimiter c).length :=
      List.length_pos_iff.2 fun hnil => hne (List.isEmpty_iff.2 hnil)
    have hle : (s.takeWhile fun c => !isDelimiter c).length ≤ s.length :=
      (List.takeWhile_prefix _).length_le
    split
    · refine .reads (List.drop_suffix _ s) ?_
      rw [List.length_drop]
      omega
    · exact .fails (List.suffix_refl s)

/-- With `n` calls or more the reading comes to one result, which consumes the text. -/
def Ends (s : List Char) (n : Nat) (f : Nat → Reading (Value × List Char)) : Prop :=
  ∃ r, Settles f n r ∧ Consumes s r

namespace Ends

variable {n : Nat} {f g : Nat → Reading (Value × List Char)}

theorem consumes (h : Ends s n f) {calls : Nat} (hcalls : n ≤ calls) : Consumes s (f calls) := by
  obtain ⟨r, hr, hconsumes⟩ := h
  rwa [hr calls hcalls]

theorem const {r : Reading (Value × List Char)} (h : Consumes s r) : Ends s n fun _ => r :=
  ⟨r, fun _ _ => rfl, h⟩

theorem of_suffix (h : Ends t n f) (hs : t <:+ s) : Ends s n f := by
  obtain ⟨r, hr, hconsumes⟩ := h
  exact ⟨r, hr, hconsumes.of_suffix hs⟩

theorem of_le {m : Nat} (h : Ends s m f) (hle : m ≤ n) : Ends s n f := by
  obtain ⟨r, hr, hconsumes⟩ := h
  exact ⟨r, hr.of_le hle, hconsumes⟩

theorem succ (hf : ∀ calls, f (calls + 1) = g calls) (h : Ends s n g) : Ends s (n + 1) f := by
  obtain ⟨r, hr, hconsumes⟩ := h
  exact ⟨r, hr.succ hf, hconsumes⟩

theorem ite {c : Prop} [Decidable c] (hf : c → Ends s n f) (hg : ¬c → Ends s n g) :
    Ends s n fun calls => if c then f calls else g calls := by
  by_cases h : c
  · simp only [if_pos h]
    exact hf h
  · simp only [if_neg h]
    exact hg h

theorem bind {g : Value × List Char → Nat → Reading (Value × List Char)} (h : Ends s n f)
    (hg : ∀ v t, t <:+ s → t.length < s.length → Ends s n (g (v, t))) :
    Ends s n fun calls => f calls >>= fun p => g p calls := by
  obtain ⟨r, hr, hconsumes⟩ := h
  cases hconsumes with
  | reads hrest hlt =>
    obtain ⟨r', hr', hconsumes'⟩ := hg _ _ hrest hlt
    exact ⟨r', hr.bind hr', hconsumes'⟩
  | fails hrest => exact ⟨_, hr.bind_throw, .fails hrest⟩

theorem blank {g : List Char → Nat → Reading (Value × List Char)} (hn : s.length < n)
    (hg : ∀ t, t <:+ s → Ends t n (g t)) :
    Ends s n fun calls => skipBlank comments s calls >>= fun t => g t calls := by
  obtain ⟨t, ht, hblank, -⟩ := exists_skipBlank comments s
  obtain ⟨r, hr, hconsumes⟩ := hg t hblank.suffix
  exact ⟨r, (ht.of_le hn).bind hr, hconsumes.of_suffix hblank.suffix⟩

theorem expect {c : Char} {g : List Char → Nat → Reading (Value × List Char)}
    (hg : ∀ t, t <:+ s → t.length < s.length → Ends s n (g t)) :
    Ends s n fun calls => expect c s >>= fun t => g t calls := by
  unfold Descent.expect
  by_cases hhead : s.head? = some c
  · simp only [if_pos hhead]
    obtain ⟨t, rfl⟩ := List.head?_eq_some_iff.1 hhead
    exact hg t (List.suffix_cons c t) (Nat.lt_succ_self _)
  · simp only [if_neg hhead]
    exact .const (.fails (List.suffix_refl s))

theorem readClose {g : List Char → Nat → Reading (Value × List Char)} (hn : s.length < n)
    (hg : ∀ {t u}, u <:+ t → u.length < t.length → Ends t n (g u)) :
    Ends s n fun calls => readClose comments s calls >>= fun t => g t calls := by
  unfold Descent.readClose
  simp only [bind_assoc]
  refine .blank hn fun t ht => ?_
  by_cases hempty : t.isEmpty = true
  · simp only [if_pos hempty]
    exact .const (.fails (List.suffix_refl t))
  · simp only [if_neg hempty]
    exact .expect fun u => hg

end Ends

/-! ## Data and lists -/

/-- A datum is read with three calls for each character, and two more, at any depth. -/
def DatumEnds (config : Config) (s : List Char) : Prop :=
  ∀ depth, Ends s (3 * s.length + 2) (readDatum config depth s)

/-- The loop over the elements of a list ends: each of them takes a character or more. -/
theorem ends_readItems_of (h : ∀ t, t.length ≤ s.length → DatumEnds config t) (depth : Nat)
    (elements : List Value) : Ends s (3 * s.length + 3) (readItems config depth elements s) := by
  induction hlength : s.length using Nat.strong_induction_on generalizing s elements with
  | _ n ih =>
    refine .succ (readItems.eq_2 config depth elements s) (.blank (by omega) fun t ht => ?_)
    have hle := ht.length_le
    refine .ite (fun hclose => ?_) fun _ => .ite (fun _ => .ite (fun _ => ?_) fun _ => ?_)
      fun _ => ?_
    · obtain ⟨u, rfl⟩ := List.head?_eq_some_iff.1 hclose
      exact .const (.reads (List.suffix_cons _ u) (Nat.lt_succ_self _))
    · exact .const (.fails (List.suffix_refl t))
    · have htail := List.tail_suffix t
      have hshorter := htail.length_le
      have hdatum := h t.tail (by omega) (depth + 1)
      refine .of_suffix (.bind (hdatum.of_le (by omega)) fun v u hu _ => ?_) htail
      have hlen := hu.length_le
      exact .of_suffix (.readClose (by omega) fun hrest hlt => .const (.reads hrest hlt)) hu
    · have hdatum := h t (by omega) (depth + 1)
      refine .bind (hdatum.of_le (by omega)) fun v u hu hlt => .of_suffix ?_ hu
      have hitems := ih u.length (by omega) (fun w hw => h w (by omega)) (v :: elements) rfl
      exact hitems.of_le (by omega)

section Shorter

variable {depth : Nat} (h : ∀ t, t.length < s.length → DatumEnds config t)

include h

theorem ends_readList_of_shorter : Ends s (3 * s.length + 1) (readList config depth s) := by
  refine .succ (readList.eq_2 config depth s) (.expect fun t ht hlt => .of_suffix ?_ ht)
  have hitems := ends_readItems_of (fun u hu => h u (Nat.lt_of_le_of_lt hu hlt)) depth []
  exact hitems.of_le (by omega)

theorem ends_readQuote_of_shorter : Ends s (3 * s.length + 1) (readQuote config depth s) := by
  refine .succ (readQuote.eq_2 config depth s) (.expect fun t ht hlt => .of_suffix ?_ ht)
  exact .bind ((h t hlt _).of_le (by omega)) fun v u hu hshorter => .const (.reads hu hshorter)

end Shorter

/-- The recursion through lists, quotes and dotted tails ends: it goes on behind a character. -/
theorem datumEnds (config : Config) (s : List Char) : DatumEnds config s := by
  induction hlength : s.length using Nat.strong_induction_on generalizing s with
  | _ n ih =>
    intro depth
    refine .succ (readDatum.eq_2 config depth s) (.ite (fun _ => ?_) fun _ => ?_)
    · exact .const (.fails (List.suffix_refl s))
    · refine .blank (by omega) fun t ht => ?_
      have hle := ht.length_le
      have hshorter : ∀ u, u.length < t.length → DatumEnds config u := fun u hu =>
        ih u.length (by omega) u rfl
      refine .ite (fun _ => ?_) fun _ => .ite (fun _ => ?_) fun _ => .ite (fun _ => ?_) fun _ =>
        .ite (fun _ => ?_) fun _ => .ite (fun _ => ?_) fun _ => ?_
      · exact .const (.fails (List.suffix_refl t))
      · exact (ends_readList_of_shorter hshorter).of_le (by omega)
      · exact (ends_readQuote_of_shorter hshorter).of_le (by omega)
      · exact .const (.fails (List.suffix_refl t))
      · exact .const (.fails (List.suffix_refl t))
      · exact .const (consumes_readAtomAt t)

section

variable (config : Config) (depth : Nat) (elements : List Value) (s : List Char)

theorem ends_readDatum : Ends s (3 * s.length + 2) (readDatum config depth s) :=
  datumEnds config s depth

theorem ends_readList : Ends s (3 * s.length + 1) (readList config depth s) :=
  ends_readList_of_shorter fun t _ => datumEnds config t

theorem ends_readQuote : Ends s (3 * s.length + 1) (readQuote config depth s) :=
  ends_readQuote_of_shorter fun t _ => datumEnds config t

theorem ends_readItems : Ends s (3 * s.length + 3) (readItems config depth elements s) :=
  ends_readItems_of (fun t _ => datumEnds config t) depth elements

end

end Descent

end DynLisp.Reader
