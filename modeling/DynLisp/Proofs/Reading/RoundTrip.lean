import DynLisp.Proofs.Reading.Acceptance
import DynLisp.Proofs.Reading.Readable

/-!
# Reading what was printed

The printed form of a readable value is read as that value if it is nested less deep than the reader
allows, and is refused as nested too deeply otherwise (`parse_display`). A printed list is followed
along its spine: what stands after an element is `Value.tailText`, and all of it that belongs to the
list is data of the grammar (`items_tailText`) until one of them is too deep (`tooDeep_tailText`).
-/

namespace DynLisp

namespace Value

/-- How the text of a list ends, after its last element and a blank. -/
def endText : Value → List Char
  | nil => [')']
  | v => '.' :: ' ' :: (v.display.toList ++ [')'])

/-- The text of a list after an element, by the tail that follows this element. -/
def tailText : Value → List Char
  | nil => [')']
  | pair head tail => ' ' :: (head.display.toList ++ tail.tailText)
  | v => ' ' :: v.endText

theorem toList_displayItems (s : String) (tail : Value) :
    (" ".intercalate (s :: tail.displayItems) ++ tail.displayTail ++ ")").toList =
      s.toList ++ tail.tailText := by
  induction tail generalizing s with
  | pair head tail _ ih =>
    rw [displayItems, displayTail, tailText, ← ih, String.intercalate_cons_cons]
    simp only [String.toList_append, List.append_assoc]
    rfl
  | _ =>
    simp only [displayItems, displayTail, tailText, endText, display, String.intercalate_singleton,
      String.toList_append, List.append_assoc]
    rfl

/-- A printed list, as the text of its first element and what follows. -/
theorem toList_display_pair (head tail : Value) :
    (pair head tail).display.toList = '(' :: (head.display.toList ++ tail.tailText) := by
  rw [← toList_displayItems, display]
  simp only [String.toList_append, List.append_assoc]
  rfl

/-- A value that is readable, with floats that read back. -/
structure Printable (v : Value) : Prop where
  readable : v.Readable
  readsBack : ∀ x ∈ v.floats, Number.ReadsBack x

namespace Printable

theorem head {v w : Value} (h : Printable (.pair v w)) : Printable v :=
  ⟨h.readable.1, fun x hx => h.readsBack x (List.mem_append_left _ hx)⟩

theorem tail {v w : Value} (h : Printable (.pair v w)) : Printable w :=
  ⟨h.readable.2, fun x hx => h.readsBack x (List.mem_append_right _ hx)⟩

theorem rest {v : Value} (h : Printable v) : Printable v.rest := by
  induction v with
  | pair head tail _ ih => exact ih h.tail
  | _ => exact h

end Printable

end Value

namespace Reader

open Value Progress

variable {config : Config}

/-- The printed form of any other value than a list is an atom. -/
theorem atomText_of_printable {v : Value} (h : Printable v) (hlist : v.isList = false) :
    AtomText v.display.toList v := by
  cases v with
  | nil => cases hlist
  | int n => exact atomText_int n
  | float x => exact atomText_float h.readable (h.readsBack x (List.mem_singleton_self x))
  | symbol name => exact atomText_symbol h.readable
  | pair head tail => cases hlist
  | procedure formals body => exact h.readable.elim

/-- What a list ends in is no list, unless it is `()`. -/
theorem isList_rest {v : Value} (h : v.rest ≠ .nil) : v.rest.isList = false := by
  cases hrest : v.rest with
  | nil => exact (h hrest).elim
  | pair head tail => exact (rest_ne_pair v head tail hrest).elim
  | _ => rfl

theorem endsAtom_cons {c : Char} (h : isDelimiter c = true) (s : List Char) :
    EndsAtom (c :: s) := by
  intro d hd
  cases hd
  exact h

theorem endsAtom_tailText (tail : Value) (s : List Char) : EndsAtom (tail.tailText ++ s) := by
  cases tail with
  | nil => exact endsAtom_cons (c := ')') (by decide) s
  | _ => exact endsAtom_cons (c := ' ') (by decide) _

/-! ## Lists that are not too deep -/

/-- Wherever it is not too deep, the printed value is a datum. -/
def Prints (config : Config) (v : Value) : Prop :=
  ∀ depth s, depth + v.nest < config.maxDepth → EndsAtom s →
    Datum config depth (v.display.toList ++ s) s v

/-- Wherever it is not too deep, what follows an element is the data of its tail, and an end. -/
def PrintsTail (config : Config) (tail : Value) : Prop :=
  ∀ depth s, depth + tail.nest < config.maxDepth →
    ∃ t, Blank config.comments (tail.tailText ++ s) t ∧
      Items config (depth + 1) t (tail.rest.endText ++ s) tail.items

theorem prints_atom {v : Value} (h : Printable v) (hlist : v.isList = false) : Prints config v := by
  intro depth s hdepth hs
  obtain ⟨hne, hdelimiter, hatom⟩ := atomText_of_printable h hlist
  exact .atom (Nat.lt_of_le_of_lt (Nat.le_add_right _ _) hdepth) hne
    (forall_not_delimiter_iff.1 hdelimiter) (endsAtom_iff.1 hs) hatom

theorem prints_nil : Prints config .nil := by
  intro depth s hdepth _
  exact .list hdepth (.done _) .nil

theorem printsTail_of_not_pair {tail : Value} (h : ∀ head tail', tail ≠ .pair head tail') :
    PrintsTail config tail := by
  intro depth s _
  cases tail with
  | nil => exact ⟨_, .done _, .nil⟩
  | pair head tail' => exact (h head tail' rfl).elim
  | _ => exact ⟨_, .char (.inl rfl) (.done _), .nil⟩

theorem items_pair {head tail : Value} (hhead : Prints config head) (htail : PrintsTail config tail)
    {depth : Nat} (s : List Char) (hdepth : depth + (Value.pair head tail).nest < config.maxDepth) :
    Items config (depth + 1) (head.display.toList ++ (tail.tailText ++ s)) (tail.rest.endText ++ s)
      (head :: tail.items) := by
  rw [nest] at hdepth
  obtain ⟨t, hblank, hitems⟩ := htail depth s (by omega)
  exact .cons (hhead (depth + 1) _ (by omega) (endsAtom_tailText tail s)) hblank hitems

theorem printsTail_pair {head tail : Value} (hhead : Prints config head)
    (htail : PrintsTail config tail) : PrintsTail config (.pair head tail) := by
  intro depth s hdepth
  refine ⟨_, .char (.inl rfl) (.done _), ?_⟩
  show Items config (depth + 1) ((head.display.toList ++ tail.tailText) ++ s) _ _
  rw [List.append_assoc]
  exact items_pair hhead htail s hdepth

/-- A tail that is an atom stands after a dot. -/
theorem endText_of_ne_nil {v : Value} (h : v ≠ .nil) (s : List Char) :
    v.endText ++ s = '.' :: ' ' :: (v.display.toList ++ ')' :: s) := by
  cases v with
  | nil => exact (h rfl).elim
  | _ => exact congrArg (fun t => '.' :: ' ' :: t) (List.append_assoc _ [')'] s)

theorem prints_pair {head tail : Value} (h : Printable tail) (hhead : Prints config head)
    (htail : PrintsTail config tail) : Prints config (.pair head tail) := by
  intro depth s hdepth hs
  have hitems := items_pair hhead htail s hdepth
  have hlist : Value.ofListTail (head :: tail.items) tail.rest = .pair head tail :=
    ofListTail_items_rest (.pair head tail)
  rw [nest] at hdepth
  rw [toList_display_pair, List.cons_append, List.append_assoc, ← hlist]
  by_cases hproper : tail.rest = .nil
  · rw [hproper] at hitems ⊢
    exact .list (by omega) (.done _) hitems
  · have hatom : tail.rest.isList = false := isList_rest hproper
    have hnest : tail.rest.nest = 0 := nest_of_not_pair (rest_ne_pair tail)
    have hrest : Datum config (depth + 1) (tail.rest.display.toList ++ ')' :: s) (')' :: s)
        tail.rest :=
      prints_atom h.rest hatom _ _ (by omega) (endsAtom_cons (by decide) s)
    rw [endText_of_ne_nil hproper] at hitems
    exact .dotted (by omega) (.done _) hitems (List.cons_ne_nil _ _)
      (endsAtom_iff.1 (endsAtom_cons (by decide) _)) (.char (.inl rfl) (.done _)) hrest (.done _)

/-- Values that are not too deep are data where they are printed. -/
theorem prints_of_printable (config : Config) {v : Value} (h : Printable v) :
    Prints config v ∧ PrintsTail config v := by
  induction v with
  | nil => exact ⟨prints_nil, printsTail_of_not_pair nofun⟩
  | pair head tail ihhead ihtail =>
    obtain ⟨hhead, -⟩ := ihhead h.head
    obtain ⟨-, htail⟩ := ihtail h.tail
    exact ⟨prints_pair h.tail hhead htail, printsTail_pair hhead htail⟩
  | _ => exact ⟨prints_atom h rfl, printsTail_of_not_pair nofun⟩

/-! ## Lists that are too deep -/

/-- The reader stops here, as the text is nested too deeply. -/
def StopsTooDeep (config : Config) (pending : List Pending) (s : List Char) : Prop :=
  ∃ t, readOne config.maxDepth ⟨[], pending⟩ (lexemes config.comments s) =
    .error ⟨.tooDeep config.maxDepth, t⟩

/-- Wherever it is too deep, the printed value stops the reader. -/
def Stops (config : Config) (v : Value) : Prop :=
  ∀ pending s, Awaits pending → config.maxDepth ≤ pending.length + v.nest → EndsAtom s →
    StopsTooDeep config pending (v.display.toList ++ s)

/-- Wherever an element of it is too deep, the tail of a list stops the reader. -/
def StopsTail (config : Config) (tail : Value) : Prop :=
  ∀ pending elements s, pending.length < config.maxDepth →
    config.maxDepth ≤ pending.length + tail.nest →
      StopsTooDeep config (.list elements :: pending) (tail.tailText ++ s)

/-- Where nothing may begin any more. -/
theorem stopsTooDeep_of_le {v : Value} (h : Printable v) {pending : List Pending}
    (hawaits : Awaits pending) (hdepth : config.maxDepth ≤ pending.length) {s : List Char}
    (hs : EndsAtom s) : StopsTooDeep config pending (v.display.toList ++ s) := by
  -- With more depth allowed the value would be read here, so it begins with a lexeme of a datum.
  have hprints := (prints_of_printable { config with maxDepth := v.nest + 1 } h).1
  obtain ⟨l, hstart, hl, hclose, hdot⟩ :=
    (hprints 0 s (show 0 + v.nest < v.nest + 1 by omega) hs).first
  have hdeep : datum config.maxDepth ⟨[], pending⟩ l = .error ⟨.tooDeep config.maxDepth, l.start⟩ :=
    if_pos hdepth
  refine ⟨l.start, ?_⟩
  rw [← hstart, lexemes_of_spelled hl, readOne_cons (isSingle_nil _),
    step_datum hawaits hclose hdot, hdeep]
  rfl

theorem stopsTail_of_not_pair {tail : Value} (h : tail.nest = 0) : StopsTail config tail := by
  intro pending elements s hdepth hdeep
  omega

theorem stopsTail_pair {head tail : Value} (h : Prints config head) (hhead : Stops config head)
    (htail : StopsTail config tail) : StopsTail config (.pair head tail) := by
  intro pending elements s hdepth hdeep
  have hblank : Blank config.comments ((Value.pair head tail).tailText ++ s)
      (head.display.toList ++ (tail.tailText ++ s)) := by
    rw [← List.append_assoc]
    exact .char (.inl rfl) (.done _)
  rw [nest] at hdeep
  unfold StopsTooDeep
  rw [lexemes_of_blank hblank]
  by_cases hfirst : config.maxDepth ≤ pending.length + 1 + head.nest
  · exact hhead (.list elements :: pending) _ (.list _ _) hfirst (endsAtom_tailText tail s)
  · have hdatum := h (pending.length + 1) (tail.tailText ++ s) (by omega) (endsAtom_tailText tail s)
    rw [readOne_of_datum hdatum (.list elements pending) rfl]
    exact htail pending (head :: elements) s hdepth (by omega)

theorem stops_pair {head tail : Value} (h : Printable (.pair head tail))
    (htail : StopsTail config (.pair head tail)) : Stops config (.pair head tail) := by
  intro pending s hawaits hdeep hs
  by_cases hdepth : pending.length < config.maxDepth
  · obtain ⟨t, ht⟩ := htail pending [] s hdepth hdeep
    have hblank : Blank config.comments ((Value.pair head tail).tailText ++ s)
        ((head.display.toList ++ tail.tailText) ++ s) := .char (.inl rfl) (.done _)
    rw [lexemes_of_blank hblank] at ht
    refine ⟨t, ?_⟩
    rw [toList_display_pair, List.cons_append]
    exact (readOne_of_datum_step (.openParen _) hawaits nofun nofun (datum_eq hdepth [] _)).trans ht
  · exact stopsTooDeep_of_le h hawaits (Nat.le_of_not_lt hdepth) hs

theorem stops_of_printable {v : Value} (h : Printable v) : Stops config v ∧ StopsTail config v := by
  induction v with
  | pair head tail ihhead ihtail =>
    have htail := stopsTail_pair (prints_of_printable config h.head).1 (ihhead h.head).1
      (ihtail h.tail).2
    exact ⟨stops_pair h htail, htail⟩
  | _ =>
    exact ⟨fun pending s hawaits hdeep hs => stopsTooDeep_of_le h hawaits hdeep hs,
      stopsTail_of_not_pair rfl⟩

/-! ## What the reader returns -/

/-- A list is readable and not too deep if its elements and its tail are. -/
theorem readable_ofListTail {n depth : Nat} {vs : List Value} {tail : Value}
    (h : ∀ v ∈ vs, v.Readable ∧ depth + 1 + v.nest < n) (htail : tail.Readable)
    (hdepth : depth + tail.nest < n) :
    (ofListTail vs tail).Readable ∧ depth + (ofListTail vs tail).nest < n := by
  induction vs with
  | nil => exact ⟨htail, hdepth⟩
  | cons v vs ih =>
    obtain ⟨⟨hreadable, hnest⟩, hvs⟩ := List.forall_mem_cons.1 h
    obtain ⟨hreadable', hnest'⟩ := ih hvs
    refine ⟨⟨hreadable, hreadable'⟩, ?_⟩
    rw [ofListTail_cons, nest]
    omega

theorem mem_floats_ofListTail {vs : List Value} {tail : Value} {x : Float} :
    x ∈ (ofListTail vs tail).floats ↔ (∃ v ∈ vs, x ∈ v.floats) ∨ x ∈ tail.floats := by
  induction vs with
  | nil => exact (or_iff_right fun ⟨_, hv, _⟩ => nomatch hv).symm
  | cons v vs ih =>
    rw [ofListTail_cons, floats, List.mem_append, ih]
    simp only [List.mem_cons, or_and_right, exists_or, exists_eq_left, or_assoc]

/-- Names that are read as symbols are readable. -/
theorem readable_of_atom {text : List Char} {v : Value} (hne : text ≠ [])
    (htext : ∀ c ∈ text, isDelimiter c = false) (h : Atom text v)
    (hv : ∀ x ∈ v.floats, Number.IsIntegral x) : v.Readable ∧ v.nest = 0 := by
  cases h with
  | integer => exact ⟨trivial, rfl⟩
  | float => exact ⟨hv _ (List.mem_singleton_self _), rfl⟩
  | symbol hnumeric hdot =>
    have hname : ReadableName (String.ofList text) := by
      constructor <;> rw [String.toList_ofList]
      · exact hne
      · exact htext
      · exact hdot
      · exact looksNumeric_eq_false_iff.2 hnumeric
    exact ⟨hname, rfl⟩

mutual

/-- A datum whose floats are integral is readable, and not too deep. -/
theorem readable_of_datum {depth : Nat} {s t : List Char} {v : Value} :
    Datum config depth s t v → (∀ x ∈ v.floats, Number.IsIntegral x) →
      v.Readable ∧ depth + v.nest < config.maxDepth
  | .atom hdepth hne htext _ hatom, hv => by
    obtain ⟨hreadable, hnest⟩ :=
      readable_of_atom hne (forall_not_delimiter_iff.2 htext) hatom hv
    exact ⟨hreadable, hnest ▸ hdepth⟩
  | @Datum.quote _ _ _ _ _ v hdepth _ hdatum, hv => by
    change ∀ x ∈ (ofListTail [.symbol "quote", v] .nil).floats, _ at hv
    have hquoted := readable_of_datum hdatum fun x hx => hv x
      (mem_floats_ofListTail.2 (.inl ⟨_, List.mem_cons_of_mem _ (List.mem_singleton_self _), hx⟩))
    have hname : ReadableName "quote" := by decide +kernel
    have hquote : (Value.symbol "quote").Readable ∧
        depth + 1 + (Value.symbol "quote").nest < config.maxDepth :=
      ⟨hname, Nat.lt_of_le_of_lt (Nat.le_add_right _ _) hquoted.2⟩
    exact readable_ofListTail (List.forall_mem_cons.2 ⟨hquote, List.forall_mem_singleton.2 hquoted⟩)
      trivial hdepth
  | .list hdepth _ hitems, hv =>
    readable_ofListTail (readable_of_items hitems fun v hvs x hx =>
      hv x (mem_floats_ofListTail.2 (.inl ⟨v, hvs, hx⟩))) trivial hdepth
  | .dotted _ _ hitems _ _ _ hdatum _, hv => by
    obtain ⟨htail, hdepth⟩ := readable_of_datum hdatum fun x hx =>
      hv x (mem_floats_ofListTail.2 (.inr hx))
    refine readable_ofListTail (readable_of_items hitems fun v hvs x hx => ?_) htail (by omega)
    exact hv x (mem_floats_ofListTail.2 (.inl ⟨v, hvs, hx⟩))

/-- So are data one after the other. -/
theorem readable_of_items {depth : Nat} {s t : List Char} {vs : List Value} :
    Items config depth s t vs → (∀ v ∈ vs, ∀ x ∈ v.floats, Number.IsIntegral x) →
      ∀ v ∈ vs, v.Readable ∧ depth + v.nest < config.maxDepth
  | .nil, _ => nofun
  | .cons hdatum _ hitems, hvs =>
    List.forall_mem_cons.2 ⟨readable_of_datum hdatum (hvs _ List.mem_cons_self),
      readable_of_items hitems fun v hv => hvs v (List.mem_cons_of_mem _ hv)⟩

end

/-- Reading undoes printing. A printable value is read as that value if it is nested less deep than
the reader allows; otherwise it is refused as nested too deeply. What the reader returns is
printable, if its floats are integral, and nested less deep, so that it is read again. -/
theorem parse_display (config : Config) :
    (∀ v : Value, v.Readable → (∀ x ∈ v.floats, Number.ReadsBack x) →
      if v.nest < config.maxDepth then config.parse v.display = .ok v
      else ∃ e, config.parse v.display = .error e ∧ e.kind = .tooDeeplyNested) ∧
    ∀ text v, config.parse text = .ok v → (∀ x ∈ v.floats, Number.IsIntegral x) →
      v.Readable ∧ ((∀ x ∈ v.floats, Number.ReadsBack x) → config.parse v.display = .ok v) := by
  have hprinted : ∀ v, Printable v → v.nest < config.maxDepth → config.parse v.display = .ok v := by
    intro v hv hnest
    have hdatum := (prints_of_printable config hv).1 0 [] (by omega) nofun
    rw [List.append_nil] at hdatum
    exact parse_of_derives ⟨_, _, .done _, hdatum, .done _⟩
  constructor
  · intro v hreadable hfloats
    split
    · rename_i hnest
      exact hprinted v ⟨hreadable, hfloats⟩ hnest
    · rename_i hnest
      obtain ⟨t, ht⟩ := (stops_of_printable ⟨hreadable, hfloats⟩).1 [] [] .nil
        (show config.maxDepth ≤ 0 + v.nest by omega) nofun
      rw [List.append_nil] at ht
      refine ⟨(⟨.tooDeep config.maxDepth, t⟩ : Fault).toError v.display.toList, ?_, rfl⟩
      simp only [Config.parse]
      rw [show Progress.readOne config.maxDepth {} (lexemes config.comments v.display.toList) = _
        from ht]
  · intro text v hparse hfloats
    obtain ⟨s, t, -, hdatum, -⟩ := derives_of_parse hparse
    obtain ⟨hreadable, hnest⟩ := readable_of_datum hdatum hfloats
    exact ⟨hreadable, fun hreads => hprinted v ⟨hreadable, hreads⟩ (by omega)⟩

/-- `(a (2.0 . -0.0) () . 7)`. -/
def mixedList : Value :=
  .ofListTail [.symbol "a", .pair (.float 2.0) (.float (-0.0)), .nil] (.int 7)

theorem parse_display_mixedList :
    ({ maxDepth := 3 } : Config).parse mixedList.display = .ok mixedList ∧
      ∃ e, ({ maxDepth := 2 } : Config).parse mixedList.display = .error e ∧
        e.kind = .tooDeeplyNested := by
  have hname : ReadableName "a" := by decide +kernel
  have htwo : Number.IsIntegral 2.0 :=
    ⟨false, 4503599627370496, -51, by decide +kernel, by decide +kernel⟩
  have hzero : Number.IsIntegral (-0.0) := ⟨true, 0, -1074, by decide +kernel, by decide +kernel⟩
  have hreadable : mixedList.Readable := ⟨hname, ⟨htwo, hzero⟩, trivial, trivial⟩
  have htwo' : Number.ReadsBack 2.0 := @Number.readsBack_of_ofChars? _
    ⟨false, ['2'], ['0'], 0, false⟩ (by decide +kernel) (by decide +kernel)
  have hzero' : Number.ReadsBack (-0.0) := @Number.readsBack_of_ofChars? _
    ⟨true, ['0'], ['0'], 0, false⟩ (by decide +kernel) (by decide +kernel)
  have hfloats : ∀ x ∈ mixedList.floats, Number.ReadsBack x :=
    List.forall_mem_cons.2 ⟨htwo', List.forall_mem_singleton.2 hzero'⟩
  exact ⟨(parse_display { maxDepth := 3 }).1 mixedList hreadable hfloats,
    (parse_display { maxDepth := 2 }).1 mixedList hreadable hfloats⟩

end Reader

end DynLisp
