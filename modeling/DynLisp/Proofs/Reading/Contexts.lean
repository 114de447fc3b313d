import DynLisp.Proofs.Reading.Positions

/-!
# The piece of the input around an error

The context of an error is a piece of the input with marks for what is left out (`Excerpt`). What
it has to do to show a fault is in `Excerpt.Shows`. The position of a fault is in bytes, but where
the piece is cut out it is taken for a number of characters, so behind characters of several bytes
the piece begins too late. `shows_iff` says when this does no harm, and `context_shows_fault_iff`
says it for every error that has a context.
-/

namespace DynLisp.Reader

/-- A piece of an input, what stands before and after it, and whether there are marks for that. -/
structure Excerpt where
  before : List Char
  piece : List Char
  after : List Char
  markBefore : Bool
  markAfter : Bool
deriving DecidableEq

namespace Excerpt

variable {x : Excerpt} {input : List Char} {q : Nat}

/-- The excerpt in the form in which it is shown. -/
def shown (x : Excerpt) : String :=
  String.ofList ((ellipsis x.markBefore ++ x.piece ++ ellipsis x.markAfter).flatMap showLineEnd)

/-- The excerpt shows a fault that has `q` characters of the input before it: the fault is in the
piece, at most 20 characters behind its beginning, and the marks are where input is left out. -/
structure Shows (x : Excerpt) (input : List Char) (q : Nat) : Prop where
  append_eq : x.before ++ x.piece ++ x.after = input
  length_piece_le : x.piece.length ≤ 100
  before_le : x.before.length ≤ q
  le_before : q ≤ x.before.length + 20
  /-- The piece has the character at the fault, or goes on to the end if the fault is there. -/
  reaches : q < x.before.length + x.piece.length ∨ q = input.length ∧ x.after = []
  markBefore_iff : x.markBefore = true ↔ x.before ≠ []
  markAfter_iff : x.markAfter = true ↔ x.after ≠ []

/-- The character at the fault is in the piece. -/
theorem Shows.mem_piece (h : x.Shows input q) (hq : q < input.length) : input[q] ∈ x.piece := by
  have hreaches : q < x.before.length + x.piece.length := by
    rcases h.reaches with hlt | ⟨heq, -⟩
    · exact hlt
    · exact absurd heq (Nat.ne_of_lt hq)
  have hpiece : input[q]? = x.piece[q - x.before.length]? := by
    rw [← h.append_eq, List.append_assoc, List.getElem?_append_right h.before_le,
      List.getElem?_append_left (Nat.sub_lt_left_of_lt_add h.before_le hreaches)]
  rw [List.getElem?_eq_getElem hq] at hpiece
  exact List.mem_of_getElem? hpiece.symm

/-- What is shown has all characters of the piece but the ends of lines. -/
theorem mem_toList_shown {c : Char} (hc : c ∈ x.piece) (hend : showLineEnd c = [c]) :
    c ∈ x.shown.toList := by
  rw [shown, String.toList_ofList, List.mem_flatMap]
  refine ⟨c, List.mem_append_left _ (List.mem_append_right _ hc), ?_⟩
  rw [hend]
  exact List.mem_singleton_self c

end Excerpt

/-- What is cut out for the context of a fault at a position. -/
def excerptAt (input : List Char) (position : Nat) : Excerpt :=
  let start := position - contextBefore
  let piece := (input.drop start).take contextLength
  { before := input.take start
    piece
    after := (input.drop start).drop contextLength
    markBefore := 0 < start
    markAfter := start + byteCount piece < byteCount input }

theorem contextAt_eq (input : List Char) (position : Nat) :
    contextAt input position = (excerptAt input position).shown := by
  unfold contextAt excerptAt Excerpt.shown
  dsimp only

/-! ## Bytes and characters -/

theorem length_le_byteCount (s : List Char) : s.length ≤ byteCount s := by
  induction s with
  | nil => exact Nat.le_refl 0
  | cons c s ih =>
    have hc := c.utf8Size_pos
    simp only [List.length_cons, byteCount_cons]
    omega

/-- A text has as many bytes as characters exactly if each character has one byte. -/
theorem byteCount_eq_length_iff {s : List Char} :
    byteCount s = s.length ↔ ∀ c ∈ s, c.utf8Size = 1 := by
  induction s with
  | nil => simp
  | cons c s ih =>
    have hc := c.utf8Size_pos
    have hs := length_le_byteCount s
    rw [List.forall_mem_cons, ← ih, byteCount_cons, List.length_cons]
    omega

/-! ## What is cut out -/

section Lengths

variable (input : List Char) (position : Nat)

theorem append_excerptAt :
    (excerptAt input position).before ++ (excerptAt input position).piece ++
      (excerptAt input position).after = input := by
  simp only [excerptAt, List.append_assoc, List.take_append_drop]

theorem length_before_excerptAt :
    (excerptAt input position).before.length = min (position - 20) input.length :=
  List.length_take

theorem length_piece_excerptAt :
    (excerptAt input position).piece.length = min 100 (input.length - (position - 20)) := by
  simp only [excerptAt, contextBefore, contextLength, List.length_take, List.length_drop]

theorem after_excerptAt_ne_nil_iff :
    (excerptAt input position).after ≠ [] ↔ position - 20 + 100 < input.length := by
  have hlength : (excerptAt input position).after.length =
      input.length - (position - 20) - 100 := by
    simp only [excerptAt, contextBefore, contextLength, List.length_drop]
  rw [← List.length_pos_iff, hlength]
  omega

theorem byteCount_excerptAt :
    byteCount (excerptAt input position).before + byteCount (excerptAt input position).piece +
      byteCount (excerptAt input position).after = byteCount input := by
  rw [← byteCount_append, ← byteCount_append, append_excerptAt]

theorem markBefore_excerptAt :
    (excerptAt input position).markBefore = true ↔ 0 < position - 20 :=
  decide_eq_true_iff

theorem markAfter_excerptAt :
    (excerptAt input position).markAfter = true ↔
      position - 20 + byteCount (excerptAt input position).piece < byteCount input :=
  decide_eq_true_iff

end Lengths

/-! ## When the fault is shown -/

section Showing

variable {input : List Char} {position q : Nat}

/-- The mark behind the piece is right if what stands before the piece has no more bytes than
characters, and where it has more, if there is something to mark. -/
theorem markAfter_right_iff (h : position - 20 ≤ input.length) :
    ((excerptAt input position).markAfter = true ↔ (excerptAt input position).after ≠ []) ↔
      byteCount (excerptAt input position).before = (excerptAt input position).before.length ∨
        (excerptAt input position).after ≠ [] := by
  have hlength : (excerptAt input position).before.length = position - 20 :=
    (length_before_excerptAt input position).trans (Nat.min_eq_left h)
  have hbefore := length_le_byteCount (excerptAt input position).before
  rw [markAfter_excerptAt, ← byteCount_excerptAt input position, ← hlength]
  by_cases hafter : (excerptAt input position).after = []
  · rw [hafter, byteCount_nil]
    simp only [ne_eq, not_true_eq_false, iff_false, or_false]
    omega
  · have hbytes : 0 < byteCount (excerptAt input position).after :=
      Nat.lt_of_lt_of_le (List.length_pos_iff.2 hafter) (length_le_byteCount _)
    exact iff_of_true (iff_of_true (by omega) hafter) (.inr hafter)

/-- A piece that begins behind the end of the input has a mark behind it, for nothing. -/
theorem le_length_of_markAfter (hposition : position ≤ byteCount input)
    (h : (excerptAt input position).markAfter = true → (excerptAt input position).after ≠ []) :
    position - 20 ≤ input.length := by
  rw [markAfter_excerptAt, after_excerptAt_ne_nil_iff] at h
  by_contra hlt
  have hpiece : byteCount (excerptAt input position).piece = 0 := by
    rw [List.eq_nil_of_length_eq_zero ((length_piece_excerptAt input position).trans (by omega)),
      byteCount_nil]
  omega

/-- A fault with `q` characters before it is shown exactly if its position is at most 20 more, and
the mark behind the piece is right. -/
theorem shows_excerptAt_iff (hq : q ≤ position) (hinput : q ≤ input.length)
    (hposition : position ≤ byteCount input) :
    (excerptAt input position).Shows input q ↔
      position ≤ q + 20 ∧
        (byteCount (excerptAt input position).before = (excerptAt input position).before.length ∨
          (excerptAt input position).after ≠ []) := by
  have hbefore := length_before_excerptAt input position
  constructor
  · intro h
    have hle : position - 20 ≤ input.length :=
      le_length_of_markAfter hposition h.markAfter_iff.1
    refine ⟨?_, (markAfter_right_iff hle).1 h.markAfter_iff⟩
    have hnear := h.before_le
    omega
  · rintro ⟨hnear, hmark⟩
    have hpiece := length_piece_excerptAt input position
    have hafter := after_excerptAt_ne_nil_iff input position
    refine ⟨append_excerptAt input position, by omega, by omega, by omega, ?_, ?_, ?_⟩
    · rcases Nat.lt_or_eq_of_le hinput with hlt | heq
      · exact .inl (by omega)
      · refine .inr ⟨heq, ?_⟩
        by_contra hne
        have hlong := hafter.1 hne
        omega
    · rw [markBefore_excerptAt, ← List.length_pos_iff]
      omega
    · exact (markAfter_right_iff (Nat.le_trans (by omega) hinput)).2 hmark

end Showing

/-- Before the first character of several bytes, bytes and characters are counted alike. -/
theorem le_length_of_one_byte {front rest : List Char} {n : Nat} (hn : n ≤ byteCount front)
    (hone : ∀ c ∈ (front ++ rest).take n, c.utf8Size = 1) : n ≤ front.length := by
  by_contra hlt
  have hfront : ∀ c ∈ front, c.utf8Size = 1 := by
    intro c hc
    refine hone c ?_
    rw [List.take_append, List.take_of_length_le (Nat.le_of_not_le hlt)]
    exact List.mem_append_left _ hc
  have hcount : byteCount front = front.length := byteCount_eq_length_iff.2 hfront
  omega

/-- The fault is shown exactly if every character before the piece has one byte, or if there are at
most 20 bytes more than characters before the fault and input is left out behind the piece. -/
theorem shows_iff (front rest : List Char) :
    (excerptAt (front ++ rest) (byteCount front)).Shows (front ++ rest) front.length ↔
      (∀ c ∈ (front ++ rest).take (byteCount front - 20), c.utf8Size = 1) ∨
        byteCount front ≤ front.length + 20 ∧ byteCount front + 80 < (front ++ rest).length := by
  have hbefore : (excerptAt (front ++ rest) (byteCount front)).before =
      (front ++ rest).take (byteCount front - 20) := rfl
  have hlength : front.length ≤ (front ++ rest).length := by
    rw [List.length_append]
    exact Nat.le_add_right _ _
  have hbytes : byteCount front ≤ byteCount (front ++ rest) := by
    rw [byteCount_append]
    exact Nat.le_add_right _ _
  rw [shows_excerptAt_iff (length_le_byteCount front) hlength hbytes, byteCount_eq_length_iff,
    after_excerptAt_ne_nil_iff, hbefore]
  by_cases hshort : byteCount front ≤ 20
  · have hone : ∀ c ∈ (front ++ rest).take (byteCount front - 20), c.utf8Size = 1 := by
      rw [Nat.sub_eq_zero_of_le hshort, List.take_zero]
      exact nofun
    exact iff_of_true ⟨by omega, .inl hone⟩ (.inl hone)
  · constructor
    · rintro ⟨hnear, hone | hlong⟩
      · exact .inl hone
      · exact .inr ⟨hnear, by omega⟩
    · rintro (hone | ⟨hnear, hlong⟩)
      · have hle : byteCount front - 20 ≤ front.length :=
          le_length_of_one_byte (Nat.sub_le _ _) hone
        exact ⟨by omega, .inl hone⟩
      · exact ⟨hnear, .inr (by omega)⟩

/-- Every error with a context tells of a fault in the text, with the number of bytes before it as
its position, and the context is what is cut out there. It shows the fault exactly if every
character before the piece has one byte, or if the position is at most 20 more than the number of
characters before the fault and the text is more than 80 characters longer than the position. -/
theorem context_shows_fault_iff (config : Config) (text : String) (e : ReadError) (context : String)
    (h : config.parse text = .error e ∨ config.parseAll text = .error e)
    (hcontext : e.context = some context) :
    ∃ cause front rest, text.toList = front ++ rest ∧
      e = (⟨cause, rest⟩ : Fault).toError text.toList ∧
      (⟨cause, rest⟩ : Fault).position text.toList = byteCount front ∧
      context = (excerptAt text.toList (byteCount front)).shown ∧
      ((excerptAt text.toList (byteCount front)).Shows text.toList front.length ↔
        (∀ c ∈ text.toList.take (byteCount front - 20), c.utf8Size = 1) ∨
          byteCount front ≤ front.length + 20 ∧ byteCount front + 80 < text.toList.length) := by
  have htells : e.Tells text.toList := by
    rcases h with hparse | hparseAll
    · rcases Config.tells_of_parse hparse with rfl | htells
      · cases hcontext
      · exact htells
    · exact Config.tells_of_parseAll hparseAll
  obtain ⟨cause, front, rest, htext, rfl⟩ := htells
  rw [htext] at hcontext ⊢
  have hposition := Fault.position_eq cause front rest
  refine ⟨cause, front, rest, rfl, rfl, hposition, ?_, shows_iff front rest⟩
  have hcut :
      contextAt (front ++ rest) ((⟨cause, rest⟩ : Fault).position (front ++ rest)) = context :=
    Option.some.inj hcontext
  rw [← hcut, hposition, contextAt_eq]

/-- The context begins 20 characters before a parenthesis too many, and shows it. -/
theorem context_shows_surplus_parenthesis :
    ({} : Config).parseAll "(define (f) (quote ()))\r\n\t) ; done" = .error
        ⟨.invalidSyntax, "Unexpected ') ; done' at position 26",
          some "[...]e (f) (quote ()))\\n\t) ; done"⟩ ∧
      ∃ front rest, "(define (f) (quote ()))\r\n\t) ; done".toList = front ++ rest ∧
        "[...]e (f) (quote ()))\\n\t) ; done" =
            (excerptAt (front ++ rest) (byteCount front)).shown ∧
          (excerptAt (front ++ rest) (byteCount front)).Shows (front ++ rest) front.length := by
  have h : ({} : Config).parseAll "(define (f) (quote ()))\r\n\t) ; done" = .error
      ⟨.invalidSyntax, "Unexpected ') ; done' at position 26",
        some "[...]e (f) (quote ()))\\n\t) ; done"⟩ := by
    decide +kernel
  have hone : ∀ c ∈ "(define (f) (quote ()))\r\n\t) ; done".toList, c.utf8Size = 1 :=
    byteCount_eq_length_iff.1 (by decide +kernel)
  obtain ⟨cause, front, rest, htext, -, -, hshown, hiff⟩ :=
    context_shows_fault_iff {} "(define (f) (quote ()))\r\n\t) ; done" _ _ (.inr h) rfl
  rw [htext] at hone hshown hiff
  refine ⟨h, front, rest, htext, hshown, hiff.2 (.inl fun c hc => ?_)⟩
  exact hone c (List.mem_of_mem_take hc)

/-- A symbol of 41 characters with two bytes each, and a parenthesis too many behind it. Nothing of
the text is in the context, though all that shows the fault has the parenthesis in it. -/
theorem context_behind_long_symbol_is_empty :
    ({} : Config).parseAll "ééééééééééééééééééééééééééééééééééééééééé)" =
        .error ⟨.invalidSyntax, "Unexpected ')' at position 82", some "[...][...]"⟩ ∧
      ∀ x : Excerpt, x.Shows "ééééééééééééééééééééééééééééééééééééééééé)".toList 41 →
        x.shown ≠ "[...][...]" := by
  refine ⟨by decide +kernel, fun x hx hshown => ?_⟩
  have hmem : ')' ∈ x.shown.toList :=
    Excerpt.mem_toList_shown (hx.mem_piece (by decide +kernel)) rfl
  rw [hshown] at hmem
  exact absurd hmem (by decide)

end DynLisp.Reader
