import DynLisp.Proofs.Reading.Completion
import DynLisp.Proofs.Reading.Tokens

/-!
# Texts one after the other

A text that ends with a line and is accepted leaves nothing open: no form, no comment, no lexeme. So
a text that follows it is read as it would be by itself. Its data come after those of the first
text, and if it is refused, then for a cause of the same kind (`Config.parseAll_append`); only the
position of the fault and the piece of the input around it are others.
-/

namespace DynLisp.Reader

open Progress

namespace Progress

variable {config : Config}

/-- At the end of a text, the data that were complete before come first. -/
theorem finish_after (p : Progress) (done : List Value) (maxDepth : Nat) :
    (p.after done).finish maxDepth = (p.finish maxDepth).map (done.reverse ++ ·) := by
  obtain ⟨done', pending⟩ := p
  cases pending with
  | nil => exact congrArg Except.ok List.reverse_append
  | cons form pending =>
    have hopen : ∀ done, finish maxDepth ⟨done, form :: pending⟩ =
        .error ⟨if maxDepth ≤ pending.length + 1 then .tooDeep maxDepth else .unexpectedEnd, []⟩ :=
      fun _ => finish_of_pending (List.cons_ne_nil _ _)
    exact (hopen _).trans (congrArg (Except.map (done.reverse ++ ·)) (hopen done').symm)

/-- The end of a line completes what stands in it and adds nothing. -/
theorem read_of_read_line {p q : Progress} {s : List Char} (h : p.read config (s ++ ['\n']) = .ok q) :
    p.read config s = .ok q := by
  rw [read_append_newline] at h
  cases hs : p.read config s with
  | error fault =>
    rw [hs] at h
    cases h
  | ok p' =>
    rw [hs] at h
    exact h

end Progress

namespace Config

variable {config : Config} {text : String} {vs : List Value}

/-- All that is read of a text after an accepted one is what is read of it alone, behind the data of
the first; a fault has the same cause. -/
theorem read_append_of_parseAll (h : config.parseAll (text ++ "\n") = .ok vs) (t : String) :
    (({} : Progress).read config (text ++ "\n" ++ t).toList >>= finish config.maxDepth) =
      ((({} : Progress).read config t.toList >>= finish config.maxDepth).map (vs ++ ·)) := by
  obtain ⟨p, hread, hpending, rfl⟩ := exists_read_of_parseAll h
  obtain ⟨done, pending⟩ := p
  obtain rfl : pending = [] := hpending
  rw [String.toList_append] at hread
  have hafter : ({} : Progress).read config (text ++ "\n" ++ t).toList =
      (({} : Progress).read config t.toList).map (after done) := by
    rw [toList_line_append, read_append_newline_of_ok (read_of_read_line hread)]
    exact read_after {} done t.toList
  rw [hafter]
  cases ({} : Progress).read config t.toList with
  | error fault => rfl
  | ok q => exact finish_after q done config.maxDepth

/-- Up to the positions and contexts of errors, reading a text after an accepted one is reading it
alone. -/
theorem parseAll_append (h : config.parseAll (text ++ "\n") = .ok vs) (t : String) :
    (config.parseAll (text ++ "\n" ++ t)).mapError ReadError.kind =
      ((config.parseAll t).map (vs ++ ·)).mapError ReadError.kind := by
  have hkind : ∀ r : Except ReadError (List Value),
      (r.map (vs ++ ·)).mapError ReadError.kind = (r.mapError ReadError.kind).map (vs ++ ·) := by
    intro r
    cases r <;> rfl
  rw [hkind, mapError_kind_parseAll, mapError_kind_parseAll, read_append_of_parseAll h]
  cases ({} : Progress).read config t.toList >>= finish config.maxDepth <;> rfl

end Config

/-- Take a text that ends with a line, with all its data. Any text after it is accepted exactly if
it is accepted alone, and then its data follow those of the first text; otherwise both are refused,
with errors of one kind. -/
theorem text_after_line_reads_as_alone (config : Config) (text : String) {vs : List Value}
    (h : config.parseAll (text ++ "\n") = .ok vs) (t : String) :
    (∀ ws, config.parseAll (text ++ "\n" ++ t) = .ok (vs ++ ws) ↔ config.parseAll t = .ok ws) ∧
      ∀ e, config.parseAll t = .error e →
        ∃ e', config.parseAll (text ++ "\n" ++ t) = .error e' ∧ e'.kind = e.kind := by
  have happend := Config.parseAll_append h t
  cases ht : config.parseAll t with
  | error e =>
    rw [ht] at happend
    cases hboth : config.parseAll (text ++ "\n" ++ t) with
    | error e' =>
      rw [hboth] at happend
      refine ⟨fun ws => ⟨nofun, nofun⟩, fun _ he => ⟨e', rfl, ?_⟩⟩
      cases he
      exact Except.error.inj happend
    | ok us =>
      rw [hboth] at happend
      cases happend
  | ok ws =>
    rw [ht] at happend
    cases hboth : config.parseAll (text ++ "\n" ++ t) with
    | error e' =>
      rw [hboth] at happend
      cases happend
    | ok us =>
      rw [hboth] at happend
      obtain rfl : us = vs ++ ws := Except.ok.inj happend
      refine ⟨fun ws' => ?_, nofun⟩
      rw [Except.ok.injEq, Except.ok.injEq, List.append_cancel_left_eq]

/-- After a line with a comment at its end, a quoted symbol is read, and a list is found to be
incomplete, as they would be alone. -/
theorem quote_and_open_list_after_comment :
    ({} : Config).parseAll ("(a . b);(" ++ "\n" ++ "'c") =
        .ok ([.pair (.symbol "a") (.symbol "b")] ++ [quoted (.symbol "c")]) ∧
      ∃ e, ({} : Config).parseAll ("(a . b);(" ++ "\n" ++ "(d") = .error e ∧
        e.kind = .incomplete := by
  have h : ({} : Config).parseAll ("(a . b);(" ++ "\n") =
      .ok [.pair (.symbol "a") (.symbol "b")] := by decide +kernel
  have hquote : ({} : Config).parseAll "'c" = .ok [quoted (.symbol "c")] := by decide +kernel
  have hlist : ({} : Config).parseAll "(d" =
      .error ⟨.incomplete, "Unexpected end of input", some "(d"⟩ := by decide +kernel
  exact ⟨((text_after_line_reads_as_alone {} "(a . b);(" h "'c").1 _).2 hquote,
    (text_after_line_reads_as_alone {} "(a . b);(" h "(d").2 _ hlist⟩

end DynLisp.Reader
