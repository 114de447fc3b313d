import DynLisp.Proofs.Reading.Completion

/-!
# Errors that more text cannot mend

Text is read line by line; what a lexeme of a line makes impossible, later lines do not make
possible. So a text that ends with a line and is not refused as incomplete is refused whatever
follows it, with one exception: at the greatest depth the depth is checked before it is seen that
nothing is there, and a list that was opened there and could end at once is refused as too deep
(`EndsAtLimit`). Texts that end so are exactly those that are refused for good although they could
be completed (`error_is_final_iff`).
-/

namespace DynLisp.Reader

open Progress

/-- The text ends inside a list at the greatest depth that has no element yet. -/
def EndsAtLimit (config : Config) (text : String) : Prop :=
  ∃ done pending, ({} : Progress).read config text.toList = .ok ⟨done, .list [] :: pending⟩ ∧
    pending.length + 1 = config.maxDepth

variable {config : Config} {text : String}

/-- A lexeme that cannot stand where it stands is not made possible by what follows its line. -/
theorem parseAll_error_of_read {fault : Fault}
    (hread : ({} : Progress).read config (text ++ "\n").toList = .error fault) (t : String) :
    ∃ e, config.parseAll (text ++ "\n" ++ t) = .error e := by
  have hline : (text ++ "\n").toList = text.toList ++ '\n' :: [] := String.toList_append
  rw [hline, read_append_newline] at hread
  rw [Config.parseAll_eq_read, toList_line_append, read_append_newline]
  cases htext : ({} : Progress).read config text.toList with
  | error fault => exact ⟨_, rfl⟩
  | ok p =>
    rw [htext] at hread
    cases hread

/-- Where forms are open and the text is not refused as incomplete, the greatest depth is reached by
a list without elements. -/
theorem endsAtLimit_of_depth {p : Progress}
    (hread : ({} : Progress).read config text.toList = .ok p) (hpending : p.pending ≠ [])
    (hdepth : config.maxDepth ≤ p.depth) : EndsAtLimit config text := by
  have hnested : WellNested config.maxDepth p := (wellNested_start _).read hread
  have hlimit : p.depth = config.maxDepth := Nat.le_antisymm hnested.depth_le hdepth
  obtain ⟨done, pending⟩ := p
  rcases hnested.atLimit hlimit with hnil | ⟨pending', hlist⟩
  · exact (hpending hnil).elim
  · obtain rfl : pending = .list [] :: pending' := hlist
    exact ⟨done, pending', hread, hlimit⟩

/-- A text that ends with a line, and that is refused otherwise than as incomplete, is refused
whatever follows, exactly if it does not end in a list without elements at the greatest depth. -/
theorem error_is_final_iff (config : Config) (text : String) (e : ReadError)
    (h : config.parseAll (text ++ "\n") = .error e) (hkind : e.kind ≠ .incomplete) :
    (∀ t, ∃ e', config.parseAll (text ++ "\n" ++ t) = .error e') ↔
      ¬ EndsAtLimit config (text ++ "\n") := by
  rcases Config.read_of_parseAll_error h with ⟨fault, hread, -⟩ | ⟨p, hread, hpending, hopen⟩
  · refine iff_of_true (parseAll_error_of_read hread) ?_
    rintro ⟨done, pending, hok, -⟩
    rw [hread] at hok
    cases hok
  · have hdepth : config.maxDepth ≤ p.depth := by
      by_contra hdepth
      exact hkind (hopen.trans (if_neg hdepth))
    refine iff_of_false ?_ (not_not_intro (endsAtLimit_of_depth hread hpending hdepth))
    intro hfinal
    obtain ⟨t, vs, ht⟩ := parseAll_completion hread hpending
    obtain ⟨e', he'⟩ := hfinal ("\n" ++ t)
    rw [← String.append_assoc, ht] at he'
    cases he'

/-- A datum that is nested too deeply is refused for good. -/
theorem deep_symbol_is_refused_for_good :
    ¬ EndsAtLimit { maxDepth := 2 } ("((a" ++ "\n") ∧
      ∀ t, ∃ e, ({ maxDepth := 2 } : Config).parseAll ("((a" ++ "\n" ++ t) = .error e := by
  have hread : ({} : Progress).read { maxDepth := 2 } ("((a" ++ "\n").toList =
      .error ⟨.tooDeep 2, ['a', '\n']⟩ := by decide +kernel
  have hnot : ¬ EndsAtLimit { maxDepth := 2 } ("((a" ++ "\n") := by
    rintro ⟨done, pending, hok, -⟩
    rw [hread] at hok
    cases hok
  refine ⟨hnot, (error_is_final_iff { maxDepth := 2 } "((a"
    ⟨.tooDeeplyNested, "Expression too deeply nested (max depth: 2)", some "((a\\n"⟩
    ?_ nofun).2 hnot⟩
  decide +kernel

/-- A list that was just opened at the greatest depth is refused as nested too deeply, but on the
next line it can still end. -/
theorem opened_at_limit_is_refused_too_early :
    ({ maxDepth := 1 } : Config).parseAll "(\n" =
        .error ⟨.tooDeeplyNested, "Expression too deeply nested (max depth: 1)", some "(\\n"⟩ ∧
      ({ maxDepth := 1 } : Config).parseAll ("(\n" ++ ")") = .ok [.nil] := by
  decide +kernel

end DynLisp.Reader
