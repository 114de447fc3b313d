import Mathlib.Data.List.TakeWhile
import DynLisp.Proofs.Reading.Lexemes
import DynLisp.Proofs.Reading.Tokens

/-!
# Deleting comments

A comment ends an atom that stands before it, and so does the end of the line at which the comment
ends. So deleting all comments, without the ends of their lines, changes no token
(`tokens_withoutComments`): with comments a text is read as it is without them once they are deleted
(`comments_are_deletable`).
-/

namespace DynLisp.Reader

/-- A text without its comments. Each begins with the first semicolon after the one before, and goes
on to the end of the line, which stays. -/
def withoutComments : List Char → List Char
  | [] => []
  | c :: cs =>
    if c = ';' then withoutComments (cs.dropWhile (· ≠ '\n')) else c :: withoutComments cs
termination_by cs => cs.length
decreasing_by
  · exact Nat.lt_succ_of_le (List.length_dropWhile_le _ cs)
  · exact Nat.lt_succ_self cs.length

theorem withoutComments_nil : withoutComments [] = [] := by
  rw [withoutComments]

theorem withoutComments_semicolon (cs : List Char) :
    withoutComments (';' :: cs) = withoutComments (cs.dropWhile (· ≠ '\n')) := by
  rw [withoutComments, if_pos rfl]

theorem withoutComments_cons {c : Char} (hc : c ≠ ';') (cs : List Char) :
    withoutComments (c :: cs) = c :: withoutComments cs := by
  rw [withoutComments, if_neg hc]

/-- A comment goes on to the end of its line, or to the end of the text. -/
theorem dropWhile_line (cs : List Char) :
    cs.dropWhile (· ≠ '\n') = [] ∨ (cs.dropWhile (· ≠ '\n')).head? = some '\n' := by
  have hhead := head?_dropWhile_false (fun c => decide (c ≠ '\n')) cs
  cases hline : cs.dropWhile (· ≠ '\n') with
  | nil => exact .inl rfl
  | cons c rest =>
    have hc : decide (c ≠ '\n') = false := hhead c (by rw [hline]; rfl)
    have hnewline : c = '\n' := by simpa using hc
    exact .inr (congrArg some hnewline)

theorem endsAtom_dropWhile_line (cs : List Char) : EndsAtom (cs.dropWhile (· ≠ '\n')) := by
  intro c hc
  rcases dropWhile_line cs with hnil | hhead
  · rw [hnil] at hc
    cases hc
  · obtain rfl : '\n' = c := Option.some.inj (hhead.symm.trans hc)
    decide

/-- A comment means nothing. -/
theorem tokensFrom_comment (cs : List Char) :
    tokensFrom true .comment cs = tokens true (cs.dropWhile (· ≠ '\n')) := by
  have hbody : '\n' ∉ cs.takeWhile (· ≠ '\n') := fun h => by
    simpa using List.mem_takeWhile_imp h
  have hcut := @lexemesFrom_comment true _ _ hbody (dropWhile_line cs)
  rw [List.takeWhile_append_dropWhile] at hcut
  rw [tokensFrom, hcut]
  rfl

/-- The semicolon ends what stands before it, as the end of the line does. -/
theorem tokensFrom_semicolon {m m' : Mode} (h : m.Alike m') (cs : List Char) :
    tokensFrom true m (';' :: cs) = tokensFrom true m (cs.dropWhile (· ≠ '\n')) := by
  have hends : tokensFrom true m (';' :: cs) =
      (m'.finish []).map Lexeme.token ++ tokensFrom true .comment cs := by
    rw [tokensFrom_cons]
    cases h <;> rfl
  rw [hends, tokensFrom_comment, tokensFrom_of_endsAtom h (endsAtom_dropWhile_line cs)]

theorem tokensFrom_withoutComments {m m' : Mode} (h : m.Alike m') (cs : List Char) :
    tokensFrom true m cs = tokensFrom false m' (withoutComments cs) := by
  induction cs using withoutComments.induct generalizing m m' with
  | case1 =>
    rw [withoutComments_nil]
    exact h.finish [] []
  | case2 cs ih =>
    rw [withoutComments_semicolon, tokensFrom_semicolon h]
    exact ih h
  | case3 c cs hc ih =>
    obtain ⟨htokens, hmode⟩ :=
      h.next true false hc (c :: cs) cs (c :: withoutComments cs) (withoutComments cs)
    rw [withoutComments_cons hc, tokensFrom_cons, tokensFrom_cons, htokens, ih hmode]

/-- Deleting the comments of a text leaves its tokens. -/
theorem tokens_withoutComments (cs : List Char) :
    tokens true cs = tokens false (withoutComments cs) :=
  tokensFrom_withoutComments .between cs

/-- With comments, a text is read as it is without them once they are deleted: for one datum and for
all, with the same result or with an error of the same kind. -/
theorem comments_are_deletable (maxDepth : Nat) (text : String) :
    ReadAlike (({ comments := true, maxDepth } : Config).parse text)
        (({ comments := false, maxDepth } : Config).parse
          (String.ofList (withoutComments text.toList))) ∧
      ReadAlike (({ comments := true, maxDepth } : Config).parseAll text)
        (({ comments := false, maxDepth } : Config).parseAll
          (String.ofList (withoutComments text.toList))) := by
  refine Config.readAlike_of_tokens rfl ?_
  rw [String.toList_ofList]
  exact tokens_withoutComments text.toList

/-- The comment ends the dot before it, and its line end stays. -/
example : withoutComments "(a .;b;\n c);d".toList = "(a .\n c)".toList := by
  simp [withoutComments]

end DynLisp.Reader
