import DynLisp.Proofs.Evaluation.Runs
import DynLisp.Session

/-!
# Evaluations in order

A text with several expressions is evaluated one expression after the other
(`EvaluatesInOrder`). What is shown of such a run is, for every expression, the text that its
evaluation printed, and its value.

* `evaluatesInOrder_of_evalAllText`: a text all of whose expressions have a value;
* `EvaluatesInOrder.of_append`: a run may be interrupted between two expressions.
-/

namespace DynLisp.Session

variable {α β : Type} {s t : Session}

/-- A sequence that succeeds, taken apart. -/
theorem bind_eq_ok {x : SessionM α} {f : α → SessionM β} {b : β}
    (h : (x >>= f) s = some (.ok b, t)) :
    ∃ a s', x s = some (.ok a, s') ∧ f a s' = some (.ok b, t) := by
  rcases Stateful.bind_eq_some h with ⟨failure, -, hfailure⟩ | hok
  · cases hfailure
  · exact hok

/-- Expressions are evaluated one after the other, each in the session that the one before left;
what is shown of each is the text that its evaluation printed, and its value. -/
inductive EvaluatesInOrder : Session → List Value → List (String × Value) → Session → Prop where
  | nil (s : Session) : EvaluatesInOrder s [] [] s
  | cons {s s' t : Session} {e v : Value} {es : List Value} {shown : List (String × Value)} :
      Session.eval e s = some (.ok v, s') → EvaluatesInOrder s' es shown t →
      EvaluatesInOrder s (e :: es) ((s'.printedFrom s.printedSize, v) :: shown) t

theorem evaluatesInOrder_of_mapM {es vs : List Value} (h : es.mapM eval s = some (.ok vs, t)) :
    ∃ shown, EvaluatesInOrder s es shown t ∧ shown.map Prod.snd = vs := by
  induction es generalizing s vs with
  | nil =>
    rw [List.mapM_nil] at h
    cases h
    exact ⟨[], .nil _, rfl⟩
  | cons e es ih =>
    rw [List.mapM_cons] at h
    obtain ⟨v, s', hv, hrest⟩ := bind_eq_ok h
    obtain ⟨ws, t', hws, hresult⟩ := bind_eq_ok hrest
    cases hresult
    obtain ⟨shown, hshown, hvalues⟩ := ih hws
    exact ⟨_ :: shown, .cons hv hshown, congrArg (v :: ·) hvalues⟩

/-- A text is evaluated by evaluating what is read of it in order. -/
theorem evaluatesInOrder_of_evalAllText {text : String} {es vs : List Value}
    (hread : Reader.parseAll text = .ok es) (h : evalAllText text s = some (.ok vs, t)) :
    ∃ shown, EvaluatesInOrder s es shown t ∧ shown.map Prod.snd = vs := by
  have hmap : es.mapM eval s = some (.ok vs, t) := by
    unfold evalAllText at h
    rw [hread] at h
    exact h
  exact evaluatesInOrder_of_mapM hmap

/-- Between two expressions, a run consists of two runs. -/
theorem EvaluatesInOrder.of_append {es fs : List Value} {shown : List (String × Value)}
    (h : EvaluatesInOrder s (es ++ fs) shown t) :
    ∃ first second s', shown = first ++ second ∧ EvaluatesInOrder s es first s' ∧
      EvaluatesInOrder s' fs second t := by
  induction es generalizing s shown with
  | nil => exact ⟨[], shown, s, rfl, .nil s, h⟩
  | cons e es ih =>
    cases h with
    | cons hv hrest =>
      obtain ⟨first, second, s', rfl, hfirst, hsecond⟩ := ih hrest
      exact ⟨_ :: first, second, s', rfl, .cons hv hfirst, hsecond⟩

end DynLisp.Session
