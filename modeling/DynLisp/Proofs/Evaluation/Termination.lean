import Mathlib.Logic.Relation
import Mathlib.Order.Monotone.Basic
import Mathlib.Order.WellFounded
import DynLisp.Proofs.Evaluation.NestedCalls

/-!
# When evaluations end

Each call inside a call is one level further down, or it is an application that can start fewer
kinds of application at the same level, except where `apply` is applied by `apply`
(`Call.Nests.rank_lt`). So nested calls without an end are, from some point on, applications of
`apply` that hand over to each other (`Call.exists_handsOver_of_nests`). Those the depth limit does
not see:

* `evaluation_ends_iff`: an evaluation ends exactly if it does not come to such a sequence;
* `evaluation_of_applyToItself`: one that does.
-/

namespace DynLisp

namespace Call

open Chained Value

/-- The order of the kinds of application at one level: `apply` goes on with any application, `let`
with that of a procedure, and everything else with expressions one level further down. -/
def stage : Value → Nat
  | .symbol name =>
    if name = SpecialForm.apply.name then 3
    else if name = SpecialForm.letIn.name then 2
    else 1
  | _ => 1

/-- What calls inside a call have less of, unless `apply` hands over to `apply`. -/
def rank (c : Call) : Nat :=
  match c.task with
  | .eval _ => 4 * c.levels
  | .apply callee _ => 4 * c.levels + stage callee

theorem stage_bounds (callee : Value) : 1 ≤ stage callee ∧ stage callee ≤ 3 := by
  cases callee with
  | symbol name =>
    simp only [stage]
    by_cases happly : name = SpecialForm.apply.name
    · rw [if_pos happly]
      decide
    · rw [if_neg happly]
      by_cases hlet : name = SpecialForm.letIn.name
      · rw [if_pos hlet]
        decide
      · rw [if_neg hlet]
        decide
  | _ => exact ⟨Nat.le_refl 1, show 1 ≤ 3 by decide⟩

theorem rank_eval (n : Nat) (e : Value) (s : Interp) : rank ⟨n, .eval e, s⟩ = 4 * n := rfl

theorem rank_apply (n : Nat) (callee operands : Value) (s : Interp) :
    rank ⟨n, .apply callee operands, s⟩ = 4 * n + stage callee := rfl

variable {maxDepth : Nat} {c c' : Call}

theorem HandsOver.rank_le (h : HandsOver maxDepth c c') : c'.rank ≤ c.rank := by
  obtain ⟨-, -⟩ := h
  exact Nat.add_le_add_left (stage_bounds _).2 _

/-- A call has a lower rank than the one it is nested in, unless that hands over to it. -/
theorem Nests.rank_lt (h : Nests maxDepth c c') : c'.rank < c.rank ∨ HandsOver maxDepth c c' := by
  cases h with
  | handOver h => exact .inr h
  | head =>
    left
    rw [rank_eval, rank_eval]
    omega
  | @application n head operands s callee t =>
    left
    rw [rank_apply, rank_eval]
    have := stage_bounds callee
    omega
  | letProcedure => exact .inl (Nat.add_lt_add_left (show 1 < 2 by decide) _)
  | _ => exact .inl (Nat.lt_add_of_pos_right (stage_bounds _).1)

theorem Nests.rank_le (h : Nests maxDepth c c') : c'.rank ≤ c.rank :=
  h.rank_lt.elim Nat.le_of_lt HandsOver.rank_le

/-- Nested calls without an end are, from some point on, applications that hand over. -/
theorem exists_handsOver_of_nests {calls : Nat → Call}
    (h : ∀ i, Nests maxDepth (calls i) (calls (i + 1))) :
    ∃ k, ∀ i, HandsOver maxDepth (calls (k + i)) (calls (k + (i + 1))) := by
  induction hrank : (calls 0).rank using Nat.strong_induction_on generalizing calls with
  | _ n ih =>
    have hanti : Antitone fun i => (calls i).rank := antitone_nat_of_succ_le fun i => (h i).rank_le
    -- Either some call has a lower rank than the first, or no step lowers the rank.
    by_cases hlt : ∃ i, (calls i).rank < n
    · obtain ⟨i, hi⟩ := hlt
      obtain ⟨k, hk⟩ := @ih (calls i).rank hi (fun j => calls (i + j)) (fun j => h (i + j)) rfl
      refine ⟨i + k, fun j => ?_⟩
      rw [Nat.add_assoc, Nat.add_assoc]
      exact hk j
    · refine ⟨0, fun i => ?_⟩
      rw [Nat.zero_add, Nat.zero_add]
      refine (h i).rank_lt.resolve_left fun hi => hlt ⟨i + 1, ?_⟩
      exact hrank ▸ Nat.lt_of_lt_of_le hi (hanti (Nat.zero_le i))

/-- The call does not end within a chain of so many applications. -/
def Unfinished (maxDepth fuel chain : Nat) (c : Call) : Prop :=
  match c.task with
  | .eval _ => False
  | .apply callee operands =>
    applyTo (eval ⟨maxDepth, fuel⟩ c.levels) chain callee operands c.state = none

theorem HandsOver.exists_apply (h : HandsOver maxDepth c c') :
    ∃ levels callee operands s, c = ⟨levels, .apply callee operands, s⟩ := by
  obtain ⟨-, -⟩ := h
  exact ⟨_, _, _, _, rfl⟩

theorem HandsOver.unfinished {fuel chain : Nat} (h : HandsOver maxDepth c c')
    (h' : c'.Unfinished maxDepth fuel chain) : c.Unfinished maxDepth fuel (chain + 1) := by
  obtain ⟨hcallee, hv⟩ := h
  rename_i levels name e callee operands s t
  let ev := eval ⟨maxDepth, fuel⟩ levels
  show applyTo ev (chain + 1) (.symbol SpecialForm.apply.name) (ofList [.symbol name, e]) s = none
  rw [applyTo_special ev chain rfl, run_ofList]
  show (EvalM.lookup name >>= fun callee => ev e >>= fun v =>
    applyTo ev chain callee (asOperands v)) s = none
  rw [Stateful.bind_of_ok (by rw [EvalM.run_lookup, hcallee]), Stateful.run_bind]
  cases hr : ev e s with
  | none => rfl
  | some p =>
    obtain ⟨r, u⟩ := p
    obtain ⟨rfl, rfl⟩ := Yields.unique (stable_evalIn maxDepth levels e) ⟨fuel, hr⟩ hv
    exact h'

/-- Applications that hand over without an end are endless. -/
theorem endless_of_handsOver {calls : Nat → Call}
    (h : ∀ i, HandsOver maxDepth (calls i) (calls (i + 1))) : (calls 0).Endless maxDepth := by
  -- One step uses up one application of the chain, and the operands are evaluated as before.
  have hnone : ∀ fuel chain i, (calls i).Unfinished maxDepth fuel chain := by
    intro fuel chain
    induction chain with
    | zero =>
      intro i
      obtain ⟨levels, callee, operands, s, hc⟩ := (h i).exists_apply
      rw [hc]
      rfl
    | succ chain ih => exact fun i => (h i).unfinished (ih (i + 1))
  obtain ⟨levels, callee, operands, s, hc⟩ := (h 0).exists_apply
  rw [hc]
  intro chain
  have := hnone chain chain 0
  rw [hc] at this
  exact this

/-- Every call that an endless call is nested in, however deep, is endless. -/
theorem endless_of_reaches (h : Relation.ReflTransGen (Nests maxDepth) c c')
    (h' : c'.Endless maxDepth) : c.Endless maxDepth := by
  induction h with
  | refl => exact h'
  | tail _ hnests ih => exact ih (hnests.endless h')

theorem reaches_of_nests {calls : Nat → Call}
    (h : ∀ i, Nests maxDepth (calls i) (calls (i + 1))) (k : Nat) :
    Relation.ReflTransGen (Nests maxDepth) (calls 0) (calls k) := by
  induction k with
  | zero => exact .refl
  | succ k ih => exact ih.tail (h k)

/-- In an endless call there are nested calls without an end. -/
theorem exists_nests_chain (h : c.Endless maxDepth) :
    ∃ calls : Nat → Call, calls 0 = c ∧ ∀ i, Nests maxDepth (calls i) (calls (i + 1)) := by
  rw [← not_acc_iff_exists_descending_chain (r := fun c' c => Nests maxDepth c c')]
  intro hacc
  induction hacc with
  | intro c _ ih =>
    obtain ⟨c', hc', h'⟩ := exists_nests_of_endless h
    exact ih c' hc' h'

/-- A call is endless exactly if it comes to applications that hand over without an end. -/
theorem endless_iff_handsOver : c.Endless maxDepth ↔
    ∃ calls : Nat → Call, Relation.ReflTransGen (Nests maxDepth) c (calls 0) ∧
      ∀ i, HandsOver maxDepth (calls i) (calls (i + 1)) := by
  constructor
  · intro h
    obtain ⟨calls, rfl, hnests⟩ := exists_nests_chain h
    obtain ⟨k, hk⟩ := exists_handsOver_of_nests hnests
    exact ⟨fun i => calls (k + i), reaches_of_nests hnests k, hk⟩
  · rintro ⟨calls, hreaches, hcalls⟩
    exact endless_of_reaches hreaches (endless_of_handsOver hcalls)

end Call

/-- An evaluation ends with a value or an error, if the chains of applications in it may be long
enough, exactly if it does not come to applications that hand over to each other without an end.
All nested calls without an end are such applications, from some point on: whatever else calls
itself runs into the depth limit. -/
theorem evaluation_ends_iff (maxDepth depth : Nat) (e : Value) (s : Interp) :
    ((∃ maxChain outcome, ({ maxDepth, maxChain } : Limits).evalAt depth e s = some outcome) ↔
      ¬ ∃ calls : Nat → Call,
        Relation.ReflTransGen (Call.Nests maxDepth) ⟨maxDepth - depth, .eval e, s⟩ (calls 0) ∧
          ∀ i, Call.HandsOver maxDepth (calls i) (calls (i + 1))) ∧
    ∀ calls : Nat → Call, (∀ i, Call.Nests maxDepth (calls i) (calls (i + 1))) →
      ∃ k, ∀ i, Call.HandsOver maxDepth (calls (k + i)) (calls (k + (i + 1))) := by
  refine ⟨?_, fun calls => Call.exists_handsOver_of_nests⟩
  rw [← Call.endless_iff_handsOver]
  constructor
  · rintro ⟨maxChain, outcome, h⟩ hendless
    have hnone : ({ maxDepth, maxChain } : Limits).evalAt depth e s = none := hendless maxChain
    rw [h] at hnone
    cases hnone
  · intro h
    rcases Chained.endless_or_yields (evalIn maxDepth (maxDepth - depth) e) s with
      h' | ⟨r, t, n, hr⟩
    · exact (h h').elim
    · exact ⟨n, (r, t), hr⟩

/-- `(apply L)`, the value of `L` below. -/
def applyList : Value := .ofList [.symbol "apply", .symbol "L"]

/-- Where `apply` and `L` have these values, `(apply apply L)` goes on with itself. -/
theorem endless_applyToItself {maxDepth levels : Nat} {s : Interp}
    (happly : s.env.lookup "apply" = .ok (.symbol "apply"))
    (hlist : s.env.lookup "L" = .ok applyList) :
    (evalIn maxDepth (levels + 2) (.ofList [.symbol "apply", .symbol "apply", .symbol "L"])).Endless
      s := by
  have hlookup : ∀ name v, s.env.lookup name = .ok v →
      Evaluates maxDepth (levels + 1) (.symbol name) s v s := by
    intro name v h
    refine ⟨0, ?_⟩
    show EvalM.lookup name s = _
    rw [EvalM.run_lookup, h]
  have hover : Call.HandsOver maxDepth ⟨levels + 1, .apply (.symbol "apply") applyList, s⟩
      ⟨levels + 1, .apply (.symbol "apply") applyList, s⟩ :=
    .mk happly (hlookup "L" applyList hlist)
  exact Call.endless_iff_handsOver.2 ⟨fun _ => ⟨levels + 1, .apply (.symbol "apply") applyList, s⟩,
    .single (.application (hlookup "apply" _ happly)), fun _ => hover⟩

/-- In the initial state, `(apply apply L)` does not end after `(define L '(apply L))`. -/
theorem evaluation_of_applyToItself : ∃ t,
    ({} : Limits).evalAt 0
        (.ofList [.symbol "define", .symbol "L", .ofList [.symbol "quote", applyList]]) {} =
      some (.ok .nil, t) ∧
    ¬ ∃ maxChain outcome, ({ maxChain } : Limits).evalAt 0
        (.ofList [.symbol "apply", .symbol "apply", .symbol "L"]) t = some outcome := by
  have hdefined : (({} : Limits).evalAt 0
      (.ofList [.symbol "define", .symbol "L", .ofList [.symbol "quote", applyList]]) {}).map
        (fun p => (p.1, p.2.env.lookup "apply", p.2.env.lookup "L")) =
      some (.ok .nil, .ok (.symbol "apply"), .ok applyList) := by
    decide +kernel
  obtain ⟨⟨r, t⟩, ht, hresult⟩ := Option.map_eq_some_iff.1 hdefined
  obtain ⟨rfl, happly, hlist⟩ : r = .ok .nil ∧ t.env.lookup "apply" = .ok (.symbol "apply") ∧
      t.env.lookup "L" = .ok applyList := by
    simpa only [Prod.mk.injEq] using hresult
  refine ⟨t, ht, fun ⟨maxChain, outcome, h⟩ => ?_⟩
  have hnone : ({ maxChain } : Limits).evalAt 0
      (.ofList [.symbol "apply", .symbol "apply", .symbol "L"]) t = none :=
    @endless_applyToItself 10000 9998 t happly hlist maxChain
  rw [h] at hnone
  cases hnone

end DynLisp
