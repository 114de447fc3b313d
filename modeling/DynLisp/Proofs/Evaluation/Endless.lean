import DynLisp.Proofs.Evaluation.Congruence

/-!
# Evaluations that do not end

How often applications may follow each other at one depth is bounded for an evaluation to be a
function. A `Chained` evaluation is given for every such bound; it ends if it does for some bound
(`Yields`), and is endless if it does for none. Where a larger bound changes no outcome (`Stable`),
a sequence is endless exactly if its first part is, or what follows the value of the first part
(`endless_bind`), and ends as what follows that value does (`yields_bind`):

* `endless_mapM`, `endless_evalBody`: a list of expressions is endless at its first endless one;
* `endless_inCall`: a call is endless if its body is.
-/

namespace DynLisp

/-- The second evaluation ends whenever the first does, and in the same way. -/
def Extends {α : Type} (x y : EvalM α) : Prop :=
  ∀ s p, x s = some p → y s = some p

theorem Extends.eq_none {α : Type} {x y : EvalM α} (h : Extends x y) {s : Interp}
    (hy : y s = none) : x s = none := by
  cases hx : x s with
  | none => rfl
  | some p => rw [h s p hx] at hy; cases hy

/-- An evaluation that ends in more cases does so inside any other. -/
theorem congruence_extends : Congruence fun _ x y => Extends x y where
  pure _ := fun _ _ h => h
  throw _ := fun _ _ h => h
  bind := by
    intro α β x y f g hxy hfg s ⟨r, u⟩ h
    rcases Stateful.bind_eq_some h with ⟨e, he, rfl⟩ | ⟨a, t, ha, hu⟩
    · exact Stateful.bind_of_error (hxy _ _ he)
    · rw [Stateful.bind_of_ok (hxy _ _ ha)]
      exact hfg a t _ hu
  lookup _ := fun _ _ h => h
  define _ _ := fun _ _ h => h
  writeLine _ := fun _ _ h => h
  inCall := by
    intro α x y hxy s ⟨r, u⟩ h
    obtain ⟨t, ht, rfl⟩ := EvalM.inCall_ok h
    rw [EvalM.run_inCall, hxy _ _ ht]
    rfl
  unfinished _ := fun _ _ h => nomatch h

/-- An evaluation for each bound on the chains of applications in it. -/
abbrev Chained (α : Type) := Nat → EvalM α

namespace Chained

variable {α β : Type}

/-- With some bound, the evaluation ends with this outcome in this state. -/
def Yields (x : Chained α) (s : Interp) (r : Except EvalError α) (t : Interp) : Prop :=
  ∃ chain, x chain s = some (r, t)

/-- With no bound does the evaluation end. -/
def Endless (x : Chained α) (s : Interp) : Prop :=
  ∀ chain, x chain s = none

/-- A larger bound changes no outcome. -/
def Stable (x : Chained α) : Prop :=
  ∀ chain chain' : Nat, chain ≤ chain' → Extends (x chain) (x chain')

theorem Stable.const (x : EvalM α) : Stable fun _ => x :=
  fun _ _ _ _ _ h => h

theorem endless_or_yields (x : Chained α) (s : Interp) : x.Endless s ∨ ∃ r t, x.Yields s r t := by
  by_cases h : x.Endless s
  · exact .inl h
  · obtain ⟨chain, hchain⟩ := Classical.not_forall.1 h
    obtain ⟨⟨r, t⟩, hp⟩ := Option.ne_none_iff_exists'.1 hchain
    exact .inr ⟨r, t, chain, hp⟩

theorem endless_iff_not_yields {x : Chained α} {s : Interp} :
    x.Endless s ↔ ∀ r t, ¬ x.Yields s r t := by
  constructor
  · rintro h r t ⟨chain, hchain⟩
    rw [h chain] at hchain
    cases hchain
  · intro h
    rcases x.endless_or_yields s with hs | ⟨r, t, hr⟩
    · exact hs
    · exact (h r t hr).elim

end Chained

namespace EvalM

variable {α β : Type}

/-- The evaluation ends in every state. -/
def Ends (x : EvalM α) : Prop :=
  ∀ s, x s ≠ none

theorem Ends.pure (a : α) : Ends (pure a : EvalM α) :=
  fun _ h => nomatch h

theorem Ends.throw (e : EvalError) : Ends (throw e : EvalM α) :=
  fun _ h => nomatch h

theorem Ends.lift (r : Except EvalError α) : Ends (liftM r : EvalM α) := by
  cases r with
  | ok a => exact .pure a
  | error e => exact .throw e

theorem Ends.bind {x : EvalM α} {f : α → EvalM β} (hx : Ends x) (hf : ∀ a, Ends (f a)) :
    Ends (x >>= f) := by
  intro s
  rw [Stateful.run_bind]
  cases h : x s with
  | none => exact (hx s h).elim
  | some p =>
    obtain ⟨r, t⟩ := p
    cases r with
    | ok a => exact hf a t
    | error e => exact (nomatch ·)

theorem Ends.lookup (name : String) : Ends (lookup name) := by
  intro s
  rw [run_lookup]
  exact (nomatch ·)

theorem Ends.define (name : String) (v : Value) : Ends (define name v) := by
  intro s
  rw [run_define]
  exact (nomatch ·)

theorem Ends.writeLine (pieces : List String) : Ends (writeLine pieces) := by
  intro s
  rw [run_writeLine]
  exact (nomatch ·)

theorem Ends.not_endless {x : EvalM α} (h : Ends x) (s : Interp) :
    ¬ Chained.Endless (fun _ => x) s :=
  fun hx => h s (hx 0)

end EvalM

namespace Chained

variable {α β : Type}

theorem Yields.unique {x : Chained α} (hx : x.Stable) {s t t' : Interp} {r r' : Except EvalError α}
    (h : x.Yields s r t) (h' : x.Yields s r' t') : r = r' ∧ t = t' := by
  obtain ⟨chain, hr⟩ := h
  obtain ⟨chain', hr'⟩ := h'
  have h₁ := hx _ _ (Nat.le_max_left chain chain') _ _ hr
  have h₂ := hx _ _ (Nat.le_max_right chain chain') _ _ hr'
  rw [h₁] at h₂
  cases h₂
  exact ⟨rfl, rfl⟩

/-- Where the first part of a sequence has a value, the sequence ends as what follows does. -/
theorem yields_bind {x : Chained α} {f : Nat → α → EvalM β} (hx : x.Stable)
    (hf : ∀ a, Stable fun chain => f chain a) {s t u : Interp} {a : α} {r : Except EvalError β}
    (h : x.Yields s (.ok a) t) :
    Yields (fun chain => x chain >>= f chain) s r u ↔ Yields (fun chain => f chain a) t r u := by
  constructor
  · rintro ⟨chain, hchain⟩
    rcases Stateful.bind_eq_some hchain with ⟨e, he, -⟩ | ⟨b, t', hb, hu⟩
    · cases (Yields.unique hx ⟨chain, he⟩ h).1
    · obtain ⟨hba, rfl⟩ := Yields.unique hx ⟨chain, hb⟩ h
      cases hba
      exact ⟨chain, hu⟩
  · rintro ⟨chain', hu⟩
    obtain ⟨chain, ha⟩ := h
    refine ⟨max chain chain', ?_⟩
    show (x (max chain chain') >>= f (max chain chain')) s = _
    rw [Stateful.bind_of_ok (hx _ _ (Nat.le_max_left chain chain') _ _ ha)]
    exact hf a _ _ (Nat.le_max_right chain chain') _ _ hu

/-- A sequence is endless if its first part is, or if that has a value and what follows is. -/
theorem endless_bind {x : Chained α} {f : Nat → α → EvalM β} (hx : x.Stable)
    (hf : ∀ a, Stable fun chain => f chain a) {s : Interp} :
    Endless (fun chain => x chain >>= f chain) s ↔
      x.Endless s ∨ ∃ a t, x.Yields s (.ok a) t ∧ Endless (fun chain => f chain a) t := by
  constructor
  · intro h
    rcases x.endless_or_yields s with hs | ⟨r, t, chain, hr⟩
    · exact .inl hs
    · right
      cases r with
      | error e =>
        have hnone : (x chain >>= f chain) s = none := h chain
        rw [Stateful.bind_of_error hr] at hnone
        cases hnone
      | ok a =>
        refine ⟨a, t, ⟨chain, hr⟩, fun chain' => ?_⟩
        -- Beyond both bounds the first part has the value `a`, so what follows has no outcome.
        have hnone : (x (max chain chain') >>= f (max chain chain')) s = none := h _
        rw [Stateful.bind_of_ok (hx _ _ (Nat.le_max_left chain chain') _ _ hr)] at hnone
        exact (hf a _ _ (Nat.le_max_right chain chain')).eq_none hnone
  · intro h chain
    show (x chain >>= f chain) s = none
    rw [Stateful.run_bind]
    rcases h with h | ⟨a, t, ha, h⟩
    · rw [h chain]
      rfl
    · cases hr : x chain s with
      | none => rfl
      | some p =>
        obtain ⟨r, u⟩ := p
        obtain ⟨rfl, rfl⟩ := Yields.unique hx ⟨chain, hr⟩ ha
        exact h chain

/-- Nothing that always ends makes a sequence endless. -/
theorem endless_bind_ends {x : Chained α} {f : α → EvalM β} (hx : x.Stable)
    (hf : ∀ a, EvalM.Ends (f a)) {s : Interp} :
    Endless (fun chain => x chain >>= f) s ↔ x.Endless s := by
  rw [endless_bind hx fun a => Stable.const (f a)]
  exact or_iff_left fun ⟨a, t, _, h⟩ => (hf a).not_endless t h

/-- After a first part that always ends. -/
theorem endless_ends_bind {x : EvalM α} {f : Nat → α → EvalM β} (hx : EvalM.Ends x)
    (hf : ∀ a, Stable fun chain => f chain a) {s : Interp} :
    Endless (fun chain => x >>= f chain) s ↔
      ∃ a t, x s = some (.ok a, t) ∧ Endless (fun chain => f chain a) t := by
  have hyields : ∀ a t, Yields (fun _ => x) s (.ok a) t ↔ x s = some (.ok a, t) := fun a t =>
    ⟨fun ⟨_, h⟩ => h, fun h => ⟨0, h⟩⟩
  rw [endless_bind (Stable.const x) hf, or_iff_right (hx.not_endless s)]
  simp only [hyields]

/-- After a check or a conversion that needs no evaluation. -/
theorem endless_lift_bind {r : Except EvalError α} {f : Nat → α → EvalM β} {s : Interp} :
    Endless (fun chain => liftM r >>= f chain) s ↔
      ∃ a, r = .ok a ∧ Endless (fun chain => f chain a) s := by
  cases r with
  | ok a => exact ⟨fun h => ⟨a, rfl, h⟩, fun ⟨_, ha, h⟩ => by cases ha; exact h⟩
  | error e => exact iff_of_false (fun h => nomatch h 0) (fun ⟨_, he, _⟩ => nomatch he)

theorem endless_lookup_bind {name : String} {f : Nat → Value → EvalM β} {s : Interp} :
    Endless (fun chain => EvalM.lookup name >>= f chain) s ↔
      ∃ v, s.env.lookup name = .ok v ∧ Endless (fun chain => f chain v) s :=
  @endless_lift_bind _ _ (s.env.lookup name) f s

/-- What follows the look-up of a name ends alike if it does for the value of the name. -/
theorem yields_lookup_bind_congr {name : String} {f g : Nat → Value → EvalM β} {s t : Interp}
    {r : Except EvalError β} (h : ∀ v, s.env.lookup name = .ok v →
      (Yields (fun chain => f chain v) s r t ↔ Yields (fun chain => g chain v) s r t)) :
    Yields (fun chain => EvalM.lookup name >>= f chain) s r t ↔
      Yields (fun chain => EvalM.lookup name >>= g chain) s r t := by
  have hrun : ∀ k : Value → EvalM β, (EvalM.lookup name >>= k) s =
      match s.env.lookup name with
      | .ok v => k v s
      | .error e => some (.error e, s) := by
    intro k
    rw [Stateful.run_bind, EvalM.run_lookup]
    cases s.env.lookup name <;> rfl
  unfold Yields
  simp only [hrun]
  cases hv : s.env.lookup name with
  | ok v => exact h v hv
  | error e => exact Iff.rfl

/-- A call is endless if its body is, in the frame of the call. -/
theorem endless_inCall {x : Chained α} {s : Interp} :
    Endless (fun chain => EvalM.inCall (x chain)) s ↔ x.Endless { s with env := s.env.push } := by
  refine forall_congr' fun chain => ?_
  show EvalM.inCall (x chain) s = none ↔ _
  rw [EvalM.run_inCall]
  cases x chain { s with env := s.env.push } with
  | none => exact iff_of_true rfl rfl
  | some p => exact iff_of_false (nomatch ·) (nomatch ·)

/-! ## Lists of expressions -/

theorem Yields.of_mapM_cons {ev : Nat → Evaluator} {e : Value} {es : List Value} {s u : Interp}
    {ws : List Value} (h : Yields (fun chain => (e :: es).mapM (ev chain)) s (.ok ws) u) :
    ∃ v vs t, Yields (fun chain => ev chain e) s (.ok v) t ∧
      Yields (fun chain => es.mapM (ev chain)) t (.ok vs) u := by
  obtain ⟨chain, h⟩ := h
  replace h : ((e :: es).mapM (ev chain)) s = _ := h
  rw [List.mapM_cons] at h
  rcases Stateful.bind_eq_some h with ⟨_, _, hr⟩ | ⟨v, t, hv, h⟩
  · cases hr
  · rcases Stateful.bind_eq_some h with ⟨_, _, hr⟩ | ⟨vs, t', hvs, h⟩
    · cases hr
    · cases h
      exact ⟨v, vs, t, ⟨chain, hv⟩, ⟨chain, hvs⟩⟩

section Lists

variable {ev : Nat → Evaluator} (hev : ∀ e, Stable fun chain => ev chain e)

include hev

theorem Stable.mapM (es : List Value) : Stable fun chain => es.mapM (ev chain) :=
  fun _ _ hchain => congruence_extends.mapM (fun e => hev e _ _ hchain) es

theorem Stable.evalBody (es : List Value) : Stable fun chain => evalBody (ev chain) es :=
  fun _ _ hchain => congruence_extends.evalBody (fun e => hev e _ _ hchain) es

theorem Yields.mapM_cons {e v : Value} {es vs : List Value} {s t u : Interp}
    (h : Yields (fun chain => ev chain e) s (.ok v) t)
    (h' : Yields (fun chain => es.mapM (ev chain)) t (.ok vs) u) :
    Yields (fun chain => (e :: es).mapM (ev chain)) s (.ok (v :: vs)) u := by
  obtain ⟨chain, hv⟩ := h
  obtain ⟨chain', hvs⟩ := h'
  refine ⟨max chain chain', ?_⟩
  show ((e :: es).mapM (ev (max chain chain'))) s = _
  rw [List.mapM_cons, Stateful.bind_of_ok (hev e _ _ (Nat.le_max_left chain chain') _ _ hv),
    Stateful.bind_of_ok (Stable.mapM hev es _ _ (Nat.le_max_right chain chain') _ _ hvs)]
  rfl

theorem endless_mapM_cons {e : Value} {es : List Value} {s : Interp} :
    Endless (fun chain => (e :: es).mapM (ev chain)) s ↔
      Endless (fun chain => ev chain e) s ∨
        ∃ v t, Yields (fun chain => ev chain e) s (.ok v) t ∧
          Endless (fun chain => es.mapM (ev chain)) t := by
  have hcons : (fun chain => (e :: es).mapM (ev chain)) =
      fun chain => ev chain e >>= fun v => es.mapM (ev chain) >>= fun vs => pure (v :: vs) :=
    funext fun _ => List.mapM_cons
  have hrest : ∀ v : Value, Stable fun chain => es.mapM (ev chain) >>= fun vs => pure (v :: vs) :=
    fun v _ _ hchain => congruence_extends.bind (Stable.mapM hev es _ _ hchain)
      fun vs => congruence_extends.pure (v :: vs)
  have htail : ∀ (v : Value) (t : Interp),
      Endless (fun chain => es.mapM (ev chain) >>= fun vs => pure (v :: vs)) t ↔
        Endless (fun chain => es.mapM (ev chain)) t := by
    intro v t
    rw [endless_bind (Stable.mapM hev es) fun vs => Stable.const (pure (v :: vs))]
    exact or_iff_left fun ⟨_, _, _, h⟩ => nomatch h 0
  rw [hcons, endless_bind (hev e) hrest]
  simp only [htail]

/-- A list of expressions is endless at its first expression that is. -/
theorem endless_mapM {es : List Value} {s : Interp} :
    Endless (fun chain => es.mapM (ev chain)) s ↔
      ∃ done e more vs t, es = done ++ e :: more ∧
        Yields (fun chain => done.mapM (ev chain)) s (.ok vs) t ∧
        Endless (fun chain => ev chain e) t := by
  induction es generalizing s with
  | nil =>
    refine iff_of_false (fun h => nomatch h 0) ?_
    rintro ⟨done, e, more, vs, t, h, -⟩
    exact List.cons_ne_nil _ _ (List.append_eq_nil_iff.1 h.symm).2
  | cons e es ih =>
    rw [endless_mapM_cons hev]
    constructor
    · rintro (h | ⟨v, t, hv, h⟩)
      · exact ⟨[], e, es, [], s, rfl, ⟨0, rfl⟩, h⟩
      · obtain ⟨done, e', more, vs, u, rfl, hvs, h⟩ := ih.1 h
        exact ⟨e :: done, e', more, v :: vs, u, rfl, hv.mapM_cons hev hvs, h⟩
    · rintro ⟨done, e', more, vs, u, hes, hvs, h⟩
      cases done with
      | nil =>
        cases hes
        obtain ⟨chain, hvs⟩ := hvs
        cases hvs
        exact .inl h
      | cons d done =>
        cases hes
        obtain ⟨v, vs', t, hv, hvs'⟩ := hvs.of_mapM_cons
        exact .inr ⟨v, t, hv, ih.2 ⟨done, e', more, vs', u, rfl, hvs', h⟩⟩

/-- A body is endless if the list of its expressions is. -/
theorem endless_evalBody {es : List Value} {s : Interp} :
    Endless (fun chain => evalBody (ev chain) es) s ↔
      Endless (fun chain => es.mapM (ev chain)) s := by
  induction es generalizing s with
  | nil => exact iff_of_false (fun h => nomatch h 0) (fun h => nomatch h 0)
  | cons e es ih =>
    rw [endless_mapM_cons hev]
    cases es with
    | nil => exact (or_iff_left fun ⟨_, _, _, h⟩ => nomatch h 0).symm
    | cons e' es =>
      show Endless (fun chain => ev chain e >>= fun _ => evalBody (ev chain) (e' :: es)) s ↔ _
      rw [endless_bind (hev e) fun _ => Stable.evalBody hev (e' :: es)]
      simp only [ih]

end Lists

end Chained

end DynLisp
