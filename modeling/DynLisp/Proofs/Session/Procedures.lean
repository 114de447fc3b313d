import Mathlib.Logic.Relation
import DynLisp.Proofs.Evaluation.Procedures
import DynLisp.Proofs.Reading.Data
import DynLisp.Proofs.Session.Batch

/-!
# Procedures over whole sessions

A session serves requests one after the other (`Session.Request`, `Session.Reached`). Besides text,
a request may be given what was obtained from the session before: values that were returned or
looked up, their parts, and data built from them (`Session.Obtained`). None of that makes a
procedure other than by evaluation, so all procedures that come up in a session are well formed, and
every procedure that is applied in it binds its formals (`procedures_stay_well_formed`).
-/

namespace DynLisp

/-! ## Requests -/

namespace Session

/-- What a session is asked. -/
inductive Request where
  | text (source : String)
  | allText (source : String)
  | apply (callee args : Value)
  | reset

/-- Serves a request with the values that it returns. -/
def Request.serve : Request → SessionM (List Value)
  | text source => do return [← evalText source]
  | allText source => evalAllText source
  | apply callee args => do return [← Session.apply callee args]
  | reset => fun s => some (.ok [], s.reset)

/-- What can be had from some values: they and their parts, and data built from all that. -/
inductive Obtained (seen : List Value) : Value → Prop where
  | seen {v} : v ∈ seen → Obtained seen v
  | nil : Obtained seen .nil
  | int (n) : Obtained seen (.int n)
  | float (x) : Obtained seen (.float x)
  | symbol (name) : Obtained seen (.symbol name)
  | pair {v w} : Obtained seen v → Obtained seen w → Obtained seen (.pair v w)
  | head {v w} : Obtained seen (.pair v w) → Obtained seen v
  | tail {v w} : Obtained seen (.pair v w) → Obtained seen w
  | formals {formals body} : Obtained seen (.procedure formals body) → Obtained seen formals
  | body {formals body} : Obtained seen (.procedure formals body) → Obtained seen body

/-- A request is made of text, or of what can be had from the values seen. -/
def Request.Allowed (seen : List Value) : Request → Prop
  | apply callee args => Obtained seen callee ∧ Obtained seen args
  | _ => True

/-- The sessions that some requests lead to, with the values that were returned or looked up in
between. -/
inductive Reached : List Value → Session → Prop where
  | start (limits : Limits) (sink : Sink) : Reached [] { limits, interp := { sink } }
  | served {seen : List Value} {s t : Session} {request : Request} {vs : List Value} :
    Reached seen s → request.Allowed seen → request.serve s = some (.ok vs, t) →
      Reached (vs ++ seen) t
  | failed {seen : List Value} {s t : Session} {request : Request} {failure : Failure} :
    Reached seen s → request.Allowed seen → request.serve s = some (.error failure, t) →
      Reached seen t
  | look {seen : List Value} {s : Session} {f : Frame} {name : String} {v : Value} :
    Reached seen s → f ∈ s.interp.env.frames → f.get? name = some v → Reached (v :: seen) s

/-- The calls that serving a request starts with: for text, one for each of its expressions. -/
inductive Request.Starts (s : Session) : Request → Call → Prop where
  | text {source e} : Reader.parse source = .ok e →
    Starts s (.text source) ⟨s.limits.maxDepth, .eval e, s.interp⟩
  | allText {source done e more shown s'} : Reader.parseAll source = .ok (done ++ e :: more) →
    s.EvaluatesInOrder done shown s' →
      Starts s (.allText source) ⟨s.limits.maxDepth, .eval e, s'.interp⟩
  | apply {callee args} :
    Starts s (.apply callee args) ⟨s.limits.maxDepth - 1, .apply callee (asOperands args), s.interp⟩

end Session

/-! ## Sessions that stay in a class -/

/-- All values that are bound in the session belong to the class. -/
def Session.AllIn (W : Value → Prop) (s : Session) : Prop :=
  s.interp.AllIn W

section

variable {α : Type} {W : Value → Prop} {Q : α → Prop}

theorem Ensures.reading {outcome : Except Reader.ReadError α} (h : ∀ a, outcome = .ok a → Q a) :
    Ensures (Session.AllIn W) (Session.reading outcome) Q := by
  intro s r t hs hread
  cases hread
  refine ⟨hs, fun a ha => h a ?_⟩
  cases outcome with
  | error e => cases ha
  | ok b => exact congrArg Except.ok (Except.ok.inj ha)

/-- An evaluation works on the interpreter of the session alone. -/
theorem Ensures.evaluate {run : Limits → EvalM α}
    (h : ∀ limits, Ensures (Interp.AllIn W) (run limits) Q) :
    Ensures (Session.AllIn W) (Session.evaluate run) Q := by
  intro s r t hs hrun
  unfold Session.evaluate at hrun
  cases houtcome : run s.limits s.interp with
  | none =>
    rw [houtcome] at hrun
    cases hrun
  | some p =>
    obtain ⟨outcome, interp⟩ := p
    rw [houtcome] at hrun
    cases hrun
    obtain ⟨ht, hq⟩ := h s.limits s.interp outcome interp hs houtcome
    refine ⟨ht, fun a ha => hq a ?_⟩
    cases outcome with
    | error e => cases ha
    | ok b => exact congrArg Except.ok (Except.ok.inj ha)

end

namespace ValueClass

variable {W : Value → Prop}

theorem session_eval (h : ValueClass W) {e : Value} (he : W e) :
    Ensures (Session.AllIn W) (Session.eval e) W :=
  .evaluate fun limits => h.eval limits _ he

theorem session_apply (h : ValueClass W) {callee args : Value} (hcallee : W callee)
    (hargs : W args) : Ensures (Session.AllIn W) (Session.apply callee args) W :=
  .evaluate fun limits => h.applyAt limits 0 hcallee (h.asOperands hargs)

theorem evaluatesInOrder (h : ValueClass W) {s t : Session} {es : List Value}
    {shown : List (String × Value)} (hevaluates : s.EvaluatesInOrder es shown t)
    (hs : s.AllIn W) (hes : ∀ e ∈ es, W e) : t.AllIn W := by
  induction hevaluates with
  | nil => exact hs
  | cons hv _ ih =>
    obtain ⟨he, hes⟩ := List.forall_mem_cons.1 hes
    exact ih (h.session_eval he _ _ _ hs hv).1 hes

variable (h : ValueClass W) (hsymbol : ∀ name, W (.symbol name))

include h hsymbol

/-- What can be had from values of the class is in the class. -/
theorem of_obtained {seen : List Value} (hseen : ∀ v ∈ seen, W v) {v : Value}
    (hv : Session.Obtained seen v) : W v := by
  induction hv with
  | seen hmem => exact hseen _ hmem
  | nil => exact h.nil
  | int n => exact h.int n
  | float x => exact h.float x
  | symbol name => exact hsymbol name
  | pair _ _ hv hw => exact h.pair_iff.2 ⟨hv, hw⟩
  | head _ hpair => exact (h.pair_iff.1 hpair).1
  | tail _ hpair => exact (h.pair_iff.1 hpair).2
  | formals _ hprocedure => exact (h.parts hprocedure).1
  | body _ hprocedure => exact (h.parts hprocedure).2

theorem session_evalText (source : String) :
    Ensures (Session.AllIn W) (Session.evalText source) W := by
  have hread : Ensures (Session.AllIn W) (Session.reading (Reader.parse source)) W :=
    .reading fun _ => Reader.of_parse h hsymbol
  exact hread.bind fun _ => h.session_eval

theorem session_evalAllText (source : String) :
    Ensures (Session.AllIn W) (Session.evalAllText source) fun vs => ∀ v ∈ vs, W v := by
  have hread : Ensures (Session.AllIn W) (Session.reading (Reader.parseAll source))
      fun es => ∀ e ∈ es, W e := .reading fun _ => Reader.of_parseAll h hsymbol
  exact hread.bind fun es hes => .mapM fun e he => h.session_eval (hes e he)

/-- Serving a request does not leave the class. -/
theorem serve {seen : List Value} (hseen : ∀ v ∈ seen, W v) {request : Session.Request}
    (hallowed : request.Allowed seen) :
    Ensures (Session.AllIn W) request.serve fun vs => ∀ v ∈ vs, W v := by
  cases request with
  | text source =>
    exact (h.session_evalText hsymbol source).bind
      fun v hv => .pure (List.forall_mem_singleton.2 hv)
  | allText source => exact h.session_evalAllText hsymbol source
  | apply callee args =>
    have hcallee : W callee := h.of_obtained hsymbol hseen hallowed.1
    have hargs : W args := h.of_obtained hsymbol hseen hallowed.2
    exact (h.session_apply hcallee hargs).bind fun v hv => .pure (List.forall_mem_singleton.2 hv)
  | reset =>
    rintro s r t - hreset
    cases hreset
    refine ⟨.initial fun b => hsymbol b.name, ?_⟩
    rintro _ ⟨⟩ v hv
    cases hv

/-- Nor does a whole session. -/
theorem reached {seen : List Value} {s : Session} (hreached : Session.Reached seen s) :
    (∀ v ∈ seen, W v) ∧ s.AllIn W := by
  induction hreached with
  | start limits sink =>
    exact ⟨fun _ hv => (List.not_mem_nil hv).elim, .initial fun b => hsymbol b.name⟩
  | served _ hallowed hserve ih =>
    obtain ⟨hseen, henv⟩ := ih
    obtain ⟨ht, hvs⟩ := h.serve hsymbol hseen hallowed _ _ _ henv hserve
    exact ⟨List.forall_mem_append.2 ⟨hvs _ rfl, hseen⟩, ht⟩
  | failed _ hallowed hserve ih =>
    obtain ⟨hseen, henv⟩ := ih
    exact ⟨hseen, (h.serve hsymbol hseen hallowed _ _ _ henv hserve).1⟩
  | look _ hf hget ih =>
    obtain ⟨hseen, henv⟩ := ih
    exact ⟨List.forall_mem_cons.2 ⟨henv _ hf _ _ hget, hseen⟩, henv⟩

/-- The calls that a request starts with belong to the class. -/
theorem starts {seen : List Value} (hseen : ∀ v ∈ seen, W v) {s : Session} (hs : s.AllIn W)
    {request : Session.Request} (hallowed : request.Allowed seen) {c : Call}
    (hstarts : request.Starts s c) : c.AllIn W := by
  cases hstarts with
  | text hread => exact ⟨hs, Reader.of_parse h hsymbol hread⟩
  | allText hread hdone =>
    obtain ⟨hfirst, hnext⟩ := List.forall_mem_append.1 (Reader.of_parseAll h hsymbol hread)
    exact ⟨h.evaluatesInOrder hdone hs hfirst, hnext _ List.mem_cons_self⟩
  | apply =>
    have hcallee := h.of_obtained hsymbol hseen hallowed.1
    have hargs := h.of_obtained hsymbol hseen hallowed.2
    exact ⟨hs, hcallee, h.asOperands hargs⟩

end ValueClass

/-! ## Procedures -/

/-- All procedures that come up in a session are well formed, in what it returns and in what is
bound, also while it serves a request. So no call of a procedure fails in counting its formals or
in binding them, whatever they are bound to. -/
theorem procedures_stay_well_formed {seen : List Value} {s : Session} (h : Session.Reached seen s) :
    (∀ v ∈ seen, v.ProceduresValid) ∧ s.AllIn Value.ProceduresValid ∧
      ∀ (request : Session.Request) c c', request.Allowed seen → request.Starts s c →
        Relation.ReflTransGen (Call.Nests s.limits.maxDepth) c c' →
        c'.state.AllIn Value.ProceduresValid ∧
          ∀ formals body operands, c'.task = .apply (.procedure formals body) operands →
            ((∀ name, formals ≠ .symbol name) → ∃ count, formals.length = .ok count) ∧
              ∀ values (u : Interp), ∃ t,
                bindArguments formals values { u with env := u.env.push } = some (.ok (), t) := by
  have hvalues := valueClass_proceduresValid
  have hsymbol : ∀ name, (Value.symbol name).ProceduresValid := fun _ => trivial
  obtain ⟨hseen, henv⟩ := hvalues.reached hsymbol h
  refine ⟨hseen, henv, fun request c c' hallowed hstarts hnests => ?_⟩
  have hc' : c'.AllIn Value.ProceduresValid := by
    induction hnests with
    | refl => exact hvalues.starts hsymbol hseen henv hallowed hstarts
    | tail _ hnext ih => exact hnext.allIn hvalues ih
  refine ⟨hc'.state, fun formals body operands htask => ?_⟩
  have hcall := hc'.task
  rw [htask] at hcall
  exact ⟨hcall.1.1.exists_length, hcall.1.1.exists_bindArguments⟩

/-- A procedure that was obtained from a session, applied in it to data of the user. -/
theorem procedure_obtained_is_applied :
    ∃ s : Session,
      Session.Reached [.procedure (.ofList [.symbol "x", .symbol "y"]) (.ofList [.symbol "x"])] s ∧
      (∃ count, (Value.ofList [.symbol "x", .symbol "y"]).length = .ok count) ∧
        ∀ values (u : Interp), ∃ t, bindArguments (.ofList [.symbol "x", .symbol "y"]) values
          { u with env := u.env.push } = some (.ok (), t) := by
  have hserve : ((Session.Request.text "(lambda (x y) x)").serve {}).map Prod.fst =
      some (.ok [.procedure (.ofList [.symbol "x", .symbol "y"]) (.ofList [.symbol "x"])]) := by
    decide +kernel
  obtain ⟨⟨r, s⟩, hs, hr⟩ := Option.map_eq_some_iff.1 hserve
  obtain rfl : r = .ok _ := hr
  have hallowed : (Session.Request.text "(lambda (x y) x)").Allowed [] := trivial
  have hreached := Session.Reached.served (.start {} {}) hallowed hs
  refine ⟨s, hreached, ?_⟩
  have hargs : Session.Obtained
      [.procedure (.ofList [.symbol "x", .symbol "y"]) (.ofList [.symbol "x"])]
      (.ofList [.int 1, .nil]) := .pair (.int 1) (.pair .nil .nil)
  obtain ⟨hcount, hbind⟩ := ((procedures_stay_well_formed hreached).2.2 (.apply _ _) _ _
    ⟨.seen List.mem_cons_self, hargs⟩ .apply .refl).2 _ _ _ rfl
  exact ⟨hcount nofun, hbind⟩

end DynLisp
