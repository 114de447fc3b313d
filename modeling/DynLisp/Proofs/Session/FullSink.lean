import DynLisp.Proofs.Evaluation.Visibility
import DynLisp.Session

/-!
# Printing to a sink with a limit

A sink that takes only some number of bytes (`Sink.TakesOnly`) cuts the output of an evaluation
off there, and does nothing else to it (`full_sink_truncates`): it is given the first bytes of what
would be printed otherwise; as long as all of them fit, the evaluation ends as it would otherwise,
and if they do not, the write that does not fit is the last thing that happens.

Two runs, with and without the limit, are compared by `Ends`. No operation of evaluation does more
with its sink than to be cut off (`congruence_truncates`), and whole requests to a session are
evaluations of one expression after the other (`Session.mapM_eval`).
-/

namespace DynLisp

/-! ## Lines -/

namespace Sink

theorem extract_min_size (bytes : ByteArray) (n : Nat) :
    bytes.extract 0 (min n bytes.size) = bytes.extract 0 n := by
  have hextract := @ByteArray.extract_extract bytes 0 bytes.size 0 n
  rw [ByteArray.extract_zero_size, Nat.zero_add, Nat.zero_add] at hextract
  exact hextract.symm

/-- The sink takes `n` more bytes, also as the beginning of a longer text, and it flushes them. -/
structure TakesOnly (s : Sink) (n : Nat) : Prop where
  limited : s.capacity = some (s.written.size + n)
  flushes : s.flushFails = false

variable {s : Sink} {n : Nat}

theorem TakesOnly.room (h : s.TakesOnly n) (k : Nat) : s.room k = min n k := by
  simp only [Sink.room, h.limited, Nat.add_sub_cancel_left, Nat.min_comm]

theorem TakesOnly.took (h : s.TakesOnly n) {out : ByteArray} (hfits : out.size ≤ n) :
    (s.took out).TakesOnly (n - out.size) where
  limited := by
    have hsize : (s.took out).written.size = s.written.size + out.size := ByteArray.size_append
    have hcapacity : (s.took out).capacity = some (s.written.size + n) := h.limited
    rw [hcapacity, hsize, Nat.add_assoc, Nat.add_sub_cancel' hfits]
  flushes := h.flushes

/-- What is taken of a text is its beginning, and the write fails unless that is all of it. -/
theorem TakesOnly.write (h : s.TakesOnly n) (text : String) :
    s.write text =
      (if text.toUTF8.size ≤ n then .ok () else .error s.fullFault,
        s.took (text.toUTF8.extract 0 n)) := by
  have hfits : min n text.toUTF8.size = text.toUTF8.size ↔ text.toUTF8.size ≤ n := by omega
  simp only [Sink.write, h.room, hfits, extract_min_size, Sink.took]

/-- A line is written in pieces up to where the sink is full, and flushed if it fits. -/
theorem TakesOnly.writeLine (h : s.TakesOnly n) (pieces : List String) :
    s.writeLine pieces =
      (if (lineOf pieces).toUTF8.size ≤ n then .ok () else .error s.fullFault,
        s.took ((lineOf pieces).toUTF8.extract 0 n)) := by
  have hflush : (s.took ((lineOf pieces).toUTF8.extract 0 n)).flush = .ok () :=
    if_neg (by simp only [Sink.took, h.flushes, Bool.false_eq_true, not_false_eq_true])
  rw [writeLine_eq, h.write]
  by_cases hfits : (lineOf pieces).toUTF8.size ≤ n
  · simp only [hfits, if_true, hflush]
  · simp only [hfits, if_false]

end Sink

/-! ## Evaluations -/

/-- Where a run ends that has room for `n` bytes in `sink`, if without that limit it prints `out`
and ends with the result `r` in the environment `env`. -/
structure CutOff {α : Type} (n : Nat) (out : ByteArray) (sink : Sink) (r : Except EvalError α)
    (env : Environment) (r' : Except EvalError α) (t' : Interp) : Prop where
  written : t'.sink = sink.took (out.extract 0 n)
  whole : out.size ≤ n → r' = r ∧ t'.env = env
  failed : n < out.size → r' = .error (.output sink.fullFault)

namespace CutOff

variable {α β : Type} {n : Nat} {out : ByteArray} {sink : Sink} {r r' : Except EvalError α}
  {env : Environment} {t' : Interp}

theorem written_of_fits (h : CutOff n out sink r env r' t') (hfits : out.size ≤ n) :
    t'.sink = sink.took out := by
  have hmax := ByteArray.extract_zero_max_size (a := out) (i := n)
  rw [Nat.max_eq_left hfits] at hmax
  rw [h.written, hmax]

/-- A run that failed in its first part, cut off there or not, has failed. -/
theorem of_error {e : EvalError} (h : CutOff n out sink (.error e : Except EvalError α) env r' t') :
    ∃ e', r' = .error e' ∧
      CutOff n out sink (.error e : Except EvalError β) env (.error e') t' := by
  rcases Nat.lt_or_ge n out.size with hlt | hfits
  · exact ⟨_, h.failed hlt, h.written, fun hfits => by omega, fun _ => rfl⟩
  · obtain ⟨hr, henv⟩ := h.whole hfits
    exact ⟨e, hr, h.written, fun _ => ⟨rfl, henv⟩, fun hlt => by omega⟩

/-- No byte that is printed after a run was cut off is among those taken. -/
theorem append_of_lt (h : CutOff n out sink r env r' t') (hlt : n < out.size) (out' : ByteArray)
    (r₁ : Except EvalError β) (env₁ : Environment) :
    CutOff n (out ++ out') sink r₁ env₁ (.error (.output sink.fullFault)) t' where
  written := by
    rw [h.written, Sink.extract_append_of_le _ _ (Nat.le_of_lt hlt)]
  whole hfits := by
    rw [ByteArray.size_append] at hfits
    omega
  failed _ := rfl

/-- A run of which the first part fits is cut off as its second part is. -/
theorem append_of_fits (h : CutOff n out sink r env r' t') (hfits : out.size ≤ n)
    {out' : ByteArray} {r₁ r₁' : Except EvalError β} {env₁ : Environment} {u' : Interp}
    (h' : CutOff (n - out.size) out' t'.sink r₁ env₁ r₁' u') :
    CutOff n (out ++ out') sink r₁ env₁ r₁' u' where
  written := by
    have hsplit := Sink.extract_append_add out out' (n - out.size)
    rw [Nat.add_sub_cancel' hfits] at hsplit
    rw [h'.written, h.written_of_fits hfits, Sink.took_took, hsplit]
  whole hall := by
    rw [ByteArray.size_append] at hall
    exact h'.whole (by omega)
  failed hlt := by
    rw [ByteArray.size_append] at hlt
    rw [h'.failed (by omega), h.written_of_fits hfits]
    rfl

end CutOff

/-- A limit of the sink cuts the output of the evaluation off, and does nothing else to it. -/
def Truncates {α : Type} (x : EvalM α) : Prop :=
  ∀ s r t, s.sink.TakesAll → x s = some (r, t) → ∃ out, t.sink = s.sink.took out ∧
    ∀ (s' : Interp) (n : Nat), s'.sink.TakesOnly n → s'.env = s.env →
      ∃ r' t', x s' = some (r', t') ∧ CutOff n out s'.sink r t.env r' t'

namespace Truncates

variable {α β : Type}

/-- An evaluation that leaves the sink alone, and does not look at it. -/
theorem of_silent {x : EvalM α} (f : Environment → Except EvalError α × Environment)
    (hx : ∀ s, x s = some ((f s.env).1, { s with env := (f s.env).2 })) : Truncates x := by
  intro s r t _ h
  rw [hx] at h
  cases h
  refine ⟨.empty, (Sink.took_empty _).symm, fun s' n _ henv => ⟨_, _, hx s', ?_, ?_, ?_⟩⟩
  · have hnone : ByteArray.empty.extract 0 n = .empty :=
      ByteArray.extract_eq_empty_iff.2 (Nat.min_le_right _ _)
    rw [hnone, Sink.took_empty]
  · intro _
    simp only [henv, and_self]
  · intro hlt
    exact absurd hlt (Nat.not_lt_zero n)

/-- If the first part was cut off, or failed otherwise, nothing of the second is run. -/
theorem bind {x : EvalM α} {f : α → EvalM β} (hx : Truncates x) (hf : ∀ a, Truncates (f a)) :
    Truncates (x >>= f) := by
  intro s r u hs h
  rcases Stateful.bind_eq_some h with ⟨e, he, rfl⟩ | ⟨a, t, ha, hu⟩
  · obtain ⟨out, hout, hlimited⟩ := hx s _ u hs he
    refine ⟨out, hout, fun s' n hs' henv => ?_⟩
    obtain ⟨r', t', ht', hcut⟩ := hlimited s' n hs' henv
    obtain ⟨e', rfl, hcut'⟩ := hcut.of_error
    exact ⟨_, t', Stateful.bind_of_error ht', hcut'⟩
  · obtain ⟨out, hout, hlimited⟩ := hx s _ t hs ha
    obtain ⟨out', hout', hlimited'⟩ := hf a t r u (hout ▸ hs.took out) hu
    refine ⟨out ++ out', by rw [hout', hout, Sink.took_took], fun s' n hs' henv => ?_⟩
    obtain ⟨r', t', ht', hcut⟩ := hlimited s' n hs' henv
    rcases Nat.lt_or_ge n out.size with hlt | hfits
    · obtain rfl := hcut.failed hlt
      exact ⟨_, t', Stateful.bind_of_error ht', hcut.append_of_lt hlt out' r u.env⟩
    · obtain ⟨rfl, henv'⟩ := hcut.whole hfits
      have htakes : t'.sink.TakesOnly (n - out.size) := by
        rw [hcut.written_of_fits hfits]
        exact hs'.took hfits
      obtain ⟨r'', u', hu', hcut'⟩ := hlimited' t' (n - out.size) htakes henv'
      exact ⟨r'', u', (Stateful.bind_of_ok ht').trans hu', hcut.append_of_fits hfits hcut'⟩

theorem writeLine (pieces : List String) : Truncates (EvalM.writeLine pieces) := by
  intro s r t hs h
  rw [EvalM.run_writeLine_of_takesAll hs] at h
  cases h
  refine ⟨_, rfl, fun s' n hs' henv => ⟨_, _, EvalM.run_writeLine pieces s', ?_, ?_, ?_⟩⟩
  · rw [hs'.writeLine]
  · intro hfits
    rw [hs'.writeLine, if_pos hfits]
    exact ⟨rfl, henv⟩
  · intro hlt
    rw [hs'.writeLine, if_neg (Nat.not_le.2 hlt)]
    rfl

theorem define (name : String) (v : Value) : Truncates (EvalM.define name v) := by
  refine .of_silent (fun env => ((env.define name v).map fun _ => (),
    (env.define name v).toOption.getD env)) fun s => ?_
  rw [EvalM.run_define]
  cases s.env.define name v <;> rfl

/-- The frame of a call is left in both runs. -/
theorem inCall {x : EvalM α} (hx : Truncates x) : Truncates (EvalM.inCall x) := by
  intro s r t hs h
  obtain ⟨u, hu, rfl⟩ := EvalM.inCall_ok h
  obtain ⟨out, hout, hlimited⟩ := hx { s with env := s.env.push } r u hs hu
  refine ⟨out, hout, fun s' n hs' henv => ?_⟩
  obtain ⟨r', u', hu', hcut⟩ := hlimited { s' with env := s'.env.push } n hs'
    (congrArg Environment.push henv)
  refine ⟨r', { u' with env := u'.env.pop }, ?_, hcut.written, fun hfits => ?_, hcut.failed⟩
  · rw [EvalM.run_inCall, hu']
    rfl
  · obtain ⟨hr, henv'⟩ := hcut.whole hfits
    exact ⟨hr, congrArg Environment.pop henv'⟩

end Truncates

theorem congruence_truncates : Congruence fun _ x _ => Truncates x where
  pure a := .of_silent (fun env => (.ok a, env)) fun _ => rfl
  throw e := .of_silent (fun env => (.error e, env)) fun _ => rfl
  bind := Truncates.bind
  lookup name := .of_silent (fun env => (env.lookup name, env)) fun s => EvalM.run_lookup name s
  define := Truncates.define
  writeLine := Truncates.writeLine
  inCall := Truncates.inCall
  unfinished _ := fun _ _ _ _ h => by cases h

/-! ## Requests -/

namespace Session

/-- What a session can be asked to evaluate: an expression, an application, or a text. -/
inductive Evaluation : {α : Type} → SessionM α → Prop where
  | eval (e : Value) : Evaluation (Session.eval e)
  | apply (callee args : Value) : Evaluation (Session.apply callee args)
  | text (source : String) : Evaluation (evalText source)
  | allText (source : String) : Evaluation (evalAllText source)

variable {α β : Type}

theorem run_evaluate (x : Limits → EvalM α) (s : Session) :
    evaluate x s = (x s.limits s.interp).map fun (r, t) =>
      (r.mapError .eval, { s with interp := t }) := by
  unfold evaluate
  rcases x s.limits s.interp with _ | _ <;> rfl

theorem evaluate_bind (x : Limits → EvalM α) (f : α → Limits → EvalM β) :
    (evaluate x >>= fun a => evaluate (f a)) =
      evaluate fun limits => x limits >>= fun a => f a limits := by
  funext s
  simp only [Stateful.run_bind, run_evaluate]
  rcases x s.limits s.interp with _ | ⟨_ | _, t⟩ <;> rfl

/-- Expressions that are evaluated one after the other are one evaluation. -/
theorem mapM_eval (es : List Value) :
    es.mapM eval = evaluate fun limits => es.mapM (limits.evalAt 0) := by
  induction es with
  | nil => rfl
  | cons e es ih =>
    have hcons : (e :: es).mapM eval = evaluate (fun limits => limits.evalAt 0 e) >>= fun v =>
        evaluate fun limits => es.mapM (limits.evalAt 0) >>= fun vs => pure (v :: vs) := by
      rw [List.mapM_cons, ih]
      simp only [eval, ← evaluate_bind]
      rfl
    rw [hcons, evaluate_bind]
    simp only [List.mapM_cons]

/-- What is asked is one evaluation, unless it is a text that cannot be read. -/
theorem Evaluation.eq_evaluate {call : SessionM α} (hcall : Evaluation call) :
    (∃ failure, call = throw failure) ∨
      ∃ run, call = evaluate run ∧ ∀ limits, Truncates (run limits) := by
  have heval : ∀ e (limits : Limits), Truncates (limits.evalAt 0 e) := fun e limits =>
    congruence_truncates.eval_self limits _ e
  cases hcall with
  | eval e => exact .inr ⟨_, rfl, heval e⟩
  | apply callee args =>
    exact .inr ⟨_, rfl, fun limits => congruence_truncates.applyAt_self limits 0 _ _⟩
  | text source =>
    rcases hread : Reader.parse source with failure | e
    · refine .inl ⟨.read failure, ?_⟩
      rw [evalText, hread]
      rfl
    · refine .inr ⟨fun limits => limits.evalAt 0 e, ?_, heval e⟩
      rw [evalText, hread]
      rfl
  | allText source =>
    rcases hread : Reader.parseAll source with failure | es
    · refine .inl ⟨.read failure, ?_⟩
      rw [evalAllText, hread]
      rfl
    · refine .inr ⟨fun limits => es.mapM (limits.evalAt 0), ?_, fun limits =>
        @Congruence.mapM _ _ (limits.evalAt 0) congruence_truncates (fun e => heval e limits) es⟩
      rw [evalAllText, hread, ← mapM_eval]
      rfl

/-- The session with a sink that takes `n` more bytes. -/
def withRoom (s : Session) (n : Nat) (whenFull : WhenFull) : Session :=
  { s with interp.sink :=
      { s.interp.sink with capacity := some (s.interp.sink.written.size + n), whenFull } }

end Session

/-- Take a session whose sink takes everything, and a request that ends in it after it has printed
some bytes. In the same session with a sink that takes `n` more bytes and flushes them, the request
ends too, and the first `n` of these bytes are in the sink, or all of them if they are fewer. If
they all fit, the result and the environment are the same; if not, the result is the output error of
the sink. -/
theorem full_sink_truncates {α : Type} {call : SessionM α} (hcall : Session.Evaluation call)
    {s t : Session} {r : Except Failure α} (hsink : s.interp.sink.TakesAll)
    (h : call s = some (r, t)) (n : Nat) (whenFull : WhenFull) :
    ∃ printed r' t', t.interp.sink.written = s.interp.sink.written ++ printed ∧
      call (s.withRoom n whenFull) = some (r', t') ∧
      t'.interp.sink.written = s.interp.sink.written ++ printed.extract 0 (min n printed.size) ∧
      (printed.size ≤ n → r' = r ∧ t'.interp.env = t.interp.env) ∧
      (n < printed.size →
        r' = .error (.eval (.output (s.withRoom n whenFull).interp.sink.fullFault))) := by
  have hroom : (s.withRoom n whenFull).interp.sink.TakesOnly n := ⟨rfl, hsink.flushes⟩
  rcases hcall.eq_evaluate with ⟨failure, rfl⟩ | ⟨run, rfl, hrun⟩
  · cases h
    refine ⟨.empty, _, _, ByteArray.append_empty.symm, rfl, ?_, fun _ => ⟨rfl, rfl⟩, fun hlt => ?_⟩
    · rw [ByteArray.extract_eq_empty_iff.2 (by simp), ByteArray.append_empty]
      rfl
    · exact absurd hlt (Nat.not_lt_zero n)
  · rw [Session.run_evaluate] at h
    obtain ⟨⟨outcome, u⟩, hu, hr⟩ := Option.map_eq_some_iff.1 h
    cases hr
    obtain ⟨out, hout, hlimited⟩ := hrun s.limits s.interp outcome u hsink hu
    obtain ⟨outcome', u', hu', hcut⟩ := hlimited (s.withRoom n whenFull).interp n hroom rfl
    refine ⟨out, outcome'.mapError .eval, { s.withRoom n whenFull with interp := u' }, ?_, ?_, ?_,
      fun hfits => ?_, fun hlt => ?_⟩
    · rw [hout]
      rfl
    · rw [Session.run_evaluate]
      exact Option.map_eq_some_iff.2 ⟨_, hu', rfl⟩
    · rw [Sink.extract_min_size, hcut.written]
      rfl
    · obtain ⟨rfl, henv⟩ := hcut.whole hfits
      exact ⟨rfl, henv⟩
    · rw [hcut.failed hlt]
      rfl

/-- Two lines are printed, and the sink is full in the middle of the list on the second. -/
theorem listing_cut_inside_list :
    ∃ r t, Session.evalAllText "(print 7) (print '(a b)) (print 8)"
        (({} : Session).withRoom 4 .refuse) = some (r, t) ∧
      t.interp.sink.written = "7\n(a".toUTF8 ∧ r = .error (.eval (.output .full)) := by
  have hends : (Session.evalAllText "(print 7) (print '(a b)) (print 8)" {}).map
      (fun p => p.2.interp.sink.written) = some "7\n(a b)\n8\n".toUTF8 := by
    decide +kernel
  obtain ⟨⟨r, t⟩, h, hwritten⟩ := Option.map_eq_some_iff.1 hends
  replace hwritten : t.interp.sink.written = "7\n(a b)\n8\n".toUTF8 := hwritten
  obtain ⟨printed, r', t', hprinted, ht', hcut, -, hfailed⟩ :=
    full_sink_truncates (.allText "(print 7) (print '(a b)) (print 8)") ⟨rfl, rfl⟩ h 4 .refuse
  obtain rfl : printed = "7\n(a b)\n8\n".toUTF8 := by
    rw [hprinted] at hwritten
    exact ByteArray.empty_append.symm.trans hwritten
  exact ⟨r', t', ht', hcut.trans (by decide +kernel), hfailed (by decide +kernel)⟩

end DynLisp
