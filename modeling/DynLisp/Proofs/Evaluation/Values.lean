import DynLisp.Eval.Call
import DynLisp.Proofs.Except

/-!
# Values that evaluation can make

Values are made by evaluation in a few ways only: results of arithmetic and comparisons are numbers,
pairs are made of values and taken apart, and procedures are made from formals that were checked. A
class of values that all of these keep is a `ValueClass`:

* `ValueClass.run_primitive`: the results of primitive operations;
* `ValueClass.makeProcedure`: procedures;
* `ValueClass.of_toList`, `ValueClass.of_splitBindings`: the parts of forms.
-/

namespace DynLisp

/-- A class of values that is kept by all ways to make values. -/
structure ValueClass (W : Value → Prop) : Prop where
  nil : W .nil
  int : ∀ n, W (.int n)
  float : ∀ x, W (.float x)
  pair_iff : ∀ {v w}, W (.pair v w) ↔ W v ∧ W w
  procedure : ∀ {formals e es}, checkFormals formals = .ok () → W formals → W (.ofList (e :: es)) →
    W (.procedure formals (.ofList (e :: es)))
  parts : ∀ {formals body}, W (.procedure formals body) → W formals ∧ W body

namespace ValueClass

variable {W : Value → Prop}

/-! ## Lists -/

theorem ofListTail (h : ValueClass W) {vs : List Value} {tail : Value} (hvs : ∀ v ∈ vs, W v)
    (htail : W tail) : W (.ofListTail vs tail) := by
  induction vs with
  | nil => exact htail
  | cons v vs ih =>
    exact h.pair_iff.2 ⟨hvs v List.mem_cons_self, ih fun w hw => hvs w (List.mem_cons_of_mem _ hw)⟩

theorem ofList (h : ValueClass W) {vs : List Value} (hvs : ∀ v ∈ vs, W v) : W (.ofList vs) :=
  h.ofListTail hvs h.nil

theorem of_mem_items (h : ValueClass W) {v w : Value} (hv : W v) (hw : w ∈ v.items) : W w := by
  induction v with
  | pair head tail _ ih =>
    obtain ⟨hhead, htail⟩ := h.pair_iff.1 hv
    rcases List.mem_cons.1 hw with rfl | hw
    · exact hhead
    · exact ih htail hw
  | _ => exact (List.not_mem_nil hw).elim

theorem of_toList (h : ValueClass W) {v w : Value} {vs : List Value} (hv : W v)
    (hvs : v.toList = .ok vs) (hw : w ∈ vs) : W w := by
  obtain rfl := Value.toList_eq_ok_iff.1 hvs
  rw [← Value.items_ofList vs] at hw
  exact h.of_mem_items hv hw

theorem asOperands (h : ValueClass W) {v : Value} (hv : W v) : W (asOperands v) := by
  unfold DynLisp.asOperands
  split
  · exact hv
  · exact h.pair_iff.2 ⟨hv, h.nil⟩

theorem ofBool (h : ValueClass W) (b : Bool) : W (.ofBool b) :=
  h.int _

/-! ## Primitive operations -/

theorem of_int (h : ValueClass W) {x : Except EvalError Int64} {v : Value}
    (hv : (do return .int (← x)) = Except.ok v) : W v := by
  obtain ⟨n, -, hn⟩ := exists_of_bind_eq_ok hv
  exact Except.ok.inj hn ▸ h.int n

/-- Sums and products. -/
theorem of_fold (h : ValueClass W) {op : Primitive} {f : Int → Int → Int} {start : Int64}
    {g : List Float → Float} {args : List Value} {v : Value}
    (hv : (Arithmetic.operands op args >>= fun sorted => match sorted with
      | .integers ns => do return .int (← Arithmetic.foldChecked op f start ns)
      | .floats xs => return .float (g xs)) = Except.ok v) : W v := by
  obtain ⟨sorted, -, hv⟩ := exists_of_bind_eq_ok hv
  cases sorted with
  | integers ns => exact h.of_int hv
  | floats xs => exact Except.ok.inj hv ▸ h.float _

theorem of_sub (h : ValueClass W) {args : List Value} {v : Value}
    (hv : Arithmetic.sub args = .ok v) : W v := by
  obtain ⟨operands, -, hv⟩ := exists_of_bind_eq_ok hv
  split at hv
  · cases hv
  · cases hv
  · exact h.of_int hv
  · exact h.of_int hv
  · exact Except.ok.inj hv ▸ h.float _
  · exact Except.ok.inj hv ▸ h.float _

theorem of_div (h : ValueClass W) {args : List Value} {v : Value}
    (hv : Arithmetic.div args = .ok v) : W v := by
  obtain ⟨operands, -, hv⟩ := exists_of_bind_eq_ok hv
  dsimp only at hv
  split at hv
  · cases hv
  split at hv
  · cases hv
  · cases hv
  · exact h.of_int hv
  · exact h.of_int hv
  · exact Except.ok.inj hv ▸ h.float _
  · exact Except.ok.inj hv ▸ h.float _

theorem of_roundBy (h : ValueClass W) {op : Primitive} {round : Binary64 → Option Int}
    {args : List Value} {v : Value} (hv : Arithmetic.roundBy op round args = .ok v) : W v := by
  unfold Arithmetic.roundBy at hv
  split at hv
  · exact Except.ok.inj hv ▸ h.int _
  · split at hv
    · exact Except.ok.inj hv ▸ h.int _
    · cases hv
  · cases hv
  · cases hv

theorem of_unary {f : Value → Except EvalError Value} {args : List Value} {v : Value}
    (hf : ∀ a v, W a → f a = .ok v → W v) (hargs : ∀ a ∈ args, W a)
    (hv : Primitive.unary f args = .ok v) : W v := by
  unfold Primitive.unary at hv
  split at hv
  · exact hf _ v (hargs _ List.mem_cons_self) hv
  · cases hv

theorem of_predicate (h : ValueClass W) {p : Value → Bool} {args : List Value} {v : Value}
    (hargs : ∀ a ∈ args, W a) (hv : Primitive.predicate p args = .ok v) : W v :=
  of_unary (fun _ _ _ hv => Except.ok.inj hv ▸ h.ofBool _) hargs hv

theorem of_cons (h : ValueClass W) {args : List Value} {v : Value} (hargs : ∀ a ∈ args, W a)
    (hv : Primitive.binary (fun v w => .ok (.pair v w)) args = .ok v) : W v := by
  unfold Primitive.binary at hv
  split at hv
  · cases hv
    obtain ⟨hhead, htail⟩ := List.forall_mem_cons.1 hargs
    exact h.pair_iff.2 ⟨hhead, htail _ List.mem_cons_self⟩
  · cases hv

/-- Parts of a pair, and what is no part of one, belong to the class. -/
theorem of_car (h : ValueClass W) {v w : Value} (hv : W v) (hw : v.car = .ok w) : W w := by
  cases v with
  | pair head tail => exact Except.ok.inj hw ▸ (h.pair_iff.1 hv).1
  | _ => cases hw

theorem of_cdr (h : ValueClass W) {v w : Value} (hv : W v) (hw : v.cdr = .ok w) : W w := by
  cases v with
  | pair head tail => exact Except.ok.inj hw ▸ (h.pair_iff.1 hv).2
  | _ => cases hw

theorem of_less (h : ValueClass W) {args : List Value} {v : Value}
    (hv : Order.less args = .ok v) : W v := by
  unfold Order.less at hv
  cases hfind : args.find? fun v => !Order.isOrdered v with
  | some w =>
    rw [hfind] at hv
    cases hv
  | none =>
    rw [hfind] at hv
    obtain ⟨b, -, hb⟩ := exists_of_bind_eq_ok hv
    exact Except.ok.inj hb ▸ h.ofBool b

/-- A primitive operation makes no value out of the class. -/
theorem run_primitive (h : ValueClass W) {op : Primitive} {args : List Value} {v : Value}
    (hargs : ∀ a ∈ args, W a) (hv : op.run args = .ok v) : W v := by
  cases op with
  | add => exact h.of_fold hv
  | sub => exact h.of_sub hv
  | mul => exact h.of_fold hv
  | div => exact h.of_div hv
  | ceiling => exact h.of_roundBy hv
  | floor => exact h.of_roundBy hv
  | cons => exact h.of_cons hargs hv
  | car => exact of_unary (fun _ _ => h.of_car) hargs hv
  | cdr => exact of_unary (fun _ _ => h.of_cdr) hargs hv
  | less => exact h.of_less hv
  | _ => exact h.of_predicate hargs hv

/-! ## Procedures and their parts -/

/-- Formals in order and a body make a procedure of the class. -/
theorem makeProcedure (h : ValueClass W) {formals e v : Value} {es : List Value}
    (hformals : W formals) (hbody : ∀ e' ∈ e :: es, W e')
    (hv : makeProcedure formals (e :: es) = .ok v) : W v := by
  obtain ⟨_, hcheck, hv⟩ := exists_of_bind_eq_ok hv
  cases hv
  exact h.procedure hcheck hformals (h.ofList hbody)

theorem splitBinding_eq_ok {binding : Value} {p : String × Value}
    (h : splitBinding binding = .ok p) : binding.toList = .ok [.symbol p.1, p.2] := by
  unfold splitBinding at h
  split at h
  · rename_i hlist
    cases h
    exact hlist
  · cases h

/-- What `let` binds, and to what, are parts of its bindings. -/
theorem of_splitBindings (h : ValueClass W) {bindings : Value} {pairs : List (String × Value)}
    (hbindings : W bindings) (hpairs : splitBindings bindings = .ok pairs) {p : String × Value}
    (hp : p ∈ pairs) : W (.symbol p.1) ∧ W p.2 := by
  unfold splitBindings at hpairs
  dsimp only at hpairs
  split at hpairs
  · cases hpairs
  · obtain ⟨items, hlist, hmap⟩ := exists_of_bind_eq_ok hpairs
    obtain ⟨binding, hmem, hsplit⟩ := exists_of_mapM_eq_ok hmap hp
    have hbinding : W binding := h.of_toList hbindings hlist hmem
    have hparts := splitBinding_eq_ok hsplit
    exact ⟨h.of_toList hbinding hparts List.mem_cons_self,
      h.of_toList hbinding hparts (List.mem_cons_of_mem _ List.mem_cons_self)⟩

end ValueClass

end DynLisp
