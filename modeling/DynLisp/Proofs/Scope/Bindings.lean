import Mathlib.Data.List.Basic
import Std.Data.TreeMap.Lemmas
import DynLisp.Proofs.ChainMap.WellFormed
import DynLisp.Proofs.Scope.Lookup

/-!
# Names and the list of bindings

A name is looked up from the inside out, and stops at the first frame that binds it; the list of
bindings is made from the outside in, and each frame overwrites what is there (`shadow`). For frames
that bind no name twice both come to the same, but for the names of builtins, which the list skips
where the global frame binds them:

* `getElem?_foldr_shadow`: what the traversal from the outside finds for a name;
* `mem_bindings_iff`: which bindings are listed;
* `pairwise_bindings`: they are listed in the order of their names.
-/

namespace DynLisp

theorem Builtin.find?_isSome_iff {name : String} :
    (find? name).isSome = true ↔ ∃ b : Builtin, b.name = name := by
  rw [Option.isSome_iff_exists]
  simp only [find?_eq_some_iff]

namespace Environment

theorem isInitial_local (name : String) : isInitial .local name = false := rfl

theorem isInitial_global (name : String) :
    isInitial .global name = (Builtin.find? name).isSome := rfl

/-! ## From the outside in -/

theorem getElem?_insert (visible : Std.TreeMap String Value) (name name' : String) (v : Value) :
    (visible.insert name v)[name']? = if name = name' then some v else visible[name']? := by
  rw [Std.TreeMap.getElem?_insert]
  simp only [Std.LawfulEqCmp.compare_eq_iff_eq]

/-- Bindings of distinct names overwrite what was visible of these names. -/
theorem getElem?_foldl_insert (scope : Scope) {es : List (String × Value)}
    (hes : es.Pairwise fun e e' => (e.1 == e'.1) = false) (visible : Std.TreeMap String Value)
    (name : String) :
    (es.foldl (fun visible (n, v) =>
        if isInitial scope n then visible else visible.insert n v) visible)[name]? =
      if isInitial scope name then visible[name]?
      else ((es.find? (·.1 == name)).map Prod.snd).or visible[name]? := by
  induction es generalizing visible with
  | nil => cases isInitial scope name <;> rfl
  | cons e es ih =>
    obtain ⟨n, v⟩ := e
    obtain ⟨hnew, hes⟩ := List.pairwise_cons.1 hes
    rw [List.foldl_cons, ih hes, List.find?_cons]
    by_cases hn : n = name
    · subst hn
      have hnone : es.find? (·.1 == n) = none := by
        refine List.find?_eq_none.2 fun e he h => ?_
        rw [BEq.comm, hnew e he] at h
        exact Bool.false_ne_true h
      cases hinit : isInitial scope n with
      | true => simp [hinit]
      | false => simp [hinit, hnone]
    · have hvisible : (if isInitial scope n then visible else visible.insert n v)[name]? =
          visible[name]? := by
        split
        · rfl
        · rw [getElem?_insert, if_neg hn]
      simp only [hvisible, beq_false_of_ne hn]

theorem getElem?_shadow {f : Frame} (hf : f.entries.WellFormed)
    (visible : Std.TreeMap String Value) (name : String) :
    (shadow visible f)[name]? =
      if isInitial f.scope name then visible[name]? else (f.get? name).or visible[name]? := by
  have hget : f.get? name = (f.toList.find? (·.1 == name)).map Prod.snd :=
    hf.get?_eq_find? name
  rw [hget]
  exact getElem?_foldl_insert f.scope hf.distinct visible name

/-- The traversal from the outside finds for a name what the innermost frame says that binds it, if
the frames that bind it from the start are left out. -/
theorem getElem?_foldr_shadow {fs : List Frame} (hfs : ∀ f ∈ fs, f.entries.WellFormed)
    (name : String) :
    (fs.foldr (fun f visible => shadow visible f) (∅ : Std.TreeMap String Value))[name]? =
      fs.findSome? fun f => if isInitial f.scope name then none else f.get? name := by
  induction fs with
  | nil => exact Std.TreeMap.getElem?_emptyc
  | cons f fs ih =>
    rw [List.foldr_cons, getElem?_shadow (hfs f List.mem_cons_self),
      ih fun g hg => hfs g (List.mem_cons_of_mem f hg), List.findSome?_cons]
    cases isInitial f.scope name with
    | true => rfl
    | false => cases f.get? name <;> rfl

/-! ## The list of bindings -/

/-- The bindings are listed in the order of their names. -/
theorem pairwise_bindings (env : Environment) : env.bindings.Pairwise fun b b' => b.1 < b'.1 := by
  have hkeys : env.bindings.Pairwise fun b b' => compare b.1 b'.1 = .lt :=
    Std.TreeMap.ordered_keys_toList
  exact hkeys.imp compareOfLessAndEq_eq_lt.1

/-- A binding is listed if its name means its value, and is either not that of a builtin or bound in
some local frame. -/
theorem mem_bindings_iff {env : Environment} (hfs : ∀ f ∈ env.frames, f.entries.WellFormed)
    (hglobal : env.global.scope = .global) (hlocals : ∀ f ∈ env.locals, f.scope = .local)
    (name : String) (v : Value) :
    (name, v) ∈ env.bindings ↔ env.get? name = some v ∧
      ((∀ b : Builtin, b.name ≠ name) ∨ ∃ f ∈ env.locals, f.contains name = true) := by
  have hinner : (env.locals.findSome? fun f => if isInitial f.scope name then none else f.get? name) =
      env.locals.findSome? (·.get? name) := by
    rw [← List.head?_filterMap, ← List.head?_filterMap]
    refine congrArg List.head? (List.filterMap_congr fun f hf => ?_)
    rw [hlocals f hf, isInitial_local]
    exact if_neg Bool.false_ne_true
  unfold bindings
  rw [Std.TreeMap.mem_toList_iff_getElem?_eq_some, getElem?_foldr_shadow hfs, frames,
    List.findSome?_append, List.findSome?_singleton, hinner, hglobal, isInitial_global,
    get?_eq_locals_or]
  cases hl : env.locals.findSome? (·.get? name) with
  | some w =>
    have hbound : ∃ f ∈ env.locals, f.contains name = true := by
      obtain ⟨f, hf, hw⟩ := List.exists_of_findSome?_eq_some hl
      exact ⟨f, hf, by rw [Frame.contains_eq, hw]; rfl⟩
    simp only [Option.some_or, hbound, or_true, and_true]
  | none =>
    have hunbound : ¬ ∃ f ∈ env.locals, f.contains name = true := by
      rintro ⟨f, hf, hc⟩
      rw [Frame.contains_eq, List.findSome?_eq_none_iff.1 hl f hf] at hc
      cases hc
    simp only [Option.none_or, hunbound, or_false]
    cases hb : (Builtin.find? name).isSome with
    | true =>
      obtain ⟨b, hb⟩ := Builtin.find?_isSome_iff.1 hb
      simp only [if_pos, reduceCtorEq, false_iff, not_and, not_forall]
      exact fun _ => ⟨b, fun hne => hne hb⟩
    | false =>
      have hnot : ∀ b : Builtin, b.name ≠ name := fun b h => by
        rw [Builtin.find?_isSome_iff.2 ⟨b, h⟩] at hb
        cases hb
      simp [hnot]

end Environment

end DynLisp
