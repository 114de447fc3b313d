import DynLisp.Proofs.Evaluation.Values
import DynLisp.Proofs.Reading.OpenForms

/-!
# Data that are read

What is read of text is built from numbers, symbols and `()` by pairs alone. So it belongs to every
class of values that has all symbols in it (`of_parse`, `of_parseAll`): lexeme by lexeme, all data
that are complete do, and those in the forms that are open (`Progress.AllIn`).
-/

namespace DynLisp.Reader

open Progress

variable {W : Value → Prop} {config : Config} {p p' : Progress}

/-- One datum is read as all are, if it is read. -/
theorem foldlM_of_readOne {maxDepth : Nat} {ls : List Lexeme} {vs : List Value}
    (h : readOne maxDepth p ls = .ok vs) :
    ∃ p', ls.foldlM (step maxDepth) p = .ok p' ∧ p'.finish maxDepth = .ok vs := by
  induction ls generalizing p with
  | nil => exact ⟨p, rfl, h⟩
  | cons l ls ih =>
    cases hsingle : p.isSingle with
    | true =>
      rw [readOne_of_isSingle hsingle] at h
      cases h
    | false =>
      rw [readOne_cons hsingle] at h
      obtain ⟨p₁, hl, hls⟩ := exists_of_bind_eq_ok h
      rw [List.foldlM_cons, hl]
      exact ih hls

/-- The data in an open form belong to the class. -/
def Pending.AllIn (W : Value → Prop) : Pending → Prop
  | .list elements | .dotted elements => ∀ v ∈ elements, W v
  | .ending elements tail => (∀ v ∈ elements, W v) ∧ W tail
  | .quoted => True

/-- All data that were read belong to the class. -/
structure Progress.AllIn (W : Value → Prop) (p : Progress) : Prop where
  done : ∀ v ∈ p.done, W v
  pending : ∀ form ∈ p.pending, form.AllIn W

variable (h : ValueClass W) (hsymbol : ∀ name, W (.symbol name))

include h hsymbol

/-- Numbers and symbols are all that an atom stands for. -/
theorem of_readAtom {text : List Char} {v : Value} (hv : readAtom text = .ok v) : W v := by
  unfold readAtom at hv
  split at hv
  · unfold Numeral.toValue at hv
    split at hv
    · split at hv
      · cases hv
        exact h.int _
      · cases hv
    · cases hv
      exact h.float _
  · split at hv
    · cases hv
    · split at hv
      · cases hv
      · cases hv
        exact hsymbol _

theorem allIn_complete {done : List Value} {pending : List Pending} {v : Value}
    (hdone : ∀ w ∈ done, W w) (hpending : ∀ form ∈ pending, form.AllIn W) (hv : W v) :
    (complete done pending v).AllIn W := by
  induction pending generalizing v with
  | nil => exact ⟨List.forall_mem_cons.2 ⟨hv, hdone⟩, hpending⟩
  | cons form pending ih =>
    obtain ⟨hform, hrest⟩ := List.forall_mem_cons.1 hpending
    cases form with
    | list elements =>
      exact ⟨hdone, List.forall_mem_cons.2 ⟨List.forall_mem_cons.2 ⟨hv, hform⟩, hrest⟩⟩
    | dotted elements => exact ⟨hdone, List.forall_mem_cons.2 ⟨⟨hform, hv⟩, hrest⟩⟩
    | ending elements tail => exact ⟨hdone, List.forall_mem_cons.2 ⟨hform, hrest⟩⟩
    | quoted => exact ih hrest (h.pair_iff.2 ⟨hsymbol "quote", h.pair_iff.2 ⟨hv, h.nil⟩⟩)

theorem Progress.AllIn.advances {maxDepth : Nat} {token : Token}
    (hadvances : Advances maxDepth p token p') (hp : p.AllIn W) : p'.AllIn W := by
  obtain ⟨hdone, hpending⟩ := hp
  cases hadvances with
  | openParen _ _ =>
    exact ⟨hdone, List.forall_mem_cons.2 ⟨fun v hv => (List.not_mem_nil hv).elim, hpending⟩⟩
  | quoteMark _ _ => exact ⟨hdone, List.forall_mem_cons.2 ⟨trivial, hpending⟩⟩
  | atom _ _ hread => exact allIn_complete h hsymbol hdone hpending (of_readAtom h hsymbol hread)
  | dot _ =>
    obtain ⟨hform, hrest⟩ := List.forall_mem_cons.1 hpending
    exact ⟨hdone, List.forall_mem_cons.2 ⟨hform, hrest⟩⟩
  | closeList =>
    obtain ⟨hform, hrest⟩ := List.forall_mem_cons.1 hpending
    refine allIn_complete h hsymbol hdone hrest (h.ofList fun v hv => ?_)
    exact hform v (List.mem_reverse.1 hv)
  | closeEnding =>
    obtain ⟨⟨helements, htail⟩, hrest⟩ := List.forall_mem_cons.1 hpending
    refine allIn_complete h hsymbol hdone hrest (h.ofListTail (fun v hv => ?_) htail)
    exact helements v (List.mem_reverse.1 hv)

theorem allIn_read {text : List Char} (hread : ({} : Progress).read config text = .ok p) :
    p.AllIn W :=
  read_induction (Progress.AllIn.advances h hsymbol) hread
    ⟨fun _ hv => (List.not_mem_nil hv).elim, fun _ hform => (List.not_mem_nil hform).elim⟩

theorem of_parseAll {text : String} {vs : List Value} (hread : config.parseAll text = .ok vs) :
    ∀ v ∈ vs, W v := by
  obtain ⟨p, hp, -, rfl⟩ := Config.exists_read_of_parseAll hread
  exact fun v hv => (allIn_read h hsymbol hp).done v (List.mem_reverse.1 hv)

theorem of_parse {text : String} {v : Value} (hread : config.parse text = .ok v) : W v := by
  unfold Config.parse at hread
  dsimp only at hread
  split at hread
  · cases hread
  · rename_i vs hvs
    cases hread
    obtain ⟨p, hp, hfinish⟩ := foldlM_of_readOne hvs
    have hmem : v ∈ p.done.reverse := by
      by_cases hpending : p.pending = []
      · rw [finish_of_complete hpending] at hfinish
        rw [Except.ok.inj hfinish]
        exact List.mem_cons_self
      · rw [finish_of_pending hpending] at hfinish
        cases hfinish
    exact (allIn_read h hsymbol hp).done v (List.mem_reverse.1 hmem)
  · cases hread

end DynLisp.Reader
