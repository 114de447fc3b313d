import DynLisp.ChainMap.Basic

/-!
# Walking through a chained map

A `Cursor` stands between two entries of a map and knows how many are left. `next` gives the entry
after it, `take` the next few. The main fact is `entries_next`: a step takes the first of the
entries that lie ahead, and none when there is none.
-/

namespace DynLisp

namespace ChainMap

variable {κ ν : Type}

/-- A place in the order of a map: what is left of the chain it is in, the chains after it, and the
number of entries left. -/
structure Cursor (κ ν : Type) where
  chain : List (κ × ν)
  chains : List (List (κ × ν))
  remaining : Nat

/-- The place before the first entry. -/
def cursor (m : ChainMap κ ν) : Cursor κ ν where
  chain := []
  chains := m.chains.toList
  remaining := m.size

namespace Cursor

/-- The entries that lie ahead. -/
def entries (c : Cursor κ ν) : List (κ × ν) :=
  c.chain ++ c.chains.flatten

/-- A step through the given chains, of which the first is partly walked. -/
def step (remaining : Nat) : (chain : List (κ × ν)) → (chains : List (List (κ × ν))) →
    Option (κ × ν) × Cursor κ ν
  | e :: chain, chains => (some e, ⟨chain, chains, remaining - 1⟩)
  | [], [] => (none, ⟨[], [], remaining⟩)
  | [], chain :: chains => step remaining chain chains

/-- The next entry, if there is one, and the place after it. -/
def next (c : Cursor κ ν) : Option (κ × ν) × Cursor κ ν :=
  step c.remaining c.chain c.chains

/-- At most `n` entries, and the place after them. -/
def take : Nat → Cursor κ ν → List (κ × ν) × Cursor κ ν
  | 0, c => ([], c)
  | n + 1, c =>
    match c.next with
    | (none, c) => ([], c)
    | (some e, c) =>
      let (es, c) := take n c
      (e :: es, c)

/-! ## What lies ahead -/

theorem entries_cursor (m : ChainMap κ ν) : m.cursor.entries = m.toList := rfl

theorem step_eq (remaining : Nat) (chain : List (κ × ν)) (chains : List (List (κ × ν))) :
    (step remaining chain chains).1 = (chain ++ chains.flatten).head? ∧
      (step remaining chain chains).2.entries = (chain ++ chains.flatten).tail := by
  induction chains generalizing chain with
  | nil => cases chain <;> simp [step, entries]
  | cons c cs ih =>
    cases chain with
    | nil => rw [step]; simpa using ih c
    | cons e es => simp [step, entries]

/-- A step takes the first entry ahead and leaves the others. -/
theorem entries_next (c : Cursor κ ν) :
    c.next.1 = c.entries.head? ∧ c.next.2.entries = c.entries.tail :=
  step_eq _ _ _

end Cursor

end ChainMap

end DynLisp
