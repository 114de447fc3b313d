import DynLisp.Arity

/-!
# The builtin operations

A builtin is a `Primitive`, which works on evaluated operands, or a `SpecialForm`, which decides
itself what to evaluate. `Builtin.all` lists them in the order in which the global frame binds
their names; `Builtin.find?` is the way back from a name. The main facts are `nodup_names` and
`find?_eq_some_iff`: names tell builtins apart.
-/

namespace DynLisp

/-- Operations on evaluated operands. -/
inductive Primitive where
  | add | sub | mul | div | ceiling | floor
  | cons | car | cdr
  | nullp | symbolp | intp | doublep | listp | procedurep
  | less | not
deriving DecidableEq

/-- Forms whose operands are not all evaluated first. -/
inductive SpecialForm where
  | quote | branch | define | print | eval | lambda | apply | letIn
deriving DecidableEq

/-- An operation that the global frame binds at the start. -/
inductive Builtin where
  | primitive (op : Primitive)
  | special (form : SpecialForm)
deriving DecidableEq

namespace Primitive

def name : Primitive → String
  | add => "+"
  | sub => "-"
  | mul => "*"
  | div => "/"
  | ceiling => "ceiling"
  | floor => "floor"
  | cons => "cons"
  | car => "car"
  | cdr => "cdr"
  | nullp => "nullp"
  | symbolp => "symbolp"
  | intp => "intp"
  | doublep => "doublep"
  | listp => "listp"
  | procedurep => "procedurep"
  | less => "<"
  | not => "not"

def arity : Primitive → Arity
  | add | mul | less => .any
  | sub | div => .atLeast 1
  | cons => .exactly 2
  | _ => .exactly 1

end Primitive

namespace SpecialForm

def name : SpecialForm → String
  | quote => "quote"
  | branch => "if"
  | define => "define"
  | print => "print"
  | eval => "eval"
  | lambda => "lambda"
  | apply => "apply"
  | letIn => "let"

def arity : SpecialForm → Arity
  | quote | print | eval => .exactly 1
  | define | apply => .exactly 2
  | branch => .between 2 3
  | lambda | letIn => .atLeast 2

end SpecialForm

namespace Builtin

def name : Builtin → String
  | primitive op => op.name
  | special form => form.name

/-- The operand counts with which a builtin may be called. -/
def arity : Builtin → Arity
  | primitive op => op.arity
  | special form => form.arity

def isSpecial : Builtin → Bool
  | primitive _ => false
  | special _ => true

/-- All builtins, in the order of their binding in the global frame. -/
def all : List Builtin :=
  [primitive .add, primitive .sub, primitive .mul, primitive .div, primitive .ceiling,
    primitive .floor, special .quote, special .branch, primitive .cons, primitive .car,
    primitive .cdr, primitive .nullp, primitive .symbolp, primitive .intp, primitive .doublep,
    primitive .listp, primitive .procedurep, special .define, primitive .less, primitive .not,
    special .print, special .eval, special .lambda, special .apply, special .letIn]

/-- The builtin of a name. -/
def find? (name : String) : Option Builtin :=
  all.find? (·.name == name)

/-- The debug form: the name, the kind and the operand counts. -/
def debug (b : Builtin) : String :=
  let kind := if b.isSpecial then "SpecialForm" else "Function"
  "BuiltinOp \x7b name: \"" ++ b.name ++ "\", kind: " ++ kind ++ "(<fn>), arity: " ++
    b.arity.debug ++ " \x7d"

/-! ## Names and builtins -/

theorem mem_all (b : Builtin) : b ∈ all := by
  rcases b with op | form
  · cases op <;> simp [all]
  · cases form <;> simp [all]

theorem nodup_names : (all.map name).Nodup := by decide +kernel

theorem name_injective {b c : Builtin} (h : b.name = c.name) : b = c :=
  have hn : all.Pairwise (fun b c => b.name ≠ c.name) := List.pairwise_map.1 nodup_names
  Classical.byContradiction fun hne => by
    rcases List.pairwise_iff_getElem.1 hn with hn
    obtain ⟨i, hi, rfl⟩ := List.getElem_of_mem (mem_all b)
    obtain ⟨j, hj, rfl⟩ := List.getElem_of_mem (mem_all c)
    rcases Nat.lt_trichotomy i j with hij | rfl | hij
    · exact hn i j hi hj hij h
    · exact hne rfl
    · exact hn j i hj hi hij h.symm

/-- A name finds the builtin of that name, and nothing else. -/
theorem find?_eq_some_iff {n : String} {b : Builtin} : find? n = some b ↔ b.name = n := by
  constructor
  · intro h
    simpa using List.find?_some h
  · rintro rfl
    cases hf : find? b.name with
    | none => simpa using List.find?_eq_none.1 hf b (mem_all b)
    | some c => rw [name_injective (by simpa using List.find?_some hf : c.name = b.name)]

end Builtin

end DynLisp
