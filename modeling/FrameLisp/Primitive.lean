/-!
# Primitives

The operations with a fixed meaning. They fall into two kinds. A *special form* decides itself
which of its operands are evaluated and where; a *builtin* is an ordinary function of argument
values. Both are first-class values and have a name by which they are read and written.

## Main definitions

* `SpecialForm`, `Builtin`, `Primitive` — the operations
* `Primitive.table` — all of them, in their fixed order
* `Primitive.ofName?` — look an operation up by name
-/

namespace FrameLisp

/-- An operation that controls the evaluation of its operands. -/
inductive SpecialForm where
  | ifForm
  | quote
  | set
  | define
  | defineOnce
  | lambda
  | begin
  | apply
  | id
  | letForm
  | isDefined
deriving DecidableEq, Repr

/-- A function of argument values. -/
inductive Builtin where
  | add
  | sub
  | mul
  | div
  | not
  | and
  | or
  | greater
  | less
  | greaterEq
  | lessEq
  | numberEq
  | equal
  | identical
  | length
  | cons
  | car
  | cdr
  | append
  | list
  | isList
  | isNull
  | isSymbol
  | modulo
  | abs
  | floor
  | ceiling
  | min
  | max
  | sqrt
  | pow
  | ln
  | sin
  | cos
  | tan
  | asin
  | acos
  | atan2
deriving DecidableEq, Repr

/-- An operation with a fixed meaning. -/
inductive Primitive where
  | form (f : SpecialForm)
  | builtin (b : Builtin)
deriving DecidableEq, Repr

/-- The name a special form is read and written by. -/
def SpecialForm.name : SpecialForm → String
  | .ifForm => "if"
  | .quote => "quote"
  | .set => "set!"
  | .define => "define"
  | .defineOnce => "initialize"
  | .lambda => "lambda"
  | .begin => "begin"
  | .apply => "apply"
  | .id => "id"
  | .letForm => "let"
  | .isDefined => "defined?"

/-- The name a builtin is read and written by. -/
def Builtin.name : Builtin → String
  | .add => "+"
  | .sub => "-"
  | .mul => "*"
  | .div => "/"
  | .not => "not"
  | .and => "and"
  | .or => "or"
  | .greater => ">"
  | .less => "<"
  | .greaterEq => ">="
  | .lessEq => "<="
  | .numberEq => "="
  | .equal => "equal?"
  | .identical => "eq?"
  | .length => "length"
  | .cons => "cons"
  | .car => "car"
  | .cdr => "cdr"
  | .append => "append"
  | .list => "list"
  | .isList => "list?"
  | .isNull => "null?"
  | .isSymbol => "symbol?"
  | .modulo => "modulo"
  | .abs => "abs"
  | .floor => "floor"
  | .ceiling => "ceiling"
  | .min => "min"
  | .max => "max"
  | .sqrt => "sqrt"
  | .pow => "pow"
  | .ln => "ln"
  | .sin => "sin"
  | .cos => "cos"
  | .tan => "tan"
  | .asin => "asin"
  | .acos => "acos"
  | .atan2 => "atan2"

namespace Primitive

/-- The name a primitive is read and written by. -/
def name : Primitive → String
  | .form f => f.name
  | .builtin b => b.name

/-- Whether a primitive controls the evaluation of its operands. -/
def isSpecial : Primitive → Bool
  | .form _ => true
  | .builtin _ => false

/-- Every primitive, in the order in which they are listed and numbered. -/
def table : List Primitive :=
  [.form .ifForm, .form .quote, .form .set, .form .define, .form .defineOnce, .form .lambda,
    .form .begin, .builtin .add, .builtin .sub, .builtin .mul, .builtin .div, .builtin .not,
    .builtin .and, .builtin .or, .builtin .greater, .builtin .less, .builtin .greaterEq,
    .builtin .lessEq, .builtin .numberEq, .builtin .equal, .builtin .identical, .builtin .length,
    .builtin .cons, .builtin .car, .builtin .cdr, .builtin .append, .builtin .list,
    .builtin .isList, .builtin .isNull, .builtin .isSymbol, .form .isDefined, .builtin .modulo,
    .builtin .abs, .builtin .floor, .builtin .ceiling, .builtin .min, .builtin .max, .form .apply,
    .form .id, .builtin .sqrt, .form .letForm, .builtin .pow, .builtin .ln, .builtin .sin,
    .builtin .cos, .builtin .tan, .builtin .asin, .builtin .acos, .builtin .atan2]

/-- The primitive of a given name. -/
def ofName? (s : String) : Option Primitive := table.find? (·.name == s)

/-- The position of a primitive in the table. -/
def index (p : Primitive) : Nat := table.idxOf p

/-- The table is complete. -/
theorem mem_table (p : Primitive) : p ∈ table := by
  rcases p with f | b
  · cases f <;> decide
  · cases b <;> decide

/-- The table lists every primitive once. -/
theorem nodup_table : table.Nodup := by decide

/-- No two primitives share a name. -/
theorem nodup_names : (table.map name).Nodup := by decide

/-- A name that is found is the name of the primitive found. -/
theorem name_of_ofName? {s : String} {p : Primitive} (h : ofName? s = some p) : p.name = s := by
  simpa using List.find?_some h

/-- Every primitive is found under its own name. -/
theorem ofName?_name (p : Primitive) : ofName? p.name = some p := by
  rcases p with f | b
  · cases f <;> decide
  · cases b <;> decide

end Primitive

end FrameLisp
