import FrameLisp.Reader
import FrameLisp.Text.Quoted

/-!
# Errors

Every failure of the interpreter, by its cause. What an error is about is kept as data, and the
wording is left to `Error.message`. Errors carry no identities and no frames, so the same mistake
made in two runs gives the same error.

## Main definitions

* `ArgumentFault` — what can be wrong with the operands of an operation
* `LoadFault` — what can be wrong with a snapshot's text
* `Error`, `Error.message` — a failure and its wording
* `Error.stage` — which part of the interpreter a failure belongs to
-/

namespace FrameLisp

/-- What is wrong with the number or the shape of an operation's operands. -/
inductive ArgumentFault where
  /-- The operation takes exactly this many operands: one, two or three. -/
  | count (wanted : Nat)
  /-- The operation takes two operands or more. -/
  | fewerThanTwo
  /-- Assignment needs a symbol to assign to. -/
  | assignmentTarget
  /-- A function needs a list of parameters. -/
  | parameterList
  /-- A parameter that is no symbol. -/
  | parameter (found : Datum)
  /-- Local bindings are a list. -/
  | bindingList
  /-- A local binding is a symbol with an expression. -/
  | bindingPair
  /-- Only a symbol can be asked about. -/
  | queryTarget (found : Datum)
  /-- The function being defined is named by something other than a symbol. -/
  | functionName (found : Datum)
  /-- The function being defined is not named. -/
  | unnamedFunction
  /-- Something other than a symbol or a list is to be defined. -/
  | definitionTarget (found : Datum)
  /-- A host function takes exactly this many arguments. -/
  | hostCount (wanted got : Nat)
  /-- A host function takes at most this many arguments. -/
  | hostAtMost (wanted got : Nat)
  /-- A host function takes at least this many arguments. -/
  | hostAtLeast (wanted : Nat)
  /-- A host function needs a number. -/
  | hostNumber
  /-- A host function needs a truth value. -/
  | hostBool
  /-- A host function needs a list. -/
  | hostList
  /-- A host function needs a list of three elements. -/
  | hostTriple
  /-- A host function needs a list of three numbers. -/
  | hostVector
deriving Inhabited

/-- The wording of a fault, to follow the name of the operation. -/
def ArgumentFault.message : ArgumentFault → String
  | .count 1 => "requires a single argument"
  | .count 2 => "requires two arguments"
  | .count _ => "requires three arguments"
  | .fewerThanTwo => "requires at least two arguments"
  | .assignmentTarget => "requires a symbol as its first argument"
  | .parameterList => "requires an argument list as its first argument"
  | .parameter found => "unexpected value in argument list: " ++ found.text
  | .bindingList => "requires a list of symbol/expression pairs"
  | .bindingPair => "bindings must each be a symbol/expression pair"
  | .queryTarget found => "takes a symbol as argument: " ++ found.text
  | .functionName found => "target list must consist of symbols: " ++ found.text
  | .unnamedFunction => "target list must name the function being defined"
  | .definitionTarget found => "target must be a symbol or symbol list: " ++ found.text
  | .hostCount wanted got =>
    "expected " ++ toString wanted ++ (if wanted = 1 then " argument" else " arguments") ++
      ", got " ++ toString got
  | .hostAtMost wanted got =>
    "expected at most " ++ toString wanted ++ " arguments, got " ++ toString got
  | .hostAtLeast wanted => "expected at least " ++ toString wanted ++ " arguments"
  | .hostNumber => "expected a numeric argument"
  | .hostBool => "expected a boolean argument"
  | .hostList => "expected a list argument"
  | .hostTriple => "expected a 3-element list"
  | .hostVector => "expected a 3-element numeric list"

/-- What is wrong with the text of a snapshot. -/
inductive LoadFault where
  /-- The text is not one form. -/
  | unreadable (errors : List ReadError)
  /-- The form is no list. -/
  | notList
  /-- The list does not begin with the snapshot mark. -/
  | noHeader
  /-- The number of frames is missing. -/
  | noCount
  /-- The number of frames is not a positive whole number. -/
  | badCount (found : Datum)
  /-- The number of frames is not the number of blocks. -/
  | countMismatch (count blocks : Nat)
  /-- A block is too short, or its number is not whole. -/
  | blockShape (block : Datum)
  /-- A block does not begin with the block mark. -/
  | blockHead (block : Datum)
  /-- A block has the wrong number. -/
  | blockNumber (expected : Nat) (found : Datum)
  /-- A block's parent is neither absent nor another block. -/
  | outerRange (found : Datum)
  /-- An entry is not a list of three elements. -/
  | entryShape (entry : Datum)
  /-- An entry's name is no symbol. -/
  | entryName (entry : Datum)
  /-- A function's frame is not one of the blocks. -/
  | frameRange (entry : Datum)
  /-- A function's definition does not have the shape of one. -/
  | functionShape (definition : Datum)
  /-- An entry is neither a definition nor a function. -/
  | entryHead (entry : Datum)
deriving Inhabited

/-- The wording of a list of faults found while reading. -/
def readErrorsMessage (errors : List ReadError) : String :=
  "parse error: " ++ "\n".intercalate (errors.map ReadError.message)

/-- The wording of a fault in a snapshot. -/
def LoadFault.message : LoadFault → String
  | .unreadable errors => readErrorsMessage errors
  | .notList => "expected a list"
  | .noHeader => "expected !ENVCOUNT!"
  | .noCount => "expected !ENVCOUNT! <count>"
  | .badCount found => "expected !ENVCOUNT! <count>: " ++ found.text
  | .countMismatch count blocks =>
    "expected !ENVCOUNT! " ++ toString count ++ " to match elements " ++ toString blocks
  | .blockShape block => "expected !SETENV! <number> <number> ...: " ++ block.text
  | .blockHead block => "expected !SETENV!: " ++ block.text
  | .blockNumber expected found =>
    "environment index mismatch: expected " ++ toString expected ++ ", got " ++ found.text
  | .outerRange found => "outer index out of range: " ++ found.text
  | .entryShape entry => "expected a list of 3 elements: " ++ entry.text
  | .entryName entry => "expected define symbol: " ++ entry.text
  | .frameRange entry => "!FUNCENV! <number> is out of range: " ++ entry.text
  | .functionShape definition =>
    "expected (define <symbol> (lambda (<symbols>...) <body>)): " ++ definition.text
  | .entryHead entry => "expected <define> atom or !FUNCENV!: " ++ entry.text

/-- The kinds of values an operation may insist on. -/
inductive Expected where
  | number
  | bool
  | list
deriving DecidableEq, Repr

/-- The name of a kind of value an operation insists on. -/
def Expected.name : Expected → String
  | .number => "number"
  | .bool => "bool"
  | .list => "list"

/-- A failure of the interpreter. -/
inductive Error where
  /-- A text could not be read. -/
  | unreadable (errors : List ReadError)
  /-- A name is bound nowhere. -/
  | unknownSymbol (name : String)
  /-- An operation was given the wrong number or shape of operands. -/
  | invalidArguments (op : String) (fault : ArgumentFault)
  /-- An operation was given a value of the wrong kind. -/
  | wrongType (op : String) (expected : Expected) (got : Datum)
  /-- A function was given the wrong number of arguments. -/
  | arityMismatch (expected got : Nat) (function : Datum)
  /-- Something that is no function was applied. -/
  | notCallable (value : Datum)
  /-- Two values of a kind that an operation cannot compare. -/
  | incomparable (op : String)
  /-- A definition of a function under the name of a primitive. -/
  | redefined (primitive : Primitive)
  /-- A host function failed. -/
  | raised (message : String)
  /-- A snapshot could not be restored. -/
  | invalidSnapshot (fault : LoadFault)
  /-- A name that could not be read back was to be saved. -/
  | unsavableName (name : String)
deriving Inhabited

/-- The parts of the interpreter that can fail. -/
inductive Stage where
  | reading
  | evaluation
  | snapshot
deriving DecidableEq, Repr

namespace Error

/-- The wording of a failure. -/
def message : Error → String
  | .unreadable errors => readErrorsMessage errors
  | .unknownSymbol name => "unknown symbol: " ++ name
  | .invalidArguments op fault => op ++ " " ++ fault.message
  | .wrongType op expected got => op ++ " expected " ++ expected.name ++ ", got " ++ got.text
  | .arityMismatch expected got function =>
    "function applied to too " ++ (if expected < got then "many" else "few") ++
      " arguments, expected " ++ toString expected ++ ", got " ++ toString got ++ ": " ++
      function.text
  | .notCallable value => "unable to apply non-function: " ++ value.text
  | .incomparable op => op ++ ": unimplemented type combination"
  | .redefined primitive => "can't redefine built-in function: " ++ primitive.name
  | .raised message => message
  | .invalidSnapshot fault => "environment deserialization: " ++ fault.message
  | .unsavableName name =>
    "environment serialization: binding name does not read back as a symbol: " ++ Text.quoted name

/-- The part of the interpreter a failure belongs to. -/
def stage : Error → Stage
  | .unreadable _ => .reading
  | .invalidSnapshot _ => .snapshot
  | .unsavableName _ => .snapshot
  | _ => .evaluation

end Error

end FrameLisp
