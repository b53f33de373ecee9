import FrameLisp.Export
import FrameLisp.Host.Stock
import FrameLisp.Interpreter

/-!
# The console

A line-oriented session with one evaluator. A line is a command or a form to evaluate; commands
load a file, show, save and restore the graph of frames, or show a value as JSON. The console
offers two host functions, `print` and `clock`. Host functions are not part of a saved graph, so
they are bound again after every restoration.

Files are reached through an interface, so the console is the same function whether the files are
on a disk or in memory, and what the clock shows is given with every line. `Console.transcript` runs
a whole session in memory, with a clock that stands still.

## Main definitions

* `Command`, `Command.ofLine` — what a line asks for
* `Files`, `Shelf` — access to files; files in memory
* `Console`, `Console.respond` — a session, and its answer to a command
* `Console.reply`, `Console.session` — the output for a line, and for one line after the other
* `Console.transcript` — a session from the first line to the last
-/

namespace FrameLisp

/-- What a line asks for. -/
inductive Command where
  | nothing
  | quit
  | load (path : String)
  | printenv
  | saveenv (path : String)
  | loadenv (path : String)
  | json (source : String)
  | form (source : String)
deriving DecidableEq, Repr

/-- What a line asks for. The first word decides, and a line that begins with no command is a
form. -/
def Command.ofLine (line : String) : Command :=
  let line := Text.trim line
  let (word, rest) := Text.splitFirst line
  if word = "" then .nothing
  else if word = "quit" then .quit
  else if word = "load" then .load rest
  else if word = "printenv" then .printenv
  else if word = "saveenv" then .saveenv rest
  else if word = "loadenv" then .loadenv rest
  else if word = ":json" then .json rest
  else .form line

/-! ### Files -/

/-- Access to files, where a failure is described by the system's message. -/
structure Files (m : Type → Type) where
  read : String → m (Except String String)
  write : String → String → m (Except String Unit)

/-- Files in memory, by name. -/
abbrev Shelf := Bindings String

namespace Shelf

/-- The system's message for a name without a file. -/
def missing : String := "No such file or directory (os error 2)"

/-- Access to files in memory. Any name but the empty one can be written to. -/
def files : Files (StateM Shelf) where
  read name := do
    match (← get).get? name with
    | some content => pure (.ok content)
    | none => pure (.error missing)
  write name content := do
    if name = "" then pure (.error missing)
    else
      modify fun shelf => shelf.insert name content
      pure (.ok ())

end Shelf

/-! ### Sessions -/

/-- A session: the machine and the evaluator that works on it. -/
structure Console where
  machine : Machine Desk
  evaluator : Evaluator

/-- What a command has to say: on the standard output, or as an error. -/
inductive Answer where
  | output (text : String)
  | problem (text : String)

/-- What an answer adds to the standard output and to the error output. -/
def Answer.streams : Option Answer → String × String
  | none => ("", "")
  | some (.output text) => (text ++ "\n", "")
  | some (.problem text) => ("", "error: " ++ text ++ "\n")

namespace Console

/-- The version that the console shows. -/
def version : String := "1.0.0"

/-- What is shown at the beginning of a session. -/
def banner : String :=
  "MicroLisp REPL v" ++ version ++
    "\nCommands: load <file>, printenv, saveenv <file>, loadenv <file>, :json <expr>, quit\n\n"

/-- What is shown before every line. -/
def prompt : String := "> "

/-- The functions that the console offers. -/
def host : Host Desk := ⟨#[Stock.print, Stock.clock]⟩

/-- Bind the functions that the console offers. -/
def provide (e : Evaluator) : EvalM Desk Unit := do
  e.bind "print" 0
  e.bind "clock" 1

/-- Run a computation, and keep the machine whatever comes of it. -/
def run {α : Type} (c : Console) (x : EvalM Desk α) : Except Halt α × Console :=
  match x c.machine with
  | .ok a machine => (.ok a, { c with machine })
  | .error halt machine => (.error halt, { c with machine })

/-- The beginning of a session. -/
def start : Console :=
  let setup : EvalM Desk Evaluator := do
    let e ← Evaluator.new false
    provide e
    pure e
  match setup ⟨.empty, 0, .empty⟩ with
  | .ok evaluator machine => ⟨machine, evaluator⟩
  | .error _ machine => ⟨machine, ⟨0, false⟩⟩

/-- Evaluate a text and describe what happened. -/
def evaluate (c : Console) (source : String) : Answer × Console :=
  let (text, machine) := readEvalPrint host defaultDepth c.evaluator.root source c.machine
  (.output text, { c with machine })

/-- Save the graph of frames as a text. -/
def save (c : Console) : Except Halt String := (c.run c.evaluator.save).1

/-- Restore the graph of frames from a text, and bind the host functions in it. -/
def restore (c : Console) (text : String) : Except Halt Console :=
  let reload : EvalM Desk Evaluator := do
    let e ← c.evaluator.load text
    provide e
    pure e
  match c.run reload with
  | (.ok evaluator, c) => .ok { c with evaluator }
  | (.error halt, _) => .error halt

/-- Answer a command. -/
def respond {m : Type → Type} [Monad m] (files : Files m) (c : Console) :
    Command → m (Option Answer × Console)
  | .nothing | .quit => pure (none, c)
  | .form source =>
    let (answer, c) := c.evaluate source
    pure (some answer, c)
  | .load path => do
    match ← files.read path with
    | .ok source =>
      let (answer, c) := c.evaluate source
      pure (some answer, c)
    | .error e => pure (some (.problem ("reading " ++ path ++ ": " ++ e)), c)
  | .printenv =>
    match c.save with
    | .ok text => pure (some (.output text), c)
    | .error halt => pure (some (.problem halt.message), c)
  | .saveenv path => do
    match c.save with
    | .ok text =>
      match ← files.write path text with
      | .ok _ => pure (some (.output ("environment saved to " ++ path)), c)
      | .error e => pure (some (.problem ("writing " ++ path ++ ": " ++ e)), c)
    | .error halt => pure (some (.problem halt.message), c)
  | .loadenv path => do
    match ← files.read path with
    | .ok text =>
      match c.restore text with
      | .ok c => pure (some (.output ("environment loaded from " ++ path)), c)
      | .error halt => pure (some (.problem ("loading " ++ path ++ ": " ++ halt.message)), c)
    | .error e => pure (some (.problem ("reading " ++ path ++ ": " ++ e)), c)
  | .json source =>
    match c.run (execute host defaultDepth c.evaluator.root source) with
    | (.ok v, c) => pure (some (.output v.toExport.pretty), c)
    | (.error halt, c) => pure (some (.problem halt.message), c)

/-- Set the clock. -/
def setClock (c : Console) (clock : Nat → Float) : Console :=
  { c with machine := { c.machine with desk := { c.machine.desk with clock } } }

/-- Take what has been printed since the last time. -/
def takePrinted (c : Console) : String × Console :=
  let desk := c.machine.desk
  (desk.printed, { c with machine := { c.machine with desk := { desk with printed := "" } } })

/-- Answer a line while the clock shows the given times: what it adds to the standard output and to
the error output, and the session afterwards. -/
def reply {m : Type → Type} [Monad m] (files : Files m) (clock : Nat → Float) (c : Console)
    (command : Command) : m ((String × String) × Console) := do
  let (answer, c) ← (c.setClock clock).respond files command
  let (printed, c) := c.takePrinted
  let (out, err) := Answer.streams answer
  pure ((printed ++ out, err), c)

/-! ### Whole sessions -/

/-- What a session has written. -/
structure Output where
  out : String
  err : String

/-- The output of a session and the files it leaves in memory. -/
structure Transcript extends Output where
  shelf : Shelf

/-- The lines of the characters that follow the unfinished line `line`, given in reverse. -/
def linesFrom (line : List Char) : List Char → List String
  | [] => if line.isEmpty then [] else [String.ofList line.reverse]
  | c :: cs =>
    if c = '\n' then String.ofList line.reverse :: linesFrom [] cs else linesFrom (c :: line) cs

/-- The lines of a text. A newline ends a line, and the last line may lack one. -/
def lines (s : String) : List String := linesFrom [] s.toList

/-- Go through lines until the last one or until one that ends the session. -/
def session {m : Type → Type} [Monad m] (files : Files m) (clock : Nat → Float) (c : Console)
    (o : Output) : List String → m Output
  | [] => pure { o with out := o.out ++ prompt }
  | line :: rest =>
    match Command.ofLine line with
    | .quit => pure { o with out := o.out ++ prompt }
    | command => do
      let ((out, err), c) ← c.reply files clock command
      session files clock c ⟨o.out ++ prompt ++ out, o.err ++ err⟩ rest

/-- A whole session with the given input, on files in memory. -/
def transcript (input : String) (shelf : Shelf) : Transcript :=
  let (o, shelf) := (start.session Shelf.files (fun _ => 0) ⟨banner, ""⟩ (lines input)).run shelf
  { o with shelf }

end Console

end FrameLisp
