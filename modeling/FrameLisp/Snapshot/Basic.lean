import FrameLisp.Error
import FrameLisp.Number.Arithmetic

/-!
# Snapshots

A snapshot describes a graph of frames without identities: one block per frame, in order of
discovery, the root first. A block says which block holds the parent and lists what the frame
binds. A closure is an entry of its own kind, because it refers to a frame; everything else is a
datum. Frames are referred to by the position of their block.

The text of a snapshot is a form of the language,

```
(!ENVCOUNT! 2
(!SETENV! 0 -1
(define x 5)
(!FUNCENV! 1
(define f (lambda (n) (+ n x)))
)
)
(!SETENV! 1 0
)
)
```

so the reader reads it and no second notation is needed.

## Main definitions

* `Snapshot`, `Snapshot.Block`, `Snapshot.Entry` — the types
* `Snapshot.text` — how a snapshot is written
* `Snapshot.ofDatum` — what a form describes, or what is wrong with it
-/

namespace FrameLisp

/-- One binding of a saved frame. -/
inductive Snapshot.Entry where
  /-- A name bound to plain data. -/
  | data (name : String) (value : Datum)
  /-- A name bound to a function that was made in the given block's frame. -/
  | function (name : String) (frame : Nat) (params : List String) (body : Datum)

/-- One saved frame: the block of its parent, and its bindings. -/
structure Snapshot.Block where
  outer : Option Nat
  entries : List Snapshot.Entry

/-- A saved graph of frames, the root first. -/
structure Snapshot where
  blocks : List Snapshot.Block

namespace Snapshot

/-! ### Marks -/

/-- The word that begins a snapshot. -/
def headerMark : String := "!ENVCOUNT!"

/-- The word that begins a block. -/
def blockMark : String := "!SETENV!"

/-- The word that begins the entry of a function. -/
def functionMark : String := "!FUNCENV!"

/-! ### Writing -/

/-- The names an entry writes as words: the name it binds, then the parameters. -/
def Entry.names : Entry → List String
  | .data name _ => [name]
  | .function name _ params _ => name :: params

/-- The line that defines a name. -/
def definitionText (name : String) (value : Datum) : String :=
  "(define " ++ name ++ " " ++ value.text ++ ")\n"

/-- The lines of an entry. -/
def Entry.text : Entry → String
  | .data name value => definitionText name value
  | .function name frame params body =>
    "(" ++ functionMark ++ " " ++ toString frame ++ "\n" ++
      definitionText name (.lambda params body) ++ ")\n"

/-- The position of a parent's block, and minus one for none. -/
def outerText : Option Nat → String
  | some k => toString k
  | none => "-1"

/-- The lines of a block, given its position. -/
def Block.text (position : Nat) (b : Block) : String :=
  "(" ++ blockMark ++ " " ++ toString position ++ " " ++ outerText b.outer ++ "\n" ++
    String.join (b.entries.map Entry.text) ++ ")\n"

/-- The lines of several blocks, given the position of the first. -/
def blocksText : Nat → List Block → String
  | _, [] => ""
  | position, b :: bs => b.text position ++ blocksText (position + 1) bs

/-- The text of a snapshot. -/
def text (s : Snapshot) : String :=
  "(" ++ headerMark ++ " " ++ toString s.blocks.length ++ "\n" ++ blocksText 0 s.blocks ++ ")"

/-- The first name that would not read back, in the order in which names are written. -/
def unreadableName? (s : Snapshot) : Option String :=
  (s.blocks.flatMap fun b => b.entries.flatMap Entry.names).find? (!isReadable ·)

/-! ### Reading -/

/-- A whole number. -/
def index? : Datum → Option Int
  | .number x => Number.toInt? x
  | _ => none

/-- The position of one of `count` blocks. -/
def position? (count : Nat) (d : Datum) : Option Nat :=
  match index? d with
  | some (.ofNat k) => if k < count then some k else none
  | _ => none

/-- The names in a list of symbols. -/
def symbolNames? : List Datum → Option (List String)
  | [] => some []
  | .symbol name :: ds => (symbolNames? ds).map (name :: ·)
  | _ => none

/-- The name, the parameters and the body in the definition of a function. -/
def functionParts? : Datum → Option (String × List String × Datum)
  | .list [.atom (.form .define), .symbol name,
      .list [.atom (.form .lambda), .list params, body]] =>
    (symbolNames? params).map fun params => (name, params, body)
  | _ => none

/-- What an entry describes. -/
def Entry.ofDatum (count : Nat) (entry : Datum) : Except LoadFault Entry :=
  match entry with
  | .list [.atom (.form .define), name, value] =>
    match name with
    | .symbol name => .ok (.data name value)
    | _ => .error (.entryName entry)
  | .list [.symbol mark, frame, definition] =>
    if mark = functionMark then
      match position? count frame with
      | some k =>
        match functionParts? definition with
        | some (name, params, body) => .ok (.function name k params body)
        | none => .error (.functionShape definition)
      | none => .error (.frameRange entry)
    else .error (.entryHead entry)
  | .list [_, _, _] => .error (.entryHead entry)
  | _ => .error (.entryShape entry)

/-- What several entries describe, or what is wrong with the first faulty one. -/
def entriesOfData (count : Nat) : List Datum → Except LoadFault (List Entry)
  | [] => .ok []
  | d :: ds => do
    let e ← Entry.ofDatum count d
    let es ← entriesOfData count ds
    .ok (e :: es)

/-- The position of a parent's block, where minus one is none. -/
def outer? (count : Nat) (d : Datum) : Option (Option Nat) :=
  if index? d = some (-1) then some none else (position? count d).map some

/-- What the block at a position describes. -/
def Block.ofDatum (count position : Nat) (block : Datum) : Except LoadFault Block :=
  match block with
  | .list (head :: number :: outer :: entries) =>
    match head with
    | .symbol mark =>
      if mark = blockMark then
        match index? number with
        | none => .error (.blockShape block)
        | some k =>
          if k = position then
            match outer? count outer with
            | some o => do
              let es ← entriesOfData count entries
              .ok ⟨o, es⟩
            | none => .error (.outerRange outer)
          else .error (.blockNumber position number)
      else .error (.blockHead block)
    | _ => .error (.blockHead block)
  | _ => .error (.blockShape block)

/-- What several blocks describe, given the position of the first. -/
def blocksOfData (count : Nat) : Nat → List Datum → Except LoadFault (List Block)
  | _, [] => .ok []
  | position, d :: ds => do
    let b ← Block.ofDatum count position d
    let bs ← blocksOfData count (position + 1) ds
    .ok (b :: bs)

/-- What a form describes as a snapshot, or the first thing that is wrong with it. -/
def ofDatum : Datum → Except LoadFault Snapshot
  | .list (.symbol mark :: rest) =>
    if mark = headerMark then
      match rest with
      | [] => .error .noCount
      | count :: blocks =>
        match index? count with
        | some (.ofNat (n + 1)) =>
          if n + 1 = blocks.length then do
            let bs ← blocksOfData (n + 1) 0 blocks
            .ok ⟨bs⟩
          else .error (.countMismatch (n + 1) blocks.length)
        | _ => .error (.badCount count)
    else .error .noHeader
  | .list _ => .error .noHeader
  | _ => .error .notList

/-- What a text describes as a snapshot, or what is wrong with it. -/
def ofText (s : String) : Except LoadFault Snapshot :=
  match (Reading.ofText s).toExcept with
  | .ok d => ofDatum d
  | .error errors => .error (.unreadable errors)

end Snapshot

end FrameLisp
