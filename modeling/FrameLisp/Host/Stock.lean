import FrameLisp.Host.Arguments

/-!
# Stock host functions

Ready-made host functions: simple ones that a host can offer as they are, and that show how the
checks on arguments are meant to be used. Those that keep a state keep it on the desk.

## Main definitions

* `Desk` — the state of the stock functions: counters, printed text and a clock
* `Stock.half`, `Stock.clamp`, `Stock.scale` — arithmetic on checked arguments
* `Stock.counter` — a function that counts its calls
* `Stock.print`, `Stock.clock` — what the console offers
-/

namespace FrameLisp

/-- What the stock functions keep. -/
structure Desk where
  /-- How often each counting function has been called. -/
  counters : Array Nat
  /-- Everything printed so far. -/
  printed : String
  /-- What the clock shows in seconds, each time it is looked at. -/
  clock : Nat → Float
  /-- How often the clock has been looked at. -/
  looks : Nat

namespace Desk

/-- Nothing counted, nothing printed, and a clock that stands still. -/
def empty : Desk := ⟨#[], "", fun _ => 0, 0⟩

/-- Set up a counter. Also gives its number. -/
def newCounter (d : Desk) : Nat × Desk :=
  (d.counters.size, { d with counters := d.counters.push 0 })

/-- Count one more call. Also gives the number of calls. -/
def count (d : Desk) (i : Nat) : Nat × Desk :=
  let counters := d.counters.modify i (· + 1)
  (counters[i]?.getD 0, { d with counters })

/-- Look at the clock. -/
def look (d : Desk) : Float × Desk := (d.clock d.looks, { d with looks := d.looks + 1 })

/-- Print a line. -/
def print (d : Desk) (line : String) : Desk := { d with printed := d.printed ++ line ++ "\n" }

end Desk

namespace Stock

variable {σ : Type}

/-- Always the same value. -/
def constant (v : Value) : HostFunction σ := fun _ => pure v

/-- The first argument, or a new empty list. -/
def echo : HostFunction σ
  | v :: _ => pure v
  | [] => .newList []

/-- A new list of all arguments. -/
def collect : HostFunction σ := fun args => .newList args

/-- Always fails with the given message. -/
def failing (message : String) : HostFunction σ := fun _ => .fail (.raised message)

/-- How often it has been called. -/
def counter (i : Nat) : HostFunction Desk := fun _ => do
  let n ← .onDesk fun d => d.count i
  pure (.number (Float.ofNat n))

/-- Half of the one number it is given. -/
def half (name : String) : HostFunction σ := fun args => do
  let h : Arguments := ⟨name, args⟩
  .ofExcept (h.expectCount 1)
  let x ← .ofExcept (h.number 0)
  pure (.number (x / 2))

/-- The first number, moved into the range between the second and the third. -/
def clamp (name : String) : HostFunction σ := fun args => do
  let h : Arguments := ⟨name, args⟩
  .ofExcept (h.expectCount 3)
  let x ← .ofExcept (h.number 0)
  let low ← .ofExcept (h.number 1)
  let high ← .ofExcept (h.number 2)
  pure (.number (if x < low then low else if high < x then high else x))

/-- A list of three numbers, each times a factor that is one if it is left out. -/
def scale (name : String) : HostFunction σ := fun args => do
  let h : Arguments := ⟨name, args⟩
  .ofExcept (h.expectAtMost 2)
  let (x, y, z) ← .ofExcept (h.vector 0)
  let k ← if h.size = 2 then .ofExcept (h.number 1) else pure 1
  .newList [.number (x * k), .number (y * k), .number (z * k)]

/-- The other truth value. -/
def flip (name : String) : HostFunction σ := fun args => do
  let b ← .ofExcept ((⟨name, args⟩ : Arguments).boolean 0)
  pure (.bool (!b))

/-- The length of a list, or `#f` if there is none. -/
def length (name : String) : HostFunction σ
  | [] => pure (.bool false)
  | args => do
    let items ← .ofExcept ((⟨name, args⟩ : Arguments).list 0)
    pure (.number (Float.ofNat items.length))

/-- Print the texts of all arguments on one line. -/
def print : HostFunction Desk := fun args => do
  .onDesk fun d => ((), d.print (" ".intercalate (args.map Value.text)))
  .newList []

/-- The time. -/
def clock : HostFunction Desk := fun args => do
  .ofExcept ((⟨"clock", args⟩ : Arguments).expectCount 0)
  let t ← .onDesk Desk.look
  pure (.number t)

end Stock

end FrameLisp
