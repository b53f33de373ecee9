import FrameLisp.Eval.Machine

/-!
# Registries

A registry is a collection of host functions by name. A host builds one per subject, may take a
whole registry over under a common stem, and installs it into any frame. Wherever a function is
installed it is the same function.

## Main definitions

* `Registry` — host functions by name
* `Registry.register`, `Registry.registerUnder` — add one function, or those of another registry
* `Registry.install`, `Registry.call` — bind the functions in a frame; call one
-/

namespace FrameLisp

/-- Host functions by name. -/
structure Registry where
  functions : Bindings HostRef
deriving Inhabited

namespace Registry

/-- No functions. -/
def empty : Registry := ⟨∅⟩

/-- Add a function, replacing one of the same name. -/
def register (r : Registry) (name : String) (ref : HostRef) : Registry :=
  ⟨r.functions.insert name ref⟩

/-- Add the functions of another registry, each under the stem followed by its name. -/
def registerUnder (r : Registry) (stem : String) (other : Registry) : Registry :=
  ⟨r.functions.insertAll (other.functions.entries.map fun e => (stem ++ e.1, e.2))⟩

/-- The names of the functions, in order. -/
def names (r : Registry) : List String := r.functions.names

/-- How many functions there are. -/
def size (r : Registry) : Nat := r.functions.size

/-- Whether there is a function of a given name. -/
def contains (r : Registry) (name : String) : Bool := r.functions.contains name

/-- Bind every function in a frame. -/
def install (r : Registry) (s : Store) (i : FrameId) : Store :=
  r.functions.entries.foldl (fun s e => s.define i e.1 (.external e.2)) s

/-- Call a function by name. -/
def call {σ : Type} (host : Host σ) (r : Registry) (name : String) (args : List Value) :
    EvalM σ Value :=
  match r.functions.get? name with
  | some ref => host.call ref args
  | none => .fail (.unknownSymbol name)

end Registry

end FrameLisp
