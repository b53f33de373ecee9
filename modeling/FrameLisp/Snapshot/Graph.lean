import FrameLisp.Eval.Machine
import FrameLisp.Snapshot.Basic

/-!
# Saving and restoring graphs of frames

Saving walks the graph from a root, depth first: a frame comes before the frames it refers to, and
those are taken in the order of `Store.links`. Each frame is discovered once. The discovered frames
are then described by position, so the description does not depend on their numbers.

Restoring puts the first block into a frame that exists already, which keeps its number, and adds a
frame to the store for every other block. Restoring either succeeds completely or changes nothing,
because the whole text is understood before anything is changed.

## Main definitions

* `Store.discover`, `Store.reachable` — the frames reachable from a root, in order of discovery
* `Store.capture`, `Store.save` — describe and write a graph
* `Store.restore` — fill frames from a snapshot
* `EvalM.loadInto`, `EvalM.load` — restore a text into a given frame or a new one
-/

namespace FrameLisp

namespace Store

/-! ### Discovery -/

/-- The first frame that is still unseen is unseen. -/
theorem mem_of_dropWhile_eq_cons {unseen pending rest : List FrameId} {i : FrameId}
    (h : pending.dropWhile (· ∉ unseen) = i :: rest) : i ∈ unseen := by
  have hhead := List.head?_dropWhile_not (· ∉ unseen) pending
  rw [h] at hhead
  simpa using hhead

/-- The frames among `unseen` that can be reached from the `pending` ones without passing through
any other frame, in order of discovery. What has been seen already is passed over; the next frame
puts its links in front of what is still pending. -/
def discover (s : Store) (unseen pending : List FrameId) : List FrameId :=
  match _h : pending.dropWhile (· ∉ unseen) with
  | [] => []
  | i :: rest => i :: s.discover (unseen.erase i) (s.links i ++ rest)
termination_by unseen.length
decreasing_by
  have hi := mem_of_dropWhile_eq_cons _h
  have := List.length_erase_of_mem hi
  have := List.length_pos_of_mem hi
  omega

/-- The frames that can be reached from a root, the root first, each of them once. -/
def reachable (s : Store) (root : FrameId) : List FrameId :=
  s.discover (List.range s.size) [root]

/-! ### Saving -/

/-- The description of one binding; external functions have none. -/
def captureEntry (order : List FrameId) (name : String) : Value → Option Snapshot.Entry
  | .external _ => none
  | .closure _ frame params body =>
    some (.function name (order.idxOf frame) params body.toDatum)
  | v => some (.data name v.toDatum)

/-- The description of one frame, where `order` lists the frames by position. -/
def captureBlock (s : Store) (order : List FrameId) (i : FrameId) : Snapshot.Block :=
  ⟨(s.outer i).map order.idxOf,
    (s.bindings i).entries.filterMap fun e => captureEntry order e.1 e.2⟩

/-- The description of the graph that can be reached from a root. -/
def capture (s : Store) (root : FrameId) : Snapshot :=
  let order := s.reachable root
  ⟨order.map (s.captureBlock order)⟩

/-- The text of the graph that can be reached from a root. A name that would not read back stands in
the way. -/
def save (s : Store) (root : FrameId) : Except Error String :=
  let snapshot := s.capture root
  match snapshot.unreadableName? with
  | some name => .error (.unsavableName name)
  | none => .ok snapshot.text

/-! ### Restoring -/

/-- The frame of the block at a position: the target for the first, and the frames from `next` on
for the others. -/
def place (target next : FrameId) : Nat → FrameId
  | 0 => target
  | k + 1 => next + k

/-- The binding an entry describes, with identities from the supply. -/
def restoreEntry (target next : FrameId) : Snapshot.Entry → Nat → (String × Value) × Nat
  | .data name value, n =>
    let (v, n) := Value.instantiate value n
    ((name, v), n)
  | .function name frame params body, n =>
    let (b, n) := Value.instantiate body n
    ((name, .closure n (place target next frame) params b), n + 1)

/-- The bindings that several entries describe. -/
def restoreEntries (target next : FrameId) :
    List Snapshot.Entry → Nat → List (String × Value) × Nat
  | [], n => ([], n)
  | e :: es, n =>
    let (b, n) := restoreEntry target next e n
    let (bs, n) := restoreEntries target next es n
    (b :: bs, n)

/-- The frames that several blocks describe. A name bound twice has its last binding. -/
def restoreFrames (target next : FrameId) : List Snapshot.Block → Nat → List Frame × Nat
  | [], n => ([], n)
  | b :: bs, n =>
    let (entries, n) := restoreEntries target next b.entries n
    let (frames, n) := restoreFrames target next bs n
    (⟨.ofList entries, b.outer.map (place target next)⟩ :: frames, n)

/-- Replace a frame by the first block of a snapshot, and add a frame for every other block. -/
def restore (s : Store) (target : FrameId) (snapshot : Snapshot) (n : Nat) : Store × Nat :=
  match restoreFrames target s.size snapshot.blocks n with
  | ([], n) => (s, n)
  | (f :: fs, n) => (⟨(s.modify target fun _ => f).frames ++ fs⟩, n)

end Store

namespace EvalM

variable {σ : Type}

/-- Restore the graph that a text describes into a frame. -/
def loadInto (text : String) (target : FrameId) : EvalM σ Unit :=
  match Snapshot.ofText text with
  | .error fault => .fail (.invalidSnapshot fault)
  | .ok snapshot => fun ⟨store, supply, desk⟩ =>
    let (store, supply) := store.restore target snapshot supply
    .ok () ⟨store, supply, desk⟩

/-- Restore the graph that a text describes into a new frame, and give its number. -/
def load (text : String) : EvalM σ FrameId :=
  match Snapshot.ofText text with
  | .error fault => .fail (.invalidSnapshot fault)
  | .ok snapshot => fun ⟨store, supply, desk⟩ =>
    let root := store.size
    let (store, supply) := (store.push ⟨∅, none⟩).restore root snapshot supply
    .ok root ⟨store, supply, desk⟩

end EvalM

end FrameLisp
