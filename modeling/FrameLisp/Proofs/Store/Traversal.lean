import FrameLisp.Proofs.Store.Discovery
import Mathlib.Data.List.Nodup

/-!
# Collecting frames by recursion

The frames below a root can also be collected by a recursion that follows the values: visit a frame,
unless it has been seen, by noting it and then visiting the values that it binds and its parent;
visit a closure by visiting its frame and then its body, and a list by visiting its elements.

Such a recursion runs through cycles of frames, so it is not clear that it ends. It is written here
with a bound on how many calls may be under way at once, and has no result if that is exceeded. The
bound can always be chosen large enough, and the result is then the list that `Store.reachable`
gives, in the same order.

The two meet in one property of the walk: what it finds from some frames and then from others is
what it finds from both lists together. The proof goes by the number of frames that are still
unseen, and for each such number along the values.

## Main definitions

* `Store.Traversal.visitFrame`, `Store.Traversal.visitValue`, `Store.Traversal.visitValues` — the
  recursion
* `Store.Traversal.found` — what has been seen once the walk has gone on to some frames

## Main results

* `Store.discover_append` — the walk takes one list of frames after the other
* `Store.Traversal.gives_visitFrame` — the recursion ends, and finds what the walk finds
* `Store.Traversal.gives_reachable` — it collects the frames below a root, in the same order
-/

namespace FrameLisp

namespace Store

variable {s : Store} {i : FrameId}

/-! ### The walk on two lists -/

/-- Only what has not been passed over matters to the walk. -/
theorem discover_congr {unseen pending pending' : List FrameId}
    (h : pending.dropWhile (· ∉ unseen) = pending'.dropWhile (· ∉ unseen)) :
    s.discover unseen pending = s.discover unseen pending' := by
  cases hdrop : pending'.dropWhile (· ∉ unseen) with
  | nil => rw [discover_of_dropWhile_nil hdrop, discover_of_dropWhile_nil (h.trans hdrop)]
  | cons k rest =>
    rw [discover_of_dropWhile_cons hdrop, discover_of_dropWhile_cons (h.trans hdrop)]

/-- **The walk takes one list of frames after the other.** -/
theorem discover_append (unseen xs ys : List FrameId) :
    s.discover unseen (xs ++ ys) =
      s.discover unseen xs ++ s.discover (unseen.diff (s.discover unseen xs)) ys := by
  fun_induction discover s unseen xs with
  | case1 unseen xs hdrop =>
    rw [List.nil_append, List.diff_nil]
    refine discover_congr ?_
    rw [List.dropWhile_append, hdrop]
    rfl
  | case2 unseen xs k rest hdrop ih =>
    have happend : (xs ++ ys).dropWhile (· ∉ unseen) = k :: (rest ++ ys) := by
      rw [List.dropWhile_append, hdrop]
      rfl
    rw [discover_of_dropWhile_cons happend, ← List.append_assoc, ih, List.diff_cons,
      List.cons_append]

namespace Traversal

/-! ### The recursion -/

section

variable (s : Store)

mutual

/-- Visit a frame, unless it has been seen: note it, and visit the values that it binds and then its
parent. -/
def visitFrame : ℕ → FrameId → List FrameId → Option (List FrameId)
  | 0, _, _ => none
  | fuel + 1, i, seen =>
    if i ∈ seen then some seen
    else do
      let seen ← visitValues fuel ((s.bindings i).entries.map Prod.snd) (seen ++ [i])
      match s.outer i with
      | some j => visitFrame fuel j seen
      | none => some seen

/-- Visit a value: the frame and the body of a closure, and the elements of a list. -/
def visitValue : ℕ → Value → List FrameId → Option (List FrameId)
  | 0, _, _ => none
  | fuel + 1, .closure _ frame _ body, seen => do
    let seen ← visitFrame fuel frame seen
    visitValue fuel body seen
  | fuel + 1, .list _ items, seen => visitValues fuel items seen
  | _ + 1, _, seen => some seen

/-- Visit values one after the other. -/
def visitValues : ℕ → List Value → List FrameId → Option (List FrameId)
  | 0, _, _ => none
  | _ + 1, [], seen => some seen
  | fuel + 1, v :: vs, seen => do
    let seen ← visitValue fuel v seen
    visitValues fuel vs seen

end

end

/-! ### Large enough bounds -/

variable {α β : Type}

/-- A computation with a bound has a result, and has it for every larger bound. -/
def Gives (x : ℕ → Option α) (a : α) : Prop := ∃ bound, ∀ fuel ≥ bound, x fuel = some a

theorem Gives.succ {x y : ℕ → Option α} {a : α} (h : Gives x a)
    (hstep : ∀ fuel, y (fuel + 1) = x fuel) : Gives y a := by
  obtain ⟨bound, hbound⟩ := h
  refine ⟨bound + 1, fun fuel hfuel => ?_⟩
  obtain ⟨fuel, rfl⟩ := Nat.exists_eq_add_one.mpr (Nat.zero_lt_of_lt hfuel)
  rw [hstep, hbound fuel (Nat.le_of_succ_le_succ hfuel)]

theorem Gives.bind {x : ℕ → Option α} {f : ℕ → α → Option β} {a : α} {b : β} (h : Gives x a)
    (hf : Gives (f · a) b) : Gives (fun fuel => x fuel >>= f fuel) b := by
  obtain ⟨bound, hbound⟩ := h
  obtain ⟨bound', hbound'⟩ := hf
  refine ⟨max bound bound', fun fuel hfuel => ?_⟩
  obtain ⟨hle, hle'⟩ := Nat.max_le.mp hfuel
  change x fuel >>= f fuel = some b
  rw [hbound fuel hle]
  exact hbound' fuel hle'

theorem Gives.const (a : α) : Gives (fun _ => some a) a := ⟨0, fun _ _ => rfl⟩

/-! ### What has been seen -/

/-- The frames that have not been seen. -/
def unseen (s : Store) (seen : List FrameId) : List FrameId := (List.range s.size).diff seen

/-- What has been seen once the walk has gone on to some frames. -/
def found (s : Store) (seen frames : List FrameId) : List FrameId :=
  seen ++ s.discover (unseen s seen) frames

variable {seen : List FrameId}

theorem mem_unseen_iff : i ∈ unseen s seen ↔ i < s.size ∧ i ∉ seen := by
  rw [unseen, List.nodup_range.mem_sdiff_iff, List.mem_range]

theorem unseen_append (more : List FrameId) :
    unseen s (seen ++ more) = (unseen s seen).diff more :=
  List.diff_append ..

theorem found_nil (s : Store) (seen : List FrameId) : found s seen [] = seen := by
  rw [found, discover_of_dropWhile_nil List.dropWhile_nil, List.append_nil]

theorem found_append (xs ys : List FrameId) :
    found s seen (xs ++ ys) = found s (found s seen xs) ys := by
  rw [found, discover_append, found, found, unseen_append, List.append_assoc]

theorem found_of_mem (h : i ∈ seen) : found s seen [i] = seen := by
  have hdrop : [i].dropWhile (· ∉ unseen s seen) = [] := by simp [mem_unseen_iff, h]
  rw [found, discover_of_dropWhile_nil hdrop, List.append_nil]

theorem found_of_notMem (hi : i < s.size) (h : i ∉ seen) :
    found s seen [i] = found s (seen ++ [i]) (s.links i) := by
  have hdrop : [i].dropWhile (· ∉ unseen s seen) = [i] := by simp [mem_unseen_iff, hi, h]
  rw [found, discover_of_dropWhile_cons hdrop, found, unseen_append, List.diff_cons, List.diff_nil,
    List.append_assoc, List.append_nil, List.singleton_append]

/-- Seeing more leaves no more to be seen. -/
theorem length_unseen_found (s : Store) (seen frames : List FrameId) :
    (unseen s (found s seen frames)).length ≤ (unseen s seen).length := by
  rw [found, unseen_append]
  exact (List.diff_sublist _ _).length_le

theorem length_unseen_append (hi : i < s.size) (h : i ∉ seen) :
    (unseen s (seen ++ [i])).length + 1 = (unseen s seen).length := by
  have hmem : i ∈ unseen s seen := mem_unseen_iff.mpr ⟨hi, h⟩
  have hpos := List.length_pos_of_mem hmem
  rw [unseen_append, List.diff_cons, List.diff_nil, List.length_erase_of_mem hmem]
  omega

/-! ### The recursion finds what the walk finds -/

/-- While at most `n` frames are unseen, the recursion finds from a frame what the walk finds. -/
def FindsFrames (s : Store) (n : ℕ) : Prop :=
  ∀ i < s.size, ∀ seen, (unseen s seen).length ≤ n →
    Gives (visitFrame s · i seen) (found s seen [i])

theorem gives_found_nil {x : ℕ → Option (List FrameId)} (h : ∀ fuel, x (fuel + 1) = some seen) :
    Gives x (found s seen []) := by
  rw [found_nil]
  exact (Gives.const seen).succ h

mutual

/-- **Values.** What holds for frames holds for values. -/
theorem gives_visitValue {n : ℕ} (hframe : FindsFrames s n) : (v : Value) →
    (∀ i ∈ v.frames, i < s.size) → (seen : List FrameId) → (unseen s seen).length ≤ n →
    Gives (visitValue s · v seen) (found s seen v.frames)
  | .closure id frame params body, hv, seen, hseen => by
    have hbody : ∀ i ∈ body.frames, i < s.size := fun i hi => hv i (List.mem_cons_of_mem frame hi)
    have hle := (length_unseen_found s seen [frame]).trans hseen
    have hvisit := (hframe frame (hv frame List.mem_cons_self) seen hseen).bind
      (gives_visitValue hframe body hbody _ hle)
    rw [← found_append] at hvisit
    exact hvisit.succ fun _ => rfl
  | .list id items, hv, seen, hseen => by
    rw [Value.frames, Value.framesOf_eq_flatMap] at hv ⊢
    exact (gives_visitValues hframe items hv seen hseen).succ fun _ => rfl
  | .atom p, _, _, _ => gives_found_nil fun _ => rfl
  | .symbol id name, _, _, _ => gives_found_nil fun _ => rfl
  | .number x, _, _, _ => gives_found_nil fun _ => rfl
  | .bool b, _, _, _ => gives_found_nil fun _ => rfl
  | .external ref, _, _, _ => gives_found_nil fun _ => rfl

/-- **Several values** are visited one after the other. -/
theorem gives_visitValues {n : ℕ} (hframe : FindsFrames s n) : (vs : List Value) →
    (∀ i ∈ vs.flatMap Value.frames, i < s.size) → (seen : List FrameId) →
    (unseen s seen).length ≤ n →
    Gives (visitValues s · vs seen) (found s seen (vs.flatMap Value.frames))
  | [], _, _, _ => gives_found_nil fun _ => rfl
  | v :: vs, hvs, seen, hseen => by
    rw [List.flatMap_cons] at hvs ⊢
    have hle := (length_unseen_found s seen v.frames).trans hseen
    have hfirst := gives_visitValue hframe v (fun i hi => hvs i (List.mem_append_left _ hi)) _ hseen
    have hvisit := hfirst.bind
      (gives_visitValues hframe vs (fun i hi => hvs i (List.mem_append_right _ hi)) _ hle)
    rw [← found_append] at hvisit
    exact hvisit.succ fun _ => rfl

end

theorem gives_visitFrame_of_mem (h : i ∈ seen) :
    Gives (visitFrame s · i seen) (found s seen [i]) := by
  rw [found_of_mem h]
  refine (Gives.const seen).succ fun fuel => ?_
  rw [visitFrame, if_pos h]

/-- **Frames.** The recursion ends, and finds what the walk finds. -/
theorem gives_visitFrame (hs : s.Linked) (hi : i < s.size) (seen : List FrameId) :
    Gives (visitFrame s · i seen) (found s seen [i]) := by
  induction hn : (unseen s seen).length using Nat.strong_induction_on generalizing i seen with
  | _ n ih =>
    by_cases hmem : i ∈ seen
    · exact gives_visitFrame_of_mem hmem
    have hless := length_unseen_append hi hmem
    have hframe : FindsFrames s (unseen s (seen ++ [i])).length := fun j hj seen' hle =>
      ih _ (by omega) hj seen' rfl
    have hvalues : ∀ j ∈ ((s.bindings i).entries.map Prod.snd).flatMap Value.frames,
        j < s.size := by
      intro j hj
      rw [List.flatMap_map] at hj
      exact hs i j (List.mem_append_left _ hj)
    have hvisit := gives_visitValues hframe _ hvalues (seen ++ [i]) le_rfl
    rw [found_of_notMem hi hmem, links, found_append, ← List.flatMap_map]
    cases houter : s.outer i with
    | none =>
      rw [Option.toList_none, found_nil]
      refine (hvisit.bind (.const _)).succ fun fuel => ?_
      rw [visitFrame, if_neg hmem, houter]
    | some j =>
      have hj : j < s.size := hs i j (mem_links_of_outer houter)
      refine (hvisit.bind (hframe j hj _ (length_unseen_found s _ _))).succ fun fuel => ?_
      rw [visitFrame, if_neg hmem, houter]

/-- **The recursion collects the frames below a root,** in the same order. -/
theorem gives_reachable (hs : s.Linked) {root : FrameId} (hroot : root < s.size) :
    Gives (visitFrame s · root []) (s.reachable root) := by
  have hfound : found s [] [root] = s.reachable root := by
    rw [found, unseen, List.diff_nil, List.nil_append, reachable]
  rw [← hfound]
  exact gives_visitFrame hs hroot []

end Traversal

end Store

end FrameLisp
