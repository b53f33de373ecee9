import FrameLisp.Snapshot.Graph
import Mathlib.Data.List.TakeWhile
import Mathlib.Logic.Relation

/-!
# Discovery of frames

The walk that collects the frames below a root finds what can be reached by following links, and
finds each frame once. It always terminates, whatever cycles the links form, because every step
removes a frame from the unseen ones.

A store is *linked* when no link leads out of it. Every store that an evaluation works on is: a
frame has a number only once it exists.

## Main definitions

* `Store.Reaches` — a frame can be reached from another one
* `Store.Linked` — all links stay inside the store

## Main results

* `Store.nodup_reachable` — each frame is found once
* `Store.reachable_eq_cons` — the root is found first
* `Store.mem_reachable_of_link` — what is found is closed under links
* `Store.mem_reachable_iff` — exactly the frames that can be reached are found
-/

namespace FrameLisp

namespace Store

/-- One frame can be reached from another by following links. -/
def Reaches (s : Store) : FrameId → FrameId → Prop :=
  Relation.ReflTransGen fun i j => j ∈ s.links i

/-- All links stay inside the store. -/
def Linked (s : Store) : Prop := ∀ i, ∀ j ∈ s.links i, j < s.size

variable {s t : Store} {unseen pending : List FrameId} {i j root : FrameId}

theorem mem_links_of_binding {e : String × Value} (he : e ∈ (s.bindings i).entries)
    (hj : j ∈ e.2.frames) : j ∈ s.links i :=
  List.mem_append_left _ (List.mem_flatMap.mpr ⟨e, he, hj⟩)

theorem mem_links_of_outer (h : j ∈ s.outer i) : j ∈ s.links i :=
  List.mem_append_right _ (Option.mem_toList.mpr h)

theorem bindings_of_le (h : s.size ≤ i) : s.bindings i = ∅ := by
  rw [bindings, frame?_eq_none.mpr h]

theorem outer_of_le (h : s.size ≤ i) : s.outer i = none := by
  rw [outer, frame?_eq_none.mpr h]
  rfl

theorem bindings_congr (h : t.frame? i = s.frame? i) : t.bindings i = s.bindings i := by
  rw [bindings, bindings, h]

theorem outer_congr (h : t.frame? i = s.frame? i) : t.outer i = s.outer i := by
  rw [outer, outer, h]

/-- Only frames of the store bind anything. -/
theorem forall_entries {P : Value → Prop}
    (h : ∀ i < s.size, ∀ e ∈ (s.bindings i).entries, P e.2) :
    ∀ i, ∀ e ∈ (s.bindings i).entries, P e.2 := by
  intro i
  by_cases hi : i < s.size
  · exact h i hi
  · rw [bindings_of_le (Nat.not_lt.mp hi)]
    exact fun e he => absurd he List.not_mem_nil

/-- Only frames of the store have links. -/
theorem linked_iff : s.Linked ↔ ∀ i < s.size, ∀ j ∈ s.links i, j < s.size := by
  refine ⟨fun h i _ => h i, fun h i j hj => ?_⟩
  by_cases hi : i < s.size
  · exact h i hi j hj
  · rw [links, bindings_of_le (Nat.not_lt.mp hi), outer_of_le (Nat.not_lt.mp hi)] at hj
    exact absurd hj List.not_mem_nil

instance (s : Store) : Decidable s.Linked := decidable_of_iff _ linked_iff.symm

/-! ### The walk -/

theorem discover_of_dropWhile_nil (h : pending.dropWhile (· ∉ unseen) = []) :
    s.discover unseen pending = [] := by
  rw [discover]
  split
  · rfl
  next h' => exact absurd (h.symm.trans h') (List.cons_ne_nil _ _).symm

theorem discover_of_dropWhile_cons {rest : List FrameId}
    (h : pending.dropWhile (· ∉ unseen) = i :: rest) :
    s.discover unseen pending = i :: s.discover (unseen.erase i) (s.links i ++ rest) := by
  rw [discover]
  split
  next h' => exact absurd (h.symm.trans h') (List.cons_ne_nil _ _)
  next h' =>
    obtain ⟨rfl, rfl⟩ := List.cons_eq_cons.mp (h.symm.trans h')
    rfl

/-- What has been passed over has been seen. -/
theorem mem_cons_of_dropWhile {rest : List FrameId}
    (h : pending.dropWhile (· ∉ unseen) = i :: rest) (hj : j ∈ pending) (hunseen : j ∈ unseen) :
    j ∈ i :: rest := by
  rw [← List.takeWhile_append_dropWhile (p := fun k => decide (k ∉ unseen)) (l := pending),
    List.mem_append, h] at hj
  refine hj.resolve_left fun hseen => ?_
  simpa [hunseen] using List.mem_takeWhile_imp hseen

theorem mem_of_mem_discover (h : i ∈ s.discover unseen pending) : i ∈ unseen := by
  fun_induction discover s unseen pending with
  | case1 => simp at h
  | case2 unseen pending k rest hdrop ih =>
    rcases List.mem_cons.mp h with rfl | h
    · exact mem_of_dropWhile_eq_cons hdrop
    · exact List.mem_of_mem_erase (ih h)

theorem nodup_discover (hunseen : unseen.Nodup) : (s.discover unseen pending).Nodup := by
  fun_induction discover s unseen pending with
  | case1 => exact List.nodup_nil
  | case2 unseen pending k rest hdrop ih =>
    refine List.nodup_cons.mpr ⟨fun hk => ?_, ih (hunseen.erase k)⟩
    exact hunseen.not_mem_erase (mem_of_mem_discover hk)

theorem mem_discover_of_pending (hj : j ∈ pending) (hunseen : j ∈ unseen) :
    j ∈ s.discover unseen pending := by
  fun_induction discover s unseen pending with
  | case1 unseen pending hdrop =>
    have hseen := List.dropWhile_eq_nil_iff.mp hdrop j hj
    simp [hunseen] at hseen
  | case2 unseen pending k rest hdrop ih =>
    by_cases hjk : j = k
    · exact List.mem_cons.mpr (.inl hjk)
    · have hrest : j ∈ rest :=
        (List.mem_cons.mp (mem_cons_of_dropWhile hdrop hj hunseen)).resolve_left hjk
      exact List.mem_cons_of_mem k (ih (List.mem_append_right _ hrest)
        ((List.mem_erase_of_ne hjk).mpr hunseen))

theorem mem_discover_of_link (hi : i ∈ s.discover unseen pending) (hj : j ∈ s.links i)
    (hunseen : j ∈ unseen) : j ∈ s.discover unseen pending := by
  fun_induction discover s unseen pending with
  | case1 => simp at hi
  | case2 unseen pending k rest hdrop ih =>
    by_cases hjk : j = k
    · exact List.mem_cons.mpr (.inl hjk)
    · have hleft : j ∈ unseen.erase k := (List.mem_erase_of_ne hjk).mpr hunseen
      rcases List.mem_cons.mp hi with rfl | hi
      · exact List.mem_cons_of_mem i (mem_discover_of_pending (List.mem_append_left _ hj) hleft)
      · exact List.mem_cons_of_mem k (ih hi hleft)

/-- Only what can be reached is found. -/
theorem reaches_of_mem_discover (h : i ∈ s.discover unseen pending) :
    ∃ j ∈ pending, s.Reaches j i := by
  fun_induction discover s unseen pending with
  | case1 => simp at h
  | case2 unseen pending k rest hdrop ih =>
    have hsuffix : ∀ j ∈ k :: rest, j ∈ pending := fun j hj =>
      (List.dropWhile_sublist _).subset (hdrop ▸ hj)
    rcases List.mem_cons.mp h with rfl | h
    · exact ⟨i, hsuffix i List.mem_cons_self, .refl⟩
    · obtain ⟨j, hj, hreach⟩ := ih h
      rcases List.mem_append.mp hj with hj | hj
      · exact ⟨k, hsuffix k List.mem_cons_self, hreach.head hj⟩
      · exact ⟨j, hsuffix j (List.mem_cons_of_mem k hj), hreach⟩

/-! ### The frames below a root -/

theorem lt_size_of_mem_reachable (h : i ∈ s.reachable root) : i < s.size :=
  List.mem_range.mp (mem_of_mem_discover h)

/-- **Each frame is found once.** -/
theorem nodup_reachable (s : Store) (root : FrameId) : (s.reachable root).Nodup :=
  nodup_discover List.nodup_range

/-- **The root is found first.** -/
theorem reachable_eq_cons (hroot : root < s.size) :
    ∃ rest, s.reachable root = root :: rest := by
  have hdrop : [root].dropWhile (· ∉ List.range s.size) = [root] := by simp [hroot]
  exact ⟨_, discover_of_dropWhile_cons hdrop⟩

/-- From the only frame of a store, nothing else can be reached. -/
theorem reachable_of_size_eq_one (h : s.size = 1) : s.reachable 0 = [0] := by
  have hfirst : s.reachable 0 = 0 :: s.discover [] (s.links 0 ++ []) := by
    rw [reachable, h]
    exact discover_of_dropWhile_cons rfl
  rw [hfirst, discover_of_dropWhile_nil (List.dropWhile_eq_nil_iff.mpr (by simp))]

theorem mem_reachable_self (hroot : root < s.size) : root ∈ s.reachable root :=
  mem_discover_of_pending List.mem_cons_self (List.mem_range.mpr hroot)

/-- **What is found is closed under links.** -/
theorem mem_reachable_of_link (hs : s.Linked) (hi : i ∈ s.reachable root) (hj : j ∈ s.links i) :
    j ∈ s.reachable root :=
  mem_discover_of_link hi hj (List.mem_range.mpr (hs i j hj))

/-- **Discovery is exact.** The frames found are those that can be reached from the root. -/
theorem mem_reachable_iff (hs : s.Linked) (hroot : root < s.size) :
    i ∈ s.reachable root ↔ s.Reaches root i := by
  constructor
  · intro h
    obtain ⟨j, hj, hreach⟩ := reaches_of_mem_discover h
    rwa [List.mem_singleton.mp hj] at hreach
  · intro h
    induction h with
    | refl => exact mem_reachable_self hroot
    | tail _ hlink ih => exact mem_reachable_of_link hs ih hlink

end Store

end FrameLisp
