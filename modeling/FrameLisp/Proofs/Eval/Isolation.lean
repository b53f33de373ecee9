import FrameLisp.Proofs.Eval.Discipline
import FrameLisp.Proofs.Store.Discovery

/-!
# Isolation

Evaluation touches only what it can reach. An *island* is a part of a store that leads nowhere else
and in which no external function is bound. Evaluation on an island leaves all other frames as they
are, and the island together with the new frames is an island again. In particular, disjoint islands
stay disjoint.

What can be reached from some frames is an island, if it is free of external functions.

## Main definitions

* `Store.ReachesAny`, `Store.IsIsland` — what can be reached; self-contained parts of a store
* `Confined` — what evaluation on an island leaves behind

## Main results

* `Store.isIsland_reachesAny` — what can be reached is an island
* `Store.IsIsland.eval`, `Store.IsIsland.readEvalPrint` — evaluation on an island is confined to it
* `Confined.frame?_of_isIsland`, `Grown.disjoint` — other islands stay as they are, and apart
-/

namespace FrameLisp

namespace Store

variable {s t : Store} {region : FrameId → Prop} {roots : List FrameId} {i j : FrameId}

/-- A frame can be reached from one of the given ones. -/
def ReachesAny (s : Store) (roots : List FrameId) (i : FrameId) : Prop :=
  ∃ j ∈ roots, s.Reaches j i

/-- No external function is bound where the given frames lead to. -/
def Hostless (s : Store) (roots : List FrameId) : Prop :=
  ∀ i, s.ReachesAny roots i → ∀ e ∈ (s.bindings i).entries, e.2.IsHostless

/-- A part of a store that leads nowhere else and in which no external function is bound. -/
structure IsIsland (s : Store) (region : FrameId → Prop) : Prop where
  range : ∀ {i}, region i → i < s.size
  hostless : ∀ {i}, region i → ∀ e ∈ (s.bindings i).entries, e.2.IsHostless
  links : ∀ {i}, region i → ∀ j ∈ s.links i, region j

/-- **What can be reached is an island,** if it is free of external functions. -/
theorem isIsland_reachesAny (hs : s.Linked) (hroots : ∀ i ∈ roots, i < s.size)
    (hhostless : s.Hostless roots) : s.IsIsland (s.ReachesAny roots) where
  range := by
    rintro i ⟨j, hj, hreaches⟩
    rcases hreaches.cases_tail with heq | ⟨k, -, hlink⟩
    · exact heq ▸ hroots j hj
    · exact hs k i hlink
  hostless hi := hhostless _ hi
  links := by
    rintro i ⟨k, hk, hreaches⟩ j hj
    exact ⟨k, hk, hreaches.tail hj⟩

/-- Nothing else can be reached from an island. -/
theorem IsIsland.of_reachesAny (h : s.IsIsland region) (hroots : ∀ j ∈ roots, region j)
    (hi : s.ReachesAny roots i) : region i := by
  obtain ⟨j, hj, hreaches⟩ := hi
  induction hreaches with
  | refl => exact hroots j hj
  | tail _ hlink ih => exact h.links ih _ hlink

/-- An island whose frames are left as they are stays an island. -/
theorem IsIsland.congr (h : s.IsIsland region) (hsize : s.size ≤ t.size)
    (hframes : ∀ i, region i → t.frame? i = s.frame? i) : t.IsIsland region where
  range hi := (h.range hi).trans_le hsize
  hostless hi := bindings_congr (hframes _ hi) ▸ h.hostless hi
  links {i} hi := by
    rw [Store.links, bindings_congr (hframes i hi), outer_congr (hframes i hi)]
    exact h.links hi

end Store

/-- The frames of a region and those from number `n` on, without external functions. -/
def Vocabulary.inside (region : FrameId → Prop) (n : ℕ) : Vocabulary where
  frame i := region i ∨ n ≤ i
  atom _ := True
  name _ := True
  external _ := False

theorem Vocabulary.allows_inside_iff {region : FrameId → Prop} {k n : ℕ} {v : Value} :
    (inside region k).Allows n v ↔
      v.IsHostless ∧ ∀ i ∈ v.frames, (region i ∨ k ≤ i) ∧ i < n := by
  constructor
  · intro h
    refine ⟨fun p hp => ?_, fun i hi => ?_⟩
    · have hadmits := h p hp
      cases p with
      | external r => exact hadmits.elim
      | _ => simp [Value.kind]
    · obtain ⟨id, params, body, hpart⟩ := Value.mem_frames_iff.mp hi
      exact (h _ hpart).1
  · rintro ⟨hhostless, hframes⟩ p hp
    cases p with
    | closure id frame params body =>
      exact ⟨hframes frame (Value.mem_frames_iff.mpr ⟨id, params, body, hp⟩), fun _ _ => trivial⟩
    | external r => exact hhostless _ hp rfl
    | _ => trivial

namespace Discipline

variable {σ : Type}

/-- Evaluation inside a region, starting on the machine `m₀`: values refer to frames of the region
or to new ones, and all other frames stay as they are. -/
def confined (region : FrameId → Prop) (m₀ : Machine σ) : Discipline σ where
  toVocabulary := .inside region m₀.store.size
  scope i := region i ∨ m₀.store.size ≤ i
  machine m := (Vocabulary.inside region m₀.store.size).Governs m.store ∧
    (∀ i, ¬ region i → i < m₀.store.size → m.store.frame? i = m₀.store.frame? i) ∧
    m₀.store.size ≤ m.store.size ∧ m₀.supply ≤ m.supply

variable {region : FrameId → Prop} {m₀ : Machine σ} {host : Host σ}

/-- Binding a name in a frame of the region changes no frame outside. -/
theorem confined_define {m : Machine σ} (hm : (confined region m₀).machine m) {i : FrameId}
    (hi : (confined region m₀).frame i) (name : String) {v : Value}
    (hv : (confined region m₀).Allows m.store.size v) :
    (confined region m₀).machine { m with store := m.store.define i name v } := by
  obtain ⟨hgoverns, hframes, hsize, hsupply⟩ := hm
  refine ⟨hgoverns.define name hv, fun j hj hlt => ?_, ?_, hsupply⟩
  · have hne : i ≠ j := by
      rintro rfl
      exact hi.elim hj (Nat.not_le.mpr hlt)
    rw [Store.define, Store.frame?_modify, if_neg hne]
    exact hframes j hj hlt
  · rw [Store.size_define]
    exact hsize

theorem lawful_confined : (confined region m₀).Lawful host where
  frame_of_scope hi := hi
  lambda := trivial
  begin := trivial
  define_of_once _ := trivial
  lookup hm hi _ _ hlookup := hm.1.lookup hi hlookup
  define _ hm hi _ _ hv := confined_define hm hi _ hv
  assign {m i name v} _ hm hi _ _ hv := by
    rw [Store.assign]
    split
    next j hj => exact confined_define hm (hm.1.resolve? hi hj) name hv
    next => exact hm
  extend {m i params args} hm hi hlt _ hargs := by
    obtain ⟨hgoverns, hframes, hsize, hsupply⟩ := hm
    refine ⟨.inr hsize, hgoverns.extend hi hlt params hargs, fun j hj hj' => ?_, ?_, hsupply⟩
    · rw [Store.extend, Store.frame?_push, if_neg (hj'.trans_le hsize).ne]
      exact hframes j hj hj'
    · rw [Store.extend, Store.size_push]
      exact Nat.le_succ_of_le hsize
  advance hm k := ⟨hm.1, hm.2.1, hm.2.2.1, hm.2.2.2.trans (Nat.le_add_right _ k)⟩
  call _ hr _ := hr.elim

end Discipline

/-! ### Evaluation on an island -/

section

variable {σ : Type} {region other : FrameId → Prop} {m m' : Machine σ}

/-- The frames of a region and those that were created meanwhile. -/
def Grown (region : FrameId → Prop) (m m' : Machine σ) (i : FrameId) : Prop :=
  (region i ∨ m.store.size ≤ i) ∧ i < m'.store.size

/-- What evaluation on an island leaves behind: the island has grown, and all other frames are as
they were. -/
structure Confined (region : FrameId → Prop) (m m' : Machine σ) : Prop where
  size_le : m.store.size ≤ m'.store.size
  supply_le : m.supply ≤ m'.supply
  island : m'.store.IsIsland (Grown region m m')
  frame? : ∀ i < m.store.size, ¬ region i → m'.store.frame? i = m.store.frame? i

/-- The frames that the result of a computation refers to. -/
def framesAfter : EStateM.Result Halt (Machine σ) Value → List FrameId
  | .ok v _ => v.frames
  | .error _ _ => []

/-- A region that is governed by its vocabulary is an island. -/
theorem Vocabulary.Governs.isIsland {s : Store} {n : ℕ} (h : (inside region n).Governs s) :
    s.IsIsland fun i => (region i ∨ n ≤ i) ∧ i < s.size where
  range hi := hi.2
  hostless hi e he := (allows_inside_iff.mp ((h _ hi.1).1 e he)).1
  links hi _ hj := h.frame_of_link hi.1 hj

theorem confined_of_machine (h : (Discipline.confined region m).machine m') :
    Confined region m m' where
  size_le := h.2.2.1
  supply_le := h.2.2.2
  island := h.1.isIsland
  frame? i hi hregion := h.2.1 i hregion hi

namespace Store.IsIsland

/-- The vocabulary of an island governs it. -/
theorem governs (h : m.store.IsIsland region) :
    (Vocabulary.inside region m.store.size).Governs m.store := by
  rintro i (hi | hi)
  · refine ⟨fun e he => Vocabulary.allows_inside_iff.mpr ⟨h.hostless hi e he, fun j hj => ?_⟩,
      fun j hj => ?_⟩
    · have hregion := h.links hi j (mem_links_of_binding he hj)
      exact ⟨.inl hregion, h.range hregion⟩
    · have hregion := h.links hi j (mem_links_of_outer hj)
      exact ⟨.inl hregion, h.range hregion⟩
  · -- nothing is bound in frames that are yet to be created
    rw [bindings_of_le hi, outer_of_le hi]
    exact ⟨fun e he => absurd he List.not_mem_nil, fun j hj => absurd hj (Option.not_mem_none j)⟩

/-- So does a vocabulary that speaks of the same frames and allows what is bound there. -/
theorem governs_of {d : Vocabulary} (h : m.store.IsIsland region)
    (hframe : d.frame = (Vocabulary.inside region m.store.size).frame)
    (hallows : ∀ i, region i → ∀ e ∈ (m.store.bindings i).entries,
      (Vocabulary.inside region m.store.size).Allows m.store.size e.2 →
        d.Allows m.store.size e.2) : d.Governs m.store := by
  rw [Vocabulary.Governs, hframe]
  intro i hi
  obtain ⟨hentries, houter⟩ := h.governs i hi
  refine ⟨fun e he => ?_, houter⟩
  rcases hi with hi | hi
  · exact hallows i hi e he (hentries e he)
  · rw [bindings_of_le hi] at he
    exact absurd he List.not_mem_nil

theorem machine_confined (h : m.store.IsIsland region) :
    (Discipline.confined region m).machine m :=
  ⟨h.governs, fun _ _ _ => rfl, le_rfl, le_rfl⟩

/-- **Evaluation on an island is confined to it,** whether it gives a value or fails. A value refers
only to the island that has grown. -/
theorem eval (h : m.store.IsIsland region) (host : Host σ) (depth : ℕ) {env : FrameId}
    (henv : region env) {expr : Value} (hexpr : expr.IsHostless)
    (hframes : ∀ i ∈ expr.frames, region i) :
    Confined region m (machineAfter (FrameLisp.eval host depth expr env m)) ∧
      ∀ i ∈ framesAfter (FrameLisp.eval host depth expr env m),
        Grown region m (machineAfter (FrameLisp.eval host depth expr env m)) i := by
  have hallows : (Vocabulary.inside region m.store.size).Allows m.store.size expr :=
    Vocabulary.allows_inside_iff.mpr
      ⟨hexpr, fun i hi => ⟨.inl (hframes i hi), h.range (hframes i hi)⟩⟩
  have hupholds : (Discipline.confined region m).Upholds m (FrameLisp.eval host depth expr env m) :=
    Discipline.lawful_confined.eval h.machine_confined hallows (.inl henv) (h.range henv)
  cases hresult : FrameLisp.eval host depth expr env m with
  | ok v m' =>
    rw [hresult] at hupholds
    exact ⟨confined_of_machine hupholds.2.1, (Vocabulary.allows_inside_iff.mp hupholds.2.2).2⟩
  | error halt m' =>
    rw [hresult] at hupholds
    exact ⟨confined_of_machine hupholds.2, fun i hi => absurd hi List.not_mem_nil⟩

/-- **So is answering a text.** -/
theorem readEvalPrint (h : m.store.IsIsland region) (host : Host σ) (depth : ℕ) {root : FrameId}
    (hroot : region root) (text : String) :
    Confined region m (FrameLisp.readEvalPrint host depth root text m).2 := by
  refine confined_of_machine (Discipline.lawful_confined.readEvalPrint h.machine_confined
    (.inl hroot) (h.range hroot) fun f _ p _ => ?_)
  cases p <;> trivial

end Store.IsIsland

theorem Grown.of_region (hm : m.store.IsIsland region) (h : Confined region m m') {i : FrameId}
    (hi : region i) : Grown region m m' i :=
  ⟨.inl hi, (hm.range hi).trans_le h.size_le⟩

/-- **Disjoint islands stay disjoint** when one of them grows. -/
theorem Grown.disjoint (hother : m.store.IsIsland other) (hdisjoint : ∀ i, region i → ¬ other i)
    {i : FrameId} (hi : Grown region m m' i) : ¬ other i := by
  intro hi'
  exact hi.1.elim (fun hregion => hdisjoint i hregion hi') (Nat.not_le.mpr (hother.range hi'))

/-- **Other islands stay as they are.** -/
theorem Confined.frame?_of_isIsland (h : Confined region m m') (hother : m.store.IsIsland other)
    (hdisjoint : ∀ i, region i → ¬ other i) {i : FrameId} (hi : other i) :
    m'.store.frame? i = m.store.frame? i :=
  h.frame? i (hother.range hi) fun hregion => hdisjoint i hregion hi

theorem Confined.isIsland (h : Confined region m m') (hother : m.store.IsIsland other)
    (hdisjoint : ∀ i, region i → ¬ other i) : m'.store.IsIsland other :=
  hother.congr h.size_le fun _ hi => h.frame?_of_isIsland hother hdisjoint hi

end

end FrameLisp
