import FrameLisp.Proofs.Eval.Invariant
import FrameLisp.Proofs.Store.Discovery

/-!
# Definitions stay local

Evaluation adds names to the frame it takes place in and to frames of its own making. All other
frames keep the names they bind, and every frame keeps its parent; assignment changes what a name is
bound to, but binds none. A function body is evaluated in a new frame, so applying a function adds
no name to any frame that was there before. What is visible from a frame therefore stays visible.

Functions of the host may do anything to frames, so it is assumed that they leave those that exist
as they are.

## Main definitions

* `Host.LeavesFrames` — hosts whose functions do not touch existing frames
* `Store.NamesKept` — frames that keep their names, but for some that may have gained more
* `Task`, `machineAfterAll` — runs of evaluations and applications

## Main results

* `Store.NamesKept.contains` — what is visible stays visible
* `Store.namesKept_eval`, `Store.namesKept_apply` — where evaluation and application add names
* `definitions_stay_local` — definitions stay local
-/

namespace FrameLisp

/-! ### Names bound in a frame -/

namespace Bindings

variable {α : Type} {b : Bindings α} {name : String}

theorem contains_iff_mem_names : b.contains name ↔ name ∈ b.names := by
  rw [contains, get?, names]
  induction b.entries with
  | nil => simp [find?]
  | cons e es ih =>
    rw [find?]
    by_cases h : name = e.1
    · simp [h]
    · simp [h, ih]

theorem mem_names_insert {v : α} {n : String} :
    n ∈ (b.insert name v).names ↔ n = name ∨ n ∈ b.names := by
  rw [← contains_iff_mem_names, ← contains_iff_mem_names, contains, get?_insert, contains]
  by_cases h : n = name <;> simp [h]

/-- Binding a name again binds no other name. -/
theorem names_insert_of_mem (h : name ∈ b.names) (v : α) : (b.insert name v).names = b.names := by
  obtain ⟨es, hsorted⟩ := b
  simp only [names, insert] at h ⊢
  induction es with
  | nil => simp at h
  | cons e es ih =>
    obtain ⟨hlt, hes⟩ := List.pairwise_cons.mp hsorted
    rw [insertEntry]
    by_cases heq : name = e.1
    · simp [heq]
    · have hmem : name ∈ es.map (·.1) := (List.mem_cons.mp h).resolve_left heq
      -- the names are in order, so the one that is bound already does not come first
      have hnlt : ¬ name < e.1 := by
        obtain ⟨d, hd, rfl⟩ := List.mem_map.mp hmem
        exact String.lt_asymm (hlt d hd)
      rw [if_neg hnlt, if_neg heq, List.map_cons, ih hes hmem, List.map_cons]

end Bindings

namespace Store

variable {s t : Store} {own : FrameId → Prop} {i : FrameId} {name : String}

/-- From one store to another no frame is lost, no parent changes and no name is unbound, and frames
other than the given ones bind no new names. -/
structure NamesKept (own : FrameId → Prop) (s t : Store) : Prop where
  size_le : s.size ≤ t.size
  outer : ∀ i < s.size, t.outer i = s.outer i
  names : ∀ i < s.size, ¬ own i → (t.bindings i).names = (s.bindings i).names
  grown : ∀ i < s.size, ∀ n ∈ (s.bindings i).names, n ∈ (t.bindings i).names

/-! ### What is visible -/

theorem NamesKept.exists_mem_chainFrom (h : NamesKept own s t) {k l : ℕ} (hkl : k ≤ l)
    {o : Option FrameId} (hs : ∃ j ∈ s.chainFrom k o, name ∈ (s.bindings j).names) :
    ∃ j ∈ t.chainFrom l o, name ∈ (t.bindings j).names := by
  induction k generalizing l o with
  | zero => simp [chainFrom] at hs
  | succ k ih =>
    obtain ⟨l, rfl⟩ := Nat.exists_eq_add_of_le' (Nat.one_le_of_lt hkl)
    cases o with
    | none => simp [chainFrom] at hs
    | some i =>
      obtain ⟨j, hj, hname⟩ := hs
      rw [chainFrom] at hj ⊢
      -- frames that do not exist yet bind nothing and have no parent
      by_cases hi : i < s.size
      · rcases List.mem_cons.mp hj with rfl | hj
        · exact ⟨j, List.mem_cons_self, h.grown j hi name hname⟩
        · obtain ⟨j', hj', hname'⟩ := ih (Nat.le_of_succ_le_succ hkl) ⟨j, hj, hname⟩
          rw [← h.outer i hi] at hj'
          exact ⟨j', List.mem_cons_of_mem i hj', hname'⟩
      · rw [outer_of_le (Nat.not_lt.mp hi), chainFrom_none, List.mem_singleton] at hj
        subst hj
        rw [bindings_of_le (Nat.not_lt.mp hi)] at hname
        exact absurd hname List.not_mem_nil

/-- **What is visible stays visible.** -/
theorem NamesKept.contains (h : NamesKept own s t) (hs : s.contains i name) :
    t.contains i name := by
  simp only [Store.contains, List.any_eq_true, Bindings.contains_iff_mem_names] at hs ⊢
  exact h.exists_mem_chainFrom h.size_le hs

/-! ### What the operations keep -/

theorem NamesKept.refl (own : FrameId → Prop) (s : Store) : NamesKept own s s where
  size_le := le_rfl
  outer _ _ := rfl
  names _ _ _ := rfl
  grown _ _ _ hn := hn

/-- Binding a name keeps names, if it is a new frame's or one of those that may gain names, or if
the name is bound there already. -/
theorem NamesKept.define (h : NamesKept own s t) {j : FrameId}
    (hj : (own j ∨ s.size ≤ j) ∨ name ∈ (t.bindings j).names) (v : Value) :
    NamesKept own s (t.define j name v) where
  size_le := by
    rw [size_define]
    exact h.size_le
  outer i hi := by
    rw [outer_define]
    exact h.outer i hi
  names i hi hown := by
    rw [bindings_define, ← h.names i hi hown]
    split
    next hij =>
      obtain ⟨rfl, -⟩ := hij
      have hbound : name ∈ (t.bindings j).names :=
        hj.resolve_left fun hnew => hnew.elim hown (Nat.not_le.mpr hi)
      exact Bindings.names_insert_of_mem hbound v
    next => rfl
  grown i hi n hn := by
    rw [bindings_define]
    split
    · exact Bindings.mem_names_insert.mpr (.inr (h.grown i hi n hn))
    · exact h.grown i hi n hn

theorem NamesKept.assign (h : NamesKept own s t) (i : FrameId) (name : String) (v : Value) :
    NamesKept own s (t.assign i name v).2 := by
  rw [Store.assign]
  split
  next j hj =>
    have hbound := List.find?_some hj
    exact h.define (.inr (Bindings.contains_iff_mem_names.mp hbound)) v
  next => exact h

theorem NamesKept.push (h : NamesKept own s t) (f : Frame) : NamesKept own s (t.push f) := by
  have hne : ∀ i < s.size, i ≠ t.size := fun i hi => (hi.trans_le h.size_le).ne
  constructor
  · rw [size_push]
    exact Nat.le_succ_of_le h.size_le
  · intro i hi
    rw [outer_push, if_neg (hne i hi)]
    exact h.outer i hi
  · intro i hi hown
    rw [bindings_push, if_neg (hne i hi)]
    exact h.names i hi hown
  · intro i hi n hn
    rw [bindings_push, if_neg (hne i hi)]
    exact h.grown i hi n hn

/-- Frames that are left as they are keep their names. -/
theorem NamesKept.of_frame? (h : NamesKept own s t) {u : Store}
    (hu : ∀ i < t.size, u.frame? i = t.frame? i) : NamesKept own s u := by
  have hframe : ∀ i < s.size, u.frame? i = t.frame? i := fun i hi =>
    hu i (hi.trans_le h.size_le)
  constructor
  · refine Nat.le_of_not_lt fun hlt => ?_
    -- a store that had become smaller would have lost the frame after its last one
    have hlost : t.frame? u.size = none := by
      rw [← hframe u.size hlt]
      exact frame?_eq_none.mpr le_rfl
    exact Nat.not_le.mpr (hlt.trans_le h.size_le) (frame?_eq_none.mp hlost)
  · intro i hi
    rw [outer_congr (hframe i hi)]
    exact h.outer i hi
  · intro i hi hown
    rw [bindings_congr (hframe i hi)]
    exact h.names i hi hown
  · intro i hi n hn
    rw [bindings_congr (hframe i hi)]
    exact h.grown i hi n hn

end Store

/-! ### Evaluation and application -/

section

variable {σ : Type} {host : Host σ} {m : Machine σ}

/-- The functions of a host leave the frames that exist as they are. -/
def Host.LeavesFrames (host : Host σ) : Prop :=
  ∀ (ref : HostRef) (args : List Value) (m : Machine σ), ∀ i < m.store.size,
    (machineAfter (host.call ref args m)).store.frame? i = m.store.frame? i

/-- Frames of a machine keep their names, but for the given ones. Evaluation may take place in these
and in new frames. -/
def Invariant.namesKept (own : FrameId → Prop) (m₀ : Machine σ) : Invariant σ where
  scope i := own i ∨ m₀.store.size ≤ i
  machine m := m₀.store.NamesKept own m.store

theorem Invariant.stable_namesKept (hhost : host.LeavesFrames) (own : FrameId → Prop)
    (m₀ : Machine σ) : (namesKept own m₀).Stable host where
  define hm hi _ v := hm.define (.inl hi) v
  assign {_ i} hm _ name v := hm.assign i name v
  extend hm _ _ _ := ⟨.inr hm.size_le, hm.push _⟩
  advance hm _ := hm
  call {m} hm ref args := hm.of_frame? (hhost ref args m)

namespace Store

/-- **Evaluation adds names only to the frame it takes place in,** among those that exist. -/
theorem namesKept_eval (hhost : host.LeavesFrames) (depth : ℕ) (expr : Value) (env : FrameId) :
    m.store.NamesKept (· = env) (machineAfter (eval host depth expr env m)).store :=
  (Invariant.stable_namesKept hhost (· = env) m).eval (NamesKept.refl _ _) expr (.inl rfl)

/-- **Application adds no names to frames that exist.** -/
theorem namesKept_apply (hhost : host.LeavesFrames) (depth : ℕ) (function : Value)
    (args : List Value) :
    m.store.NamesKept (fun _ => False) (machineAfter (apply host depth function args m)).store :=
  (Invariant.stable_namesKept hhost (fun _ => False) m).apply (NamesKept.refl _ _) function args

end Store

/-! ### Runs -/

/-- What a machine can be asked for: to evaluate an expression in a frame, or to apply a function to
values. -/
inductive Task where
  | evaluate (expr : Value) (env : FrameId)
  | apply (function : Value) (args : List Value)

/-- What a task comes to. -/
def Task.run (host : Host σ) (depth : ℕ) : Task → EvalM σ Value
  | .evaluate expr env => eval host depth expr env
  | .apply function args => FrameLisp.apply host depth function args

/-- The machine after a number of tasks, whatever each of them comes to. -/
def machineAfterAll (host : Host σ) (depth : ℕ) : List Task → Machine σ → Machine σ
  | [], m => m
  | task :: tasks, m => machineAfterAll host depth tasks (machineAfter (task.run host depth m))

theorem Task.contains_run (hhost : host.LeavesFrames) (depth : ℕ) (task : Task) {i : FrameId}
    {name : String} (h : m.store.contains i name) :
    (machineAfter (task.run host depth m)).store.contains i name := by
  cases task with
  | evaluate expr env => exact (Store.namesKept_eval hhost depth expr env).contains h
  | apply function args => exact (Store.namesKept_apply hhost depth function args).contains h

theorem contains_machineAfterAll (hhost : host.LeavesFrames) (depth : ℕ) (tasks : List Task)
    {i : FrameId} {name : String} (h : m.store.contains i name) :
    (machineAfterAll host depth tasks m).store.contains i name := by
  induction tasks generalizing m with
  | nil => exact h
  | cons task tasks ih => exact ih (task.contains_run hhost depth h)

/-- **Definitions stay local.** Let the functions of the host leave existing frames as they are.
Whether evaluating an expression in a frame gives a value or fails, every other frame that existed
before binds the same names as before, the frame itself still binds the names that it bound, and no
frame that existed has another parent. Applying a function changes neither the names nor the parent
of any frame that existed. Hence a name that is visible from a frame stays visible from it over any
run of evaluations and applications. -/
theorem definitions_stay_local (hhost : host.LeavesFrames) (depth : ℕ) (m : Machine σ) :
    (∀ (expr : Value) (env : FrameId),
      let after := (machineAfter (eval host depth expr env m)).store
      (∀ i < m.store.size, i ≠ env → (after.bindings i).names = (m.store.bindings i).names) ∧
      (∀ n ∈ (m.store.bindings env).names, n ∈ (after.bindings env).names) ∧
      ∀ i < m.store.size, after.outer i = m.store.outer i) ∧
    (∀ (function : Value) (args : List Value),
      let after := (machineAfter (apply host depth function args m)).store
      ∀ i < m.store.size, (after.bindings i).names = (m.store.bindings i).names ∧
        after.outer i = m.store.outer i) ∧
    ∀ (tasks : List Task) (i : FrameId) (name : String), m.store.contains i name →
      (machineAfterAll host depth tasks m).store.contains i name := by
  refine ⟨fun expr env => ?_, fun function args => ?_, fun tasks i name h => ?_⟩
  · have hkept := Store.namesKept_eval (m := m) hhost depth expr env
    refine ⟨fun i hi hne => hkept.names i hi hne, fun n hn => ?_, hkept.outer⟩
    by_cases henv : env < m.store.size
    · exact hkept.grown env henv n hn
    · rw [Store.bindings_of_le (Nat.not_lt.mp henv)] at hn
      exact absurd hn List.not_mem_nil
  · have hkept := Store.namesKept_apply (m := m) hhost depth function args
    exact fun i hi => ⟨hkept.names i hi not_false, hkept.outer i hi⟩
  · exact contains_machineAfterAll hhost depth tasks h

/-- A function of the host counts its calls, and a definition calls it. Evaluated in an inner frame
and as the body of a function made there, the definition adds nothing to the frame around it. -/
theorem definitions_stay_local_counter :
    let host : Host ℕ := ⟨#[fun _ => .onDesk fun n => (.bool (n = 0), n + 1)]⟩
    let m : Machine ℕ := ⟨⟨#[⟨.ofList [("count", .external 0)], none⟩,
      ⟨.ofList [("x", .bool true)], some 0⟩]⟩, 5, 0⟩
    let definition : Value :=
      .list 0 [.atom (.form .define), .symbol 1 "first", .list 2 [.symbol 3 "count"]]
    let after := (machineAfter (eval host 9 definition 1 m)).store
    host.LeavesFrames ∧ (after.bindings 0).names = ["count"] ∧ "x" ∈ (after.bindings 1).names ∧
      after.outer 1 = some 0 ∧
      (((machineAfter (apply host 9 (.closure 4 1 [] definition) [] m)).store.bindings 1).names =
        ["x"]) ∧
      (machineAfterAll host 9
        [.evaluate definition 1, .apply (.closure 4 1 [] definition) []] m).store.contains 1 "count"
      := by
  intro host m definition after
  have hhost : host.LeavesFrames := by
    rintro (_ | ref) args m i hi <;> rfl
  obtain ⟨heval, happly, hruns⟩ := definitions_stay_local hhost 9 m
  obtain ⟨hnames, hgrown, houter⟩ := heval definition 1
  refine ⟨hhost, hnames 0 (by decide) (by decide), hgrown "x" (by decide), houter 1 (by decide),
    (happly (.closure 4 1 [] definition) [] 1 (by decide)).1, hruns _ 1 "count" (by decide)⟩

end

end FrameLisp
