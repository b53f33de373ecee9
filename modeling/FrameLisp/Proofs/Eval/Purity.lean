import FrameLisp.Proofs.Eval.Isolation

/-!
# Evaluation without mutation

Three special forms change bindings: `set!`, `define` and `initialize`. Primitives are values, so
one of them could be computed, taken out of a list or handed to a function, and then be the head of
an application. But evaluation only passes primitives around. The derived forms that it builds are
made of `lambda` and `begin`, and a definition is only built from a definition. Where none of the
three occurs, none comes into being, and all frames stay as they are: evaluation reads them, and
adds new ones.

External functions may do anything, so there must be none.

## Main definitions

* `Primitive.isMutation` — the forms that change bindings
* `Value.IsPure`, `Store.IsPure` — values and frames without them
* `Discipline.undisturbed` — evaluation that leaves all frames as they are

## Main results

* `Discipline.lawful_undisturbed` — no operation leads out of it
* `eval_keeps_frames` — without mutation forms, evaluation changes no frame
-/

namespace FrameLisp

/-- The forms that change the bindings of a frame. -/
def Primitive.isMutation : Primitive → Bool
  | .form .set | .form .define | .form .defineOnce => true
  | _ => false

namespace Value

/-- A primitive or a function through which bindings can change. -/
def isEffectful : Value → Bool
  | .atom p => p.isMutation
  | .external _ => true
  | .symbol _ _ | .number _ | .bool _ | .list _ _ | .closure _ _ _ _ => false

/-- Free of mutation forms and of external functions. -/
def IsPure (v : Value) : Prop := ∀ p ∈ v.parts, ¬ p.isEffectful

instance (v : Value) : Decidable v.IsPure :=
  inferInstanceAs (Decidable (∀ p ∈ v.parts, ¬ p.isEffectful))

theorem IsPure.isHostless {v : Value} (h : v.IsPure) : v.IsHostless := by
  intro p hp hkind
  cases p with
  | external ref => exact h _ hp rfl
  | _ => cases hkind

end Value

/-- Neither mutation forms nor external functions occur in what is bound where the given frames lead
to. -/
def Store.IsPure (s : Store) (roots : List FrameId) : Prop :=
  ∀ i, s.ReachesAny roots i → ∀ e ∈ (s.bindings i).entries, e.2.IsPure

/-- The frames of a region and those from number `n` on, without external functions and without
mutation forms. -/
def Vocabulary.mutationless (region : FrameId → Prop) (n : ℕ) : Vocabulary :=
  { Vocabulary.inside region n with atom := fun p => ¬ p.isMutation }

section

variable {σ : Type} {region : FrameId → Prop}

theorem Value.IsPure.allows {v : Value} (h : v.IsPure) {k n : ℕ}
    (hinside : (Vocabulary.inside region k).Allows n v) :
    (Vocabulary.mutationless region k).Allows n v := by
  intro p hp
  have hpure := h p hp
  have hadmits := hinside p hp
  cases p with
  | atom a => exact hpure
  | _ => exact hadmits

/-- Where mutation forms do not occur, the vocabulary without them is kept to. -/
theorem Store.IsPure.governs {m : Machine σ} {roots : List FrameId} (h : m.store.IsPure roots)
    (hs : m.store.Linked) (hroots : ∀ i ∈ roots, i < m.store.size) :
    (Vocabulary.mutationless (m.store.ReachesAny roots) m.store.size).Governs m.store := by
  have hisland := Store.isIsland_reachesAny hs hroots fun i hi e he => (h i hi e he).isHostless
  exact hisland.governs_of rfl fun i hi e he hinside => (h i hi e he).allows hinside

namespace Discipline

/-- Evaluation without mutation forms, starting on the machine `m₀`: all its frames stay as they
are. -/
def undisturbed (region : FrameId → Prop) (m₀ : Machine σ) : Discipline σ where
  toVocabulary := .mutationless region m₀.store.size
  scope i := region i ∨ m₀.store.size ≤ i
  machine m := (Vocabulary.mutationless region m₀.store.size).Governs m.store ∧
    (∀ i < m₀.store.size, m.store.frame? i = m₀.store.frame? i) ∧ m₀.store.size ≤ m.store.size

variable {m₀ : Machine σ} {host : Host σ}

/-- **No operation disturbs a frame** when the forms that could are not there. -/
theorem lawful_undisturbed : (undisturbed region m₀).Lawful host where
  frame_of_scope hi := hi
  lambda := Bool.false_ne_true
  begin := Bool.false_ne_true
  define_of_once honce := absurd rfl honce
  lookup hm hi _ _ hlookup := hm.1.lookup hi hlookup
  define hdefine := absurd rfl hdefine
  assign hset := absurd rfl hset
  extend {m i params args} hm hi hlt _ hargs := by
    obtain ⟨hgoverns, hframes, hsize⟩ := hm
    refine ⟨.inr hsize, hgoverns.extend hi hlt params hargs, fun j hj => ?_, ?_⟩
    · rw [Store.extend, Store.frame?_push, if_neg (hj.trans_le hsize).ne]
      exact hframes j hj
    · rw [Store.extend, Store.size_push]
      exact Nat.le_succ_of_le hsize
  advance hm _ := hm
  call _ hr _ := hr.elim

end Discipline

/-- **Without mutation forms, evaluation changes no frame.** Suppose that neither `set!`, `define`
and `initialize` nor an external function occurs in an expression or in any value that can be
reached from it or from the frame it is evaluated in. Then evaluation leaves every frame there was
with the same bindings and the same parent, whether it gives a value or fails on the way. -/
theorem eval_keeps_frames (host : Host σ) (depth : ℕ) {m : Machine σ} (hs : m.store.Linked)
    {env : FrameId} {expr : Value} (hroots : ∀ i ∈ env :: expr.frames, i < m.store.size)
    (hexpr : expr.IsPure) (hstore : m.store.IsPure (env :: expr.frames)) {i : FrameId}
    (hi : i < m.store.size) :
    (machineAfter (eval host depth expr env m)).store.frame? i = m.store.frame? i := by
  have hreach : ∀ j ∈ env :: expr.frames, m.store.ReachesAny (env :: expr.frames) j :=
    fun j hj => ⟨j, hj, .refl⟩
  have hinside : (Vocabulary.inside (m.store.ReachesAny (env :: expr.frames))
      m.store.size).Allows m.store.size expr :=
    Vocabulary.allows_inside_iff.mpr ⟨hexpr.isHostless, fun j hj =>
      ⟨.inl (hreach j (List.mem_cons_of_mem env hj)), hroots j (List.mem_cons_of_mem env hj)⟩⟩
  have hupholds : (Discipline.undisturbed (m.store.ReachesAny (env :: expr.frames)) m).Upholds m
      (eval host depth expr env m) :=
    Discipline.lawful_undisturbed.eval ⟨hstore.governs hs hroots, fun _ _ => rfl, le_rfl⟩
      (hexpr.allows hinside) (.inl (hreach env List.mem_cons_self))
      (hroots env List.mem_cons_self)
  obtain ⟨-, -, hframes, -⟩ := hupholds.machineAfter
  exact hframes i hi

end

/-- A function from an inner frame is applied to a list that holds a function made on the spot,
which it calls twice; then an unbound name is asked for. The evaluation fails after it has created
four frames, and the two that were there before are as they were. -/
theorem eval_keeps_frames_failing :
    let m : Machine Unit := ⟨⟨#[
      ⟨.ofList [("twice", .closure 0 1 ["f"]
        (.list 1 [.symbol 2 "f", .list 3 [.symbol 4 "f", .symbol 5 "seed"]]))], none⟩,
      ⟨.ofList [("seed", .list 6 [.atom (.form .lambda), .bool true])], some 0⟩]⟩, 30, ()⟩
    let wrap : Value := .list 10 [.atom (.form .lambda), .list 11 [.symbol 12 "x"],
      .list 13 [.atom (.builtin .cons), .symbol 14 "x", .symbol 15 "x"]]
    let expr : Value := .list 16 [.atom (.form .letForm),
      .list 17 [.list 18 [.symbol 19 "wrap", wrap]],
      .list 20 [.atom (.form .begin),
        .list 21 [.atom (.form .apply), .symbol 22 "twice",
          .list 23 [.atom (.builtin .list), .symbol 24 "wrap"]],
        .symbol 25 "missing"]]
    let run := eval .empty 20 expr 0 m
    (∃ m', run = .error (.failed (.unknownSymbol "missing")) m' ∧ m'.store.size = 6) ∧
      (machineAfter run).store.frame? 0 = m.store.frame? 0 ∧
      (machineAfter run).store.frame? 1 = m.store.frame? 1 := by
  intro m wrap expr run
  have hroots : ∀ i ∈ 0 :: expr.frames, i < m.store.size := by decide
  have hstore : m.store.IsPure (0 :: expr.frames) :=
    fun i _ => Store.forall_entries (P := Value.IsPure) (by decide) i
  have hframes : ∀ i < m.store.size, (machineAfter run).store.frame? i = m.store.frame? i :=
    fun i hi => eval_keeps_frames .empty 20 (by decide) hroots (by decide) hstore hi
  exact ⟨⟨_, rfl, rfl⟩, hframes 0 (by decide), hframes 1 (by decide)⟩

end FrameLisp
