import FrameLisp.Proofs.Eval.Similarity
import FrameLisp.Proofs.Snapshot.RoundTrip

/-!
# Reloading is unobservable

An evaluator that loads what another one saved answers as the other one does, whatever texts are
put to both. Loading gives a similar graph, and evaluation respects similarity.

Loading does not keep identities: two bindings of one list become two lists. Only the test for the
same object can tell. Values in which it occurs are excluded, and so are texts. External functions
are not saved, so there must be none.

## Main definitions

* `Value.Reloadable` — what may be bound in a graph that is to be replaced by a copy

## Main results

* `Evaluator.replies_load_save` — a reloaded evaluator answers as the saved one
-/

namespace FrameLisp

/-- What may be bound in a graph that is to be replaced by a copy: it can be given back, no external
function occurs in it, and no test for the same object. -/
def Value.Reloadable (v : Value) : Prop :=
  v.Restorable ∧ v.IsHostless ∧ .atom (.builtin .identical) ∉ v.parts

namespace Store

variable {s t : Store} {root root' : FrameId}

/-- Without external functions, a store loses nothing of the frames below a root. -/
theorem bindings_withoutExternals_of_hostless {i : FrameId}
    (h : ∀ e ∈ (s.bindings i).entries, e.2.IsHostless) :
    s.withoutExternals.bindings i = s.bindings i := by
  rw [bindings_withoutExternals]
  refine Bindings.ext (List.filter_eq_self.mpr fun e he => decide_eq_true ?_)
  exact h e he _ (Value.mem_parts_self _)

/-- The graph below a root is similar to its copy in a way that evaluation respects. -/
theorem exists_similar_of_reloadable {F : FrameId → FrameId → Prop} (hs : s.Linked)
    (hroot : root < s.size)
    (hvalues : ∀ i ∈ s.reachable root, ∀ e ∈ (s.bindings i).entries, e.2.Reloadable)
    (hF : F root root') (h : Similar (.ofFrames F) s.withoutExternals t) :
    ∃ w : World, w.1 root root' ∧
      Similar (.ofWorld (· ≠ .builtin .identical) w) s t := by
  refine ⟨(fun i j => F i j ∧ i ∈ s.reachable root, fun _ _ => True),
    ⟨hF, mem_reachable_self hroot⟩, ?_⟩
  have hbindings : ∀ i ∈ s.reachable root,
      s.withoutExternals.bindings i = s.bindings i := fun i hi =>
    bindings_withoutExternals_of_hostless fun e he => (hvalues i hi e he).2.1
  refine Similar.congr_left (s := s.withoutExternals) ?_ (size_withoutExternals s).le
    fun hij => ⟨(hbindings _ hij.2).symm, (outer_withoutExternals s _).symm⟩
  refine h.restrict (fun _ _ => Iff.rfl) (fun _ _ _ => trivial) (fun _ _ => trivial)
    (fun i hi j hj => ?_) fun i hi e he => ?_
  · rw [links_withoutExternals] at hj
    exact mem_reachable_of_link hs hi hj
  · rw [hbindings i hi] at he
    obtain ⟨-, hhostless, hidentical⟩ := hvalues i hi e he
    exact ⟨hhostless, fun p hp h => hidentical (h ▸ hp)⟩

end Store

namespace Evaluator

variable {σ τ : Type}

theorem save_eq_ok {e : Evaluator} {m m' : Machine σ} {text : String}
    (h : e.save m = .ok text m') : m.store.save e.root = .ok text ∧ m' = m := by
  change (EvalM.ofExcept (m.store.save e.root) : EvalM σ String) m = _ at h
  cases hsave : m.store.save e.root with
  | ok text' =>
    rw [hsave] at h
    cases h
    exact ⟨rfl, rfl⟩
  | error error =>
    rw [hsave] at h
    cases h

theorem save_of_store_save {e : Evaluator} {m : Machine σ} {text : String}
    (h : m.store.save e.root = .ok text) : e.save m = .ok text m := by
  change (EvalM.ofExcept (m.store.save e.root) : EvalM σ String) m = _
  rw [h]
  rfl

theorem load_of_load {text : String} {m m' : Machine σ} {root : FrameId}
    (h : EvalM.load text m = .ok root m') (e : Evaluator) :
    e.load text m = .ok { e with root } m' := by
  change EStateM.bind (EvalM.load text) _ m = _
  rw [EStateM.bind, h]
  rfl

/-- **Reloading is unobservable.** Let an evaluator save its graph, in which every value is
reloadable. Any evaluator on any machine can load the text; after that, both evaluators give the
same answers to any sequence of texts in which the test for the same object does not occur. The two
hosts do not matter, and neither does how deep evaluations may be nested. The graph is bounded by
the numbers in which positions are written. -/
theorem replies_load_save (host : Host σ) (host' : Host τ) {e : Evaluator} {m m' : Machine σ}
    {text : String} (hs : m.store.Linked) (hroot : e.root < m.store.size)
    (hsize : (m.store.reachable e.root).length ≤ 2 ^ 53)
    (hvalues : ∀ i ∈ m.store.reachable e.root, ∀ b ∈ (m.store.bindings i).entries, b.2.Reloadable)
    (hsave : e.save m = .ok text m') (e₁ : Evaluator) (m₁ : Machine τ) :
    ∃ e₂ m₂, e₁.load text m₁ = .ok e₂ m₂ ∧ ∀ (depth : ℕ) (texts : List String),
      (∀ t ∈ texts, ∀ d, (Reading.ofText t).toExcept = .ok d →
        .atom (.builtin .identical) ∉ d.parts) →
      (replies host depth (texts.map (e.root, ·)) m').map Prod.snd =
        (replies host' depth (texts.map (e₂.root, ·)) m₂).map Prod.snd := by
  obtain ⟨hsave, rfl⟩ := save_eq_ok hsave
  obtain ⟨root', m₂, F, hload, hF, hcopy⟩ := Store.exists_load_of_save hs hroot hsize
    (fun i hi b hb => (hvalues i hi b hb).1) hsave m₁
  obtain ⟨w, hw, hsimilar⟩ := Store.exists_similar_of_reloadable hs hroot hvalues hF hcopy
  refine ⟨{ e₁ with root := root' }, m₂, ?_, fun depth texts htexts => ?_⟩
  · change EStateM.bind (EvalM.load text) _ m₁ = _
    rw [EStateM.bind, hload]
    rfl
  · -- only the test for the same object is forbidden, so lambda, begin and define are not
    have L : Lockstep (.similarity σ τ (· ≠ .builtin .identical)) host host' :=
      .similarity host host' (by decide) (by decide) fun _ => by decide
    refine L.replies_eq depth hw (fun t ht d hd p hp => ?_) ⟨hsimilar, fun h => absurd rfl h⟩
    cases p with
    | atom q =>
      rintro rfl
      exact htexts t ht d hd hp
    | symbol name => trivial
    | number x => trivial
    | bool b => trivial
    | list items => trivial

/-- A switch: a function in the root changes a binding of the frame that it captures, and that frame
captures itself. A copy of the switch answers as the switch does. -/
theorem replies_load_save_switch :
    let m : Machine Unit := ⟨⟨#[
      ⟨.ofList [("flip", .closure 0 1 [] (.list 1 [.atom (.form .set), .symbol 2 "on",
        .list 3 [.atom (.builtin .not), .symbol 4 "on"]]))], none⟩,
      ⟨.ofList [("on", .bool true), ("self", .closure 5 1 [] (.symbol 6 "on"))], some 0⟩]⟩, 7, ()⟩
    let text := "(!ENVCOUNT! 2\n(!SETENV! 0 -1\n(!FUNCENV! 1\n" ++
      "(define flip (lambda () (set! on (not on))))\n)\n)\n(!SETENV! 1 0\n(define on #t)\n" ++
      "(!FUNCENV! 1\n(define self (lambda () on))\n)\n)\n)"
    Evaluator.save ⟨0, false⟩ m = .ok text m ∧ ∃ e₂ m₂,
      Evaluator.load ⟨0, false⟩ text m = .ok e₂ m₂ ∧ ∀ (depth : ℕ) (texts : List String),
        (∀ t ∈ texts, ∀ d, (Reading.ofText t).toExcept = .ok d →
          .atom (.builtin .identical) ∉ d.parts) →
        (replies .empty depth (texts.map (0, ·)) m).map Prod.snd =
          (replies .empty depth (texts.map (e₂.root, ·)) m₂).map Prod.snd := by
  intro m text
  have hreach : m.store.reachable 0 = [0, 1] := by
    have h0 : m.store.reachable 0 = 0 :: m.store.discover [1] [1] :=
      Store.discover_of_dropWhile_cons rfl
    have h1 : m.store.discover [1] [1] = 1 :: m.store.discover [] [1, 0] :=
      Store.discover_of_dropWhile_cons rfl
    rw [h0, h1, Store.discover_of_dropWhile_nil rfl]
  have hsave : m.store.save 0 = .ok text := by
    have hnames : Snapshot.unreadableName? ⟨[0, 1].map (m.store.captureBlock [0, 1])⟩ = none := by
      decide
    rw [Store.save, Store.capture, hreach, hnames]
    exact congrArg Except.ok (by decide +kernel)
  have hvalues : ∀ i ∈ m.store.reachable 0, ∀ b ∈ (m.store.bindings i).entries,
      b.2.Reloadable := by
    intro i hi
    rw [hreach] at hi
    have hon : Datum.Readable (.symbol "on") := .symbol (readsBack_of_isReadable (by decide))
    have hnot : Datum.Readable (.list [.atom (.builtin .not), .symbol "on"]) :=
      .list (List.forall_mem_cons.mpr ⟨.atom _, List.forall_mem_singleton.mpr hon⟩)
    have hset : Datum.Readable (.list [.atom (.form .set), .symbol "on",
        .list [.atom (.builtin .not), .symbol "on"]]) :=
      .list (List.forall_mem_cons.mpr ⟨.atom _, List.forall_mem_cons.mpr
        ⟨hon, List.forall_mem_singleton.mpr hnot⟩⟩)
    rcases List.mem_pair.mp hi with rfl | rfl
    · exact List.forall_mem_singleton.mpr ⟨⟨by decide, hset⟩, by decide,
        by simp [Value.parts, Value.partsOf]⟩
    · exact List.forall_mem_cons.mpr ⟨⟨⟨by decide, .bool _⟩, by decide, by simp [Value.parts]⟩,
        List.forall_mem_singleton.mpr ⟨⟨by decide, hon⟩, by decide, by simp [Value.parts]⟩⟩
  have hok : Evaluator.save ⟨0, false⟩ m = .ok text m := by
    change (EvalM.ofExcept (m.store.save 0) : EvalM Unit String) m = _
    rw [hsave]
    rfl
  refine ⟨hok, replies_load_save .empty .empty (by decide) (by decide) ?_ hvalues hok _ _⟩
  rw [hreach]
  decide

end Evaluator

end FrameLisp
