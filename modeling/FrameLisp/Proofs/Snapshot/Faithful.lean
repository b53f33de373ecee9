import FrameLisp.Proofs.Eval.Scripts
import FrameLisp.Proofs.Snapshot.Reload

/-!
# What an evaluator gets back

An evaluator that starts with an empty frame and without functions of the host can always load what
it has saved. All frames, parents and names come back, but not all values do: saving does not refuse
what its text cannot express. Two things are lost without notice. A closure that is not bound
directly, but sits in a list or in the body of another closure, comes back as the form that makes
it; and an infinite number, or one that is not a number, comes back as a symbol. Nothing else is
lost.

## Main definitions

* `Value.IsFinite` — free of numbers that no literal can write
* `Value.Faithful` — what comes back as it was

## Main results

* `Value.related_instance_iff` — which values are the data that their texts stand for
* `Evaluator.load_save_faithful` — exactly the faithful values are given back
* `Evaluator.load_save_unfaithful` — an infinite number and a closure in a list
-/

namespace FrameLisp

namespace Value

/-- Free of numbers that no literal can write. -/
def IsFinite (v : Value) : Prop := ∀ x, .number x ∈ v.parts → Binary.isFinite x

/-- What comes back as it was: a closure whose body is plain and finite, or a plain and finite
value. -/
def Faithful : Value → Prop
  | .closure _ _ _ body => body.IsPlain ∧ body.IsFinite
  | v => v.IsPlain ∧ v.IsFinite

variable {c : Correspondence} {v w : Value}

/-! ### Plain values -/

/-- The parts of corresponding values are of the same kinds, in the same order. -/
theorem Related.map_kind_parts (h : Related c v w) : v.parts.map kind = w.parts.map kind := by
  rw [← List.forall₂_eq_eq_eq, List.forall₂_map_left_iff, List.forall₂_map_right_iff]
  induction h with
  | list _ hlength _ ih =>
    rw [parts, parts, partsOf_eq_flatMap, partsOf_eq_flatMap]
    exact .cons rfl (List.rel_flatMap (List.forall₂_iff_zip.mpr ⟨hlength, fun h => ih _ h⟩)
      fun _ _ hparts => hparts)
  | closure _ _ _ _ ih => exact .cons rfl ih
  | _ => exact .cons rfl .nil

theorem Related.isPlain (h : Related c v w) (hw : w.IsPlain) : v.IsPlain := by
  intro p hp
  have hkind : p.kind ∈ w.parts.map kind := h.map_kind_parts ▸ List.mem_map_of_mem hp
  obtain ⟨q, hq, hkind⟩ := List.mem_map.mp hkind
  exact hkind ▸ hw q hq

end Value

/-! ### Values that texts can say -/

namespace Vocabulary

variable {n k : ℕ} {v : Value}

theorem Allows.of_mem {d : Vocabulary} {id : Identity} {items : List Value}
    (h : d.Allows k (.list id items)) (hv : v ∈ items) : d.Allows k v :=
  fun p hp => h p (Value.mem_parts_list.mpr (.inr ⟨v, hv, hp⟩))

theorem Allows.of_body {d : Vocabulary} {id : Identity} {frame : FrameId} {params : List String}
    {body : Value} (h : d.Allows k (.closure id frame params body)) : d.Allows k body :=
  fun p hp => h p (Value.mem_parts_closure.mpr (.inr hp))

theorem Allows.isHostless (h : (scripted n).Allows k v) : v.IsHostless := by
  intro p hp
  have hadmits := h p hp
  cases p with
  | external => exact hadmits.elim
  | _ => simp [Value.kind]

/-- What texts can say is written in words. -/
theorem Allows.worded_toDatum (h : (scripted n).Allows k v) : v.toDatum.Worded := by
  induction v using Value.induction with
  | atom p => exact .atom p
  | symbol id name => exact .symbol (readsBack_iff.mp (h _ (Value.mem_parts_self _))).1
  | number x => exact .number x
  | bool b => exact .bool b
  | list id items ih =>
    rw [Value.toDatum, Value.toData_eq_map]
    refine .list fun d hd => ?_
    obtain ⟨v, hv, rfl⟩ := List.mem_map.mp hd
    exact ih v hv (h.of_mem hv)
  | closure id frame params body ih =>
    have hparams := (h _ (Value.mem_parts_self _)).2
    exact Snapshot.worded_lambda (fun p hp => (readsBack_iff.mp (hparams p hp)).1) (ih h.of_body)
  | external ref => exact .symbol (by decide)

theorem Allows.worded (h : (scripted n).Allows k v) : v.Worded := by
  cases v with
  | closure => exact h.of_body.worded_toDatum
  | _ => exact h.worded_toDatum

/-- Of plain values that texts can say, the finite ones are readable. -/
theorem Allows.readable_iff (h : (scripted n).Allows k v) (hplain : v.IsPlain) :
    v.toDatum.Readable ↔ v.IsFinite := by
  induction v using Value.induction with
  | atom p => exact ⟨fun _ x hx => by simp [Value.parts] at hx, fun _ => .atom p⟩
  | symbol id name =>
    have hname : ReadsBack name := h _ (Value.mem_parts_self _)
    exact ⟨fun _ x hx => by simp [Value.parts] at hx, fun _ => .symbol hname⟩
  | number x =>
    constructor
    · rintro (_ | _ | hx) y hy
      obtain rfl : y = x := by simpa [Value.parts] using hy
      exact hx
    · exact fun hfinite => .number (hfinite x (Value.mem_parts_self _))
  | bool b => exact ⟨fun _ x hx => by simp [Value.parts] at hx, fun _ => .bool b⟩
  | list id items ih =>
    rw [Value.toDatum, Value.toData_eq_map]
    constructor
    · rintro (_ | _ | _ | _ | hitems) x hx
      obtain ⟨v, hv, hpart⟩ := (Value.mem_parts_list.mp hx).resolve_left (by simp)
      have hreadable := hitems _ (List.mem_map_of_mem hv)
      exact (ih v hv (h.of_mem hv) (hplain.of_mem hv)).mp hreadable x hpart
    · intro hfinite
      refine .list fun d hd => ?_
      obtain ⟨v, hv, rfl⟩ := List.mem_map.mp hd
      refine (ih v hv (h.of_mem hv) (hplain.of_mem hv)).mpr fun x hx => ?_
      exact hfinite x (Value.mem_parts_list.mpr (.inr ⟨v, hv, hx⟩))
  | closure => exact absurd rfl (hplain _ (Value.mem_parts_self _)).1
  | external => exact absurd rfl (hplain _ (Value.mem_parts_self _)).2

end Vocabulary

namespace Value

variable {n k : ℕ} {v : Value}

/-- **A value has the shape of what its text stands for** exactly if it is plain and finite. -/
theorem related_instance_iff (h : (Vocabulary.scripted n).Allows k v)
    (F : FrameId → FrameId → Prop) (m : ℕ) :
    Related (.ofFrames F) v (instantiate v.toDatum.reread m).1 ↔ v.IsPlain ∧ v.IsFinite := by
  constructor
  · intro hrel
    have hplain : v.IsPlain := hrel.isPlain (isPlain_instantiate _ m)
    have hdatum : v.toDatum = v.toDatum.reread :=
      hrel.toDatum_eq.trans (toDatum_instantiate _ m)
    exact ⟨hplain, (h.readable_iff hplain).mp
      (h.worded_toDatum.reread_eq_self_iff.mp hdatum.symm)⟩
  · rintro ⟨hplain, hfinite⟩
    rw [((h.readable_iff hplain).mpr hfinite).reread]
    exact related_instantiate F hplain m

/-- **Exactly the faithful values are restored.** -/
theorem related_restored_iff (h : (Vocabulary.scripted n).Allows k v) {order : List FrameId}
    {target next : FrameId} (hframes : ∀ i ∈ v.frames, i ∈ order) (m : ℕ) :
    Related (.ofFrames (Store.Placed order target next)) v (v.restored order target next m) ↔
      v.Faithful := by
  cases v with
  | closure id frame params body =>
    rw [Faithful, ← related_instance_iff h.of_body (Store.Placed order target next) m]
    constructor
    · rintro (_ | _ | _ | _ | _ | ⟨-, -, -, hbody⟩)
      exact hbody
    · exact fun hbody => .closure trivial ⟨hframes frame List.mem_cons_self, rfl⟩
        (fun _ _ => trivial) hbody
  | external ref => exact (h _ (mem_parts_self _)).elim
  | _ => exact related_instance_iff h _ m

end Value

/-! ### The main result -/

namespace Evaluator

variable {σ τ : Type}

/-- **Exactly the faithful values are given back.** Let an evaluator start with an empty frame,
execute any texts and save its graph. Any evaluator on any machine can load the text, and some
one-to-one correspondence relates the frames that were saved to frames of the loaded graph, the root
to the root. Corresponding frames have corresponding parents and bind the same names. A value is
given back, with the same parts and with corresponding frames, if and only if it is faithful: a
closure whose body is plain and finite, or itself plain and finite. The graph is bounded by the
numbers in which positions are written. -/
theorem load_save_faithful (host : Host σ) (depth : ℕ) {trace : Bool} {e : Evaluator}
    {m₀ m m' : Machine σ} {texts : List String} {text : String} (hs : m₀.store.Linked)
    (hnew : Evaluator.new trace m₀ = .ok e m)
    (hsave : e.save (machineAfterTexts host depth e.root texts m) = .ok text m')
    (hsize : (m'.store.reachable e.root).length ≤ 2 ^ 53) (e₁ : Evaluator) (m₁ : Machine τ) :
    ∃ e₂ m₂ F, e₁.load text m₁ = .ok e₂ m₂ ∧ F e.root e₂.root ∧ Relator.BiUnique F ∧
      (∀ i ∈ m'.store.reachable e.root, ∃ j, F i j) ∧
      ∀ i j, F i j → Option.Rel F (m'.store.outer i) (m₂.store.outer j) ∧
        (m'.store.bindings i).Related
          (fun v w => Value.Related (.ofFrames F) v w ↔ v.Faithful) (m₂.store.bindings j) := by
  obtain ⟨hsave, rfl⟩ := save_eq_ok hsave
  obtain ⟨hroot, hgoverns⟩ := governs_scripted hnew host depth texts
  have hlinked := linked_machineAfterTexts hs hnew host depth texts
  generalize (machineAfterTexts host depth e.root texts m).store = s at *
  -- whatever can be reached from the root binds only what texts can say
  have hallows : ∀ i ∈ s.reachable e.root, ∀ b ∈ (s.bindings i).entries,
      (Vocabulary.scripted e.root).Allows s.size b.2 := by
    intro i hi
    have hreaches := (Store.mem_reachable_iff hlinked hroot).mp hi
    exact (hgoverns i (hgoverns.frame_of_reaches (le_refl e.root) hreaches)).1
  obtain ⟨m₂, hload, hstore⟩ := Store.exists_load_of_worded hlinked hroot hsize
    (fun i hi b hb => (hallows i hi b hb).worded) hsave m₁
  have htarget := Store.lt_size_push m₁.store ⟨∅, none⟩
  refine ⟨{ e₁ with root := m₁.store.size }, m₂, _, load_of_load hload e₁,
    Store.placed_root hroot _ _, Store.biUnique_placed htarget, fun i hi => ⟨_, hi, rfl⟩, ?_⟩
  rintro i j ⟨hi, rfl⟩
  rw [hstore]
  refine ⟨Store.rel_outer_restore_capture hlinked htarget hi m₁.supply, ?_⟩
  have hbindings := Store.related_restore_capture htarget hi m₁.supply
  rw [Store.bindings_withoutExternals_of_hostless
    fun b hb => (hallows i hi b hb).isHostless] at hbindings
  refine ((List.forall₂_and_left _ _).mpr ⟨fun b hb => hb, hbindings⟩).imp ?_
  rintro ⟨name, v⟩ ⟨name', w⟩ ⟨hb, rfl, n, rfl⟩
  exact ⟨rfl, Value.related_restored_iff (hallows i hi _ hb) (fun j hj =>
    Store.mem_reachable_of_link hlinked hi (Store.mem_links_of_binding hb hj)) n⟩

/-- A function, and a call of it that fails: the function is given back. -/
theorem load_save_faithful_function :
    let m : Machine Unit := ⟨⟨#[⟨∅, none⟩]⟩, 0, ()⟩
    let m' := machineAfterTexts .empty 9 0 ["(define f (lambda (n) n))", "(f)"] m
    let text := "(!ENVCOUNT! 1\n(!SETENV! 0 -1\n(!FUNCENV! 0\n(define f (lambda (n) n))\n)\n)\n)"
    Evaluator.new false ⟨.empty, 0, ()⟩ = .ok ⟨0, false⟩ m ∧
    Evaluator.save ⟨0, false⟩ m' = .ok text m' ∧
    ∃ e₂ m₂, ∃ F : FrameId → FrameId → Prop, ∃ v w,
      Evaluator.load ⟨0, false⟩ text m' = .ok e₂ m₂ ∧ F 0 e₂.root ∧ v.kind = .closure ∧
      (m'.store.bindings 0).get? "f" = some v ∧ (m₂.store.bindings e₂.root).get? "f" = some w ∧
      Value.Related (.ofFrames F) v w := by
  intro m m' text
  let function : Value := .closure 6 0 ["n"] (.symbol 5 "n")
  have hdefine : (Reading.ofText "(define f (lambda (n) n))").toExcept = .ok (.list
      [.atom (.form .define), .symbol "f", .lambda ["n"] (.symbol "n")]) := by
    have hreadable : Datum.Readable (.list [.atom (.form .define), .symbol "f",
        .lambda ["n"] (.symbol "n")]) := by decide
    exact hreadable.toExcept_text
  have hcall : (Reading.ofText "(f)").toExcept = .ok (.list [.symbol "f"]) := by
    have hreadable : Datum.Readable (.list [.symbol "f"]) := by decide
    exact hreadable.toExcept_text
  have hafter : m' = ⟨⟨#[⟨.ofList [("f", function)], none⟩]⟩, 9, ()⟩ := by
    simp only [m', machineAfterTexts, machineAfter_execute hdefine, machineAfter_execute hcall]
    rfl
  have hreach : m'.store.reachable 0 = [0] :=
    Store.reachable_of_size_eq_one (by rw [hafter]; rfl)
  have hsave : Evaluator.save ⟨0, false⟩ m' = .ok text m' := by
    have hnames : Snapshot.unreadableName? ⟨[0].map (m'.store.captureBlock [0])⟩ = none := by
      rw [hafter]
      decide
    refine save_of_store_save ?_
    rw [Store.save, Store.capture, hreach, hnames, hafter]
    exact congrArg Except.ok (by decide +kernel)
  have hnew : Evaluator.new false (⟨.empty, 0, ()⟩ : Machine Unit) = .ok ⟨0, false⟩ m := rfl
  have hsize : (m'.store.reachable 0).length ≤ 2 ^ 53 := by
    rw [hreach]
    decide
  obtain ⟨e₂, m₂, F, hload, hF, -, -, hframes⟩ :=
    load_save_faithful .empty 9 (by decide) hnew hsave hsize ⟨0, false⟩ m'
  have hget : (m'.store.bindings 0).get? "f" = some function := by
    rw [hafter]
    rfl
  have hrel := (hframes 0 e₂.root hF).2.get? "f"
  rw [hget] at hrel
  generalize hw : (m₂.store.bindings e₂.root).get? "f" = o at hrel
  cases hrel with
  | some hiff =>
    have hfaithful : function.Faithful := ⟨by decide, fun x hx => by simp [Value.parts] at hx⟩
    exact ⟨hnew, hsave, e₂, m₂, F, function, _, hload, hF, rfl, hget, hw, hiff.mpr hfaithful⟩

/-- A list of an infinite number and a closure is saved, and loading gives a list of a symbol and of
the form that makes the closure. -/
theorem load_save_unfaithful :
    let m : Machine Unit := ⟨⟨#[⟨∅, none⟩]⟩, 0, ()⟩
    let m' := machineAfterTexts .empty 9 0 ["(define xs (list 1e999 (lambda (n) n)))"] m
    let text := "(!ENVCOUNT! 1\n(!SETENV! 0 -1\n(define xs (inf (lambda (n) n)))\n)\n)"
    Evaluator.new false ⟨.empty, 0, ()⟩ = .ok ⟨0, false⟩ m ∧
    Evaluator.save ⟨0, false⟩ m' = .ok text m' ∧
    (m'.store.lookup 0 "xs").map Value.inspect = some "[Number(inf), Closure(lambda (n) n)]" ∧
    ∃ m₂, Evaluator.load ⟨0, false⟩ text m' = .ok ⟨1, false⟩ m₂ ∧
      (m₂.store.lookup 1 "xs").map Value.inspect =
        some "[Symbol(inf), [Atom(lambda), [Symbol(n)], Symbol(n)]]" := by
  intro m m' text
  let infinite : Float := Binary.toFloat false Binary.infinity
  let identity : Datum := .lambda ["n"] (.symbol "n")
  have hidentity : identity.Readable := by decide
  have hread : (Reading.ofText "(define xs (list 1e999 (lambda (n) n)))").toExcept =
      .ok (.list [.atom (.form .define), .symbol "xs",
        .list [.atom (.builtin .list), .number infinite, identity]]) := by
    -- the literal is a word like any other, and stands for a number that is too large
    have hworded : Datum.Worded (.list [.atom (.form .define), .symbol "xs",
        .list [.atom (.builtin .list), .symbol "1e999", identity]]) := by decide
    have hliteral : Datum.ofWord "1e999" = .number infinite := by
      have hchars : Literal.ofChars? "1e999".toList = some ⟨false, ⟨1, 999⟩⟩ := by decide
      rw [Datum.ofWord_of_ofChars? hchars]
      exact congrArg Datum.number (by decide +kernel)
    have hname : Datum.ofWord "xs" = .symbol "xs" := Datum.ofWord_of_isReadable (by decide)
    have htoExcept := hworded.toExcept_text
    simp only [Datum.reread_list, List.map_cons, List.map_nil, hidentity.reread,
      (Datum.Readable.atom _).reread, Datum.reread_leaf (d := .symbol _) (by simp), Datum.text,
      hname, hliteral] at htoExcept
    exact htoExcept
  let after : Machine Unit := ⟨⟨#[⟨.ofList [("xs", .list 8 [.number infinite,
    .closure 7 0 ["n"] (.symbol 6 "n")])], none⟩]⟩, 9, ()⟩
  have hafter : m' = after := by
    simp only [m', machineAfterTexts, machineAfter_execute hread]
    rfl
  have hsave : after.store.save 0 = .ok text := by
    have hnames : Snapshot.unreadableName? ⟨[0].map (after.store.captureBlock [0])⟩ = none := by
      decide
    rw [Store.save, Store.capture, Store.reachable_of_size_eq_one rfl, hnames]
    exact congrArg Except.ok (by decide +kernel)
  -- the text is also that of a description without closures and numbers
  let copy : Snapshot := ⟨[⟨none, [.data "xs" (.list [.symbol "inf", identity])]⟩]⟩
  have hcopy : Snapshot.ofText text = .ok copy := by
    have hvalue : Datum.Readable (.list [.symbol "inf", identity]) := by decide
    have hwellFormed : copy.WellFormed := by
      refine ⟨by simp [copy], by decide, List.forall_mem_singleton.mpr ⟨by simp, ?_⟩⟩
      exact List.forall_mem_singleton.mpr ⟨by decide, hvalue.worded⟩
    have hreread : copy.reread = copy := by
      simp only [copy, Snapshot.reread, Snapshot.Block.reread, Snapshot.Entry.reread,
        List.map_cons, List.map_nil, hvalue.reread]
    have htext : copy.text = text := by decide +kernel
    rw [← htext, hwellFormed.ofText_text, hreread]
  rw [hafter]
  let loaded : Store × ℕ := (after.store.push ⟨∅, none⟩).restore 1 copy 9
  have hload : EvalM.load text after = .ok 1 ⟨loaded.1, loaded.2, ()⟩ := by
    rw [EvalM.load, hcopy]
    rfl
  exact ⟨rfl, save_of_store_save hsave, by decide +kernel, _, load_of_load hload _,
    by decide +kernel⟩

end Evaluator

end FrameLisp
