import FrameLisp.Proofs.Eval.Scripts
import FrameLisp.Proofs.Store.Overlay

/-!
# Unmentioned names do not matter

Evaluation asks for a name only if it has met a symbol or a parameter of that name. No operation
makes up new names: quoted data, computed functions and derived forms are put together from parts
that were there before. So if a name is mentioned nowhere within reach, then evaluation goes on in
the same way whatever the name is bound to. The two runs are kept in step: the second machine is
always the first one under an overlay.

External functions may look at any frame and hand out any name, so there must be none within reach
before. Those that are bound under a name that is not mentioned cannot be called.

## Main definitions

* `Value.mentioned`, `Value.Avoids`, `Store.Avoids` — names that occur, and values without them
* `Discipline.overlaid` — a machine next to the same machine under an overlay
* `Machine.DiffersAt` — machines that are the same but for one binding

## Main results

* `Discipline.Lawful.lockstep_overlaid` — evaluation does not notice an overlay
* `eval_unmentioned` — unmentioned names do not matter
-/

namespace FrameLisp

/-! ### Names that occur -/

namespace Value

/-- The name of a symbol, or the parameters of a function. -/
def ownNames : Value → List String
  | .symbol _ name => [name]
  | .closure _ _ params _ => params
  | .atom _ | .number _ | .bool _ | .list _ _ | .external _ => []

/-- The names that occur in a value: those of its symbols, and the parameters of its functions. -/
def mentioned (v : Value) : List String := v.parts.flatMap ownNames

/-- Free of external functions and of hidden names. -/
def Avoids (hidden : String → Prop) (v : Value) : Prop :=
  v.IsHostless ∧ ∀ name ∈ v.mentioned, ¬ hidden name

instance (hidden : String → Prop) [DecidablePred hidden] (v : Value) :
    Decidable (v.Avoids hidden) :=
  inferInstanceAs (Decidable (v.IsHostless ∧ ∀ name ∈ v.mentioned, ¬ hidden name))

end Value

/-- Neither external functions nor hidden names occur in what is bound where the given frames lead
to. -/
def Store.Avoids (s : Store) (hidden : String → Prop) (roots : List FrameId) : Prop :=
  ∀ i, s.ReachesAny roots i → ∀ e ∈ (s.bindings i).entries, e.2.Avoids hidden

/-- The frames of a region and those from number `n` on, without external functions and without
hidden names. -/
def Vocabulary.avoiding (hidden : String → Prop) (region : FrameId → Prop) (n : ℕ) : Vocabulary :=
  { Vocabulary.inside region n with name := fun x => ¬ hidden x }

section

variable {σ : Type} {hidden : String → Prop} {region : FrameId → Prop}

theorem Vocabulary.allows_avoiding_iff {k n : ℕ} {v : Value} :
    (avoiding hidden region k).Allows n v ↔
      (inside region k).Allows n v ∧ ∀ name ∈ v.mentioned, ¬ hidden name := by
  have hadmits : ∀ p, (avoiding hidden region k).Admits n p ↔
      (inside region k).Admits n p ∧ ∀ name ∈ p.ownNames, ¬ hidden name := by
    intro p
    cases p <;> simp [Admits, avoiding, inside, Value.ownNames]
  simp only [Allows, hadmits, Value.mentioned, List.mem_flatMap, forall_exists_index, and_imp]
  exact ⟨fun h => ⟨fun p hp => (h p hp).1, fun name p hp => (h p hp).2 name⟩,
    fun h p hp => ⟨h.1 p hp, fun name => h.2 name p hp⟩⟩

theorem Value.Avoids.allows {v : Value} (h : v.Avoids hidden) {k n : ℕ}
    (hframes : ∀ i ∈ v.frames, region i ∧ i < n) :
    (Vocabulary.avoiding hidden region k).Allows n v :=
  Vocabulary.allows_avoiding_iff.mpr ⟨Vocabulary.allows_inside_iff.mpr
    ⟨h.1, fun i hi => ⟨.inl (hframes i hi).1, (hframes i hi).2⟩⟩, h.2⟩

/-- Where hidden names do not occur, the vocabulary without them is kept to. -/
theorem Store.Avoids.governs {m : Machine σ} {roots : List FrameId}
    (h : m.store.Avoids hidden roots) (hs : m.store.Linked)
    (hroots : ∀ i ∈ roots, i < m.store.size) :
    (Vocabulary.avoiding hidden (m.store.ReachesAny roots) m.store.size).Governs m.store := by
  have hisland := Store.isIsland_reachesAny hs hroots fun i hi e he => (h i hi e he).1
  exact hisland.governs_of rfl fun i hi e he hinside =>
    Vocabulary.allows_avoiding_iff.mpr ⟨hinside, (h i hi e he).2⟩

end

/-! ### Evaluation under an overlay -/

section

variable {σ : Type}

/-- The same machine with a changed store. -/
def Machine.onStore (change : Store → Store) (m : Machine σ) : Machine σ :=
  { m with store := change m.store }

/-- The same outcome, on a machine with a changed store. -/
def onStoreAfter (change : Store → Store) :
    EStateM.Result Halt (Machine σ) Value → EStateM.Result Halt (Machine σ) Value
  | .ok v m => .ok v (m.onStore change)
  | .error halt m => .error halt (m.onStore change)

theorem machineAfter_onStoreAfter (change : Store → Store)
    (r : EStateM.Result Halt (Machine σ) Value) :
    machineAfter (onStoreAfter change r) = (machineAfter r).onStore change := by
  cases r <;> rfl

namespace Discipline

/-- A machine that fulfils the condition of a discipline, next to the same machine under a change of
the store. -/
def overlaid (d : Discipline σ) (change : Store → Store) : Coupling σ σ ℕ where
  corr := d.correspondence
  scope := d.coupling.scope
  machine n m m' := m' = m.onStore change ∧ m.store.size = n ∧ d.machine m

variable {d : Discipline σ} {host host' : Host σ} {hidden : String → Prop} {n : ℕ}
  {change : Store → Store}

/-- **Evaluation does not notice an overlay** of names that it does not use. Without external
functions, the host does not matter either. -/
theorem Lawful.lockstep_overlaid (h : d.Lawful host) (hchange : Store.IsOverlay hidden n change)
    (hname : ∀ {x}, d.name x → ¬ hidden x) (hsize : ∀ {m}, d.machine m → n ≤ m.store.size)
    (hexternal : ∀ r, ¬ d.external r) : Lockstep (d.overlaid change) host host' where
  corr_mono := h.lockstep.corr_mono
  scope_mono := h.lockstep.scope_mono
  frame_of_scope := h.lockstep.frame_of_scope
  lambda := h.lockstep.lambda
  begin := h.lockstep.begin
  define_of_once := h.lockstep.define_of_once
  unique hm := h.lockstep.unique ⟨rfl, hm.2⟩
  lookup := by
    rintro _ m _ i j x ⟨rfl, hm⟩ hij hx
    rw [Machine.onStore, hchange.lookup _ _ (hname hx)]
    exact h.lockstep.lookup (m := m) ⟨rfl, hm⟩ hij hx
  define := by
    rintro _ m _ i j x v v' hatom ⟨rfl, hm⟩ hij hx hv
    obtain ⟨heq, hm'⟩ := h.lockstep.define hatom ⟨rfl, hm⟩ hij hx hv
    refine ⟨?_, hm'⟩
    rw [heq]
    simp only [Machine.onStore, hchange.define _ _ _ (hname hx)]
  assign := by
    rintro _ m _ i j x v v' hatom ⟨rfl, hm⟩ hij hx hv
    obtain ⟨hfound, heq, hm'⟩ := h.lockstep.assign hatom ⟨rfl, hm⟩ hij hx hv
    simp only [Machine.onStore, hchange.assign _ _ (hname hx)]
    refine ⟨hfound, ?_, hm'⟩
    rw [heq]
    rfl
  extend := by
    rintro _ m _ i j params args args' ⟨rfl, hm⟩ hij hparams hargs
    obtain ⟨w, hw, hscope, heq, hm'⟩ := h.lockstep.extend ⟨rfl, hm⟩ hij hparams hargs
    refine ⟨w, hw, (hchange.size _).symm ▸ hscope, ?_, hm'⟩
    rw [heq]
    simp only [Machine.onStore, Store.extend, hchange.push _ _ (hsize hm.2)]
  advance := by
    rintro _ m _ ⟨rfl, hm⟩ k
    obtain ⟨w, hw, hids, -, hm'⟩ := h.lockstep.advance ⟨rfl, hm⟩ k
    exact ⟨w, hw, hids, rfl, hm'⟩
  call hr := absurd hr.2 (hexternal _)

/-- Outcomes that agree are the same but for the overlay, and no frame is lost. -/
theorem eq_of_agree_overlaid {w : ℕ} {r r' : EStateM.Result Halt (Machine σ) Value}
    (h : (d.overlaid change).Agree w (d.overlaid change).Values r r') :
    r' = onStoreAfter change r ∧ w ≤ (machineAfter r).store.size := by
  cases h with
  | ok hw hm hv =>
    obtain rfl := Vocabulary.eq_of_related hv
    obtain ⟨rfl, rfl, -⟩ := hm
    exact ⟨rfl, hw⟩
  | error hw hm =>
    obtain ⟨rfl, rfl, -⟩ := hm
    exact ⟨rfl, hw⟩

end Discipline

variable {host host' : Host σ} {hidden : String → Prop} {n : ℕ} {change : Store → Store}
  {m : Machine σ} {env : FrameId} {roots : List FrameId}

/-- Evaluation without hidden names, from frames that lead to none. -/
def Discipline.avoiding (hidden : String → Prop) (m : Machine σ) (roots : List FrameId) :
    Discipline σ :=
  .keeping (.avoiding hidden (m.store.ReachesAny roots) m.store.size) m.store.size

theorem Discipline.lockstep_avoiding (hchange : Store.IsOverlay hidden n change)
    (hn : n ≤ m.store.size) (roots : List FrameId) :
    Lockstep ((Discipline.avoiding hidden m roots).overlaid change) host host' :=
  Lawful.lockstep_overlaid (lawful_keeping (fun _ hi => .inr hi) (fun _ => trivial) fun _ hr => hr)
    hchange (fun hx => hx) (fun hm => hn.trans hm.2) fun _ hr => hr

/-- The machine and itself under the overlay are in step at the start. -/
theorem Store.Avoids.machine_overlaid (h : m.store.Avoids hidden roots) (hs : m.store.Linked)
    (hroots : ∀ i ∈ roots, i < m.store.size) :
    ((Discipline.avoiding hidden m roots).overlaid change).machine m.store.size m
      (m.onStore change) :=
  ⟨rfl, rfl, h.governs hs hroots, le_rfl⟩

/-- **Evaluation under an overlay:** the same outcome, under the same overlay. -/
theorem eval_overlaid (hchange : Store.IsOverlay hidden n change) (hn : n ≤ m.store.size)
    (hs : m.store.Linked) {expr : Value} (hroots : ∀ i ∈ env :: expr.frames, i < m.store.size)
    (hexpr : expr.Avoids hidden) (h : m.store.Avoids hidden (env :: expr.frames))
    (host host' : Host σ) (depth : ℕ) :
    eval host' depth expr env (m.onStore change) =
        onStoreAfter change (eval host depth expr env m) ∧
      m.store.size ≤ (machineAfter (eval host depth expr env m)).store.size := by
  have hreach : ∀ i ∈ env :: expr.frames, m.store.ReachesAny (env :: expr.frames) i :=
    fun i hi => ⟨i, hi, .refl⟩
  have hallows : (Discipline.avoiding hidden m (env :: expr.frames)).Allows m.store.size expr :=
    hexpr.allows fun i hi =>
      ⟨hreach i (List.mem_cons_of_mem env hi), hroots i (List.mem_cons_of_mem env hi)⟩
  have L : Lockstep ((Discipline.avoiding hidden m (env :: expr.frames)).overlaid change)
      host host' := Discipline.lockstep_avoiding hchange hn _
  exact Discipline.eq_of_agree_overlaid (L.eval depth
    (Vocabulary.related_self_iff_allows.mpr hallows)
    ⟨rfl, .inl (hreach env List.mem_cons_self), hroots env List.mem_cons_self⟩ _ _
    (h.machine_overlaid hs hroots))

/-- **Scripts under an overlay:** the same answers, and the same machine under the overlay. -/
theorem script_overlaid (hchange : Store.IsOverlay hidden n change) (hn : n ≤ m.store.size)
    (hs : m.store.Linked) (henv : env < m.store.size) (h : m.store.Avoids hidden [env])
    {texts : List String} (htexts : ∀ text ∈ texts, ∀ d, (Reading.ofText text).toExcept = .ok d →
      ∀ name, hidden name → .symbol name ∉ d.parts) (host host' : Host σ) (depth : ℕ) :
    (replies host' depth (texts.map (env, ·)) (m.onStore change)).map Prod.snd =
        (replies host depth (texts.map (env, ·)) m).map Prod.snd ∧
      machineAfterTexts host' depth env texts (m.onStore change) =
        (machineAfterTexts host depth env texts m).onStore change := by
  have L : Lockstep ((Discipline.avoiding hidden m [env]).overlaid change) host host' :=
    Discipline.lockstep_avoiding hchange hn _
  have hm : ((Discipline.avoiding hidden m [env]).overlaid change).machine m.store.size m
      (m.onStore change) := h.machine_overlaid hs (List.forall_mem_singleton.mpr henv)
  have henv' : ((Discipline.avoiding hidden m [env]).overlaid change).scope m.store.size env env :=
    ⟨rfl, .inl ⟨env, List.mem_cons_self, .refl⟩, henv⟩
  have hadmits : ∀ text ∈ texts, ∀ d, (Reading.ofText text).toExcept = .ok d → ∀ p ∈ d.parts,
      (((Discipline.avoiding hidden m [env]).overlaid change).corr m.store.size).AdmitsDatum p := by
    intro text ht d hd p hp
    cases p with
    | symbol name => exact fun hhidden => htexts text ht d hd name hhidden hp
    | _ => trivial
  refine ⟨(L.replies_eq depth henv' hadmits hm).symm, ?_⟩
  obtain ⟨_, -, hafter, -⟩ := L.machineAfterTexts depth henv' hadmits hm
  exact hafter

/-! ### One binding -/

/-- The value or the halt with which a computation ends. -/
def verdict : EStateM.Result Halt (Machine σ) Value → Except Halt Value
  | .ok v _ => .ok v
  | .error halt _ => .error halt

theorem verdict_onStoreAfter (change : Store → Store)
    (r : EStateM.Result Halt (Machine σ) Value) :
    verdict (onStoreAfter change r) = verdict r := by
  cases r <;> rfl

/-- Two machines are the same apart from one binding, which the second one has: the frame `f` binds
the name to `v`. -/
structure Machine.SameBut (f : FrameId) (name : String) (v : Value) (m m' : Machine σ) : Prop where
  supply : m'.supply = m.supply
  desk : m'.desk = m.desk
  size : m'.store.size = m.store.size
  frame? : ∀ i ≠ f, m'.store.frame? i = m.store.frame? i
  outer : m'.store.outer f = m.store.outer f
  get? : ∀ x ≠ name, (m'.store.bindings f).get? x = (m.store.bindings f).get? x
  binding : (m'.store.bindings f).get? name = some v

theorem Machine.sameBut_define {f : FrameId} (hf : f < m.store.size) (name : String) (v : Value) :
    SameBut f name v m (m.onStore (·.define f name v)) where
  supply := rfl
  desk := rfl
  size := Store.size_define ..
  frame? i hi := by
    rw [onStore, Store.define, Store.frame?_modify, if_neg hi.symm]
  outer := Store.outer_define ..
  get? x hx := Store.get?_bindings_define_of_ne hx ..
  binding := by
    rw [onStore, Store.bindings_define, if_pos ⟨rfl, hf⟩, Bindings.get?_insert, if_pos rfl]

/-- **Unmentioned names do not matter.** Suppose that a name occurs neither in an expression nor in
any value that can be reached from it or from the frame it is evaluated in, and that no external
function can be reached. Bind the name to any value in any frame, whether it was bound there or not.
Then evaluation gives the same value or the same error as without the binding, creates the same
frames and leaves all frames with the same bindings, but for the one that was made, which stays.

Hence functions of the host that are installed under names that no script mentions do not change
what a script does. Its answers are the same, and it leaves the machine on which the functions would
be installed afterwards. -/
theorem eval_unmentioned (host host' : Host σ) (depth : ℕ) {m : Machine σ} (hs : m.store.Linked)
    {f : FrameId} (hf : f < m.store.size) :
    (∀ (env : FrameId) (expr : Value) (name : String) (v : Value),
      (∀ i ∈ env :: expr.frames, i < m.store.size) → expr.Avoids (· = name) →
      m.store.Avoids (· = name) (env :: expr.frames) →
      let run := eval host depth expr env m
      let run' := eval host' depth expr env { m with store := m.store.define f name v }
      verdict run' = verdict run ∧ (machineAfter run).SameBut f name v (machineAfter run')) ∧
    (∀ (env : FrameId) (r : Registry) (texts : List String),
      env < m.store.size → m.store.Avoids (· ∈ r.names) [env] →
      (∀ text ∈ texts, ∀ d, (Reading.ofText text).toExcept = .ok d →
        ∀ name ∈ r.names, .symbol name ∉ d.parts) →
      let installed := { m with store := r.install m.store f }
      let after := machineAfterTexts host depth env texts m
      (replies host' depth (texts.map (env, ·)) installed).map Prod.snd =
        (replies host depth (texts.map (env, ·)) m).map Prod.snd ∧
      machineAfterTexts host' depth env texts installed =
        { after with store := r.install after.store f }) := by
  constructor
  · intro env expr name v hroots hexpr havoids run run'
    have hoverlay : Store.IsOverlay (· = name) (f + 1) (·.define f name v) :=
      Store.isOverlay_define (by rfl) f v
    obtain ⟨hrun, hsize⟩ := eval_overlaid hoverlay hf hs hroots hexpr havoids host host' depth
    have hrun' : run' = onStoreAfter (·.define f name v) run := hrun
    rw [hrun', verdict_onStoreAfter, machineAfter_onStoreAfter]
    exact ⟨rfl, Machine.sameBut_define (hf.trans_le hsize) name v⟩
  · intro env r texts henv havoids htexts installed after
    exact script_overlaid (r.isOverlay_install (fun _ h => h) f) hf hs henv havoids htexts host
      host'
      depth

/-- A function that is made in an inner frame is applied to a quoted list, whose element is then
evaluated, and assigns a name of the outer frame. There the name of a probe is bound, first to a
truth value, then to a function of the host: this makes no difference to the application, nor to a
script that calls the function. -/
theorem eval_unmentioned_probe :
    let m : Machine Unit := ⟨⟨#[
      ⟨.ofList [("noted", .bool true), ("probe", .bool true)], none⟩,
      ⟨.ofList [("note", .closure 0 1 ["x"]
        (.list 1 [.atom (.form .set), .symbol 2 "noted", .symbol 3 "x"]))], some 0⟩]⟩, 10, ()⟩
    let expr : Value := .list 4 [.atom (.form .apply), .symbol 5 "note", .list 6
      [.atom (.form .quote), .list 7 [.list 8 [.atom (.builtin .not), .symbol 9 "noted"]]]]
    let host : Host Unit := ⟨#[fun _ => pure (.bool false)]⟩
    let r : Registry := Registry.empty.register "probe" 0
    let text := (Datum.list [.symbol "note", .bool false]).text
    let run := eval .empty 9 expr 1 m
    let run' := eval host 9 expr 1 { m with store := m.store.define 0 "probe" (.external 0) }
    let installed := { m with store := r.install m.store 0 }
    let after := machineAfterTexts .empty 9 1 [text] m
    ((machineAfter run).store.bindings 0).get? "noted" = some (.bool false) ∧
      (verdict run' = verdict run ∧
        (machineAfter run).SameBut 0 "probe" (.external 0) (machineAfter run')) ∧
      (replies host 9 [(1, text)] installed).map Prod.snd =
        (replies .empty 9 [(1, text)] m).map Prod.snd ∧
      machineAfterTexts host 9 1 [text] installed =
        { after with store := r.install after.store 0 } := by
  intro m expr host r text run run' installed after
  obtain ⟨hevaluates, hscripts⟩ := eval_unmentioned .empty host 9 (by decide : m.store.Linked)
    (by decide : 0 < m.store.size)
  refine ⟨rfl, hevaluates 1 expr "probe" (.external 0) (by decide) (by decide) ?_,
    hscripts 1 r [text] (by decide) ?_ ?_⟩
  · exact fun i _ => Store.forall_entries (P := Value.Avoids (· = "probe")) (by decide) i
  · exact fun i _ => Store.forall_entries (P := Value.Avoids (· ∈ r.names)) (by decide) i
  · have hread : (Reading.ofText text).toExcept = .ok (.list [.symbol "note", .bool false]) :=
      Datum.Readable.toExcept_text (by decide)
    refine List.forall_mem_singleton.mpr fun d hd => ?_
    rw [hread] at hd
    cases hd
    have hnames : r.names = ["probe"] := rfl
    simp [hnames, Datum.parts]

end

end FrameLisp
