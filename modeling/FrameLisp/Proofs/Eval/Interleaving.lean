import FrameLisp.Proofs.Eval.Isolation
import FrameLisp.Proofs.Eval.Similarity

/-!
# Evaluators that share a machine

Evaluators over disjoint graphs do not affect each other, in whatever order their texts are
evaluated. To say so, the run in which the texts of all evaluators are interleaved is compared with
a run of one evaluator alone. The two runs create frames and identities of different numbers, so the
machines are not equal; but the part of the store that belongs to the evaluator stays similar to the
store of the lone run. Meanwhile the other evaluators work on an island of their own.

## Main definitions

* `Machine.HasIssued` — identities in use are not handed out again
* `Apart` — a part of a machine that is similar to another machine, next to an island

## Main results

* `Apart.step_other`, `Apart.step_own` — a text of another evaluator, or of this one, is evaluated
* `Apart.replies_eq` — the answers of an evaluator do not depend on the others
* `eval_isolated` — evaluation does not affect what it cannot reach
-/

namespace FrameLisp

variable {σ : Type}

/-- Identities in use are not handed out again. -/
def Machine.HasIssued (m : Machine σ) : Prop :=
  ∀ i, ∀ e ∈ (m.store.bindings i).entries, ∀ p ∈ e.2.parts, ∀ k ∈ p.identity?, k < m.supply

/-- Next to the island of all others, an island of the machine `m` is similar to the machine `m'`,
on which the root is alone. -/
structure Apart (root : FrameId) (w : World) (own others : FrameId → Prop)
    (m m' : Machine σ) : Prop where
  paired : w.1 root root
  within : ∀ {i j}, w.1 i j → own i
  similar : (Coupling.similarity σ σ fun _ => True).machine w m m'
  own_island : m.store.IsIsland own
  others_island : m.store.IsIsland others
  disjoint : ∀ i, own i → ¬ others i

namespace Apart

variable {root : FrameId} {w : World} {own others : FrameId → Prop} {m m' : Machine σ}

/-- A text of another evaluator is evaluated on the island of all others. -/
theorem step_other (h : Apart root w own others m m') {m₁ : Machine σ}
    (hm : Confined others m m₁) : Apart root w own (Grown others m m₁) m₁ m' where
  paired := h.paired
  within := h.within
  similar := by
    have hdisjoint : ∀ i, others i → ¬ own i := fun i hi hown => h.disjoint i hown hi
    refine ⟨h.similar.1.congr_left hm.size_le fun hij => ?_, fun hatom => ?_⟩
    · have hframe := hm.frame?_of_isIsland h.own_island hdisjoint (h.within hij)
      exact ⟨Store.bindings_congr hframe, Store.outer_congr hframe⟩
    · obtain ⟨hunique, hlt⟩ := h.similar.2 hatom
      exact ⟨hunique, fun k l hkl => ⟨(hlt k l hkl).1.trans_le hm.supply_le, (hlt k l hkl).2⟩⟩
  own_island := hm.isIsland h.own_island fun i hi hown => h.disjoint i hown hi
  others_island := hm.island
  disjoint i hown hi := hi.disjoint h.own_island (fun j hj hown => h.disjoint j hown hj) hown

/-- A text of this evaluator is evaluated on both machines, with similar outcomes. Frames that the
outcomes have in common but that are not on the island of this evaluator are forgotten. -/
theorem step_own (h : Apart root w own others m m') {w₁ : World} (hw : w ≤ w₁) {m₁ m₁' : Machine σ}
    (hsimilar : (Coupling.similarity σ σ fun _ => True).machine w₁ m₁ m₁')
    (hm : Confined own m m₁) :
    Apart root (fun i j => w₁.1 i j ∧ Grown own m m₁ i, w₁.2) (Grown own m m₁) others m₁ m₁' where
  paired := ⟨hw.1 _ _ h.paired, .of_region h.own_island hm (h.within h.paired)⟩
  within hij := hij.2
  similar := by
    refine ⟨hsimilar.1.restrict (fun _ _ => Iff.rfl) (fun _ _ h => h) (fun _ h => h)
      (fun i hi => hm.island.links hi) fun i hi e he => ?_, hsimilar.2⟩
    exact ⟨hm.island.hostless hi e he, fun _ _ => trivial⟩
  own_island := hm.island
  others_island := hm.isIsland h.others_island h.disjoint
  disjoint i hi := hi.disjoint h.others_island h.disjoint

/-- **The answers of an evaluator do not depend on the others.** In any sequence of requests to the
root and to frames of the other island, the root's answers are those that it gives alone. -/
theorem replies_eq (h : Apart root w own others m m') (host : Host σ) (depth : ℕ)
    {requests : List (FrameId × String)} (hrequests : ∀ q ∈ requests, q.1 = root ∨ others q.1) :
    (replies host depth requests m).filter (·.1 = root) =
      replies host depth (requests.filter (·.1 = root)) m' := by
  -- each request hands on new islands and, if it is the root's own, a new world
  induction requests generalizing w own others m m' with
  | nil => rfl
  | cons q requests ih =>
    obtain ⟨r, text⟩ := q
    have hrest : ∀ q ∈ requests, q.1 = root ∨ others q.1 := fun q hq =>
      hrequests q (List.mem_cons_of_mem _ hq)
    rcases hrequests _ List.mem_cons_self with hr | hr
    · obtain rfl : r = root := hr
      have L : Lockstep (.similarity σ σ fun _ => True) host host :=
        .similarity host host trivial trivial fun _ => trivial
      have htext : ∀ d, (Reading.ofText text).toExcept = .ok d → ∀ p ∈ d.parts,
          (Correspondence.ofWorld (fun _ => True) w).AdmitsDatum p := by
        intro d _ p _
        cases p <;> trivial
      obtain ⟨hanswer, w₁, hw, hsimilar⟩ := L.readEvalPrint depth h.paired htext h.similar
      have hm := h.own_island.readEvalPrint host depth (h.within h.paired) text
      have hreplies := ih (h.step_own hw hsimilar hm) hrest
      simp only [replies, List.filter_cons, decide_true, if_true, hanswer, hreplies]
    · have hne : r ≠ root := by
        rintro rfl
        exact h.disjoint r (h.within h.paired) hr
      have hm := h.others_island.readEvalPrint host depth hr text
      have hreplies := ih (h.step_other hm) fun q hq =>
        (hrest q hq).imp_right (.of_region h.others_island hm)
      simp only [replies, List.filter_cons, decide_eq_false hne, Bool.false_eq_true, if_false,
        hreplies]

/-- An island is similar to itself. -/
theorem refl (hids : m.HasIssued) (hown : m.store.IsIsland own)
    (hothers : m.store.IsIsland others) (hdisjoint : ∀ i, own i → ¬ others i) (hroot : own root) :
    Apart root (fun i j => i = j ∧ own i, fun k l => k = l ∧ k < m.supply) own others m m where
  paired := ⟨rfl, hroot⟩
  within hij := hij.1 ▸ hij.2
  similar := by
    refine ⟨⟨⟨?_, ?_⟩, ?_, ?_, ?_⟩, fun _ => ⟨⟨?_, ?_⟩, ?_⟩⟩
    · exact fun _ _ _ hik hjk => hik.1.trans hjk.1.symm
    · exact fun _ _ _ hij hik => hij.1.symm.trans hik.1
    · rintro i _ ⟨rfl, hi⟩
      exact ⟨hown.range hi, hown.range hi⟩
    · rintro i _ ⟨rfl, hi⟩
      refine List.forall₂_same.mpr fun e he => ⟨rfl, Value.related_self_iff.mpr fun p hp => ?_⟩
      have hissued := hids i e he p hp
      cases p with
      | symbol id name => exact ⟨⟨rfl, hissued id rfl⟩, trivial⟩
      | list id items => exact ⟨rfl, hissued id rfl⟩
      | closure id frame params body =>
        have hlink : frame ∈ m.store.links i :=
          Store.mem_links_of_binding he (Value.mem_frames_iff.mpr ⟨id, params, body, hp⟩)
        exact ⟨⟨rfl, hissued id rfl⟩, ⟨rfl, hown.links hi frame hlink⟩, fun _ _ => trivial⟩
      | external ref => exact hown.hostless hi e he _ hp rfl
      | _ => trivial
    · rintro i _ ⟨rfl, hi⟩
      cases houter : m.store.outer i with
      | none => exact .none
      | some j => exact .some ⟨rfl, hown.links hi j (Store.mem_links_of_outer houter)⟩
    · exact fun _ _ _ hik hjk => hik.1.trans hjk.1.symm
    · exact fun _ _ _ hij hik => hij.1.symm.trans hik.1
    · rintro k _ ⟨rfl, hk⟩
      exact ⟨hk, hk⟩
  own_island := hown
  others_island := hothers
  disjoint := hdisjoint

/-- Roots of disjoint graphs are apart. -/
theorem of_disjoint (hs : m.store.Linked) (hids : m.HasIssued) {others : List FrameId}
    (hroots : ∀ r ∈ root :: others, r < m.store.size ∧ m.store.Hostless [r])
    (hdisjoint : ∀ r ∈ others, ∀ i, m.store.Reaches root i → ¬ m.store.Reaches r i) :
    ∃ w, Apart root w (m.store.ReachesAny [root]) (m.store.ReachesAny others) m m := by
  obtain ⟨⟨hlt, hhostless⟩, hothers⟩ := List.forall_mem_cons.mp hroots
  have hisland := Store.isIsland_reachesAny hs (List.forall_mem_singleton.mpr hlt) hhostless
  have hislands : m.store.IsIsland (m.store.ReachesAny others) := by
    refine Store.isIsland_reachesAny hs (fun r hr => (hothers r hr).1) ?_
    rintro i ⟨r, hr, hreaches⟩
    exact (hothers r hr).2 i ⟨r, List.mem_singleton_self r, hreaches⟩
  refine ⟨_, refl hids hisland hislands ?_ ⟨root, List.mem_singleton_self root, .refl⟩⟩
  rintro i ⟨_, hmem, hown⟩ ⟨r, hr, hother⟩
  exact hdisjoint r hr i (List.mem_singleton.mp hmem ▸ hown) hother

end Apart

/-- **Evaluation does not affect what it cannot reach.** Suppose that no external function can be
reached from an expression and the frame that it is evaluated in. Whether evaluation gives a value
or fails, frames that could not be reached are left as they were. Frames that can be reached
afterwards, from the same frame or from the value, could be reached before or are new.

Hence evaluators over disjoint graphs never affect each other: if the texts of any number of
evaluators are evaluated one after the other, in any order, then each evaluator gives the answers
that it would give alone. The test for the same object compares identities, so those in use must not
be handed out again. -/
theorem eval_isolated (host : Host σ) (depth : ℕ) {m : Machine σ} (hs : m.store.Linked) :
    (∀ (env : FrameId) (expr : Value), (∀ i ∈ env :: expr.frames, i < m.store.size) →
      expr.IsHostless → m.store.Hostless (env :: expr.frames) →
      let outcome := eval host depth expr env m
      (∀ i < m.store.size, ¬ m.store.ReachesAny (env :: expr.frames) i →
        (machineAfter outcome).store.frame? i = m.store.frame? i) ∧
      ∀ i, (machineAfter outcome).store.ReachesAny (env :: framesAfter outcome) i →
        m.store.ReachesAny (env :: expr.frames) i ∨
          m.store.size ≤ i ∧ i < (machineAfter outcome).store.size) ∧
    (m.HasIssued → ∀ (root : FrameId) (requests : List (FrameId × String)),
      (∀ r ∈ root :: requests.map Prod.fst, r < m.store.size ∧ m.store.Hostless [r]) →
      (∀ q ∈ requests, q.1 ≠ root → ∀ i, m.store.Reaches root i → ¬ m.store.Reaches q.1 i) →
      (replies host depth requests m).filter (·.1 = root) =
        replies host depth (requests.filter (·.1 = root)) m) := by
  constructor
  · intro env expr hroots hexpr hhostless outcome
    have hisland := Store.isIsland_reachesAny hs hroots hhostless
    have hroot : ∀ i ∈ env :: expr.frames, m.store.ReachesAny (env :: expr.frames) i :=
      fun i hi => ⟨i, hi, .refl⟩
    obtain ⟨hconfined, hvalue⟩ := hisland.eval host depth (hroot env List.mem_cons_self) hexpr
      fun i hi => hroot i (List.mem_cons_of_mem env hi)
    refine ⟨hconfined.frame?, fun i hi => ?_⟩
    have henv := Grown.of_region hisland hconfined (hroot env List.mem_cons_self)
    have hgrown := hconfined.island.of_reachesAny (List.forall_mem_cons.mpr ⟨henv, hvalue⟩) hi
    exact hgrown.1.imp_right fun hsize => ⟨hsize, hgrown.2⟩
  · intro hids root requests hroots hdisjoint
    -- the others are all roots but this one, and their graphs together make up one island
    let others := (requests.map Prod.fst).filter (· ≠ root)
    have hothers : ∀ r ∈ others, ∀ i, m.store.Reaches root i → ¬ m.store.Reaches r i := by
      intro r hr
      obtain ⟨hr, hne⟩ := List.mem_filter.mp hr
      obtain ⟨q, hq, rfl⟩ := List.mem_map.mp hr
      exact hdisjoint q hq (of_decide_eq_true hne)
    have hsubset : root :: others ⊆ root :: requests.map Prod.fst :=
      List.cons_subset_cons root (List.filter_subset_self _)
    obtain ⟨_, hapart⟩ := Apart.of_disjoint hs hids (fun r hr => hroots r (hsubset hr)) hothers
    refine hapart.replies_eq host depth fun q hq => ?_
    rcases eq_or_ne q.1 root with h | h
    · exact .inl h
    · exact .inr ⟨q.1, List.mem_filter.mpr ⟨List.mem_map_of_mem hq, decide_eq_true h⟩, .refl⟩

/-- Two frames that capture themselves and bind the same names. Assigning a name in one of them
leaves the other one as it is, and between the two texts of the first the second gives the answer
that it would give alone. -/
theorem eval_isolated_twins :
    let m : Machine Unit := ⟨⟨#[
      ⟨.ofList [("f", .closure 0 0 [] (.symbol 1 "x")), ("x", .bool true)], none⟩,
      ⟨.ofList [("f", .closure 2 1 [] (.symbol 3 "x")), ("x", .bool true)], none⟩]⟩, 6, ()⟩
    let outcome := eval .empty 9 (.list 4 [.atom (.form .set), .symbol 5 "x", .bool false]) 0 m
    ((machineAfter outcome).store.frame? 1 = m.store.frame? 1 ∧
      ∀ i, (machineAfter outcome).store.ReachesAny (0 :: framesAfter outcome) i →
        m.store.ReachesAny [0] i ∨ 2 ≤ i ∧ i < (machineAfter outcome).store.size) ∧
    (replies .empty 9 [(0, "(set! x #f)"), (1, "(f)"), (0, "(f)")] m).filter (·.1 = 1) =
      replies .empty 9 [(1, "(f)")] m := by
  intro m outcome
  have hs : m.store.Linked := by decide
  have hids : m.HasIssued :=
    Store.forall_entries (P := fun v => ∀ p ∈ v.parts, ∀ k ∈ p.identity?, k < 6) (by decide)
  have hhostless : ∀ roots, m.store.Hostless roots := fun _ i _ =>
    Store.forall_entries (P := Value.IsHostless) (by decide) i
  have hreaches : ∀ r ∈ [0, 1], ∀ i, m.store.Reaches r i → i = r := by
    intro r hr i h
    have hlinks : ∀ r ∈ [0, 1], ∀ j ∈ m.store.links r, j = r := by decide
    induction h with
    | refl => rfl
    | tail _ hlink ih => exact hlinks r hr _ (ih ▸ hlink)
  obtain ⟨hframes, hreplies⟩ := eval_isolated .empty 9 hs
  obtain ⟨hframe, hafter⟩ := hframes 0 (.list 4 [.atom (.form .set), .symbol 5 "x", .bool false])
    (by decide) (by decide) (hhostless _)
  refine ⟨⟨hframe 1 (by decide) ?_, hafter⟩, hreplies hids 1
    [(0, "(set! x #f)"), (1, "(f)"), (0, "(f)")] ?_ ?_⟩
  · rintro ⟨j, hj, h⟩
    obtain rfl : j = 0 := List.mem_singleton.mp hj
    exact absurd (hreaches 0 (by decide) 1 h) (by decide)
  · exact fun r hr => ⟨(by decide : ∀ r ∈ [1, 0, 1, 0], r < m.store.size) r hr, hhostless _⟩
  · intro q hq hne i h1 h2
    have hq : q.1 ∈ [0, 1] := (by decide : ∀ r ∈ [0, 1, 0], r ∈ [0, 1]) q.1 (List.mem_map_of_mem hq)
    exact hne ((hreaches q.1 hq i h2).symm.trans (hreaches 1 (by decide) i h1))

end FrameLisp
