import FrameLisp.Proofs.Store.Chain
import FrameLisp.Proofs.Value.Correspondence

/-!
# Similar stores

Two stores are similar along a correspondence when corresponding frames bind the same names to
corresponding values and have corresponding parents. The frames correspond one to one, and nothing
is asked of frames that correspond to none; so a correspondence that holds of two roots and is
closed under links is an isomorphism of the graphs below them.

## Main definitions

* `Bindings.Related` — the same names, bound to related values
* `Store.Similar` — similar stores

## Main results

* `Bindings.Related.get?`, `Bindings.Related.insert` — looking up and binding keep the relation
* `Store.Similar.links` — corresponding frames have corresponding links
* `Store.Similar.lookup`, `Store.Similar.resolve?` — the same is found in similar stores
* `Store.Similar.define`, `Store.Similar.extend` — changes on both sides keep stores similar
-/

namespace FrameLisp

theorem isSome_eq_of_rel {α β : Type} {R : α → β → Prop} {a : Option α} {b : Option β}
    (h : Option.Rel R a b) : a.isSome = b.isSome := by
  cases h <;> rfl

theorem forall₂_toList_of_rel {α β : Type} {R : α → β → Prop} {a : Option α} {b : Option β}
    (h : Option.Rel R a b) : List.Forall₂ R a.toList b.toList := by
  cases h with
  | none => exact .nil
  | some hab => exact .cons hab .nil

theorem forall₂_imp_of_mem_left {α β : Type} {R S : α → β → Prop} {as : List α} {bs : List β}
    (h : List.Forall₂ R as bs) (hRS : ∀ a ∈ as, ∀ b, R a b → S a b) : List.Forall₂ S as bs := by
  induction h with
  | nil => exact .nil
  | cons hab _ ih =>
    exact .cons (hRS _ List.mem_cons_self _ hab)
      (ih fun a ha => hRS a (List.mem_cons_of_mem _ ha))

/-- Related lists, with the same names in front. -/
theorem forall₂_zip_left {α β : Type} {R : α → β → Prop} (names : List String) {as : List α}
    {bs : List β} (h : List.Forall₂ R as bs) :
    List.Forall₂ (fun e e' => e.1 = e'.1 ∧ R e.2 e'.2) (names.zip as) (names.zip bs) := by
  induction names generalizing as bs with
  | nil => exact .nil
  | cons name names ih =>
    cases h with
    | nil => exact .nil
    | cons hab hrest => exact .cons ⟨rfl, hab⟩ (ih hrest)

namespace Bindings

variable {α β : Type} {R S : α → β → Prop} {b : Bindings α} {b' : Bindings β}

/-- The same names, bound to related values. -/
def Related (R : α → β → Prop) (b : Bindings α) (b' : Bindings β) : Prop :=
  List.Forall₂ (fun e e' => e.1 = e'.1 ∧ R e.2 e'.2) b.entries b'.entries

theorem related_empty : Related R (∅ : Bindings α) (∅ : Bindings β) := .nil

theorem Related.mono (hRS : ∀ v w, R v w → S v w) (h : Related R b b') : Related S b b' :=
  h.imp fun _ _ he => ⟨he.1, hRS _ _ he.2⟩

theorem related_insertEntry {es : List (String × α)} {es' : List (String × β)}
    (h : List.Forall₂ (fun e e' => e.1 = e'.1 ∧ R e.2 e'.2) es es') (name : String) {v : α} {w : β}
    (hvw : R v w) :
    List.Forall₂ (fun e e' => e.1 = e'.1 ∧ R e.2 e'.2) (insertEntry name v es)
      (insertEntry name w es') := by
  induction h with
  | nil => exact .cons ⟨rfl, hvw⟩ .nil
  | cons he hes ih =>
    rw [insertEntry, insertEntry, he.1]
    split
    · exact .cons ⟨rfl, hvw⟩ (.cons he hes)
    · split
      · exact .cons ⟨rfl, hvw⟩ hes
      · exact .cons he ih

/-- Binding a name to related values keeps the relation. -/
theorem Related.insert (h : Related R b b') (name : String) {v : α} {w : β} (hvw : R v w) :
    Related R (b.insert name v) (b'.insert name w) :=
  related_insertEntry h name hvw

theorem related_find? {es : List (String × α)} {es' : List (String × β)}
    (h : List.Forall₂ (fun e e' => e.1 = e'.1 ∧ R e.2 e'.2) es es') (name : String) :
    Option.Rel R (find? name es) (find? name es') := by
  induction h with
  | nil => exact .none
  | cons he _ ih =>
    rw [find?, find?, he.1]
    split
    · exact .some he.2
    · exact ih

/-- Related maps bind a name to related values, or both do not bind it. -/
theorem Related.get? (h : Related R b b') (name : String) :
    Option.Rel R (b.get? name) (b'.get? name) :=
  related_find? h name

theorem Related.contains_eq (h : Related R b b') (name : String) :
    b.contains name = b'.contains name :=
  isSome_eq_of_rel (h.get? name)

theorem related_ofList {ps : List (String × α)} {ps' : List (String × β)}
    (h : List.Forall₂ (fun e e' => e.1 = e'.1 ∧ R e.2 e'.2) ps ps') :
    Related R (ofList ps) (ofList ps') := by
  refine List.rel_foldl (P := Related R) (fun b b' hb p p' hp => ?_) related_empty h
  rw [hp.1]
  exact hb.insert p'.1 hp.2

end Bindings

namespace Store

/-- Corresponding frames correspond one to one, are in their stores, bind the same names to
corresponding values and have corresponding parents. -/
structure Similar (c : Correspondence) (s t : Store) : Prop where
  unique : Relator.BiUnique c.frame
  range : ∀ {i j}, c.frame i j → i < s.size ∧ j < t.size
  bindings : ∀ {i j}, c.frame i j → (s.bindings i).Related (Value.Related c) (t.bindings j)
  outer : ∀ {i j}, c.frame i j → Option.Rel c.frame (s.outer i) (t.outer j)

variable {c : Correspondence} {s t : Store} {i j : FrameId}

/-- Corresponding frames have corresponding links. -/
theorem Similar.links (h : Similar c s t) (hij : c.frame i j) :
    List.Forall₂ c.frame (s.links i) (t.links j) :=
  List.rel_append (List.rel_flatMap (h.bindings hij) fun _ _ he => he.2.frames)
    (forall₂_toList_of_rel (h.outer hij))

/-! ### Looking up in similar stores -/

theorem Similar.ancestor (h : Similar c s t) (hij : c.frame i j) (k : ℕ) :
    Option.Rel c.frame (s.ancestor k (some i)) (t.ancestor k (some j)) := by
  induction k generalizing i j with
  | zero => exact .some hij
  | succ k ih =>
    rw [ancestor_succ, ancestor_succ]
    have houter := h.outer hij
    generalize s.outer i = o, t.outer j = o' at houter
    cases houter with
    | none => rw [ancestor_none, ancestor_none]; exact .none
    | some hkl => exact ih hkl

theorem Similar.lt_of_ancestor (h : Similar c s t) (hij : c.frame i j) (k : ℕ) :
    (∀ l, s.ancestor k (some i) = some l → l < s.size) ∧
      ∀ l, t.ancestor k (some j) = some l → l < t.size := by
  have hrel := h.ancestor hij k
  generalize s.ancestor k (some i) = o, t.ancestor k (some j) = o' at hrel
  cases hrel with
  | none => exact ⟨fun _ hl => by simp at hl, fun _ hl => by simp at hl⟩
  | some hkl =>
    exact ⟨fun _ hl => Option.some.inj hl ▸ (h.range hkl).1,
      fun _ hl => Option.some.inj hl ▸ (h.range hkl).2⟩

theorem Similar.chainFrom (h : Similar c s t) (n : ℕ) {o o' : Option FrameId}
    (ho : Option.Rel c.frame o o') :
    List.Forall₂ c.frame (s.chainFrom n o) (t.chainFrom n o') := by
  induction n generalizing o o' with
  | zero => exact .nil
  | succ n ih =>
    cases ho with
    | none => exact .nil
    | some hij => exact .cons hij (ih (h.outer hij))

theorem findSome?_related {α β : Type} {F : FrameId → FrameId → Prop} {R : α → β → Prop}
    {f : FrameId → Option α} {g : FrameId → Option β}
    (hfg : ∀ i j, F i j → Option.Rel R (f i) (g j)) {is js : List FrameId}
    (h : List.Forall₂ F is js) : Option.Rel R (is.findSome? f) (js.findSome? g) := by
  induction h with
  | nil => exact .none
  | @cons i j _ _ hij _ ih =>
    have hrel := hfg i j hij
    rw [List.findSome?_cons, List.findSome?_cons]
    generalize f i = a, g j = b at hrel
    cases hrel with
    | none => exact ih
    | some hab => exact .some hab

/-- A walk along corresponding chains finds related things. The two walks are bounded by the sizes
of their stores; both are compared with walks bounded by the larger one. -/
theorem Similar.findSome?_chain (h : Similar c s t) (hij : c.frame i j) {α β : Type}
    {R : α → β → Prop} {f : FrameId → Option α} {g : FrameId → Option β}
    (hfg : ∀ i j, c.frame i j → Option.Rel R (f i) (g j)) :
    Option.Rel R ((s.chain i).findSome? f) ((t.chain j).findSome? g) := by
  rw [← findSome?_chainFrom f (fun k => (h.lt_of_ancestor hij k).1) (le_max_left _ t.size),
    ← findSome?_chainFrom g (fun k => (h.lt_of_ancestor hij k).2) (le_max_right s.size _)]
  exact findSome?_related hfg (h.chainFrom _ (.some hij))

/-- **Corresponding frames see corresponding values.** -/
theorem Similar.lookup (h : Similar c s t) (hij : c.frame i j) (name : String) :
    Option.Rel (Value.Related c) (s.lookup i name) (t.lookup j name) :=
  h.findSome?_chain hij fun _ _ hkl => (h.bindings hkl).get? name

/-- **A name is bound in corresponding frames,** seen from corresponding frames. -/
theorem Similar.resolve? (h : Similar c s t) (hij : c.frame i j) (name : String) :
    Option.Rel c.frame (s.resolve? i name) (t.resolve? j name) := by
  rw [Store.resolve?, Store.resolve?, List.find?_eq_findSome?_guard, List.find?_eq_findSome?_guard]
  refine h.findSome?_chain hij fun k l hkl => ?_
  rw [Option.guard, Option.guard, (h.bindings hkl).contains_eq name]
  split
  · exact .some hkl
  · exact .none

/-! ### Changing similar stores -/

/-- More identities and functions may correspond. -/
theorem Similar.mono {d : Correspondence} (h : Similar c s t) (hcd : c ≤ d)
    (hframe : d.frame = c.frame) : Similar d s t where
  unique := hframe ▸ h.unique
  range hij := h.range (hframe ▸ hij)
  bindings hij := (h.bindings (hframe ▸ hij)).mono fun _ _ => Value.Related.mono hcd
  outer hij := hframe ▸ h.outer (hframe ▸ hij)

/-- Only frames that correspond to others matter. -/
theorem Similar.congr_left {s' : Store} (h : Similar c s t) (hsize : s.size ≤ s'.size)
    (hs : ∀ {i j}, c.frame i j → s'.bindings i = s.bindings i ∧ s'.outer i = s.outer i) :
    Similar c s' t where
  unique := h.unique
  range hij := ⟨(h.range hij).1.trans_le hsize, (h.range hij).2⟩
  bindings hij := (hs hij).1 ▸ h.bindings hij
  outer hij := (hs hij).2 ▸ h.outer hij

/-- Stores stay similar when the correspondence is restricted to frames from which no other one can
be reached, and to what occurs in them. -/
theorem Similar.restrict {d : Correspondence} (h : Similar c s t) {region : FrameId → Prop}
    (hframe : ∀ i j, d.frame i j ↔ c.frame i j ∧ region i)
    (hidentity : ∀ i j, c.identity i j → d.identity i j) (hname : ∀ n, c.name n → d.name n)
    (hclosed : ∀ i, region i → ∀ j ∈ s.links i, region j)
    (hvalues : ∀ i, region i → ∀ e ∈ (s.bindings i).entries,
      e.2.IsHostless ∧ ∀ p, .atom p ∈ e.2.parts → d.atom p) :
    Similar d s t where
  unique := ⟨fun _ _ _ hik hjk => h.unique.1 ((hframe _ _).mp hik).1 ((hframe _ _).mp hjk).1,
    fun _ _ _ hij hik => h.unique.2 ((hframe _ _).mp hij).1 ((hframe _ _).mp hik).1⟩
  range hij := h.range ((hframe _ _).mp hij).1
  bindings {i j} hij := by
    obtain ⟨hij, hi⟩ := (hframe i j).mp hij
    refine forall₂_imp_of_mem_left (h.bindings hij) fun e he e' hee' => ⟨hee'.1, ?_⟩
    obtain ⟨hhostless, hatom⟩ := hvalues i hi e he
    refine hee'.2.restrict hidentity hname hatom (fun k hk l hkl => ?_) hhostless
    exact (hframe k l).mpr ⟨hkl, hclosed i hi k (List.mem_append_left _
      (List.mem_flatMap.mpr ⟨e, he, hk⟩))⟩
  outer {i j} hij := by
    obtain ⟨hij, hi⟩ := (hframe i j).mp hij
    have hlinks : ∀ k ∈ s.outer i, region k := fun k hk =>
      hclosed i hi k (List.mem_append_right _ (Option.mem_toList.mpr hk))
    have houter := h.outer hij
    generalize s.outer i = o, t.outer j = o' at houter hlinks
    cases houter with
    | none => exact .none
    | some hkl => exact .some ((hframe _ _).mpr ⟨hkl, hlinks _ rfl⟩)

/-- **Binding a name in corresponding frames** to corresponding values keeps stores similar. -/
theorem Similar.define (h : Similar c s t) (hij : c.frame i j) (name : String) {v w : Value}
    (hvw : Value.Related c v w) : Similar c (s.define i name v) (t.define j name w) where
  unique := h.unique
  range hkl := by
    rw [size_define, size_define]
    exact h.range hkl
  bindings {k l} hkl := by
    obtain ⟨hi, hj⟩ := h.range hij
    have heq : i = k ↔ j = l := Relator.rel_eq h.unique hij hkl
    rw [bindings_define, bindings_define]
    by_cases hik : i = k
    · rw [if_pos ⟨hik, hi⟩, if_pos ⟨heq.mp hik, hj⟩]
      exact (h.bindings hkl).insert name hvw
    · rw [if_neg fun hk => hik hk.1, if_neg fun hl => hik (heq.mpr hl.1)]
      exact h.bindings hkl
  outer hkl := by
    rw [outer_define, outer_define]
    exact h.outer hkl

theorem bindings_push (s : Store) (f : Frame) (i : FrameId) :
    (s.push f).bindings i = if i = s.size then f.bindings else s.bindings i := by
  rw [bindings, frame?_push]
  by_cases h : i = s.size
  · rw [if_pos h, if_pos h]
  · rw [if_neg h, if_neg h]
    rfl

theorem outer_push (s : Store) (f : Frame) (i : FrameId) :
    (s.push f).outer i = if i = s.size then f.outer else s.outer i := by
  rw [outer, frame?_push]
  split <;> rfl

end Store

/-- Two more frames that belong together. -/
def Correspondence.addFrame (c : Correspondence) (i j : FrameId) : Correspondence :=
  { c with frame := fun k l => c.frame k l ∨ k = i ∧ l = j }

theorem Correspondence.le_addFrame (c : Correspondence) (i j : FrameId) : c ≤ c.addFrame i j :=
  ⟨fun _ _ => .inl, le_rfl, le_rfl, le_rfl, le_rfl⟩

namespace Store

variable {c : Correspondence} {s t : Store} {i j : FrameId}

/-- The new frames of two stores correspond to no other frame. -/
theorem Similar.unique_addFrame (h : Similar c s t) :
    Relator.BiUnique (c.addFrame s.size t.size).frame := by
  constructor
  · rintro k l p (hk | ⟨rfl, rfl⟩) (hl | ⟨rfl, hp⟩)
    · exact h.unique.1 hk hl
    · exact absurd (h.range hk).2 (hp ▸ lt_irrefl _)
    · exact absurd (h.range hl).2 (lt_irrefl _)
    · rfl
  · rintro k l p (hl | ⟨rfl, rfl⟩) (hp | ⟨hk, rfl⟩)
    · exact h.unique.2 hl hp
    · exact absurd (h.range hl).1 (hk ▸ lt_irrefl _)
    · exact absurd (h.range hp).1 (lt_irrefl _)
    · rfl

/-- **Extending corresponding frames** by the same parameters and corresponding arguments keeps
stores similar, with the new frames corresponding. -/
theorem Similar.extend (h : Similar c s t) (hij : c.frame i j) (params : List String)
    {args args' : List Value} (hargs : List.Forall₂ (Value.Related c) args args') :
    Similar (c.addFrame s.size t.size) (s.extend i params args) (t.extend j params args') := by
  have hle := c.le_addFrame s.size t.size
  refine ⟨h.unique_addFrame, ?_, ?_, ?_⟩
  · rintro k l (hkl | ⟨rfl, rfl⟩)
    · exact ⟨by rw [Store.extend, size_push]; exact Nat.lt_succ_of_lt (h.range hkl).1,
        by rw [Store.extend, size_push]; exact Nat.lt_succ_of_lt (h.range hkl).2⟩
    · exact ⟨by rw [Store.extend, size_push]; exact Nat.lt_succ_self _,
        by rw [Store.extend, size_push]; exact Nat.lt_succ_self _⟩
  · rintro k l (hkl | ⟨rfl, rfl⟩)
    · rw [Store.extend, Store.extend, bindings_push, bindings_push, if_neg (h.range hkl).1.ne,
        if_neg (h.range hkl).2.ne]
      exact (h.bindings hkl).mono fun _ _ => Value.Related.mono hle
    · rw [Store.extend, Store.extend, bindings_push, bindings_push, if_pos rfl, if_pos rfl]
      exact Bindings.related_ofList (forall₂_zip_left params
        (hargs.imp fun _ _ => Value.Related.mono hle))
  · rintro k l (hkl | ⟨rfl, rfl⟩)
    · rw [Store.extend, Store.extend, outer_push, outer_push, if_neg (h.range hkl).1.ne,
        if_neg (h.range hkl).2.ne]
      have houter := h.outer hkl
      generalize s.outer k = o, t.outer l = o' at houter
      cases houter with
      | none => exact .none
      | some hkl => exact .some (.inl hkl)
    · rw [Store.extend, Store.extend, outer_push, outer_push, if_pos rfl, if_pos rfl]
      exact .some (.inl hij)

end Store

end FrameLisp
