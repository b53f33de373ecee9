import FrameLisp.Proofs.Eval.Lockstep

/-!
# Evaluation on similar machines

Evaluation does not depend on the numbers of frames or on identities. Machines whose stores are
similar along a correspondence of frames and identities stay similar while the same texts are
evaluated on both, and give the same answers. The correspondence grows: each new frame corresponds
to the new frame of the other side, and each new identity to the new identity.

The test for the same object sees identities. It is allowed only where identities correspond one to
one.

## Main definitions

* `Coupling.similarity` — machines with similar stores

## Main results

* `Lockstep.similarity` — evaluation respects similarity
-/

namespace FrameLisp

/-- The frames and the identities that correspond so far. -/
abbrev World := (FrameId → FrameId → Prop) × (Identity → Identity → Prop)

/-- Frames and identities correspond as the world says, and there are no external functions. -/
def Correspondence.ofWorld (atoms : Primitive → Prop) (w : World) : Correspondence where
  frame := w.1
  identity := w.2
  atom := atoms
  name _ := True
  external _ _ := False

theorem Correspondence.ofWorld_mono {atoms : Primitive → Prop} {w w' : World} (h : w ≤ w') :
    ofWorld atoms w ≤ ofWorld atoms w' :=
  ⟨h.1, h.2, le_rfl, le_rfl, le_rfl⟩

variable {σ τ : Type} {atoms : Primitive → Prop}

namespace Coupling

/-- Identities that can be told apart correspond one to one, and none of them is still to be handed
out. -/
def Told (atoms : Primitive → Prop) (R : ℕ → ℕ → Prop) (n n' : ℕ) : Prop :=
  atoms (.builtin .identical) → Relator.BiUnique R ∧ ∀ k l, R k l → k < n ∧ l < n'

/-- Machines with similar stores. -/
def similarity (σ τ : Type) (atoms : Primitive → Prop) : Coupling σ τ World where
  corr := .ofWorld atoms
  scope w := w.1
  machine w m m' := m.store.Similar (.ofWorld atoms w) m'.store ∧
    Told atoms w.2 m.supply m'.supply

/-- New identities correspond to no other ones. -/
theorem Told.advance {R : ℕ → ℕ → Prop} {n n' : ℕ} (h : Told atoms R n n') (k : ℕ) :
    Told atoms (fun a b => R a b ∨ ∃ l < k, a = n + l ∧ b = n' + l) (n + k) (n' + k) := by
  intro hatom
  obtain ⟨⟨hleft, hright⟩, hlt⟩ := h hatom
  -- an old identity is below the supply, a new one is not
  refine ⟨⟨?_, ?_⟩, ?_⟩
  · rintro a b d (ha | ⟨l, -, rfl, rfl⟩) (hb | ⟨l', -, rfl, hd⟩)
    · exact hleft ha hb
    · have := hlt _ _ ha
      omega
    · have := hlt _ _ hb
      omega
    · omega
  · rintro a b d (hb | ⟨l, -, rfl, rfl⟩) (hd | ⟨l', -, ha, rfl⟩)
    · exact hright hb hd
    · have := hlt _ _ hb
      omega
    · have := hlt _ _ hd
      omega
    · omega
  · rintro a b (hab | ⟨l, hl, rfl, rfl⟩)
    · have := hlt a b hab
      omega
    · omega

end Coupling

open Coupling in
/-- **Evaluation respects similarity,** on any hosts. -/
theorem Lockstep.similarity (host : Host σ) (host' : Host τ) (hlambda : atoms (.form .lambda))
    (hbegin : atoms (.form .begin)) (hdefine : atoms (.form .defineOnce) → atoms (.form .define)) :
    Lockstep (similarity σ τ atoms) host host' where
  corr_mono := Correspondence.ofWorld_mono
  scope_mono hw hij := hw.1 _ _ hij
  frame_of_scope hij := hij
  lambda _ := hlambda
  begin _ := hbegin
  define_of_once := hdefine
  unique hm hatom := ⟨(hm.2 hatom).1, fun _ _ _ h _ => h.elim, fun _ _ _ h _ => h.elim⟩
  lookup hm hij _ := hm.1.lookup hij _
  define _ hm hij _ hv := ⟨hm.1.define hij _ hv, hm.2⟩
  assign {w m m' i j name v v'} _ hm hij _ hv := by
    have hresolve := hm.1.resolve? hij name
    rw [Store.assign, Store.assign]
    generalize m.store.resolve? i name = o, m'.store.resolve? j name = o' at hresolve
    cases hresolve with
    | none => exact ⟨rfl, hm⟩
    | some hkl => exact ⟨rfl, hm.1.define hkl name hv, hm.2⟩
  extend {w m m' i j params args args'} hm hij _ hargs :=
    ⟨(fun k l => w.1 k l ∨ k = m.store.size ∧ l = m'.store.size, w.2),
      ⟨fun _ _ => .inl, le_rfl⟩, .inr ⟨rfl, rfl⟩, hm.1.extend hij params hargs, hm.2⟩
  advance {w m m'} hm k :=
    ⟨(w.1, fun a b => w.2 a b ∨ ∃ l < k, a = m.supply + l ∧ b = m'.supply + l),
      ⟨le_rfl, fun _ _ => .inl⟩, fun l hl => .inr ⟨l, hl, rfl, rfl⟩,
      hm.1.mono (Correspondence.ofWorld_mono ⟨le_rfl, fun _ _ => .inl⟩) rfl, hm.2.advance k⟩
  call hr _ := hr.elim

end FrameLisp
