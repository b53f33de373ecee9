import FrameLisp.Proofs.Value.Parts
import Mathlib.Data.List.Forall2
import Mathlib.Order.Basic

/-!
# Corresponding values

Two values correspond when they have the same shape and what they refer to corresponds: frames with
frames, identities with identities, functions of the host with functions of the host. A
*correspondence* says which frames, identities and functions belong together. It also says which
primitives and which names may occur at all, so that one relation can speak both of two values that
look alike and of one value that keeps to a vocabulary.

A value that corresponds to itself is one whose parts are all admitted. Statements about a single
evaluation are the case of two equal ones.

## Main definitions

* `Correspondence` — what belongs together, and what may occur
* `Value.Related` — corresponding values
* `Correspondence.Admits` — a part that may occur

## Main results

* `Value.Related.toDatum_eq` — corresponding values are written alike
* `Value.Related.frames` — they refer to corresponding frames, in the same order
* `Value.Related.mono` — a larger correspondence relates more values
* `Value.Related.eq` — where everything corresponds only to itself, so do values
* `Value.related_self_iff` — when a value corresponds to itself
* `Value.related_instances`, `Value.isPlain_instantiate` — instances of one datum correspond, and
  are plain
-/

namespace FrameLisp

/-- What belongs together in two machines, and what may occur in their values. -/
structure Correspondence where
  /-- Frames that belong together. -/
  frame : FrameId → FrameId → Prop
  /-- Identities that belong together. -/
  identity : Identity → Identity → Prop
  /-- Primitives that may occur. -/
  atom : Primitive → Prop
  /-- Names that may occur. -/
  name : String → Prop
  /-- Functions of the host that belong together. -/
  external : HostRef → HostRef → Prop

namespace Correspondence

/-- One correspondence extends another if whatever belongs together or may occur for the one does
so for the other. -/
instance : Preorder Correspondence :=
  Preorder.lift fun c => (c.frame, c.identity, c.atom, c.name, c.external)

variable {c d : Correspondence}

theorem le_iff : c ≤ d ↔ (∀ i j, c.frame i j → d.frame i j) ∧
    (∀ i j, c.identity i j → d.identity i j) ∧ (∀ p, c.atom p → d.atom p) ∧
    (∀ n, c.name n → d.name n) ∧ ∀ r s, c.external r s → d.external r s :=
  Iff.rfl

/-- A part that may occur and corresponds to itself, as far as the part alone shows it. -/
def Admits (c : Correspondence) : Value → Prop
  | .atom p => c.atom p
  | .symbol i name => c.identity i i ∧ c.name name
  | .list i _ => c.identity i i
  | .closure i frame params _ => c.identity i i ∧ c.frame frame frame ∧ ∀ p ∈ params, c.name p
  | .external r => c.external r r
  | .number _ | .bool _ => True

/-- A part of a datum that may occur. -/
def AdmitsDatum (c : Correspondence) : Datum → Prop
  | .atom p => c.atom p
  | .symbol name => c.name name
  | .number _ | .bool _ | .list _ => True

theorem AdmitsDatum.mono {p : Datum} (hcd : c ≤ d) (h : c.AdmitsDatum p) : d.AdmitsDatum p := by
  obtain ⟨-, -, hatom, hname, -⟩ := le_iff.mp hcd
  cases p with
  | atom q => exact hatom q h
  | symbol name => exact hname name h
  | _ => trivial

end Correspondence

/-- Values of the same shape whose references correspond. -/
inductive Value.Related (c : Correspondence) : Value → Value → Prop
  | atom {p : Primitive} (hatom : c.atom p) : Related c (.atom p) (.atom p)
  | symbol {i j : Identity} {name : String} (hid : c.identity i j) (hname : c.name name) :
    Related c (.symbol i name) (.symbol j name)
  | number (x : Float) : Related c (.number x) (.number x)
  | bool (b : Bool) : Related c (.bool b) (.bool b)
  | list {i j : Identity} {xs ys : List Value} (hid : c.identity i j)
    (hlength : xs.length = ys.length) (hitems : ∀ p ∈ xs.zip ys, Related c p.1 p.2) :
    Related c (.list i xs) (.list j ys)
  | closure {i j : Identity} {frame frame' : FrameId} {params : List String} {body body' : Value}
    (hid : c.identity i j) (hframe : c.frame frame frame') (hparams : ∀ p ∈ params, c.name p)
    (hbody : Related c body body') :
    Related c (.closure i frame params body) (.closure j frame' params body')
  | external {r s : HostRef} (hexternal : c.external r s) : Related c (.external r) (.external s)

namespace Value

variable {c d : Correspondence} {v w : Value}

theorem related_list_iff {i j : Identity} {xs ys : List Value} :
    Related c (.list i xs) (.list j ys) ↔ c.identity i j ∧ List.Forall₂ (Related c) xs ys := by
  constructor
  · rintro (_ | _ | _ | _ | ⟨hid, hlength, hitems⟩)
    exact ⟨hid, List.forall₂_iff_zip.mpr ⟨hlength, fun h => hitems _ h⟩⟩
  · rintro ⟨hid, hitems⟩
    obtain ⟨hlength, hzip⟩ := List.forall₂_iff_zip.mp hitems
    exact .list hid hlength fun p hp => hzip hp

/-! ### What corresponding values share -/

/-- **Corresponding values are written alike.** -/
theorem Related.toDatum_eq (h : Related c v w) : v.toDatum = w.toDatum := by
  induction h with
  | list _ hlength _ ih =>
    rw [toDatum, toDatum, toData_eq_map, toData_eq_map, Datum.list.injEq, ← List.forall₂_eq_eq_eq,
      List.forall₂_map_left_iff, List.forall₂_map_right_iff]
    exact List.forall₂_iff_zip.mpr ⟨hlength, fun h => ih _ h⟩
  | closure _ _ _ _ ih => rw [toDatum, toDatum, ih]
  | _ => rfl

/-- **Corresponding values refer to corresponding frames,** in the same order. -/
theorem Related.frames (h : Related c v w) : List.Forall₂ c.frame v.frames w.frames := by
  induction h with
  | list _ hlength _ ih =>
    rw [Value.frames, Value.frames, framesOf_eq_flatMap, framesOf_eq_flatMap]
    exact List.rel_flatMap (List.forall₂_iff_zip.mpr ⟨hlength, fun h => ih _ h⟩)
      fun _ _ hframes => hframes
  | closure _ hframe _ _ ih => exact .cons hframe ih
  | _ => exact .nil

theorem Related.kind_eq (h : Related c v w) : v.kind = w.kind := by
  cases h <;> rfl

theorem Related.isTruthy_eq (h : Related c v w) : v.isTruthy = w.isTruthy := by
  cases h <;> rfl

/-- **A larger correspondence relates more values.** -/
theorem Related.mono (hcd : c ≤ d) (h : Related c v w) : Related d v w := by
  obtain ⟨hframe, hidentity, hatom, hname, hexternal⟩ := Correspondence.le_iff.mp hcd
  induction h with
  | atom h => exact .atom (hatom _ h)
  | symbol hid hn => exact .symbol (hidentity _ _ hid) (hname _ hn)
  | number x => exact .number x
  | bool b => exact .bool b
  | list hid hlength _ ih => exact .list (hidentity _ _ hid) hlength ih
  | closure hid hf hp _ ih =>
    exact .closure (hidentity _ _ hid) (hframe _ _ hf) (fun p h => hname p (hp p h)) ih
  | external h => exact .external (hexternal _ _ h)

/-- A smaller correspondence relates two values if it has room for what occurs in them. Since they
have the same shape, it is enough to look at one of them. -/
theorem Related.restrict (h : Related c v w) (hidentity : ∀ i j, c.identity i j → d.identity i j)
    (hname : ∀ n, c.name n → d.name n) (hatom : ∀ p, .atom p ∈ v.parts → d.atom p)
    (hframe : ∀ i ∈ v.frames, ∀ j, c.frame i j → d.frame i j) (hhostless : v.IsHostless) :
    Related d v w := by
  induction h with
  | atom _ => exact .atom (hatom _ (mem_parts_self _))
  | symbol hid hn => exact .symbol (hidentity _ _ hid) (hname _ hn)
  | number x => exact .number x
  | bool b => exact .bool b
  | @list i _ xs _ hid hlength _ ih =>
    refine .list (hidentity _ _ hid) hlength fun p hp => ?_
    have hmem := (List.of_mem_zip hp).1
    have hparts : ∀ q ∈ p.1.parts, q ∈ (Value.list i xs).parts := fun q hq =>
      mem_parts_list.mpr (.inr ⟨p.1, hmem, hq⟩)
    refine ih p hp (fun q hq => hatom q (hparts _ hq)) (fun i hi => hframe i ?_)
      fun q hq => hhostless q (hparts q hq)
    rw [Value.frames, framesOf_eq_flatMap]
    exact List.mem_flatMap.mpr ⟨p.1, hmem, hi⟩
  | @closure id _ i _ params body _ hid hf hp _ ih =>
    have hparts : ∀ q ∈ body.parts, q ∈ (Value.closure id i params body).parts := fun q hq =>
      mem_parts_closure.mpr (.inr hq)
    exact .closure (hidentity _ _ hid) (hframe _ List.mem_cons_self _ hf)
      (fun p h => hname p (hp p h)) (ih (fun q hq => hatom q (hparts _ hq))
        (fun i hi => hframe i (List.mem_cons_of_mem _ hi)) fun q hq => hhostless q (hparts q hq))
  | external _ => exact absurd rfl (hhostless _ (mem_parts_self _))

/-- Values are equal if whatever they refer to is. -/
theorem Related.eq (hframe : ∀ i j, c.frame i j → i = j)
    (hidentity : ∀ i j, c.identity i j → i = j) (hexternal : ∀ r s, c.external r s → r = s)
    (h : Related c v w) : v = w := by
  induction h with
  | atom _ | number _ | bool _ => rfl
  | symbol hid _ => rw [hidentity _ _ hid]
  | list hid hlength _ ih =>
    have hitems := List.forall₂_iff_zip.mpr ⟨hlength, fun h => ih _ h⟩
    rw [List.forall₂_eq_eq_eq] at hitems
    rw [hidentity _ _ hid, hitems]
  | closure hid hf _ _ ih => rw [hidentity _ _ hid, hframe _ _ hf, ih]
  | external hr => rw [hexternal _ _ hr]

/-! ### Values that correspond to themselves -/

/-- **A value corresponds to itself** if and only if all its parts are admitted. -/
theorem related_self_iff : Related c v v ↔ ∀ p ∈ v.parts, c.Admits p := by
  induction v using Value.induction with
  | list id items ih =>
    simp only [related_list_iff, List.forall₂_same, mem_parts_list, forall_eq_or_imp,
      Correspondence.Admits, forall_exists_index, and_imp]
    refine and_congr_right fun _ => ⟨fun h p v hv hp => ?_, fun h v hv => ?_⟩
    · exact (ih v hv).mp (h v hv) p hp
    · exact (ih v hv).mpr fun p hp => h p v hv hp
  | closure id frame params body ih =>
    simp only [mem_parts_closure, forall_eq_or_imp]
    constructor
    · rintro (_ | _ | _ | _ | _ | ⟨hid, hframe, hparams, hbody⟩)
      exact ⟨⟨hid, hframe, hparams⟩, ih.mp hbody⟩
    · rintro ⟨⟨hid, hframe, hparams⟩, hbody⟩
      exact .closure hid hframe hparams (ih.mpr hbody)
  | atom p =>
    simp only [parts, List.mem_singleton, forall_eq, Correspondence.Admits]
    exact ⟨fun h => by cases h; assumption, .atom⟩
  | symbol id name =>
    simp only [parts, List.mem_singleton, forall_eq, Correspondence.Admits]
    exact ⟨fun h => by cases h; exact ⟨‹_›, ‹_›⟩, fun h => .symbol h.1 h.2⟩
  | external ref =>
    simp only [parts, List.mem_singleton, forall_eq, Correspondence.Admits]
    exact ⟨fun h => by cases h; assumption, .external⟩
  | number x => simp [parts, Correspondence.Admits, Related.number]
  | bool b => simp [parts, Correspondence.Admits, Related.bool]

/-! ### Instances of one datum -/

mutual

/-- How many identities an instance takes does not depend on where the supply stands. -/
theorem instantiate_snd : ∀ (d : Datum) (n : ℕ), (instantiate d n).2 = n + (instantiate d 0).2
  | .atom _, _ | .symbol _, _ | .number _, _ | .bool _, _ => rfl
  | .list items, n => by
    simp only [instantiate]
    rw [instantiateAll_snd items (n + 1), instantiateAll_snd items (0 + 1)]
    omega

theorem instantiateAll_snd : ∀ (ds : List Datum) (n : ℕ),
    (instantiateAll ds n).2 = n + (instantiateAll ds 0).2
  | [], _ => rfl
  | d :: ds, n => by
    simp only [instantiateAll]
    rw [instantiateAll_snd ds (instantiate d n).2, instantiateAll_snd ds (instantiate d 0).2,
      instantiate_snd d n]
    omega

end

mutual

/-- **Instances of one datum correspond,** if what occurs in it may occur and the identities they
take correspond. -/
theorem related_instances : ∀ {d : Datum} {n n' : ℕ}, (∀ p ∈ d.parts, c.AdmitsDatum p) →
    (∀ l < (instantiate d 0).2, c.identity (n + l) (n' + l)) →
    Related c (instantiate d n).1 (instantiate d n').1
  | .atom _, _, _, hparts, _ => .atom (hparts _ (Datum.mem_parts_self _))
  | .symbol _, _, _, hparts, hids =>
    .symbol (hids 0 Nat.one_pos) (hparts _ (Datum.mem_parts_self _))
  | .number x, _, _, _, _ => .number x
  | .bool b, _, _, _, _ => .bool b
  | .list items, n, n', hparts, hids => by
    simp only [instantiate, Nat.zero_add, instantiateAll_snd items 1] at hids
    refine related_list_iff.mpr ⟨hids 0 (by omega), related_allInstances (fun d hd p hp => ?_)
      fun l hl => ?_⟩
    · exact hparts p (Datum.mem_parts_list.mpr (.inr ⟨d, hd, hp⟩))
    · have hid := hids (1 + l) (by omega)
      rwa [← Nat.add_assoc, ← Nat.add_assoc] at hid

theorem related_allInstances : ∀ {ds : List Datum} {n n' : ℕ},
    (∀ d ∈ ds, ∀ p ∈ d.parts, c.AdmitsDatum p) →
    (∀ l < (instantiateAll ds 0).2, c.identity (n + l) (n' + l)) →
    List.Forall₂ (Related c) (instantiateAll ds n).1 (instantiateAll ds n').1
  | [], _, _, _, _ => .nil
  | d :: ds, n, n', hparts, hids => by
    simp only [instantiateAll, instantiateAll_snd ds (instantiate d 0).2] at hids
    refine .cons (related_instances (hparts d List.mem_cons_self) fun l hl => hids l (by omega))
      (related_allInstances (fun e he => hparts e (List.mem_cons_of_mem d he)) fun l hl => ?_)
    have hid := hids ((instantiate d 0).2 + l) (by omega)
    rwa [← Nat.add_assoc, ← Nat.add_assoc, ← instantiate_snd, ← instantiate_snd] at hid

end

end Value

/-- Neither closures nor external functions correspond to anything. -/
def Correspondence.plain : Correspondence where
  frame _ _ := False
  identity _ _ := True
  atom _ := True
  name _ := True
  external _ _ := False

/-- Data have no functions in them but primitives. -/
theorem Value.isPlain_instantiate (d : Datum) (n : ℕ) : (instantiate d n).1.IsPlain := by
  have hself : Related .plain (instantiate d n).1 (instantiate d n).1 :=
    related_instances (fun p _ => by cases p <;> trivial) fun _ _ => trivial
  intro p hp
  have hadmits := related_self_iff.mp hself p hp
  cases p with
  | closure => exact hadmits.2.1.elim
  | external => exact hadmits.elim
  | _ => simp [kind]

end FrameLisp
