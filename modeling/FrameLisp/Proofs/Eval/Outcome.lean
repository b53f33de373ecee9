import FrameLisp.Eval.Builtin
import FrameLisp.Proofs.Value.Correspondence

/-!
# Builtins on corresponding arguments

A builtin looks at the shape and the contents of its arguments and never at what they refer to, so
corresponding arguments lead to corresponding outcomes. The exception is the test for the same
object. It sees identities, and gives the same answer if identities correspond one to one.

## Main definitions

* `SameFate` — results that are related, or the same error
* `Builtin.Outcome.Related` — corresponding outcomes of a builtin

## Main results

* `Builtin.related_outcome` — corresponding arguments lead to corresponding outcomes
-/

namespace FrameLisp

/-- Two results that are related, or twice the same error. -/
inductive SameFate {α β : Type} (R : α → β → Prop) : Except Error α → Except Error β → Prop
  | ok {a : α} {b : β} (h : R a b) : SameFate R (.ok a) (.ok b)
  | error (e : Error) : SameFate R (.error e) (.error e)

theorem SameFate.of_eq {α β : Type} {R : α → β → Prop} {e e' : Error} (h : e = e') :
    SameFate R (.error e) (.error e') :=
  h ▸ .error e

theorem SameFate.bind {α β γ δ : Type} {R : α → β → Prop} {S : γ → δ → Prop} {x : Except Error α}
    {y : Except Error β} {f : α → Except Error γ} {g : β → Except Error δ} (hxy : SameFate R x y)
    (hfg : ∀ a b, R a b → SameFate S (f a) (g b)) : SameFate S (x >>= f) (y >>= g) := by
  cases hxy with
  | ok h => exact hfg _ _ h
  | error e => exact .error e

namespace Value

variable {c : Correspondence} {v w : Value} {vs ws : List Value}

theorem related_asNumber (h : Related c v w) (op : String) :
    SameFate Eq (v.asNumber op) (w.asNumber op) := by
  have hdatum := h.toDatum_eq
  cases h with
  | number x => exact .ok rfl
  | _ => exact .of_eq (congrArg (Error.wrongType op .number) hdatum)

theorem related_asBool (h : Related c v w) (op : String) :
    SameFate Eq (v.asBool op) (w.asBool op) := by
  have hdatum := h.toDatum_eq
  cases h with
  | bool b => exact .ok rfl
  | _ => exact .of_eq (congrArg (Error.wrongType op .bool) hdatum)

theorem related_asList (h : Related c v w) (op : String) :
    SameFate (List.Forall₂ (Related c)) (v.asList op) (w.asList op) := by
  have hdatum := h.toDatum_eq
  cases h with
  | list hid hlength hitems =>
    exact .ok (related_list_iff.mp (.list hid hlength hitems)).2
  | _ => exact .of_eq (congrArg (Error.wrongType op .list) hdatum)

theorem related_asNumbers (h : List.Forall₂ (Related c) vs ws) (op : String) :
    SameFate Eq (asNumbers op vs) (asNumbers op ws) := by
  induction h with
  | nil => exact .ok rfl
  | cons hv _ ih =>
    refine (related_asNumber hv op).bind fun x y hxy => ih.bind fun xs ys hxs => ?_
    rw [hxy, hxs]
    exact .ok rfl

theorem Related.isNil_eq (h : Related c v w) : v.isNil = w.isNil := by
  cases h with
  | list hid hlength hitems =>
    cases (related_list_iff.mp (.list hid hlength hitems)).2 <;> rfl
  | _ => rfl

/-- The same object is the same object on both sides, if identities correspond one to one. -/
theorem Related.identical_eq {v' w' : Value} (hidentity : Relator.BiUnique c.identity)
    (hexternal : Relator.BiUnique c.external) (h : Related c v w) (h' : Related c v' w') :
    v.identical v' = w.identical w' := by
  have hbeq : ∀ {R : ℕ → ℕ → Prop}, Relator.BiUnique R → ∀ {i j i' j'}, R i j → R i' j' →
      (i == i') = (j == j') := by
    intro R hR i j i' j' hij hij'
    rw [Bool.eq_iff_iff, beq_iff_eq, beq_iff_eq]
    exact Relator.rel_eq hR hij hij'
  cases h with
  | symbol hid _ =>
    cases h' with
    | symbol hid' _ => exact hbeq hidentity hid hid'
    | _ => rfl
  | list hid _ _ =>
    cases h' with
    | list hid' _ _ => exact hbeq hidentity hid hid'
    | _ => rfl
  | closure hid _ _ _ =>
    cases h' with
    | closure hid' _ _ _ => exact hbeq hidentity hid hid'
    | _ => rfl
  | external hr =>
    cases h' with
    | external hr' => exact hbeq hexternal hr hr'
    | _ => rfl
  | _ => cases h' <;> rfl

end Value

namespace Builtin

/-- Corresponding outcomes: corresponding values, or corresponding elements of a new list. -/
inductive Outcome.Related (c : Correspondence) : Outcome → Outcome → Prop
  | value {v w : Value} (h : Value.Related c v w) : Related c (.value v) (.value w)
  | elements {vs ws : List Value} (h : List.Forall₂ (Value.Related c) vs ws) :
    Related c (.elements vs) (.elements ws)

variable {c : Correspondence} {args args' : List Value}

/-! ### Kinds of builtins -/

theorem related_ofNumbers (h : List.Forall₂ (Value.Related c) args args') (op : String)
    (f : Float → List Float → Float) :
    SameFate (Outcome.Related c) (ofNumbers op f args) (ofNumbers op f args') := by
  rw [ofNumbers, ofNumbers, h.length_eq]
  split
  · exact .error _
  · refine (Value.related_asNumbers h op).bind fun xs ys hxs => ?_
    subst hxs
    cases xs with
    | nil => exact .error _
    | cons x xs => exact .ok (.value (.number _))

/-- A builtin of one argument. -/
theorem related_ofOne (h : List.Forall₂ (Value.Related c) args args') (op : String)
    {f g : Value → Except Error Outcome}
    (hfg : ∀ v w, Value.Related c v w → SameFate (Outcome.Related c) (f v) (g w)) :
    SameFate (Outcome.Related c) (ofOne op f args) (ofOne op g args') := by
  cases h with
  | nil => exact .error _
  | cons hv htail =>
    cases htail with
    | nil => exact hfg _ _ hv
    | cons _ _ => exact .error _

/-- A builtin of two arguments. -/
theorem related_ofTwo (h : List.Forall₂ (Value.Related c) args args') (op : String)
    {f g : Value → Value → Except Error Outcome}
    (hfg : ∀ v w v' w', Value.Related c v w → Value.Related c v' w' →
      SameFate (Outcome.Related c) (f v v') (g w w')) :
    SameFate (Outcome.Related c) (ofTwo op f args) (ofTwo op g args') := by
  cases h with
  | nil => exact .error _
  | cons hv htail =>
    cases htail with
    | nil => exact .error _
    | cons hv' htail =>
      cases htail with
      | nil => exact hfg _ _ _ _ hv hv'
      | cons _ _ => exact .error _

theorem related_ofNumber (h : List.Forall₂ (Value.Related c) args args') (op : String)
    (f : Float → Float) :
    SameFate (Outcome.Related c) (ofNumber op f args) (ofNumber op f args') := by
  have heq : ∀ args, ofNumber op f args =
      ofOne op (fun a => do .ok (.value (.number (f (← a.asNumber op))))) args := by
    rintro (_ | ⟨a, _ | ⟨b, rest⟩⟩) <;> rfl
  rw [heq, heq]
  refine related_ofOne h op fun v w hv => (Value.related_asNumber hv op).bind fun x y hxy => ?_
  rw [hxy]
  exact .ok (.value (.number _))

theorem related_ofTwoNumbers (h : List.Forall₂ (Value.Related c) args args') (op : String)
    {f : Float → Float → Value} (hf : ∀ x y, Value.Related c (f x y) (f x y)) :
    SameFate (Outcome.Related c) (ofTwoNumbers op f args) (ofTwoNumbers op f args') := by
  have heq : ∀ args, ofTwoNumbers op f args = ofTwo op (fun a b => do
      let x ← a.asNumber op
      let y ← b.asNumber op
      .ok (.value (f x y))) args := by
    rintro (_ | ⟨a, _ | ⟨b, _ | ⟨d, rest⟩⟩⟩) <;> rfl
  rw [heq, heq]
  refine related_ofTwo h op fun v w v' w' hv hv' => ?_
  refine (Value.related_asNumber hv op).bind fun x y hxy => ?_
  refine (Value.related_asNumber hv' op).bind fun x' y' hxy' => ?_
  rw [hxy, hxy']
  exact .ok (.value (hf y y'))

theorem related_ofTwoBools (h : List.Forall₂ (Value.Related c) args args') (op : String)
    (f : Bool → Bool → Bool) :
    SameFate (Outcome.Related c) (ofTwoBools op f args) (ofTwoBools op f args') := by
  have heq : ∀ args, ofTwoBools op f args = ofTwo op (fun a b => do
      let x ← a.asBool op
      let y ← b.asBool op
      .ok (.value (.bool (f x y)))) args := by
    rintro (_ | ⟨a, _ | ⟨b, _ | ⟨d, rest⟩⟩⟩) <;> rfl
  rw [heq, heq]
  refine related_ofTwo h op fun v w v' w' hv hv' => ?_
  refine (Value.related_asBool hv op).bind fun x y hxy => ?_
  refine (Value.related_asBool hv' op).bind fun x' y' hxy' => ?_
  rw [hxy, hxy']
  exact .ok (.value (.bool _))

theorem related_ofTest (h : List.Forall₂ (Value.Related c) args args') (op : String)
    {f : Value → Bool} (hf : ∀ v w, Value.Related c v w → f v = f w) :
    SameFate (Outcome.Related c) (ofTest op f args) (ofTest op f args') := by
  refine related_ofOne h op fun v w hv => ?_
  rw [hf v w hv]
  exact .ok (.value (.bool _))

theorem related_compareContents {v w v' w' : Value} (h : Value.Related c v w)
    (h' : Value.Related c v' w') (op : String) :
    SameFate (Outcome.Related c) (compareContents op v v') (compareContents op w w') := by
  have hkinds : ∀ {u u' x x' : Value}, u.kind = x.kind → u'.kind = x'.kind →
      SameFate (Outcome.Related c)
        (if u.kind = u'.kind then .error (.incomparable op) else .ok (.value (.bool false)))
        (if x.kind = x'.kind then .error (.incomparable op) else .ok (.value (.bool false))) := by
    intro u u' x x' hu hu'
    rw [hu, hu']
    split
    · exact .error _
    · exact .ok (.value (.bool false))
  have hv := h.kind_eq
  have hv' := h'.kind_eq
  cases h with
  | number x =>
    cases h' with
    | number y => exact .ok (.value (.bool _))
    | _ => exact hkinds hv hv'
  | symbol _ _ =>
    cases h' with
    | symbol _ _ => exact .ok (.value (.bool _))
    | _ => exact hkinds hv hv'
  | _ => exact hkinds hv hv'

/-! ### All builtins -/

/-- **Corresponding arguments lead to corresponding outcomes,** provided that identities correspond
one to one if the builtin can see them. -/
theorem related_outcome (b : Builtin)
    (hunique : b = .identical → Relator.BiUnique c.identity ∧ Relator.BiUnique c.external)
    (h : List.Forall₂ (Value.Related c) args args') :
    SameFate (Outcome.Related c) (b.outcome args) (b.outcome args') := by
  cases b with
  | add | sub | mul | div | min | max => exact related_ofNumbers h _ _
  | modulo | pow | atan2 => exact related_ofTwoNumbers h _ fun _ _ => .number _
  | abs | floor | ceiling | sqrt | ln | sin | cos | tan | asin | acos =>
    exact related_ofNumber h _ _
  | greater | less | greaterEq | lessEq | numberEq =>
    exact related_ofTwoNumbers h _ fun _ _ => .bool _
  | and | or => exact related_ofTwoBools h _ _
  | not => exact related_ofTest h _ fun _ _ hv => by rw [hv.isTruthy_eq]
  | isList | isSymbol => exact related_ofTest h _ fun _ _ hv => by rw [hv.kind_eq]
  | isNull => exact related_ofTest h _ fun _ _ hv => hv.isNil_eq
  | equal => exact related_ofTwo h _ fun _ _ _ _ hv hv' => related_compareContents hv hv' _
  | identical =>
    obtain ⟨hidentity, hexternal⟩ := hunique rfl
    refine related_ofTwo h _ fun _ _ _ _ hv hv' => ?_
    rw [hv.identical_eq hidentity hexternal hv']
    exact .ok (.value (.bool _))
  | length =>
    refine related_ofOne h _ fun _ _ hv => (Value.related_asList hv _).bind fun xs ys hxs => ?_
    rw [hxs.length_eq]
    exact .ok (.value (.number _))
  | cons =>
    refine related_ofTwo h _ fun _ _ _ _ ha hd => ?_
    have hpair := List.Forall₂.cons ha (.cons hd .nil)
    cases hd with
    | list hid hlength hitems =>
      exact .ok (.elements (.cons ha (Value.related_list_iff.mp (.list hid hlength hitems)).2))
    | _ => exact .ok (.elements hpair)
  | car =>
    refine related_ofOne h _ fun _ _ ha => ?_
    have hvalue := Outcome.Related.value ha
    cases ha with
    | list hid hlength hitems =>
      cases (Value.related_list_iff.mp (.list hid hlength hitems)).2 with
      | nil => exact .ok (.elements .nil)
      | cons hx _ => exact .ok (.value hx)
    | _ => exact .ok hvalue
  | cdr =>
    refine related_ofOne h _ fun _ _ ha => ?_
    cases ha with
    | list hid hlength hitems =>
      cases (Value.related_list_iff.mp (.list hid hlength hitems)).2 with
      | nil => exact .ok (.elements .nil)
      | cons _ hxs => exact .ok (.elements hxs)
    | _ => exact .ok (.elements .nil)
  | append =>
    refine related_ofTwo h _ fun _ _ _ _ hx hy => ?_
    refine (Value.related_asList hx _).bind fun xs xs' hxs => ?_
    refine (Value.related_asList hy _).bind fun ys ys' hys => ?_
    exact .ok (.elements (List.rel_append hxs hys))
  | list => exact .ok (.elements h)

end Builtin

end FrameLisp
