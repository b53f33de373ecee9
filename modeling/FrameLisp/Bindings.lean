/-!
# Bindings

A finite map from names to values, kept as a list in strictly increasing order of names. The order
is part of the type, so two maps with the same contents are equal, and listing a map in name order
costs nothing.

## Main definitions

* `Bindings` — the type
* `Bindings.get?`, `Bindings.insert` — look up and bind
* `Bindings.ofList` — bind several names in turn

## Main results

* `Bindings.get?_insert`, `Bindings.get?_ofList` — what is found after one binding, and after
  several
* `Bindings.ext_get?` — maps with the same contents are equal
-/

namespace FrameLisp

/-- A finite map from names, ordered by name. -/
structure Bindings (α : Type) where
  /-- Names with what they are bound to. -/
  entries : List (String × α)
  /-- Names increase strictly, by code points. -/
  sorted : entries.Pairwise fun a b => a.1 < b.1

namespace Bindings

variable {α β : Type}

/-- No bindings. -/
def empty : Bindings α := ⟨[], .nil⟩

instance : EmptyCollection (Bindings α) := ⟨empty⟩

instance : Inhabited (Bindings α) := ⟨empty⟩

/-- The names that are bound, in order. -/
def names (b : Bindings α) : List String := b.entries.map (·.1)

/-- How many names are bound. -/
def size (b : Bindings α) : Nat := b.entries.length

/-- What a name is bound to in a list of entries. -/
def find? (name : String) : List (String × α) → Option α
  | [] => none
  | e :: es => if name = e.1 then some e.2 else find? name es

/-- What a name is bound to. -/
def get? (b : Bindings α) (name : String) : Option α := find? name b.entries

/-- Whether a name is bound. -/
def contains (b : Bindings α) (name : String) : Bool := (b.get? name).isSome

/-- Put an entry into its place, replacing one of the same name. -/
def insertEntry (name : String) (value : α) : List (String × α) → List (String × α)
  | [] => [(name, value)]
  | e :: es =>
    if name < e.1 then (name, value) :: e :: es
    else if name = e.1 then (name, value) :: es
    else e :: insertEntry name value es

theorem mem_insertEntry {name : String} {value : α} {es : List (String × α)} {e : String × α}
    (h : e ∈ insertEntry name value es) : e = (name, value) ∨ e ∈ es := by
  induction es with
  | nil => simpa [insertEntry] using h
  | cons d ds ih =>
    rw [insertEntry] at h
    split at h
    · simpa using h
    · split at h
      · rcases List.mem_cons.mp h with h | h
        · exact .inl h
        · exact .inr (List.mem_cons_of_mem _ h)
      · rcases List.mem_cons.mp h with h | h
        · exact .inr (h ▸ List.mem_cons_self)
        · exact (ih h).imp_right (List.mem_cons_of_mem _)

/-- Names are totally ordered. -/
theorem lt_of_not_lt_of_ne {a b : String} (h : ¬ a < b) (hne : a ≠ b) : b < a := by
  rw [String.not_lt] at h
  rcases Decidable.em (b < a) with hlt | hle
  · exact hlt
  · exact absurd (String.le_antisymm (String.not_lt.mp hle) h) hne

theorem sorted_insertEntry {name : String} {value : α} {es : List (String × α)}
    (h : es.Pairwise fun a b => a.1 < b.1) :
    (insertEntry name value es).Pairwise fun a b => a.1 < b.1 := by
  induction es with
  | nil => simp [insertEntry]
  | cons d ds ih =>
    obtain ⟨hd, hds⟩ := List.pairwise_cons.mp h
    rw [insertEntry]
    split
    next hlt =>
      refine List.pairwise_cons.mpr ⟨fun e he => ?_, h⟩
      rcases List.mem_cons.mp he with rfl | he
      · exact hlt
      · exact String.lt_trans hlt (hd e he)
    next hlt =>
      split
      next heq =>
        exact List.pairwise_cons.mpr ⟨fun e he => by rw [heq]; exact hd e he, hds⟩
      next hne =>
        refine List.pairwise_cons.mpr ⟨fun e he => ?_, ih hds⟩
        rcases mem_insertEntry he with rfl | he
        · exact lt_of_not_lt_of_ne hlt hne
        · exact hd e he

/-- Bind a name, replacing what it was bound to. -/
def insert (b : Bindings α) (name : String) (value : α) : Bindings α :=
  ⟨insertEntry name value b.entries, sorted_insertEntry b.sorted⟩

/-- Bind several names in turn, so that the last binding of a repeated name wins. -/
def insertAll (b : Bindings α) (pairs : List (String × α)) : Bindings α :=
  pairs.foldl (fun b p => b.insert p.1 p.2) b

/-- The map that binds the given names in turn. -/
def ofList (pairs : List (String × α)) : Bindings α := empty.insertAll pairs

@[ext] theorem ext {b c : Bindings α} (h : b.entries = c.entries) : b = c := by
  cases b; cases c; simp_all

@[simp] theorem get?_empty (name : String) : (empty : Bindings α).get? name = none := rfl

theorem find?_insertEntry (name : String) (value : α) (es : List (String × α)) (m : String) :
    find? m (insertEntry name value es) = if m = name then some value else find? m es := by
  induction es with
  | nil => rfl
  | cons d ds ih => grind [insertEntry, find?]

/-- What is found after a binding: the new value under its name, and as before elsewhere. -/
theorem get?_insert (b : Bindings α) (name : String) (value : α) (m : String) :
    (b.insert name value).get? m = if m = name then some value else b.get? m :=
  find?_insertEntry name value b.entries m

/-- What is found after several bindings: the last one of the name, and as before if there is
none. -/
theorem get?_insertAll (b : Bindings α) (pairs : List (String × α)) (name : String) :
    (b.insertAll pairs).get? name =
      ((pairs.reverse.find? (·.1 = name)).map Prod.snd).or (b.get? name) := by
  induction pairs generalizing b with
  | nil => rfl
  | cons p pairs ih =>
    rw [insertAll, List.foldl_cons, ← insertAll, ih, get?_insert, List.reverse_cons,
      List.find?_append, Option.map_or, Option.or_assoc]
    by_cases hp : p.1 = name
    · simp [hp]
    · simp [hp, Ne.symm hp]

theorem get?_ofList (pairs : List (String × α)) (name : String) :
    (ofList pairs).get? name = (pairs.reverse.find? (·.1 = name)).map Prod.snd := by
  rw [ofList, get?_insertAll, get?_empty, Option.or_none]

theorem find?_eq_none_of_lt {name : String} {es : List (String × α)} (h : ∀ e ∈ es, name < e.1) :
    find? name es = none := by
  induction es with
  | nil => rfl
  | cons e es ih =>
    obtain ⟨he, hes⟩ := List.forall_mem_cons.mp h
    have hne : name ≠ e.1 := fun heq => String.lt_irrefl _ (heq ▸ he)
    rw [find?, if_neg hne, ih hes]

/-- In an ordered list, the first name is the least one that is found. -/
theorem not_lt_of_find? {e d : String × α} {es ds : List (String × α)}
    (hds : (d :: ds).Pairwise fun a b => a.1 < b.1)
    (h : ∀ name, find? name (e :: es) = find? name (d :: ds)) : ¬ e.1 < d.1 := by
  intro hlt
  have hnone : find? e.1 (d :: ds) = none := by
    refine find?_eq_none_of_lt (List.forall_mem_cons.mpr ⟨hlt, fun a ha => ?_⟩)
    exact String.lt_trans hlt (List.rel_of_pairwise_cons hds ha)
  rw [← h e.1, find?, if_pos rfl] at hnone
  cases hnone

theorem eq_of_find? {es ds : List (String × α)} (hes : es.Pairwise fun a b => a.1 < b.1)
    (hds : ds.Pairwise fun a b => a.1 < b.1) (h : ∀ name, find? name es = find? name ds) :
    es = ds := by
  induction es generalizing ds with
  | nil =>
    cases ds with
    | nil => rfl
    | cons d ds => simpa [find?] using h d.1
  | cons e es ih =>
    cases ds with
    | nil => simpa [find?] using h e.1
    | cons d ds =>
      have hname : e.1 = d.1 := by
        refine Decidable.byContradiction fun hne => ?_
        exact not_lt_of_find? hes (fun name => (h name).symm)
          (lt_of_not_lt_of_ne (not_lt_of_find? hds h) hne)
      have hvalue : e.2 = d.2 := by simpa [find?, hname] using h d.1
      have htails : ∀ name, find? name es = find? name ds := by
        intro name
        by_cases heq : name = e.1
        · rw [heq, find?_eq_none_of_lt fun a ha => List.rel_of_pairwise_cons hes ha, hname,
            find?_eq_none_of_lt fun a ha => List.rel_of_pairwise_cons hds ha]
        · simpa [find?, heq, hname ▸ heq] using h name
      rw [Prod.ext hname hvalue, ih hes.of_cons hds.of_cons htails]

/-- **Maps with the same contents are equal.** -/
theorem ext_get? {b c : Bindings α} (h : ∀ name, b.get? name = c.get? name) : b = c :=
  ext (eq_of_find? b.sorted c.sorted h)

end Bindings

end FrameLisp
