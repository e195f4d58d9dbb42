import Mathlib.Data.Finset.Sort
import Mathlib.Data.Vector.Basic
import Mathlib.Tactic.Common

/-!
# Codecs

A codec writes values as bytes, and reads a value off the front of some bytes.  Two laws make it a
format.  What has been written is read back, whatever follows (`Codec.Reads`), and what is read
does not depend on what comes after it (`Codec.Local`).

The first alone makes every stream of values readable; together they rule out that a piece of an
encoding is taken for a value (`Reads.not_read_of_piece`).  A third (`Codec.Yields`) is about
bytes from anywhere: what is read from them is one of the values that can be written again.

The values are numbers, lists and sets with their lengths before them, options, pairs, and
alternatives with a tag: the shapes that `bincode` has with its default configuration, where
numbers are little-endian, a length has eight bytes and a tag has four.  A `reader` that fails says
how; what a number of bytes cannot hold is not writable, so that the first law speaks of the
values that fit.
-/

namespace NeroConsensus

universe u

/-- How values are written, and read from the front of some bytes. -/
structure Codec (ε : Type u) (α : Type) where
  write : α → List UInt8
  read : List UInt8 → Except ε (α × List UInt8)

namespace Codec

variable {ε : Type u} {α β : Type}

/-- What has been written is read back, and the rest is left. -/
def Reads (c : Codec ε α) (fits : α → Prop) : Prop :=
  ∀ a, fits a → ∀ rest, c.read (c.write a ++ rest) = .ok (a, rest)

/-- What is read does not depend on what follows. -/
def Local (c : Codec ε α) : Prop :=
  ∀ bytes a rest, c.read bytes = .ok (a, rest) →
    ∀ more, c.read (bytes ++ more) = .ok (a, rest ++ more)

/-- What is read is of this kind, wherever the bytes are from. -/
def Yields (c : Codec ε α) (fits : α → Prop) : Prop :=
  ∀ bytes a rest, c.read bytes = .ok (a, rest) → fits a

variable {c : Codec ε α} {fits : α → Prop}

theorem Reads.mono {fits' : α → Prop} (h : c.Reads fits) (hsub : ∀ a, fits' a → fits a) :
    c.Reads fits' :=
  fun a ha => h a (hsub a ha)

theorem yields_true (c : Codec ε α) : c.Yields fun _ => True :=
  fun _ _ _ _ => trivial

theorem Yields.mono {fits' : α → Prop} (h : c.Yields fits) (hsub : ∀ a, fits a → fits' a) :
    c.Yields fits' :=
  fun bs a rest hread => hsub a (h bs a rest hread)

/-- **A piece of an encoding is not read as anything.** -/
theorem Reads.not_read_of_piece (h : c.Reads fits) (hlocal : c.Local) {a : α} (ha : fits a)
    {bytes : List UInt8} (hpiece : bytes <+: c.write a) (hne : bytes ≠ c.write a) (b : α)
    (rest : List UInt8) : c.read bytes ≠ .ok (b, rest) := by
  obtain ⟨more, hmore⟩ := hpiece
  intro hread
  have hall := hlocal bytes b rest hread more
  rw [hmore, ← List.append_nil (c.write a), h a ha []] at hall
  -- nothing is left, so nothing was missing
  have hnil : rest ++ more = [] := (Prod.mk.inj (Except.ok.inj hall)).2.symm
  rw [(List.append_eq_nil_iff.mp hnil).2, List.append_nil] at hmore
  exact hne hmore

/-! ## Bytes and numbers -/

section Numbers

variable (eof : ε)

/-- A number of bytes, as they are. -/
def bytes (n : ℕ) : Codec ε (List UInt8) where
  write bs := bs
  read bs := if n ≤ bs.length then .ok (bs.take n, bs.drop n) else .error eof

theorem bytes_reads (n : ℕ) : (bytes eof n).Reads fun bs => bs.length = n := by
  rintro bs rfl rest
  show (if bs.length ≤ (bs ++ rest).length then _ else _) = _
  rw [if_pos (by simp)]
  show Except.ok ((bs ++ rest).take bs.length, (bs ++ rest).drop bs.length) = _
  rw [List.take_left, List.drop_left]

theorem bytes_local (n : ℕ) : (bytes eof n).Local := by
  intro bs a rest h more
  have h' : (if n ≤ bs.length then Except.ok (bs.take n, bs.drop n) else .error eof) =
      .ok (a, rest) := h
  split_ifs at h' with hn
  obtain ⟨rfl, rfl⟩ := Prod.mk.inj (Except.ok.inj h')
  show (if n ≤ (bs ++ more).length then _ else _) = _
  rw [if_pos (hn.trans (by simp)), List.take_append_of_le_length hn,
    List.drop_append_of_le_length hn]

theorem bytes_yields (n : ℕ) : (bytes eof n).Yields fun bs => bs.length = n := by
  intro bs a rest h
  have h' : (if n ≤ bs.length then Except.ok (bs.take n, bs.drop n) else .error eof) =
      .ok (a, rest) := h
  split_ifs at h' with hn
  obtain ⟨rfl, -⟩ := Prod.mk.inj (Except.ok.inj h')
  exact List.length_take_of_le hn

/-- The digits of a number to the base 256, the lowest first. -/
def digits : ℕ → ℕ → List UInt8
  | 0, _ => []
  | n + 1, k => UInt8.ofNat k :: digits n (k / 256)

/-- The number with these digits. -/
def ofDigits : List UInt8 → ℕ
  | [] => 0
  | b :: bs => b.toNat + 256 * ofDigits bs

@[simp] theorem length_digits (n k : ℕ) : (digits n k).length = n := by
  induction n generalizing k with
  | zero => rfl
  | succ n ih => rw [digits, List.length_cons, ih]

theorem ofDigits_digits {n k : ℕ} (hk : k < 256 ^ n) : ofDigits (digits n k) = k := by
  induction n generalizing k with
  | zero =>
    rw [pow_zero, Nat.lt_one_iff] at hk
    rw [hk, digits, ofDigits]
  | succ n ih =>
    have hdiv : k / 256 < 256 ^ n := by
      rw [pow_succ] at hk
      omega
    rw [digits, ofDigits, ih hdiv]
    show k % 256 + 256 * (k / 256) = k
    omega

theorem ofDigits_lt (ds : List UInt8) : ofDigits ds < 256 ^ ds.length := by
  induction ds with
  | nil => exact Nat.one_pos
  | cons d ds ih =>
    have hd := d.toNat_lt
    rw [ofDigits, List.length_cons, pow_succ]
    omega

end Numbers

/-! ## Values made of others -/

/-- Some values of another type, by values of this one: what has been read is converted, which may
fail. -/
def narrow (c : Codec ε α) (f : α → Except ε β) (g : β → Option α) : Codec ε β where
  write b := (g b).elim [] c.write
  read bs := do
    let (a, rest) ← c.read bs
    let b ← f a
    .ok (b, rest)

theorem narrow_reads (h : c.Reads fits) {f : α → Except ε β} {g : β → Option α} {fits' : β → Prop}
    (hfg : ∀ b, fits' b → ∃ a, g b = some a ∧ fits a ∧ f a = .ok b) :
    (c.narrow f g).Reads fits' := by
  intro b hb rest
  obtain ⟨a, hg, ha, hf⟩ := hfg b hb
  show (c.read ((g b).elim [] c.write ++ rest) >>= fun p => f p.1 >>= fun b => .ok (b, p.2)) = _
  rw [hg, Option.elim_some, h a ha rest]
  show (f a >>= fun b => .ok (b, rest)) = _
  rw [hf]
  rfl

/-- What has been read, has been read by the parts. -/
theorem bind_eq_ok {x : Except ε α} {f : α → Except ε β} {b : β} :
    x >>= f = .ok b ↔ ∃ a, x = .ok a ∧ f a = .ok b := by
  cases x with
  | error e => exact ⟨nofun, fun ⟨_, h, _⟩ => nomatch h⟩
  | ok a => exact ⟨fun h => ⟨a, rfl, h⟩, fun ⟨_, ha, h⟩ => Except.ok.inj ha ▸ h⟩

theorem narrow_local (h : c.Local) (f : α → Except ε β) (g : β → Option α) :
    (c.narrow f g).Local := by
  intro bs b rest hread more
  obtain ⟨⟨a, rest'⟩, ha, hrest⟩ := bind_eq_ok.mp hread
  obtain ⟨b', hb', heq⟩ := bind_eq_ok.mp hrest
  obtain ⟨rfl, rfl⟩ := Prod.mk.inj (Except.ok.inj heq)
  exact bind_eq_ok.mpr ⟨_, h bs a rest' ha more, bind_eq_ok.mpr ⟨b', hb', rfl⟩⟩

theorem narrow_yields (h : c.Yields fits) {f : α → Except ε β} (g : β → Option α)
    {fits' : β → Prop} (hf : ∀ a b, fits a → f a = .ok b → fits' b) :
    (c.narrow f g).Yields fits' := by
  intro bs b rest hread
  obtain ⟨⟨a, rest'⟩, ha, hrest⟩ := bind_eq_ok.mp hread
  obtain ⟨b', hb', heq⟩ := bind_eq_ok.mp hrest
  obtain ⟨rfl, rfl⟩ := Prod.mk.inj (Except.ok.inj heq)
  exact hf a b' (h bs a rest' ha) hb'

/-- A part of the value comes first, and says how to go on. -/
def andThen (c : Codec ε α) (part : β → α) (d : α → Codec ε β) : Codec ε β where
  write b := c.write (part b) ++ (d (part b)).write b
  read bs := do
    let (a, rest) ← c.read bs
    (d a).read rest

variable {part : β → α} {d : α → Codec ε β}

theorem andThen_reads (h : c.Reads fits) {fits' : β → Prop}
    (hd : ∀ a, (d a).Reads fun b => fits' b ∧ part b = a) (hpart : ∀ b, fits' b → fits (part b)) :
    (c.andThen part d).Reads fits' := by
  intro b hb rest
  show (c.read (c.write (part b) ++ (d (part b)).write b ++ rest) >>= fun p => (d p.1).read p.2) = _
  rw [List.append_assoc, h (part b) (hpart b hb)]
  exact hd (part b) b ⟨hb, rfl⟩ rest

theorem andThen_local (h : c.Local) (hd : ∀ a, (d a).Local) : (c.andThen part d).Local := by
  intro bs b rest hread more
  obtain ⟨⟨a, rest'⟩, ha, hrest⟩ := bind_eq_ok.mp hread
  exact bind_eq_ok.mpr ⟨_, h bs a rest' ha more, hd a rest' b rest hrest more⟩

theorem andThen_yields (h : c.Yields fits) {fits' : β → Prop}
    (hd : ∀ a, fits a → (d a).Yields fits') : (c.andThen part d).Yields fits' := by
  intro bs b rest hread
  obtain ⟨⟨a, rest'⟩, ha, hrest⟩ := bind_eq_ok.mp hread
  exact hd a (h bs a rest' ha) rest' b rest hrest

/-- Nothing is written. -/
def pure (b : β) : Codec ε β where
  write _ := []
  read bs := .ok (b, bs)

theorem pure_reads (b : β) : (pure b : Codec ε β).Reads fun b' => b' = b := by
  rintro b' rfl rest
  rfl

theorem pure_local (b : β) : (pure b : Codec ε β).Local := by
  intro bs b' rest h more
  obtain ⟨rfl, rfl⟩ := Prod.mk.inj (Except.ok.inj h)
  rfl

theorem pure_yields (b : β) : (pure b : Codec ε β).Yields fun b' => b' = b := by
  intro bs b' rest h
  exact (Prod.mk.inj (Except.ok.inj h)).1.symm

/-- Nothing can be read. -/
def fail (e : ε) : Codec ε β where
  write _ := []
  read _ := .error e

theorem fail_local (e : ε) : (fail e : Codec ε β).Local := nofun

theorem fail_yields (e : ε) (fits : β → Prop) : (fail e : Codec ε β).Yields fits := nofun

/-- One value after another. -/
def pair (c : Codec ε α) (d : Codec ε β) : Codec ε (α × β) :=
  c.andThen Prod.fst fun a => d.narrow (fun b => .ok (a, b)) fun p => some p.2

theorem pair_reads (h : c.Reads fits) {d : Codec ε β} {fits' : β → Prop} (hd : d.Reads fits') :
    (c.pair d).Reads fun p => fits p.1 ∧ fits' p.2 := by
  refine andThen_reads h (fun a => narrow_reads hd ?_) fun p hp => hp.1
  rintro ⟨a', b⟩ ⟨⟨-, hb⟩, rfl⟩
  exact ⟨b, rfl, hb, rfl⟩

theorem pair_local (h : c.Local) {d : Codec ε β} (hd : d.Local) : (c.pair d).Local :=
  andThen_local h fun _ => narrow_local hd _ _

theorem pair_yields (h : c.Yields fits) {d : Codec ε β} {fits' : β → Prop} (hd : d.Yields fits') :
    (c.pair d).Yields fun p => fits p.1 ∧ fits' p.2 := by
  refine andThen_yields h fun a ha => narrow_yields hd _ fun b p hb hp => ?_
  obtain rfl := Except.ok.inj hp
  exact ⟨ha, hb⟩

/-- Reads a number of values. -/
def readMany (c : Codec ε α) : ℕ → List UInt8 → Except ε (List α × List UInt8)
  | 0, bs => .ok ([], bs)
  | n + 1, bs => do
    let (a, rest) ← c.read bs
    let (as, rest) ← c.readMany n rest
    .ok (a :: as, rest)

/-- A number of values, one after another. -/
def replicate (c : Codec ε α) (n : ℕ) : Codec ε (List α) where
  write as := as.flatMap c.write
  read := c.readMany n

theorem replicate_reads (h : c.Reads fits) (n : ℕ) :
    (c.replicate n).Reads fun as => as.length = n ∧ ∀ a ∈ as, fits a := by
  rintro as ⟨rfl, has⟩ rest
  show c.readMany as.length (as.flatMap c.write ++ rest) = _
  induction as with
  | nil => rfl
  | cons a as ih =>
    have ha := h a (has a List.mem_cons_self) (as.flatMap c.write ++ rest)
    rw [List.flatMap_cons, List.append_assoc, List.length_cons, readMany]
    refine bind_eq_ok.mpr ⟨_, ha, bind_eq_ok.mpr ⟨_, ih fun b hb => ?_, rfl⟩⟩
    exact has b (List.mem_cons_of_mem a hb)

theorem replicate_local (h : c.Local) (n : ℕ) : (c.replicate n).Local := by
  induction n with
  | zero =>
    intro bs as rest hread more
    obtain ⟨rfl, rfl⟩ := Prod.mk.inj (Except.ok.inj hread)
    rfl
  | succ n ih =>
    intro bs as rest hread more
    obtain ⟨⟨a, rest₁⟩, ha, hread⟩ := bind_eq_ok.mp hread
    obtain ⟨⟨as', rest₂⟩, has, heq⟩ := bind_eq_ok.mp hread
    obtain ⟨rfl, rfl⟩ := Prod.mk.inj (Except.ok.inj heq)
    exact bind_eq_ok.mpr ⟨_, h bs a rest₁ ha more,
      bind_eq_ok.mpr ⟨_, ih rest₁ as' rest₂ has more, rfl⟩⟩

theorem replicate_yields (h : c.Yields fits) (n : ℕ) :
    (c.replicate n).Yields fun as => as.length = n ∧ ∀ a ∈ as, fits a := by
  induction n with
  | zero =>
    intro bs as rest hread
    obtain ⟨rfl, -⟩ := Prod.mk.inj (Except.ok.inj hread)
    exact ⟨rfl, List.forall_mem_nil _⟩
  | succ n ih =>
    intro bs as rest hread
    obtain ⟨⟨a, rest₁⟩, ha, hread⟩ := bind_eq_ok.mp hread
    obtain ⟨⟨as', rest₂⟩, has, heq⟩ := bind_eq_ok.mp hread
    obtain ⟨rfl, rfl⟩ := Prod.mk.inj (Except.ok.inj heq)
    obtain ⟨hlength, hall⟩ := ih rest₁ as' rest₂ has
    exact ⟨congrArg Nat.succ hlength, List.forall_mem_cons.mpr ⟨h bs a rest₁ ha, hall⟩⟩

/-! ## The shapes of `bincode` -/

section Shapes

variable (eof invalid : ε)

/-- A number in `n` bytes. -/
def nat (n : ℕ) : Codec ε ℕ :=
  (bytes eof n).narrow (fun ds => .ok (ofDigits ds)) fun k => some (digits n k)

theorem nat_reads (n : ℕ) : (nat eof n).Reads fun k => k < 256 ^ n :=
  narrow_reads (bytes_reads eof n) fun k hk =>
    ⟨digits n k, rfl, length_digits n k, congrArg Except.ok (ofDigits_digits hk)⟩

theorem nat_local (n : ℕ) : (nat eof n).Local :=
  narrow_local (bytes_local eof n) _ _

theorem nat_yields (n : ℕ) : (nat eof n).Yields fun k => k < 256 ^ n := by
  refine narrow_yields (bytes_yields eof n) _ fun ds k hds hk => ?_
  obtain rfl := Except.ok.inj hk
  rw [← hds]
  exact ofDigits_lt ds

/-- An alternative without fields, by its tag. -/
def enum [DecidableEq β] (values : List β) : Codec ε β :=
  (nat eof 4).narrow (fun i => (values[i]?).elim (.error invalid) .ok) fun b =>
    some (values.idxOf b)

theorem enum_reads [DecidableEq β] {values : List β} (hlength : values.length < 256 ^ 4) :
    (enum eof invalid values).Reads fun b => b ∈ values := by
  refine narrow_reads (nat_reads eof 4) fun b hb => ⟨values.idxOf b, rfl, ?_, ?_⟩
  · exact (List.idxOf_lt_length_of_mem hb).trans hlength
  · rw [List.getElem?_idxOf hb]
    rfl

theorem enum_local [DecidableEq β] (values : List β) : (enum eof invalid values).Local :=
  narrow_local (nat_local eof 4) _ _

/-- A length in eight bytes, and the values. -/
def list (c : Codec ε α) : Codec ε (List α) :=
  (nat eof 8).andThen List.length c.replicate

theorem list_reads (h : c.Reads fits) :
    (c.list eof).Reads fun as => as.length < 256 ^ 8 ∧ ∀ a ∈ as, fits a := by
  refine andThen_reads (nat_reads eof 8) (fun n => ?_) fun as has => has.1
  exact (replicate_reads h n).mono fun as has => ⟨has.2, has.1.2⟩

theorem list_local (h : c.Local) : (c.list eof).Local :=
  andThen_local (nat_local eof 8) (replicate_local h)

theorem list_yields (h : c.Yields fits) :
    (c.list eof).Yields fun as => as.length < 256 ^ 8 ∧ ∀ a ∈ as, fits a :=
  andThen_yields (nat_yields eof 8) fun n hn => (replicate_yields h n).mono fun _ has =>
    ⟨has.1.trans_lt hn, has.2⟩

/-- The elements of a set in their order.  This is `Finset.sort`, by a recursion that evaluates. -/
def ordered [LinearOrder α] (s : Finset α) : List α :=
  Quot.liftOn s.val (List.insertionSort (· ≤ ·)) fun l l' h =>
    List.Perm.eq_of_pairwise' (List.pairwise_insertionSort _ l)
      (List.pairwise_insertionSort _ l')
      ((List.perm_insertionSort _ l).trans (h.trans (List.perm_insertionSort _ l').symm))

theorem ordered_eq_sort [LinearOrder α] (s : Finset α) : ordered s = s.sort (· ≤ ·) := by
  obtain ⟨m, hm⟩ := s
  induction m using Quot.inductionOn with
  | h l => exact (List.mergeSort_eq_insertionSort _ l).symm

/-- A set, as the list of its elements in their order. -/
def set [LinearOrder α] (c : Codec ε α) : Codec ε (Finset α) :=
  (c.list eof).narrow (fun as => .ok as.toFinset) fun s => some (ordered s)

theorem set_reads [LinearOrder α] (h : c.Reads fits) :
    (c.set eof).Reads fun s => s.card < 256 ^ 8 ∧ ∀ a ∈ s, fits a := by
  refine narrow_reads (list_reads eof h) fun s hs => ⟨_, rfl, ?_⟩
  rw [ordered_eq_sort]
  refine ⟨⟨?_, fun a ha => hs.2 a ((Finset.mem_sort _).mp ha)⟩, ?_⟩
  · rw [Finset.length_sort]
    exact hs.1
  · rw [Finset.sort_toFinset]

theorem set_local [LinearOrder α] (h : c.Local) : (c.set eof).Local :=
  narrow_local (list_local eof h) _ _

theorem set_yields [LinearOrder α] (h : c.Yields fits) :
    (c.set eof).Yields fun s => s.card < 256 ^ 8 ∧ ∀ a ∈ s, fits a := by
  refine narrow_yields (list_yields eof h) _ fun as s has hs => ?_
  obtain rfl := Except.ok.inj hs
  exact ⟨as.toFinset_card_le.trans_lt has.1, fun a ha => has.2 a (List.mem_toFinset.mp ha)⟩

/-- A byte that says whether there is a value, and the value. -/
def option (c : Codec ε α) : Codec ε (Option α) :=
  (nat eof 1).andThen (fun o => if o.isSome then 1 else 0) fun
    | 0 => pure none
    | 1 => c.narrow (fun a => .ok (some a)) id
    | _ => fail invalid

theorem option_reads (h : c.Reads fits) :
    (c.option eof invalid).Reads fun o => ∀ a ∈ o, fits a := by
  refine andThen_reads (nat_reads eof 1) (fun tag => ?_) fun o _ => ?_
  · match tag with
    | 0 =>
      refine (pure_reads none).mono fun o ho => ?_
      cases o with
      | none => rfl
      | some a => exact absurd ho.2 (by simp)
    | 1 =>
      refine narrow_reads h fun o ho => ?_
      cases o with
      | none => exact absurd ho.2 (by simp)
      | some a => exact ⟨a, rfl, ho.1 a rfl, rfl⟩
    | n + 2 =>
      intro o ho
      have htag := ho.2
      split_ifs at htag
      omega
  · split_ifs
    · decide
    · decide

theorem option_local (h : c.Local) : (c.option eof invalid).Local := by
  refine andThen_local (nat_local eof 1) fun tag => ?_
  match tag with
  | 0 => exact pure_local none
  | 1 => exact narrow_local h _ _
  | n + 2 => exact fail_local invalid

theorem option_yields (h : c.Yields fits) :
    (c.option eof invalid).Yields fun o => ∀ a ∈ o, fits a := by
  refine andThen_yields (nat_yields eof 1) fun tag _ => ?_
  match tag with
  | 0 =>
    refine (pure_yields none).mono fun o ho a ha => ?_
    rw [ho] at ha
    exact nomatch ha
  | 1 =>
    refine narrow_yields h _ fun a o ha ho => ?_
    obtain rfl := Except.ok.inj ho
    rintro b ⟨⟩
    exact ha
  | n + 2 => exact fail_yields invalid _

end Shapes

end Codec
end NeroConsensus
