import Mathlib.Data.List.Basic
import Mathlib.Tactic.Common

/-!
# Base64

The standard alphabet with padding: three bytes are four digits of six bits, and a last group of
one or two bytes is filled up with zero bits and with the character `=`.

`decode` takes the last group with the padding or without it, and with a part of it: it wants the
padding at the end, two digits at least in the last group, and the bits that are filled up zero.
`decode_encode` is that nothing is lost, and `mem_encode` says which characters there are.
-/

namespace NeroConsensus
namespace Base64

/-! ## Digits -/

def alphabet : List Char :=
  "ABCDEFGHIJKLMNOPQRSTUVWXYZabcdefghijklmnopqrstuvwxyz0123456789+/".toList

/-- The digit for six bits. -/
def digit (n : ℕ) : Char :=
  alphabet.getD n '='

/-- The six bits of a digit. -/
def value (c : Char) : Option ℕ :=
  if alphabet.idxOf c < 64 then some (alphabet.idxOf c) else none

theorem value_digit : ∀ {n : ℕ}, n < 64 → value (digit n) = some n := by
  decide +kernel

theorem digit_mem (n : ℕ) : digit n ∈ '=' :: alphabet := by
  rw [digit, List.getD_eq_getElem?_getD]
  cases hn : alphabet[n]? with
  | none => exact List.mem_cons_self
  | some c => exact List.mem_cons_of_mem _ (List.mem_of_getElem? hn)

theorem digit_ne_pad : ∀ {n : ℕ}, n < 64 → digit n ≠ '=' := by
  decide +kernel

/-! ## Groups -/

/-- Three bytes, or the one or two that are left. -/
def encode : List UInt8 → List Char
  | [] => []
  | [a] => [digit (a.toNat / 4), digit (a.toNat % 4 * 16), '=', '=']
  | [a, b] =>
    [digit (a.toNat / 4), digit (a.toNat % 4 * 16 + b.toNat / 16), digit (b.toNat % 16 * 4), '=']
  | a :: b :: c :: rest =>
    digit (a.toNat / 4) :: digit (a.toNat % 4 * 16 + b.toNat / 16) ::
      digit (b.toNat % 16 * 4 + c.toNat / 64) :: digit (c.toNat % 64) :: encode rest

theorem length_encode_le (bytes : List UInt8) : (encode bytes).length ≤ 4 * bytes.length := by
  fun_induction encode bytes with
  | case1 => exact Nat.le_refl _
  | case2 a => exact Nat.le_refl _
  | case3 a b => exact Nat.le_add_right 4 4
  | case4 a b c rest ih =>
    rw [List.length_cons, List.length_cons, List.length_cons, List.length_cons, List.length_cons,
      List.length_cons, List.length_cons]
    omega

/-- Four characters: three bytes, or fewer where there is padding. -/
def decodeGroup (w x y z : Char) : Option (List UInt8) := do
  let w ← value w
  let x ← value x
  if y = '=' ∧ z = '=' then
    if x % 16 = 0 then some [UInt8.ofNat (w * 4 + x / 16)] else none
  else
    let y ← value y
    if z = '=' then
      if y % 4 = 0 then
        some [UInt8.ofNat (w * 4 + x / 16), UInt8.ofNat (x % 16 * 16 + y / 4)]
      else none
    else
      let z ← value z
      some [UInt8.ofNat (w * 4 + x / 16), UInt8.ofNat (x % 16 * 16 + y / 4),
        UInt8.ofNat (y % 4 * 64 + z)]

/-- Only the last group may be padded, and it need not be. -/
def decode : List Char → Option (List UInt8)
  | [] => some []
  | [_] => none
  | [w, x] => decodeGroup w x '=' '='
  | [w, x, y] => decodeGroup w x y '='
  | w :: x :: y :: z :: rest => do
    let bytes ← decodeGroup w x y z
    if rest = [] then some bytes
    else if bytes.length = 3 then (decode rest).map (bytes ++ ·) else none

/-! ## Round trip -/

theorem decodeGroup_one (a : UInt8) :
    decodeGroup (digit (a.toNat / 4)) (digit (a.toNat % 4 * 16)) '=' '=' = some [a] := by
  have ha := a.toNat_lt
  unfold decodeGroup
  rw [value_digit (by omega), value_digit (by omega)]
  have hbyte : a.toNat / 4 * 4 + a.toNat % 4 * 16 / 16 = a.toNat := by omega
  simp only [Option.bind_eq_bind, Option.bind_some, and_self, if_true, hbyte, UInt8.ofNat_toNat]
  rw [if_pos (by omega)]

theorem decodeGroup_two (a b : UInt8) :
    decodeGroup (digit (a.toNat / 4)) (digit (a.toNat % 4 * 16 + b.toNat / 16))
      (digit (b.toNat % 16 * 4)) '=' = some [a, b] := by
  have ha := a.toNat_lt
  have hb := b.toNat_lt
  unfold decodeGroup
  rw [value_digit (by omega), value_digit (by omega), value_digit (by omega)]
  have hpad : digit (b.toNat % 16 * 4) ≠ '=' := digit_ne_pad (by omega)
  have hfirst : a.toNat / 4 * 4 + (a.toNat % 4 * 16 + b.toNat / 16) / 16 = a.toNat := by omega
  have hsecond : (a.toNat % 4 * 16 + b.toNat / 16) % 16 * 16 + b.toNat % 16 * 4 / 4 =
      b.toNat := by omega
  simp only [Option.bind_eq_bind, Option.bind_some, hpad, false_and, if_false, if_true, hfirst,
    hsecond, UInt8.ofNat_toNat]
  rw [if_pos (by omega)]

theorem decodeGroup_three (a b c : UInt8) :
    decodeGroup (digit (a.toNat / 4)) (digit (a.toNat % 4 * 16 + b.toNat / 16))
      (digit (b.toNat % 16 * 4 + c.toNat / 64)) (digit (c.toNat % 64)) = some [a, b, c] := by
  have ha := a.toNat_lt
  have hb := b.toNat_lt
  have hc := c.toNat_lt
  unfold decodeGroup
  rw [value_digit (by omega), value_digit (by omega), value_digit (by omega),
    value_digit (by omega)]
  have hpad : digit (b.toNat % 16 * 4 + c.toNat / 64) ≠ '=' := digit_ne_pad (by omega)
  have hpad' : digit (c.toNat % 64) ≠ '=' := digit_ne_pad (by omega)
  have hfirst : a.toNat / 4 * 4 + (a.toNat % 4 * 16 + b.toNat / 16) / 16 = a.toNat := by omega
  have hsecond : (a.toNat % 4 * 16 + b.toNat / 16) % 16 * 16 +
      (b.toNat % 16 * 4 + c.toNat / 64) / 4 = b.toNat := by omega
  have hthird : (b.toNat % 16 * 4 + c.toNat / 64) % 4 * 64 + c.toNat % 64 = c.toNat := by omega
  simp only [Option.bind_eq_bind, Option.bind_some, hpad, hpad', false_and, if_false, hfirst,
    hsecond, hthird, UInt8.ofNat_toNat]

/-- A group that is not padded, and what follows. -/
theorem decode_cons {w x y z : Char} {rest : List Char} {bytes bytes' : List UInt8}
    (hgroup : decodeGroup w x y z = some bytes) (hlength : bytes.length = 3)
    (hrest : decode rest = some bytes') :
    decode (w :: x :: y :: z :: rest) = some (bytes ++ bytes') := by
  rw [decode, hgroup, Option.bind_eq_bind, Option.bind_some]
  split_ifs with hnil
  · rw [hnil, decode] at hrest
    rw [← Option.some.inj hrest, List.append_nil]
  · rw [hrest, Option.map_some]

/-- **Nothing is lost.** -/
theorem decode_encode (bytes : List UInt8) : decode (encode bytes) = some bytes := by
  induction bytes using encode.induct with
  | case1 => rfl
  | case2 a =>
    rw [encode, decode, decodeGroup_one]
    rfl
  | case3 a b =>
    rw [encode, decode, decodeGroup_two]
    rfl
  | case4 a b c rest ih =>
    rw [encode]
    exact decode_cons (decodeGroup_three a b c) rfl ih

example : decode "AQI=".toList = some [1, 2] ∧ decode "AQI".toList = some [1, 2] ∧
    decode "AQ=".toList = some [1] ∧ decode "AQIDB".toList = none := by
  decide +kernel

/-- The characters of an encoding. -/
theorem mem_encode {c : Char} {bytes : List UInt8} (h : c ∈ encode bytes) :
    c ∈ '=' :: alphabet := by
  have hpad : '=' ∈ '=' :: alphabet := List.mem_cons_self
  induction bytes using encode.induct with
  | case1 => cases h
  | case2 a =>
    simp only [encode, List.mem_cons, List.not_mem_nil, or_false] at h
    rcases h with rfl | rfl | rfl | rfl
    · exact digit_mem _
    · exact digit_mem _
    · exact hpad
    · exact hpad
  | case3 a b =>
    simp only [encode, List.mem_cons, List.not_mem_nil, or_false] at h
    rcases h with rfl | rfl | rfl | rfl
    · exact digit_mem _
    · exact digit_mem _
    · exact digit_mem _
    · exact hpad
  | case4 a b c rest ih =>
    simp only [encode, List.mem_cons] at h
    rcases h with rfl | rfl | rfl | rfl | hrest
    · exact digit_mem _
    · exact digit_mem _
    · exact digit_mem _
    · exact digit_mem _
    · exact ih hrest

end Base64
end NeroConsensus
