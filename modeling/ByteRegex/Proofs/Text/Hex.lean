import ByteRegex.Text.Hex
import Mathlib.Data.List.Basic

/-!
# Reading base 16

What is written in base 16 is read back as the number it was, however many zeros stand in front.
-/

namespace ByteRegex.Text

def hexDigits : List Char :=
  ['0', '1', '2', '3', '4', '5', '6', '7', '8', '9', 'a', 'b', 'c', 'd', 'e', 'f']

def hexValue (digits : List Char) : Nat :=
  digits.foldl (fun n c => 16 * n + hexDigits.idxOf c) 0

theorem hexValue_concat (digits : List Char) (c : Char) :
    hexValue (digits ++ [c]) = 16 * hexValue digits + hexDigits.idxOf c := by
  rw [hexValue, List.foldl_append]
  rfl

theorem digitChar_mem_hexDigits {d : Nat} (h : d < 16) :
    d.digitChar ∈ hexDigits ∧ hexDigits.idxOf d.digitChar = d := by
  revert d
  decide

theorem mem_toDigits {n : Nat} {c : Char} (h : c ∈ Nat.toDigits 16 n) : c ∈ hexDigits := by
  induction n using Nat.strongRecOn with
  | ind n ih =>
    rcases Nat.lt_or_ge n 16 with hn | hn
    · rw [Nat.toDigits_of_lt_base hn, List.mem_singleton] at h
      exact h ▸ (digitChar_mem_hexDigits hn).1
    · rw [Nat.toDigits_of_base_le (by decide) hn, List.mem_append, List.mem_singleton] at h
      rcases h with h | rfl
      · exact ih (n / 16) (by omega) h
      · exact (digitChar_mem_hexDigits (Nat.mod_lt n (by decide))).1

theorem hexValue_toDigits (n : Nat) : hexValue (Nat.toDigits 16 n) = n := by
  induction n using Nat.strongRecOn with
  | ind n ih =>
    rcases Nat.lt_or_ge n 16 with hn | hn
    · rw [Nat.toDigits_of_lt_base hn]
      exact (Nat.zero_add _).trans (digitChar_mem_hexDigits hn).2
    · rw [Nat.toDigits_of_base_le (by decide) hn, hexValue_concat, ih (n / 16) (by omega),
        (digitChar_mem_hexDigits (Nat.mod_lt n (by decide))).2]
      exact Nat.div_add_mod n 16

theorem hexValue_zeros (count : Nat) (digits : List Char) :
    hexValue (List.replicate count '0' ++ digits) = hexValue digits := by
  induction count with
  | zero => rfl
  | succ count ih => exact ih

theorem toList_hex (width n : Nat) :
    (hex width n).toList =
      List.replicate (width - (Nat.toDigits 16 n).length) '0' ++ Nat.toDigits 16 n :=
  String.toList_ofList

theorem mem_hex {width n : Nat} {c : Char} (h : c ∈ (hex width n).toList) : c ∈ hexDigits := by
  rw [toList_hex, List.mem_append] at h
  rcases h with h | h
  · rw [List.eq_of_mem_replicate h]
    decide
  · exact mem_toDigits h

theorem hexValue_hex (width n : Nat) : hexValue (hex width n).toList = n := by
  rw [toList_hex, hexValue_zeros, hexValue_toDigits]

theorem toList_hexByte (b : UInt8) : (hexByte b).toList = '0' :: 'x' :: (hex 2 b.toNat).toList :=
  String.toList_append

theorem mem_hexByte {b : UInt8} {c : Char} (h : c ∈ (hexByte b).toList) :
    c = 'x' ∨ c ∈ hexDigits := by
  rw [toList_hexByte, List.mem_cons, List.mem_cons] at h
  rcases h with rfl | rfl | h
  · exact Or.inr List.mem_cons_self
  · exact Or.inl rfl
  · exact Or.inr (mem_hex h)

theorem hexByte_injective {b c : UInt8} (h : (hexByte b).toList = (hexByte c).toList) : b = c := by
  rw [toList_hexByte, toList_hexByte, List.cons.injEq, List.cons.injEq] at h
  have hvalue := congrArg hexValue h.2.2
  rw [hexValue_hex, hexValue_hex] at hvalue
  exact UInt8.toNat_inj.mp hvalue

end ByteRegex.Text
