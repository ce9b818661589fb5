import ByteRegex.Proofs.Text.Hex
import Mathlib

/-!
# Taking texts apart

A text that was put together from parts can be taken apart again, as long as every part is followed
by a character that it could not hold. Numbers hold nothing but digits, so that whatever follows
them will do.
-/

namespace ByteRegex.Text

section Parts

variable {a a' b b' : List Char}

/-- A part of characters of one kind ends where another kind of character follows, or none. -/
theorem append_inj_of_forall {P : Char → Prop} (ha : ∀ c ∈ a, P c) (ha' : ∀ c ∈ a', P c)
    (hb : ∀ c ∈ b.head?, ¬P c) (hb' : ∀ c ∈ b'.head?, ¬P c) (h : a ++ b = a' ++ b') :
    a = a' ∧ b = b' := by
  induction a generalizing a' with
  | nil =>
    cases a' with
    | nil => exact ⟨rfl, h⟩
    | cons c a' =>
      obtain rfl : b = c :: (a' ++ b') := h
      exact absurd (ha' c List.mem_cons_self) (hb c rfl)
  | cons c a ih =>
    cases a' with
    | nil =>
      obtain rfl : c :: (a ++ b) = b' := h
      exact absurd (ha c List.mem_cons_self) (hb' c rfl)
    | cons c' a' =>
      obtain ⟨rfl, hrest⟩ := List.cons.inj h
      obtain ⟨rfl, rfl⟩ := ih (fun x hx => ha x (List.mem_cons_of_mem c hx))
        (fun x hx => ha' x (List.mem_cons_of_mem c hx)) hrest
      exact ⟨rfl, rfl⟩

theorem not_of_mem_head?_cons {P : Char → Prop} {c : Char} (hc : ¬P c) :
    ∀ x ∈ (c :: b).head?, ¬P x := by
  rintro x ⟨⟩
  exact hc

/-- A part ends at the first `c` if it holds none. -/
theorem append_cons_inj {c : Char} (ha : c ∉ a) (ha' : c ∉ a') (h : a ++ c :: b = a' ++ c :: b') :
    a = a' ∧ b = b' := by
  have hne : ¬c ≠ c := not_not_intro rfl
  obtain ⟨rfl, hrest⟩ := append_inj_of_forall (P := (· ≠ c)) (fun x hx hxc => ha (hxc ▸ hx))
    (fun x hx hxc => ha' (hxc ▸ hx)) (not_of_mem_head?_cons hne) (not_of_mem_head?_cons hne) h
  exact ⟨rfl, (List.cons.inj hrest).2⟩

theorem not_mem_intercalate {c : Char} {separator : List Char} {parts : List (List Char)}
    (hseparator : c ∉ separator) (h : ∀ part ∈ parts, c ∉ part) :
    c ∉ separator.intercalate parts := by
  induction parts with
  | nil => exact List.not_mem_nil
  | cons part parts ih =>
    have hrest := ih fun other hother => h other (List.mem_cons_of_mem part hother)
    have hpart := h part List.mem_cons_self
    cases parts with
    | nil => rwa [List.intercalate_singleton]
    | cons next parts =>
      rw [List.intercalate_cons_cons, List.mem_append, List.mem_append]
      exact not_or.mpr ⟨not_or.mpr ⟨hpart, hseparator⟩, hrest⟩

end Parts

/-! ## Numbers -/

theorem not_mem_toString {c : Char} (h : c.isDigit = false) (n : Nat) :
    c ∉ (toString n).toList := by
  intro hc
  rw [Nat.toString_eq_ofList_toDigits, String.toList_ofList] at hc
  rw [Nat.isDigit_of_mem_toDigits (by decide) (by decide) hc] at h
  cases h

/-- A number ends where another character than a digit follows. -/
theorem toString_append_cons_inj {c : Char} (hc : c.isDigit = false) {m n : Nat} {b b' : List Char}
    (h : (toString m).toList ++ c :: b = (toString n).toList ++ c :: b') : m = n ∧ b = b' := by
  obtain ⟨hnumber, hrest⟩ := append_cons_inj (not_mem_toString hc m) (not_mem_toString hc n) h
  exact ⟨Nat.repr_inj.mp (String.toList_inj.mp hnumber), hrest⟩

theorem not_mem_hex {c : Char} (h : c ∉ hexDigits) (width n : Nat) : c ∉ (hex width n).toList :=
  fun hc => h (mem_hex hc)

theorem hex_injective {width m n : Nat} (h : (hex width m).toList = (hex width n).toList) :
    m = n := by
  have hvalue := congrArg hexValue h
  rwa [hexValue_hex, hexValue_hex] at hvalue

theorem hex_append_cons_inj {c : Char} (hc : c ∉ hexDigits) {width m n : Nat} {b b' : List Char}
    (h : (hex width m).toList ++ c :: b = (hex width n).toList ++ c :: b') : m = n ∧ b = b' := by
  obtain ⟨hnumber, hrest⟩ := append_cons_inj (not_mem_hex hc width m) (not_mem_hex hc width n) h
  exact ⟨hex_injective hnumber, hrest⟩

/-! ## Lines -/

def Unbroken (text : String) : Prop :=
  '\n' ∉ text.toList

@[simp] theorem unbroken_append {s t : String} : Unbroken (s ++ t) ↔ Unbroken s ∧ Unbroken t := by
  rw [Unbroken, String.toList_append, List.mem_append, not_or]
  rfl

instance (text : String) : Decidable (Unbroken text) :=
  inferInstanceAs (Decidable ('\n' ∉ text.toList))

theorem unbroken_toString (n : Nat) : Unbroken (toString n) :=
  not_mem_toString (by decide) n

theorem unbroken_hex (width n : Nat) : Unbroken (hex width n) :=
  not_mem_hex (by decide) width n

theorem unbroken_hexByte (b : UInt8) : Unbroken (hexByte b) :=
  fun h => (mem_hexByte h).elim (by decide) (by decide)

end ByteRegex.Text
