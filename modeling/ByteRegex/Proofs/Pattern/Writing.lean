import ByteRegex.Proofs.ByteSet.Ranges
import ByteRegex.Proofs.Core.Parts
import ByteRegex.Proofs.Pattern.Normal
import Mathlib.Data.List.Basic

/-!
# Writing expressions down

An expression in normal form has a text that denotes it. Bytes stand for themselves where they can
and follow a backslash where they would mean something else; sets are written as their ranges, and
the bounds of repetitions in decimal.
-/

namespace ByteRegex

/-- The bytes with a meaning of their own outside brackets and braces. -/
def metacharacters : List UInt8 :=
  ['.', '+', '*', '?', '|', '\\', '(', ')', '[', '\x7b', '^', '$'].map Char.toUInt8

/-- The bytes with a meaning of their own somewhere between brackets. -/
def bracketCharacters : List UInt8 :=
  [']', '[', '\\', '^', '-'].map Char.toUInt8

def escaping (special : List UInt8) (b : UInt8) : List UInt8 :=
  if b ∈ special then ['\\'.toUInt8, b] else [b]

def ByteRange.written (r : ByteRange) : List UInt8 :=
  escaping bracketCharacters r.low ++
    if r.low = r.high then [] else '-'.toUInt8 :: escaping bracketCharacters r.high

def ByteSet.written (s : ByteSet) : List UInt8 :=
  '['.toUInt8 :: (s.ranges.flatMap ByteRange.written ++ [']'.toUInt8])

def decimal (n : Nat) : List UInt8 :=
  (Nat.toDigits 10 n).map Char.toUInt8

/-- The maximum after a comma, which stands alone when there is no maximum. It is left out when it
equals the minimum. -/
def writtenMaximum (min : Nat) : Option Nat → List UInt8
  | none => [','.toUInt8]
  | some max => if min = max then [] else ','.toUInt8 :: decimal max

def writtenBounds (min : Nat) (max : Option Nat) : List UInt8 :=
  '\x7b'.toUInt8 :: (decimal min ++ (writtenMaximum min max ++ ['\x7d'.toUInt8]))

def Quantifier.written : Quantifier → List UInt8
  | star => ['*'.toUInt8]
  | plus => ['+'.toUInt8]
  | optional => ['?'.toUInt8]
  | repeated min max => writtenBounds min max

def Greed.written : Greed → List UInt8
  | greedy => []
  | lazy => ['?'.toUInt8]

namespace Expr

mutual

def written : Expr → List UInt8
  | byte b => escaping metacharacters b
  | any => ['.'.toUInt8]
  | oneOf s => s.written
  | textStart => ['^'.toUInt8]
  | textEnd => ['$'.toUInt8]
  | concat es => (writtenAll es).flatten
  | alternate es => ['|'.toUInt8].intercalate (writtenAll es)
  | star e greed => e.written ++ Quantifier.star.written ++ greed.written
  | plus e greed => e.written ++ Quantifier.plus.written ++ greed.written
  | optional e greed => e.written ++ Quantifier.optional.written ++ greed.written
  | repeated e min max greed => e.written ++ (Quantifier.repeated min max).written ++ greed.written
  | group e (some _) => '('.toUInt8 :: (e.written ++ [')'.toUInt8])
  | group e none => '('.toUInt8 :: '?'.toUInt8 :: ':'.toUInt8 :: (e.written ++ [')'.toUInt8])

def writtenAll : List Expr → List (List UInt8)
  | [] => []
  | e :: es => e.written :: writtenAll es

end

mutual

def nesting : Expr → Nat
  | byte _ | any | oneOf _ | textStart | textEnd => 0
  | concat es | alternate es => nestingAll es
  | star e _ | plus e _ | optional e _ | repeated e _ _ _ => e.nesting
  | group e _ => e.nesting + 1

def nestingAll : List Expr → Nat
  | [] => 0
  | e :: es => max e.nesting (nestingAll es)

end

/-- The text of an expression whose bytes are all ASCII. -/
def text (e : Expr) : String :=
  String.ofList (e.written.map Char.ofUInt8)

/-- What the text of an expression can say, and the reader accepts under the limits. -/
structure Writable (limits : PatternLimits) (e : Expr) : Prop where
  normal : e.Normal
  bounds : ∀ d min max greed, repeated d min max greed ∈ e.parts →
    min ≤ limits.maxRepetitions ∧ ∀ n, max = some n → n ≤ limits.maxRepetitions
  nesting : e.nesting ≤ limits.maxNesting
  bytes : ∀ b, byte b ∈ e.parts → b < 128
  sets : ∀ s, oneOf s ∈ e.parts → s ≠ .empty ∧ ∀ b, s.contains b = true → b < 128

end Expr

/-! ## Decimal numbers -/

theorem decimal_of_lt {n : Nat} (h : n < 10) : decimal n = [n.digitChar.toUInt8] := by
  rw [decimal, Nat.toDigits_of_lt_base h, List.map_singleton]

theorem decimal_of_le {n : Nat} (h : 10 ≤ n) :
    decimal n = decimal (n / 10) ++ [(n % 10).digitChar.toUInt8] := by
  rw [decimal, Nat.toDigits_of_base_le (by decide) h, List.map_append]
  rfl

theorem digitChar_spec {d : Nat} (h : d < 10) :
    Text.isDigit d.digitChar.toUInt8 = true ∧ Text.digitValue d.digitChar.toUInt8 = d := by
  revert d
  decide

/-! ## ASCII -/

def Ascii (bytes : List UInt8) : Prop :=
  ∀ b ∈ bytes, b < 128

instance (bytes : List UInt8) : Decidable (Ascii bytes) :=
  List.decidableBAll (fun b => b < 128) bytes

theorem Ascii.cons {b : UInt8} {bytes : List UInt8} (hb : b < 128) (h : Ascii bytes) :
    Ascii (b :: bytes) :=
  List.forall_mem_cons.mpr ⟨hb, h⟩

theorem Ascii.append {a b : List UInt8} (ha : Ascii a) (hb : Ascii b) : Ascii (a ++ b) :=
  List.forall_mem_append.mpr ⟨ha, hb⟩

theorem Ascii.flatMap {α : Type} {l : List α} {f : α → List UInt8} (h : ∀ x ∈ l, Ascii (f x)) :
    Ascii (l.flatMap f) := by
  intro b hb
  obtain ⟨x, hx, hb⟩ := List.mem_flatMap.mp hb
  exact h x hx b hb

/-- ASCII bytes are the UTF-8 encoding of the characters that they number. -/
theorem Ascii.toUTF8 {bytes : List UInt8} (h : Ascii bytes) :
    (String.ofList (bytes.map Char.ofUInt8)).toUTF8.data.toList = bytes := by
  have hchar : ∀ b ∈ bytes, String.utf8EncodeChar (Char.ofUInt8 b) = [b] := by
    intro b hb
    have hlt : b.toNat < 128 := UInt8.lt_iff_toNat_lt.mp (h b hb)
    have hval : (Char.ofUInt8 b).val.toNat = b.toNat := UInt8.toNat_toUInt32 b
    rw [String.utf8EncodeChar, if_pos (by omega), hval, UInt8.ofNat_toNat]
  have hflat : (bytes.map Char.ofUInt8).flatMap String.utf8EncodeChar = bytes := by
    rw [List.flatMap_map]
    exact (List.flatMap_congr hchar).trans (List.flatMap_singleton' bytes)
  show (String.ofList (bytes.map Char.ofUInt8)).toByteArray.data.toList = bytes
  rw [String.toByteArray_ofList, List.utf8Encode, hflat, List.data_toByteArray]

theorem ascii_escaping (special : List UInt8) {b : UInt8} (h : b < 128) :
    Ascii (escaping special b) := by
  have hb : Ascii [b] := .cons h (by decide)
  rw [escaping]
  split
  · exact .cons (by decide) hb
  · exact hb

theorem ascii_decimal (n : Nat) : Ascii (decimal n) := by
  intro b hb
  obtain ⟨c, hc, rfl⟩ := List.mem_map.mp hb
  have hdigit := Nat.isDigit_of_mem_toDigits (by decide) (by decide) hc
  simp only [Char.isDigit, ge_iff_le, Bool.and_eq_true, decide_eq_true_eq,
    UInt32.le_iff_toNat_le] at hdigit
  have h57 : c.val.toNat ≤ 57 := hdigit.2
  rw [UInt8.lt_iff_toNat_lt, Char.toUInt8, UInt32.toNat_toUInt8, Nat.mod_eq_of_lt (by omega)]
  exact Nat.lt_of_le_of_lt h57 (by decide)

theorem ByteRange.ascii_written {r : ByteRange} (hlow : r.low < 128) (hhigh : r.high < 128) :
    Ascii r.written := by
  rw [written]
  refine (ascii_escaping _ hlow).append ?_
  split
  · decide
  · exact .cons (by decide) (ascii_escaping _ hhigh)

theorem ByteSet.ascii_written {s : ByteSet} (h : ∀ b, s.contains b = true → b < 128) :
    Ascii s.written := by
  have hranges : Ascii (s.ranges.flatMap ByteRange.written) := by
    refine Ascii.flatMap (fun r hr => ?_)
    obtain ⟨hlow, hhigh⟩ := contains_ends hr
    exact ByteRange.ascii_written (h _ hlow) (h _ hhigh)
  exact .cons (by decide) (hranges.append (by decide))

theorem ascii_writtenBounds (min : Nat) (max : Option Nat) : Ascii (writtenBounds min max) := by
  have hmaximum : Ascii (writtenMaximum min max) := by
    cases max with
    | none => exact (by decide : Ascii [','.toUInt8])
    | some max =>
      rw [writtenMaximum]
      split
      · decide
      · exact .cons (by decide) (ascii_decimal max)
  exact .cons (by decide) ((ascii_decimal min).append (hmaximum.append (by decide)))

theorem Quantifier.ascii_written (q : Quantifier) : Ascii q.written := by
  cases q with
  | star | plus | optional => decide
  | repeated min max => exact ascii_writtenBounds min max

theorem Greed.ascii_written (greed : Greed) : Ascii greed.written := by
  cases greed <;> decide

namespace Expr

variable {limits : PatternLimits} {d e : Expr} {es : List Expr}

theorem written_concat (es : List Expr) : (concat es).written = es.flatMap written := by
  have hmap : writtenAll es = es.map written := by
    induction es with
    | nil => rfl
    | cons e es ih => rw [writtenAll, ih, List.map_cons]
  rw [written, hmap]
  rfl

theorem written_alternate_singleton (e : Expr) : (alternate [e]).written = e.written := by
  rw [written, writtenAll, writtenAll]
  exact List.intercalate_singleton

theorem written_alternate_cons_cons (e d : Expr) (es : List Expr) :
    (alternate (e :: d :: es)).written =
      e.written ++ '|'.toUInt8 :: (alternate (d :: es)).written := by
  rw [written, writtenAll, writtenAll, List.intercalate_cons_cons, List.append_assoc,
    written, writtenAll]
  rfl

theorem nesting_le_nestingAll (h : e ∈ es) : e.nesting ≤ nestingAll es := by
  induction es with
  | nil => exact absurd h List.not_mem_nil
  | cons d es ih =>
    rcases List.mem_cons.mp h with rfl | h
    · exact Nat.le_max_left _ _
    · exact Nat.le_trans (ih h) (Nat.le_max_right _ _)

theorem nesting_le_of_mem_children (h : d ∈ e.children) : d.nesting ≤ e.nesting := by
  cases e with
  | byte b | any | oneOf s | textStart | textEnd => exact absurd h List.not_mem_nil
  | concat es | alternate es => exact nesting_le_nestingAll h
  | star e greed | plus e greed | optional e greed | repeated e min max greed =>
    exact List.mem_singleton.mp h ▸ Nat.le_refl _
  | group e index => exact List.mem_singleton.mp h ▸ Nat.le_succ _

/-- The direct parts of what can be written can be written. -/
theorem Writable.of_mem_children (he : e.Writable limits) (h : d ∈ e.children) :
    d.Writable limits where
  normal := he.normal.of_mem_children h
  bounds d' min max greed hd := he.bounds d' min max greed (mem_parts_of_mem_children h hd)
  nesting := Nat.le_trans (nesting_le_of_mem_children h) he.nesting
  bytes b hb := he.bytes b (mem_parts_of_mem_children h hb)
  sets s hs := he.sets s (mem_parts_of_mem_children h hs)

theorem ascii_alternate (h : ∀ e ∈ es, Ascii e.written) : Ascii (alternate es).written := by
  induction es with
  | nil => decide
  | cons e es ih =>
    have he := h e List.mem_cons_self
    have hes := ih (fun d hd => h d (List.mem_cons_of_mem e hd))
    cases es with
    | nil => rwa [written_alternate_singleton]
    | cons d es =>
      rw [written_alternate_cons_cons]
      exact he.append (.cons (by decide) hes)

theorem Writable.ascii (he : e.Writable limits) : Ascii e.written := by
  have hquantified : ∀ {d : Expr} {q : Quantifier} {greed : Greed}, Ascii d.written →
      Ascii (d.written ++ q.written ++ greed.written) :=
    fun hd => (hd.append (Quantifier.ascii_written _)).append (Greed.ascii_written _)
  induction e using Expr.induct with
  | byte b => exact ascii_escaping _ (he.bytes b List.mem_cons_self)
  | any | textStart | textEnd => decide
  | oneOf s => exact ByteSet.ascii_written (he.sets s List.mem_cons_self).2
  | concat es ih =>
    rw [written_concat]
    exact Ascii.flatMap (fun d hd => ih d hd (he.of_mem_children hd))
  | alternate es ih => exact ascii_alternate (fun d hd => ih d hd (he.of_mem_children hd))
  | star d greed ih | plus d greed ih | optional d greed ih | repeated d min max greed ih =>
    exact hquantified (ih (he.of_mem_children List.mem_cons_self))
  | group d index ih =>
    have hd := (ih (he.of_mem_children List.mem_cons_self)).append (by decide : Ascii [')'.toUInt8])
    cases index with
    | none => exact .cons (by decide) (.cons (by decide) (.cons (by decide) hd))
    | some index => exact .cons (by decide) hd

theorem Writable.toUTF8_text (he : e.Writable limits) : e.text.toUTF8.data.toList = e.written :=
  he.ascii.toUTF8

end Expr

end ByteRegex
