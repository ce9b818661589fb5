import ByteRegex.Proofs.ByteSet.Ranges
import ByteRegex.Proofs.Text.Parts
import Mathlib.Data.List.Chain
import Mathlib.Data.List.Basic
import Mathlib.Data.Set.Basic

/-!
# The canonical form of sets

Whatever operations a set comes from, its ranges are the one list of ranges that is in ascending
order, has a gap between any two neighbours and covers the members. They and their text therefore
tell sets apart: `ByteSet.Recipe.canonical_form`.
-/

namespace ByteRegex

namespace ByteRange

/-- No range is empty, and each one starts where it could not be joined to the one before it. -/
structure Canonical (rs : List ByteRange) : Prop where
  ordered : ∀ r ∈ rs, r.low ≤ r.high
  apart : rs.IsChain (fun r s => r.high.toNat + 2 ≤ s.low.toNat)

def Covers (rs : List ByteRange) (b : UInt8) : Prop :=
  ∃ r ∈ rs, r.low ≤ b ∧ b ≤ r.high

variable {r r' : ByteRange} {rs rs' : List ByteRange} {b : UInt8}

theorem covers_iff_any : Covers rs b ↔ rs.any (covers · b) = true := by
  simp only [Covers, covers, List.any_eq_true, Bool.and_eq_true, decide_eq_true_eq]

theorem covers_cons : Covers (r :: rs) b ↔ (r.low ≤ b ∧ b ≤ r.high) ∨ Covers rs b :=
  List.exists_mem_cons_iff _ _ _

theorem covers_low (h : Canonical (r :: rs)) : Covers (r :: rs) r.low :=
  ⟨r, List.mem_cons_self, UInt8.le_refl _, h.ordered r List.mem_cons_self⟩

namespace Canonical

theorem nil : Canonical [] :=
  ⟨fun _ hr => absurd hr List.not_mem_nil, .nil⟩

theorem tail (h : Canonical (r :: rs)) : Canonical rs :=
  ⟨fun s hs => h.ordered s (List.mem_cons_of_mem r hs), (List.isChain_cons.mp h.apart).2⟩

/-- What the later ranges cover lies behind the first one, with a gap in between. -/
theorem lt_of_covers (h : Canonical (r :: rs)) (hb : Covers rs b) : r.high.toNat + 2 ≤ b.toNat := by
  induction rs generalizing r with
  | nil => exact absurd hb.choose_spec.1 List.not_mem_nil
  | cons s rs ih =>
    have hgap : r.high.toNat + 2 ≤ s.low.toNat := (List.isChain_cons_cons.mp h.apart).1
    have hs := UInt8.le_iff_toNat_le.mp (h.ordered s (List.mem_cons_of_mem r List.mem_cons_self))
    rcases covers_cons.mp hb with ⟨hlow, _⟩ | hb
    · exact Nat.le_trans hgap (UInt8.le_iff_toNat_le.mp hlow)
    · have hbehind := ih h.tail hb
      omega

theorem low_le_of_covers (h : Canonical (r :: rs)) (hb : Covers (r :: rs) b) : r.low ≤ b := by
  rcases covers_cons.mp hb with ⟨hlow, _⟩ | hb
  · exact hlow
  · have hbehind := h.lt_of_covers hb
    have hr := UInt8.le_iff_toNat_le.mp (h.ordered r List.mem_cons_self)
    rw [UInt8.le_iff_toNat_le]
    omega

theorem covers_tail (h : Canonical (r :: rs)) : Covers rs b ↔ Covers (r :: rs) b ∧ r.high < b := by
  rw [covers_cons, UInt8.lt_iff_toNat_lt]
  constructor
  · intro hb
    have hbehind := h.lt_of_covers hb
    exact ⟨Or.inr hb, by omega⟩
  · rintro ⟨⟨_, hhigh⟩ | hb, hlt⟩
    · exact absurd (UInt8.le_iff_toNat_le.mp hhigh) (Nat.not_le_of_lt hlt)
    · exact hb

/-- The first range ends before a byte that is not covered, so it cannot end later than another
first range that starts at the same byte. -/
theorem high_le (h : Canonical (r :: rs)) (hlow : r'.low = r.low)
    (hcovers : ∀ b, Covers (r' :: rs') b → Covers (r :: rs) b) : r'.high ≤ r.high := by
  refine UInt8.not_lt.mp fun hlt => ?_
  have hlt := UInt8.lt_iff_toNat_lt.mp hlt
  have hr := UInt8.le_iff_toNat_le.mp (h.ordered r List.mem_cons_self)
  have hsize := r'.high.toNat_lt
  have hnext : (UInt8.ofNat (r.high.toNat + 1)).toNat = r.high.toNat + 1 :=
    UInt8.toNat_ofNat_of_lt' (Nat.lt_of_le_of_lt hlt hsize)
  have hcovered : Covers (r' :: rs') (UInt8.ofNat (r.high.toNat + 1)) := by
    refine covers_cons.mpr (Or.inl ?_)
    rw [UInt8.le_iff_toNat_le, UInt8.le_iff_toNat_le, hnext, hlow]
    omega
  have hbehind := h.lt_of_covers (h.covers_tail.mpr ⟨hcovers _ hcovered, by
    rw [UInt8.lt_iff_toNat_lt, hnext]
    exact Nat.lt_succ_self _⟩)
  omega

/-- Canonical ranges are determined by what they cover. -/
theorem eq_of_covers (h : Canonical rs) (h' : Canonical rs')
    (hcovers : ∀ b, Covers rs b ↔ Covers rs' b) : rs = rs' := by
  induction rs generalizing rs' with
  | nil =>
    cases rs' with
    | nil => rfl
    | cons r' rs' =>
      exact absurd ((hcovers r'.low).mpr (covers_low h')).choose_spec.1 List.not_mem_nil
  | cons r rs ih =>
    cases rs' with
    | nil => exact absurd ((hcovers r.low).mp (covers_low h)).choose_spec.1 List.not_mem_nil
    | cons r' rs' =>
      have hlow : r.low = r'.low :=
        UInt8.le_antisymm (h.low_le_of_covers ((hcovers _).mpr (covers_low h')))
          (h'.low_le_of_covers ((hcovers _).mp (covers_low h)))
      have hhigh : r.high = r'.high :=
        UInt8.le_antisymm (h'.high_le hlow (fun b => (hcovers b).mp))
          (h.high_le hlow.symm (fun b => (hcovers b).mpr))
      have hrs : rs = rs' := by
        refine ih h.tail h'.tail (fun b => ?_)
        rw [h.covers_tail, h'.covers_tail, hcovers, hhigh]
      obtain ⟨low, high⟩ := r
      obtain ⟨low', high'⟩ := r'
      obtain rfl : low = low' := hlow
      obtain rfl : high = high' := hhigh
      rw [hrs]

/-- A byte below the ranges keeps them canonical, whether it extends the first one or not. -/
theorem cons (h : Canonical rs) (hb : ∀ r ∈ rs.head?, b < r.low) :
    Canonical (ByteRange.cons b rs) := by
  refine ⟨low_le_high_cons h.ordered b, ?_⟩
  cases rs with
  | nil => exact .singleton _
  | cons r rs =>
    obtain ⟨hhead, htail⟩ := List.isChain_cons.mp h.apart
    have hlt := UInt8.lt_iff_toNat_lt.mp (hb r rfl)
    rw [ByteRange.cons]
    split
    · exact List.isChain_cons.mpr ⟨hhead, htail⟩
    · next hgap =>
      refine List.isChain_cons_cons.mpr ⟨?_, h.apart⟩
      show b.toNat + 2 ≤ r.low.toNat
      omega

end Canonical

theorem low_of_mem_head?_cons (h : r ∈ (ByteRange.cons b rs).head?) : r.low = b := by
  cases rs with
  | nil =>
    obtain rfl := Option.some.inj h
    rfl
  | cons s rs =>
    rw [ByteRange.cons] at h
    split at h <;> obtain rfl := Option.some.inj h <;> rfl

/-- Ascending bytes make canonical ranges, the first of which starts at the first byte. -/
theorem canonical_foldr {l : List UInt8} (h : l.Pairwise (· < ·)) :
    Canonical (l.foldr ByteRange.cons []) ∧ ∀ r ∈ (l.foldr ByteRange.cons []).head?, r.low ∈ l := by
  induction l with
  | nil => exact ⟨.nil, fun _ hr => nomatch hr⟩
  | cons b l ih =>
    obtain ⟨hb, hl⟩ := List.pairwise_cons.mp h
    obtain ⟨hcanonical, hlow⟩ := ih hl
    refine ⟨hcanonical.cons (fun r hr => hb _ (hlow r hr)), fun r hr => ?_⟩
    rw [low_of_mem_head?_cons hr]
    exact List.mem_cons_self

/-! ## Texts of ranges -/

theorem not_mem_text (r : ByteRange) : ' ' ∉ r.text.toList := by
  have hbyte : ∀ b, ' ' ∉ (Text.hexByte b).toList :=
    fun _ hb => (Text.mem_hexByte hb).elim (by decide) (by decide)
  rw [text]
  split
  · exact hbyte _
  · rw [String.toList_append, String.toList_append, List.mem_append, List.mem_append]
    rintro ((h | h) | h)
    · exact hbyte _ h
    · exact absurd h (by decide)
    · exact hbyte _ h

theorem text_ne_nil (r : ByteRange) : r.text.toList ≠ [] := by
  rw [text]
  split
  · rw [Text.toList_hexByte]
    exact List.cons_ne_nil _ _
  · rw [String.toList_append, String.toList_append, Text.toList_hexByte]
    exact List.cons_ne_nil _ _

theorem unbroken_text (r : ByteRange) : Text.Unbroken r.text := by
  rw [text]
  split
  · exact Text.unbroken_hexByte _
  · simp only [Text.unbroken_append, Text.unbroken_hexByte, true_and, and_true]
    decide

/-- The bytes that the text of a range names. -/
def ends (r : ByteRange) : List UInt8 :=
  if r.low = r.high then [r.low] else [r.low, r.high]

theorem toList_text (r : ByteRange) :
    r.text.toList = ['-'].intercalate (r.ends.map (fun b => (Text.hexByte b).toList)) := by
  rw [text, ends]
  split
  · rw [List.map_singleton, List.intercalate_singleton]
  · rw [List.map_cons, List.map_singleton, List.intercalate_cons_cons, List.intercalate_singleton,
      String.toList_append, String.toList_append]
    rfl

theorem ends_injective {r r' : ByteRange} (h : r.ends = r'.ends) : r = r' := by
  obtain ⟨low, high⟩ := r
  obtain ⟨low', high'⟩ := r'
  unfold ends at h
  split at h <;> split at h <;> simp_all

theorem text_injective (h : r.text.toList = r'.text.toList) : r = r' := by
  have hsplit : ∀ r : ByteRange,
      r.text.toList.splitOn '-' = r.ends.map (fun b => (Text.hexByte b).toList) := by
    intro r
    rw [toList_text]
    refine List.splitOn_intercalate '-' (fun l hl => ?_) ?_
    · obtain ⟨b, _, rfl⟩ := List.mem_map.mp hl
      exact fun hb => (Text.mem_hexByte hb).elim (by decide) (by decide)
    · rw [ends]
      split <;> simp
  have hends := congrArg (List.splitOn '-') h
  rw [hsplit, hsplit] at hends
  exact ends_injective (List.map_injective_iff.mpr (fun _ _ => Text.hexByte_injective) hends)

end ByteRange

namespace ByteSet

variable {s t : ByteSet}

theorem pairwise_members (s : ByteSet) : s.members.Pairwise (· < ·) := by
  refine List.Pairwise.filter _ (List.pairwise_map.mpr ?_)
  refine List.Pairwise.imp_of_mem (fun hm hn hlt => ?_) List.pairwise_lt_range
  rw [UInt8.lt_iff_toNat_lt, UInt8.toNat_ofNat_of_lt' (List.mem_range.mp hm),
    UInt8.toNat_ofNat_of_lt' (List.mem_range.mp hn)]
  exact hlt

theorem canonical_ranges (s : ByteSet) : ByteRange.Canonical s.ranges :=
  (ByteRange.canonical_foldr s.pairwise_members).1

theorem covers_ranges {b : UInt8} : ByteRange.Covers s.ranges b ↔ s.contains b = true := by
  rw [ByteRange.covers_iff_any, any_covers_ranges]

/-- The order in which the ranges are added does not matter. -/
theorem foldl_perm_ranges {rs : List ByteRange} (h : rs.Perm s.ranges) :
    rs.foldl (fun t r => t.insertRange r.low r.high) .empty = s := by
  refine ext_contains (fun b => ?_)
  rw [contains_foldl_insertRange, contains_empty, Bool.false_or, h.any_eq, any_covers_ranges]

theorem ranges_inj : s.ranges = t.ranges ↔ s = t := by
  refine ⟨fun h => ?_, fun h => h ▸ rfl⟩
  rw [← foldl_ranges s, h, foldl_ranges]

theorem toList_text (s : ByteSet) :
    s.text.toList =
      '[' :: ([' '].intercalate (s.ranges.map (fun r => r.text.toList)) ++ [']']) := by
  rw [text, String.toList_append, String.toList_append, String.toList_intercalate, List.map_map]
  rfl

theorem unbroken_text (s : ByteSet) : Text.Unbroken s.text := by
  have hranges : '\n' ∉ [' '].intercalate (s.ranges.map (fun r => r.text.toList)) := by
    refine Text.not_mem_intercalate (by decide) (fun l hl => ?_)
    obtain ⟨r, _, rfl⟩ := List.mem_map.mp hl
    exact r.unbroken_text
  simp [Text.Unbroken, toList_text, hranges]

/-- The texts of ranges can be told apart when they stand side by side, since none of them is empty
or holds a blank. -/
theorem splitOn_texts {rs : List ByteRange} (h : rs ≠ []) :
    ([' '].intercalate (rs.map (fun r => r.text.toList))).splitOn ' ' =
      rs.map (fun r => r.text.toList) := by
  refine List.splitOn_intercalate ' ' (fun l hl => ?_) (by simpa using h)
  obtain ⟨r, _, rfl⟩ := List.mem_map.mp hl
  exact r.not_mem_text

theorem texts_ne_nil {rs : List ByteRange} (h : rs ≠ []) :
    [' '].intercalate (rs.map (fun r => r.text.toList)) ≠ [] := by
  intro hnil
  have hsplit := splitOn_texts h
  rw [hnil, List.splitOn_nil] at hsplit
  have hmem : [] ∈ rs.map (fun r => r.text.toList) := hsplit ▸ List.mem_singleton_self []
  obtain ⟨r, _, hr⟩ := List.mem_map.mp hmem
  exact r.text_ne_nil hr

theorem texts_injective {rs rs' : List ByteRange}
    (h : [' '].intercalate (rs.map (fun r => r.text.toList)) =
      [' '].intercalate (rs'.map (fun r => r.text.toList))) : rs = rs' := by
  by_cases hrs : rs = []
  · subst hrs
    by_contra hrs'
    exact texts_ne_nil (Ne.symm hrs') h.symm
  · by_cases hrs' : rs' = []
    · subst hrs'
      exact absurd h (texts_ne_nil hrs)
    · have hsplit := congrArg (List.splitOn ' ') h
      rw [splitOn_texts hrs, splitOn_texts hrs'] at hsplit
      exact List.map_injective_iff.mpr (fun _ _ => ByteRange.text_injective) hsplit

theorem text_inj : s.text = t.text ↔ s = t := by
  refine ⟨fun h => ranges_inj.mp ?_, fun h => h ▸ rfl⟩
  have hlist := congrArg String.toList h
  rw [toList_text, toList_text, List.cons.injEq] at hlist
  exact texts_injective (List.append_cancel_right hlist.2)

/-! ## Sets and how they are made -/

/-- A way to make a set, from the empty one, by the operations on sets. -/
inductive Recipe where
  | empty
  | insert (t : Recipe) (b : UInt8)
  | insertRange (t : Recipe) (low high : UInt8)
  | union (t u : Recipe)
  | compl (t : Recipe)

namespace Recipe

def result : Recipe → ByteSet
  | empty => .empty
  | insert t b => t.result.insert b
  | insertRange t low high => t.result.insertRange low high
  | union t u => t.result.union u.result
  | compl t => t.result.compl

/-- The bytes that the set is to have. -/
def bytes : Recipe → Set UInt8
  | empty => ∅
  | insert t b => t.bytes ∪ {b}
  | insertRange t low high => t.bytes ∪ {b | low ≤ b ∧ b ≤ high}
  | union t u => t.bytes ∪ u.bytes
  | compl t => t.bytesᶜ

theorem contains_result (t : Recipe) (b : UInt8) : t.result.contains b = true ↔ b ∈ t.bytes := by
  induction t with
  | empty => simp [result, bytes]
  | insert t c ih =>
    rw [result, contains_insert, Bool.or_eq_true, ih, decide_eq_true_eq]
    exact or_congr_right eq_comm
  | insertRange t low high ih =>
    rw [result, contains_insertRange, Bool.or_eq_true, ih, Bool.and_eq_true, decide_eq_true_eq,
      decide_eq_true_eq]
    rfl
  | union t u iht ihu =>
    rw [result, contains_union, Bool.or_eq_true, iht, ihu]
    rfl
  | compl t ih =>
    rw [result, contains_compl, Bool.not_eq_true', ← Bool.not_eq_true, ih]
    rfl

/-- However a set is made, its members are the bytes that it is to have, and its ranges are the one
canonical list that covers these bytes. The set can be made again from the ranges, in any order, so
that two sets with the same ranges, or with the same text, are equal. -/
theorem canonical_form (t u : Recipe) :
    (∀ b, t.result.contains b = true ↔ b ∈ t.bytes) ∧
    ByteRange.Canonical t.result.ranges ∧
    (∀ b, ByteRange.Covers t.result.ranges b ↔ t.result.contains b = true) ∧
    (∀ rs : List ByteRange, ByteRange.Canonical rs → (∀ b, ByteRange.Covers rs b ↔ b ∈ t.bytes) →
      rs = t.result.ranges) ∧
    (∀ rs : List ByteRange, rs.Perm t.result.ranges →
      rs.foldl (fun s r => s.insertRange r.low r.high) .empty = t.result) ∧
    (t.result = u.result ↔ t.result.ranges = u.result.ranges) ∧
    (t.result = u.result ↔ t.result.text = u.result.text) := by
  have hcanonical := canonical_ranges t.result
  refine ⟨t.contains_result, hcanonical, fun b => covers_ranges, fun rs hrs hcovers => ?_,
    fun rs => foldl_perm_ranges, ranges_inj.symm, text_inj.symm⟩
  refine hrs.eq_of_covers hcanonical (fun b => ?_)
  rw [hcovers, covers_ranges, t.contains_result]

/-- The first and the last byte, made as a complement, one by one, and from their ranges in
descending order. The range that is added first is empty. -/
theorem canonical_form_both_ends :
    let t : Recipe := .compl (.insertRange (.insertRange .empty 98 97) 1 254)
    let u : Recipe := .insert (.insert .empty 255) 0
    let rs : List ByteRange := [⟨0, 0⟩, ⟨255, 255⟩]
    (ByteRange.Canonical rs ∧ (∀ b, ByteRange.Covers rs b ↔ b ∈ t.bytes) ∧ rs = t.result.ranges) ∧
      (rs.reverse.Perm t.result.ranges ∧
        rs.reverse.foldl (fun s r => s.insertRange r.low r.high) .empty = t.result) ∧
      t.result.text = "[0x00 0xff]" ∧ t.result = u.result := by
  intro t u rs
  obtain ⟨hcontains, hcanonical, hcovers, hunique, hperm, _, htext⟩ := canonical_form t u
  have hranges : t.result.ranges = rs := by decide +kernel
  have hreverse : rs.reverse.Perm t.result.ranges := hranges ▸ List.reverse_perm rs
  have hbytes : ∀ b, ByteRange.Covers rs b ↔ b ∈ t.bytes :=
    fun b => hranges ▸ (hcovers b).trans (hcontains b)
  rw [hranges] at hcanonical
  exact ⟨⟨hcanonical, hbytes, hunique rs hcanonical hbytes⟩, ⟨hreverse, hperm _ hreverse⟩,
    by decide +kernel, htext.mpr (by decide +kernel)⟩

end Recipe

end ByteSet

end ByteRegex
