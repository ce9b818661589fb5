import ByteRegex.ByteSet.Ranges

/-!
# What ranges cover

The ranges of a set cover its members and nothing else, so a set is what its ranges add up to.
-/

namespace ByteRegex

namespace ByteRange

def covers (r : ByteRange) (b : UInt8) : Bool :=
  r.low ≤ b && b ≤ r.high

variable {rs : List ByteRange}

theorem low_le_high_cons (h : ∀ r ∈ rs, r.low ≤ r.high) (b : UInt8) :
    ∀ r ∈ cons b rs, r.low ≤ r.high := by
  cases rs with
  | nil => exact fun r hr => List.mem_singleton.mp hr ▸ UInt8.le_refl b
  | cons s rest =>
    have hs := h s List.mem_cons_self
    intro r hr
    rw [cons] at hr
    split at hr
    · next hnext =>
      -- The range grows downwards and keeps its high end, which is not below the old low end.
      rcases List.mem_cons.mp hr with rfl | hr
      · rw [UInt8.le_iff_toNat_le] at hs
        exact UInt8.le_iff_toNat_le.mpr (Nat.le_trans (Nat.le_of_succ_le (Nat.le_of_eq hnext)) hs)
      · exact h r (List.mem_cons_of_mem s hr)
    · rcases List.mem_cons.mp hr with rfl | hr
      · exact UInt8.le_refl b
      · exact h r hr

theorem any_covers_cons (h : ∀ r ∈ rs, r.low ≤ r.high) (b c : UInt8) :
    (cons b rs).any (covers · c) = (decide (c = b) || rs.any (covers · c)) := by
  have hself : covers ⟨b, b⟩ c = decide (c = b) := by
    rw [Bool.eq_iff_iff, covers, Bool.and_eq_true]
    simp only [decide_eq_true_eq]
    exact ⟨fun hc => UInt8.le_antisymm hc.2 hc.1, fun hc => hc ▸ ⟨UInt8.le_refl c, UInt8.le_refl c⟩⟩
  cases rs with
  | nil => rw [cons, List.any_cons, hself]
  | cons s rest =>
    have hs := h s List.mem_cons_self
    rw [cons]
    split
    · next hnext =>
      have hjoined : covers ⟨b, s.high⟩ c = (decide (c = b) || s.covers c) := by
        rw [Bool.eq_iff_iff, Bool.or_eq_true, covers, covers, Bool.and_eq_true, Bool.and_eq_true]
        simp only [decide_eq_true_eq, UInt8.le_iff_toNat_le, ← UInt8.toNat_inj] at hs ⊢
        omega
      rw [List.any_cons, List.any_cons, hjoined, Bool.or_assoc]
    · rw [List.any_cons, hself]

end ByteRange

namespace ByteSet

variable {s : ByteSet}

theorem mem_members {b : UInt8} : b ∈ s.members ↔ s.contains b = true := by
  rw [members, List.mem_filter, List.mem_map]
  exact ⟨And.right, fun h => ⟨⟨b.toNat, List.mem_range.mpr b.toNat_lt, UInt8.ofNat_toNat⟩, h⟩⟩

theorem foldr_cons_spec (l : List UInt8) :
    (∀ r ∈ l.foldr ByteRange.cons [], r.low ≤ r.high) ∧
      ∀ b, (l.foldr ByteRange.cons []).any (ByteRange.covers · b) = decide (b ∈ l) := by
  induction l with
  | nil => exact ⟨fun r hr => absurd hr List.not_mem_nil, fun b => rfl⟩
  | cons c l ih =>
    refine ⟨ByteRange.low_le_high_cons ih.1 c, fun b => ?_⟩
    rw [List.foldr_cons, ByteRange.any_covers_cons ih.1, ih.2, ← Bool.decide_or]
    exact decide_eq_decide.mpr List.mem_cons.symm

theorem low_le_high {r : ByteRange} (h : r ∈ s.ranges) : r.low ≤ r.high :=
  (foldr_cons_spec s.members).1 r h

/-- The ranges cover the members and nothing else. -/
theorem any_covers_ranges (s : ByteSet) (b : UInt8) :
    s.ranges.any (ByteRange.covers · b) = s.contains b := by
  rw [ranges, (foldr_cons_spec s.members).2, Bool.eq_iff_iff, decide_eq_true_eq, mem_members]

theorem contains_ends {r : ByteRange} (h : r ∈ s.ranges) :
    s.contains r.low = true ∧ s.contains r.high = true := by
  have hle := low_le_high h
  have hcovers : ∀ b, r.covers b = true → s.contains b = true := fun b hb => by
    rw [← any_covers_ranges]
    exact List.any_eq_true.mpr ⟨r, h, hb⟩
  constructor <;> apply hcovers
  · simpa only [ByteRange.covers, Bool.and_eq_true, decide_eq_true_eq] using ⟨UInt8.le_refl _, hle⟩
  · simpa only [ByteRange.covers, Bool.and_eq_true, decide_eq_true_eq] using ⟨hle, UInt8.le_refl _⟩

theorem contains_foldl_insertRange (rs : List ByteRange) (t : ByteSet) (b : UInt8) :
    (rs.foldl (fun t r => t.insertRange r.low r.high) t).contains b =
      (t.contains b || rs.any (ByteRange.covers · b)) := by
  induction rs generalizing t with
  | nil => rw [List.foldl_nil, List.any_nil, Bool.or_false]
  | cons r rs ih =>
    rw [List.foldl_cons, ih, contains_insertRange, List.any_cons, Bool.or_assoc]
    rfl

/-- A set is what its ranges add up to. -/
theorem foldl_ranges (s : ByteSet) :
    s.ranges.foldl (fun t r => t.insertRange r.low r.high) .empty = s := by
  refine ext_contains (fun b => ?_)
  rw [contains_foldl_insertRange, contains_empty, Bool.false_or, any_covers_ranges]

theorem ranges_ne_nil (h : s ≠ .empty) : s.ranges ≠ [] := by
  intro hnil
  have hfold := foldl_ranges s
  rw [hnil] at hfold
  exact h hfold.symm

end ByteSet

end ByteRegex
