/-!
# Sets of bytes

A set of bytes is what one position of a subject may hold: a bracket expression such as `[a-z]`, or
one of the classes of digits, word bytes and space bytes. Every operation has one law, which says
which bytes belong to its result.
-/

namespace ByteRegex

/-- A set of bytes: bit `b` tells whether the byte `b` belongs to it. A vector of bits rather than a
list, because two sets with the same members are then equal and complement is one operation. -/
structure ByteSet where
  bits : BitVec 256
deriving DecidableEq

namespace ByteSet

def empty : ByteSet := ⟨0⟩

def contains (s : ByteSet) (b : UInt8) : Bool :=
  s.bits.getLsbD b.toNat

def insert (s : ByteSet) (b : UInt8) : ByteSet :=
  ⟨s.bits ||| BitVec.twoPow 256 b.toNat⟩

/-- Adds every byte from `low` to `high`; nothing when `low` is above `high`. -/
def insertRange (s : ByteSet) (low high : UInt8) : ByteSet :=
  (List.range' low.toNat (high.toNat + 1 - low.toNat)).foldl (fun t n => t.insert (UInt8.ofNat n)) s

def union (s t : ByteSet) : ByteSet :=
  ⟨s.bits ||| t.bits⟩

def compl (s : ByteSet) : ByteSet :=
  ⟨~~~s.bits⟩

def range (low high : UInt8) : ByteSet :=
  empty.insertRange low high

def digit : ByteSet :=
  range '0'.toUInt8 '9'.toUInt8

def word : ByteSet :=
  (((range 'a'.toUInt8 'z'.toUInt8).insertRange 'A'.toUInt8 'Z'.toUInt8).insertRange
    '0'.toUInt8 '9'.toUInt8).insert '_'.toUInt8

def space : ByteSet :=
  (range '\t'.toUInt8 '\r'.toUInt8).insert ' '.toUInt8

/-! ## Membership -/

/-- Two sets with the same members are equal. -/
theorem ext_contains {s t : ByteSet} (h : ∀ b, s.contains b = t.contains b) : s = t := by
  obtain ⟨x⟩ := s
  obtain ⟨y⟩ := t
  congr 1
  apply BitVec.eq_of_getLsbD_eq
  intro i hi
  have hb := h (UInt8.ofNat i)
  simpa [contains, Nat.mod_eq_of_lt hi] using hb

@[simp]
theorem contains_empty (b : UInt8) : empty.contains b = false := by
  simp [empty, contains]

@[simp]
theorem contains_insert (s : ByteSet) (b c : UInt8) :
    (s.insert b).contains c = (s.contains c || decide (b = c)) := by
  have hb := b.toNat_lt
  simp only [contains, insert, BitVec.getLsbD_or, BitVec.getLsbD_twoPow]
  congr 1
  simp [hb, UInt8.toNat_inj]

@[simp]
theorem contains_union (s t : ByteSet) (b : UInt8) :
    (s.union t).contains b = (s.contains b || t.contains b) := by
  simp [contains, union]

@[simp]
theorem contains_compl (s : ByteSet) (b : UInt8) : s.compl.contains b = !s.contains b := by
  simp [contains, compl, b.toNat_lt]

theorem contains_foldl_insert (l : List Nat) (s : ByteSet) (b : UInt8) :
    (l.foldl (fun t n => t.insert (UInt8.ofNat n)) s).contains b =
      (s.contains b || l.any (fun n => decide (UInt8.ofNat n = b))) := by
  induction l generalizing s with
  | nil => simp
  | cons n l ih => simp [ih, Bool.or_assoc]

@[simp]
theorem contains_insertRange (s : ByteSet) (low high b : UInt8) :
    (s.insertRange low high).contains b =
      (s.contains b || (decide (low ≤ b) && decide (b ≤ high))) := by
  have hb := b.toNat_lt
  have hh := high.toNat_lt
  rw [insertRange, contains_foldl_insert]
  congr 1
  rw [Bool.eq_iff_iff, List.any_eq_true]
  simp only [List.mem_range'_1, decide_eq_true_eq, Bool.and_eq_true, UInt8.le_iff_toNat_le]
  constructor
  · rintro ⟨n, hn, rfl⟩
    have hlt : n < 256 := by omega
    rw [UInt8.toNat_ofNat_of_lt' hlt]
    omega
  · intro h
    exact ⟨b.toNat, by omega, UInt8.ofNat_toNat⟩

@[simp]
theorem contains_range (low high b : UInt8) :
    (range low high).contains b = (decide (low ≤ b) && decide (b ≤ high)) := by
  simp [range]

end ByteSet

end ByteRegex
