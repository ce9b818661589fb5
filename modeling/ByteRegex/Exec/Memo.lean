import ByteRegex.Program.Basic

/-!
# What a search remembers

A search that has given up on a state of the machine need not explore that state again. The states
worth remembering are those at splits: the split, the offset, and how many of the rounds around the
split have not read anything yet. Each of them has a cell of its own in a table.
-/

namespace ByteRegex

/-- A table of cells that are marked or not. Cells are bytes, so that a table needs no more room
than the states it is for and is changed in place. -/
structure MarkTable where
  cells : ByteArray

namespace MarkTable

/-- The bytes of `n` unmarked cells; doubling makes large tables cheap. -/
def zeros (n : Nat) : ByteArray :=
  if n = 0 then .empty
  else
    let half := zeros (n / 2)
    let even := half ++ half
    if n % 2 = 0 then even else even.push 0
termination_by n
decreasing_by exact Nat.div_lt_self (Nat.pos_of_ne_zero ‹_›) (by decide)

def blank (n : Nat) : MarkTable := ⟨zeros n⟩

def isMarked (t : MarkTable) (i : Nat) : Bool :=
  t.cells.get! i != 0

def mark (t : MarkTable) (i : Nat) : MarkTable :=
  ⟨t.cells.set! i 1⟩

def unmark (t : MarkTable) (i : Nat) : MarkTable :=
  ⟨t.cells.set! i 0⟩

def clear (t : MarkTable) (i : Nat) : (n : Nat) → MarkTable
  | 0 => t
  | n + 1 => clear (t.unmark i) (i + 1) n

/-! ## Which cells are marked -/

theorem isMarked_eq (t : MarkTable) (i : Nat) : t.isMarked i = (t.cells.data.getD i 0 != 0) := by
  simp only [isMarked, ByteArray.get!]
  rw [Array.getElem!_eq_getD]
  rfl

theorem data_zeros (n : Nat) : (zeros n).data = Array.replicate n 0 := by
  induction n using Nat.strongRecOn with
  | ind n ih =>
    rw [zeros]
    split
    · next h => simp [h]
    · next h =>
      have hhalf := ih (n / 2) (Nat.div_lt_self (Nat.pos_of_ne_zero h) (by decide))
      by_cases hodd : n % 2 = 0
      · simp only [hodd, if_true, ByteArray.data_append, hhalf, Array.replicate_append_replicate]
        congr 1
        omega
      · simp only [hodd, if_false, ByteArray.data_push, ByteArray.data_append, hhalf,
          Array.replicate_append_replicate]
        rw [← Array.replicate_succ]
        congr 1
        omega

theorem isMarked_blank (n i : Nat) : (blank n).isMarked i = false := by
  rw [isMarked_eq]
  by_cases h : i < n
  · simp [blank, data_zeros, Array.getD, h]
  · simp [blank, data_zeros, Array.getD, h]

theorem isMarked_mark (t : MarkTable) (i j : Nat) :
    (t.mark i).isMarked j = (t.isMarked j || decide (i = j ∧ i < t.cells.size)) := by
  simp only [isMarked_eq, mark, ByteArray.set!, Array.getD_eq_getD_getElem?,
    Array.set!_eq_setIfInBounds, Array.getElem?_setIfInBounds, ByteArray.size_data]
  by_cases h : i = j
  · subst h
    by_cases hi : i < t.cells.size
    · simp [hi]
    · simp [hi]
  · simp [h]

theorem isMarked_unmark (t : MarkTable) (i j : Nat) :
    (t.unmark i).isMarked j = (t.isMarked j && decide (i ≠ j)) := by
  simp only [isMarked_eq, unmark, ByteArray.set!, Array.getD_eq_getD_getElem?,
    Array.set!_eq_setIfInBounds, Array.getElem?_setIfInBounds, ByteArray.size_data]
  by_cases h : i = j
  · subst h
    by_cases hi : i < t.cells.size
    · simp [hi]
    · simp [hi]
  · simp [h]

theorem isMarked_clear (t : MarkTable) (i n j : Nat) :
    (t.clear i n).isMarked j = (t.isMarked j && !decide (i ≤ j ∧ j < i + n)) := by
  induction n generalizing t i with
  | zero =>
    have hnone : ¬(i ≤ j ∧ j < i + 0) := by omega
    simp only [clear, hnone, decide_false, Bool.not_false, Bool.and_true]
  | succ n ih =>
    rw [clear, ih, isMarked_unmark, Bool.and_assoc]
    congr 1
    rw [Bool.eq_iff_iff]
    simp only [Bool.and_eq_true, decide_eq_true_eq, Bool.not_eq_true', decide_eq_false_iff_not]
    omega

/-! ## How many cells there are -/

theorem size_blank (n : Nat) : (blank n).cells.size = n := by
  rw [← ByteArray.size_data, blank, data_zeros, Array.size_replicate]

theorem size_mark (t : MarkTable) (i : Nat) : (t.mark i).cells.size = t.cells.size :=
  Array.size_setIfInBounds

theorem size_unmark (t : MarkTable) (i : Nat) : (t.unmark i).cells.size = t.cells.size :=
  Array.size_setIfInBounds

theorem size_clear (t : MarkTable) (i n : Nat) : (t.clear i n).cells.size = t.cells.size := by
  induction n generalizing t i with
  | zero => rfl
  | succ n ih => rw [clear, ih, size_unmark]

end MarkTable

inductive Memo where
  /-- Nothing has been remembered yet, so there is no table yet. -/
  | unused
  /-- The states in the table have been given up on. -/
  | active (table : MarkTable)
  /-- The table would be too large, and the search does without. -/
  | dropped

/-- The number of rounds around a place, from the loop `innermost` outwards, that started at `pos`.
It stops at the first round that started elsewhere: a round starts no earlier than the round around
it. -/
def roundsAt (parents : Array (Option Nat)) (roundStarts : Array Nat) (pos : Nat) :
    (innermost : Option Nat) → Nat
  | none => 0
  | some id =>
    if roundStarts[id]? = some pos then
      match h : Loops.parent? parents id with
      | none => 1
      | some outer => roundsAt parents roundStarts pos (some outer) + 1
    else 0
termination_by innermost => innermost.elim 0 (· + 1)
decreasing_by exact Nat.succ_lt_succ (Loops.lt_of_parent? h)

/-- The rounds that are counted are those at the front of the chain of loops. -/
theorem roundsAt_eq_length_takeWhile (parents : Array (Option Nat)) (roundStarts : Array Nat)
    (pos : Nat) (innermost : Option Nat) :
    roundsAt parents roundStarts pos innermost =
      ((Loops.chain parents innermost).takeWhile
        (fun id => decide (roundStarts[id]? = some pos))).length := by
  fun_induction Loops.chain parents innermost with
  | case1 => simp [roundsAt]
  | case2 id h =>
    rw [roundsAt]
    by_cases hs : roundStarts[id]? = some pos
    · simp only [hs, if_true]
      split <;> simp_all
    · simp [hs]
  | case3 id outer h ih =>
    rw [roundsAt]
    by_cases hs : roundStarts[id]? = some pos
    · simp only [hs, if_true]
      split <;> simp_all
    · simp [hs]

namespace Program

def tableSize (p : Program) (length : Nat) : Nat :=
  p.memo.cells * (length + 1)

/-- The cell of the state in which the split `id` is reached at the offset `pos` with `rounds`
rounds around it that have not read anything. -/
def cellOf (p : Program) (id pos rounds : Nat) : Nat :=
  pos * p.memo.cells + (p.memo.bases.getD id 0 + rounds)

end Program

namespace Memo

def isUnused : Memo → Bool
  | unused => true
  | _ => false

def isDropped : Memo → Bool
  | dropped => true
  | _ => false

/-- Remembers the state whose cell is `cell` in a table of `size` cells, and tells whether it is
new. The first state that a search remembers makes the table, unless it would be larger than
`maxSize`; without a table every state is new. -/
def visit (size maxSize cell : Nat) : Memo → Bool × Memo
  | unused =>
    if size ≤ maxSize then (true, active ((MarkTable.blank size).mark cell)) else (true, dropped)
  | active table =>
    if table.isMarked cell then (false, active table) else (true, active (table.mark cell))
  | dropped => (true, dropped)

/-- Forgets the states between two offsets, both included, of a program with `width` cells for each
offset. -/
def forget (width first last : Nat) : Memo → Memo
  | unused => unused
  | active table => active (table.clear (first * width) ((last + 1 - first) * width))
  | dropped => dropped

end Memo

end ByteRegex
