import ByteRegex.Proofs.Exec.Bounds
import Mathlib.Data.Finset.Card
import Mathlib.Data.Finset.Range

/-!
# What remembering saves

A split that is reached in a state that has been given up on costs one instruction. So each cell of
the table pays once: for the stretch of code behind either side of the split. A state's potential is
what is left of its own stretch, a whole one for each side of a split still on the stack, and two
for each cell that is not marked. Every instruction lowers it.
-/

namespace ByteRegex

namespace Memo

def blanks (memo : Memo) (size : Nat) : Nat :=
  ((Finset.range size).filter fun cell => memo.isMarked cell = false).card

variable {t : Task} {memo memo' : Memo} {size cell : Nat}

theorem blanks_le (memo : Memo) (size : Nat) : memo.blanks size ≤ size :=
  calc
    memo.blanks size ≤ (Finset.range size).card := Finset.card_filter_le _ _
    _ = size := Finset.card_range size

theorem blanks_lt (hcell : cell < size) (hold : memo.isMarked cell = false)
    (hnew : memo'.isMarked cell = true)
    (hkeeps : ∀ j, memo.isMarked j = true → memo'.isMarked j = true) :
    memo'.blanks size < memo.blanks size := by
  have hsubset : (Finset.range size).filter (fun j => memo'.isMarked j = false) ⊆
      (Finset.range size).filter (fun j => memo.isMarked j = false) := by
    intro j hj
    rw [Finset.mem_filter] at hj ⊢
    refine ⟨hj.1, Bool.eq_false_iff.mpr fun hmarked => ?_⟩
    rw [hkeeps j hmarked] at hj
    exact Bool.noConfusion hj.2
  refine Finset.card_lt_card ((Finset.ssubset_iff_of_subset hsubset).mpr ⟨cell, ?_, ?_⟩)
  · rw [Finset.mem_filter, Finset.mem_range]
    exact ⟨hcell, hold⟩
  · rw [Finset.mem_filter, hnew]
    exact fun h => Bool.noConfusion h.2

theorem isMarked_active_mark {table : MarkTable} (h : cell < table.cells.size) :
    (active (table.mark cell)).isMarked cell = true ∧
      ∀ j, (active table).isMarked j = true → (active (table.mark cell)).isMarked j = true := by
  refine ⟨?_, fun j hj => ?_⟩
  · rw [isMarked, MarkTable.isMarked_mark, decide_eq_true ⟨rfl, h⟩, Bool.or_true]
  · rw [isMarked, MarkTable.isMarked_mark, show table.isMarked j = true from hj, Bool.true_or]

/-- Where there is room for a table, a visit finds a mark or leaves one behind. -/
theorem Fits.visit_cases (h : memo.Fits t) (hroom : t.tableSize ≤ t.maxTableSize)
    (hcell : cell < t.tableSize) :
    memo.visit t.tableSize t.maxTableSize cell = (false, memo) ∨
      ∃ memo', memo.visit t.tableSize t.maxTableSize cell = (true, memo') ∧
        memo'.blanks t.tableSize < memo.blanks t.tableSize := by
  cases memo with
  | unused =>
    have hmark := isMarked_active_mark ((MarkTable.size_blank t.tableSize).symm ▸ hcell)
    refine Or.inr ⟨_, if_pos hroom, ?_⟩
    exact blanks_lt hcell rfl hmark.1 (fun _ hj => absurd hj Bool.false_ne_true)
  | active table =>
    by_cases hmarked : table.isMarked cell = true
    · exact Or.inl (if_pos hmarked)
    · have hmark := isMarked_active_mark (h.1.symm ▸ hcell)
      refine Or.inr ⟨_, if_neg hmarked, ?_⟩
      exact blanks_lt hcell (Bool.eq_false_iff.mpr hmarked) hmark.1 hmark.2
  | dropped => exact absurd hroom (Nat.not_le_of_lt h)

end Memo

namespace Task

/-- The memory of the task has room for all its states. -/
structure Remembers (t : Task) : Prop where
  closed : t.program.Closed
  room : t.tableSize ≤ t.maxTableSize

/-- What the cells that are not marked pay for. -/
def allowance (t : Task) (memo : Memo) : Nat :=
  2 * t.program.size * memo.blanks t.tableSize

theorem allowance_le (t : Task) (memo : Memo) :
    t.allowance memo ≤ 2 * t.program.size * t.tableSize :=
  Nat.mul_le_mul_left _ (memo.blanks_le _)

end Task

def Frame.isRetry : Frame → Bool
  | retry _ _ => true
  | _ => false

/-- What is left to pay for instructions. -/
def State.potential (t : Task) (s : State) : Nat :=
  t.program.stretch s.address + t.program.size * s.stack.countP Frame.isRetry + t.allowance s.memo

def Outcome.potential (t : Task) : Outcome → Nat
  | running s => s.potential t
  | accepted s | failed s => t.allowance s.memo

namespace State

variable {t : Task} {s s' : State} {start n : Nat} {o : Outcome}

theorem potential_backtrackTo_le (s : State) {frames : List Frame}
    (hframes : ∀ frame ∈ frames, frame.InBounds t) : (s.backtrackTo frames).potential t ≤
      t.program.size * frames.countP Frame.isRetry + t.allowance s.memo := by
  induction frames generalizing s with
  | nil => exact Nat.le_add_left _ _
  | cons frame rest ih =>
    have hrest : ∀ frame ∈ rest, frame.InBounds t :=
      fun other hother => hframes other (List.mem_cons_of_mem frame hother)
    cases frame with
    | retry address pos =>
      -- The frame has kept back a whole stretch, which is enough from any address.
      have hstretch := Program.stretch_le (hframes _ List.mem_cons_self).1
      rw [List.countP_cons_of_pos rfl, Nat.mul_succ]
      show t.program.stretch address + t.program.size * rest.countP Frame.isRetry +
        t.allowance s.memo ≤ _
      omega
    | restoreSlot slot offset =>
      rw [List.countP_cons_of_neg Bool.false_ne_true]
      exact ih { s with slots := s.slots.setIfInBounds slot offset } hrest
    | restoreRound loop offset =>
      rw [List.countP_cons_of_neg Bool.false_ne_true]
      exact ih { s with roundStarts := s.roundStarts.setIfInBounds loop offset } hrest

theorem InBounds.potential_backtrack_lt (hs : s.InBounds t start) :
    s.backtrack.potential t < s.potential t := by
  have hle := potential_backtrackTo_le s hs.stack
  have hpos := Program.stretch_pos hs.address
  refine Nat.lt_of_le_of_lt hle ?_
  unfold potential
  omega

theorem potential_lt_of_nears (hnears : t.program.Nears s.address s'.address)
    (hcount : s'.stack.countP Frame.isRetry = s.stack.countP Frame.isRetry)
    (hmemo : s'.memo = s.memo) : s'.potential t < s.potential t := by
  have hlt := hnears.stretch_lt
  unfold potential
  rw [hcount, hmemo]
  omega

theorem potential_goto_lt {address : Nat} (hnears : t.program.Nears s.address address) :
    (s.goto address).potential t < s.potential t :=
  potential_lt_of_nears (s := s) hnears rfl rfl

theorem InBounds.potential_require_lt (hs : s.InBounds t start)
    (hnears : t.program.Nears s.address (s.address + 1)) (condition : Bool) :
    (s.require condition).potential t < s.potential t := by
  cases condition
  · exact hs.potential_backtrack_lt
  · exact potential_goto_lt hnears

theorem InBounds.potential_read_lt (hs : s.InBounds t start)
    (hnears : t.program.Nears s.address (s.address + 1)) (accepts : UInt8 → Bool) :
    (s.read t.subject accepts).potential t < s.potential t := by
  unfold State.read
  split
  · next hpos =>
    split
    · exact potential_lt_of_nears (s := s) hnears rfl rfl
    · exact hs.potential_backtrack_lt
  · exact hs.potential_backtrack_lt

/-- A change on the stack is free: taking it back is part of the instruction that gives up the
path. -/
theorem potential_push_lt (hnears : t.program.Nears s.address s'.address)
    {frame : Frame} (hframe : frame.isRetry = false) (hstack : s'.stack = frame :: s.stack)
    (hmemo : s'.memo = s.memo) : s'.potential t < s.potential t := by
  refine potential_lt_of_nears hnears ?_ hmemo
  rw [hstack, List.countP_cons_of_neg (Bool.eq_false_iff.mp hframe)]

theorem potential_endRound_lt {loop exit : Nat} (hexit : t.program.Nears s.address exit)
    (hnext : t.program.Nears s.address (s.address + 1)) :
    (s.endRound loop exit).potential t < s.potential t := by
  unfold endRound
  split
  · exact potential_goto_lt hexit
  · exact potential_goto_lt hnext

theorem InBounds.potential_choose_lt (hs : s.InBounds t start) {first second : Nat}
    (hfirst : first < t.program.size) {memo : Memo}
    (hblanks : memo.blanks t.tableSize < s.memo.blanks t.tableSize) :
    ({ s with memo := memo }.choose first second).potential t < s.potential t := by
  have hstretch := Program.stretch_le hfirst
  have hpos := Program.stretch_pos hs.address
  -- The cell that has been marked pays for the stretch behind `first`, and for the frame of
  -- `second`.
  have hpays : 2 * t.program.size + t.allowance memo ≤ t.allowance s.memo := by
    rw [Nat.add_comm, Task.allowance, ← Nat.mul_succ]
    exact Nat.mul_le_mul_left _ hblanks
  show t.program.stretch first + t.program.size *
      (Frame.retry second s.pos :: s.stack).countP Frame.isRetry + t.allowance memo <
    s.potential t
  rw [List.countP_cons_of_pos rfl, Nat.mul_succ]
  unfold potential
  omega

theorem InBounds.potential_split_lt (hs : s.InBounds t start) (ht : t.Remembers)
    {id first second : Nat}
    (hinstr : t.program.instrs[s.address]? = some (.split id first second)) :
    (s.split t id first second).potential t < s.potential t := by
  have hcell := hs.cell_lt ht.closed.coherent hinstr
  have hvisits := hs.memo.visit_cases ht.room hcell
  rw [split_eq]
  rcases hvisits with hvisit | ⟨memo, hvisit, hblanks⟩
  · simp only [show s.memo.visit (t.program.tableSize t.subject.size) _ _ = _ from hvisit,
      Bool.false_eq_true, if_false]
    exact hs.potential_backtrack_lt
  · simp only [show s.memo.visit (t.program.tableSize t.subject.size) _ _ = _ from hvisit, if_true]
    exact hs.potential_choose_lt (ht.closed.advancing _ _ hinstr).1 hblanks

/-- Every instruction lowers the potential. -/
theorem InBounds.potential_step_lt (hs : s.InBounds t start) (ht : t.Remembers) :
    (s.step t).potential t < s.potential t := by
  obtain ⟨instr, hinstr⟩ := hs.exists_instr
  have hadvances := ht.closed.advancing _ _ hinstr
  rw [step_eq, hinstr, Option.elim_some]
  cases instr with
  | accept =>
    have hpos := Program.stretch_pos hs.address
    show t.allowance s.memo < s.potential t
    unfold potential
    omega
  | byte b => exact hs.potential_read_lt hadvances (· == b)
  | any => exact hs.potential_read_lt hadvances fun _ => true
  | oneOf set => exact hs.potential_read_lt hadvances set.contains
  | split id first second => exact hs.potential_split_lt ht hinstr
  | jump target => exact potential_goto_lt hadvances
  | save slot => exact potential_push_lt (s := s) hadvances rfl rfl rfl
  | textStart => exact hs.potential_require_lt hadvances _
  | textEnd => exact hs.potential_require_lt hadvances _
  | roundStart loop => exact potential_push_lt (s := s) hadvances rfl rfl rfl
  | roundEnd loop exit => exact potential_endRound_lt hadvances.1 hadvances.2

/-- So the potential pays for all the instructions of a run. -/
theorem InBounds.potential_leads_le (hs : s.InBounds t start) (ht : t.Remembers)
    (h : Leads t s n o) : n + o.potential t ≤ s.potential t := by
  induction h with
  | one s =>
    have hlt := hs.potential_step_lt ht
    omega
  | @more s s' n o hstep _ ih =>
    have hnext := hs.step ht.closed
    have hlt := hs.potential_step_lt ht
    rw [hstep] at hnext hlt
    have hlt : s'.potential t < s.potential t := hlt
    have hle := ih hnext
    omega

end State

namespace Trail

variable {t : Task} {trail next : Trail} {start n : Nat} {result : AttemptEnd}

theorem potential_begin_le (ht : t.Remembers) (trail : Trail) (start : Nat) :
    (trail.begin t.program start).potential t ≤ t.program.size + t.allowance trail.memo := by
  have hstretch := Program.stretch_le ht.closed.nonempty
  show t.program.stretch 0 + t.program.size * 0 + t.allowance trail.memo ≤ _
  omega

theorem Takes.le (h : trail.Takes t start n result next) (ht : t.Remembers)
    (hmemo : trail.memo.Fits t) (hstart : start ≤ t.subject.size) :
    n ≤ t.program.size + t.allowance trail.memo := by
  have hbegin := State.inBounds_begin ht.closed hmemo hstart
  have hle := potential_begin_le ht trail start
  -- What is forgotten may be marked again, but by later calls only: the search ends here.
  cases h with
  | accepted h | failed h =>
    have hn := hbegin.potential_leads_le ht h
    omega

/-- An attempt that fails hands on what its marks have not paid for. -/
theorem Takes.le_of_failed (h : trail.Takes t start n .failed next) (ht : t.Remembers)
    (hmemo : trail.memo.Fits t) (hstart : start ≤ t.subject.size) :
    n + t.allowance next.memo ≤ t.program.size + t.allowance trail.memo := by
  have hbegin := State.inBounds_begin ht.closed hmemo hstart
  cases h with
  | failed h =>
    exact Nat.le_trans (hbegin.potential_leads_le ht h) (potential_begin_le ht trail start)

end Trail

end ByteRegex
