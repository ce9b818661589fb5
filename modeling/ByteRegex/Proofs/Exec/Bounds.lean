import ByteRegex.Proofs.Exec.Attempts
import ByteRegex.Proofs.Program.Stretches

/-!
# The machine stays within its tables

The code of a program names addresses, slots, loops and splits that are its own. So the machine, and
what its stack leads back to, stays inside the program and the subject, and the tables keep their
sizes.
-/

namespace ByteRegex

/-- What the code names is there: addresses to go on at, slots, and all that its tables tell. -/
structure Program.Closed (p : Program) : Prop where
  coherent : p.Coherent
  advancing : p.Advancing
  nonempty : 0 < p.size
  slots : ∀ {a slot : Nat}, p.instrs[a]? = some (Instr.save slot) → slot < p.slotCount

def Task.tableSize (t : Task) : Nat :=
  t.program.tableSize t.subject.size

namespace Memo

/-- The table, if there is one, has the cells of the task, and it is done without only if they are
too many. -/
def Fits (t : Task) : Memo → Prop
  | unused => True
  | active table => table.cells.size = t.tableSize ∧ t.tableSize ≤ t.maxTableSize
  | dropped => t.maxTableSize < t.tableSize

variable {t : Task} {memo : Memo}

theorem Fits.forget (h : memo.Fits t) (width first last : Nat) :
    (memo.forget width first last).Fits t := by
  cases memo with
  | unused | dropped => exact h
  | active table => exact ⟨(MarkTable.size_clear _ _ _).trans h.1, h.2⟩

theorem Fits.visit (h : memo.Fits t) (cell : Nat) :
    (memo.visit t.tableSize t.maxTableSize cell).2.Fits t := by
  cases memo with
  | unused =>
    rw [Memo.visit]
    split
    · next hroom => exact ⟨(MarkTable.size_mark _ _).trans (MarkTable.size_blank _), hroom⟩
    · next hroom => exact Nat.lt_of_not_le hroom
  | active table =>
    rw [Memo.visit]
    split
    · exact h
    · exact ⟨(MarkTable.size_mark _ _).trans h.1, h.2⟩
  | dropped => exact h

end Memo

/-- What the frame puts back has a place. -/
def Frame.InBounds (t : Task) : Frame → Prop
  | retry address pos => address < t.program.size ∧ pos ≤ t.subject.size
  | restoreSlot slot _ => slot < t.program.slotCount
  | restoreRound loop _ => loop < t.program.loopCount

/-- A state of an attempt at `start`, with all that it holds within the program and the subject. -/
structure State.InBounds (t : Task) (start : Nat) (s : State) : Prop where
  address : s.address < t.program.size
  pos : s.pos ≤ t.subject.size
  started : start ≤ s.maxPos
  maxPos : s.maxPos ≤ t.subject.size
  slots : s.slots.size = t.program.slotCount
  stack : ∀ frame ∈ s.stack, frame.InBounds t
  memo : s.memo.Fits t

def Outcome.InBounds (t : Task) (start : Nat) : Outcome → Prop
  | running s | accepted s => s.InBounds t start
  | failed s => s.memo.Fits t

namespace State

variable {t : Task} {start : Nat} {s s' : State} {instr : Instr}

theorem inBounds_backtrackTo {frames : List Frame} (hs : s.InBounds t start)
    (hframes : ∀ frame ∈ frames, frame.InBounds t) : (s.backtrackTo frames).InBounds t start := by
  induction frames generalizing s with
  | nil => exact hs.memo
  | cons frame rest ih =>
    have hrest : ∀ frame ∈ rest, frame.InBounds t :=
      fun other hother => hframes other (List.mem_cons_of_mem frame hother)
    cases frame with
    | retry address pos =>
      obtain ⟨haddress, hpos⟩ := hframes _ List.mem_cons_self
      exact ⟨haddress, hpos, hs.started, hs.maxPos, hs.slots, hrest, hs.memo⟩
    | restoreSlot slot offset =>
      have hslots : (s.slots.setIfInBounds slot offset).size = t.program.slotCount :=
        Array.size_setIfInBounds.trans hs.slots
      exact ih ⟨hs.address, hs.pos, hs.started, hs.maxPos, hslots, hs.stack, hs.memo⟩ hrest
    | restoreRound loop offset =>
      exact ih ⟨hs.address, hs.pos, hs.started, hs.maxPos, hs.slots, hs.stack, hs.memo⟩ hrest

theorem InBounds.backtrack (hs : s.InBounds t start) : s.backtrack.InBounds t start :=
  inBounds_backtrackTo hs hs.stack

theorem InBounds.goto (hs : s.InBounds t start) {address : Nat}
    (haddress : address < t.program.size) : (s.goto address).InBounds t start :=
  ⟨haddress, hs.pos, hs.started, hs.maxPos, hs.slots, hs.stack, hs.memo⟩

theorem InBounds.require (hs : s.InBounds t start) (hnext : s.address + 1 < t.program.size)
    (condition : Bool) : (s.require condition).InBounds t start := by
  cases condition
  · exact hs.backtrack
  · exact hs.goto hnext

theorem InBounds.read (hs : s.InBounds t start) (hnext : s.address + 1 < t.program.size)
    (accepts : UInt8 → Bool) : (s.read t.subject accepts).InBounds t start := by
  unfold State.read
  split
  · next hpos =>
    split
    · exact ⟨hnext, hpos, Nat.le_trans hs.started (Nat.le_max_left _ _),
        Nat.max_le.mpr ⟨hs.maxPos, hpos⟩, hs.slots, hs.stack, hs.memo⟩
    · exact hs.backtrack
  · exact hs.backtrack

theorem InBounds.push (hs : s.InBounds t start) {frame : Frame} (hframe : frame.InBounds t) :
    ∀ other ∈ frame :: s.stack, other.InBounds t := by
  intro other hother
  rcases List.mem_cons.mp hother with rfl | hother
  · exact hframe
  · exact hs.stack other hother

theorem InBounds.split (hs : s.InBounds t start) {first second : Nat}
    (hfirst : first < t.program.size) (hsecond : second < t.program.size) (id : Nat) :
    (s.split t id first second).InBounds t start := by
  have hmemo := hs.memo.visit (s.cell t.program id)
  rw [split_eq]
  dsimp only
  split
  · have hstack := hs.push (show (Frame.retry second s.pos).InBounds t from ⟨hsecond, hs.pos⟩)
    exact ⟨hfirst, hs.pos, hs.started, hs.maxPos, hs.slots, hstack, hmemo⟩
  · exact inBounds_backtrackTo ⟨hs.address, hs.pos, hs.started, hs.maxPos, hs.slots,
      hs.stack, hmemo⟩ hs.stack

theorem InBounds.exists_instr (hs : s.InBounds t start) :
    ∃ instr, t.program.instrs[s.address]? = some instr :=
  ⟨_, Array.getElem?_eq_getElem hs.address⟩

/-- The cell that a split looks up is one of the table. -/
theorem InBounds.cell_lt (hs : s.InBounds t start) (hp : t.program.Coherent) {id first second : Nat}
    (hinstr : t.program.instrs[s.address]? = some (.split id first second)) :
    s.cell t.program id < t.tableSize := by
  rw [cell_eq hinstr hp]
  exact hp.laidOut.cellOf_lt (hp.fits.split_lt hinstr) (isKey_spot hinstr hp).idle_le hs.pos

/-- An instruction leads nowhere else. -/
theorem InBounds.step (hs : s.InBounds t start) (hp : t.program.Closed) :
    (s.step t).InBounds t start := by
  obtain ⟨instr, hinstr⟩ := hs.exists_instr
  have hadvances := hp.advancing _ _ hinstr
  have hfits := hp.coherent.fits _ _ hinstr
  rw [step_eq, hinstr, Option.elim_some]
  cases instr with
  | accept => exact hs
  | byte b => exact hs.read hadvances.lt_size (· == b)
  | any => exact hs.read hadvances.lt_size fun _ => true
  | oneOf set => exact hs.read hadvances.lt_size set.contains
  | split id first second => exact hs.split hadvances.1 hadvances.2 id
  | jump target => exact hs.goto hadvances.lt_size
  | save slot =>
    have hframe : (Frame.restoreSlot slot (s.slots.getD slot none)).InBounds t := hp.slots hinstr
    have hslots : (s.slots.setIfInBounds slot (some s.pos)).size = t.program.slotCount :=
      Array.size_setIfInBounds.trans hs.slots
    exact ⟨hadvances.lt_size, hs.pos, hs.started, hs.maxPos, hslots, hs.push hframe, hs.memo⟩
  | textStart => exact hs.require hadvances.lt_size _
  | textEnd => exact hs.require hadvances.lt_size _
  | roundStart loop =>
    have hframe : (Frame.restoreRound loop (s.roundStarts.getD loop 0)).InBounds t := hfits.2.1
    exact ⟨hadvances.lt_size, hs.pos, hs.started, hs.maxPos, hs.slots, hs.push hframe, hs.memo⟩
  | roundEnd loop exit =>
    show (s.endRound loop exit).InBounds t start
    unfold endRound
    split
    · exact hs.goto hadvances.1.lt_size
    · exact hs.goto hadvances.2.lt_size

theorem InBounds.leads {n : Nat} {o : Outcome} (hs : s.InBounds t start) (hp : t.program.Closed)
    (h : Leads t s n o) : o.InBounds t start := by
  induction h with
  | one s => exact hs.step hp
  | more hstep _ ih =>
    have hnext := hs.step hp
    rw [hstep] at hnext
    exact ih hnext

theorem inBounds_begin (hp : t.program.Closed) {trail : Trail} (hmemo : trail.memo.Fits t)
    (hstart : start ≤ t.subject.size) : (trail.begin t.program start).InBounds t start :=
  ⟨hp.nonempty, hstart, Nat.le_refl _, hstart, Array.size_replicate,
    fun _ h => absurd h List.not_mem_nil, hmemo⟩

end State

/-- An attempt hands on a table of the same size. -/
theorem Trail.Takes.fits {t : Task} {trail next : Trail} {start n : Nat} {result : AttemptEnd}
    (h : trail.Takes t start n result next) (hp : t.program.Closed) (hmemo : trail.memo.Fits t)
    (hstart : start ≤ t.subject.size) : next.memo.Fits t := by
  have hbegin := State.inBounds_begin hp hmemo hstart
  cases h with
  | accepted h =>
    have hend := hbegin.leads hp h
    exact Memo.Fits.forget hend.memo _ _ _
  | failed h => exact hbegin.leads hp h

end ByteRegex
