import ByteRegex.Proofs.Exec.Simulation
import ByteRegex.Proofs.Program.Cells

/-!
# What the memory tells

A mark in the table stands for a spot at a split. The memory is sound as long as every marked spot
either has been given up on for good reason or is still being explored.
-/

namespace ByteRegex

/-- The program has the tables and the memory that its code asks for. -/
structure Program.Coherent (p : Program) : Prop where
  fits : p.Scoped
  laidOut : p.LaidOut

theorem Core.coherent_program (c : Core) (captures : Nat) : (c.program captures).Coherent :=
  ⟨c.scoped_program captures, rfl⟩

/-- The spot is at the split `id`, and no more rounds are idle than there are loops around it. -/
structure Spot.IsKey (p : Program) (id : Nat) (k : Spot) : Prop where
  atSplit : ∃ first second, p.instrs[k.address]? = some (.split id first second)
  idle_le : k.idle ≤ p.depthOf id

namespace Memo

def isMarked : Memo → (cell : Nat) → Bool
  | active table, cell => table.isMarked cell
  | unused, _ | dropped, _ => false

def Marks (p : Program) (memo : Memo) (k : Spot) : Prop :=
  ∃ id, k.IsKey p id ∧ memo.isMarked (p.cellOf id k.pos k.idle) = true

/-- No path from a marked spot accepts, unless the spot is one of those that are still open. -/
def Sound (t : Task) (memo : Memo) (Open : Spot → Prop) : Prop :=
  ∀ k, memo.Marks t.program k → k.Dead t ∨ Open k

variable {p : Program} {memo memo' : Memo} {size maxSize cell : Nat}

theorem not_marks_unused (p : Program) (k : Spot) : ¬Memo.unused.Marks p k := by
  rintro ⟨_, _, h⟩
  exact Bool.false_ne_true h

theorem visit_of_seen (h : memo.visit size maxSize cell = (false, memo')) :
    memo.isMarked cell = true ∧ memo' = memo := by
  cases memo with
  | unused =>
    simp only [visit] at h
    split at h <;> simp at h
  | active table =>
    simp only [visit] at h
    split at h
    · next hmarked => exact ⟨hmarked, (Prod.mk.inj h).2.symm⟩
    · simp at h
  | dropped => simp [visit] at h

theorem visit_of_new (h : memo.visit size maxSize cell = (true, memo')) {j : Nat}
    (hj : memo'.isMarked j = true) : memo.isMarked j = true ∨ j = cell := by
  cases memo with
  | unused =>
    simp only [visit] at h
    split at h
    · obtain rfl := (Prod.mk.inj h).2
      simp only [isMarked, MarkTable.isMarked_mark, MarkTable.isMarked_blank, Bool.false_or,
        decide_eq_true_eq] at hj
      exact Or.inr hj.1.symm
    · obtain rfl := (Prod.mk.inj h).2
      exact absurd hj Bool.false_ne_true
  | active table =>
    simp only [visit] at h
    split at h
    · simp at h
    · obtain rfl := (Prod.mk.inj h).2
      simp only [isMarked, MarkTable.isMarked_mark, Bool.or_eq_true, decide_eq_true_eq] at hj
      rcases hj with hj | hj
      · exact Or.inl hj
      · exact Or.inr hj.1.symm
  | dropped =>
    obtain rfl := (Prod.mk.inj h).2
    exact absurd hj Bool.false_ne_true

/-- After a visit to a new spot nothing else is marked that was not marked before. -/
theorem marks_of_visit (hp : p.Coherent) {c k : Spot} {id : Nat} (hc : c.IsKey p id)
    (h : memo.visit size maxSize (p.cellOf id c.pos c.idle) = (true, memo'))
    (hk : memo'.Marks p k) : memo.Marks p k ∨ k = c := by
  obtain ⟨id', hkey, hmarked⟩ := hk
  rcases visit_of_new h hmarked with hmarked | hcell
  · exact Or.inl ⟨id', hkey, hmarked⟩
  · obtain ⟨_, _, hkinstr⟩ := hkey.atSplit
    obtain ⟨_, _, hcinstr⟩ := hc.atSplit
    obtain ⟨rfl, hpos, hidle⟩ :=
      hp.laidOut.cellOf_inj (hp.fits.split_lt hkinstr) (hp.fits.split_lt hcinstr)
      hkey.idle_le hc.idle_le hcell
    have haddress := hp.fits.split_unique hkinstr hcinstr
    obtain ⟨kaddress, kpos, kidle⟩ := k
    obtain rfl : kaddress = c.address := haddress
    obtain rfl : kpos = c.pos := hpos
    obtain rfl : kidle = c.idle := hidle
    exact Or.inr rfl

/-- What is marked after offsets have been forgotten was marked before, at another offset. -/
theorem marks_of_forget (hp : p.Coherent) {first last : Nat} {k : Spot}
    (hk : (memo.forget p.memo.cells first last).Marks p k) :
    memo.Marks p k ∧ ¬(first ≤ k.pos ∧ k.pos ≤ last) := by
  obtain ⟨id, hkey, hmarked⟩ := hk
  obtain ⟨_, _, hinstr⟩ := hkey.atSplit
  cases memo with
  | unused => exact absurd hmarked Bool.false_ne_true
  | dropped => exact absurd hmarked Bool.false_ne_true
  | active table =>
    simp only [forget, isMarked, MarkTable.isMarked_clear, Bool.and_eq_true, Bool.not_eq_true',
      decide_eq_false_iff_not] at hmarked
    refine ⟨⟨id, hkey, hmarked.1⟩, fun h => hmarked.2 ?_⟩
    exact hp.laidOut.cellOf_mem (hp.fits.split_lt hinstr) hkey.idle_le h.1 h.2

end Memo

namespace State

variable {t : Task} {s : State} {id first second : Nat}

/-- At a split the machine is at a spot that the memory has a cell for. -/
theorem isKey_spot (hinstr : t.program.instrs[s.address]? = some (.split id first second))
    (hp : t.program.Coherent) : (s.spot t).IsKey t.program id := by
  refine ⟨⟨first, second, hinstr⟩, ?_⟩
  show roundsAt _ _ _ _ ≤ _
  rw [Program.depthOf, hp.fits.scope_of_split hinstr]
  exact roundsAt_le_length_chain

theorem cell_eq (hinstr : t.program.instrs[s.address]? = some (.split id first second))
    (hp : t.program.Coherent) :
    s.cell t.program id = t.program.cellOf id (s.spot t).pos (s.spot t).idle := by
  rw [cell, hp.fits.scope_of_split hinstr]
  rfl

theorem split_eq (t : Task) (s : State) (id first second : Nat) :
    s.split t id first second =
      let visited := s.memo.visit (t.program.tableSize t.subject.size) t.maxTableSize
        (s.cell t.program id)
      if visited.1 then { s with memo := visited.2 }.choose first second
      else { s with memo := visited.2 }.backtrack := rfl

/-- A split either fails, at a spot that is marked, or tries its first side, and marks the spot. -/
theorem split_cases (hinstr : t.program.instrs[s.address]? = some (.split id first second))
    (hp : t.program.Coherent) :
    (s.memo.Marks t.program (s.spot t) ∧ s.split t id first second = s.backtrack) ∨
    ∃ memo, (∀ k, memo.Marks t.program k → s.memo.Marks t.program k ∨ k = s.spot t) ∧
      s.split t id first second = { s with memo := memo }.choose first second := by
  have hkey := isKey_spot hinstr hp
  have hcell := cell_eq hinstr hp
  have hsplit := split_eq t s id first second
  cases hvisit : s.memo.visit (t.program.tableSize t.subject.size) t.maxTableSize
      (s.cell t.program id) with
  | mk isNew memo =>
    rw [hvisit] at hsplit
    cases isNew with
    | false =>
      obtain ⟨hmarked, rfl⟩ := Memo.visit_of_seen hvisit
      rw [hcell] at hmarked
      exact Or.inl ⟨⟨id, hkey, hmarked⟩, hsplit⟩
    | true =>
      rw [hcell] at hvisit
      exact Or.inr ⟨memo, fun k hk => Memo.marks_of_visit hp hkey hvisit hk, hsplit⟩

end State

end ByteRegex
