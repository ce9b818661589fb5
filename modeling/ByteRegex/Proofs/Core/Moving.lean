import ByteRegex.Proofs.Core.Code

/-!
# Moving code

Code that is moved to another place is the code of that place. The statement has to hold inside a
moved block too, where the code does not start at the place that is moved, and the loops around it
may be moved along with it or not: `Core.carry_code` speaks of code at a distance `d` from the place
that is moved.
-/

namespace ByteRegex

namespace Block

/-- The block as it reads when the code around it is moved from `old` to `new`. -/
def carry (old new : Place) (b : Block) : Block :=
  { start := ⟨shift old.address new.address b.start.address,
      shift old.splits new.splits b.start.splits, shift old.loops new.loops b.start.loops⟩
    instrs := b.instrs.map (moveInstr old new)
    splitScopes := b.splitScopes.map (Option.map (moveLoop old new))
    loopParents := b.loopParents.map (Option.map (moveLoop old new)) }

theorem carry_append (old new : Place) (a b : Block) :
    (a ++ b).carry old new = a.carry old new ++ b.carry old new := by
  show carry old new (append a b) = append (a.carry old new) (b.carry old new)
  simp only [carry, append, Array.map_append]

theorem shift_add (old new n : Nat) : shift old new (old + n) = new + n := by
  unfold shift
  omega

theorem shift_of_le {old n : Nat} (h : old ≤ n) (d : Nat) : shift old (old + d) n = n + d := by
  unfold shift
  omega

theorem moveTo_eq_carry (b : Block) (p : Place) : b.moveTo p = b.carry b.start p := by
  have h : ∀ old new, shift old new old = new := fun old new => shift_add old new 0
  simp only [moveTo, carry, h]

variable (p p' d : Place)

theorem shift_address_offset :
    shift p.address p'.address (p.offset d).address = (p'.offset d).address :=
  shift_add _ _ _

theorem moveLoop_offset : moveLoop p p' (p.offset d).loops = (p'.offset d).loops := by
  have h : ¬(p.offset d).loops < p.loops := Nat.not_lt.mpr (Nat.le_add_right _ _)
  simp only [moveLoop, h, if_false]
  exact shift_add _ _ _

theorem moveLoop_of_le {loop : Nat} (h : p.loops ≤ loop) :
    moveLoop p (p.offset d) loop = loop + d.loops := by
  rw [moveLoop, if_neg (Nat.not_lt.mpr h)]
  exact shift_of_le h d.loops

theorem carry_nil : (nil (p.offset d)).carry p p' = nil (p'.offset d) := by
  simp only [carry, nil, Place.offset, shift_add, Array.map_empty]

theorem carry_single (instr : Instr) :
    (single (p.offset d) instr).carry p p' = single (p'.offset d) (moveInstr p p' instr) := by
  simp only [carry, single, Place.offset, shift_add, List.map_toArray, List.map_cons, List.map_nil]

theorem carry_split (scope : Option Nat) (first second : Nat) :
    (split (p.offset d) scope first second).carry p p' =
      split (p'.offset d) (scope.map (moveLoop p p')) (shift p.address p'.address first)
        (shift p.address p'.address second) := by
  simp only [carry, split, Place.offset, shift_add, List.map_toArray, List.map_cons, List.map_nil,
    moveInstr]

theorem carry_roundStart (scope : Option Nat) :
    (roundStart (p.offset d) scope).carry p p' =
      roundStart (p'.offset d) (scope.map (moveLoop p p')) := by
  have h := moveLoop_offset p p' d
  simp only [Place.offset] at h
  simp only [carry, roundStart, Place.offset, shift_add, List.map_toArray,
    List.map_cons, List.map_nil, moveInstr, h]

theorem carry_greed_split (greed : Greed) (scope : Option Nat) (prefer other : Nat) :
    (greed.split (p.offset d) scope prefer other).carry p p' =
      greed.split (p'.offset d) (scope.map (moveLoop p p')) (shift p.address p'.address prefer)
        (shift p.address p'.address other) := by
  cases greed
  · exact carry_split p p' d scope prefer other
  · exact carry_split p p' d scope other prefer

end Block

namespace Core

open Block

variable (p p' d : Place)

theorem after_offset (c : Core) : c.after (p.offset d) = p.offset (c.after d) :=
  Place.offset_offset p d c.extent

theorem moveInstr_atom (a : Atom) : moveInstr p p' a.instr = a.instr := by
  cases a <;> rfl

theorem carry_round {watched : Bool} {a : Core} (scope : Option Nat)
    (ha : ∀ d scope, (a.code (p.offset d) scope).carry p p' =
      a.code (p'.offset d) (scope.map (moveLoop p p'))) :
    (Block.round watched a.extent a.code (p.offset d) scope).carry p p' =
      Block.round watched a.extent a.code (p'.offset d) (scope.map (moveLoop p p')) := by
  cases watched
  · exact ha d scope
  · have hbody := ha d.nextRound (some (p.offset d).loops)
    rw [Option.map_some, moveLoop_offset] at hbody
    have hexit : shift p.address p'.address ((p.offset (d.nextRound.offset a.extent)).address + 2) =
        (p'.offset (d.nextRound.offset a.extent)).address + 2 :=
      shift_add _ _ (_ + 2)
    have hnext : ∀ p : Place, (p.offset d).nextRound = p.offset d.nextRound := fun _ => rfl
    simp only [Block.round, if_true, carry_append, hnext, Place.offset_offset,
      carry_roundStart, hbody, carry_single, moveInstr, moveLoop_offset, hexit]

/-- Moving the code around a place moves the code at the place. -/
theorem carry_code (c : Core) (scope : Option Nat) :
    (c.code (p.offset d) scope).carry p p' = c.code (p'.offset d) (scope.map (moveLoop p p')) := by
  have hsplit : ∀ p d : Place, (p.offset d).nextSplit = p.offset d.nextSplit := fun _ _ => rfl
  have hnext : ∀ p d : Place, (p.offset d).next = p.offset d.next := fun _ _ => rfl
  -- The scope varies: the body of a watched round is in a loop that is moved together with it.
  induction c generalizing d scope with
  | nothing => exact carry_nil p p' d
  | atom a => rw [code, carry_single, moveInstr_atom, code]
  | seq a b iha ihb => simp only [code, carry_append, after_offset, iha, ihb]
  | either a b iha ihb =>
    simp only [code, carry_append, hsplit, hnext, after_offset, carry_split,
      carry_single, moveInstr, shift_address_offset, iha, ihb]
  | optional a greed ih =>
    simp only [code, carry_append, hsplit, after_offset, carry_greed_split,
      shift_address_offset, ih]
  | star watched a greed ih =>
    simp only [code, carry_append, hsplit, hnext, Place.offset_offset,
      carry_greed_split, carry_single, moveInstr, shift_address_offset, carry_round _ _ _ _ ih]
  | plus watched a greed ih =>
    simp only [code, carry_append, hsplit, Place.offset_offset, carry_greed_split,
      shift_address_offset, carry_round _ _ _ _ ih]

/-- The code of one place, moved to another one, is the code of that place: loops around the code
are numbered below those in it, so they stay what they are. -/
theorem moveTo_code (c : Core) {scope : Option Nat} (hscope : ∀ l ∈ scope, l < p.loops) :
    (c.code p scope).moveTo p' = c.code p' scope := by
  have hstay : scope.map (moveLoop p p') = scope := by
    cases scope with
    | none => rfl
    | some l =>
      have hl : l < p.loops := hscope l rfl
      simp only [Option.map_some, moveLoop, hl, if_true]
  rw [moveTo_eq_carry, start_code]
  have h := carry_code p p' .start c scope
  rwa [Place.offset_start, Place.offset_start, hstay] at h

end Core

end ByteRegex
