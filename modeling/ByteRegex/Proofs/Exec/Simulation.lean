import ByteRegex.Proofs.Exec.Rounds
import ByteRegex.Proofs.Exec.Spot
import ByteRegex.Proofs.Program.Scopes

/-!
# The machine follows spots

A state of the machine is at a spot, and executing one instruction does to it what the turn of the
spot says. What a step changes it also puts on the stack, so that taking back the stack restores
captures and round starts exactly.
-/

namespace ByteRegex

/-- Putting back what an entry was before undoes a change. -/
theorem setIfInBounds_restore {α : Type} (xs : Array α) (i : Nat) (x default : α) :
    (xs.setIfInBounds i x).setIfInBounds i (xs.getD i default) = xs := by
  rw [Array.setIfInBounds_setIfInBounds]
  refine Array.ext_getElem? (fun j => ?_)
  rw [Array.getElem?_setIfInBounds]
  by_cases hij : i = j
  · subst hij
    by_cases hi : i < xs.size
    · simp only [hi, if_true, Array.getD_eq_getD_getElem?, Array.getElem?_eq_getElem,
        Option.getD_some]
    · simp only [hi, if_true, if_false, Array.getElem?_eq_none (Nat.le_of_not_lt hi)]
  · rw [if_neg hij]

namespace State

def spot (t : Task) (s : State) : Spot :=
  ⟨s.address, s.pos,
    roundsAt t.program.loopParents s.roundStarts s.pos (t.program.scopeAt s.address)⟩

/-- What is true of the states of an attempt. -/
structure Orderly (t : Task) (s : State) : Prop where
  maxPos : s.pos ≤ s.maxPos
  loops : s.roundStarts.size = t.program.loopCount
  nested : Nested t.program.loopParents s.roundStarts s.pos (t.program.scopeAt s.address)

/-- Taking back the stack of `s'` comes to taking back the stack of `s` with the captures and the
round starts of `s`. -/
def Undoes (s' s : State) : Prop :=
  ∀ u : State, u.slots = s'.slots → u.roundStarts = s'.roundStarts →
    u.backtrackTo s'.stack =
      { u with slots := s.slots, roundStarts := s.roundStarts }.backtrackTo s.stack

theorem undoes_of_eq {s' s : State} (hslots : s'.slots = s.slots)
    (hstarts : s'.roundStarts = s.roundStarts) (hstack : s'.stack = s.stack) : Undoes s' s := by
  intro u hu hu'
  rw [hstack, ← hslots, ← hstarts, ← hu, ← hu']

/-- The machine comes from `s` to the spot `d` and is in the state `s'` there. -/
structure Moves (t : Task) (s s' : State) (d : Spot) : Prop where
  orderly : s'.Orderly t
  spot : s'.spot t = d
  memo : s'.memo = s.memo
  pos : s.pos ≤ s'.pos
  maxPos : s.maxPos ≤ s'.maxPos
  grows : s.stack <:+ s'.stack
  undoes : Undoes s' s

/-- The instruction at the address of a state, as `step` executes it. -/
def obey (t : Task) (s : State) : Instr → Outcome
  | .accept => .accepted s
  | .byte b => s.read t.subject (· == b)
  | .any => s.read t.subject (fun _ => true)
  | .oneOf set => s.read t.subject set.contains
  | .split id first second => s.split t id first second
  | .jump target => s.goto target
  | .save slot => s.save slot
  | .textStart => s.require (s.pos == 0)
  | .textEnd => s.require (s.pos == t.subject.size)
  | .roundStart loop => s.startRound loop
  | .roundEnd loop exit => s.endRound loop exit

theorem step_eq (t : Task) (s : State) :
    s.step t = (t.program.instrs[s.address]?).elim s.backtrack (s.obey t) := by
  unfold step
  split
  · next h =>
    rw [Array.getElem?_eq_getElem h, Option.elim_some]
    cases t.program.instrs[s.address] <;> rfl
  · next h => rw [Array.getElem?_eq_none (by omega), Option.elim_none]

/-- What a step does, as the turn of the spot tells it. -/
inductive Follows (t : Task) (s : State) : Turn → Outcome → Prop where
  | accept : Follows t s .accept (.accepted s)
  | fail : Follows t s .fail s.backtrack
  | go {s' d} (h : Moves t s s' d) (hslots : s'.slots = s.slots) : Follows t s (.go d) (.running s')
  | save {s' slot d} (h : Moves t s s' d)
      (hslots : s'.slots = s.slots.setIfInBounds slot (some s.pos)) :
      Follows t s (.save slot d) (.running s')
  | choose {id first second}
      (hinstr : t.program.instrs[s.address]? = some (.split id first second)) :
      Follows t s (.choose ((s.spot t).goto first) ((s.spot t).goto second))
        (s.split t id first second)

section Steps

variable {t : Task} {s : State}

/-- Another side of a split, taken with the round starts that the split was reached with. -/
theorem Orderly.resume (hs : s.Orderly t) {u : State} (hstarts : u.roundStarts = s.roundStarts)
    (hmaxPos : s.maxPos ≤ u.maxPos) {address : Nat}
    (hscope : t.program.scopeAt address = t.program.scopeAt s.address) (stack : List Frame) :
    ({ u with address := address, pos := s.pos, stack := stack } : State).Orderly t ∧
      ({ u with address := address, pos := s.pos, stack := stack } : State).spot t =
        (s.spot t).goto address := by
  refine ⟨⟨Nat.le_trans hs.maxPos hmaxPos, ?_, ?_⟩, ?_⟩
  · show u.roundStarts.size = _
    rw [hstarts, hs.loops]
  · show Nested _ u.roundStarts s.pos (t.program.scopeAt address)
    rw [hstarts, hscope]
    exact hs.nested
  · show Spot.mk address s.pos (roundsAt _ u.roundStarts s.pos (t.program.scopeAt address)) = _
    rw [hstarts, hscope]
    rfl

/-- Going on elsewhere in the same loop. -/
theorem moves_goto (hs : s.Orderly t) {address : Nat}
    (hscope : t.program.scopeAt address = t.program.scopeAt s.address) :
    Moves t s { s with address := address } ((s.spot t).goto address) where
  orderly := (hs.resume rfl (Nat.le_refl _) hscope s.stack).1
  spot := (hs.resume rfl (Nat.le_refl _) hscope s.stack).2
  memo := rfl
  pos := Nat.le_refl _
  maxPos := Nat.le_refl _
  grows := List.suffix_rfl
  undoes := undoes_of_eq rfl rfl rfl

theorem follows_read (hs : s.Orderly t)
    (hscope : t.program.scopeAt (s.address + 1) = t.program.scopeAt s.address)
    (accepts : UInt8 → Bool) :
    Follows t s ((s.spot t).read t.subject accepts) (s.read t.subject accepts) := by
  by_cases hpos : s.pos < t.subject.size
  · by_cases haccepts : accepts t.subject[s.pos] = true
    · simp only [Spot.read, State.read, State.spot, hpos, haccepts, dif_pos, if_true]
      refine .go ⟨⟨Nat.le_max_right _ _, hs.loops, ?_⟩, ?_, rfl, Nat.le_succ _, Nat.le_max_left _ _,
        List.suffix_rfl, undoes_of_eq rfl rfl rfl⟩ rfl
      · show Nested _ _ _ (t.program.scopeAt (s.address + 1))
        rw [hscope]
        exact hs.nested.mono (Nat.le_succ _)
      · show Spot.mk _ _ (roundsAt _ _ _ (t.program.scopeAt (s.address + 1))) = _
        rw [hscope, hs.nested.roundsAt_of_lt (Nat.lt_succ_self _)]
    · simp only [Spot.read, State.read, State.spot, hpos, haccepts, dif_pos,
        Bool.false_eq_true, if_false]
      exact .fail
  · have hturn : (s.spot t).read t.subject accepts = .fail := dif_neg hpos
    have hstep : s.read t.subject accepts = s.backtrack := dif_neg hpos
    rw [hturn, hstep]
    exact .fail

theorem follows_require (hs : s.Orderly t)
    (hscope : t.program.scopeAt (s.address + 1) = t.program.scopeAt s.address) (condition : Bool) :
    Follows t s ((s.spot t).require condition) (s.require condition) := by
  cases condition
  · exact .fail
  · exact .go (moves_goto hs hscope) rfl

theorem follows_save (hs : s.Orderly t)
    (hscope : t.program.scopeAt (s.address + 1) = t.program.scopeAt s.address) (slot : Nat) :
    Follows t s (.save slot ((s.spot t).goto (s.address + 1))) (s.save slot) := by
  have hmoves := moves_goto hs hscope
  refine .save ⟨⟨hs.maxPos, hs.loops, hmoves.orderly.nested⟩, hmoves.spot, rfl, Nat.le_refl _,
    Nat.le_refl _, List.suffix_cons _ _, ?_⟩ rfl
  intro u hslots hstarts
  have hrestore : u.slots.setIfInBounds slot (s.slots.getD slot none) = s.slots := by
    rw [hslots]
    exact setIfInBounds_restore _ _ _ _
  show State.backtrackTo { u with slots := u.slots.setIfInBounds slot _ } s.stack = _
  rw [hrestore, show u.roundStarts = s.roundStarts from hstarts]

theorem follows_startRound (hs : s.Orderly t) {loop : Nat}
    (hfits : t.program.Fits s.address (.roundStart loop))
    (hinstr : t.program.instrs[s.address]? = some (.roundStart loop)) :
    Follows t s (.go ⟨s.address + 1, s.pos, (s.spot t).idle + 1⟩) (s.startRound loop) := by
  obtain ⟨_, hloop, hparent⟩ := hfits
  have hscope : t.program.scopeAt (s.address + 1) = some loop := by
    rw [Program.scopeAt, hinstr]
  have houter : ∀ outer, t.program.scopeAt s.address = some outer → outer < loop := by
    intro outer h
    rw [← hparent] at h
    exact Loops.lt_of_parent? h
  have hstart : (s.roundStarts.setIfInBounds loop s.pos)[loop]? = some s.pos := by
    rw [← hs.loops] at hloop
    exact Array.getElem?_setIfInBounds_self_of_lt hloop
  refine .go ⟨⟨hs.maxPos, ?_, ?_⟩, ?_, rfl, Nat.le_refl _, Nat.le_refl _,
    List.suffix_cons _ _, ?_⟩ rfl
  · exact Array.size_setIfInBounds.trans hs.loops
  · show Nested _ _ _ (t.program.scopeAt (s.address + 1))
    rw [hscope]
    refine .some hstart (Nat.le_refl _) ?_
    rw [hparent]
    exact hs.nested.setIfInBounds houter
  · show Spot.mk _ _ (roundsAt _ _ _ (t.program.scopeAt (s.address + 1))) = _
    rw [hscope, roundsAt_some, if_pos hstart, hparent, roundsAt_setIfInBounds houter]
    rfl
  · intro u hslots hstarts
    have hrestore :
        u.roundStarts.setIfInBounds loop (s.roundStarts.getD loop 0) = s.roundStarts := by
      rw [hstarts]
      exact setIfInBounds_restore _ _ _ _
    show State.backtrackTo { u with roundStarts := u.roundStarts.setIfInBounds loop _ } s.stack = _
    rw [hrestore, show u.slots = s.slots from hslots]

theorem follows_endRound (hs : s.Orderly t) {loop exit : Nat}
    (hfits : t.program.Fits s.address (.roundEnd loop exit))
    (hinstr : t.program.instrs[s.address]? = some (.roundEnd loop exit)) :
    Follows t s ((s.spot t).obey t.subject (.roundEnd loop exit)) (s.endRound loop exit) := by
  obtain ⟨hscope, hexit⟩ := hfits
  have hnext : t.program.scopeAt (s.address + 1) = Loops.parent? t.program.loopParents loop := by
    rw [Program.scopeAt, hinstr]
  have hidle : (s.spot t).idle = if s.roundStarts[loop]? = some s.pos then
      roundsAt t.program.loopParents s.roundStarts s.pos
        (Loops.parent? t.program.loopParents loop) + 1
      else 0 := by
    show roundsAt _ _ _ (t.program.scopeAt s.address) = _
    rw [hscope, roundsAt_some]
  have hnested := hs.nested
  rw [hscope] at hnested
  by_cases hempty : s.roundStarts[loop]? = some s.pos
  · rw [if_pos hempty] at hidle
    have hturn : (s.spot t).obey t.subject (.roundEnd loop exit) = .go ⟨exit, s.pos,
        roundsAt t.program.loopParents s.roundStarts s.pos
          (Loops.parent? t.program.loopParents loop)⟩ := by
      show (if (s.spot t).idle = 0 then _ else Turn.go ⟨exit, s.pos, (s.spot t).idle - 1⟩) = _
      rw [hidle, if_neg (Nat.succ_ne_zero _), Nat.add_sub_cancel]
    have hstep : s.endRound loop exit = s.goto exit := if_pos hempty
    rw [hturn, hstep]
    refine .go ⟨⟨hs.maxPos, hs.loops, ?_⟩, ?_, rfl, Nat.le_refl _, Nat.le_refl _,
      List.suffix_rfl, undoes_of_eq rfl rfl rfl⟩ rfl
    · show Nested _ _ _ (t.program.scopeAt exit)
      rw [hexit]
      cases hnested with
      | some _ hle houter => exact houter.mono hle
    · show Spot.mk _ _ (roundsAt _ _ _ (t.program.scopeAt exit)) = _
      rw [hexit]
  · rw [if_neg hempty] at hidle
    have hturn :
        (s.spot t).obey t.subject (.roundEnd loop exit) = .go ⟨s.address + 1, s.pos, 0⟩ := by
      show (if (s.spot t).idle = 0 then Turn.go ⟨s.address + 1, s.pos, (s.spot t).idle⟩ else _) = _
      rw [hidle, if_pos rfl]
    have hstep : s.endRound loop exit = s.goto (s.address + 1) := if_neg hempty
    rw [hturn, hstep]
    cases hnested with
    | @some _ _ start hstart hle houter =>
      have hlt : start < s.pos := by
        rw [hstart] at hempty
        exact Nat.lt_of_le_of_ne hle (fun h => hempty (congrArg some h))
      refine .go ⟨⟨hs.maxPos, hs.loops, ?_⟩, ?_, rfl, Nat.le_refl _, Nat.le_refl _,
      List.suffix_rfl, undoes_of_eq rfl rfl rfl⟩ rfl
      · show Nested _ _ _ (t.program.scopeAt (s.address + 1))
        rw [hnext]
        exact houter.mono hle
      · show Spot.mk _ _ (roundsAt _ _ _ (t.program.scopeAt (s.address + 1))) = _
        rw [hnext, houter.roundsAt_of_lt hlt]

/-- A step follows the turn of the spot that the machine is at. -/
theorem follows_step (hp : t.program.Scoped) (hs : s.Orderly t) :
    Follows t s ((s.spot t).turn t) (s.step t) := by
  rw [step_eq, Spot.turn]
  show Follows t s ((t.program.instrs[s.address]?).elim _ _) _
  cases hinstr : t.program.instrs[s.address]? with
  | none => exact .fail
  | some instr =>
    have hfits := hp s.address instr hinstr
    have hnext : (∀ id, instr ≠ .roundStart id) → (∀ id exit, instr ≠ .roundEnd id exit) →
        t.program.scopeAt (s.address + 1) = t.program.scopeAt s.address := by
      intro hstart hend
      rw [Program.scopeAt, hinstr]
      split
      · next id heq => exact absurd (Option.some.inj heq) (hstart id)
      · next id exit heq => exact absurd (Option.some.inj heq) (hend id exit)
      · rfl
    cases instr with
    | accept => exact .accept
    | byte b => exact follows_read hs (hnext (by simp) (by simp)) (· == b)
    | any => exact follows_read hs (hnext (by simp) (by simp)) (fun _ => true)
    | oneOf set => exact follows_read hs (hnext (by simp) (by simp)) _
    | split id first second => exact .choose hinstr
    | jump target => exact .go (moves_goto hs hfits) rfl
    | save slot => exact follows_save hs (hnext (by simp) (by simp)) slot
    | textStart => exact follows_require hs (hnext (by simp) (by simp)) _
    | textEnd => exact follows_require hs (hnext (by simp) (by simp)) _
    | roundStart id => exact follows_startRound hs hfits hinstr
    | roundEnd id exit => exact follows_endRound hs hfits hinstr

variable {d first second : Spot} {slot : Nat}

theorem step_of_accept (hp : t.program.Scoped) (hs : s.Orderly t)
    (h : (s.spot t).turn t = .accept) : s.step t = .accepted s := by
  have hfollows := follows_step hp hs
  rw [h] at hfollows
  generalize s.step t = o at hfollows
  cases hfollows with
  | accept => rfl

theorem step_of_fail (hp : t.program.Scoped) (hs : s.Orderly t) (h : (s.spot t).turn t = .fail) :
    s.step t = s.backtrack := by
  have hfollows := follows_step hp hs
  rw [h] at hfollows
  generalize s.step t = o at hfollows
  cases hfollows with
  | fail => rfl

theorem step_of_go (hp : t.program.Scoped) (hs : s.Orderly t) (h : (s.spot t).turn t = .go d) :
    ∃ s', s.step t = .running s' ∧ Moves t s s' d ∧ s'.slots = s.slots := by
  have hfollows := follows_step hp hs
  rw [h] at hfollows
  generalize s.step t = o at hfollows
  cases hfollows with
  | go hmoves hslots => exact ⟨_, rfl, hmoves, hslots⟩

theorem step_of_save (hp : t.program.Scoped) (hs : s.Orderly t)
    (h : (s.spot t).turn t = .save slot d) :
    ∃ s', s.step t = .running s' ∧ Moves t s s' d ∧
      s'.slots = s.slots.setIfInBounds slot (some s.pos) := by
  have hfollows := follows_step hp hs
  rw [h] at hfollows
  generalize s.step t = o at hfollows
  cases hfollows with
  | save hmoves hslots => exact ⟨_, rfl, hmoves, hslots⟩

theorem step_of_choose (hp : t.program.Scoped) (hs : s.Orderly t)
    (h : (s.spot t).turn t = .choose first second) :
    ∃ id a b, t.program.instrs[s.address]? = some (.split id a b) ∧ first = (s.spot t).goto a ∧
      second = (s.spot t).goto b ∧ s.step t = s.split t id a b := by
  have hfollows := follows_step hp hs
  rw [h] at hfollows
  generalize s.step t = o at hfollows
  cases hfollows with
  | choose hinstr => exact ⟨_, _, _, hinstr, rfl, rfl, rfl⟩

end Steps

end State

end ByteRegex
