import ByteRegex.Proofs.Exec.Traces

/-!
# Backtracking puts back what there was

What a path records in slots and in the starts of rounds is overwritten in place, and the frame that
undoes it lies on the stack among the sides of splits that are still to be tried. Whichever of these
sides is tried in the end, all that was recorded since its split has been taken back by then:
`Trail.backtracking_restores`.
-/

namespace ByteRegex

/-! ## Taking back frames -/

/-- What a path has recorded: where groups and rounds start and end. -/
abbrev Records := Slots × Array Nat

namespace Frame

def undo : Frame → Records → Records
  | retry _ _, r => r
  | restoreSlot slot offset, r => (r.1.setIfInBounds slot offset, r.2)
  | restoreRound loop offset, r => (r.1, r.2.setIfInBounds loop offset)

def undoAll (frames : List Frame) (r : Records) : Records :=
  frames.foldl (fun r frame => frame.undo r) r

@[simp] theorem undoAll_nil (r : Records) : undoAll [] r = r := rfl

@[simp] theorem undoAll_cons (frame : Frame) (frames : List Frame) (r : Records) :
    undoAll (frame :: frames) r = undoAll frames (frame.undo r) := rfl

end Frame

namespace State

def records (s : State) : Records := (s.slots, s.roundStarts)

/-- What a step does to the stack and to what is recorded. -/
inductive Shifts (t : Task) (s : State) : Outcome → Prop where
  | accept : Shifts t s (.accepted s)
  | back {u : State} (h : u.records = s.records) : Shifts t s (u.backtrackTo s.stack)
  | stay {s' : State} (h : s'.records = s.records) (hstack : s'.stack = s.stack) :
      Shifts t s (.running s')
  | push {s' : State} {frame : Frame} (h : frame.undo s'.records = s.records)
      (hstack : s'.stack = frame :: s.stack)
      (hretry : ∀ address pos, frame = .retry address pos → pos = s.pos ∧
        ∃ id first, t.program.instrs[s.address]? = some (.split id first address)) :
      Shifts t s (.running s')

variable {t : Task} {s s' u v : State}

theorem shifts_require (s : State) (condition : Bool) : s.Shifts t (s.require condition) := by
  cases condition
  · exact .back rfl
  · exact .stay rfl rfl

theorem shifts_read (s : State) (accepts : UInt8 → Bool) :
    s.Shifts t (s.read t.subject accepts) := by
  unfold read
  split
  · split
    · exact .stay rfl rfl
    · exact .back rfl
  · exact .back rfl

theorem shifts_step (t : Task) (s : State) : s.Shifts t (s.step t) := by
  rw [step_eq]
  cases hinstr : t.program.instrs[s.address]? with
  | none => exact .back rfl
  | some instr =>
    rw [Option.elim_some]
    cases instr with
    | accept => exact .accept
    | byte b => exact shifts_read s (· == b)
    | any => exact shifts_read s fun _ => true
    | oneOf set => exact shifts_read s set.contains
    | jump target => exact .stay rfl rfl
    | textStart | textEnd => exact shifts_require s _
    | split id first second =>
      show s.Shifts t (s.split t id first second)
      rw [split_eq]
      dsimp only
      split
      · refine .push rfl rfl ?_
        rintro address pos ⟨⟩
        exact ⟨rfl, id, first, hinstr⟩
      · exact .back rfl
    | save slot =>
      refine .push (Prod.ext ?_ rfl) rfl nofun
      exact setIfInBounds_restore _ _ _ _
    | roundStart loop =>
      refine .push (Prod.ext rfl ?_) rfl nofun
      exact setIfInBounds_restore _ _ _ _
    | roundEnd loop exit =>
      show s.Shifts t (s.endRound loop exit)
      unfold endRound
      split
      · exact .stay rfl rfl
      · exact .stay rfl rfl

end State

/-! ## Above a part of the stack -/

namespace Outcome

/-- On top of `base` the stack has what takes back everything that was recorded since `r`. Once it
is used up `r` is there again, and `base` tells how to go on. -/
inductive Keeps (base : List Frame) (r : Records) : Outcome → Prop where
  | above {s : State} {frames : List Frame} (hstack : s.stack = frames ++ base)
      (h : Frame.undoAll frames s.records = r) : Keeps base r (.running s)
  | accepted (s : State) : Keeps base r (.accepted s)
  | back {o : Outcome} {u : State} (h : u.records = r) (ho : o = u.backtrackTo base) :
      Keeps base r o

variable {t : Task} {base frames : List Frame} {r : Records} {o o' : Outcome} {s u : State}
    {trace : Trace}

theorem keeps_backtrackTo (h : Frame.undoAll frames u.records = r) :
    (u.backtrackTo (frames ++ base)).Keeps base r := by
  induction frames generalizing u with
  | nil => exact .back h rfl
  | cons frame frames ih =>
    cases frame with
    | retry address pos => exact .above rfl h
    | restoreSlot slot offset =>
      exact ih (u := { u with slots := u.slots.setIfInBounds slot offset }) h
    | restoreRound loop offset =>
      exact ih (u := { u with roundStarts := u.roundStarts.setIfInBounds loop offset }) h

theorem keeps_step (hstack : s.stack = frames ++ base) (h : Frame.undoAll frames s.records = r) :
    (s.step t).Keeps base r := by
  have hshifts := s.shifts_step t
  generalize s.step t = o at hshifts
  cases hshifts with
  | accept => exact .accepted s
  | back hu =>
    rw [hstack]
    exact keeps_backtrackTo (hu ▸ h)
  | stay hrecords hstack' => exact .above (hstack'.trans hstack) (hrecords ▸ h)
  | @push _ frame hundo hstack' _ =>
    have habove : (frame :: frames) ++ base = frame :: (frames ++ base) := rfl
    refine .above (hstack'.trans (hstack ▸ habove.symm)) ?_
    rw [Frame.undoAll_cons, hundo, h]

theorem keeps_self (s : State) : (running s).Keeps s.stack s.records :=
  .above (List.nil_append s.stack).symm rfl

/-- As long as the machine executes instructions above `base`, nothing else happens to what lies
below. -/
theorem Keeps.traces (ho : o.Keeps base r) (h : Traces t base.length o trace o') :
    o'.Keeps base r := by
  induction h with
  | refl => exact ho
  | step hheight _ ih =>
    refine ih ?_
    cases ho with
    | above hstack h => exact keeps_step hstack h
    | @back _ u _ ho =>
      have hover := over_backtrackTo (Nat.le_refl base.length) u
      rw [← ho] at hover
      cases hover with
      | running hlt => exact absurd hheight (Nat.not_le_of_lt hlt)

end Outcome

/-! ## Second sides of splits -/

namespace State

open Outcome (Traces Keeps)

/-- The machine is at a split in the state `s`. It goes on with one side in the state `s'`, and
keeps the other side for later. -/
def Splits (t : Task) (s s' : State) : Prop :=
  s.step t = .running s' ∧ ∃ id first second,
    t.program.instrs[s.address]? = some (.split id first second) ∧
    s'.stack = .retry second s.pos :: s.stack

/-- The split in the state `s` kept a side for later, and this is the side that is taken up in the
state `u`: until then the machine has executed instructions above it only. -/
def Retries (t : Task) (s u : State) : Prop :=
  ∃ s' trace, s.Splits t s' ∧ Traces t s'.stack.length (.running s') trace (.running u) ∧
    u.stack.length < s'.stack.length

variable {t : Task} {origin s s' u v v' : State} {frames : List Frame}

/-- The topmost side is taken up, and what lies above it has been put back. -/
theorem of_backtrackTo (h : u.backtrackTo frames = .running v) :
    ∃ above, frames = above ++ .retry v.address v.pos :: v.stack ∧
      v.records = Frame.undoAll above u.records ∧ v.maxPos = u.maxPos := by
  induction frames generalizing u with
  | nil => cases h
  | cons frame frames ih =>
    cases frame with
    | retry address pos =>
      cases h
      exact ⟨[], rfl, rfl, rfl⟩
    | restoreSlot slot offset | restoreRound loop offset =>
      obtain ⟨above, rfl, hrecords, hmaxPos⟩ := ih h
      exact ⟨_ :: above, rfl, hrecords, hmaxPos⟩

/-- A step takes up a side that was kept, or leaves the stack as it is, or puts one frame on it. -/
theorem stack_of_step (h : s.step t = .running s') :
    (∃ above, s.stack = above ++ .retry s'.address s'.pos :: s'.stack) ∨ s'.stack = s.stack ∨
      ∃ frame, s'.stack = frame :: s.stack ∧ frame.undo s'.records = s.records ∧
        ∀ address pos, frame = .retry address pos → s.Splits t s' := by
  have hshifts := s.shifts_step t
  rw [h] at hshifts
  generalize ho : Outcome.running s' = o at hshifts
  cases hshifts with
  | accept => cases ho
  | back _ =>
    obtain ⟨above, habove, _⟩ := of_backtrackTo ho.symm
    exact Or.inl ⟨above, habove⟩
  | stay _ hstack =>
    cases ho
    exact Or.inr (Or.inl hstack)
  | @push _ frame hundo hstack hretry =>
    cases ho
    refine Or.inr (Or.inr ⟨frame, hstack, hundo, ?_⟩)
    rintro address pos rfl
    obtain ⟨rfl, id, first, hinstr⟩ := hretry address pos rfl
    exact ⟨h, id, first, address, hinstr, hstack⟩

theorem Splits.records_eq (h : s.Splits t s') : s'.records = s.records := by
  obtain ⟨hstep, id, first, second, _, hstack⟩ := h
  rcases stack_of_step hstep with ⟨above, habove⟩ | hstay | ⟨frame, hpush, hundo, _⟩
  · have hlength := congrArg List.length habove
    simp only [hstack, List.length_append, List.length_cons] at hlength
    omega
  · simp [hstack] at hstay
  · rw [hstack] at hpush
    cases hpush
    exact hundo

/-- The side that is taken up is the one that was kept, with the records that there were at the
split. -/
theorem Retries.restores (h : s.Retries t u) :
    (∃ id first, t.program.instrs[s.address]? = some (.split id first u.address)) ∧ u.pos = s.pos ∧
      u.stack = s.stack ∧ u.slots = s.slots ∧ u.roundStarts = s.roundStarts := by
  obtain ⟨s', trace, hsplits, htraces, hpopped⟩ := h
  have hkeeps : (Outcome.running s').Keeps s'.stack s.records :=
    hsplits.records_eq ▸ Outcome.keeps_self s'
  obtain ⟨_, id, first, second, hinstr, hstack⟩ := hsplits
  cases hkeeps.traces htraces with
  | above habove _ =>
    rw [habove, List.length_append] at hpopped
    omega
  | back hu ho =>
    rw [hstack] at ho
    cases ho
    exact ⟨⟨id, first, hinstr⟩, rfl, rfl, congrArg Prod.fst hu, congrArg Prod.snd hu⟩

/-! ## Every side that is taken up -/

/-- Wherever a side of a split waits on the stack, a state that was reached from `origin` put it
there, and only instructions above it have been executed since. -/
def Accounted (t : Task) (origin v : State) : Prop :=
  ∀ above address pos rest, v.stack = above ++ .retry address pos :: rest →
    ∃ s s' trace, Reaches t origin s ∧ s.Splits t s' ∧ s'.stack = .retry address pos :: rest ∧
      Traces t s'.stack.length (.running s') trace (.running v)

theorem Accounted.extend (h : Accounted t origin v) (hstep : v.step t = .running v')
    {above rest : List Frame} {address pos : Nat}
    (hstack : v.stack = above ++ .retry address pos :: rest) :
    ∃ s s' trace, Reaches t origin s ∧ s.Splits t s' ∧ s'.stack = .retry address pos :: rest ∧
      Traces t s'.stack.length (.running s') trace (.running v') := by
  obtain ⟨s, s', trace, hs, hsplits, hstack', htraces⟩ := h above address pos rest hstack
  have hheight : s'.stack.length ≤ v.stack.length := by simp [hstack, hstack']
  exact ⟨s, s', _, hs, hsplits, hstack', htraces.concat hheight hstep⟩

theorem Reaches.accounted (h : Reaches t origin v) (hempty : origin.stack = []) :
    Accounted t origin v := by
  induction h with
  | refl =>
    intro above address pos rest hstack
    simp [hempty] at hstack
  | @tail v v' hv hstep ih =>
    intro above address pos rest hstack
    rcases stack_of_step hstep with ⟨taken, htaken⟩ | hstay | ⟨frame, hpush, _, hsplits⟩
    · rw [hstack, ← List.cons_append, ← List.append_assoc] at htaken
      exact ih.extend hstep htaken
    · exact ih.extend hstep (hstay ▸ hstack)
    · rw [hstack] at hpush
      cases above with
      | nil =>
        cases hpush
        exact ⟨v, v', [], hv, hsplits address pos rfl, hstack, .refl _⟩
      | cons frame above =>
        exact ih.extend hstep (List.cons.inj hpush).2.symm

/-- A side that is taken up was kept by a split. -/
theorem Reaches.exists_retries (h : Reaches t origin v) (hempty : origin.stack = [])
    (hstep : v.step t = .running u) (hpopped : u.stack.length < v.stack.length) :
    ∃ s, Reaches t origin s ∧ s.Retries t u := by
  rcases stack_of_step hstep with ⟨above, habove⟩ | hstay | ⟨frame, hpush, _⟩
  · obtain ⟨s, s', trace, hs, hsplits, hstack, htraces⟩ := (h.accounted hempty).extend hstep habove
    exact ⟨s, hs, s', trace, hsplits, htraces, by simp [hstack]⟩
  · simp [hstay] at hpopped
  · rw [hpush, List.length_cons] at hpopped
    omega

end State

namespace Trail

variable {t : Task} {trail : Trail} {start : Nat}

/-- Without any frame on the stack there is nothing left of what was recorded. -/
theorem records_of_failed {s u : State} (hempty : s.stack = []) {n : Nat}
    (h : Leads t s n (.failed u)) : u.records = s.records := by
  obtain ⟨trace, _, htraces⟩ := Outcome.exists_traces_of_leads h
  have hkeeps : (Outcome.running s).Keeps [] s.records := hempty ▸ Outcome.keeps_self s
  cases hkeeps.traces htraces with
  | back hu ho =>
    cases ho
    exact hu

/-- Whenever an attempt takes up a side of a split that was kept for later, slots and starts of
rounds are what they were at the split. When no side is left, no slot is set, and the rounds start
where they did before the attempt, which is what it hands on. -/
theorem backtracking_restores (t : Task) (trail : Trail) (start : Nat) :
    (∀ u v, State.Reaches t (trail.begin t.program start) v → v.step t = .running u →
      u.stack.length < v.stack.length →
        ∃ s, State.Reaches t (trail.begin t.program start) s ∧ s.Retries t u) ∧
    (∀ s u : State, s.Retries t u →
      (∃ id first, t.program.instrs[s.address]? = some (.split id first u.address)) ∧
      u.pos = s.pos ∧ u.stack = s.stack ∧ u.slots = s.slots ∧ u.roundStarts = s.roundStarts) ∧
    ∀ ceiling steps u n, (trail.begin t.program start).run t ceiling steps = .failed u n →
      u.slots = Array.replicate t.program.slotCount none ∧ u.roundStarts = trail.roundStarts ∧
        (trail.attempt t ceiling steps start).trail.roundStarts = trail.roundStarts := by
  refine ⟨fun u v hv hstep hpopped => hv.exists_retries rfl hstep hpopped, fun s u h => h.restores,
    fun ceiling steps u n hrun => ?_⟩
  have hrecords : u.records = (trail.begin t.program start).records := by
    rcases State.run_cases t ceiling steps (trail.begin t.program start) with
      ⟨v, m, hstopped, _⟩ | ⟨v, m, haccepted, _⟩ | ⟨v, m, hfailed, hleads⟩
    · cases hstopped.symm.trans hrun
    · cases haccepted.symm.trans hrun
    · cases hfailed.symm.trans hrun
      exact records_of_failed rfl hleads
  have hstarts : u.roundStarts = trail.roundStarts := congrArg Prod.snd hrecords
  refine ⟨congrArg Prod.fst hrecords, hstarts, ?_⟩
  rw [attempt, hrun]
  exact hstarts

/-- The second round of a loop is given up, and the choice in front of it is taken up again. In the
end the first round starts where it did in an earlier attempt. -/
theorem backtracking_restores_second_round : ∃ (t : Task) (s v u w : State) (n : Nat),
    Program.ofPattern 16
        (.ofExpr (.concat [.star (.group (.optional (.byte 97) .greedy) (some 1)) .greedy,
          .byte 99])) = .ok t.program ∧ t.subject = "ab".toUTF8 ∧
    State.Reaches t (Trail.begin ⟨#[2], .unused⟩ t.program 0) v ∧ v.roundStarts = #[1] ∧
    v.step t = .running u ∧ s.Retries t u ∧ u.roundStarts = #[0] ∧ s.roundStarts = #[0] ∧
    u.slots = s.slots ∧
    (Trail.begin ⟨#[2], .unused⟩ t.program 0).run t (.steps 30) 0 = .failed w n ∧
    w.slots = #[none, none, none, none] ∧ w.roundStarts = #[2] := by
  have hprogram := Program.ofPattern_eq 16
    (.ofExpr (.concat [.star (.group (.optional (.byte 97) .greedy) (some 1)) .greedy, .byte 99]))
  rw [if_pos (by decide)] at hprogram
  have hexists :
      ∃ t : Task, Program.ofPattern 16
          (.ofExpr (.concat [.star (.group (.optional (.byte 97) .greedy) (some 1)) .greedy,
            .byte 99])) = .ok t.program ∧ t.subject = "ab".toUTF8 ∧
      t.program.slotCount = 4 ∧
      (∃ v, State.Reaches t (Trail.begin ⟨#[2], .unused⟩ t.program 0) v ∧
        (match v.step t with
          | .running u =>
            u.stack.length < v.stack.length && v.roundStarts == #[1] && u.roundStarts == #[0]
          | _ => false) = true) ∧
      (match (Trail.begin ⟨#[2], .unused⟩ t.program 0).run t (.steps 30) 0 with
        | .failed _ _ => true
        | _ => false) = true := by
    refine ⟨⟨_, "ab".toUTF8, 64⟩, hprogram, rfl, rfl, ?_, by decide +kernel⟩
    exact State.exists_reaches_of_stopped (.steps 16) 0 (by decide +kernel)
  obtain ⟨t, ht, hsubject, hslotCount, ⟨v, hv, hpops⟩, hfails⟩ := hexists
  obtain ⟨htaken, hrestored, hfailed⟩ := backtracking_restores t ⟨#[2], .unused⟩ 0
  split at hpops
  · next u hstep =>
    simp only [Bool.and_eq_true, decide_eq_true_eq, beq_iff_eq] at hpops
    obtain ⟨s, _, hs⟩ := htaken u v hv hstep hpops.1.1
    obtain ⟨_, _, _, hslots, hstarts⟩ := hrestored s u hs
    split at hfails
    · next w n hrun =>
      obtain ⟨hw, hw', _⟩ := hfailed (.steps 30) 0 w n hrun
      rw [hslotCount] at hw
      exact ⟨t, s, v, u, w, n, ht, hsubject, hv, hpops.1.2, hstep, hs, hpops.2,
        hstarts ▸ hpops.2, hslots, hrun, hw, hw'⟩
    · cases hfails
  · cases hpops

end Trail

end ByteRegex
