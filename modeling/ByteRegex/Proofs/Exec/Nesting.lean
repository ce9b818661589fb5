import ByteRegex.Proofs.Exec.Undoing
import ByteRegex.Proofs.Program.Brackets

/-!
# Rounds around rounds

A round starts behind the start of the round around it, or at the same offset. The entries of loops
that are over say nothing, and neither do those that earlier attempts have left behind, so this is
about the loops around an instruction only: `Program.rounds_nested_ofPattern`. What the stack takes
back has to be part of the invariant, since it decides where the rounds have started when another
side of a split is tried.
-/

namespace ByteRegex

/-! ## Wherever the machine may go on -/

namespace Frame

@[simp] theorem undoAll_append (frames frames' : List Frame) (r : Records) :
    undoAll (frames ++ frames') r = undoAll frames' (undoAll frames r) :=
  List.foldl_append

end Frame

namespace State

variable {t : Task} {s s' u : State}

/-- The state in which a side on the stack is taken up once the frames above it have been taken
back. -/
def resumed (s : State) (above : List Frame) (address pos : Nat) : State :=
  { s with address := address, pos := pos, roundStarts := (Frame.undoAll above s.records).2 }

/-- The state is orderly, and so is the state in which any side on the stack is taken up. -/
structure Steady (t : Task) (s : State) : Prop where
  orderly : s.Orderly t
  waiting : ∀ above address pos rest, s.stack = above ++ .retry address pos :: rest →
    (s.resumed above address pos).Orderly t

theorem Orderly.congr (hs : s.Orderly t) (haddress : u.address = s.address) (hpos : u.pos = s.pos)
    (hstarts : u.roundStarts = s.roundStarts) (hmaxPos : s.maxPos ≤ u.maxPos) : u.Orderly t where
  maxPos := hpos ▸ Nat.le_trans hs.maxPos hmaxPos
  loops := hstarts ▸ hs.loops
  nested := by
    rw [haddress, hpos, hstarts]
    exact hs.nested

theorem Steady.backtrackTo (hs : s.Steady t) (hu : u.records = s.records)
    (hmaxPos : s.maxPos ≤ s'.maxPos) (h : u.backtrackTo s.stack = .running s') : s'.Steady t := by
  obtain ⟨taken, htaken, hrecords, _⟩ := of_backtrackTo h
  rw [hu] at hrecords
  refine ⟨(hs.waiting taken _ _ _ htaken).congr rfl rfl (congrArg Prod.snd hrecords) hmaxPos, ?_⟩
  intro above address pos rest hstack
  have hdeeper :
      s.stack = (taken ++ .retry s'.address s'.pos :: above) ++ .retry address pos :: rest := by
    rw [htaken, hstack, List.append_assoc, List.cons_append]
  refine (hs.waiting _ address pos rest hdeeper).congr rfl rfl ?_ hmaxPos
  rw [resumed, resumed, hrecords, Frame.undoAll_append, Frame.undoAll_cons, Frame.undo]

/-- The frame that a step puts on the stack is taken back before anything below it. -/
theorem Steady.push (hs : s.Steady t) (horderly : s'.Orderly t) (hmaxPos : s.maxPos ≤ s'.maxPos)
    {frame : Frame} (hundo : frame.undo s'.records = s.records)
    (hstack : s'.stack = frame :: s.stack)
    (hretry : ∀ address pos, frame = .retry address pos →
      pos = s.pos ∧ t.program.scopeAt address = t.program.scopeAt s.address) : s'.Steady t := by
  refine ⟨horderly, fun above address pos rest hbelow => ?_⟩
  rw [hstack] at hbelow
  cases above with
  | nil =>
    cases hbelow
    obtain ⟨rfl, hscope⟩ := hretry address pos rfl
    exact (hs.orderly.resume (u := s') (congrArg Prod.snd hundo) hmaxPos hscope s'.stack).1
  | cons first above =>
    obtain ⟨rfl, htail⟩ := List.cons.inj hbelow
    refine (hs.waiting above address pos rest htail).congr rfl rfl ?_ hmaxPos
    rw [resumed, resumed, Frame.undoAll_cons, hundo]

/-- A step that takes up no side leads to an orderly state. -/
theorem Orderly.step (hp : t.program.Scoped) (hs : s.Orderly t) (hstep : s.step t = .running s') :
    s.maxPos ≤ s'.maxPos ∧ (s.stack.length ≤ s'.stack.length → s'.Orderly t) := by
  have hback : ∀ {u : State}, u.maxPos = s.maxPos → u.backtrackTo s.stack = .running s' →
      s.maxPos ≤ s'.maxPos ∧ (s.stack.length ≤ s'.stack.length → s'.Orderly t) := by
    intro u hu h
    obtain ⟨above, habove, _, hmaxPos⟩ := of_backtrackTo h
    refine ⟨Nat.le_of_eq (hmaxPos.trans hu).symm, fun hgrows => ?_⟩
    rw [habove, List.length_append, List.length_cons] at hgrows
    omega
  have hfollows := follows_step hp hs
  rw [hstep] at hfollows
  generalize (s.spot t).turn t = turn at hfollows
  generalize ho : Outcome.running s' = o at hfollows
  cases hfollows with
  | accept => cases ho
  | fail => exact hback rfl ho.symm
  | go hmoves _ | save hmoves _ =>
    cases ho
    exact ⟨hmoves.maxPos, fun _ => hmoves.orderly⟩
  | choose hinstr =>
    obtain ⟨_, hfirst, _⟩ := hp _ _ hinstr
    rw [split_eq] at ho
    generalize s.memo.visit _ _ _ = visited at ho
    dsimp only at ho
    split at ho
    · cases ho
      have hside := hs.resume (u := { s with memo := visited.2 }) rfl (Nat.le_refl _) hfirst
      exact ⟨Nat.le_refl _, fun _ => (hside _).1⟩
    · exact hback (u := { s with memo := visited.2 }) rfl ho.symm

theorem Steady.step (hp : t.program.Scoped) (hs : s.Steady t) (hstep : s.step t = .running s') :
    s'.Steady t := by
  -- Where the machine is now is one thing, what it has put on the stack to come back to is another.
  obtain ⟨hmaxPos, horderly⟩ := hs.orderly.step hp hstep
  have hshifts := s.shifts_step t
  rw [hstep] at hshifts
  generalize ho : Outcome.running s' = o at hshifts
  cases hshifts with
  | accept => cases ho
  | back hu => exact hs.backtrackTo hu hmaxPos ho.symm
  | stay hrecords hstack =>
    cases ho
    refine ⟨horderly (Nat.le_of_eq (congrArg List.length hstack).symm),
      fun above address pos rest h => ?_⟩
    refine (hs.waiting above address pos rest (hstack ▸ h)).congr rfl rfl ?_ hmaxPos
    rw [resumed, resumed, hrecords]
  | @push _ frame hundo hstack hretry =>
    cases ho
    refine hs.push (horderly ?_) hmaxPos hundo hstack fun address pos hframe => ?_
    · rw [hstack]
      exact Nat.le_succ _
    · obtain ⟨hpos, id, first, hinstr⟩ := hretry address pos hframe
      exact ⟨hpos, (hp _ _ hinstr).2.2⟩

theorem eq_of_step_accepted (h : s.step t = .accepted u) : u = s := by
  have hshifts := s.shifts_step t
  rw [h] at hshifts
  generalize ho : Outcome.accepted u = o at hshifts
  cases hshifts with
  | accept => exact Outcome.accepted.inj ho
  | @back v _ =>
    have hover := Outcome.over_backtrackTo (Nat.le_refl s.stack.length) v
    rw [← ho] at hover
    cases hover
  | stay | push => cases ho

theorem Reaches.steady (h : Reaches t s s') (hp : t.program.Scoped) (hs : s.Steady t) :
    s'.Steady t := by
  induction h with
  | refl => exact hs
  | tail _ hstep ih => exact ih.step hp hstep

end State

namespace Trail

variable {t : Task} {trail : Trail}

theorem steady_begin (hloops : trail.roundStarts.size = t.program.loopCount) (start : Nat) :
    (trail.begin t.program start).Steady t :=
  ⟨⟨Nat.le_refl _, hloops, .none _⟩, fun _ _ _ _ h => absurd h (by simp [begin])⟩

/-- The trails that attempts on one machine hand on to one another, wherever they start and however
they end, even by reaching their ceilings. -/
inductive HandedOn (t : Task) : Trail → Prop where
  | initial : HandedOn t (.initial t.program)
  | attempt {before : Trail} (h : HandedOn t before) (ceiling : Ceiling) (steps start : Nat) :
      HandedOn t (before.attempt t ceiling steps start).trail

theorem HandedOn.loops (h : trail.HandedOn t) (hp : t.program.Scoped) :
    trail.roundStarts.size = t.program.loopCount := by
  induction h with
  | initial => exact Array.size_replicate
  | @attempt before _ ceiling steps start ih =>
    have hbegin := steady_begin ih start
    rcases State.run_cases t ceiling steps (before.begin t.program start) with
      ⟨u, n, hrun, hreaches⟩ | ⟨u, n, hrun, hleads⟩ | ⟨u, n, hrun, hleads⟩
    · rw [Trail.attempt, hrun]
      exact (hreaches.steady hp hbegin).orderly.loops
    · obtain ⟨s, hs, hstep⟩ := State.exists_reaches_of_leads hleads
      obtain rfl := State.eq_of_step_accepted hstep
      rw [Trail.attempt, hrun]
      exact (hs.steady hp hbegin).orderly.loops
    · have hrecords : u.records = (before.begin t.program start).records :=
        records_of_failed rfl hleads
      rw [Trail.attempt, hrun]
      exact (congrArg (fun r => r.2.size) hrecords).trans ih

end Trail

/-! ## The loops around an instruction -/

namespace Program

variable {p : Program}

/-- The loops whose brackets enclose the address are `loops`, from the inside to the outside. -/
structure Around (p : Program) (address : Nat) (loops : List Nat) : Prop where
  mem_iff : ∀ id, id ∈ loops ↔
    ∃ first last, p.Brackets id first last ∧ first < address ∧ address ≤ last
  nested : loops.Pairwise fun inner outer => ∀ first last first' last',
    p.Brackets inner first last → p.Brackets outer first' last' → first' < first ∧ last < last'

theorem pairwise_chain (parents : Array (Option Nat)) (scope : Option Nat) :
    (Loops.chain parents scope).Pairwise (· > ·) := by
  fun_induction Loops.chain parents scope with
  | case1 => exact .nil
  | case2 id h => exact List.pairwise_singleton _ _
  | case3 id outer h ih =>
    exact List.pairwise_cons.mpr ⟨fun _ hmem => lt_of_mem_chain (h ▸ hmem), ih⟩

theorem Scoped.around_openAt (hp : p.Scoped) (hclosed : ∀ x, p.size ≤ x → p.openAt x = [])
    (address : Nat) :
    p.Around address (p.openAt address) where
  mem_iff id := by
    refine ⟨hp.exists_brackets hclosed, ?_⟩
    rintro ⟨first, last, h, hat⟩
    exact (hp.mem_openAt_iff hclosed h).mpr hat
  nested := by
    refine (pairwise_chain p.loopParents (p.scopeAt address)).imp_of_mem ?_
    intro inner outer hinner houter hlt first last first' last' h h'
    have hfirst : first' < first := (hp.starts_lt_iff h'.starts h.starts).mp hlt
    have hopen := (hp.mem_openAt_iff hclosed h).mp hinner
    have hopen' := (hp.mem_openAt_iff hclosed h').mp houter
    exact ⟨hfirst, hp.last_lt_last hclosed h' h hfirst (by omega)⟩

/-- However attempts have followed one another on a machine, whenever it executes an instruction,
the current rounds of the loops around it have started in the order of their nesting, and none of
them ahead. So at a split the loops whose rounds started at the offset are the innermost ones, as
many of them as are counted. -/
theorem rounds_nested_ofPattern {limit : Nat} {pattern : Pattern} {t : Task}
    (hprogram : Program.ofPattern limit pattern = .ok t.program) (trail : Trail)
    (htrail : trail.HandedOn t) (start : Nat) (s : State)
    (hs : State.Reaches t (trail.begin t.program start) s) :
    ∃ loops, t.program.Around s.address loops ∧
      (∃ offsets : List Nat, loops.map (s.roundStarts[·]?) = offsets.map some ∧
        (s.pos :: offsets).Pairwise (· ≥ ·)) ∧
      ∀ id first second, t.program.instrs[s.address]? = some (.split id first second) →
        let count :=
          roundsAt t.program.loopParents s.roundStarts s.pos (t.program.splitScopes.getD id none)
        count ≤ loops.length ∧
          loops.filter (fun id => s.roundStarts[id]? = some s.pos) = loops.take count := by
  obtain ⟨_, hcode⟩ := eq_program_of_ofPattern hprogram
  have hp : t.program.Scoped := hcode ▸ Core.scoped_program pattern.core pattern.captures
  have hclosed : ∀ x, t.program.size ≤ x → t.program.openAt x = [] := by
    rw [hcode]
    exact fun _ => openAt_program pattern.core pattern.captures
  have hnested := (hs.steady hp (Trail.steady_begin (htrail.loops hp) start)).orderly.nested
  refine ⟨t.program.openAt s.address, hp.around_openAt hclosed s.address,
    hnested.exists_offsets, ?_⟩
  intro id first second hinstr
  rw [hp.scope_of_split hinstr]
  exact ⟨roundsAt_le_length_chain, hnested.filter_eq_take⟩

/-- The split of a loop in two others, in the second attempt on a machine. The round of the inner
loop started at the offset, that of the outer one did not, and those of the first attempt are of no
concern. -/
theorem rounds_nested_second_attempt : ∃ (t : Task) (trail : Trail) (s : State),
    Program.ofPattern 32 (.ofExpr (.concat [.star (.group (.concat [.star (.byte 97) .greedy,
      .star (.group (.star (.byte 98) .greedy) (some 2)) .greedy]) (some 1)) .greedy, .byte 99])) =
        .ok t.program ∧
    t.subject = "acaabc".toUTF8 ∧ trail.HandedOn t ∧ trail.roundStarts = #[1, 1] ∧
    State.Reaches t (trail.begin t.program 2) s ∧ s.pos = 4 ∧ s.roundStarts = #[2, 4] ∧
    ∃ loops, t.program.Around s.address loops ∧
      (∃ offsets : List Nat, loops.map (s.roundStarts[·]?) = offsets.map some ∧
        (s.pos :: offsets).Pairwise (· ≥ ·)) ∧
      1 ≤ loops.length ∧
      loops.filter (fun id => s.roundStarts[id]? = some s.pos) = loops.take 1 := by
  have hprogram :=
    ofPattern_eq 32 (.ofExpr (.concat [.star (.group (.concat [.star (.byte 97) .greedy,
    .star (.group (.star (.byte 98) .greedy) (some 2)) .greedy]) (some 1)) .greedy, .byte 99]))
  rw [if_pos (by decide)] at hprogram
  generalize hcode : Core.program _ _ = p at hprogram
  let t : Task := ⟨p, "acaabc".toUTF8, 256⟩
  let trail := ((Trail.initial p).attempt t (.steps 32) 0 0).trail
  have htrail : trail.HandedOn t := .attempt .initial (.steps 32) 0 0
  have hreached : trail.roundStarts = #[1, 1] ∧ p.instrs[10]? = some (.split 3 11 13) ∧
      roundsAt p.loopParents #[2, 4] 4 (p.splitScopes.getD 3 none) = 1 ∧
      ∃ s, State.Reaches t (trail.begin p 2) s ∧
        (s.address == 10 && s.pos == 4 && s.roundStarts == #[2, 4]) = true := by
    subst hcode
    exact ⟨by decide +kernel, rfl, by decide +kernel,
      State.exists_reaches_of_stopped (.steps 15) 0 (by decide +kernel)⟩
  obtain ⟨hstarts, hinstr, hcount, s, hs, hat⟩ := hreached
  simp only [Bool.and_eq_true, beq_iff_eq] at hat
  obtain ⟨⟨haddress, hpos⟩, hstarts'⟩ := hat
  obtain ⟨loops, haround, hordered, hsplit⟩ := rounds_nested_ofPattern hprogram trail htrail 2 s hs
  have hinnermost := hsplit 3 11 13 (haddress ▸ hinstr)
  rw [hpos, hstarts', show roundsAt t.program.loopParents _ _ _ = 1 from hcount] at hinnermost
  refine ⟨t, trail, s, hprogram, rfl, htrail, hstarts, hs, hpos, hstarts', loops,
    haround, hordered, ?_⟩
  rw [hpos, hstarts']
  exact hinnermost

end Program

end ByteRegex
