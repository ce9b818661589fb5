import ByteRegex.Proofs.Exec.Attempts

/-!
# The states that a machine comes to

Attempts at offsets of a subject follow one another on one machine, and each of them executes one
instruction after the other. A state that the machine comes to may have been put together from a
frame of the stack, so what is true of these states has to be true of all that taking back the stack
leads to.
-/

namespace ByteRegex

/-! ## Reaching -/

namespace State

def Reaches (t : Task) : State → State → Prop :=
  Relation.ReflTransGen fun s s' => s.step t = .running s'

variable {t : Task} {ceiling : Ceiling} {s s' : State} {steps : Nat} {o : Outcome}

theorem Reaches.exists_leads (h : Reaches t s s') (hstep : s'.step t = o) : ∃ n, Leads t s n o := by
  induction h using Relation.ReflTransGen.head_induction_on with
  | refl => exact ⟨1, .of_step hstep⟩
  | head hfirst _ ih =>
    obtain ⟨n, hn⟩ := ih
    exact ⟨n + 1, .more hfirst hn⟩

theorem exists_reaches_of_leads {n : Nat} (h : Leads t s n o) :
    ∃ s', Reaches t s s' ∧ s'.step t = o := by
  induction h with
  | one s => exact ⟨s, .refl, rfl⟩
  | more hstep _ ih =>
    obtain ⟨s', hreaches, ho⟩ := ih
    exact ⟨s', .head hstep hreaches, ho⟩

/-- A run is stopped, or it comes to an end by itself. -/
theorem run_cases (t : Task) (ceiling : Ceiling) (steps : Nat) (s : State) :
    (∃ u n, s.run t ceiling steps = .stopped u n ∧ Reaches t s u) ∨
    (∃ u n, s.run t ceiling steps = .accepted u (steps + n) ∧ Leads t s n (.accepted u)) ∨
    ∃ u n, s.run t ceiling steps = .failed u (steps + n) ∧ Leads t s n (.failed u) := by
  -- Induction on what is left up to the ceiling.
  induction hn : ceiling.value - steps using Nat.strongRecOn generalizing steps s with
  | ind n ih =>
    rcases Nat.lt_or_ge steps ceiling.value with hlt | hge
    · rw [run_eq hlt]
      cases hstep : s.step t with
      | accepted u => exact Or.inr (Or.inl ⟨u, 1, rfl, .of_step hstep⟩)
      | failed u => exact Or.inr (Or.inr ⟨u, 1, rfl, .of_step hstep⟩)
      | running s' =>
        show (∃ u n, s'.run t ceiling (steps + 1) = _ ∧ _) ∨
          (∃ u n, s'.run t ceiling (steps + 1) = _ ∧ _) ∨
          ∃ u n, s'.run t ceiling (steps + 1) = _ ∧ _
        rcases ih _ (by omega) (steps + 1) s' rfl with
          ⟨u, n, hrun, hreaches⟩ | ⟨u, n, hrun, hleads⟩ | ⟨u, n, hrun, hleads⟩
        · exact Or.inl ⟨u, n, hrun, .head hstep hreaches⟩
        · refine Or.inr (Or.inl ⟨u, n + 1, ?_, .more hstep hleads⟩)
          rw [hrun, Nat.add_right_comm, Nat.add_assoc]
        · refine Or.inr (Or.inr ⟨u, n + 1, ?_, .more hstep hleads⟩)
          rw [hrun, Nat.add_right_comm, Nat.add_assoc]
    · exact Or.inl ⟨s, steps, run_of_not_allowed s hge, .refl⟩

theorem exists_reaches_of_stopped (ceiling : Ceiling) (steps : Nat) {p : State → Bool}
    (h : (match s.run t ceiling steps with | .stopped u _ => p u | _ => false) = true) :
    ∃ u, Reaches t s u ∧ p u = true := by
  rcases run_cases t ceiling steps s with ⟨u, n, hrun, hreaches⟩ | ⟨u, n, hrun, _⟩ | ⟨u, n, hrun, _⟩
  · rw [hrun] at h
    exact ⟨u, hreaches, h⟩
  · rw [hrun] at h
    exact absurd h Bool.false_ne_true
  · rw [hrun] at h
    exact absurd h Bool.false_ne_true

end State

namespace Trail

variable {t : Task} {ceiling : Ceiling} {trail next next' : Trail} {steps start n n' : Nat}
  {result result' : AttemptEnd}

theorem exists_takes (h : (trail.attempt t ceiling steps start).result ≠ .stopped) :
    ∃ n, trail.Takes t start n (trail.attempt t ceiling steps start).result
      (trail.attempt t ceiling steps start).trail := by
  rcases State.run_cases t ceiling steps (trail.begin t.program start) with
    ⟨u, n, hrun, _⟩ | ⟨u, n, hrun, hleads⟩ | ⟨u, n, hrun, hleads⟩
  · rw [attempt, hrun] at h
    exact absurd rfl h
  · rw [attempt, hrun]
    exact ⟨n, .accepted hleads⟩
  · rw [attempt, hrun]
    exact ⟨n, .failed hleads⟩

theorem exists_reaches_of_accepted {slots : Slots}
    (h : (trail.attempt t ceiling steps start).result = .accepted slots) :
    ∃ s u, State.Reaches t (trail.begin t.program start) s ∧ s.step t = .accepted u ∧
      u.slots = slots := by
  have hended : (trail.attempt t ceiling steps start).result ≠ .stopped := by
    rw [h]
    nofun
  obtain ⟨n, htakes⟩ := exists_takes hended
  rw [h] at htakes
  generalize (trail.attempt t ceiling steps start).trail = next at htakes
  cases htakes with
  | @accepted u hleads =>
    obtain ⟨s, hs, hstep⟩ := State.exists_reaches_of_leads hleads
    exact ⟨s, u, hs, hstep, rfl⟩

/-- How an attempt ends, what it hands on, and how many instructions it takes, is determined. -/
theorem Takes.attempt_unique (h : trail.Takes t start n result next)
    (h' : trail.Takes t start n' result' next') :
    (⟨result, next, n⟩ : Attempt) = ⟨result', next', n'⟩ := by
  -- Under a ceiling that both stay below, each of them is what the attempt computes.
  have hsteps : 0 + n ≤ (Ceiling.steps (n + n')).value := by
    show 0 + n ≤ n + n'
    omega
  have hsteps' : 0 + n' ≤ (Ceiling.steps (n + n')).value := by
    show 0 + n' ≤ n + n'
    omega
  rw [← Nat.zero_add n, ← Nat.zero_add n', ← h.attempt_eq hsteps, ← h'.attempt_eq hsteps']

theorem Takes.unique (h : trail.Takes t start n result next)
    (h' : trail.Takes t start n' result' next') : result = result' ∧ next = next' :=
  ⟨congrArg Attempt.result (h.attempt_unique h'), congrArg Attempt.trail (h.attempt_unique h')⟩

/-- The trails that attempts at offsets of the subject leave behind, one after the other, on a
machine that has not been used before. Each of them may have a ceiling of its own; there are no more
of them once one has been stopped. -/
inductive Reachable (t : Task) : Trail → Prop where
  | initial : Reachable t (.initial t.program)
  | attempt {before : Trail} (h : Reachable t before) (ceiling : Ceiling) (steps start : Nat)
      (hstart : start ≤ t.subject.size)
      (hended : (before.attempt t ceiling steps start).result ≠ .stopped) :
      Reachable t (before.attempt t ceiling steps start).trail

/-- What every attempt passes on is true of all these trails. -/
theorem Reachable.passes {P : Trail → Prop} (h : trail.Reachable t)
    (hinitial : P (.initial t.program))
    (hpass : ∀ {trail next start n result}, P trail → start ≤ t.subject.size →
      trail.Takes t start n result next → P next) : P trail := by
  induction h with
  | initial => exact hinitial
  | attempt _ ceiling steps start hstart hended ih =>
    obtain ⟨n, htakes⟩ := exists_takes hended
    exact hpass ih hstart htakes

theorem Reachable.sound (h : trail.Reachable t) (hp : t.program.Coherent)
    (hends : ∀ start, start ≤ t.subject.size → ∃ m, Spot.EndsIn t m ⟨0, start, 0⟩) :
    trail.Sound t := by
  refine h.passes (sound_initial t) fun hsound hstart htakes => ?_
  obtain ⟨m, hm⟩ := hends _ hstart
  obtain ⟨result, n, hexplores, _⟩ := hm.explores (blank t.program)
  obtain ⟨_, next, htakes', hnext, _⟩ := hsound.takes hp ⟨m, hm⟩ hexplores
  obtain ⟨_, rfl⟩ := htakes.unique htakes'
  exact hnext

end Trail

/-! ## What is true of reached states -/

/-- The state is orderly, and every path from its spot comes to an end. -/
structure State.Placed (t : Task) (s : State) : Prop where
  orderly : s.Orderly t
  ends : ∃ n, (s.spot t).EndsIn t n

/-- The state that the machine is left in is in its place, and so is every state that taking back
its stack leads to. -/
inductive Outcome.Settled (t : Task) : Outcome → Prop where
  | failed (s : State) : Settled t (.failed s)
  | accepted {s : State} (h : s.Placed t) : Settled t (.accepted s)
  | running {s : State} (h : s.Placed t) (hrest : Settled t s.backtrack) : Settled t (.running s)

namespace State

open Outcome (Settled)

variable {t : Task} {s s' u : State}

/-- Taking back frames uses nothing of a state but its captures, round starts and largest offset. -/
theorem settled_congr {frames : List Frame} (h : Settled t (s.backtrackTo frames))
    (hslots : u.slots = s.slots) (hstarts : u.roundStarts = s.roundStarts)
    (hmaxPos : s.maxPos ≤ u.maxPos) : Settled t (u.backtrackTo frames) := by
  -- Each frame puts the same back into both states, so they still agree where a side is tried
  -- again.
  induction frames generalizing s u with
  | nil => exact .failed _
  | cons frame rest ih =>
    cases frame with
    | retry address pos =>
      cases h with
      | running hplaced hrest =>
        obtain ⟨horderly, hspot⟩ := hplaced.orderly.resume hstarts hmaxPos rfl rest
        exact .running ⟨horderly, hspot ▸ hplaced.ends⟩ (ih hrest hslots hstarts hmaxPos)
    | restoreSlot slot offset =>
      exact ih h (congrArg (·.setIfInBounds slot offset) hslots) hstarts hmaxPos
    | restoreRound loop offset =>
      exact ih h hslots (congrArg (·.setIfInBounds loop offset) hstarts) hmaxPos

theorem settled_of_moves {d : Spot} (h : Settled t s.backtrack) (hmoves : Moves t s s' d)
    (hends : ∃ n, d.EndsIn t n) : Settled t (.running s') := by
  refine .running ⟨hmoves.orderly, hmoves.spot ▸ hends⟩ ?_
  rw [backtrack, hmoves.undoes s' rfl rfl]
  exact settled_congr h rfl rfl hmoves.maxPos

theorem settled_split (hs : s.Orderly t) (h : Settled t s.backtrack) {first second : Nat}
    (hfirst : t.program.scopeAt first = t.program.scopeAt s.address)
    (hsecond : t.program.scopeAt second = t.program.scopeAt s.address)
    (hends : ∃ n, ((s.spot t).goto first).EndsIn t n)
    (hends' : ∃ n, ((s.spot t).goto second).EndsIn t n) (id : Nat) :
    Settled t (s.split t id first second) := by
  have hside : ∀ {side}, t.program.scopeAt side = t.program.scopeAt s.address →
      (∃ n, ((s.spot t).goto side).EndsIn t n) → ∀ (memo : Memo) (stack : List Frame),
        ({ s with address := side, memo := memo, stack := stack } : State).Placed t := by
    intro side hscope hends memo stack
    obtain ⟨horderly, hspot⟩ :=
      hs.resume (u := { s with memo := memo }) rfl (Nat.le_refl _) hscope stack
    exact ⟨horderly, hspot ▸ hends⟩
  rw [split_eq]
  dsimp only
  split
  · refine .running (hside hfirst hends _ _) (.running (hside hsecond hends' _ _) ?_)
    exact settled_congr h rfl rfl (Nat.le_refl _)
  · exact settled_congr h rfl rfl (Nat.le_refl _)

theorem settled_step (hp : t.program.Scoped) (hs : s.Placed t) (h : Settled t s.backtrack) :
    Settled t (s.step t) := by
  have hfollows := follows_step hp hs.orderly
  generalize hturn : (s.spot t).turn t = turn at hfollows
  have hnext : ∀ d ∈ turn.spots, ∃ n, d.EndsIn t n := fun d hd =>
    Spot.exists_endsIn_next hs.ends (Spot.precedes_of_turn hturn hd)
  generalize hstep : s.step t = o at hfollows
  cases hfollows with
  | accept => exact .accepted hs
  | fail => exact h
  | go hmoves _ => exact settled_of_moves h hmoves (hnext _ List.mem_cons_self)
  | save hmoves _ => exact settled_of_moves h hmoves (hnext _ List.mem_cons_self)
  | choose hinstr =>
    obtain ⟨_, hfirst, hsecond⟩ := hp _ _ hinstr
    exact settled_split hs.orderly h hfirst hsecond (hnext _ List.mem_cons_self)
      (hnext _ (List.mem_cons_of_mem _ List.mem_cons_self)) _

/-- Every state of an attempt is in its place. -/
theorem Reaches.placed (h : Reaches t s s') (hp : t.program.Scoped) (hs : Settled t (.running s)) :
    s'.Placed t := by
  have hall : Settled t (.running s') := by
    induction h with
    | refl => exact hs
    | tail _ hstep ih =>
      cases ih with
      | running hplaced hrest => exact hstep ▸ settled_step hp hplaced hrest
  cases hall with
  | running hplaced _ => exact hplaced

end State

theorem Trail.Sound.settled {t : Task} {trail : Trail} (h : trail.Sound t) {start : Nat}
    (hends : ∃ n, Spot.EndsIn t n ⟨0, start, 0⟩) :
    (Outcome.running (trail.begin t.program start)).Settled t :=
  .running ⟨h.orderly start, spot_begin trail start ▸ hends⟩ (.failed _)

end ByteRegex
