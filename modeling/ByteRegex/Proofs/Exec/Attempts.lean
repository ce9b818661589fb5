import ByteRegex.Proofs.Exec.Exploration

/-!
# Attempts leave a sound memory

Between attempts nothing is open: every spot that is marked has been given up on. An attempt from
such a trail comes to what exploring its start comes to, and leaves such a trail, if the ceiling is
high enough. How many instructions an attempt takes does not depend on the ceiling; a lower one
stops it.
-/

namespace ByteRegex

def Outcome.resume (t : Task) (ceiling : Ceiling) (steps : Nat) : Outcome → RunResult
  | running s => s.run t ceiling steps
  | accepted s => .accepted s steps
  | failed s => .failed s steps

namespace State

variable {t : Task} {ceiling : Ceiling} {s : State} {steps n : Nat} {o : Outcome}

theorem run_eq (h : steps < ceiling.value) :
    s.run t ceiling steps = (s.step t).resume t ceiling (steps + 1) := by
  rw [run, dif_pos ((ceiling.allows_iff steps).mpr h)]
  cases s.step t <;> rfl

theorem run_of_leads (h : Leads t s n o) (hsteps : steps + n ≤ ceiling.value) :
    s.run t ceiling steps = o.resume t ceiling (steps + n) := by
  induction h generalizing steps with
  | one s => exact run_eq (by omega)
  | @more s s' n o hstep _ ih =>
    rw [run_eq (by omega), hstep]
    show s'.run t ceiling (steps + 1) = _
    rw [ih (by omega), Nat.add_right_comm]
    rfl

theorem run_of_not_allowed (s : State) (h : ceiling.value ≤ steps) :
    s.run t ceiling steps = .stopped s steps := by
  rw [run, dif_neg]
  rw [ceiling.allows_iff]
  omega

/-- A run that would go beyond the ceiling is stopped at it. -/
theorem run_stopped_of_leads (h : Leads t s n o) (hsteps : steps ≤ ceiling.value)
    (hbeyond : ceiling.value < steps + n) :
    ∃ u, s.run t ceiling steps = .stopped u ceiling.value := by
  induction h generalizing steps with
  | one s =>
    obtain rfl : steps = ceiling.value := by omega
    exact ⟨s, run_of_not_allowed s (Nat.le_refl _)⟩
  | @more s s' n o hstep _ ih =>
    rcases Nat.eq_or_lt_of_le hsteps with rfl | hlt
    · exact ⟨s, run_of_not_allowed s (Nat.le_refl _)⟩
    · rw [run_eq hlt, hstep]
      exact ih hlt (by omega)

end State

def AttemptEnd.ofResult : Option Slots → AttemptEnd
  | some slots => accepted slots
  | none => failed

theorem AttemptEnd.ofResult_ne_stopped (result : Option Slots) : ofResult result ≠ stopped := by
  cases result <;> nofun

namespace Trail

/-- The attempt at `start` takes `n` instructions, ends with `result`, and hands on `next`. -/
inductive Takes (t : Task) (trail : Trail) (start n : Nat) :
    (result : AttemptEnd) → (next : Trail) → Prop where
  | accepted {s} (h : Leads t (trail.begin t.program start) n (.accepted s)) :
      Takes t trail start n (.accepted s.slots)
        ⟨s.roundStarts, s.memo.forget t.program.memo.cells start s.maxPos⟩
  | failed {s} (h : Leads t (trail.begin t.program start) n (.failed s)) :
      Takes t trail start n .failed ⟨s.roundStarts, s.memo⟩

section Takes

variable {t : Task} {ceiling : Ceiling} {trail next : Trail} {steps start n : Nat}
  {result : AttemptEnd}

theorem Takes.attempt_eq (h : trail.Takes t start n result next)
    (hsteps : steps + n ≤ ceiling.value) :
    trail.attempt t ceiling steps start = ⟨result, next, steps + n⟩ := by
  cases h with
  | accepted h => rw [attempt, State.run_of_leads h hsteps]; rfl
  | failed h => rw [attempt, State.run_of_leads h hsteps]; rfl

theorem Takes.attempt_stopped (h : trail.Takes t start n result next)
    (hsteps : steps ≤ ceiling.value) (hbeyond : ceiling.value < steps + n) :
    ∃ left, trail.attempt t ceiling steps start = ⟨.stopped, left, ceiling.value⟩ := by
  have hstopped : ∃ u, (trail.begin t.program start).run t ceiling steps =
      .stopped u ceiling.value := by
    cases h with
    | accepted h => exact State.run_stopped_of_leads h hsteps hbeyond
    | failed h => exact State.run_stopped_of_leads h hsteps hbeyond
  obtain ⟨u, hrun⟩ := hstopped
  rw [attempt, hrun]
  exact ⟨_, rfl⟩

end Takes

/-- What is true of a trail between two attempts. -/
structure Sound (t : Task) (trail : Trail) : Prop where
  loops : trail.roundStarts.size = t.program.loopCount
  memo : trail.memo.Sound t fun _ => False

variable {t : Task} {ceiling : Ceiling} {trail : Trail} {steps start n : Nat}
    {result : Option Slots}

theorem sound_initial (t : Task) : (initial t.program).Sound t :=
  ⟨Array.size_replicate, fun k hk => absurd hk (Memo.not_marks_unused _ k)⟩

theorem Sound.orderly (h : trail.Sound t) (start : Nat) :
    (trail.begin t.program start).Orderly t :=
  ⟨Nat.le_refl _, h.loops, .none _⟩

theorem spot_begin (trail : Trail) (start : Nat) :
    (trail.begin t.program start).spot t = ⟨0, start, 0⟩ := by
  show Spot.mk 0 start (roundsAt _ _ _ none) = _
  rw [roundsAt_none]

def blank (p : Program) : Slots :=
  Array.replicate p.slotCount none

/-- An attempt takes no more instructions than exploring its start, and comes to the same. -/
theorem Sound.takes (hp : t.program.Coherent) (h : trail.Sound t)
    (hends : ∃ m, Spot.EndsIn t m ⟨0, start, 0⟩)
    (hexplores : Explores t ⟨0, start, 0⟩ (blank t.program) result n) :
    ∃ m next, trail.Takes t start m (.ofResult result) next ∧ next.Sound t ∧ m ≤ n := by
  have hcompletes :=
    completes_of_explores hp hexplores (h.orderly start) (spot_begin trail start) rfl
    hends h.memo (fun _ hk => hk.elim)
  cases hcompletes with
  | @accepts u m _ hleads hmn hu =>
    refine ⟨m, _, .accepted hleads, ⟨hu.loops, fun k hk => ?_⟩, hmn⟩
    obtain ⟨hk, hforgotten⟩ := Memo.marks_of_forget hp hk
    -- What led to the match lies between the start and the largest offset, and has been forgotten.
    rcases hu.memo k hk with hdead | hopen | hcovered
    · exact Or.inl hdead
    · exact hopen.elim
    · exact absurd hcovered hforgotten
  | @givesUp u m _ hleads hmn hu =>
    exact ⟨m, _, .failed hleads, ⟨hu.roundStarts ▸ h.loops, hu.memo⟩, hmn⟩

theorem Sound.attempt (hp : t.program.Coherent) (h : trail.Sound t)
    (hends : ∃ m, Spot.EndsIn t m ⟨0, start, 0⟩)
    (hexplores : Explores t ⟨0, start, 0⟩ (blank t.program) result n)
    (hsteps : steps + n ≤ ceiling.value) :
    (trail.attempt t ceiling steps start).result = .ofResult result ∧
      (trail.attempt t ceiling steps start).trail.Sound t ∧
      (trail.attempt t ceiling steps start).steps ≤ steps + n := by
  obtain ⟨m, next, htakes, hnext, hmn⟩ := h.takes hp hends hexplores
  rw [htakes.attempt_eq (by omega)]
  exact ⟨rfl, hnext, Nat.add_le_add_left hmn steps⟩

end Trail

end ByteRegex
