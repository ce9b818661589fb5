import ByteRegex.Proofs.Exec.Bounds
import ByteRegex.Proofs.Exec.Reaching

/-!
# What the machine executes without a table

As long as no table makes the machine skip a split, the order in which it tries what comes after a
spot depends on nothing but the spot. So from any two states at one spot it executes the same
instructions at the same offsets, until the subject matches or until it has used up what came on the
stack since; and an attempt executes exactly what exploring its start does.
-/

namespace ByteRegex

/-- The addresses and offsets of instructions that are executed one after the other. -/
abbrev Trace := List (Nat × Nat)

/-! ## Tours of spots -/

namespace Spot

/-- Trying the paths from a spot in order goes through `trace`, until one of them accepts, or all of
them fail. -/
inductive Tours (t : Task) : Spot → (trace : Trace) → (matched : Bool) → Prop where
  | accept {c} (h : c.turn t = .accept) : Tours t c [(c.address, c.pos)] true
  | fail {c} (h : c.turn t = .fail) : Tours t c [(c.address, c.pos)] false
  | go {c d trace matched} (h : (c.turn t).spots = [d]) (hd : Tours t d trace matched) :
      Tours t c ((c.address, c.pos) :: trace) matched
  | first {c a b trace} (h : c.turn t = .choose a b) (ha : Tours t a trace true) :
      Tours t c ((c.address, c.pos) :: trace) true
  | second {c a b left right matched} (h : c.turn t = .choose a b) (ha : Tours t a left false)
      (hb : Tours t b right matched) : Tours t c ((c.address, c.pos) :: (left ++ right)) matched

end Spot

/-- An exploration tells how long the tour is. -/
theorem Explores.exists_tours {t : Task} {c : Spot} {slots : Slots}
    {result : Option Slots} {n : Nat} (h : Explores t c slots result n) :
    ∃ trace, trace.length = n ∧ c.Tours t trace result.isSome := by
  induction h with
  | accept hturn => exact ⟨_, rfl, .accept hturn⟩
  | fail hturn => exact ⟨_, rfl, .fail hturn⟩
  | go hturn _ ih | save hturn _ ih =>
    obtain ⟨trace, rfl, htours⟩ := ih
    exact ⟨_, rfl, .go (congrArg Turn.spots hturn) htours⟩
  | first hturn _ ih =>
    obtain ⟨trace, rfl, htours⟩ := ih
    exact ⟨_, rfl, .first hturn htours⟩
  | second hturn _ _ iha ihb =>
    obtain ⟨left, rfl, hleft⟩ := iha
    obtain ⟨right, rfl, hright⟩ := ihb
    exact ⟨_, by simp, .second hturn hleft hright⟩

theorem Spot.EndsIn.exists_tours {t : Task} {n : Nat} {c : Spot} (h : EndsIn t n c) :
    ∃ trace matched, Tours t c trace matched := by
  obtain ⟨result, _, hexplores, _⟩ := h.explores #[]
  obtain ⟨trace, _, htours⟩ := hexplores.exists_tours
  exact ⟨trace, result.isSome, htours⟩

/-! ## Traces of the machine -/

namespace Outcome

/-- Executing the instructions of `trace` leads from one outcome to the other, with at least
`height` frames on the stack before each of them. -/
inductive Traces (t : Task) (height : Nat) : Outcome → Trace → Outcome → Prop where
  | refl (o : Outcome) : Traces t height o [] o
  | step {s : State} {trace : Trace} {o : Outcome} (hheight : height ≤ s.stack.length)
      (h : Traces t height (s.step t) trace o) :
      Traces t height (.running s) ((s.address, s.pos) :: trace) o

/-- There is nothing to execute any more, or what came on a stack of `height` frames is used up. -/
inductive Over (height : Nat) : Outcome → (matched : Bool) → Prop where
  | accepted (s : State) : Over height (.accepted s) true
  | failed (s : State) : Over height (.failed s) false
  | running {s : State} (h : s.stack.length < height) : Over height (.running s) false

variable {t : Task} {height : Nat} {o o' o'' : Outcome} {trace trace' : Trace}
    {matched matched' : Bool}

theorem Traces.append (h : Traces t height o trace o') (h' : Traces t height o' trace' o'') :
    Traces t height o (trace ++ trace') o'' := by
  induction h with
  | refl => exact h'
  | step hheight _ ih => exact .step hheight (ih h')

theorem Traces.concat {s : State} (h : Traces t height o trace (.running s))
    (hheight : height ≤ s.stack.length) (hstep : s.step t = o') :
    Traces t height o (trace ++ [(s.address, s.pos)]) o' :=
  h.append (.step hheight (hstep ▸ .refl _))

theorem exists_traces_of_leads {s : State} {n : Nat} (h : Leads t s n o) :
    ∃ trace, trace.length = n ∧ Traces t 0 (.running s) trace o := by
  induction h with
  | one s => exact ⟨[(s.address, s.pos)], rfl, .step (Nat.zero_le _) (.refl _)⟩
  | @more s _ _ _ hstep _ ih =>
    obtain ⟨trace, hlength, htrace⟩ := ih
    exact ⟨(s.address, s.pos) :: trace, congrArg (· + 1) hlength,
      .step (Nat.zero_le _) (hstep ▸ htrace)⟩

theorem leads_of_traces {s : State} {first : Nat × Nat}
    (h : Traces t height (.running s) (first :: trace) o) : Leads t s (trace.length + 1) o := by
  induction trace generalizing s first with
  | nil =>
    cases h with
    | step _ h =>
      generalize hstep : s.step t = middle at h
      cases h
      exact .of_step hstep
  | cons second trace ih =>
    cases h with
    | step _ h =>
      generalize hstep : s.step t = middle at h
      cases h with
      | step hheight h => exact .more hstep (ih (.step hheight h))

/-- Where the machine stops in this way, and what it executes before, is determined. -/
theorem Traces.unique (h : Traces t height o trace o') (hover : o'.Over height matched)
    (h' : Traces t height o trace' o'') (hover' : o''.Over height matched') :
    trace = trace' ∧ matched = matched' := by
  -- A state is either below the height, and nothing more is executed, or it is not, and the next
  -- step is.
  induction h generalizing trace' with
  | refl =>
    cases hover with
    | accepted | failed =>
      cases h'
      cases hover'
      exact ⟨rfl, rfl⟩
    | running hlt =>
      cases h' with
      | refl =>
        cases hover'
        exact ⟨rfl, rfl⟩
      | step hheight _ => exact absurd hheight (Nat.not_le_of_lt hlt)
  | step hheight _ ih =>
    cases h' with
    | refl =>
      cases hover' with
      | running hlt => exact absurd hheight (Nat.not_le_of_lt hlt)
    | step _ h' =>
      obtain ⟨rfl, rfl⟩ := ih hover h'
      exact ⟨rfl, rfl⟩

theorem over_backtrackTo {frames : List Frame} (h : frames.length ≤ height) (u : State) :
    (u.backtrackTo frames).Over height false := by
  induction frames generalizing u with
  | nil => exact .failed _
  | cons frame rest ih =>
    have hrest : rest.length < height := h
    cases frame with
    | retry address pos => exact .running hrest
    | restoreSlot slot offset => exact ih (Nat.le_of_lt hrest) _
    | restoreRound loop offset => exact ih (Nat.le_of_lt hrest) _

end Outcome

/-- From this state the machine executes the instructions of `trace`, one after the other, until the
subject matches or everything has been tried that came on the stack since. -/
def State.Exhausts (t : Task) (s : State) (trace : Trace) (matched : Bool) : Prop :=
  ∃ o, Outcome.Traces t s.stack.length (.running s) trace o ∧ o.Over s.stack.length matched

theorem State.Exhausts.iff_eq {t : Task} {s : State} {trace trace' : Trace}
    {matched matched' : Bool} (h : s.Exhausts t trace matched) :
    s.Exhausts t trace' matched' ↔ trace' = trace ∧ matched' = matched := by
  obtain ⟨_, htraces, hover⟩ := h
  constructor
  · rintro ⟨_, htraces', hover'⟩
    exact htraces'.unique hover' htraces hover
  · rintro ⟨rfl, rfl⟩
    exact ⟨_, htraces, hover⟩

/-! ## The machine follows the tour -/

/-- If there are splits at all, then too many for a table. -/
def Task.Forgetful (t : Task) : Prop :=
  ∀ a id first second : Nat, t.program.instrs[a]? = some (Instr.split id first second) →
    t.maxTableSize < t.tableSize

theorem Memo.Fits.visit_fst {t : Task} {memo : Memo} (h : memo.Fits t)
    (hroom : t.maxTableSize < t.tableSize) (cell : Nat) :
    (memo.visit t.tableSize t.maxTableSize cell).1 = true := by
  cases memo with
  | unused =>
    rw [Memo.visit]
    split <;> rfl
  | active table => exact absurd h.2 (Nat.not_le_of_lt hroom)
  | dropped => rfl

/-- What the machine comes to from the state `s` after executing `trace`: a match, or whatever the
stack of `s` tells to do. -/
inductive Finishes (t : Task) (height : Nat) (s : State) (trace : Trace) :
    (matched : Bool) → Prop where
  | accepts {u : State} (h : Outcome.Traces t height (.running s) trace (.accepted u)) :
      Finishes t height s trace true
  | givesUp {u : State} (h : Outcome.Traces t height (.running s) trace (u.backtrackTo s.stack))
      (hu : s.Retracts u) (hmemo : u.memo.Fits t) : Finishes t height s trace false

section Finishing

variable {t : Task} {height : Nat} {s s' : State} {trace : Trace} {matched : Bool}

theorem Finishes.exhausts (h : Finishes t s.stack.length s trace matched) :
    s.Exhausts t trace matched := by
  cases h with
  | accepts h => exact ⟨_, h, .accepted _⟩
  | givesUp h _ _ => exact ⟨_, h, Outcome.over_backtrackTo (Nat.le_refl _) _⟩

theorem Finishes.of_move (h : Finishes t height s' trace matched)
    (hheight : height ≤ s.stack.length) (hstep : s.step t = .running s') {d : Spot}
    (hmoves : State.Moves t s s' d) :
    Finishes t height s ((s.address, s.pos) :: trace) matched := by
  cases h with
  | accepts h => exact .accepts (.step hheight (hstep ▸ h))
  | givesUp h hu hmemo =>
    obtain ⟨v, hv, hsame, hback⟩ := hmoves.exists_retracts hu
    rw [hback] at h
    exact .givesUp (.step hheight (hstep ▸ h)) hv (hsame ▸ hmemo)

theorem step_of_only (hp : t.program.Scoped) (hs : s.Orderly t) {d : Spot}
    (h : ((s.spot t).turn t).spots = [d]) :
    ∃ s', s.step t = .running s' ∧ State.Moves t s s' d := by
  cases hturn : (s.spot t).turn t with
  | accept | fail | choose => simp [hturn, Turn.spots] at h
  | go d' =>
    obtain ⟨s', hstep, hmoves, _⟩ := State.step_of_go hp hs hturn
    obtain rfl : d' = d := by simpa [hturn, Turn.spots] using h
    exact ⟨s', hstep, hmoves⟩
  | save slot d' =>
    obtain ⟨s', hstep, hmoves, _⟩ := State.step_of_save hp hs hturn
    obtain rfl : d' = d := by simpa [hturn, Turn.spots] using h
    exact ⟨s', hstep, hmoves⟩

/-- Without a table the first side of a split is always tried. -/
theorem tries_of_fits (hp : t.program.Scoped) (hs : s.Orderly t) (hmemo : s.memo.Fits t)
    (hforgetful : t.Forgetful) {a b : Spot} (hturn : (s.spot t).turn t = .choose a b) :
    ∃ s' y, s.step t = .running s' ∧ Tries t s s' a b y ∧ s'.memo.Fits t := by
  obtain ⟨id, x, y, hinstr, rfl, rfl, hstep⟩ := State.step_of_choose hp hs hturn
  obtain ⟨_, hx, hy⟩ := hp _ _ hinstr
  obtain ⟨s', hchoose, htries, hmemo'⟩ := tries_of_choose hs hx hy
    (s.memo.visit t.tableSize t.maxTableSize (s.cell t.program id)).2
  refine ⟨s', y, ?_, htries, hmemo' ▸ hmemo.visit _⟩
  rw [hstep, State.split_eq, ← hchoose]
  exact if_pos (hmemo.visit_fst (hforgetful _ _ _ _ hinstr) _)

/-- The machine goes on the tour of the spot that it is at, whatever its captures, its round starts
and the frames on its stack are. -/
theorem Spot.Tours.finishes {c : Spot} (h : c.Tours t trace matched) (hp : t.program.Scoped)
    (hforgetful : t.Forgetful) (hs : s.Orderly t) (hspot : s.spot t = c) (hmemo : s.memo.Fits t)
    (hheight : height ≤ s.stack.length) : Finishes t height s trace matched := by
  -- Induction on the tour. When a side of a split fails, what it put on the stack has been taken
  -- back, and the second side starts in a state that has the round starts of the split again.
  induction h generalizing s with
  | accept hturn =>
    subst hspot
    have hstep := State.step_of_accept hp hs hturn
    have hend : Outcome.Traces t height (s.step t) [] (.accepted s) := hstep ▸ .refl _
    exact .accepts (.step hheight hend)
  | fail hturn =>
    subst hspot
    have hstep := State.step_of_fail hp hs hturn
    have hend : Outcome.Traces t height (s.step t) [] s.backtrack := hstep ▸ .refl _
    exact .givesUp (.step hheight hend) (.refl s) hmemo
  | go hturn _ ih =>
    subst hspot
    obtain ⟨s', hstep, hmoves⟩ := step_of_only hp hs hturn
    have hheight' := Nat.le_trans hheight hmoves.grows.length_le
    exact (ih hmoves.orderly hmoves.spot (hmoves.memo ▸ hmemo) hheight').of_move
      hheight hstep hmoves
  | first hturn _ ih =>
    subst hspot
    obtain ⟨s', y, hstep, htries, hmemo'⟩ := tries_of_fits hp hs hmemo hforgetful hturn
    have hheight' : height ≤ s'.stack.length := htries.stack ▸ Nat.le_succ_of_le hheight
    cases ih htries.orderly htries.spot hmemo' hheight' with
    | accepts h => exact .accepts (.step hheight (hstep ▸ h))
  | second hturn _ _ iha ihb =>
    subst hspot
    obtain ⟨s', y, hstep, htries, hmemo'⟩ := tries_of_fits hp hs hmemo hforgetful hturn
    have hheight' : height ≤ s'.stack.length := htries.stack ▸ Nat.le_succ_of_le hheight
    cases iha htries.orderly htries.spot hmemo' hheight' with
    | @givesUp u hleft hu hmemo' =>
      rw [htries.stack] at hleft
      obtain ⟨horderly, hspot⟩ := htries.retry hs hu
      have hall := htries.retracts.trans hu
      cases ihb horderly hspot hmemo' hheight with
      | accepts hright => exact .accepts (.step hheight (hstep ▸ hleft.append hright))
      | givesUp hright hv hmemo' =>
        have hv' : s.Retracts _ := hall.trans ⟨hv.slots, hv.roundStarts, hv.maxPos⟩
        exact .givesUp (.step hheight (hstep ▸ hleft.append hright)) hv' hmemo'

/-- From two states at one spot the machine executes the same instructions. -/
theorem State.exists_exhausts (hp : t.program.Scoped) (hroom : t.maxTableSize < t.tableSize)
    (hends : ∃ n, (s.spot t).EndsIn t n) (hspot : s'.spot t = s.spot t) (hs : s.Orderly t)
    (hs' : s'.Orderly t) (hmemo : s.memo.Fits t) (hmemo' : s'.memo.Fits t) :
    ∃ trace matched, s.Exhausts t trace matched ∧ s'.Exhausts t trace matched := by
  obtain ⟨_, hends⟩ := hends
  obtain ⟨trace, matched, htours⟩ := hends.exists_tours
  have hforgetful : t.Forgetful := fun _ _ _ _ _ => hroom
  have h := htours.finishes hp hforgetful hs rfl hmemo (Nat.le_refl _)
  have h' := htours.finishes hp hforgetful hs' hspot hmemo' (Nat.le_refl _)
  exact ⟨trace, matched, h.exhausts, h'.exhausts⟩

end Finishing

/-! ## Attempts without a table -/

namespace Trail

variable {t : Task} {trail : Trail} {start n : Nat} {result : Option Slots}

/-- An attempt that no table makes skip a split takes as many instructions as exploring its
start. -/
theorem Sound.takes_all (hp : t.program.Closed) (hforgetful : t.Forgetful) (h : trail.Sound t)
    (hmemo : trail.memo.Fits t) (hstart : start ≤ t.subject.size)
    (hends : ∃ m, Spot.EndsIn t m ⟨0, start, 0⟩)
    (hexplores : Explores t ⟨0, start, 0⟩ (blank t.program) result n) :
    ∃ next, trail.Takes t start n (.ofResult result) next ∧ next.Sound t ∧ next.memo.Fits t := by
  obtain ⟨m, next, htakes, hnext, _⟩ := h.takes hp.coherent hends hexplores
  refine ⟨next, ?_, hnext, htakes.fits hp hmemo hstart⟩
  obtain ⟨trace, hlength, htours⟩ := hexplores.exists_tours
  have hfinishes : Finishes t 0 (trail.begin t.program start) trace result.isSome :=
    htours.finishes hp.coherent.fits hforgetful (h.orderly start) (spot_begin trail start) hmemo
      (Nat.zero_le _)
  -- Both are about one attempt, so the tour is as long as the attempt.
  have hall : ∃ ended last, trail.Takes t start n ended last := by
    generalize result.isSome = matched at htours hfinishes
    obtain ⟨first, trace, rfl⟩ : ∃ first rest, trace = first :: rest := by
      cases htours <;> exact ⟨_, _, rfl⟩
    subst hlength
    cases hfinishes with
    | accepts h => exact ⟨_, _, .accepted (Outcome.leads_of_traces h)⟩
    | givesUp h _ _ => exact ⟨_, _, .failed (Outcome.leads_of_traces h)⟩
  obtain ⟨ended, last, hall⟩ := hall
  have hn : n = m := congrArg Attempt.steps (hall.attempt_unique htakes)
  exact hn ▸ htakes

end Trail

end ByteRegex
