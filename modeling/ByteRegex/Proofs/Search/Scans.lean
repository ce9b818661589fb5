import ByteRegex.Proofs.Search.Built

/-!
# How many instructions a search takes

A search attempts one offset after the other and counts the instructions of all its attempts
together. How many it takes by itself decides what it does under a ceiling: one that allows them all
changes nothing, and any other stops the search as soon as it is reached.
-/

namespace ByteRegex

def SearchEnd.ofMatch : Option Match → SearchEnd
  | some m => .found m
  | none => .absent

theorem SearchEnd.ofMatch_ne_stopped (found : Option Match) : ofMatch found ≠ stopped := by
  cases found <;> nofun

namespace Search

/-- The search from the offset `start` on takes `n` instructions, ends with `result`, and hands on
`next`. -/
inductive Takes (t : Task) : (start : Nat) → (trail : Trail) → (n : Nat) → (result : SearchEnd) →
    (next : Trail) → Prop where
  | absent {start trail} (h : t.subject.size < start) : Takes t start trail 0 .absent trail
  | found {start trail n slots m next} (hstart : start ≤ t.subject.size)
      (h : trail.Takes t start n (.accepted slots) next) (hm : Match.ofSlots? slots = some m) :
      Takes t start trail n (.found m) next
  | later {start trail n middle n' result next} (hstart : start ≤ t.subject.size)
      (h : trail.Takes t start n .failed middle)
      (hrest : Takes t (start + 1) middle n' result next) :
      Takes t start trail (n + n') result next

/-- Exploring the offsets from `start` on, one after the other, takes `n` instructions and ends with
`result`. -/
inductive Explored (t : Task) : (start : Nat) → (n : Nat) → (result : SearchEnd) → Prop where
  | absent {start} (h : t.subject.size < start) : Explored t start 0 .absent
  | found {start n slots m} (hstart : start ≤ t.subject.size)
      (h : Explores t ⟨0, start, 0⟩ (Trail.blank t.program) (some slots) n)
      (hm : Match.ofSlots? slots = some m) : Explored t start n (.found m)
  | later {start n n' result} (hstart : start ≤ t.subject.size)
      (h : Explores t ⟨0, start, 0⟩ (Trail.blank t.program) none n)
      (hrest : Explored t (start + 1) n' result) : Explored t start (n + n') result

variable {t : Task} {ceiling : Ceiling} {trail next : Trail} {start steps n : Nat}
  {result : SearchEnd}

theorem Takes.scan_eq (h : Takes t start trail n result next) (hsteps : steps + n ≤ ceiling.value) :
    scan t ceiling start trail steps = ⟨result, next, steps + n⟩ := by
  induction h generalizing steps with
  | absent h => rw [scan, if_neg (by omega), Nat.add_zero]
  | @found start trail n slots m next hstart h hm =>
    rw [scan, if_pos hstart, h.attempt_eq hsteps]
    show Search.mk (((Match.ofSlots? slots).map SearchEnd.found).getD .absent) next (steps + n) = _
    rw [hm, Option.map_some, Option.getD_some]
  | @later start trail n middle n' result next hstart h _ ih =>
    rw [scan, if_pos hstart, h.attempt_eq (by omega)]
    show scan t ceiling (start + 1) middle (steps + n) = _
    rw [ih (by omega), Nat.add_assoc]

theorem Takes.scan_stopped (h : Takes t start trail n result next) (hsteps : steps ≤ ceiling.value)
    (hbeyond : ceiling.value < steps + n) :
    ∃ left, scan t ceiling start trail steps = ⟨.stopped, left, ceiling.value⟩ := by
  induction h generalizing steps with
  | absent h => omega
  | found hstart h _ =>
    obtain ⟨left, hattempt⟩ := h.attempt_stopped hsteps hbeyond
    rw [scan, if_pos hstart, hattempt]
    exact ⟨left, rfl⟩
  | @later start trail n middle n' result next hstart h _ ih =>
    -- The ceiling is reached in this attempt or in one of those behind it.
    by_cases hattempt : steps + n ≤ ceiling.value
    · rw [scan, if_pos hstart, h.attempt_eq hattempt]
      exact ih hattempt (by omega)
    · obtain ⟨left, hattempt⟩ := h.attempt_stopped hsteps (by omega)
      rw [scan, if_pos hstart, hattempt]
      exact ⟨left, rfl⟩

/-- Exploring the offsets one after the other ends with the first match that exploring one of them
comes to. -/
theorem exists_explored (reference : Nat → Option Match)
    (hexplores : ∀ pos, pos ≤ t.subject.size → ∃ result n,
      Explores t ⟨0, pos, 0⟩ (Trail.blank t.program) result n ∧ n < t.room ∧
      result.map Match.ofSlots? = (reference pos).map some) (start : Nat) :
    ∃ n, Explored t start n
        (.ofMatch ((List.range' start (t.subject.size + 1 - start)).findSome? reference)) ∧
      n ≤ (t.subject.size + 1 - start) * t.room := by
  -- Induction on the number of offsets that are left.
  induction hk : t.subject.size + 1 - start generalizing start with
  | zero => exact ⟨0, .absent (by omega), Nat.zero_le _⟩
  | succ k ih =>
    have hstart : start ≤ t.subject.size := by omega
    obtain ⟨result, n, hpos, hn, hmatch⟩ := hexplores start hstart
    rw [List.range'_succ, List.findSome?_cons, Nat.succ_mul]
    cases result with
    | none =>
      have hnone : reference start = none := by
        cases hm : reference start with
        | none => rfl
        | some m => rw [hm] at hmatch; cases hmatch
      obtain ⟨n', hrest, hn'⟩ := ih (start + 1) (by omega)
      rw [hnone]
      exact ⟨n + n', .later hstart hpos hrest, by omega⟩
    | some slots =>
      cases hm : reference start with
      | none => rw [hm] at hmatch; cases hmatch
      | some found =>
        rw [hm] at hmatch
        exact ⟨n, .found hstart hpos (Option.some.inj hmatch), by omega⟩

/-- A search comes to what exploring the offsets comes to, in no more instructions. -/
theorem Explored.takes (h : Explored t start n result) (hp : t.program.Coherent)
    (hends : ∀ pos, pos ≤ t.subject.size → ∃ m, Spot.EndsIn t m ⟨0, pos, 0⟩)
    (htrail : trail.Sound t) :
    ∃ m next, Takes t start trail m result next ∧ next.Sound t ∧ m ≤ n := by
  induction h generalizing trail with
  | absent h => exact ⟨0, trail, .absent h, htrail, Nat.le_refl _⟩
  | found hstart h hm =>
    obtain ⟨m, next, htakes, hnext, hmn⟩ := htrail.takes hp (hends _ hstart) h
    exact ⟨m, next, .found hstart htakes hm, hnext, hmn⟩
  | later hstart h _ ih =>
    obtain ⟨m, middle, htakes, hmiddle, hmn⟩ := htrail.takes hp (hends _ hstart) h
    obtain ⟨m', next, hrest, hnext, hmn'⟩ := ih hmiddle
    exact ⟨m + m', next, .later hstart htakes hrest, hnext, Nat.add_le_add hmn hmn'⟩

end Search

namespace Matcher

def workAt (m : Matcher) (subject : ByteArray) (start : Nat) : Nat :=
  (m.search subject (.initial m.program) start).steps

theorem answer_ofMatch (m : Matcher) (found : Option Match) (trail : Trail) (n : Nat) :
    m.answer ⟨.ofMatch found, trail, n⟩ = .ok found := by
  cases found <;> rfl

end Matcher

end ByteRegex
