import ByteRegex.Proofs.Exec.Bounds
import ByteRegex.Proofs.Exec.Depth
import ByteRegex.Proofs.Match.Spelling
import ByteRegex.Proofs.Pattern.Reading
import ByteRegex.Proofs.Program.Shape
import ByteRegex.Search.Matcher

/-!
# Matchers that have been built

The program of a matcher is the code of a pattern in normal form. Exploring any offset of a subject
comes to an end with it, and the ceiling of a search without step limit lies above all that a search
executes.
-/

namespace ByteRegex

namespace Task

/-- The program of the task is the code of `c`, whose rounds are watched where they may read
nothing. -/
structure Runs (t : Task) (c : Core) : Prop where
  watchful : c.Watchful
  program : ∃ captures, t.program = c.program captures

/-- More instructions than one attempt executes. -/
def room (t : Task) : Nat :=
  2 ^ (t.subject.size + 2) ^ (t.program.size - 1)

variable {t : Task} {c : Core} {start : Nat}

theorem Runs.coherent (h : t.Runs c) : t.program.Coherent := by
  obtain ⟨captures, hprogram⟩ := h.program
  rw [hprogram]
  exact c.coherent_program captures

theorem Runs.endsIn (h : t.Runs c) (hstart : start ≤ t.subject.size) :
    Spot.EndsIn t ((t.subject.size + 2) ^ (t.program.size - 1)) ⟨0, start, 0⟩ := by
  obtain ⟨captures, hprogram⟩ := h.program
  rw [hprogram, Core.size_program, Nat.add_sub_cancel]
  exact Core.endsIn_program h.watchful hprogram hstart

/-- Exploring an offset of the subject comes to an end. -/
theorem Runs.explores (h : t.Runs c) (hstart : start ≤ t.subject.size) (slots : Slots) :
    ∃ result n, Explores t ⟨0, start, 0⟩ slots result n ∧ n < t.room :=
  (h.endsIn hstart).explores slots

/-- An attempt from a sound trail comes to an end by itself. -/
theorem Runs.takes (h : t.Runs c) {trail : Trail} (htrail : trail.Sound t)
    (hstart : start ≤ t.subject.size) :
    ∃ n result next, trail.Takes t start n (.ofResult result) next ∧ next.Sound t ∧ n < t.room := by
  obtain ⟨result, n, hexplores, hn⟩ := h.explores hstart (Trail.blank t.program)
  obtain ⟨m, next, htakes, hnext, hmn⟩ := htrail.takes h.coherent ⟨_, h.endsIn hstart⟩ hexplores
  exact ⟨m, result, next, htakes, hnext, by omega⟩

end Task

theorem mul_two_pow_le (length n : Nat) :
    (length + 1) * 2 ^ (length + 2) ^ n ≤ 2 ^ (length + 2) ^ (n + 1) := by
  have hlength : length + 1 ≤ 2 ^ (length + 1) := Nat.le_of_lt Nat.lt_two_pow_self
  have hpos : 0 < (length + 2) ^ n := Nat.pow_pos (Nat.succ_pos _)
  have hmul : length + 1 ≤ (length + 1) * (length + 2) ^ n := Nat.le_mul_of_pos_right _ hpos
  calc
    (length + 1) * 2 ^ (length + 2) ^ n ≤ 2 ^ (length + 1) * 2 ^ (length + 2) ^ n :=
      Nat.mul_le_mul_right _ hlength
    _ = 2 ^ (length + 1 + (length + 2) ^ n) := (Nat.pow_add 2 _ _).symm
    _ ≤ 2 ^ (length + 2) ^ (n + 1) := by
      refine Nat.pow_le_pow_right (by decide) ?_
      rw [Nat.pow_succ', Nat.succ_mul]
      omega

namespace Matcher

/-- The matcher runs the code of a pattern that has been read. -/
structure BuiltFrom (m : Matcher) (pattern : Pattern) : Prop where
  program : m.program = pattern.core.program pattern.captures
  normal : pattern.root.Normal
  indices : pattern.root.indices = List.range' 1 pattern.captures

variable {limits : Limits} {text : String} {m : Matcher} {pattern : Pattern} {subject : ByteArray}

/-- Building a matcher fails only if the program of the pattern is too large. -/
theorem build_value (hpattern : Pattern.ofText limits.pattern text = .ok pattern) :
    (build limits text).value =
      if pattern.core.extent.address + 1 ≤ limits.maxProgramSize then
        .ok ⟨pattern.core.program pattern.captures, limits⟩
      else .error (.tooLarge ⟨limits.maxProgramSize⟩) := by
  unfold build
  rw [hpattern]
  dsimp only
  rw [Program.ofPattern_eq]
  by_cases hsize : pattern.core.extent.address + 1 ≤ limits.maxProgramSize
  · rw [if_pos hsize, if_pos hsize]
  · rw [if_neg hsize, if_neg hsize]

theorem builtFrom_of_build (hbuild : (build limits text).value = .ok m)
    (hpattern : Pattern.ofText limits.pattern text = .ok pattern) :
    m.BuiltFrom pattern ∧ m.limits = limits := by
  obtain ⟨hnormal, hindices⟩ := Pattern.normal_of_ofBytes hpattern
  rw [build_value hpattern] at hbuild
  split at hbuild
  · obtain rfl := Except.ok.inj hbuild
    exact ⟨⟨rfl, hnormal, hindices⟩, rfl⟩
  · cases hbuild

theorem exists_pattern_of_build (hbuild : (build limits text).value = .ok m) :
    ∃ pattern, Pattern.ofText limits.pattern text = .ok pattern := by
  unfold build at hbuild
  split at hbuild
  · cases hbuild
  · next pattern hpattern => exact ⟨pattern, hpattern⟩

theorem exists_builtFrom_of_build (hbuild : (build limits text).value = .ok m) :
    ∃ pattern, m.BuiltFrom pattern ∧ m.limits = limits := by
  obtain ⟨pattern, hpattern⟩ := exists_pattern_of_build hbuild
  exact ⟨pattern, builtFrom_of_build hbuild hpattern⟩

theorem BuiltFrom.runs (h : m.BuiltFrom pattern) (subject : ByteArray) (maxTableSize : Nat) :
    Task.Runs ⟨m.program, subject, maxTableSize⟩ pattern.core :=
  ⟨(h.normal.group (some 0)).spelledOut.watchful, pattern.captures, h.program⟩

theorem BuiltFrom.wellFormed (h : m.BuiltFrom pattern) : m.program.WellFormed := by
  have hroot := Pattern.ofExpr_root h.indices
  have hwellFormed := Program.wellFormed_program pattern.root
  rw [h.program]
  rwa [hroot, show pattern.root.maxGroup = pattern.captures from congrArg Pattern.captures hroot]
    at hwellFormed

theorem BuiltFrom.closed (h : m.BuiltFrom pattern) : m.program.Closed where
  coherent := h.program ▸ Core.coherent_program _ _
  advancing := h.program ▸ Core.advancing_program _ _
  nonempty := by
    rw [h.program, Core.size_program]
    exact Nat.succ_pos _
  slots hinstr := h.wellFormed.slots _ (Array.mem_of_getElem? hinstr)

/-- Without step limit the ceiling allows an attempt at every offset of the subject. -/
theorem room_le_ceiling (h : m.BuiltFrom pattern) (hlimit : m.limits.stepLimit = none)
    (subject : ByteArray) :
    (subject.size + 1) * (m.task subject).room ≤ (m.ceiling subject).value := by
  have hsize : m.program.size = pattern.core.extent.address + 1 := by
    rw [h.program, Core.size_program]
  have hceiling : m.ceiling subject = .beyond m.program.size subject.size := by
    rw [ceiling, hlimit]
  rw [hceiling]
  show (subject.size + 1) * 2 ^ (subject.size + 2) ^ (m.program.size - 1) ≤
    2 ^ (subject.size + 2) ^ (m.program.size + 6)
  refine Nat.le_trans (mul_two_pow_le _ _) (Nat.pow_le_pow_right (by decide) ?_)
  exact Nat.pow_le_pow_right (Nat.succ_pos _) (by omega)

/-- An attempt from a sound trail ends as exploring its start says. -/
theorem BuiltFrom.attempt (h : m.BuiltFrom pattern) (hlimit : m.limits.stepLimit = none)
    {trail : Trail} (htrail : trail.Sound (m.task subject)) {start n : Nat}
    (hstart : start ≤ subject.size) {result : Option Slots}
    (hexplores : Explores (m.task subject) ⟨0, start, 0⟩ (Trail.blank m.program) result n)
    (hn : n < (m.task subject).room) :
    (trail.attempt (m.task subject) (m.ceiling subject) 0 start).result = .ofResult result ∧
      (trail.attempt (m.task subject) (m.ceiling subject) 0 start).trail.Sound
        (m.task subject) := by
  have hruns := h.runs subject m.limits.maxVisitedBits
  have hroom := m.room_le_ceiling h hlimit subject
  have hone : (m.task subject).room ≤ (subject.size + 1) * (m.task subject).room :=
    Nat.le_mul_of_pos_left _ (Nat.succ_pos _)
  have hsteps : 0 + n ≤ (m.ceiling subject).value := by omega
  obtain ⟨hresult, hsound, _⟩ :=
    htrail.attempt hruns.coherent ⟨_, hruns.endsIn hstart⟩ hexplores hsteps
  exact ⟨hresult, hsound⟩

end Matcher

end ByteRegex
