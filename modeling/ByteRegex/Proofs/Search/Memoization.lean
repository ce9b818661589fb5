import ByteRegex.Proofs.Search.Built

/-!
# The memory changes no result

Attempts at any offsets of a subject, in any order, may follow one another on one machine. What each
of them remembers for the next ones never changes how these end.
-/

namespace ByteRegex

/-- How attempts end that are made one after the other, each from the trail that the one before
leaves. Instructions are counted anew for each of them. -/
def Trail.attempts (t : Task) (ceiling : Ceiling) :
    (trail : Trail) → (starts : List Nat) → List AttemptEnd
  | _, [] => []
  | trail, start :: starts =>
    let attempt := trail.attempt t ceiling 0 start
    attempt.result :: attempts t ceiling attempt.trail starts

namespace Matcher

def withoutTable (m : Matcher) : Matcher :=
  { m with limits := { m.limits with maxVisitedBits := 0 } }

/-- How a machine that has not been used before, and that remembers nothing, ends an attempt. -/
def freshAttempt (m : Matcher) (subject : ByteArray) (start : Nat) : AttemptEnd :=
  ((Trail.initial m.program).attempt (m.withoutTable.task subject)
    (m.withoutTable.ceiling subject) 0 start).result

variable {limits : Limits} {text : String} {m : Matcher} {pattern : Pattern} {subject : ByteArray}

theorem BuiltFrom.withoutTable (h : m.BuiltFrom pattern) : m.withoutTable.BuiltFrom pattern :=
  ⟨h.program, h.normal, h.indices⟩

theorem BuiltFrom.freshAttempt_eq (h : m.BuiltFrom pattern) (hlimit : m.limits.stepLimit = none)
    {start n : Nat} (hstart : start ≤ subject.size) {result : Option Slots}
    (hexplores : Explores (m.task subject) ⟨0, start, 0⟩ (Trail.blank m.program) result n)
    (hn : n < (m.task subject).room) : m.freshAttempt subject start = .ofResult result := by
  have hexplores' : Explores (m.withoutTable.task subject) ⟨0, start, 0⟩ (Trail.blank m.program)
      result n := by
    refine Explores.of_task ?_ ?_ hexplores
    · rfl
    · rfl
  exact (h.withoutTable.attempt hlimit (Trail.sound_initial _) hstart hexplores' hn).1

/-- Attempts at offsets of a subject, in any order, end as if each were the first one, on a machine
that remembers nothing; and each comes to an end by itself. -/
theorem attempts_eq_fresh (hbuild : (build limits text).value = .ok m)
    (hlimit : limits.stepLimit = none) (subject : ByteArray) (starts : List Nat)
    (hstarts : ∀ start ∈ starts, start ≤ subject.size) :
    Trail.attempts (m.task subject) (m.ceiling subject) (.initial m.program) starts =
        starts.map (m.freshAttempt subject) ∧
      ∀ start ∈ starts, m.freshAttempt subject start ≠ .stopped := by
  obtain ⟨pattern, hpattern⟩ := exists_pattern_of_build hbuild
  obtain ⟨hbuilt, rfl⟩ := builtFrom_of_build hbuild hpattern
  have hruns := hbuilt.runs subject m.limits.maxVisitedBits
  constructor
  · -- Every trail between the attempts is sound, whatever it remembers.
    have hall : ∀ trail : Trail, trail.Sound (m.task subject) →
        Trail.attempts (m.task subject) (m.ceiling subject) trail starts =
          starts.map (m.freshAttempt subject) := by
      induction starts with
      | nil => exact fun _ _ => rfl
      | cons start starts ih =>
        intro trail htrail
        have hstart := hstarts start List.mem_cons_self
        obtain ⟨result, n, hexplores, hn⟩ := hruns.explores hstart (Trail.blank m.program)
        obtain ⟨hresult, hsound⟩ := hbuilt.attempt hlimit htrail hstart hexplores hn
        have hfresh := hbuilt.freshAttempt_eq hlimit hstart hexplores hn
        have hrest := ih (fun o ho => hstarts o (List.mem_cons_of_mem start ho)) _ hsound
        rw [Trail.attempts, List.map_cons, hfresh, ← hrest, ← hresult]
    exact hall _ (Trail.sound_initial (m.task subject))
  · intro start hmem
    have hstart := hstarts start hmem
    obtain ⟨result, n, hexplores, hn⟩ := hruns.explores hstart (Trail.blank m.program)
    rw [hbuilt.freshAttempt_eq hlimit hstart hexplores hn]
    exact AttemptEnd.ofResult_ne_stopped result

/-- Attempts go back and forth, after a match and after failures. -/
theorem attempts_back_and_forth :
    ∃ m, (build {} "(a|ab)*?c").value = .ok m ∧
      Trail.attempts (m.task "xabc".toUTF8) (m.ceiling "xabc".toUTF8) (.initial m.program)
        [1, 4, 0, 1] = [1, 4, 0, 1].map (m.freshAttempt "xabc".toUTF8) := by
  have hpattern : Pattern.ofText (Limits.pattern {}) "(a|ab)*?c" = .ok {
      root := .concat [
        .star (.group (.alternate [.byte 97, .concat [.byte 97, .byte 98]]) (some 1)) .lazy,
        .byte 99]
      captures := 1 } := rfl
  have hbuild := (build_value hpattern).trans (if_pos (by decide))
  exact ⟨_, hbuild, (attempts_eq_fresh hbuild rfl "xabc".toUTF8 [1, 4, 0, 1] (by decide)).1⟩

end Matcher

end ByteRegex
