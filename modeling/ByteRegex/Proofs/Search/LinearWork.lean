import ByteRegex.Proofs.Exec.Potential
import ByteRegex.Proofs.Search.StepLimit

/-!
# Searches that remember every state

Where the table has room for all states, a search executes one stretch of code for each offset and
two for each cell. This bounds the work of every call of a stream too, since matches only unmark
cells between calls. A step limit that is at least the bound is never reached.
-/

namespace ByteRegex

namespace Search

/-- The offsets that are left pay for their own stretches, and the cells for all others. -/
theorem Takes.le {t : Task} {start n : Nat} {trail next : Trail} {result : SearchEnd}
    (h : Takes t start trail n result next) (ht : t.Remembers)
    (hmemo : trail.memo.Fits t) :
    n ≤ (t.subject.size + 1 - start) * t.program.size + t.allowance trail.memo ∧
      next.memo.Fits t := by
  induction h with
  | absent h => exact ⟨Nat.zero_le _, hmemo⟩
  | found hstart h _ =>
    have hn := h.le ht hmemo hstart
    have hnext := h.fits ht.closed hmemo hstart
    have hone :=
      Nat.le_mul_of_pos_left t.program.size (Nat.sub_pos_of_lt (Nat.lt_succ_of_le hstart))
    exact ⟨Nat.le_trans hn (Nat.add_le_add_right hone _), hnext⟩
  | @later start trail n middle n' result next hstart h _ ih =>
    have hmiddle := h.fits ht.closed hmemo hstart
    have hn := h.le_of_failed ht hmemo hstart
    obtain ⟨hn', hnext⟩ := ih hmiddle
    have hleft : t.subject.size + 1 - start = t.subject.size + 1 - (start + 1) + 1 := by omega
    rw [hleft, Nat.succ_mul]
    exact ⟨by omega, hnext⟩

end Search

namespace Matcher

/-- For each offset of the subject, as many instructions as the program has, and twice as many for
each cell. -/
def workBound (m : Matcher) (subject : ByteArray) : Nat :=
  m.program.size * (subject.size + 1) * (2 * m.program.memo.cells + 1)

variable {m : Matcher} {pattern : Pattern} {subject : ByteArray} {trail : Trail}

theorem BuiltFrom.remembers (h : m.BuiltFrom pattern)
    (hroom : m.program.memo.cells * (subject.size + 1) ≤ m.limits.maxVisitedBits) :
    (m.task subject).Remembers :=
  ⟨h.closed, hroom⟩

theorem allowance_le_workBound (m : Matcher) (subject : ByteArray) (memo : Memo) (start : Nat) :
    (subject.size + 1 - start) * m.program.size + (m.task subject).allowance memo ≤
      m.workBound subject :=
  calc
    (subject.size + 1 - start) * m.program.size + (m.task subject).allowance memo
      ≤ (subject.size + 1) * m.program.size +
          2 * m.program.size * (m.program.memo.cells * (subject.size + 1)) :=
        Nat.add_le_add (Nat.mul_le_mul_right _ (Nat.sub_le _ _))
          ((m.task subject).allowance_le memo)
    _ = m.program.size * (subject.size + 1) * (2 * m.program.memo.cells) +
          m.program.size * (subject.size + 1) := by
        rw [Nat.add_comm]
        congr 1 <;> ac_rfl
    _ = m.workBound subject := (Nat.mul_succ _ _).symm

/-- A search whose trail has a table of the right size, or none yet, keeps to the bound and hands on
such a trail. -/
theorem BuiltFrom.steps_search_le (h : m.BuiltFrom pattern) (hunlimited : m.limits.stepLimit = none)
    (ht : (m.task subject).Remembers) (htrail : trail.Sound (m.task subject))
    (hmemo : trail.memo.Fits (m.task subject)) (start : Nat) :
    (m.search subject trail start).steps ≤ m.workBound subject ∧
      (m.search subject trail start).trail.memo.Fits (m.task subject) := by
  obtain ⟨n, next, htakes, _, hn⟩ := h.exists_takes htrail start
  rw [h.search_eq hunlimited htakes hn]
  obtain ⟨hle, hnext⟩ := htakes.le ht hmemo
  exact ⟨Nat.le_trans hle (m.allowance_le_workBound subject trail.memo start), hnext⟩

end Matcher

namespace MatchStream

structure Tabled (m : Matcher) (subject : ByteArray) (stream : MatchStream) : Prop where
  sameMatcher : stream.matcher = m
  sameSubject : stream.subject = subject
  sized : stream.trail.memo.Fits (m.task subject)

variable {m : Matcher} {pattern : Pattern} {subject : ByteArray} {stream : MatchStream}

theorem Tabled.next (h : stream.Tabled m subject) (hsound : stream.Sound pattern)
    (ht : (m.task subject).Remembers) :
    stream.work ≤ m.workBound subject ∧ stream.next.rest.Tabled m subject := by
  obtain ⟨rfl, rfl, hmemo⟩ := h
  cases hstart : stream.nextStart with
  | none =>
    rw [(next_of_end hstart).2, work, search?, hstart]
    exact ⟨Nat.zero_le _, rfl, rfl, hmemo⟩
  | some start =>
    obtain ⟨n, trail, _, _, hsearch⟩ := hsound.search? hstart
    obtain ⟨hle, hnext⟩ := hsound.built.steps_search_le hsound.unlimited ht hsound.trail hmemo start
    have hsearch' : stream.search? =
        some (stream.matcher.search stream.subject stream.trail start) := by
      rw [search?, hstart, Option.map_some]
    rw [Option.some.inj (hsearch'.symm.trans hsearch)] at hle hnext
    rw [(next_of_search hsearch).2, work, hsearch]
    exact ⟨hle, rfl, rfl, hnext⟩

theorem Tabled.after (h : stream.Tabled m subject) (hsound : stream.Sound pattern)
    (ht : (m.task subject).Remembers) (n : Nat) : (stream.after n).Tabled m subject := by
  induction n with
  | zero => exact h
  | succ n ih => exact (ih.next (hsound.after n) ht).2

end MatchStream

namespace Matcher

variable {limits : Limits} {text : String} {m : Matcher} {pattern : Pattern} {subject : ByteArray}

theorem BuiltFrom.workAt_le (h : m.BuiltFrom pattern) (hunlimited : m.limits.stepLimit = none)
    (ht : (m.task subject).Remembers) (start : Nat) :
    m.workAt subject start ≤ m.workBound subject :=
  (h.steps_search_le hunlimited ht (Trail.sound_initial (m.task subject)) trivial start).1

theorem BuiltFrom.work_after_le (h : m.BuiltFrom pattern) (hunlimited : m.limits.stepLimit = none)
    (ht : (m.task subject).Remembers) (n : Nat) :
    ((m.stream subject).after n).work ≤ m.workBound subject := by
  have hsound := MatchStream.sound_stream h hunlimited subject
  have hstream : (m.stream subject).Tabled m subject := ⟨rfl, rfl, trivial⟩
  exact ((hstream.after hsound ht n).next (hsound.after n) ht).1

theorem BuiltFrom.work_withStepLimit_le (h : m.BuiltFrom pattern)
    (hunlimited : m.limits.stepLimit = none) (limit n : Nat) :
    (((m.withStepLimit (some limit)).stream subject).after n).work ≤
      ((m.stream subject).after n).work := by
  have hsound := MatchStream.sound_stream h hunlimited subject
  show (((m.stream subject).withStepLimit (some limit)).after n).work ≤ _
  rcases hsound.after_withStepLimit limit n with hafter | hend
  · rw [hafter]
    exact (hsound.after n).work_withStepLimit_le
  · rw [MatchStream.work, MatchStream.search?, hend]
    exact Nat.zero_le _

/-- Where the table has room for all states, every search and every call of a stream keeps to the
bound under any step limit, and a limit that is at least the bound makes none of them fail. -/
theorem work_le_workBound (hbuild : (build limits text).value = .ok m)
    (hroom : m.program.memo.cells * (subject.size + 1) ≤ limits.maxVisitedBits)
    (limit : Option Nat) :
    (∀ start, (m.withStepLimit limit).workAt subject start ≤ m.workBound subject) ∧
    (∀ n, (((m.withStepLimit limit).stream subject).after n).work ≤ m.workBound subject) ∧
    ((∀ most, limit = some most → m.workBound subject ≤ most) →
      (∀ start, ∃ found, ((m.withStepLimit limit).findAt subject start).value = .ok found) ∧
      ∀ n e, ((m.withStepLimit limit).stream subject).itemAt n ≠ some (.error e)) := by
  obtain ⟨pattern, hpattern⟩ := exists_pattern_of_build hbuild
  obtain ⟨hbuilt, rfl⟩ := builtFrom_of_build hbuild hpattern
  have hfree := hbuilt.withStepLimit none
  have ht : ((m.withStepLimit none).task subject).Remembers := hfree.remembers hroom
  have hsound := MatchStream.sound_stream hfree rfl subject
  have hsearches := hfree.workAt_le rfl ht
  have hcalls := hfree.work_after_le rfl ht
  have hyields : ∀ n e, ((m.withStepLimit none).stream subject).itemAt n ≠ some (.error e) := by
    obtain ⟨found, _, _, hitems⟩ := hfree.exists_matches rfl subject
    intro n e
    rw [hitems n]
    cases found[n]? <;> nofun
  cases limit with
  | none =>
    exact ⟨hsearches, hcalls,
      fun _ => ⟨fun start => ⟨_, hfree.findAt_eq rfl subject start⟩, hyields⟩⟩
  | some most =>
    refine ⟨fun start => ?_, fun n => ?_,
      fun hmost => ⟨fun start => ⟨pattern.leftmost subject start, ?_⟩, fun n e => ?_⟩⟩
    · have hinitial := Trail.sound_initial ((m.withStepLimit none).task subject)
      exact Nat.le_trans (hfree.steps_withStepLimit_le rfl hinitial start most) (hsearches start)
    · exact Nat.le_trans (hfree.work_withStepLimit_le rfl most n) (hcalls n)
    · exact hfree.findAt_within rfl (Nat.le_trans (hsearches start) (hmost most rfl))
    · have hitem :=
        hsound.itemAt_within (n := n) fun i _ => Nat.le_trans (hcalls i) (hmost most rfl)
      have hitem : ((m.withStepLimit (some most)).stream subject).itemAt n = _ := hitem
      rw [hitem]
      exact hyields n e

/-- Nested loops that find no way to match. -/
theorem work_nested_loops :
    ∃ m, (build {} "(?:a*)*b").value = .ok m ∧ m.workBound "aac".toUTF8 = 308 ∧
      (m.withStepLimit none).workAt "aac".toUTF8 0 ≤ 308 ∧
      ∃ found, ((m.withStepLimit (some 308)).findAt "aac".toUTF8 0).value = .ok found := by
  have hpattern : Pattern.ofText (Limits.pattern {}) "(?:a*)*b" = .ok {
      root := .concat [.star (.group (.star (.byte 97) .greedy) none) .greedy, .byte 98]
      captures := 0 } := rfl
  have hbuild := (build_value hpattern).trans (if_pos (by decide))
  refine ⟨_, hbuild, ?_⟩
  generalize hm : (⟨_, _⟩ : Matcher) = m at hbuild ⊢
  have hcells : m.program.memo.cells = 3 := by
    rw [← hm]
    decide +kernel
  have hsize : m.program.size = 11 := by
    rw [← hm]
    decide +kernel
  have hroom : m.program.memo.cells * ("aac".toUTF8.size + 1) ≤ ({} : Limits).maxVisitedBits := by
    rw [hcells]
    decide
  have hbound : m.workBound "aac".toUTF8 = 308 := by
    rw [workBound, hsize, hcells]
    decide
  obtain ⟨hsearches, _, _⟩ := work_le_workBound hbuild hroom none
  obtain ⟨_, _, hsucceeds⟩ := work_le_workBound hbuild hroom (some 308)
  refine ⟨hbound, hbound ▸ hsearches 0, (hsucceeds fun most hmost => ?_).1 0⟩
  rw [hbound]
  exact Nat.le_of_eq (Option.some.inj hmost)

end Matcher

end ByteRegex
