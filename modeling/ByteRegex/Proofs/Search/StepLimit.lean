import ByteRegex.Proofs.Search.Calls
import Mathlib.Control.Monad.Basic

/-!
# Step limits are exact

A step limit decides whether a search is stopped, and nothing else. A search that takes `n`
instructions by itself comes to the same under every limit from `n` on, and under a lower one it is
stopped. In a stream this holds call by call, since a call that is not stopped also hands on the
same.
-/

namespace ByteRegex

namespace Matcher

variable {m : Matcher} {pattern : Pattern} {subject : ByteArray} {trail : Trail} {start limit : Nat}

theorem BuiltFrom.withStepLimit (h : m.BuiltFrom pattern) (limit : Option Nat) :
    (m.withStepLimit limit).BuiltFrom pattern :=
  ⟨h.program, h.normal, h.indices⟩

/-- A limit that allows all the instructions of a search changes nothing. -/
theorem BuiltFrom.search_within (h : m.BuiltFrom pattern) (hunlimited : m.limits.stepLimit = none)
    (htrail : trail.Sound (m.task subject)) (hwork : (m.search subject trail start).steps ≤ limit) :
    (m.withStepLimit (some limit)).search subject trail start = m.search subject trail start := by
  obtain ⟨n, next, htakes, _, hn⟩ := h.exists_takes htrail start
  rw [h.search_eq hunlimited htakes hn] at hwork ⊢
  have hwithin : 0 + n ≤ (Ceiling.steps limit).value := (Nat.zero_add n).symm ▸ hwork
  rw [← Nat.zero_add n]
  exact htakes.scan_eq hwithin

/-- Any other limit stops the search. -/
theorem BuiltFrom.search_beyond (h : m.BuiltFrom pattern) (hunlimited : m.limits.stepLimit = none)
    (htrail : trail.Sound (m.task subject)) (hwork : limit < (m.search subject trail start).steps) :
    ∃ left, (m.withStepLimit (some limit)).search subject trail start =
      ⟨.stopped, left, limit⟩ := by
  obtain ⟨n, next, htakes, _, hn⟩ := h.exists_takes htrail start
  rw [h.search_eq hunlimited htakes hn] at hwork
  have hbeyond : (Ceiling.steps limit).value < 0 + n := (Nat.zero_add n).symm ▸ hwork
  exact htakes.scan_stopped (Nat.zero_le _) hbeyond

/-- A search executes what it executes without limit, or as much as the limit allows. -/
theorem BuiltFrom.steps_withStepLimit (h : m.BuiltFrom pattern)
    (hunlimited : m.limits.stepLimit = none) (htrail : trail.Sound (m.task subject))
    (start limit : Nat) :
    ((m.withStepLimit (some limit)).search subject trail start).steps =
      min limit (m.search subject trail start).steps := by
  by_cases hwork : (m.search subject trail start).steps ≤ limit
  · rw [h.search_within hunlimited htrail hwork, Nat.min_eq_right hwork]
  · obtain ⟨left, hsearch⟩ := h.search_beyond hunlimited htrail (Nat.lt_of_not_le hwork)
    rw [hsearch, Nat.min_eq_left (by omega)]

theorem BuiltFrom.steps_withStepLimit_le (h : m.BuiltFrom pattern)
    (hunlimited : m.limits.stepLimit = none) (htrail : trail.Sound (m.task subject))
    (start limit : Nat) :
    ((m.withStepLimit (some limit)).search subject trail start).steps ≤
      (m.search subject trail start).steps :=
  h.steps_withStepLimit hunlimited htrail start limit ▸ Nat.min_le_right _ _

theorem BuiltFrom.findAt_within (h : m.BuiltFrom pattern) (hunlimited : m.limits.stepLimit = none)
    (hwork : m.workAt subject start ≤ limit) :
    ((m.withStepLimit (some limit)).findAt subject start).value =
      .ok (pattern.leftmost subject start) := by
  have hinitial := Trail.sound_initial (m.task subject)
  obtain ⟨n, next, htakes, _, hn⟩ := h.exists_takes hinitial start
  have hsearch :=
    (h.search_within hunlimited hinitial hwork).trans (h.search_eq hunlimited htakes hn)
  exact (congrArg _ hsearch).trans (answer_ofMatch _ _ next n)

theorem BuiltFrom.findAt_beyond (h : m.BuiltFrom pattern) (hunlimited : m.limits.stepLimit = none)
    (hwork : limit < m.workAt subject start) :
    ((m.withStepLimit (some limit)).findAt subject start).value = .error (.stepLimit limit) := by
  obtain ⟨left, hsearch⟩ := h.search_beyond hunlimited (Trail.sound_initial (m.task subject)) hwork
  exact congrArg (m.withStepLimit (some limit)).answer hsearch

/-- Under any limit a search answers with the reference match, or with an error. -/
theorem BuiltFrom.findAt_cases (h : m.BuiltFrom pattern) (subject : ByteArray) (start : Nat) :
    (m.findAt subject start).value = .ok (pattern.leftmost subject start) ∨
      ∃ e, (m.findAt subject start).value = .error e := by
  cases hlimit : m.limits.stepLimit with
  | none => exact Or.inl (h.findAt_eq hlimit subject start)
  | some n =>
    have hlimited : (m.withStepLimit none).withStepLimit (some n) = m := by
      rw [← hlimit]
      rfl
    rw [← hlimited]
    rcases Nat.lt_or_ge n ((m.withStepLimit none).workAt subject start) with hbeyond | hwithin
    · exact Or.inr ⟨_, (h.withStepLimit none).findAt_beyond rfl hbeyond⟩
    · exact Or.inl ((h.withStepLimit none).findAt_within rfl hwithin)

end Matcher

namespace MatchStream

def withStepLimit (stream : MatchStream) (limit : Option Nat) : MatchStream :=
  { stream with matcher := stream.matcher.withStepLimit limit }

variable {pattern : Pattern} {stream : MatchStream} {limit n : Nat}

/-- A call that the limit does not stop yields and hands on the same as without limit. -/
theorem Sound.next_within (h : stream.Sound pattern) (hwork : stream.work ≤ limit) :
    (stream.withStepLimit (some limit)).next.item = stream.next.item ∧
      (stream.withStepLimit (some limit)).next.rest =
        stream.next.rest.withStepLimit (some limit) := by
  cases hstart : stream.nextStart with
  | none =>
    obtain ⟨hitem, hrest⟩ := next_of_end hstart
    have hlimited : (stream.withStepLimit (some limit)).nextStart = none := hstart
    obtain ⟨hitem', hrest'⟩ := next_of_end hlimited
    rw [hitem, hrest, hitem', hrest']
    exact ⟨rfl, rfl⟩
  | some start =>
    obtain ⟨n, trail, _, _, hsearch⟩ := h.search? hstart
    have hlimited : (stream.withStepLimit (some limit)).search? = stream.search? := by
      rw [work, MatchStream.search?, hstart] at hwork
      show stream.nextStart.map _ = stream.nextStart.map _
      rw [hstart]
      exact congrArg some (h.built.search_within h.unlimited h.trail hwork)
    obtain ⟨hitem, hrest⟩ := next_of_search hsearch
    obtain ⟨hitem', hrest'⟩ := next_of_search (hlimited.trans hsearch)
    rw [hitem, hrest, hitem', hrest']
    exact ⟨rfl, rfl⟩

/-- A call that the limit stops yields an error and ends the stream. -/
theorem Sound.next_beyond (h : stream.Sound pattern) (hwork : limit < stream.work) :
    (stream.withStepLimit (some limit)).next.item = some (.error (.stepLimit limit)) ∧
      (stream.withStepLimit (some limit)).next.rest.nextStart = none := by
  cases hstart : stream.nextStart with
  | none =>
    rw [work, MatchStream.search?, hstart] at hwork
    exact absurd hwork (Nat.not_lt_zero limit)
  | some start =>
    rw [work, MatchStream.search?, hstart] at hwork
    obtain ⟨left, hsearch⟩ := h.built.search_beyond h.unlimited h.trail hwork
    have hstopped : (stream.withStepLimit (some limit)).search? = some ⟨.stopped, left, limit⟩ := by
      show stream.nextStart.map _ = _
      rw [hstart]
      exact congrArg some hsearch
    exact next_of_stopped hstopped rfl

theorem Sound.after_within (h : stream.Sound pattern)
    (hwork : ∀ i, i < n → (stream.after i).work ≤ limit) :
    (stream.withStepLimit (some limit)).after n = (stream.after n).withStepLimit (some limit) := by
  induction n with
  | zero => rfl
  | succ n ih =>
    have hbefore := ih (fun i hi => hwork i (Nat.lt_succ_of_lt hi))
    rw [MatchStream.after, hbefore]
    exact ((h.after n).next_within (hwork n (Nat.lt_succ_self n))).2

theorem Sound.after_withStepLimit (h : stream.Sound pattern) (limit n : Nat) :
    (stream.withStepLimit (some limit)).after n = (stream.after n).withStepLimit (some limit) ∨
      ((stream.withStepLimit (some limit)).after n).nextStart = none := by
  induction n with
  | zero => exact Or.inl rfl
  | succ n ih =>
    rw [MatchStream.after]
    rcases ih with hbefore | hend
    · rw [hbefore]
      by_cases hwork : (stream.after n).work ≤ limit
      · exact Or.inl ((h.after n).next_within hwork).2
      · exact Or.inr ((h.after n).next_beyond (Nat.lt_of_not_le hwork)).2
    · rw [(next_of_end hend).2]
      exact Or.inr hend

theorem Sound.work_withStepLimit (h : stream.Sound pattern) :
    (stream.withStepLimit (some limit)).work = min limit stream.work := by
  cases hstart : stream.nextStart with
  | none =>
    have hnone : (stream.withStepLimit (some limit)).search? = none :=
      congrArg (Option.map _) hstart
    rw [work, hnone, work, MatchStream.search?, hstart]
    exact (Nat.min_zero limit).symm
  | some start =>
    have heq := h.built.steps_withStepLimit h.unlimited h.trail start limit
    show ((stream.nextStart.map _).map _).getD 0 =
      min limit (((stream.nextStart.map _).map _).getD 0)
    rw [hstart]
    exact heq

theorem Sound.work_withStepLimit_le (h : stream.Sound pattern) :
    (stream.withStepLimit (some limit)).work ≤ stream.work :=
  h.work_withStepLimit ▸ Nat.min_le_right _ _

theorem Sound.itemAt_within (h : stream.Sound pattern)
    (hwork : ∀ i, i ≤ n → (stream.after i).work ≤ limit) :
    (stream.withStepLimit (some limit)).itemAt n = stream.itemAt n := by
  have hbefore := h.after_within (fun i hi => hwork i (Nat.le_of_lt hi))
  rw [MatchStream.itemAt, hbefore]
  exact ((h.after n).next_within (hwork n (Nat.le_refl n))).1

/-- The first call that is stopped is the last one that yields anything. -/
theorem Sound.itemAt_beyond (h : stream.Sound pattern)
    (hwork : ∀ i, i < n → (stream.after i).work ≤ limit) (hbeyond : limit < (stream.after n).work) :
    (stream.withStepLimit (some limit)).itemAt n = some (.error (.stepLimit limit)) ∧
      ∀ k, n < k → (stream.withStepLimit (some limit)).itemAt k = none := by
  obtain ⟨hitem, hrest⟩ := (h.after n).next_beyond hbeyond
  rw [← h.after_within hwork] at hitem hrest
  refine ⟨hitem, fun k hk => ?_⟩
  -- The stopped call has left no next start, and no later call makes one.
  have hend : ((stream.withStepLimit (some limit)).after k).nextStart = none := by
    induction hk with
    | refl => exact hrest
    | step _ ih => rwa [MatchStream.after, (next_of_end ih).2]
  exact (next_of_end hend).1

end MatchStream

namespace Matcher

variable {limits : Limits} {text : String} {m : Matcher}

/-- A search that takes `n` instructions without limit answers the same under every limit from `n`
on, and fails under every other. A stream yields the same items under a limit as without, up to the
first call that takes more instructions than the limit allows; that call yields an error, and
nothing comes behind. -/
theorem stepLimit_exact (hbuild : (build limits text).value = .ok m) (subject : ByteArray)
    (limit : Nat) :
    (∀ start, ∃ answer, ((m.withStepLimit none).findAt subject start).value = .ok answer ∧
      ((m.withStepLimit none).workAt subject start ≤ limit →
        ((m.withStepLimit (some limit)).findAt subject start).value = .ok answer) ∧
      (limit < (m.withStepLimit none).workAt subject start →
        ((m.withStepLimit (some limit)).findAt subject start).value = .error (.stepLimit limit))) ∧
    (∀ n, (∀ i, i ≤ n → (((m.withStepLimit none).stream subject).after i).work ≤ limit) →
      ((m.withStepLimit (some limit)).stream subject).itemAt n =
        ((m.withStepLimit none).stream subject).itemAt n) ∧
    (∀ n, (∀ i, i < n → (((m.withStepLimit none).stream subject).after i).work ≤ limit) →
      limit < (((m.withStepLimit none).stream subject).after n).work →
      ((m.withStepLimit (some limit)).stream subject).itemAt n = some (.error (.stepLimit limit)) ∧
        ∀ k, n < k → ((m.withStepLimit (some limit)).stream subject).itemAt k = none) := by
  obtain ⟨pattern, hpattern⟩ := exists_pattern_of_build hbuild
  have hbuilt := (builtFrom_of_build hbuild hpattern).1.withStepLimit none
  have hsound := MatchStream.sound_stream hbuilt rfl subject
  refine ⟨fun start => ?_, fun n hwork => hsound.itemAt_within hwork,
    fun n hwork hbeyond => hsound.itemAt_beyond hwork hbeyond⟩
  exact ⟨_, hbuilt.findAt_eq rfl subject start, fun hle => hbuilt.findAt_within rfl hle,
    fun hlt => hbuilt.findAt_beyond rfl hlt⟩

/-- One instruction more or less decides. -/
theorem stepLimit_twelve :
    ∃ m, (build {} "a*b").value = .ok m ∧
      ((m.withStepLimit (some 11)).findAt "aab".toUTF8 0).value = .error (.stepLimit 11) ∧
      ((m.withStepLimit (some 12)).findAt "aab".toUTF8 0).value = .ok (some ⟨⟨0, 3⟩, []⟩) ∧
      (m.withStepLimit none).workAt "aab".toUTF8 0 = 12 := by
  have hpattern : Pattern.ofText (Limits.pattern {}) "a*b" = .ok {
      root := .concat [.star (.byte 97) .greedy, .byte 98]
      captures := 0 } := rfl
  have hbuild := (build_value hpattern).trans (if_pos (by decide))
  refine ⟨_, hbuild, ?_⟩
  generalize hm : (⟨_, _⟩ : Matcher) = m at hbuild ⊢
  have hstopped : ((m.withStepLimit (some 11)).findAt "aab".toUTF8 0).value =
      .error (.stepLimit 11) := by
    rw [← hm]
    decide +kernel
  have hfound : ((m.withStepLimit (some 12)).findAt "aab".toUTF8 0).value =
      .ok (some ⟨⟨0, 3⟩, []⟩) := by
    rw [← hm]
    decide +kernel
  obtain ⟨_, _, hwithin, _⟩ := (stepLimit_exact hbuild "aab".toUTF8 11).1 0
  obtain ⟨_, _, _, hbeyond⟩ := (stepLimit_exact hbuild "aab".toUTF8 12).1 0
  have hmore : ¬(m.withStepLimit none).workAt "aab".toUTF8 0 ≤ 11 := by
    intro hle
    rw [hstopped] at hwithin
    cases hwithin hle
  have hless : ¬12 < (m.withStepLimit none).workAt "aab".toUTF8 0 := by
    intro hlt
    rw [hfound] at hbeyond
    cases hbeyond hlt
  exact ⟨hstopped, hfound, by omega⟩

end Matcher

end ByteRegex
