import ByteRegex.Proofs.Search.Calls
import ByteRegex.Template.Replace

/-!
# Searches come to an end

A path through a program is cut short where a round of a loop reads nothing, and every other round
reads something. So an attempt is over after a number of instructions that depends on the program
and the subject only, whatever is remembered of earlier attempts, and also if nothing is. What is
made of attempts comes to an end with them: searches, streams, and the replacing of matches.
-/

namespace ByteRegex

namespace Trail

def afterAttempts (t : Task) (ceiling : Ceiling) (trail : Trail) (starts : List Nat) : Trail :=
  starts.foldl (fun trail start => (trail.attempt t ceiling 0 start).trail) trail

/-- An attempt at `start` comes to an end by itself, after at most `most` instructions. -/
def EndsWithin (t : Task) (trail : Trail) (start most : Nat) : Prop :=
  ∀ ceiling : Ceiling, most ≤ ceiling.value →
    (trail.attempt t ceiling 0 start).result ≠ .stopped ∧
      (trail.attempt t ceiling 0 start).steps ≤ most

variable {t : Task} {c : Core} {ceiling : Ceiling} {trail next : Trail} {start n most : Nat}

theorem Takes.endsWithin {result : Option Slots}
    (h : trail.Takes t start n (.ofResult result) next) (hn : n ≤ most) :
    trail.EndsWithin t start most := by
  intro ceiling hceiling
  rw [h.attempt_eq (by omega), Nat.zero_add]
  exact ⟨AttemptEnd.ofResult_ne_stopped result, hn⟩

theorem Sound.afterAttempts (hruns : t.Runs c) (hroom : t.room ≤ ceiling.value) (h : trail.Sound t)
    {starts : List Nat} (hstarts : ∀ start ∈ starts, start ≤ t.subject.size) :
    (trail.afterAttempts t ceiling starts).Sound t := by
  induction starts generalizing trail with
  | nil => exact h
  | cons start starts ih =>
    obtain ⟨n, result, next, htakes, hnext, hn⟩ := hruns.takes h (hstarts start List.mem_cons_self)
    rw [Trail.afterAttempts, List.foldl_cons, htakes.attempt_eq (by omega)]
    exact ih hnext (fun o ho => hstarts o (List.mem_cons_of_mem start ho))

end Trail

namespace Search

/-- A search from `start` on comes to an end by itself, after at most `most` instructions. -/
def EndsWithin (t : Task) (start : Nat) (trail : Trail) (most : Nat) : Prop :=
  ∀ ceiling : Ceiling, most ≤ ceiling.value →
    (scan t ceiling start trail 0).result ≠ .stopped ∧ (scan t ceiling start trail 0).steps ≤ most

theorem Takes.endsWithin {t : Task} {start n most : Nat} {trail next : Trail} {found : Option Match}
    (h : Takes t start trail n (.ofMatch found) next) (hn : n ≤ most) :
    EndsWithin t start trail most := by
  intro ceiling hceiling
  rw [h.scan_eq (by omega), Nat.zero_add]
  exact ⟨SearchEnd.ofMatch_ne_stopped found, hn⟩

end Search

namespace MatchStream

variable {pattern : Pattern} {stream : MatchStream} {template : Template} {subject out : ByteArray}
  {copied n : Nat} {events : Array Event}

/-- Once all the matches have been replaced, the number of calls that are left plays no part. -/
theorem Sound.replaceUpTo_eq (h : stream.Sound pattern) {found : List Match}
    (hlists : pattern.Lists stream.subject stream.nextStart found) (hn : found.length < n) :
    stream.replaceUpTo template subject out copied events n =
      stream.replaceUpTo template subject out copied events (found.length + 1) := by
  induction found generalizing stream n out copied events with
  | nil =>
    obtain ⟨n, rfl⟩ := Nat.exists_eq_add_of_lt hn
    obtain ⟨hitem, _⟩ := h.next_lists hlists
    rw [List.length_nil, Nat.zero_add, replaceUpTo, replaceUpTo]
    generalize stream.next = step at hitem
    obtain ⟨item, moreEvents, rest⟩ := step
    obtain rfl : item = none := hitem
    rfl
  | cons first found ih =>
    obtain ⟨n, rfl⟩ : ∃ k, n = k + 1 := ⟨n - 1, by omega⟩
    obtain ⟨hitem, hrest⟩ := h.next_lists hlists
    have hsound := h.next.2.1
    rw [replaceUpTo, replaceUpTo]
    generalize stream.next = step at hitem hrest hsound
    obtain ⟨item, moreEvents, rest⟩ := step
    obtain rfl : item = some (.ok first) := hitem
    exact ih hsound hrest (Nat.lt_of_succ_lt_succ hn)

/-- Replacing the matches that a stream without step limit yields does not fail. -/
theorem Sound.replaceUpTo_ok (h : stream.Sound pattern) {found : List Match}
    (hlists : pattern.Lists stream.subject stream.nextStart found) :
    ∃ bytes, (stream.replaceUpTo template subject out copied events n).value = .ok bytes := by
  induction n generalizing stream found out copied events with
  | zero => exact ⟨_, rfl⟩
  | succ n ih =>
    obtain ⟨hitem, hrest⟩ := h.next_lists hlists
    have hsound := h.next.2.1
    rw [replaceUpTo]
    generalize stream.next = step at hitem hrest hsound
    obtain ⟨item, moreEvents, rest⟩ := step
    cases found with
    | nil =>
      obtain rfl : item = none := hitem
      exact ⟨_, rfl⟩
    | cons first found =>
      obtain rfl : item = some (.ok first) := hitem
      exact ih hsound hrest

end MatchStream

namespace Matcher

variable {limits : Limits} {text : String} {m : Matcher} {pattern : Pattern} {subject : ByteArray}

theorem BuiltFrom.attempt_endsWithin (h : m.BuiltFrom pattern) (hlimit : m.limits.stepLimit = none)
    {earlier : List Nat} (hearlier : ∀ o ∈ earlier, o ≤ subject.size) {start : Nat}
    (hstart : start ≤ subject.size) :
    ((Trail.initial m.program).afterAttempts (m.task subject)
      (m.ceiling subject) earlier).EndsWithin (m.task subject) start (m.task subject).room := by
  have hruns : (m.task subject).Runs pattern.core := h.runs subject m.limits.maxVisitedBits
  have hinitial := Trail.sound_initial (m.task subject)
  have hroom : (m.task subject).room ≤ (m.ceiling subject).value :=
    Nat.le_trans (Nat.le_mul_of_pos_left _ (Nat.succ_pos _)) (m.room_le_ceiling h hlimit subject)
  have htrail := hinitial.afterAttempts hruns hroom hearlier
  obtain ⟨n, result, next, htakes, _, hn⟩ := hruns.takes htrail hstart
  exact htakes.endsWithin (Nat.le_of_lt hn)

theorem BuiltFrom.search_endsWithin (h : m.BuiltFrom pattern) (hlimit : m.limits.stepLimit = none)
    (subject : ByteArray) (start : Nat) :
    ∃ most, most ≤ (m.ceiling subject).value ∧
      Search.EndsWithin (m.task subject) start (.initial m.program) most := by
  obtain ⟨n, next, htakes, _, hn⟩ := h.exists_takes (Trail.sound_initial (m.task subject)) start
  exact ⟨n, Nat.le_trans hn (m.room_le_ceiling h hlimit subject), htakes.endsWithin (Nat.le_refl n)⟩

/-- Replacing fails only for a fault of the template. -/
theorem BuiltFrom.replace_cases (h : m.BuiltFrom pattern) (hlimit : m.limits.stepLimit = none)
    (subject template : ByteArray) (isGlobal : Bool) :
    (∃ bytes, (m.replace subject template isGlobal).value = .ok bytes) ∨
      ∃ e, (m.replace subject template isGlobal).value = .error (.template e) := by
  obtain ⟨found, hlists, _, _⟩ := h.exists_matches hlimit subject
  have hsound := MatchStream.sound_stream h hlimit subject
  unfold replace
  dsimp only
  cases (Template.ofBytes template.data.toList).check m.captureCount with
  | error e => exact Or.inr ⟨e, rfl⟩
  | ok _ => exact Or.inl (hsound.replaceUpTo_ok hlists)

/-- Without step limit, and with any room for a table, attempts, searches, streams and replacements
come to an end by themselves. How many instructions an attempt executes is bounded whatever attempts
have been made before it, a stream yields at most one match for each offset and nothing behind, and
replacing its matches takes no more calls than are made. -/
theorem search_ends (hbuild : (build limits text).value = .ok m) (hlimit : limits.stepLimit = none)
    (subject : ByteArray) :
    (∀ start, start ≤ subject.size →
      ∃ most, ∀ earlier : List Nat, (∀ o ∈ earlier, o ≤ subject.size) →
        ((Trail.initial m.program).afterAttempts (m.task subject)
          (m.ceiling subject) earlier).EndsWithin (m.task subject) start most) ∧
    (∀ start, ∃ most, most ≤ (m.ceiling subject).value ∧
      Search.EndsWithin (m.task subject) start (.initial m.program) most) ∧
    (∃ found : List Match, found.length ≤ subject.size + 1 ∧ ∀ n,
      (m.stream subject).itemAt n = found[n]?.map .ok ∧
      ∀ search, ((m.stream subject).after n).search? = some search → search.result ≠ .stopped) ∧
    (∀ template isGlobal, (∃ bytes, (m.replace subject template isGlobal).value = .ok bytes) ∨
      ∃ e, (m.replace subject template isGlobal).value = .error (.template e)) ∧
    ∀ template out copied events n, (m.stream subject).callBound ≤ n →
      (m.stream subject).replaceUpTo template subject out copied events n =
        (m.stream subject).replaceUpTo template subject out copied events
          (m.stream subject).callBound := by
  obtain ⟨pattern, hpattern⟩ := exists_pattern_of_build hbuild
  obtain ⟨hbuilt, rfl⟩ := builtFrom_of_build hbuild hpattern
  have hsound := MatchStream.sound_stream hbuilt hlimit subject
  obtain ⟨found, hlists, hlength, hitems⟩ := hbuilt.exists_matches hlimit subject
  refine ⟨fun start hstart => ⟨(m.task subject).room, fun earlier hearlier => ?_⟩,
    hbuilt.search_endsWithin hlimit subject,
    ⟨found, hlength, fun n => ⟨hitems n, fun search hsearch => ?_⟩⟩,
    hbuilt.replace_cases hlimit subject, fun template out copied events n hn => ?_⟩
  · exact hbuilt.attempt_endsWithin hlimit hearlier hstart
  · exact (hsound.after n).not_stopped hsearch
  · have hcalls : found.length < (m.stream subject).callBound := by
      show found.length < subject.size + 3
      omega
    rw [hsound.replaceUpTo_eq hlists (Nat.lt_of_lt_of_le hcalls hn),
      hsound.replaceUpTo_eq hlists hcalls]

/-- Nested loops that find no way to match, with no table. -/
theorem search_ends_nested_loops :
    ∃ m, (build { maxVisitedBits := 0 } "(?:a*)*b").value = .ok m ∧
      (∃ most, ((Trail.initial m.program).afterAttempts (m.task "aac".toUTF8)
        (m.ceiling "aac".toUTF8) [2, 0]).EndsWithin (m.task "aac".toUTF8) 1 most) ∧
      ∃ found : List Match, found.length ≤ 4 ∧
        ∀ n, (m.stream "aac".toUTF8).itemAt n = found[n]?.map .ok := by
  have hpattern : Pattern.ofText (Limits.pattern { maxVisitedBits := 0 }) "(?:a*)*b" = .ok {
      root := .concat [.star (.group (.star (.byte 97) .greedy) none) .greedy, .byte 98]
      captures := 0 } := rfl
  have hbuild := (build_value hpattern).trans (if_pos (by decide))
  obtain ⟨hattempts, _, ⟨found, hlength, hitems⟩, _⟩ := search_ends hbuild rfl "aac".toUTF8
  obtain ⟨most, hmost⟩ := hattempts 1 (by decide)
  exact ⟨_, hbuild, ⟨most, hmost [2, 0] (by decide)⟩, found, hlength, fun n => (hitems n).1⟩

end Matcher

end ByteRegex
