import ByteRegex.Proofs.Exec.Traces
import ByteRegex.Proofs.Search.Memoization
import ByteRegex.Proofs.Search.StepLimit

/-!
# The memory costs nothing

Exploring an offset executes what an attempt without a table executes, and a table only makes an
attempt skip parts of it. So with a table every search and every call of a stream executes at most
what it executes without, and it gets by with every step limit that is enough without.
-/

namespace ByteRegex

namespace Search

variable {t : Task} {trail : Trail} {start n : Nat} {result : SearchEnd}

/-- Without a table a search takes as many instructions as exploring the offsets. -/
theorem Explored.takes_all (h : Explored t start n result) (hp : t.program.Closed)
    (hforgetful : t.Forgetful)
    (hends : ∀ pos, pos ≤ t.subject.size → ∃ m, Spot.EndsIn t m ⟨0, pos, 0⟩)
    (htrail : trail.Sound t) (hmemo : trail.memo.Fits t) :
    ∃ next, Takes t start trail n result next ∧ next.Sound t ∧ next.memo.Fits t := by
  induction h generalizing trail with
  | absent h => exact ⟨trail, .absent h, htrail, hmemo⟩
  | found hstart h hm =>
    obtain ⟨next, htakes, hnext⟩ := htrail.takes_all hp hforgetful hmemo hstart (hends _ hstart) h
    exact ⟨next, .found hstart htakes hm, hnext⟩
  | later hstart h _ ih =>
    obtain ⟨middle, htakes, hmiddle, hmemo'⟩ :=
      htrail.takes_all hp hforgetful hmemo hstart (hends _ hstart) h
    obtain ⟨next, hrest, hnext⟩ := ih hmiddle hmemo'
    exact ⟨next, .later hstart htakes hrest, hnext⟩

/-- How large the table may be is of no concern to explorations. -/
theorem Explored.of_task {t' : Task} (hprogram : t'.program = t.program)
    (hsubject : t'.subject = t.subject) (h : Explored t start n result) :
    Explored t' start n result := by
  induction h with
  | absent h => exact .absent (hsubject ▸ h)
  | found hstart h hm =>
    exact .found (hsubject ▸ hstart) (hprogram ▸ h.of_task hprogram hsubject) hm
  | later hstart h _ ih =>
    exact .later (hsubject ▸ hstart) (hprogram ▸ h.of_task hprogram hsubject) ih

end Search

namespace Matcher

variable {m : Matcher} {pattern : Pattern} {subject : ByteArray} {trail trail' : Trail}

/-- Every split has a cell, so a table for it has to be larger than nothing. -/
theorem BuiltFrom.forgetful_withoutTable (h : m.BuiltFrom pattern) (subject : ByteArray) :
    (m.withoutTable.task subject).Forgetful := by
  intro a id first second hinstr
  have hp := h.withoutTable.closed.coherent
  have hcell :=
    hp.laidOut.cellOf_lt (hp.fits.split_lt hinstr) (Nat.zero_le _) (Nat.zero_le subject.size)
  exact Nat.lt_of_le_of_lt (Nat.zero_le _) hcell

/-- A search with a table and one without come to the same match, the second one in no fewer
instructions. -/
theorem BuiltFrom.search_withoutTable (h : m.BuiltFrom pattern)
    (hunlimited : m.limits.stepLimit = none) (htrail : trail.Sound (m.task subject))
    (htrail' : trail'.Sound (m.withoutTable.task subject))
    (hmemo : trail'.memo.Fits (m.withoutTable.task subject)) (start : Nat) :
    ∃ k n next next', k ≤ n ∧
      m.search subject trail start = ⟨.ofMatch (pattern.leftmost subject start), next, k⟩ ∧
      m.withoutTable.search subject trail' start =
        ⟨.ofMatch (pattern.leftmost subject start), next', n⟩ ∧
      next.Sound (m.task subject) ∧ next'.Sound (m.withoutTable.task subject) ∧
      next'.memo.Fits (m.withoutTable.task subject) := by
  have hruns := h.runs subject m.limits.maxVisitedBits
  have hruns' := h.withoutTable.runs subject 0
  obtain ⟨n, hexplored, hn⟩ := h.explored subject start
  obtain ⟨k, next, htakes, hnext, hk⟩ :=
    hexplored.takes hruns.coherent (fun _ hpos => ⟨_, hruns.endsIn hpos⟩) htrail
  have hprogram : (m.withoutTable.task subject).program = (m.task subject).program := rfl
  obtain ⟨next', htakes', hnext'⟩ :=
    (hexplored.of_task hprogram rfl).takes_all h.withoutTable.closed
    (h.forgetful_withoutTable subject) (fun _ hpos => ⟨_, hruns'.endsIn hpos⟩) htrail' hmemo
  exact ⟨k, n, next, next', hk, h.search_eq hunlimited htakes (Nat.le_trans hk hn),
    h.withoutTable.search_eq hunlimited htakes' hn, hnext, hnext'⟩

end Matcher

namespace MatchStream

/-- Both streams have come to the same place of the same subject, the second one without a table. -/
structure Beside (pattern : Pattern) (stream plain : MatchStream) : Prop where
  sound : stream.Sound pattern
  plainSound : plain.Sound pattern
  matcher : plain.matcher = stream.matcher.withoutTable
  subject : plain.subject = stream.subject
  nextStart : plain.nextStart = stream.nextStart
  memo : plain.trail.memo.Fits (plain.matcher.task plain.subject)

variable {pattern : Pattern} {stream plain : MatchStream}

/-- A call executes no more with a table than without, and the next ones are made at one place
again. -/
theorem Beside.next (h : stream.Beside pattern plain) :
    stream.work ≤ plain.work ∧ stream.next.rest.Beside pattern plain.next.rest := by
  obtain ⟨m, subject, trail, nextStart⟩ := stream
  obtain ⟨m', subject', trail', nextStart'⟩ := plain
  obtain ⟨hsound, hplain, hmatcher, hsubject, hnextStart, hmemo⟩ := h
  obtain rfl : m' = m.withoutTable := hmatcher
  obtain rfl : subject' = subject := hsubject
  obtain rfl : nextStart' = nextStart := hnextStart
  cases nextStart' with
  | none => exact ⟨Nat.le_refl 0, hsound, hplain, rfl, rfl, rfl, hmemo⟩
  | some start =>
    obtain ⟨k, n, next, next', hkn, hsearch, hsearch', hnext, hnext', hmemo'⟩ :=
      hsound.built.search_withoutTable hsound.unlimited hsound.trail hplain.trail hmemo start
    have hcall : search? ⟨m, subject', trail, some start⟩ = _ := congrArg some hsearch
    have hcall' : search? ⟨m.withoutTable, subject', trail', some start⟩ = _ :=
      congrArg some hsearch'
    rw [(next_of_search hcall).2, (next_of_search hcall').2]
    refine ⟨?_, ⟨hsound.built, hsound.unlimited, hnext⟩,
      ⟨hplain.built, hplain.unlimited, hnext'⟩, rfl, rfl, rfl, hmemo'⟩
    show (m.search subject' trail start).steps ≤ (m.withoutTable.search subject' trail' start).steps
    rw [hsearch, hsearch']
    exact hkn

theorem Beside.after (h : stream.Beside pattern plain) (n : Nat) :
    (stream.after n).Beside pattern (plain.after n) := by
  induction n with
  | zero => exact h
  | succ n ih => exact ih.next.2

theorem Beside.itemAt_eq (h : stream.Beside pattern plain) (n : Nat) :
    stream.itemAt n = plain.itemAt n := by
  obtain ⟨hsound, hplain, _, hsubject, hnextStart, _⟩ := h.after n
  rw [itemAt, itemAt, hsound.next.1, hplain.next.1, hsubject, hnextStart]

theorem beside_stream {m : Matcher} (h : m.BuiltFrom pattern)
    (hunlimited : m.limits.stepLimit = none) (subject : ByteArray) :
    (m.stream subject).Beside pattern (m.withoutTable.stream subject) :=
  ⟨sound_stream h hunlimited subject, sound_stream h.withoutTable hunlimited subject, rfl,
    rfl, rfl, trivial⟩

/-- As long as a limit makes no call fail, it is enough for all of them. -/
theorem Sound.work_le_of_itemAt (h : stream.Sound pattern) {limit n : Nat}
    (hitems : ∀ i, i < n → ∀ e, (stream.withStepLimit (some limit)).itemAt i ≠ some (.error e)) :
    ∀ i, i < n → (stream.after i).work ≤ limit := by
  intro i
  induction i using Nat.strongRecOn with
  | ind i ih =>
    intro hi
    by_cases hwork : (stream.after i).work ≤ limit
    · exact hwork
    · have hbefore : ∀ j, j < i → (stream.after j).work ≤ limit := fun j hj => ih j hj (by omega)
      have hstopped := (h.itemAt_beyond hbefore (Nat.lt_of_not_le hwork)).1
      exact absurd hstopped (hitems i hi _)

theorem Beside.work_withStepLimit_le (h : stream.Beside pattern plain) {limit n : Nat}
    (hitems : ∀ i, i < n → ∀ e, (plain.withStepLimit (some limit)).itemAt i ≠ some (.error e)) :
    ((stream.withStepLimit (some limit)).after n).work ≤
      ((plain.withStepLimit (some limit)).after n).work := by
  have hwork := h.plainSound.work_le_of_itemAt hitems
  have hwork' : ∀ i, i < n → (stream.after i).work ≤ limit := fun i hi =>
    Nat.le_trans (h.after i).next.1 (hwork i hi)
  obtain ⟨hle, _⟩ := (h.after n).next
  rw [h.sound.after_within hwork', h.plainSound.after_within hwork,
    (h.sound.after n).work_withStepLimit, (h.plainSound.after n).work_withStepLimit]
  omega

theorem Beside.itemAt_withStepLimit (h : stream.Beside pattern plain) {limit n : Nat}
    (hitems : ∀ i, i ≤ n → ∀ e, (plain.withStepLimit (some limit)).itemAt i ≠ some (.error e)) :
    (stream.withStepLimit (some limit)).itemAt n = (plain.withStepLimit (some limit)).itemAt n := by
  have hwork : ∀ i, i ≤ n → (plain.after i).work ≤ limit := fun i hi =>
    h.plainSound.work_le_of_itemAt (fun j hj => hitems j (by omega)) i (Nat.lt_succ_of_le hi)
  have hwork' : ∀ i, i ≤ n → (stream.after i).work ≤ limit := fun i hi =>
    Nat.le_trans (h.after i).next.1 (hwork i hi)
  rw [h.sound.itemAt_within hwork', h.plainSound.itemAt_within hwork, h.itemAt_eq]

end MatchStream

namespace Matcher

variable {limits : Limits} {text : String} {m : Matcher} {pattern : Pattern}

theorem BuiltFrom.workAt_le_withoutTable (h : m.BuiltFrom pattern)
    (hunlimited : m.limits.stepLimit = none) (subject : ByteArray) (start : Nat) :
    m.workAt subject start ≤ m.withoutTable.workAt subject start := by
  obtain ⟨k, n, _, _, hkn, hsearch, hsearch', _⟩ := h.search_withoutTable hunlimited
    (Trail.sound_initial (m.task subject))
    (Trail.sound_initial (m.withoutTable.task subject)) trivial start
  calc
    m.workAt subject start = k := congrArg Search.steps hsearch
    _ ≤ n := hkn
    _ = m.withoutTable.workAt subject start := (congrArg Search.steps hsearch').symm

theorem BuiltFrom.workAt_withStepLimit (h : m.BuiltFrom pattern)
    (hunlimited : m.limits.stepLimit = none) (subject : ByteArray) (start limit : Nat) :
    (m.withStepLimit (some limit)).workAt subject start = min limit (m.workAt subject start) :=
  h.steps_withStepLimit hunlimited (Trail.sound_initial (m.task subject)) start limit

theorem BuiltFrom.workAt_withStepLimit_le (h : m.BuiltFrom pattern)
    (hunlimited : m.limits.stepLimit = none) (subject : ByteArray) (start limit : Nat) :
    (m.withStepLimit (some limit)).workAt subject start ≤
      (m.withoutTable.withStepLimit (some limit)).workAt subject start := by
  have hle := h.workAt_le_withoutTable hunlimited subject start
  rw [h.workAt_withStepLimit hunlimited, h.withoutTable.workAt_withStepLimit hunlimited]
  omega

theorem BuiltFrom.findAt_of_withoutTable (h : m.BuiltFrom pattern)
    (hunlimited : m.limits.stepLimit = none) {subject : ByteArray} {start limit : Nat}
    {found : Option Match}
    (hfound :
      ((m.withoutTable.withStepLimit (some limit)).findAt subject start).value = .ok found) :
    ((m.withStepLimit (some limit)).findAt subject start).value = .ok found := by
  have hle := h.workAt_le_withoutTable hunlimited subject start
  by_cases hwork : m.withoutTable.workAt subject start ≤ limit
  · rw [h.withoutTable.findAt_within hunlimited hwork] at hfound
    rw [h.findAt_within hunlimited (Nat.le_trans hle hwork), hfound]
  · rw [h.withoutTable.findAt_beyond hunlimited (Nat.lt_of_not_le hwork)] at hfound
    cases hfound

/-- Under any step limit, a search with a table executes at most what the same search executes
without one. So does each call of a stream, unless the limit has made an earlier call fail without a
table, which ends that stream. A limit that is enough without a table is enough with one, and the
matches are the same. -/
theorem work_le_withoutTable (hbuild : (build limits text).value = .ok m) (subject : ByteArray)
    (limit : Option Nat) :
    (∀ start, (m.withStepLimit limit).workAt subject start ≤
      (m.withoutTable.withStepLimit limit).workAt subject start) ∧
    (∀ n, (limit = none ∨ ∀ i, i < n → ∀ e,
        ((m.withoutTable.withStepLimit limit).stream subject).itemAt i ≠ some (.error e)) →
      (((m.withStepLimit limit).stream subject).after n).work ≤
        (((m.withoutTable.withStepLimit limit).stream subject).after n).work) ∧
    (∀ start found, ((m.withoutTable.withStepLimit limit).findAt subject start).value = .ok found →
      ((m.withStepLimit limit).findAt subject start).value = .ok found) ∧
    ∀ n, (∀ i, i ≤ n → ∀ e,
        ((m.withoutTable.withStepLimit limit).stream subject).itemAt i ≠ some (.error e)) →
      ((m.withStepLimit limit).stream subject).itemAt n =
        ((m.withoutTable.withStepLimit limit).stream subject).itemAt n := by
  obtain ⟨pattern, hbuilt, _⟩ := exists_builtFrom_of_build hbuild
  have hfree := hbuilt.withStepLimit none
  have hbeside := MatchStream.beside_stream hfree rfl subject
  cases limit with
  | none =>
    refine ⟨hfree.workAt_le_withoutTable rfl subject, fun n _ => (hbeside.after n).next.1,
      fun start found hfound => ?_, fun n _ => hbeside.itemAt_eq n⟩
    have hplain := hfree.withoutTable.findAt_eq rfl subject start
    exact ((hfree.findAt_eq rfl subject start).trans hplain.symm).trans hfound
  | some most =>
    exact ⟨fun start => hfree.workAt_withStepLimit_le rfl subject start most,
      fun n hn => hbeside.work_withStepLimit_le (hn.resolve_left nofun),
      fun start found hfound => hfree.findAt_of_withoutTable rfl hfound,
      fun n hn => hbeside.itemAt_withStepLimit hn⟩

/-- A loop whose rounds can be made in two ways. With a limit of 50 the search fails without a
table. -/
theorem work_le_withoutTable_two_ways :
    ∃ m, (build {} "(?:a|a)*b").value = .ok m ∧
      ((m.withoutTable.withStepLimit (some 50)).findAt "aacab".toUTF8 0).value =
        .error (.stepLimit 50) ∧
      ((m.withStepLimit (some 50)).findAt "aacab".toUTF8 0).value = .ok (some ⟨⟨3, 5⟩, []⟩) ∧
      (m.withStepLimit none).workAt "aacab".toUTF8 0 ≤
        (m.withoutTable.withStepLimit none).workAt "aacab".toUTF8 0 ∧
      ((m.withStepLimit (some 83)).findAt "aacab".toUTF8 0).value = .ok (some ⟨⟨3, 5⟩, []⟩) ∧
      (((m.withStepLimit (some 83)).stream "aacab".toUTF8).after 1).work ≤
        (((m.withoutTable.withStepLimit (some 83)).stream "aacab".toUTF8).after 1).work ∧
      ((m.withStepLimit (some 83)).stream "aacab".toUTF8).itemAt 0 = some (.ok ⟨⟨3, 5⟩, []⟩) := by
  have hpattern : Pattern.ofText (Limits.pattern {}) "(?:a|a)*b" = .ok {
      root := .concat [.star (.group (.alternate [.byte 97, .byte 97]) none) .greedy, .byte 98]
      captures := 0 } := rfl
  have hbuild := (build_value hpattern).trans (if_pos (by decide))
  refine ⟨_, hbuild, ?_⟩
  generalize hm : (⟨_, _⟩ : Matcher) = m at hbuild ⊢
  obtain ⟨hsearches, _⟩ := work_le_withoutTable hbuild "aacab".toUTF8 none
  obtain ⟨_, hcalls, hfound, hitems⟩ := work_le_withoutTable hbuild "aacab".toUTF8 (some 83)
  have hplain : ((m.withoutTable.withStepLimit (some 83)).findAt "aacab".toUTF8 0).value =
      .ok (some ⟨⟨3, 5⟩, []⟩) := by
    rw [← hm]
    decide +kernel
  have hitem : ((m.withoutTable.withStepLimit (some 83)).stream "aacab".toUTF8).itemAt 0 =
      some (.ok ⟨⟨3, 5⟩, []⟩) := by
    rw [← hm]
    decide +kernel
  have hyields : ∀ i, i ≤ 0 → ∀ e,
      ((m.withoutTable.withStepLimit (some 83)).stream "aacab".toUTF8).itemAt i ≠
        some (.error e) := by
    intro i hi e
    obtain rfl := Nat.le_zero.mp hi
    rw [hitem]
    nofun
  refine ⟨?_, ?_, hsearches 0, hfound 0 _ hplain, ?_, (hitems 0 hyields).trans hitem⟩
  · rw [← hm]
    decide +kernel
  · rw [← hm]
    decide +kernel
  · exact hcalls 1 (Or.inr fun i hi => hyields i (Nat.le_of_lt_succ hi))

end Matcher

end ByteRegex
