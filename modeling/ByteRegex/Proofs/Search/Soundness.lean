import ByteRegex.Proofs.Match.GroupSpans
import ByteRegex.Proofs.Search.Cursors
import ByteRegex.Proofs.Search.Items

/-!
# What is found is sound

Whatever limits a matcher runs under, each match that it comes to is a reference match: its span and
those of its groups are matched by the expression of the pattern and by the parts of its groups.
-/

namespace ByteRegex

theorem Pattern.soundFor_of_leftmost {pattern : Pattern} {subject : ByteArray} {start : Nat}
    {found : Match} (hnormal : pattern.root.Normal)
    (hindices : pattern.root.indices = List.range' 1 pattern.captures)
    (h : pattern.leftmost subject start = some found) : found.SoundFor pattern subject := by
  obtain ⟨i, _, hlt, hi, _⟩ := findSome?_range'_eq_some h
  exact soundFor_of_matchAt hnormal hindices (by omega) hi

namespace Matcher

variable {limits : Limits} {text : String} {m : Matcher} {pattern : Pattern} {subject : ByteArray}

theorem BuiltFrom.soundFor_of_findAt (h : m.BuiltFrom pattern) {start : Nat} {found : Match}
    (hfound : (m.findAt subject start).value = .ok (some found)) :
    found.SoundFor pattern subject := by
  have hleftmost : pattern.leftmost subject start = some found := by
    rcases h.findAt_cases subject start with hvalue | ⟨e, hvalue⟩
    · exact Except.ok.inj (hvalue.symm.trans hfound)
    · exact nomatch hvalue.symm.trans hfound
  exact Pattern.soundFor_of_leftmost h.normal h.indices hleftmost

theorem BuiltFrom.soundFor_of_itemAt (h : m.BuiltFrom pattern) {n : Nat} {found : Match}
    (hitem : (m.stream subject).itemAt n = some (.ok found)) : found.SoundFor pattern subject := by
  obtain ⟨all, items, hlists, hitems, hopens, _⟩ := h.exists_delivers subject
  have hmem : .ok found ∈ items := List.mem_of_getElem? ((hitems n).symm.trans hitem)
  obtain ⟨lo, hlo⟩ := hlists.leftmost_of_mem (hopens.mem hmem)
  exact Pattern.soundFor_of_leftmost h.normal h.indices hlo

/-- Under any limits, every match that is found has one group for each capturing group of the
pattern. Its span and those of its groups are parts of the subject, one inside of the other, and
each of them is matched by the expression that it belongs to. -/
theorem found_sound (hpattern : Pattern.ofText limits.pattern text = .ok pattern)
    (hbuild : (build limits text).value = .ok m) (subject : ByteArray) :
    pattern.captures = m.captureCount ∧
      (∀ start found, (m.findAt subject start).value = .ok (some found) →
        found.SoundFor pattern subject) ∧
      (∀ cursor isGlobal, (m.advance subject cursor isGlobal).found = .ok true →
        ∃ found, (m.advance subject cursor isGlobal).cursor.current = some found ∧
          found.SoundFor pattern subject) ∧
      ∀ n found, (m.stream subject).itemAt n = some (.ok found) →
      found.SoundFor pattern subject := by
  obtain ⟨hbuilt, rfl⟩ := builtFrom_of_build hbuild hpattern
  have hcaptures : pattern.captures = m.captureCount := by
    rw [captureCount, hbuilt.program]
    rfl
  refine ⟨hcaptures, fun start found => hbuilt.soundFor_of_findAt, fun cursor isGlobal hfound => ?_,
    fun n found => hbuilt.soundFor_of_itemAt⟩
  obtain ⟨start, found, hvalue, hcurrent⟩ := exists_of_advance hfound
  exact ⟨found, hcurrent, hbuilt.soundFor_of_findAt hvalue⟩

/-- The second round of a loop puts the spans of the groups in the place of those of the first. -/
theorem found_sound_second_round :
    ∃ pattern m, Pattern.ofText (Limits.pattern {}) "(a|b(c)){2}" = .ok pattern ∧
      (build { stepLimit := some 40 } "(a|b(c)){2}").value = .ok m ∧
      (m.findAt "xabc".toUTF8 0).value = .ok (some ⟨⟨1, 4⟩, [some ⟨2, 4⟩, some ⟨3, 4⟩]⟩) ∧
      Match.SoundFor pattern "xabc".toUTF8 ⟨⟨1, 4⟩, [some ⟨2, 4⟩, some ⟨3, 4⟩]⟩ := by
  have hpattern : Pattern.ofText (Limits.pattern { stepLimit := some 40 }) "(a|b(c)){2}" = .ok {
      root := .repeated
        (.group (.alternate [.byte 97, .concat [.byte 98, .group (.byte 99) (some 2)]]) (some 1))
        2 (some 2) .greedy
      captures := 2 } := rfl
  have hbuild := (build_value hpattern).trans (if_pos (by decide))
  refine ⟨_, _, hpattern, hbuild, ?_⟩
  generalize hm : (⟨_, _⟩ : Matcher) = m at hbuild ⊢
  have hfound : (m.findAt "xabc".toUTF8 0).value =
      .ok (some ⟨⟨1, 4⟩, [some ⟨2, 4⟩, some ⟨3, 4⟩]⟩) := by
    rw [← hm]
    decide +kernel
  exact ⟨hfound, (found_sound hpattern hbuild "xabc".toUTF8).2.1 0 _ hfound⟩

end Matcher

end ByteRegex
