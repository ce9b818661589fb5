import ByteRegex.Proofs.Exec.Traces
import ByteRegex.Proofs.Search.Memoization
import ByteRegex.Proofs.Search.Safety

/-!
# What a cell of the table stands for

The table has one cell for a split, an offset, and a number of rounds around the split that have not
read anything. This is all of a state that what comes after the split depends on: without a table
the machine executes the same instructions from any two states that share it.
-/

namespace ByteRegex

namespace State

variable {t : Task} {s s' : State} {id first second first' second' : Nat}

/-- States that would look up the same cell are at the same spot. -/
theorem spot_eq_of_split (hp : t.program.Scoped)
    (hinstr : t.program.instrs[s.address]? = some (.split id first second))
    (hinstr' : t.program.instrs[s'.address]? = some (.split id first' second'))
    (hpos : s.pos = s'.pos)
    (hrounds :
      roundsAt t.program.loopParents s.roundStarts s.pos (t.program.splitScopes.getD id none) =
      roundsAt t.program.loopParents s'.roundStarts s'.pos (t.program.splitScopes.getD id none)) :
    s'.spot t = s.spot t := by
  have haddress : s.address = s'.address := hp.split_unique hinstr hinstr'
  rw [hp.scope_of_split hinstr, haddress] at hrounds
  rw [spot, spot, haddress, hrounds, hpos]

end State

namespace Matcher

variable {limits : Limits} {text : String} {m : Matcher}

/-- Two states that attempts without a table come to may differ in their captures, in where the
attempts and the rounds started, and in what is on the stack. If they are at one split and one
offset, with the same number of rounds around the split that started at the offset, then the machine
executes the same instructions at the same offsets from both, until the subject matches or
everything has been tried that came on the stack since, and it matches from both or from neither. -/
theorem exhausts_alike (hbuild : (build limits text).value = .ok m) (subject : ByteArray)
    (trail trail' : Trail) (htrail : trail.Reachable (m.withoutTable.task subject))
    (htrail' : trail'.Reachable (m.withoutTable.task subject)) (start start' : Nat)
    (hstart : start ≤ subject.size) (hstart' : start' ≤ subject.size) (s s' : State)
    (hs : State.Reaches (m.withoutTable.task subject) (trail.begin m.program start) s)
    (hs' : State.Reaches (m.withoutTable.task subject) (trail'.begin m.program start') s')
    (id first second first' second' : Nat)
    (hinstr : m.program.instrs[s.address]? = some (.split id first second))
    (hinstr' : m.program.instrs[s'.address]? = some (.split id first' second'))
    (hpos : s.pos = s'.pos)
    (hrounds :
      roundsAt m.program.loopParents s.roundStarts s.pos (m.program.splitScopes.getD id none) =
      roundsAt m.program.loopParents s'.roundStarts s'.pos (m.program.splitScopes.getD id none)) :
    ∃ trace matched,
      (∀ other ended, s.Exhausts (m.withoutTable.task subject) other ended ↔
        other = trace ∧ ended = matched) ∧
      ∀ other ended, s'.Exhausts (m.withoutTable.task subject) other ended ↔
        other = trace ∧ ended = matched := by
  obtain ⟨pattern, hbuilt, rfl⟩ := exists_builtFrom_of_build hbuild
  have hp := hbuilt.withoutTable.closed.coherent
  have hbounds := htrail.inBounds hbuilt.withoutTable.closed hstart hs
  have hbounds' := htrail'.inBounds hbuilt.withoutTable.closed hstart' hs'
  have hplaced := hbuilt.withoutTable.placed htrail hstart hs
  have hplaced' := hbuilt.withoutTable.placed htrail' hstart' hs'
  -- The split has a cell, so a table would have to be larger than nothing.
  have hroom : 0 < (m.withoutTable.task subject).tableSize :=
    Nat.lt_of_le_of_lt (Nat.zero_le _) (hbounds.cell_lt hp hinstr)
  have hspot :=
    State.spot_eq_of_split (t := m.withoutTable.task subject) hp.fits hinstr hinstr' hpos hrounds
  obtain ⟨trace, matched, h, h'⟩ := State.exists_exhausts hp.fits hroom hplaced.ends hspot
    hplaced.orderly hplaced'.orderly hbounds.memo hbounds'.memo
  exact ⟨trace, matched, fun _ _ => h.iff_eq, fun _ _ => h'.iff_eq⟩

/-- In the outer loop the round of the first attempt has read both bytes, that of the second one
only one. -/
theorem exhausts_alike_other_rounds :
    ∃ (m : Matcher) (s s' : State), (build {} "(a*(b*)*)*c").value = .ok m ∧
      State.Reaches (m.withoutTable.task "aab".toUTF8)
        ((Trail.initial m.program).begin m.program 0) s ∧
      State.Reaches (m.withoutTable.task "aab".toUTF8)
        ((Trail.initial m.program).begin m.program 1) s' ∧
      s.address = s'.address ∧ s.pos = s'.pos ∧ s.roundStarts = #[0, 2] ∧ s'.roundStarts = #[1, 2] ∧
      ∃ trace matched,
        (∀ other ended, s.Exhausts (m.withoutTable.task "aab".toUTF8) other ended ↔
          other = trace ∧ ended = matched) ∧
        ∀ other ended, s'.Exhausts (m.withoutTable.task "aab".toUTF8) other ended ↔
          other = trace ∧ ended = matched := by
  have hpattern : Pattern.ofText (Limits.pattern {}) "(a*(b*)*)*c" = .ok {
      root := .concat [.star (.group (.concat [.star (.byte 97) .greedy,
        .star (.group (.star (.byte 98) .greedy) (some 2)) .greedy]) (some 1)) .greedy, .byte 99]
      captures := 2 } := rfl
  have hbuild := (build_value hpattern).trans (if_pos (by decide))
  -- Fifteen instructions lead to the innermost split from the first offset, and twelve from the
  -- second one.
  have hreached : ∀ m, (build {} "(a*(b*)*)*c").value = .ok m →
      (∃ s, State.Reaches (m.withoutTable.task "aab".toUTF8)
        ((Trail.initial m.program).begin m.program 0) s ∧
        (s.address == 10 && s.pos == 2 && s.roundStarts == #[0, 2]) = true) ∧
      ∃ s, State.Reaches (m.withoutTable.task "aab".toUTF8)
        ((Trail.initial m.program).begin m.program 1) s ∧
        (s.address == 10 && s.pos == 2 && s.roundStarts == #[1, 2]) = true := by
    intro m hm
    obtain rfl := Except.ok.inj (hbuild.symm.trans hm)
    exact ⟨State.exists_reaches_of_stopped (.steps 15) 0 (by decide +kernel),
      State.exists_reaches_of_stopped (.steps 12) 0 (by decide +kernel)⟩
  obtain ⟨⟨s, hs, hat⟩, s', hs', hat'⟩ := hreached _ hbuild
  simp only [Bool.and_eq_true, beq_iff_eq] at hat hat'
  obtain ⟨⟨haddress, hpos⟩, hstarts⟩ := hat
  obtain ⟨⟨haddress', hpos'⟩, hstarts'⟩ := hat'
  have hsame := hpos.trans hpos'.symm
  refine ⟨_, s, s', hbuild, hs, hs', haddress.trans haddress'.symm, hsame, hstarts, hstarts', ?_⟩
  refine exhausts_alike hbuild "aab".toUTF8 _ _ .initial .initial 0 1 (by decide) (by decide)
    s s' hs hs' 3 11 13 11 13 ?_ ?_ hsame ?_
  · rw [haddress]
    rfl
  · rw [haddress']
    rfl
  · rw [hpos, hpos', hstarts, hstarts']
    decide +kernel

end Matcher

end ByteRegex
