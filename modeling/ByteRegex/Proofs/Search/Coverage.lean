import ByteRegex.Proofs.Search.Calls

/-!
# A stream misses no match

Behind a match a stream goes on where the match stops, or one byte behind its start if it is empty.
So the matches that it yields come in order and do not overlap, and an offset where the pattern
matches is left out only if it lies inside of one of them: `Matcher.stream_covers`.
-/

namespace ByteRegex

namespace Pattern

variable {pattern : Pattern} {subject : ByteArray} {start : Option Nat} {found : List Match}

/-- Where an attempt matches, the leftmost match starts no later. -/
theorem exists_leftmost_le (hnormal : pattern.root.Normal) {lo o : Nat} (hlo : lo ≤ o)
    (ho : o ≤ subject.size) (hmatch : pattern.matchAt subject o ≠ none) :
    ∃ first, pattern.leftmost subject lo = some first ∧ first.span.start ≤ o := by
  cases hfound : pattern.leftmost subject lo with
  | none => exact absurd (findSome?_range'_eq_none.mp hfound o hlo (by omega)) hmatch
  | some first =>
    obtain ⟨i, _, hlt, hi, hbefore⟩ := findSome?_range'_eq_some hfound
    obtain ⟨hstart, _⟩ := spans_of_matchAt hnormal (by omega) hi
    refine ⟨first, rfl, Nat.le_of_not_lt fun hgt => hmatch ?_⟩
    exact hbefore o hlo (hstart ▸ hgt)

theorem Lists.start_le (hnormal : pattern.root.Normal) (h : pattern.Lists subject start found)
    {m : Match} (hm : m ∈ found) : ∃ lo, start = some lo ∧ lo ≤ m.span.start := by
  induction h with
  | nil h => exact absurd hm List.not_mem_nil
  | @cons start first rest h _ ih =>
    obtain ⟨lo, rfl, hfirst⟩ := Option.bind_eq_some_iff.mp h
    obtain ⟨⟨hle, _⟩, _⟩ := spans_of_leftmost hnormal hfirst
    rcases List.mem_cons.mp hm with rfl | hm
    · exact ⟨lo, rfl, hle⟩
    · obtain ⟨next, hnext, hle'⟩ := ih hm
      have hlt := (lt_nextStart? hnext).1
      exact ⟨lo, rfl, by omega⟩

/-- Each match lies behind the start and behind the end of every match before it. -/
theorem Lists.pairwise (hnormal : pattern.root.Normal) (h : pattern.Lists subject start found) :
    found.Pairwise fun a b => max a.span.stop (a.span.start + 1) ≤ b.span.start := by
  induction h with
  | nil h => exact .nil
  | cons _ hrest ih =>
    refine .cons (fun m hm => ?_) ih
    obtain ⟨next, hnext, hle⟩ := hrest.start_le hnormal hm
    obtain ⟨rfl, _⟩ := nextStart?_eq_some.mp hnext
    exact hle

/-- An offset where the pattern matches is where one of the matches starts, or it lies inside of
one. -/
theorem Lists.covers (hnormal : pattern.root.Normal) (h : pattern.Lists subject start found)
    {lo o : Nat} (hstart : start = some lo) (hlo : lo ≤ o) (ho : o ≤ subject.size)
    (hmatch : pattern.matchAt subject o ≠ none) :
    ∃ m ∈ found, m.span.start = o ∨ m.span.start < o ∧ o < m.span.stop := by
  induction h generalizing lo with
  | nil h =>
    subst hstart
    obtain ⟨first, hfirst, _⟩ := exists_leftmost_le hnormal hlo ho hmatch
    exact absurd (h.symm.trans hfirst) nofun
  | @cons start first rest h _ ih =>
    subst hstart
    obtain ⟨first', hfirst, hle⟩ := exists_leftmost_le hnormal hlo ho hmatch
    obtain rfl : first = first' := Option.some.inj (h.symm.trans hfirst)
    by_cases hbehind : max first.span.stop (first.span.start + 1) ≤ o
    · -- The next search starts no later than `o`, so one of the matches behind this one covers it.
      have hnext := nextStart?_eq_some.mpr ⟨rfl, Nat.le_trans hbehind ho⟩
      obtain ⟨m, hm, hcovers⟩ := ih hnext hbehind
      exact ⟨m, List.mem_cons_of_mem first hm, hcovers⟩
    · exact ⟨first, List.mem_cons_self, by omega⟩

end Pattern

namespace Matcher

variable {limits : Limits} {text : String} {m : Matcher} {pattern : Pattern}

/-- Without step limit, and with any room for a table, a stream yields matches each of which starts
behind the start of the one before it and not before its end, at most one for each offset and
nothing behind them. Every offset where a fresh attempt matches is the start of one of them or lies
inside of one. -/
theorem stream_covers (hbuild : (build limits text).value = .ok m)
    (hlimit : limits.stepLimit = none) (subject : ByteArray) :
    ∃ found : List Match,
      (∀ n, (m.stream subject).itemAt n = found[n]?.map .ok) ∧
      found.length ≤ subject.size + 1 ∧
      (found.Pairwise fun a b => max a.span.stop (a.span.start + 1) ≤ b.span.start) ∧
      (∀ n, (m.stream subject).itemAt n = none → ∀ k, n ≤ k → (m.stream subject).itemAt k = none) ∧
      ∀ start slots, start ≤ subject.size →
        ((Trail.initial m.program).attempt (m.task subject) (m.ceiling subject) 0 start).result =
          .accepted slots →
        ∃ first ∈ found, first.span.start = start ∨
          first.span.start < start ∧ start < first.span.stop := by
  obtain ⟨pattern, hbuilt, rfl⟩ := exists_builtFrom_of_build hbuild
  obtain ⟨found, hlists, hlength, hitems⟩ := hbuilt.exists_matches hlimit subject
  refine ⟨found, hitems, hlength, hlists.pairwise hbuilt.normal, fun n hend k hk => ?_,
    fun start slots hstart haccepted => ?_⟩
  · rw [hitems, Option.map_eq_none_iff, List.getElem?_eq_none_iff] at hend ⊢
    omega
  · have hmatch := (hbuilt.accepted_iff hlimit (Trail.sound_initial _) hstart).mp ⟨slots, haccepted⟩
    exact hlists.covers hbuilt.normal rfl (Nat.zero_le start) hstart hmatch

/-- The offset 2 has a match of its own, which is left out: it lies inside of another one. -/
theorem stream_covers_baab :
    ∃ m slots, ∃ found : List Match, (build { maxVisitedBits := 12 } "a*").value = .ok m ∧
      (∀ n, (m.stream "baab".toUTF8).itemAt n = found[n]?.map .ok) ∧
      ((Trail.initial m.program).attempt (m.task "baab".toUTF8)
        (m.ceiling "baab".toUTF8) 0 2).result = .accepted slots ∧
      ∃ first ∈ found, first.span.start = 2 ∨ first.span.start < 2 ∧ 2 < first.span.stop := by
  have hpattern : Pattern.ofText (Limits.pattern { maxVisitedBits := 12 }) "a*" = .ok {
      root := .star (.byte 97) .greedy
      captures := 0 } := rfl
  have hbuild := (build_value hpattern).trans (if_pos (by decide))
  obtain ⟨hbuilt, _⟩ := builtFrom_of_build hbuild hpattern
  have hstart : 2 ≤ "baab".toUTF8.size := by decide
  obtain ⟨slots, haccepted⟩ :=
    (hbuilt.accepted_iff rfl (Trail.sound_initial _) hstart).mpr (by decide +kernel)
  obtain ⟨found, hitems, _, _, _, hcovers⟩ := stream_covers hbuild rfl "baab".toUTF8
  exact ⟨_, slots, found, hbuild, hitems, haccepted, hcovers 2 slots hstart haccepted⟩

end Matcher

end ByteRegex
