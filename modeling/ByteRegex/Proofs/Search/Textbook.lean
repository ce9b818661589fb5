import ByteRegex.Proofs.Match.Spans
import ByteRegex.Proofs.Search.Leftmost

/-!
# Searches and the textbook meaning of expressions

The machine prefers some matches to others, cuts loops short and skips what it has given up on. None
of this shows in whether and where there is a match: a search finds one exactly if the expression of
the pattern relates two offsets, and it finds one that starts as far to the left as any of them.
-/

namespace ByteRegex

theorem findSome?_range'_eq_some {α : Type} {f : Nat → Option α} {start n : Nat} {x : α}
    (h : (List.range' start n).findSome? f = some x) :
    ∃ i, start ≤ i ∧ i < start + n ∧ f i = some x ∧ ∀ i', start ≤ i' → i' < i → f i' = none := by
  induction n generalizing start with
  | zero => cases h
  | succ n ih =>
    rw [List.range'_succ, List.findSome?_cons] at h
    cases hf : f start with
    | some y =>
      rw [hf] at h
      exact ⟨start, Nat.le_refl _, by omega, hf.trans h, fun i' hle hlt => by omega⟩
    | none =>
      rw [hf] at h
      obtain ⟨i, hle, hlt, hi, hfirst⟩ := ih h
      refine ⟨i, by omega, by omega, hi, fun i' hle' hlt' => ?_⟩
      by_cases heq : i' = start
      · rw [heq, hf]
      · exact hfirst i' (by omega) hlt'

theorem findSome?_range'_eq_none {α : Type} {f : Nat → Option α} {start n : Nat} :
    (List.range' start n).findSome? f = none ↔ ∀ i, start ≤ i → i < start + n → f i = none := by
  rw [List.findSome?_eq_none_iff]
  constructor
  · exact fun h i hle hlt => h i (List.mem_range'_1.mpr ⟨hle, hlt⟩)
  · intro h i hi
    have hi := List.mem_range'_1.mp hi
    exact h i hi.1 hi.2

namespace Pattern

variable {pattern : Pattern} {subject : ByteArray} {start : Nat}

theorem leftmost_eq_none (hnormal : pattern.root.Normal) (subject : ByteArray) (start : Nat) :
    pattern.leftmost subject start = none ↔
      ∀ i j, start ≤ i → i ≤ subject.size → ¬pattern.root.Spans subject i j := by
  rw [leftmost, findSome?_range'_eq_none]
  constructor
  · intro h i j hle hi
    exact (matchAt_eq_none hnormal hi).mp (h i hle (by omega)) j
  · intro h i hle hlt
    have hi : i ≤ subject.size := by omega
    exact (matchAt_eq_none hnormal hi).mpr (fun j => h i j hle hi)

theorem spans_of_leftmost (hnormal : pattern.root.Normal) {found : Match}
    (h : pattern.leftmost subject start = some found) :
    (start ≤ found.span.start ∧ found.span.start ≤ subject.size) ∧
      pattern.root.Spans subject found.span.start found.span.stop ∧
      ∀ i j, start ≤ i → i ≤ subject.size → pattern.root.Spans subject i j →
        found.span.start ≤ i := by
  obtain ⟨i, hle, hlt, hi, hfirst⟩ := findSome?_range'_eq_some h
  have hsize : i ≤ subject.size := by omega
  obtain ⟨hstart, hspans⟩ := spans_of_matchAt hnormal hsize hi
  refine ⟨⟨by omega, by omega⟩, hspans, fun i' j' hle' hi' hspans' => ?_⟩
  rw [hstart]
  refine Nat.le_of_not_lt (fun hbefore => ?_)
  exact (matchAt_eq_none hnormal hi').mp (hfirst i' hle' (by omega)) j' hspans'

end Pattern

namespace Matcher

variable {limits : Limits} {text : String} {m : Matcher} {pattern : Pattern}

/-- Without step limit, `findAt` finds nothing exactly if the expression relates no offset from
`start` on to another. What it finds spans offsets that are related, and it starts at the least
offset from `start` on that is related to another. -/
theorem findAt_spans (hpattern : Pattern.ofText limits.pattern text = .ok pattern)
    (hbuild : (build limits text).value = .ok m) (hlimit : limits.stepLimit = none)
    (subject : ByteArray) (start : Nat) :
    ∃ answer, (m.findAt subject start).value = .ok answer ∧
      (answer = none ↔
        ∀ i j, start ≤ i → i ≤ subject.size → ¬pattern.root.Spans subject i j) ∧
      ∀ found, answer = some found →
        (start ≤ found.span.start ∧ found.span.start ≤ subject.size) ∧
        pattern.root.Spans subject found.span.start found.span.stop ∧
        ∀ i j, start ≤ i → i ≤ subject.size → pattern.root.Spans subject i j →
          found.span.start ≤ i := by
  obtain ⟨hbuilt, rfl⟩ := builtFrom_of_build hbuild hpattern
  refine ⟨pattern.leftmost subject start, hbuilt.findAt_eq hlimit subject start,
    Pattern.leftmost_eq_none hbuilt.normal subject start, fun found hfound => ?_⟩
  exact Pattern.spans_of_leftmost hbuilt.normal hfound

/-- Rounds that read nothing do not keep a loop from going on. -/
theorem findAt_empty_rounds :
    ∃ m answer, (build {} "(?:^|a*)+b").value = .ok m ∧
      (m.findAt "aab".toUTF8 1).value = .ok answer ∧ answer ≠ none := by
  have hpattern : Pattern.ofText (Limits.pattern {}) "(?:^|a*)+b" = .ok {
      root := .concat [
        .plus (.group (.alternate [.textStart, .star (.byte 97) .greedy]) none) .greedy,
        .byte 98]
      captures := 0 } := rfl
  have hbuild := (build_value hpattern).trans (if_pos (by decide))
  obtain ⟨answer, hanswer, hnone, _⟩ := findAt_spans hpattern hbuild rfl "aab".toUTF8 1
  refine ⟨_, answer, hbuild, hanswer, fun h => hnone.mp h 2 3 (by decide) (by decide) ?_⟩
  have hloop : Relation.TransGen (Expr.Spans "aab".toUTF8
      (.group (.alternate [.textStart, .star (.byte 97) .greedy]) none)) 2 2 :=
    .single (Or.inr (Or.inl .refl))
  have hbyte : Reads "aab".toUTF8 (· == 98) 2 3 := ⟨by decide, by decide, rfl⟩
  exact ⟨2, hloop, 3, hbyte, rfl⟩

end Matcher

end ByteRegex
