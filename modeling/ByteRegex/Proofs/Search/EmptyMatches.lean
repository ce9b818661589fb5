import ByteRegex.Proofs.Search.Soundness

/-!
# Which patterns match the empty string

Whether an expression can match without reading a byte is told from its form, with no subject at
hand. On the empty subject every anchor holds, so there an expression matches exactly if its form
says that it can; and if it does not say so, then no match of any subject is empty:
`Matcher.nullable_iff_find_empty`.
-/

namespace ByteRegex

theorem fold_self {R : Nat → Nat → Prop} {i : Nat} (h : R i i) (n : Nat) : Fold R n i i := by
  induction n with
  | zero => rfl
  | succ n ih => exact ⟨i, h, ih⟩

namespace Expr

variable {e : Expr} {es : List Expr} {subject : ByteArray} {i j : Nat}

theorem spansAll_of_allNullable (h : ∀ e ∈ es, e.nullable = true → e.Spans .empty 0 0)
    (hnullable : allNullable es = true) : SpansAll .empty es 0 0 := by
  induction es with
  | nil => rfl
  | cons e es ih =>
    rw [allNullable, Bool.and_eq_true] at hnullable
    exact ⟨0, h e List.mem_cons_self hnullable.1,
      ih (fun d hd => h d (List.mem_cons_of_mem e hd)) hnullable.2⟩

theorem spansAny_of_anyNullable (h : ∀ e ∈ es, e.nullable = true → e.Spans .empty 0 0)
    (hnullable : anyNullable es = true) : SpansAny .empty es 0 0 := by
  induction es with
  | nil => cases hnullable
  | cons e es ih =>
    rw [anyNullable, Bool.or_eq_true] at hnullable
    rcases hnullable with hfirst | hrest
    · exact Or.inl (h e List.mem_cons_self hfirst)
    · exact Or.inr (ih (fun d hd => h d (List.mem_cons_of_mem e hd)) hrest)

/-- What can match without reading a byte matches the empty subject. Both anchors hold there. -/
theorem Normal.spans_of_nullable (he : e.Normal) (hnullable : e.nullable = true) :
    e.Spans .empty 0 0 := by
  induction he with
  | byte b | any | oneOf s => cases hnullable
  | textStart | textEnd => exact ⟨rfl, rfl⟩
  | concat _ _ _ ih => exact spansAll_of_allNullable ih hnullable
  | alternate _ _ _ ih => exact spansAny_of_anyNullable ih hnullable
  | star greed _ _ _ => exact .refl
  | plus greed _ _ ih => exact .single (ih hnullable)
  | optional greed _ _ _ => exact Or.inr rfl
  | @repeated e min max greed _ _ hbounds ih =>
    rw [nullable, Bool.or_eq_true, beq_iff_eq] at hnullable
    refine ⟨min, Nat.le_refl min, hbounds, ?_⟩
    rcases hnullable with rfl | hbody
    · rfl
    · exact fold_self (ih hbody) min
  | group index _ ih => exact ih hnullable

/-- What cannot match without reading a byte reads one. -/
theorem Normal.lt_of_spans (he : e.Normal) (hnullable : e.nullable = false) (hi : i ≤ subject.size)
    (h : e.Spans subject i j) : i < j := by
  obtain ⟨slots, hslots⟩ := (he.relates subject i #[] j hi).mpr h
  have hreads : (!e.nullable) = true := by
    rw [hnullable]
    rfl
  exact (he.bounded subject i #[] hi (j, slots) hslots).2.2 hreads

end Expr

namespace Match

variable {pattern : Pattern} {subject : ByteArray} {found : Match}

/-- The empty subject has one offset only. -/
theorem SoundFor.span_of_empty (h : found.SoundFor pattern .empty) : found.span = ⟨0, 0⟩ := by
  have hstop : found.span.stop = 0 := Nat.le_zero.mp h.fits.inside
  have hstart : found.span.start = 0 := Nat.le_zero.mp (hstop ▸ h.fits.forward)
  calc
    found.span = ⟨found.span.start, found.span.stop⟩ := rfl
    _ = ⟨0, 0⟩ := by rw [hstart, hstop]

theorem SoundFor.not_isEmpty (h : found.SoundFor pattern subject) (hnormal : pattern.root.Normal)
    (hnullable : pattern.root.nullable = false) : found.span.isEmpty = false := by
  have hstart : found.span.start ≤ subject.size := Nat.le_trans h.fits.forward h.fits.inside
  have hlt := hnormal.lt_of_spans hnullable hstart h.whole
  exact decide_eq_false (Nat.not_le.mpr hlt)

end Match

namespace Matcher

variable {limits : Limits} {text : String} {m : Matcher} {pattern : Pattern}

/-- Without step limit, a search of the empty subject comes to the match from 0 to 0 exactly if the
form of the expression says that it can match without reading a byte. If the form does not say so,
then under any limits no match that is found, in whatever subject, is empty. -/
theorem nullable_iff_find_empty (hpattern : Pattern.ofText limits.pattern text = .ok pattern)
    (hbuild : (build limits text).value = .ok m) :
    (limits.stepLimit = none →
      (pattern.root.nullable = true ↔
        ∃ found, (m.find .empty).value = .ok (some found) ∧ found.span = ⟨0, 0⟩)) ∧
    (pattern.root.nullable = false → ∀ subject,
      (∀ start found, (m.findAt subject start).value = .ok (some found) →
        found.span.isEmpty = false) ∧
      ∀ n found, (m.stream subject).itemAt n = some (.ok found) → found.span.isEmpty = false) := by
  obtain ⟨hbuilt, rfl⟩ := builtFrom_of_build hbuild hpattern
  refine ⟨fun hlimit => ⟨fun hnullable => ?_, ?_⟩, fun hnullable subject => ⟨?_, ?_⟩⟩
  · have hfind := hbuilt.findAt_eq hlimit .empty 0
    cases hleftmost : pattern.leftmost .empty 0 with
    | none =>
      have hnone := (Pattern.leftmost_eq_none hbuilt.normal .empty 0).mp hleftmost
      exact absurd (hbuilt.normal.spans_of_nullable hnullable)
        (hnone 0 0 (Nat.le_refl 0) (Nat.le_refl 0))
    | some found =>
      rw [hleftmost] at hfind
      exact ⟨found, hfind, (hbuilt.soundFor_of_findAt hfind).span_of_empty⟩
  · rintro ⟨found, hfound, hspan⟩
    by_contra hnullable
    have hempty := (hbuilt.soundFor_of_findAt hfound).not_isEmpty hbuilt.normal
      (Bool.eq_false_iff.mpr hnullable)
    rw [hspan] at hempty
    cases hempty
  · exact fun start found hfound =>
      (hbuilt.soundFor_of_findAt hfound).not_isEmpty hbuilt.normal hnullable
  · exact fun n found hitem => (hbuilt.soundFor_of_itemAt hitem).not_isEmpty hbuilt.normal hnullable

/-- A loop of anchors and empty repetitions matches the empty subject; with a byte behind it, it
does not match anything empty. -/
theorem nullable_iff_find_empty_loops :
    (∃ m found, (build {} "(?:^|a\x7b0,2\x7d$)+").value = .ok m ∧
      (m.find .empty).value = .ok (some found) ∧ found.span = ⟨0, 0⟩) ∧
    ∃ m, (build {} "(?:^|a*)+b").value = .ok m ∧
      ∀ start found, (m.findAt "aabb".toUTF8 start).value = .ok (some found) →
        found.span.isEmpty = false := by
  have hloop : Pattern.ofText (Limits.pattern {}) "(?:^|a\x7b0,2\x7d$)+" = .ok {
      root := .plus (.group (.alternate [.textStart,
        .concat [.repeated (.byte 97) 0 (some 2) .greedy, .textEnd]]) none) .greedy
      captures := 0 } := rfl
  have hbyte : Pattern.ofText (Limits.pattern {}) "(?:^|a*)+b" = .ok {
      root := .concat [
        .plus (.group (.alternate [.textStart, .star (.byte 97) .greedy]) none) .greedy,
        .byte 98]
      captures := 0 } := rfl
  have hbuildLoop := (build_value hloop).trans (if_pos (by decide))
  have hbuildByte := (build_value hbyte).trans (if_pos (by decide))
  obtain ⟨found, hfound⟩ := ((nullable_iff_find_empty hloop hbuildLoop).1 rfl).mp (by decide)
  exact ⟨⟨_, found, hbuildLoop, hfound⟩, _, hbuildByte,
    ((nullable_iff_find_empty hbyte hbuildByte).2 (by decide) _).1⟩

end Matcher

end ByteRegex
