import ByteRegex.Proofs.Pattern.Within

/-!
# What limits refuse

A limit is looked at in two places only: where a group opens and where a digit of a bound is read.
What is read there ends up in the expression, so a pattern that is acceptable under some limits is
acceptable under other ones exactly if its expression is within them, and denotes the same then:
`Pattern.ofBytes_limits`.
-/

namespace ByteRegex

variable {limits limits' : PatternLimits}

/-! ## Two readings of the same bytes -/

/-- A fault that another choice of limits would not have. -/
def PatternError.OfLimits (limits : PatternLimits) (e : PatternError) : Prop :=
  ∃ pos, e = .repetitionTooLarge pos limits.maxRepetitions ∨
    e = .nestingTooDeep pos limits.maxNesting

/-- What a stage comes to that comes to `a` under other limits: to `a` as well, and then it has
added nothing that is not within the limits, or to a fault, and then it has. -/
def Agrees {α : Type} (limits : PatternLimits) (result : Except PatternError α) (a : α)
    (before after : Prop) : Prop :=
  result = .ok a ∧ (after ↔ before) ∨ ¬after ∧ ∃ e, result = .error e ∧ e.OfLimits limits

theorem Agrees.bind {α β : Type} {result : Except PatternError α}
    {f : α → Except PatternError β} {a : α} {b : β} {P Q R : Prop} (ha : Agrees limits result a P Q)
    (hb : Agrees limits (f a) b Q R) : Agrees limits (result >>= f) b P R := by
  rcases ha with ⟨rfl, hQ⟩ | ⟨hQ, e, rfl, he⟩
  · rcases hb with ⟨hok, hR⟩ | hrefused
    · exact Or.inl ⟨hok, hR.trans hQ⟩
    · exact Or.inr hrefused
  · have hR : ¬R := by
      rcases hb with ⟨_, hR⟩ | ⟨hR, _⟩
      · exact fun h => hQ (hR.mp h)
      · exact hR
    exact Or.inr ⟨hR, e, rfl, he⟩

theorem Agrees.and_left {α : Type} {result : Except PatternError α} {a : α} {P Q : Prop}
    (h : Agrees limits result a P Q) (R : Prop) : Agrees limits result a (R ∧ P) (R ∧ Q) := by
  rcases h with ⟨hok, hQ⟩ | ⟨hQ, he⟩
  · exact Or.inl ⟨hok, and_congr_right fun _ => hQ⟩
  · exact Or.inr ⟨fun h => hQ h.2, he⟩

/-- A number only grows, so it is above the limit once a part of its digits is. -/
theorem NumberReader.agrees_feed {pos : Nat} {digit : UInt8} {number number' : Option NumberReader}
    (h : feed limits'.maxRepetitions pos digit number = .ok number') :
    Agrees limits (feed limits.maxRepetitions pos digit number) number'
      (∀ n ∈ number, n.value ≤ limits.maxRepetitions)
      (∀ n ∈ number', n.value ≤ limits.maxRepetitions) := by
  have hgrows :
      ∀ n ∈ number, n.value ≤ 10 * (number.getD ⟨pos, 0⟩).value + Text.digitValue digit := by
    rintro n rfl
    rw [Option.getD_some]
    omega
  simp only [feed] at h ⊢
  split at h
  · cases h
  · obtain rfl := Except.ok.inj h
    simp only [Option.mem_some, forall_eq']
    split
    · next hlimit => exact Or.inr ⟨Nat.not_le.mpr hlimit, _, rfl, _, Or.inl rfl⟩
    · next hlimit =>
      have hvalue := Nat.not_lt.mp hlimit
      exact Or.inl ⟨rfl, fun _ n hn => Nat.le_trans (hgrows n hn) hvalue, fun _ => hvalue⟩

theorem BoundsReader.agrees_feed {reader : BoundsReader} {pos : Nat} {b : UInt8} {step : BoundsStep}
    (h : reader.feed limits'.maxRepetitions pos b = .ok step) :
    Agrees limits (reader.feed limits.maxRepetitions pos b) step (reader.phase.Within limits)
      (step.Within limits) := by
  obtain ⟨start, phase⟩ := reader
  by_cases hdigit : Text.isDigit b = true
  · cases phase with
    | min number =>
      simp only [feed, if_pos hdigit] at h ⊢
      obtain ⟨number', hnumber, hstep⟩ := exists_of_bind_eq_ok h
      obtain rfl := Except.ok.inj hstep
      exact (NumberReader.agrees_feed hnumber).bind (Or.inl ⟨rfl, Iff.rfl⟩)
    | max m number =>
      simp only [feed, if_pos hdigit] at h ⊢
      obtain ⟨number', hnumber, hstep⟩ := exists_of_bind_eq_ok h
      obtain rfl := Except.ok.inj hstep
      exact ((NumberReader.agrees_feed hnumber).and_left _).bind (Or.inl ⟨rfl, Iff.rfl⟩)
  · have hsame : step.Within limits ↔ phase.Within limits := within_feed hdigit h
    refine Or.inl ⟨?_, hsame⟩
    rw [← h]
    cases phase <;> simp only [feed, if_neg hdigit]

namespace PatternReader

variable {r r' : PatternReader} {b : UInt8}

theorem agrees_feedPiece (hmode : r.mode = .pieces) (h : r.feedPiece limits' b = .ok r') :
    Agrees limits (r.feedPiece limits b) r' (r.ContentWithin limits) (r'.Within limits) := by
  unfold feedPiece at h ⊢
  cases hmark : Mark.ofByte? b with
  | none =>
    rw [hmark] at h
    obtain rfl := Except.ok.inj h
    exact Or.inl ⟨rfl, within_push rfl⟩
  | some mark =>
    rw [hmark] at h
    cases mark with
    | dot | caret | dollar =>
      obtain rfl := Except.ok.inj h
      exact Or.inl ⟨rfl, within_push rfl⟩
    | backslash | bracket =>
      obtain rfl := Except.ok.inj h
      exact Or.inl ⟨rfl, and_iff_left trivial⟩
    | opening =>
      dsimp only at h ⊢
      split at h
      · cases h
      · obtain rfl := Except.ok.inj h
        split
        · next hdepth =>
            exact Or.inr ⟨fun hwithin => Nat.not_lt.mpr hdepth hwithin.2, _, rfl, _, Or.inr rfl⟩
        · next hdepth => exact Or.inl ⟨rfl, and_iff_left (Nat.not_le.mp hdepth)⟩
    | closing => exact Or.inl ⟨h, within_leave hmode h⟩
    | bar =>
      refine Or.inl ⟨h, ?_⟩
      obtain ⟨level, hnext, h⟩ := exists_of_bind_eq_ok h
      obtain rfl := Except.ok.inj h
      refine (within_of_pieces (by exact hmode)).trans ?_
      exact and_congr_left fun _ => Level.within_nextBranch hnext
    | asterisk => exact Or.inl ⟨h, (within_quantify h).trans (and_iff_left fun _ _ h => nomatch h)⟩
    | plus => exact Or.inl ⟨h, (within_quantify h).trans (and_iff_left fun _ _ h => nomatch h)⟩
    | question => exact Or.inl ⟨h, within_question hmode h⟩
    | brace =>
      refine Or.inl ⟨h, ?_⟩
      dsimp only [brace] at h
      split at h
      · obtain rfl := Except.ok.inj h
        exact and_iff_left fun _ h => nomatch h
      · cases h

theorem agrees_feedByte (h : r.feedByte limits' b = .ok r') :
    Agrees limits (r.feedByte limits b) r' (r.Within limits) (r'.Within limits) := by
  unfold feedByte at h ⊢
  rw [Within]
  cases hmode : r.mode with
  | pieces =>
    rw [hmode] at h
    simp only [ReaderMode.Within, and_true]
    exact agrees_feedPiece hmode h
  | opened pos =>
    simp only [hmode] at h ⊢
    split at h
    · next hmark =>
      rw [if_pos hmark]
      obtain rfl := Except.ok.inj h
      exact Or.inl ⟨rfl, Iff.rfl⟩
    · next hmark =>
      rw [if_neg hmark]
      have hcontent : (r.enterCapturing pos).ContentWithin limits ↔ _ :=
        contentWithin_enter pos r.pos _
      have hpiece : Agrees limits _ r' _ _ := agrees_feedPiece rfl h
      rwa [hcontent] at hpiece
  | marked pos =>
    simp only [hmode] at h ⊢
    split at h
    · next hmark =>
      rw [if_pos hmark]
      obtain rfl := Except.ok.inj h
      exact Or.inl ⟨rfl, (within_of_pieces rfl).trans (contentWithin_enter _ _ _)⟩
    · cases h
  | escape pos =>
    simp only [hmode] at h ⊢
    split at h
    · cases h
    · obtain rfl := Except.ok.inj h
      exact Or.inl ⟨rfl, (within_push rfl).trans (and_iff_left trivial).symm⟩
    · obtain rfl := Except.ok.inj h
      exact Or.inl ⟨rfl, (within_push rfl).trans (and_iff_left trivial).symm⟩
  | bounds bounds =>
    simp only [hmode] at h ⊢
    obtain ⟨result, hbounds, h⟩ := exists_of_bind_eq_ok h
    refine ((BoundsReader.agrees_feed hbounds).and_left _).bind ?_
    cases result with
    | more bounds =>
      obtain rfl := Except.ok.inj h
      exact Or.inl ⟨rfl, Iff.rfl⟩
    | done min max => exact Or.inl ⟨h, within_quantify h⟩
  | bracket bracket =>
    simp only [hmode] at h ⊢
    obtain ⟨result, hbracket, h⟩ := exists_of_bind_eq_ok h
    rw [hbracket]
    cases result with
    | more bracket =>
      obtain rfl := Except.ok.inj h
      exact Or.inl ⟨rfl, Iff.rfl⟩
    | done s =>
      obtain rfl := Except.ok.inj h
      exact Or.inl ⟨rfl, (within_push rfl).trans (and_iff_left trivial).symm⟩

theorem agrees_feed (h : r.feed limits' b = .ok r') :
    Agrees limits (r.feed limits b) r' (r.Within limits) (r'.Within limits) := by
  unfold feed at h ⊢
  obtain ⟨next, hnext, h⟩ := exists_of_bind_eq_ok h
  obtain rfl := Except.ok.inj h
  exact (agrees_feedByte hnext).bind (Or.inl ⟨rfl, Iff.rfl⟩)

theorem agrees_feedAll {bytes : List UInt8} (h : bytes.foldlM (feed limits') r = .ok r') :
    Agrees limits (bytes.foldlM (feed limits) r) r' (r.Within limits) (r'.Within limits) := by
  induction bytes generalizing r with
  | nil =>
    obtain rfl := Except.ok.inj h
    exact Or.inl ⟨rfl, Iff.rfl⟩
  | cons b bytes ih =>
    rw [List.foldlM_cons] at h ⊢
    obtain ⟨next, hnext, h⟩ := exists_of_bind_eq_ok h
    exact (agrees_feed hnext).bind (ih h)

end PatternReader

namespace Pattern

variable {pattern : Pattern} {bytes : List UInt8}

theorem agrees_ofBytes (limits : PatternLimits) (h : ofBytes limits' bytes = .ok pattern) :
    Agrees limits (ofBytes limits bytes) pattern True (pattern.root.Within limits 0) := by
  unfold ofBytes at h ⊢
  obtain ⟨r, hr, h⟩ := exists_of_bind_eq_ok h
  have hinitial : PatternReader.initial.Within limits :=
    ⟨⟨Level.within_opened 0, trivial⟩, trivial⟩
  have hall : Agrees limits _ r _ _ := PatternReader.agrees_feedAll hr
  rw [iff_true_intro hinitial] at hall
  exact hall.bind (Or.inl ⟨h, PatternReader.within_finish h⟩)

theorem within_of_ofBytes (h : ofBytes limits bytes = .ok pattern) :
    pattern.root.Within limits 0 := by
  rcases agrees_ofBytes limits h with ⟨_, hwithin⟩ | ⟨_, e, herror, _⟩
  · exact hwithin.mpr trivial
  · cases h.symm.trans herror

/-- Limits refuse, and do nothing else. What is accepted under some limits is accepted under wider
ones, and denotes the same. Under narrower ones it is accepted exactly if its expression is within
them, and otherwise the fault is that a bound or the nesting is not. -/
theorem ofBytes_limits (hrepetitions : limits.maxRepetitions ≤ limits'.maxRepetitions)
    (hnesting : limits.maxNesting ≤ limits'.maxNesting) (bytes : List UInt8) :
    (∀ pattern, ofBytes limits bytes = .ok pattern → ofBytes limits' bytes = .ok pattern) ∧
    ∀ pattern, ofBytes limits' bytes = .ok pattern →
      ((∃ pattern', ofBytes limits bytes = .ok pattern') ↔ pattern.root.Within limits 0) ∧
      (¬pattern.root.Within limits 0 → ∃ pos,
        ofBytes limits bytes = .error (.repetitionTooLarge pos limits.maxRepetitions) ∨
        ofBytes limits bytes = .error (.nestingTooDeep pos limits.maxNesting)) := by
  refine ⟨fun pattern h => ?_, fun pattern h => ?_⟩
  · have hwithin := (within_of_ofBytes h).mono hrepetitions hnesting
    rcases agrees_ofBytes limits' h with ⟨hok, _⟩ | ⟨hnot, _⟩
    · exact hok
    · exact absurd hwithin hnot
  · rcases agrees_ofBytes limits h with ⟨hok, hwithin⟩ | ⟨hnot, e, herror, pos, he⟩
    · have hwithin := hwithin.mpr trivial
      exact ⟨⟨fun _ => hwithin, fun _ => ⟨pattern, hok⟩⟩, absurd hwithin⟩
    · refine ⟨⟨fun ⟨pattern', hok⟩ => ?_, fun hwithin => absurd hwithin hnot⟩, fun _ => ⟨pos, ?_⟩⟩
      · cases hok.symm.trans herror
      · rcases he with rfl | rfl
        · exact Or.inl herror
        · exact Or.inr herror

/-- Siblings do not count as nested, and zeros in front do not make a bound larger; its value
does. -/
theorem ofBytes_limits_siblings :
    let bytes := "(a)((?:b)c)\x7b007,\x7d".toUTF8.data.toList
    ∃ pattern, ofBytes { maxRepetitions := 7, maxNesting := 2 } bytes = .ok pattern ∧
      ofBytes {} bytes = .ok pattern ∧
      ¬pattern.root.Within { maxRepetitions := 6, maxNesting := 2 } 0 ∧
      ∃ pos, ofBytes { maxRepetitions := 6, maxNesting := 2 } bytes =
        .error (.repetitionTooLarge pos 6) ∨
        ofBytes { maxRepetitions := 6, maxNesting := 2 } bytes =
          .error (.nestingTooDeep pos 2) := by
  intro bytes
  let operand : Expr := .group (.concat [.group (.byte 98) none, .byte 99]) (some 2)
  let root : Expr := .concat [.group (.byte 97) (some 1), .repeated operand 7 none .greedy]
  have hpattern : ofBytes { maxRepetitions := 7, maxNesting := 2 } bytes =
      .ok { root := root, captures := 2 } := rfl
  have hwide := (@ofBytes_limits { maxRepetitions := 7, maxNesting := 2 } {} (by decide) (by decide)
    bytes).1 _ hpattern
  have hnot : ¬root.Within { maxRepetitions := 6, maxNesting := 2 } 0 := by
    intro h
    have hbound := (h.bounds operand 7 none .greedy (by simp [root, Expr.parts, Expr.partsAll])).1
    exact absurd hbound (by decide)
  have hnarrow :=
    ((@ofBytes_limits { maxRepetitions := 6, maxNesting := 2 } {} (by decide) (by decide)
      bytes).2 _ hwide).2 hnot
  exact ⟨_, hpattern, hwide, hnot, hnarrow⟩

end Pattern

end ByteRegex
