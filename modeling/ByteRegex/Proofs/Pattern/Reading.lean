import ByteRegex.Proofs.Pattern.Normal

/-!
# What readers keep true

Each byte leaves the content that is being read, and the content around every open group, in normal
form, and the groups numbered in the order in which they opened. What a whole pattern denotes
follows.
-/

namespace ByteRegex

/-- The indices of the capturing groups from the start of the content around the group up to and
including the group. -/
def OpenGroup.indices (g : OpenGroup) : List Nat :=
  g.around.indices ++ g.index.toList

/-- Two stages that come to a result both do. -/
theorem exists_of_bind_eq_ok {ε α β : Type} {x : Except ε α} {f : α → Except ε β} {b : β}
    (h : x >>= f = .ok b) : ∃ a, x = .ok a ∧ f a = .ok b := by
  cases x with
  | error e => cases h
  | ok a => exact ⟨a, rfl, h⟩

theorem BoundsReader.ordered_of_feed {limit pos min : Nat} {max : Option Nat}
    {reader : BoundsReader} {b : UInt8} (h : reader.feed limit pos b = .ok (.done min max)) :
    (Quantifier.repeated min max).Ordered := by
  have hnumber : ∀ (x : Except PatternError (Option NumberReader))
      (f : Option NumberReader → BoundsReader),
      (do let number ← x; return BoundsStep.more (f number)) ≠ .ok (.done min max) := by
    intro x f hx
    obtain ⟨number, _, hmore⟩ := exists_of_bind_eq_ok hx
    cases hmore
  intro n hn
  subst hn
  unfold feed at h
  split at h
  · split at h
    · exact absurd h (hnumber _ _)
    · split at h
      · cases h
      · split at h
        · simp only [Except.ok.injEq, BoundsStep.done.injEq, Option.some.injEq] at h
          omega
        · split at h <;> simp only [reduceCtorEq, Except.ok.injEq] at h
  · split at h
    · exact absurd h (hnumber _ _)
    · split at h
      · split at h
        · simp only [Except.ok.injEq, BoundsStep.done.injEq, reduceCtorEq, and_false] at h
        · split at h
          · cases h
          · simp only [Except.ok.injEq, BoundsStep.done.injEq, Option.some.injEq] at h
            omega
      · cases h

namespace PatternReader

/-- What is true of a reader after every byte. -/
structure Sound (reader : PatternReader) : Prop where
  level : reader.level.Normal
  groups : ∀ g ∈ reader.groups, g.around.Normal
  indices : reader.groups.reverse.flatMap OpenGroup.indices ++ reader.level.indices =
    List.range' 1 reader.captures

variable {reader reader' : PatternReader} {limits : PatternLimits} {b : UInt8}

theorem sound_initial : initial.Sound :=
  ⟨Level.normal_opened 0, fun _ hmem => absurd hmem List.not_mem_nil, rfl⟩

/-- Another form of the content with the same groups changes nothing. -/
theorem Sound.withLevel (h : reader.Sound) {level : Level} (hlevel : level.Normal)
    (hindices : level.indices = reader.level.indices) (mode : ReaderMode) :
    ({ reader with mode := mode, level := level } : PatternReader).Sound :=
  ⟨hlevel, h.groups, by rw [hindices]; exact h.indices⟩

theorem Sound.push (h : reader.Sound) {e : Expr} (he : e.Normal) (hoperand : e.isOperand = true)
    (hindices : e.indices = []) : (reader.push e).Sound := by
  refine h.withLevel (h.level.push he hoperand) ?_ _
  rw [Level.indices_push, hindices, List.append_nil]

/-- A group opens. If it is numbered, then with the next number. -/
theorem Sound.enterWith (h : reader.Sound) (pos start : Nat) {index : Option Nat} {captures : Nat}
    (hindex : List.range' 1 reader.captures ++ index.toList = List.range' 1 captures) :
    ({ reader.enter pos start index with captures := captures } : PatternReader).Sound := by
  refine ⟨Level.normal_opened start, fun g hmem => ?_, ?_⟩
  · rcases List.mem_cons.mp hmem with rfl | hmem
    · exact h.level
    · exact h.groups g hmem
  · show (_ :: reader.groups).reverse.flatMap OpenGroup.indices ++ [] = List.range' 1 captures
    rw [List.append_nil, List.reverse_cons, List.flatMap_append, List.flatMap_singleton]
    show _ ++ (reader.level.indices ++ index.toList) = _
    rw [← List.append_assoc, h.indices, hindex]

theorem Sound.enter (h : reader.Sound) (pos start : Nat) : (reader.enter pos start none).Sound :=
  h.enterWith pos start (List.append_nil _)

theorem Sound.enterCapturing (h : reader.Sound) (pos : Nat) :
    (reader.enterCapturing pos).Sound := by
  refine h.enterWith pos reader.pos (?_ : _ ++ [reader.captures + 1] = _)
  rw [List.range'_1_concat, Nat.add_comm 1]

theorem Sound.leave (h : reader.Sound) (hleave : reader.leave = .ok reader') : reader'.Sound := by
  unfold PatternReader.leave at hleave
  obtain ⟨e, hclose, hleave⟩ := exists_of_bind_eq_ok hleave
  obtain ⟨he, hindices⟩ := h.level.close hclose
  split at hleave
  · cases hleave
  · next g groups hgroups =>
    obtain rfl := Except.ok.inj hleave
    have haround := h.groups g (by rw [hgroups]; exact List.mem_cons_self)
    refine ⟨haround.push (.group g.index he) rfl, fun g' hmem => ?_, ?_⟩
    · exact h.groups g' (by rw [hgroups]; exact List.mem_cons_of_mem g hmem)
    · have hall := h.indices
      rw [hgroups, List.reverse_cons, List.flatMap_append, List.flatMap_singleton, ← hindices,
        List.append_assoc] at hall
      show _ ++ (g.around.push _).indices = List.range' 1 reader.captures
      rw [Level.indices_push, ← hall, Expr.indices, OpenGroup.indices]
      simp only [List.append_assoc]

/-- What may still be added to the latest piece can change without the groups in it. -/
theorem Sound.withLast (h : reader.Sound) {earlier : List Expr} {last last' : Piece}
    (hbranch : reader.level.branch = .pieces earlier last) (hlast : last'.Normal)
    (hindices : last'.expr.indices = last.expr.indices) (mode : ReaderMode) :
    ({ reader with
        mode := mode
        level := { reader.level with branch := .pieces earlier last' } } :
      PatternReader).Sound := by
  have hnormal := h.level.branch
  rw [hbranch] at hnormal
  have hlevel : ({ reader.level with branch := .pieces earlier last' } : Level).Normal :=
    ⟨h.level.complete, hnormal.1, hlast⟩
  refine h.withLevel hlevel ?_ mode
  rw [Level.indices, Level.indices, hbranch, Branch.indices_pieces hindices]

theorem Sound.quantify (h : reader.Sound) {q : Quantifier} (hq : q.Ordered)
    (hquantify : reader.quantify q = .ok reader') : reader'.Sound := by
  unfold PatternReader.quantify at hquantify
  split at hquantify
  · next earlier e hbranch =>
    obtain rfl := Except.ok.inj hquantify
    have hnormal := h.level.branch
    rw [hbranch] at hnormal
    obtain ⟨_, he, hoperand⟩ := hnormal
    have hlast : (Piece.quantified e q).Normal := ⟨he, hoperand, hq⟩
    exact h.withLast hbranch hlast (Quantifier.indices_apply .greedy) _
  · cases hquantify

theorem Sound.question (h : reader.Sound) (hquestion : reader.question = .ok reader') :
    reader'.Sound := by
  unfold PatternReader.question at hquestion
  split at hquestion
  · next earlier e q hbranch =>
    obtain rfl := Except.ok.inj hquestion
    have hnormal := h.level.branch
    rw [hbranch] at hnormal
    obtain ⟨_, he, hoperand, hq⟩ := hnormal
    have hindices : (q.apply e .lazy).indices = (q.apply e .greedy).indices :=
      (Quantifier.indices_apply .lazy).trans (Quantifier.indices_apply .greedy).symm
    have hlast : (Piece.sealed (q.apply e .lazy)).Normal :=
      ⟨Quantifier.normal_apply he hoperand hq .lazy, Quantifier.isPiece_apply .lazy⟩
    exact h.withLast hbranch hlast hindices _
  · exact h.quantify (q := .optional) trivial hquestion

theorem Sound.feedPiece (h : reader.Sound) (hfeed : reader.feedPiece limits b = .ok reader') :
    reader'.Sound := by
  unfold PatternReader.feedPiece at hfeed
  cases hmark : Mark.ofByte? b with
  | none =>
    rw [hmark] at hfeed
    obtain rfl := Except.ok.inj hfeed
    exact h.push (.byte b) rfl rfl
  | some mark =>
    rw [hmark] at hfeed
    cases mark with
    | dot =>
      obtain rfl := Except.ok.inj hfeed
      exact h.push .any rfl rfl
    | caret =>
      obtain rfl := Except.ok.inj hfeed
      exact h.push .textStart rfl rfl
    | dollar =>
      obtain rfl := Except.ok.inj hfeed
      exact h.push .textEnd rfl rfl
    | backslash | bracket =>
      obtain rfl := Except.ok.inj hfeed
      exact h.withLevel h.level rfl _
    | opening =>
      dsimp only at hfeed
      split at hfeed
      · cases hfeed
      · obtain rfl := Except.ok.inj hfeed
        exact h.withLevel h.level rfl _
    | closing => exact h.leave hfeed
    | bar =>
      dsimp only at hfeed
      obtain ⟨level, hnext, hfeed⟩ := exists_of_bind_eq_ok hfeed
      obtain ⟨hlevel, hindices⟩ := h.level.nextBranch hnext
      obtain rfl := Except.ok.inj hfeed
      exact h.withLevel hlevel hindices _
    | asterisk => exact h.quantify (q := .star) trivial hfeed
    | plus => exact h.quantify (q := .plus) trivial hfeed
    | question => exact h.question hfeed
    | brace =>
      simp only [PatternReader.brace] at hfeed
      split at hfeed
      · obtain rfl := Except.ok.inj hfeed
        exact h.withLevel h.level rfl _
      · cases hfeed

theorem Sound.feedByte (h : reader.Sound) (hfeed : reader.feedByte limits b = .ok reader') :
    reader'.Sound := by
  unfold PatternReader.feedByte at hfeed
  cases hmode : reader.mode with
  | pieces =>
    rw [hmode] at hfeed
    exact h.feedPiece hfeed
  | opened pos =>
    simp only [hmode] at hfeed
    split at hfeed
    · obtain rfl := Except.ok.inj hfeed
      exact h.withLevel h.level rfl _
    · exact (h.enterCapturing pos).feedPiece hfeed
  | marked pos =>
    simp only [hmode] at hfeed
    split at hfeed
    · obtain rfl := Except.ok.inj hfeed
      exact h.enter pos _
    · cases hfeed
  | escape pos =>
    simp only [hmode] at hfeed
    split at hfeed
    · cases hfeed
    · obtain rfl := Except.ok.inj hfeed
      exact h.push (.byte _) rfl rfl
    · obtain rfl := Except.ok.inj hfeed
      exact h.push (.oneOf _) rfl rfl
  | bounds bounds =>
    simp only [hmode] at hfeed
    obtain ⟨result, hbounds, hfeed⟩ := exists_of_bind_eq_ok hfeed
    cases result with
    | more bounds =>
      obtain rfl := Except.ok.inj hfeed
      exact h.withLevel h.level rfl _
    | done min max => exact h.quantify (BoundsReader.ordered_of_feed hbounds) hfeed
  | bracket bracket =>
    simp only [hmode] at hfeed
    obtain ⟨result, _, hfeed⟩ := exists_of_bind_eq_ok hfeed
    cases result with
    | more bracket =>
      obtain rfl := Except.ok.inj hfeed
      exact h.withLevel h.level rfl _
    | done s =>
      obtain rfl := Except.ok.inj hfeed
      exact h.push (.oneOf s) rfl rfl

theorem Sound.feed (h : reader.Sound) (hfeed : reader.feed limits b = .ok reader') :
    reader'.Sound := by
  unfold PatternReader.feed at hfeed
  obtain ⟨next, hbyte, hfeed⟩ := exists_of_bind_eq_ok hfeed
  obtain rfl := Except.ok.inj hfeed
  have hnext := h.feedByte hbyte
  exact ⟨hnext.level, hnext.groups, hnext.indices⟩

theorem Sound.feedAll (h : reader.Sound) {bytes : List UInt8}
    (hfeed : bytes.foldlM (PatternReader.feed limits) reader = .ok reader') : reader'.Sound := by
  induction bytes generalizing reader with
  | nil =>
    obtain rfl := Except.ok.inj hfeed
    exact h
  | cons b bytes ih =>
    rw [List.foldlM_cons] at hfeed
    obtain ⟨next, hnext, hfeed⟩ := exists_of_bind_eq_ok hfeed
    exact ih (h.feed hnext) hfeed

theorem Sound.finish (h : reader.Sound) {pattern : Pattern}
    (hfinish : reader.finish = .ok pattern) :
    pattern.root.Normal ∧ pattern.root.indices = List.range' 1 pattern.captures := by
  unfold PatternReader.finish at hfinish
  split at hfinish
  · cases hfinish
  · cases hfinish
  · cases hfinish
  · cases hfinish
  · cases hfinish
  · obtain ⟨root, hclose, hfinish⟩ := exists_of_bind_eq_ok hfinish
    split at hfinish
    · next hgroups =>
      obtain rfl := Except.ok.inj hfinish
      obtain ⟨hroot, hindices⟩ := h.level.close hclose
      have hall := h.indices
      rw [hgroups] at hall
      exact ⟨hroot, hindices.trans hall⟩
    · cases hfinish

end PatternReader

namespace Pattern

variable {limits : PatternLimits} {pattern : Pattern}

/-- A pattern that has been read is in normal form, and its groups are numbered in the order in
which they open. -/
theorem normal_of_ofBytes {bytes : List UInt8} (h : ofBytes limits bytes = .ok pattern) :
    pattern.root.Normal ∧ pattern.root.indices = List.range' 1 pattern.captures := by
  unfold ofBytes at h
  obtain ⟨reader, hreader, hfinish⟩ := exists_of_bind_eq_ok h
  exact (PatternReader.sound_initial.feedAll hreader).finish hfinish

end Pattern

end ByteRegex
