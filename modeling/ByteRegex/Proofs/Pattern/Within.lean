import ByteRegex.Proofs.Pattern.Reading
import ByteRegex.Proofs.Pattern.RoundTrip

/-!
# Patterns within limits

The limits are about the bounds of repetitions and about groups inside one another. Everything that
the reader has read so far is within them or is not; what it does between two bytes that are
compared with a limit changes nothing about that.
-/

namespace ByteRegex

variable {limits : PatternLimits} {depth : Nat}

/-! ## Expressions within limits -/

namespace Expr

/-- The bounds of all repetitions are within the limits, and so are the groups inside one another
when there are `depth` groups around the expression. -/
structure Within (limits : PatternLimits) (depth : Nat) (e : Expr) : Prop where
  bounds : ∀ d min max greed, repeated d min max greed ∈ e.parts →
    min ≤ limits.maxRepetitions ∧ ∀ n, max = some n → n ≤ limits.maxRepetitions
  nesting : depth + e.nesting ≤ limits.maxNesting

variable {d e : Expr} {es : List Expr} {n : Nat}

theorem Within.mono {limits' : PatternLimits} (h : e.Within limits depth)
    (hrepetitions : limits.maxRepetitions ≤ limits'.maxRepetitions)
    (hnesting : limits.maxNesting ≤ limits'.maxNesting) : e.Within limits' depth where
  bounds d min max greed hd := by
    obtain ⟨hmin, hmax⟩ := h.bounds d min max greed hd
    exact ⟨Nat.le_trans hmin hrepetitions, fun n hn => Nat.le_trans (hmax n hn) hrepetitions⟩
  nesting := Nat.le_trans h.nesting hnesting

theorem Within.depth_le (h : e.Within limits depth) : depth ≤ limits.maxNesting :=
  Nat.le_trans (Nat.le_add_right _ _) h.nesting

theorem add_nestingAll_le :
    depth + nestingAll es ≤ n ↔ depth ≤ n ∧ ∀ e ∈ es, depth + e.nesting ≤ n := by
  induction es with
  | nil => simp [nestingAll]
  | cons e es ih =>
    have hmax :
        depth + nestingAll (e :: es) ≤ n ↔ depth + e.nesting ≤ n ∧ depth + nestingAll es ≤ n := by
      rw [nestingAll]
      omega
    rw [hmax, ih, List.forall_mem_cons]
    exact and_left_comm

theorem within_list (hchildren : e.children = es) (hnesting : e.nesting = nestingAll es)
    (hself : ∀ d min max greed, e ≠ repeated d min max greed) :
    e.Within limits depth ↔ depth ≤ limits.maxNesting ∧ ∀ d ∈ es, d.Within limits depth := by
  subst hchildren
  constructor
  · intro h
    have hall := add_nestingAll_le.mp (hnesting ▸ h.nesting)
    exact ⟨hall.1, fun d hd => ⟨fun d' min max greed hd' =>
      h.bounds d' min max greed (mem_parts_of_mem_children hd hd'), hall.2 d hd⟩⟩
  · rintro ⟨hdepth, hall⟩
    refine ⟨fun d' min max greed hd' => ?_, ?_⟩
    · rcases mem_parts.mp hd' with heq | ⟨d, hd, hd'⟩
      · exact absurd heq.symm (hself _ _ _ _)
      · exact (hall d hd).bounds d' min max greed hd'
    · rw [hnesting]
      exact add_nestingAll_le.mpr ⟨hdepth, fun d hd => (hall d hd).nesting⟩

theorem within_leaf (hchildren : e.children = []) :
    e.Within limits depth ↔ depth ≤ limits.maxNesting := by
  have hself : ∀ d min max greed, e ≠ repeated d min max greed := by
    rintro d min max greed rfl
    cases hchildren
  have hnesting : e.nesting = nestingAll [] := by
    cases e <;> simp_all [children, nesting, nestingAll]
  rw [within_list hchildren hnesting hself]
  simp

theorem within_concat :
    (concat es).Within limits depth ↔ depth ≤ limits.maxNesting ∧ ∀ d ∈ es, d.Within limits depth :=
  within_list rfl (by rw [nesting]) (fun _ _ _ _ h => nomatch h)

theorem within_alternate :
    (alternate es).Within limits depth ↔
      depth ≤ limits.maxNesting ∧ ∀ d ∈ es, d.Within limits depth :=
  within_list rfl (by rw [nesting]) (fun _ _ _ _ h => nomatch h)

theorem within_group (index : Option Nat) :
    (group e index).Within limits depth ↔ e.Within limits (depth + 1) := by
  constructor
  · intro h
    refine ⟨fun d min max greed hd => ?_, ?_⟩
    · exact h.bounds d min max greed (mem_parts_of_mem_children List.mem_cons_self hd)
    · have hnesting := h.nesting
      rw [nesting] at hnesting
      omega
  · intro h
    refine ⟨fun d min max greed hd => ?_, ?_⟩
    · rcases List.mem_cons.mp hd with heq | hd
      · cases heq
      · exact h.bounds d min max greed hd
    · have hnesting := h.nesting
      rw [nesting]
      omega

theorem within_apply (q : Quantifier) (greed : Greed) :
    (q.apply e greed).Within limits depth ↔ e.Within limits depth ∧ q.Within limits := by
  constructor
  · intro h
    refine ⟨⟨fun d min max greed' hd => ?_, q.nesting_apply e greed ▸ h.nesting⟩, ?_⟩
    · exact h.bounds d min max greed' (mem_parts_of_mem_children q.mem_children_apply hd)
    · rintro min max rfl
      exact h.bounds e min max greed (self_mem_parts _)
  · rintro ⟨he, hq⟩
    refine ⟨fun d min max greed' hd => ?_, (q.nesting_apply e greed).symm ▸ he.nesting⟩
    rcases mem_parts.mp hd with heq | ⟨c, hc, hd'⟩
    · cases q <;> cases heq
      exact hq min max rfl
    · obtain rfl : c = e := by cases q <;> exact List.mem_singleton.mp hc
      exact he.bounds d min max greed' hd'

end Expr

/-! ## Content within limits -/

def Branch.Within (limits : PatternLimits) (depth : Nat) (branch : Branch) : Prop :=
  ∀ e ∈ branch.exprs, e.Within limits depth

theorem Branch.within_close {branch : Branch} {e : Expr} (h : branch.close? = some e) :
    branch.Within limits depth ↔ e.Within limits depth := by
  unfold close? at h
  unfold Branch.Within
  split at h
  · cases h
  · next e' hexprs =>
    obtain rfl := Option.some.inj h
    rw [hexprs, List.forall_mem_singleton]
  · next hnil _ =>
    obtain rfl := Option.some.inj h
    rw [Expr.within_concat]
    obtain ⟨d, hd⟩ := List.exists_mem_of_ne_nil _ hnil
    simp only [List.mem_reverse]
    exact ⟨fun hall => ⟨(hall d hd).depth_le, hall⟩, And.right⟩

namespace Level

def Within (limits : PatternLimits) (depth : Nat) (level : Level) : Prop :=
  level.branch.Within limits depth ∧ ∀ e ∈ level.complete, e.Within limits depth

variable {level level' : Level} {e : Expr}

theorem within_opened (start : Nat) : (opened start).Within limits depth :=
  ⟨fun _ he => absurd he List.not_mem_nil, fun _ he => absurd he List.not_mem_nil⟩

theorem within_push :
    (level.push e).Within limits depth ↔ e.Within limits depth ∧ level.Within limits depth := by
  show (∀ d ∈ e :: level.branch.exprs, _) ∧ _ ↔ _
  rw [List.forall_mem_cons, and_assoc]
  rfl

theorem within_nextBranch {start : Nat} (h : level.nextBranch start = .ok level') :
    level'.Within limits depth ↔ level.Within limits depth := by
  unfold nextBranch at h
  split at h
  · cases h
  · next e hclose =>
    obtain rfl := Except.ok.inj h
    rw [Level.Within, Level.Within, Branch.within_close hclose, List.forall_mem_cons]
    exact and_iff_right fun _ hd => absurd hd List.not_mem_nil

theorem within_close (h : level.close = .ok e) :
    level.Within limits depth ↔ e.Within limits depth := by
  unfold close at h
  split at h
  · cases h
  · next d hclose =>
    rw [Level.Within, Branch.within_close hclose]
    split at h
    · next hcomplete =>
      obtain rfl := Except.ok.inj h
      rw [hcomplete]
      exact and_iff_left fun _ hd => absurd hd List.not_mem_nil
    · obtain rfl := Except.ok.inj h
      rw [Expr.within_alternate]
      simp only [List.mem_reverse, List.forall_mem_cons]
      exact ⟨fun hall => ⟨hall.1.depth_le, hall⟩, And.right⟩

end Level

/-! ## Bounds -/

def BoundsPhase.Within (limits : PatternLimits) : BoundsPhase → Prop
  | .min number => ∀ n ∈ number, n.value ≤ limits.maxRepetitions
  | .max m number => m ≤ limits.maxRepetitions ∧ ∀ n ∈ number, n.value ≤ limits.maxRepetitions

def BoundsStep.Within (limits : PatternLimits) : BoundsStep → Prop
  | .more reader => reader.phase.Within limits
  | .done min max => (Quantifier.repeated min max).Within limits

theorem Quantifier.within_repeated {min : Nat} {max : Option Nat} :
    (repeated min max).Within limits ↔
      min ≤ limits.maxRepetitions ∧ ∀ n ∈ max, n ≤ limits.maxRepetitions := by
  constructor
  · exact fun h => h min max rfl
  · rintro h min' max' heq
    cases heq
    exact h

/-- Only digits are compared with the limit. -/
theorem BoundsReader.within_feed {limit pos : Nat} {start : Nat} {phase : BoundsPhase} {b : UInt8}
    {step : BoundsStep} (hdigit : ¬Text.isDigit b = true)
    (h : feed limit ⟨start, phase⟩ pos b = .ok step) :
    step.Within limits ↔ phase.Within limits := by
  cases phase with
  | min number =>
    simp only [feed, if_neg hdigit] at h
    cases number with
    | none => cases h
    | some n =>
      simp only at h
      split at h
      · obtain rfl := Except.ok.inj h
        simp [BoundsStep.Within, Quantifier.within_repeated, BoundsPhase.Within]
      · split at h
        · obtain rfl := Except.ok.inj h
          simp [BoundsStep.Within, BoundsPhase.Within]
        · cases h
  | max m number =>
    simp only [feed, if_neg hdigit] at h
    split at h
    · cases number with
      | none =>
        obtain rfl := Except.ok.inj h
        simp [BoundsStep.Within, Quantifier.within_repeated, BoundsPhase.Within]
      | some n =>
        simp only at h
        split at h
        · cases h
        · obtain rfl := Except.ok.inj h
          simp [BoundsStep.Within, Quantifier.within_repeated, BoundsPhase.Within]
    · cases h

/-! ## Readers -/

/-- So many groups around the next byte are within the limits, and so are the bounds that are being
read. -/
def ReaderMode.Within (limits : PatternLimits) (depth : Nat) : ReaderMode → Prop
  | pieces | escape _ | bracket _ => True
  | opened _ | marked _ => depth < limits.maxNesting
  | bounds reader => reader.phase.Within limits

def OpenGroup.Within (limits : PatternLimits) : List OpenGroup → Prop
  | [] => True
  | g :: groups =>
    groups.length < limits.maxNesting ∧ g.around.Within limits groups.length ∧ Within limits groups

theorem OpenGroup.length_le {groups : List OpenGroup} (h : Within limits groups) :
    groups.length ≤ limits.maxNesting := by
  cases groups with
  | nil => exact Nat.zero_le _
  | cons g groups => exact h.1

namespace PatternReader

def ContentWithin (limits : PatternLimits) (r : PatternReader) : Prop :=
  r.level.Within limits r.groups.length ∧ OpenGroup.Within limits r.groups

def Within (limits : PatternLimits) (r : PatternReader) : Prop :=
  r.ContentWithin limits ∧ r.mode.Within limits r.groups.length

variable {r r' : PatternReader} {e : Expr} {b : UInt8}

theorem within_of_pieces (hmode : r.mode = .pieces) : r.Within limits ↔ r.ContentWithin limits := by
  rw [Within, hmode]
  exact and_iff_left trivial

theorem within_push (he : e.children = []) :
    (r.push e).Within limits ↔ r.ContentWithin limits := by
  rw [within_of_pieces rfl]
  show (r.level.push e).Within limits r.groups.length ∧ _ ↔ _
  rw [Level.within_push, Expr.within_leaf he, and_assoc]
  exact and_iff_right_of_imp fun h => OpenGroup.length_le h.2

theorem contentWithin_enter (pos start : Nat) (index : Option Nat) :
    (r.enter pos start index).ContentWithin limits ↔
      r.ContentWithin limits ∧ r.groups.length < limits.maxNesting := by
  show (Level.opened start).Within limits _ ∧ _ < _ ∧ _ ∧ _ ↔ _
  rw [and_iff_right (Level.within_opened start)]
  exact and_comm

theorem contentWithin_last {earlier : List Expr} {last last' : Piece}
    (hbranch : r.level.branch = .pieces earlier last) {P : Prop}
    (hlast : last'.expr.Within limits r.groups.length ↔ last.expr.Within limits r.groups.length ∧ P)
    (mode : ReaderMode) :
    ({ r with
        mode := mode
        level := { r.level with branch := .pieces earlier last' } } :
      PatternReader).ContentWithin limits ↔ r.ContentWithin limits ∧ P := by
  show ((∀ e ∈ last'.expr :: earlier, _) ∧ _) ∧ _ ↔ (((∀ e ∈ r.level.branch.exprs, _) ∧ _) ∧ _) ∧ P
  rw [hbranch, Branch.exprs, List.forall_mem_cons, List.forall_mem_cons, hlast]
  tauto

theorem within_quantify {q : Quantifier} (h : r.quantify q = .ok r') :
    r'.Within limits ↔ r.ContentWithin limits ∧ q.Within limits := by
  unfold quantify at h
  split at h
  · next earlier e hbranch =>
    obtain rfl := Except.ok.inj h
    rw [within_of_pieces rfl]
    exact contentWithin_last hbranch (Expr.within_apply q .greedy) .pieces
  · cases h

theorem within_question (hmode : r.mode = .pieces) (h : r.question = .ok r') :
    r'.Within limits ↔ r.ContentWithin limits := by
  unfold question at h
  split at h
  · next earlier e q hbranch =>
    obtain rfl := Except.ok.inj h
    have hlast : (Piece.sealed (q.apply e .lazy)).expr.Within limits r.groups.length ↔
        (Piece.quantified e q).expr.Within limits r.groups.length ∧ True := by
      rw [and_true]
      exact (Expr.within_apply q .lazy).trans (Expr.within_apply q .greedy).symm
    refine (within_of_pieces (by exact hmode)).trans ?_
    exact (contentWithin_last hbranch hlast r.mode).trans (and_iff_left trivial)
  · rw [within_quantify h]
    exact and_iff_left fun _ _ h => nomatch h

theorem within_leave (hmode : r.mode = .pieces) (h : r.leave = .ok r') :
    r'.Within limits ↔ r.ContentWithin limits := by
  unfold leave at h
  obtain ⟨e, hclose, h⟩ := exists_of_bind_eq_ok h
  split at h
  · cases h
  · next g groups hgroups =>
    obtain rfl := Except.ok.inj h
    refine (within_of_pieces (by exact hmode)).trans ?_
    show (g.around.push _).Within limits groups.length ∧ _ ↔
      r.level.Within limits r.groups.length ∧ _
    rw [Level.within_push, Expr.within_group, Level.within_close hclose, hgroups, OpenGroup.Within]
    -- A group whose content is within the limits was opened within them.
    have hdepth : e.Within limits (groups.length + 1) → groups.length < limits.maxNesting :=
      Expr.Within.depth_le
    rw [List.length_cons]
    tauto

theorem within_finish {pattern : Pattern} (h : r.finish = .ok pattern) :
    pattern.root.Within limits 0 ↔ r.Within limits := by
  unfold finish at h
  split at h
  · cases h
  · cases h
  · cases h
  · cases h
  · cases h
  · next hmode =>
    obtain ⟨root, hclose, h⟩ := exists_of_bind_eq_ok h
    split at h
    · next hgroups =>
      obtain rfl := Except.ok.inj h
      rw [within_of_pieces hmode, ContentWithin, hgroups]
      exact (Level.within_close hclose).symm.trans (and_iff_left trivial).symm
    · cases h

end PatternReader

end ByteRegex
