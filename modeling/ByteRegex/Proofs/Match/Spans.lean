import ByteRegex.Proofs.Match.Spelling

/-!
# Expressions as relations between offsets

An expression relates the offsets between which it matches. Concatenation is composition, a choice
is a union, and loops are closures, with no word on which match is preferred and when a loop has to
stop. What the reference for matching comes to are exactly the offsets that are related.
-/

namespace ByteRegex

/-! ## Repeated composition -/

def Fold (R : Nat → Nat → Prop) : (n : Nat) → Nat → Nat → Prop
  | 0 => Eq
  | n + 1 => Relation.Comp R (Fold R n)

section Fold

variable {R : Nat → Nat → Prop} {i j k m n : Nat}

theorem fold_add : Fold R (m + n) i j ↔ ∃ k, Fold R m i k ∧ Fold R n k j := by
  induction m generalizing i with
  | zero =>
    rw [Nat.zero_add]
    constructor
    · exact fun h => ⟨i, rfl, h⟩
    · rintro ⟨k, rfl, h⟩
      exact h
  | succ m ih =>
    rw [Nat.add_right_comm]
    constructor
    · rintro ⟨l, hl, h⟩
      obtain ⟨k, hk, h⟩ := ih.mp h
      exact ⟨k, ⟨l, hl, hk⟩, h⟩
    · rintro ⟨k, ⟨l, hl, hk⟩, h⟩
      exact ⟨l, hl, ih.mpr ⟨k, hk, h⟩⟩

theorem reflTransGen_iff_fold : Relation.ReflTransGen R i j ↔ ∃ n, Fold R n i j := by
  constructor
  · intro h
    induction h using Relation.ReflTransGen.head_induction_on with
    | refl => exact ⟨0, rfl⟩
    | head hstep _ ih =>
      obtain ⟨n, hn⟩ := ih
      exact ⟨n + 1, _, hstep, hn⟩
  · rintro ⟨n, hn⟩
    induction n generalizing i with
    | zero =>
      obtain rfl : i = j := hn
      exact .refl
    | succ n ih =>
      obtain ⟨k, hstep, hn⟩ := hn
      exact .head hstep (ih hn)

theorem transGen_iff_fold : Relation.TransGen R i j ↔ ∃ n, Fold R (n + 1) i j := by
  rw [Relation.TransGen.head'_iff]
  constructor
  · rintro ⟨k, hstep, hrest⟩
    obtain ⟨n, hn⟩ := reflTransGen_iff_fold.mp hrest
    exact ⟨n, k, hstep, hn⟩
  · rintro ⟨n, k, hstep, hn⟩
    exact ⟨k, hstep, reflTransGen_iff_fold.mpr ⟨n, hn⟩⟩

end Fold

/-! ## The relation of an expression -/

def Reads (subject : ByteArray) (accepts : UInt8 → Bool) (i j : Nat) : Prop :=
  ∃ h : i < subject.size, accepts subject[i] = true ∧ j = i + 1

namespace Expr

mutual

/-- The offsets between which the expression matches. -/
def Spans (subject : ByteArray) : Expr → Nat → Nat → Prop
  | byte b => Reads subject (· == b)
  | any => Reads subject (fun _ => true)
  | oneOf s => Reads subject s.contains
  | textStart => fun i j => i = 0 ∧ j = 0
  | textEnd => fun i j => i = subject.size ∧ j = subject.size
  | concat es => SpansAll subject es
  | alternate es => SpansAny subject es
  | star e _ => Relation.ReflTransGen (e.Spans subject)
  | plus e _ => Relation.TransGen (e.Spans subject)
  | optional e _ => fun i j => e.Spans subject i j ∨ i = j
  | repeated e min max _ => fun i j =>
    ∃ n, min ≤ n ∧ (∀ m, max = some m → n ≤ m) ∧ Fold (e.Spans subject) n i j
  | group e _ => e.Spans subject

def SpansAll (subject : ByteArray) : List Expr → Nat → Nat → Prop
  | [] => Eq
  | e :: es => Relation.Comp (e.Spans subject) (SpansAll subject es)

def SpansAny (subject : ByteArray) : List Expr → Nat → Nat → Prop
  | [] => fun _ _ => False
  | e :: es => fun i j => e.Spans subject i j ∨ SpansAny subject es i j

end

end Expr

/-! ## The ends of matches -/

namespace Matching

/-- The matches from an offset of the subject end at the offsets that `R` relates it to. -/
def Relates (length : Nat) (f : Matching) (R : Nat → Nat → Prop) : Prop :=
  ∀ pos slots j, pos ≤ length → ((∃ s, (j, s) ∈ f pos slots) ↔ R pos j)

namespace Relates

variable {length n : Nat} {reads : Bool} {f g : Matching} {R S : Nat → Nat → Prop}

theorem congr (hf : Relates length f R) (h : ∀ i j, i ≤ length → (R i j ↔ S i j)) :
    Relates length f S :=
  fun pos slots j hpos => (hf pos slots j hpos).trans (h pos j hpos)

theorem single (change : Nat → Slots → Slots) :
    Relates length (fun pos slots => [(pos, change pos slots)]) Eq := by
  intro pos slots j _
  constructor
  · rintro ⟨s, hs⟩
    exact (Prod.mk.inj (List.mem_singleton.mp hs)).1.symm
  · rintro rfl
    exact ⟨_, List.mem_cons_self⟩

theorem empty : Relates length .empty Eq := single (fun _ slots => slots)

theorem record (slot : Nat) : Relates length (.record slot) Eq :=
  single (fun pos slots => slots.setIfInBounds slot (some pos))

theorem never : Relates length .never (fun _ _ => False) := by
  intro pos slots j _
  exact ⟨fun ⟨_, h⟩ => absurd h List.not_mem_nil, False.elim⟩

theorem read (subject : ByteArray) (accepts : UInt8 → Bool) :
    Relates subject.size (.read subject accepts) (Reads subject accepts) := by
  intro pos slots j _
  constructor
  · rintro ⟨s, hs⟩
    obtain ⟨hlt, haccepts, heq⟩ := mem_read.mp hs
    exact ⟨hlt, haccepts, (Prod.mk.inj heq).1⟩
  · rintro ⟨hlt, haccepts, rfl⟩
    exact ⟨slots, mem_read.mpr ⟨hlt, haccepts, rfl⟩⟩

theorem require (x : Nat) : Relates length (.require (· == x)) (fun i j => i = x ∧ j = x) := by
  intro pos slots j _
  constructor
  · rintro ⟨s, hs⟩
    obtain ⟨hx, heq⟩ := mem_require.mp hs
    have hpos : pos = x := beq_iff_eq.mp hx
    exact ⟨hpos, (Prod.mk.inj heq).1.trans hpos⟩
  · rintro ⟨rfl, rfl⟩
    exact ⟨slots, mem_require.mpr ⟨beq_self_eq_true _, rfl⟩⟩

theorem andThen (hf : Relates length f R) (hbound : Bounded length reads f)
    (hg : Relates length g S) : Relates length (f.andThen g) (Relation.Comp R S) := by
  intro pos slots j hpos
  constructor
  · rintro ⟨s, hs⟩
    obtain ⟨m, hm, hs⟩ := mem_andThen.mp hs
    have hle := (hbound pos slots hpos m hm).2.1
    exact ⟨m.1, (hf pos slots m.1 hpos).mp ⟨m.2, hm⟩, (hg m.1 m.2 j hle).mp ⟨s, hs⟩⟩
  · rintro ⟨k, hk, hj⟩
    obtain ⟨s, hs⟩ := (hf pos slots k hpos).mpr hk
    have hle := (hbound pos slots hpos (k, s) hs).2.1
    obtain ⟨s', hs'⟩ := (hg k s j hle).mpr hj
    exact ⟨s', mem_andThen.mpr ⟨(k, s), hs, hs'⟩⟩

theorem orElse (hf : Relates length f R) (hg : Relates length g S) :
    Relates length (f.orElse g) (fun i j => R i j ∨ S i j) := by
  intro pos slots j hpos
  constructor
  · rintro ⟨s, hs⟩
    rcases List.mem_append.mp hs with hs | hs
    · exact Or.inl ((hf pos slots j hpos).mp ⟨s, hs⟩)
    · exact Or.inr ((hg pos slots j hpos).mp ⟨s, hs⟩)
  · rintro (h | h)
    · obtain ⟨s, hs⟩ := (hf pos slots j hpos).mpr h
      exact ⟨s, List.mem_append_left _ hs⟩
    · obtain ⟨s, hs⟩ := (hg pos slots j hpos).mpr h
      exact ⟨s, List.mem_append_right _ hs⟩

theorem optional (hf : Relates length f R) (greed : Greed) :
    Relates length (optional greed f) (fun i j => R i j ∨ i = j) := by
  intro pos slots j hpos
  constructor
  · rintro ⟨s, hs⟩
    rcases mem_optional.mp hs with hs | hs
    · exact Or.inl ((hf pos slots j hpos).mp ⟨s, hs⟩)
    · exact Or.inr (Prod.mk.inj hs).1.symm
  · rintro (h | rfl)
    · obtain ⟨s, hs⟩ := (hf pos slots j hpos).mpr h
      exact ⟨s, mem_optional.mpr (Or.inl hs)⟩
    · exact ⟨slots, mem_optional.mpr (Or.inr rfl)⟩

/-! ## Loops -/

/-- A chain of rounds is one round, or it starts with a round that reads something: a round that
reads nothing in front of others can be left out. -/
theorem transGen_cases (hmono : ∀ i j, i ≤ length → R i j → i ≤ j ∧ j ≤ length) {i j : Nat}
    (hi : i ≤ length) (h : Relation.TransGen R i j) :
    R i j ∨ ∃ k, i < k ∧ k ≤ length ∧ R i k ∧ Relation.TransGen R k j := by
  induction h using Relation.TransGen.head_induction_on with
  | single hstep => exact Or.inl hstep
  | @head i k hstep hrest ih =>
    obtain ⟨hle, hk⟩ := hmono i k hi hstep
    by_cases hik : i = k
    · subst hik
      exact ih hi
    · exact Or.inr ⟨k, by omega, hk, hstep, hrest⟩

theorem plus (hf : Relates length f R) (hbound : Bounded length reads f) (greed : Greed) :
    Relates length (plus length greed f) (Relation.TransGen R) := by
  have hmono : ∀ i j, i ≤ length → R i j → i ≤ j ∧ j ≤ length := by
    intro i j hi hij
    obtain ⟨s, hs⟩ := (hf i #[] j hi).mpr hij
    have h := hbound i #[] hi (j, s) hs
    exact ⟨h.1, h.2.1⟩
  intro pos slots j hpos
  -- Induction on what is left of the subject, which each round but the last makes shorter.
  induction hn : length - pos using Nat.strongRecOn generalizing pos slots with
  | ind n ih =>
    constructor
    · rintro ⟨s, hs⟩
      obtain ⟨m, hm, hrest⟩ := mem_plus.mp hs
      have hstep : R pos m.1 := (hf pos slots m.1 hpos).mp ⟨m.2, hm⟩
      rcases hrest with ⟨hlt, hle, hmore⟩ | rfl
      · exact .head hstep ((ih (length - m.1) (by omega) m.1 m.2 hle rfl).mp ⟨s, hmore⟩)
      · exact .single hstep
    · intro h
      rcases transGen_cases hmono hpos h with hstep | ⟨k, hlt, hk, hstep, hrest⟩
      · obtain ⟨s, hs⟩ := (hf pos slots j hpos).mpr hstep
        exact ⟨s, mem_plus.mpr ⟨(j, s), hs, Or.inr rfl⟩⟩
      · obtain ⟨s, hs⟩ := (hf pos slots k hpos).mpr hstep
        obtain ⟨s', hs'⟩ := (ih (length - k) (by omega) k s hk rfl).mpr hrest
        exact ⟨s', mem_plus.mpr ⟨(k, s), hs, Or.inl ⟨hlt, hk, hs'⟩⟩⟩

theorem star (hf : Relates length f R) (hbound : Bounded length reads f) (greed : Greed) :
    Relates length (star length greed f) (Relation.ReflTransGen R) := by
  refine ((hf.plus hbound greed).optional greed).congr (fun i j _ => ?_)
  rw [Relation.reflTransGen_iff_eq_or_transGen, or_comm, eq_comm]

theorem times (hf : Relates length f R) (hbound : Bounded length reads f) (n : Nat) :
    Relates length (times f n) (Fold R n) := by
  induction n with
  | zero => exact empty
  | succ n ih => exact hf.andThen hbound ih

theorem upTo (hf : Relates length f R) (hbound : Bounded length reads f) (greed : Greed) (n : Nat) :
    Relates length (upTo greed f n) (fun i j => ∃ k, k ≤ n ∧ Fold R k i j) := by
  induction n with
  | zero =>
    refine empty.congr (fun i j _ => ⟨fun h => ⟨0, Nat.le_refl 0, h⟩, ?_⟩)
    rintro ⟨k, hk, h⟩
    obtain rfl := Nat.le_zero.mp hk
    exact h
  | succ n ih =>
    refine ((hf.andThen hbound ih).optional greed).congr (fun i j _ => ?_)
    constructor
    · rintro (⟨l, hl, k, hk, h⟩ | rfl)
      · exact ⟨k + 1, Nat.succ_le_succ hk, l, hl, h⟩
      · exact ⟨0, Nat.zero_le _, rfl⟩
    · rintro ⟨k, hk, h⟩
      cases k with
      | zero => exact Or.inr h
      | succ k =>
        obtain ⟨l, hl, h⟩ := h
        exact Or.inl ⟨l, hl, k, Nat.le_of_succ_le_succ hk, h⟩

theorem repeated (hf : Relates length f R) (hbound : Bounded length reads f) {min : Nat}
    {max : Option Nat} (hbounds : ∀ m, max = some m → min ≤ m) (greed : Greed) :
    Relates length (repeated length f min max greed)
      (fun i j => ∃ n, min ≤ n ∧ (∀ m, max = some m → n ≤ m) ∧ Fold R n i j) := by
  cases max with
  | none =>
    cases min with
    | zero =>
      refine (hf.star hbound greed).congr (fun i j _ => reflTransGen_iff_fold.trans ?_)
      constructor
      · rintro ⟨n, hn⟩
        exact ⟨n, Nat.zero_le n, nofun, hn⟩
      · rintro ⟨n, _, _, hn⟩
        exact ⟨n, hn⟩
    | succ min =>
      refine ((hf.times hbound min).andThen (hbound.times min) (hf.plus hbound greed)).congr
        (fun i j _ => ?_)
      constructor
      · rintro ⟨k, hk, hplus⟩
        obtain ⟨n, hn⟩ := transGen_iff_fold.mp hplus
        exact ⟨min + (n + 1), by omega, nofun, fold_add.mpr ⟨k, hk, hn⟩⟩
      · rintro ⟨n, hle, _, hn⟩
        obtain ⟨l, rfl⟩ : ∃ l, n = min + (l + 1) := ⟨n - min - 1, by omega⟩
        obtain ⟨k, hk, hl⟩ := fold_add.mp hn
        exact ⟨k, hk, transGen_iff_fold.mpr ⟨l, hl⟩⟩
  | some max =>
    have hle := hbounds max rfl
    rw [repeated_some]
    refine ((hf.times hbound min).andThen (hbound.times min)
      (hf.upTo hbound greed (max - min))).congr (fun i j _ => ?_)
    constructor
    · rintro ⟨k, hk, n, hn, h⟩
      refine ⟨min + n, Nat.le_add_right min n, fun m hm => ?_, fold_add.mpr ⟨k, hk, h⟩⟩
      obtain rfl := Option.some.inj hm
      omega
    · rintro ⟨n, hmin, hmax, hn⟩
      have hn' := hmax max rfl
      obtain ⟨l, rfl⟩ : ∃ l, n = min + l := ⟨n - min, by omega⟩
      obtain ⟨k, hk, hl⟩ := fold_add.mp hn
      exact ⟨k, hk, l, by omega, hl⟩

end Relates

end Matching

namespace Expr

theorem relates_outcomesAll {subject : ByteArray} {es : List Expr} (hes : ∀ e ∈ es, e.Normal)
    (h : ∀ e ∈ es, Matching.Relates subject.size (e.outcomes subject) (e.Spans subject)) :
    Matching.Relates subject.size (outcomesAll subject es) (SpansAll subject es) := by
  induction es with
  | nil => exact .empty
  | cons e es ih =>
    exact (h e List.mem_cons_self).andThen ((hes e List.mem_cons_self).bounded subject)
      (ih (fun e' he' => hes e' (List.mem_cons_of_mem e he'))
        (fun e' he' => h e' (List.mem_cons_of_mem e he')))

theorem relates_outcomesAny {subject : ByteArray} {es : List Expr}
    (h : ∀ e ∈ es, Matching.Relates subject.size (e.outcomes subject) (e.Spans subject)) :
    Matching.Relates subject.size (outcomesAny subject es) (SpansAny subject es) := by
  induction es with
  | nil => exact .never
  | cons e es ih =>
    exact (h e List.mem_cons_self).orElse (ih (fun e' he' => h e' (List.mem_cons_of_mem e he')))

theorem relates_group {subject : ByteArray} {e : Expr} (he : e.Normal)
    (h : Matching.Relates subject.size (e.outcomes subject) (e.Spans subject))
    (index : Option Nat) :
    Matching.Relates subject.size ((Expr.group e index).outcomes subject) (e.Spans subject) := by
  cases index with
  | none => exact h
  | some index =>
    have hbody := h.andThen (he.bounded subject) (.record (2 * index + 1))
    refine ((Matching.Relates.record (2 * index)).andThen (.record (2 * index)) hbody).congr
      (fun i j _ => ?_)
    constructor
    · rintro ⟨_, rfl, _, h, rfl⟩
      exact h
    · exact fun h => ⟨i, rfl, j, h, rfl⟩

/-- The matches of an expression in normal form end at the offsets that the expression relates. -/
theorem Normal.relates {e : Expr} (h : e.Normal) (subject : ByteArray) :
    Matching.Relates subject.size (e.outcomes subject) (e.Spans subject) := by
  induction h with
  | byte b => exact .read subject (· == b)
  | any => exact .read subject (fun _ => true)
  | oneOf s => exact .read subject s.contains
  | textStart => exact .require 0
  | textEnd => exact .require subject.size
  | concat _ hes _ ih => exact relates_outcomesAll hes ih
  | alternate _ _ _ ih => exact relates_outcomesAny ih
  | star greed he _ ih => exact ih.star (he.bounded subject) greed
  | plus greed he _ ih => exact ih.plus (he.bounded subject) greed
  | optional greed _ _ ih => exact ih.optional greed
  | repeated greed he _ hbounds ih => exact ih.repeated (he.bounded subject) hbounds greed
  | group index he ih => exact relates_group he ih index

end Expr

namespace Pattern

variable {pattern : Pattern} {subject : ByteArray} {start : Nat}

/-- There is a reference match at an offset exactly if the expression relates it to another. -/
theorem matchAt_eq_none (hnormal : pattern.root.Normal) (hstart : start ≤ subject.size) :
    pattern.matchAt subject start = none ↔ ∀ j, ¬pattern.root.Spans subject start j := by
  have hrelates := Expr.relates_group hnormal (hnormal.relates subject) (some 0)
  rw [matchAt, Option.map_eq_none_iff, List.head?_eq_none_iff]
  constructor
  · intro hnil j hj
    obtain ⟨s, hs⟩ := (hrelates start pattern.blankSlots j hstart).mpr hj
    rw [hnil] at hs
    exact absurd hs List.not_mem_nil
  · intro h
    rw [List.eq_nil_iff_forall_not_mem]
    exact fun o ho => h o.1 ((hrelates start pattern.blankSlots o.1 hstart).mp ⟨o.2, ho⟩)

/-- A reference match spans offsets that the expression relates. -/
theorem spans_of_matchAt (hnormal : pattern.root.Normal) (hstart : start ≤ subject.size)
    {found : Match} (h : pattern.matchAt subject start = some found) :
    found.span.start = start ∧ pattern.root.Spans subject found.span.start found.span.stop := by
  have hrelates := Expr.relates_group hnormal (hnormal.relates subject) (some 0)
  rw [matchAt, Option.map_eq_some_iff] at h
  obtain ⟨o, ho, rfl⟩ := h
  exact ⟨rfl, (hrelates start pattern.blankSlots o.1 hstart).mp ⟨o.2, List.mem_of_mem_head? ho⟩⟩

end Pattern

end ByteRegex
