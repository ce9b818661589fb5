import ByteRegex.Pattern.Basic
import ByteRegex.Proofs.Core.Basic
import ByteRegex.Proofs.Exec.Spot
import ByteRegex.Search.Match

/-!
# A reference for matching

What an expression matches is defined here by recursion over the expression, without programs: the
ends that a match from an offset can have, each with the captures it leaves, in the order of
preference. The first match of a subject is then the first one at the least offset that has any:
`Pattern.leftmost`.
-/

namespace ByteRegex

/-- The ends that a match from an offset can have, each with the captures it leaves, the preferred
ones first. -/
abbrev Matching := (pos : Nat) → Slots → List (Nat × Slots)

/-- What one more round leads to and what going on without it leads to, in the order of
preference. -/
def Greed.order {α : Type} (greed : Greed) (more less : List α) : List α :=
  match greed with
  | .greedy => more ++ less
  | .lazy => less ++ more

namespace Matching

def empty : Matching := fun pos slots => [(pos, slots)]

def never : Matching := fun _ _ => []

def read (subject : ByteArray) (accepts : UInt8 → Bool) : Matching := fun pos slots =>
  if h : pos < subject.size then if accepts subject[pos] then [(pos + 1, slots)] else [] else []

def require (condition : Nat → Bool) : Matching := fun pos slots =>
  if condition pos then [(pos, slots)] else []

def record (slot : Nat) : Matching := fun pos slots => [(pos, slots.setIfInBounds slot (some pos))]

def andThen (f g : Matching) : Matching := fun pos slots =>
  (f pos slots).flatMap fun o => g o.1 o.2

def orElse (f g : Matching) : Matching := fun pos slots => f pos slots ++ g pos slots

def optional (greed : Greed) (f : Matching) : Matching := fun pos slots =>
  greed.order (f pos slots) [(pos, slots)]

/-- At least once, in a subject of the given length. A round that reads nothing is the last one, and
its captures stay; after any other there is the choice between going on and stopping. -/
def plus (length : Nat) (greed : Greed) (f : Matching) (pos : Nat) (slots : Slots) :
    List (Nat × Slots) :=
  (f pos slots).flatMap fun o =>
    if pos < o.1 ∧ o.1 ≤ length then greed.order (plus length greed f o.1 o.2) [o] else [o]
termination_by length - pos

def star (length : Nat) (greed : Greed) (f : Matching) : Matching :=
  optional greed (plus length greed f)

def times (f : Matching) : (n : Nat) → Matching
  | 0 => empty
  | n + 1 => f.andThen (times f n)

/-- Up to `n` times, each time after a choice inside the one before. -/
def upTo (greed : Greed) (f : Matching) : (n : Nat) → Matching
  | 0 => empty
  | n + 1 => optional greed (f.andThen (upTo greed f n))

def repeated (length : Nat) (f : Matching) (min : Nat) (max : Option Nat) (greed : Greed) :
    Matching :=
  match min, max with
  | 0, none => star length greed f
  | min + 1, none => (times f min).andThen (plus length greed f)
  | min, some max => (times f min).andThen (upTo greed f (max - min))

end Matching

namespace Expr

mutual

/-- What the expression matches in a subject. -/
def outcomes (subject : ByteArray) : Expr → Matching
  | byte b => .read subject (· == b)
  | any => .read subject (fun _ => true)
  | oneOf s => .read subject s.contains
  | textStart => .require (· == 0)
  | textEnd => .require (· == subject.size)
  | concat es => outcomesAll subject es
  | alternate es => outcomesAny subject es
  | star e greed => .star subject.size greed (e.outcomes subject)
  | plus e greed => .plus subject.size greed (e.outcomes subject)
  | optional e greed => .optional greed (e.outcomes subject)
  | repeated e min max greed => .repeated subject.size (e.outcomes subject) min max greed
  | group e (some index) =>
    .andThen (.record (2 * index)) (.andThen (e.outcomes subject) (.record (2 * index + 1)))
  | group e none => e.outcomes subject

def outcomesAll (subject : ByteArray) : List Expr → Matching
  | [] => .empty
  | e :: es => .andThen (e.outcomes subject) (outcomesAll subject es)

def outcomesAny (subject : ByteArray) : List Expr → Matching
  | [] => .never
  | e :: es => .orElse (e.outcomes subject) (outcomesAny subject es)

end

end Expr

namespace Pattern

def blankSlots (pattern : Pattern) : Slots :=
  Array.replicate (2 * (pattern.captures + 1)) none

/-- The preferred match that starts at `start`. The whole match is recorded like a group of number
0. -/
def matchAt (pattern : Pattern) (subject : ByteArray) (start : Nat) : Option Match :=
  (((Expr.group pattern.root (some 0)).outcomes subject start pattern.blankSlots).head?).map
    fun o =>
      { span := ⟨start, o.1⟩
        groups := (List.range' 1 pattern.captures).map (Match.spanOfSlots? o.2) }

/-- The match at the least offset from `start` on that has one. -/
def leftmost (pattern : Pattern) (subject : ByteArray) (start : Nat) : Option Match :=
  (List.range' start (subject.size + 1 - start)).findSome? (pattern.matchAt subject)

end Pattern

/-! ## Core expressions -/

def Atom.outcomes (subject : ByteArray) : Atom → Matching
  | byte b => .read subject (· == b)
  | any => .read subject (fun _ => true)
  | oneOf s => .read subject s.contains
  | textStart => .require (· == 0)
  | textEnd => .require (· == subject.size)
  | save slot => .record slot

def Core.outcomes (subject : ByteArray) : Core → Matching
  | nothing => .empty
  | atom a => a.outcomes subject
  | seq a b => .andThen (a.outcomes subject) (b.outcomes subject)
  | either a b => .orElse (a.outcomes subject) (b.outcomes subject)
  | optional a greed => .optional greed (a.outcomes subject)
  | star _ a greed => .star subject.size greed (a.outcomes subject)
  | plus _ a greed => .plus subject.size greed (a.outcomes subject)

/-! ## Which ends there are -/

theorem Greed.mem_order {α : Type} {greed : Greed} {x : α} {more less : List α} :
    x ∈ greed.order more less ↔ x ∈ more ∨ x ∈ less := by
  cases greed
  · exact List.mem_append
  · exact List.mem_append.trans or_comm

namespace Matching

variable {f g : Matching} {pos length : Nat} {slots : Slots} {o : Nat × Slots} {greed : Greed}

theorem mem_read {subject : ByteArray} {accepts : UInt8 → Bool} :
    o ∈ read subject accepts pos slots ↔
      ∃ h : pos < subject.size, accepts subject[pos] = true ∧ o = (pos + 1, slots) := by
  unfold read
  by_cases h : pos < subject.size
  · by_cases ha : accepts subject[pos] = true <;> simp [h, ha]
  · simp [h]

theorem mem_require {condition : Nat → Bool} :
    o ∈ require condition pos slots ↔ condition pos = true ∧ o = (pos, slots) := by
  unfold require
  by_cases h : condition pos = true <;> simp [h]

theorem mem_andThen : o ∈ f.andThen g pos slots ↔ ∃ m ∈ f pos slots, o ∈ g m.1 m.2 :=
  List.mem_flatMap

theorem mem_optional : o ∈ optional greed f pos slots ↔ o ∈ f pos slots ∨ o = (pos, slots) :=
  Greed.mem_order.trans (or_congr_right List.mem_singleton)

theorem mem_plus : o ∈ plus length greed f pos slots ↔ ∃ m ∈ f pos slots,
    (pos < m.1 ∧ m.1 ≤ length ∧ o ∈ plus length greed f m.1 m.2) ∨ o = m := by
  rw [plus, List.mem_flatMap]
  refine exists_congr (fun m => and_congr_right (fun _ => ?_))
  by_cases h : pos < m.1 ∧ m.1 ≤ length
  · rw [if_pos h, Greed.mem_order, List.mem_singleton]
    simp only [h.1, h.2, true_and]
  · rw [if_neg h, List.mem_singleton]
    constructor
    · exact Or.inr
    · rintro (⟨h1, h2, _⟩ | rfl)
      · exact absurd ⟨h1, h2⟩ h
      · rfl

/-- Every match from an offset of the subject ends at an offset of the subject that is not before
it, and behind it if `reads` says so. -/
def Bounded (length : Nat) (reads : Bool) (f : Matching) : Prop :=
  ∀ pos slots, pos ≤ length → ∀ o ∈ f pos slots,
    pos ≤ o.1 ∧ o.1 ≤ length ∧ (reads = true → pos < o.1)

namespace Bounded

variable {reads reads' : Bool}

theorem weaken (hf : Bounded length reads f) : Bounded length false f := by
  intro pos slots hpos o ho
  have h := hf pos slots hpos o ho
  exact ⟨h.1, h.2.1, fun hfalse => absurd hfalse Bool.false_ne_true⟩

theorem of_stay (hf : ∀ pos slots, ∀ o ∈ f pos slots, o.1 = pos) : Bounded length false f := by
  intro pos slots hpos o ho
  rw [hf pos slots o ho]
  exact ⟨Nat.le_refl _, hpos, fun hfalse => absurd hfalse Bool.false_ne_true⟩

theorem empty : Bounded length false .empty :=
  of_stay (fun _ _ _ ho => congrArg Prod.fst (List.mem_singleton.mp ho))

theorem record (slot : Nat) : Bounded length false (.record slot) :=
  of_stay (fun _ _ _ ho => congrArg Prod.fst (List.mem_singleton.mp ho))

theorem require (condition : Nat → Bool) : Bounded length false (.require condition) :=
  of_stay (fun _ _ _ ho => congrArg Prod.fst (mem_require.mp ho).2)

theorem read (subject : ByteArray) (accepts : UInt8 → Bool) :
    Bounded subject.size true (.read subject accepts) := by
  intro pos slots _ o ho
  obtain ⟨h, _, rfl⟩ := mem_read.mp ho
  exact ⟨Nat.le_succ _, h, fun _ => Nat.lt_succ_self _⟩

theorem andThen (hf : Bounded length reads f) (hg : Bounded length reads' g) :
    Bounded length (reads || reads') (f.andThen g) := by
  intro pos slots hpos o ho
  obtain ⟨m, hm, ho⟩ := mem_andThen.mp ho
  have hfirst := hf pos slots hpos m hm
  have hsecond := hg m.1 m.2 hfirst.2.1 o ho
  refine ⟨Nat.le_trans hfirst.1 hsecond.1, hsecond.2.1, fun hreads => ?_⟩
  rcases Bool.or_eq_true_iff.mp hreads with hreads | hreads
  · exact Nat.lt_of_lt_of_le (hfirst.2.2 hreads) hsecond.1
  · exact Nat.lt_of_le_of_lt hfirst.1 (hsecond.2.2 hreads)

theorem orElse (hf : Bounded length reads f) (hg : Bounded length reads' g) :
    Bounded length (reads && reads') (f.orElse g) := by
  intro pos slots hpos o ho
  rcases List.mem_append.mp ho with ho | ho
  · have h := hf pos slots hpos o ho
    exact ⟨h.1, h.2.1, fun hreads => h.2.2 (Bool.and_eq_true_iff.mp hreads).1⟩
  · have h := hg pos slots hpos o ho
    exact ⟨h.1, h.2.1, fun hreads => h.2.2 (Bool.and_eq_true_iff.mp hreads).2⟩

theorem optional (hf : Bounded length reads f) (greed : Greed) :
    Bounded length false (optional greed f) := by
  intro pos slots hpos o ho
  rcases mem_optional.mp ho with ho | rfl
  · exact hf.weaken pos slots hpos o ho
  · exact ⟨Nat.le_refl _, hpos, fun hfalse => absurd hfalse Bool.false_ne_true⟩

theorem plus (hf : Bounded length reads f) (greed : Greed) :
    Bounded length reads (plus length greed f) := by
  intro pos slots hpos o ho
  -- Induction on what is left of the subject, which each round but the last makes shorter.
  induction hn : length - pos using Nat.strongRecOn generalizing pos slots o with
  | ind n ih =>
    obtain ⟨m, hm, hrest⟩ := mem_plus.mp ho
    have hbound := hf pos slots hpos m hm
    rcases hrest with ⟨hlt, hle, hmore⟩ | rfl
    · have h := ih (length - m.1) (by omega) m.1 m.2 hle o hmore rfl
      exact ⟨by omega, h.2.1, fun _ => by omega⟩
    · exact hbound

theorem times (hf : Bounded length reads f) (n : Nat) : Bounded length false (times f n) := by
  induction n with
  | zero => exact empty
  | succ n ih => exact (hf.andThen ih).weaken

/-- Inside a subject only a round that reads nothing is the last one in any case. -/
theorem plus_eq (hf : Bounded length reads f) (greed : Greed) (hpos : pos ≤ length)
    (slots : Slots) :
    Matching.plus length greed f pos slots = (f pos slots).flatMap fun o =>
      if o.1 = pos then [o] else greed.order (Matching.plus length greed f o.1 o.2) [o] := by
  rw [Matching.plus, List.flatMap_def, List.flatMap_def]
  refine congrArg _ (List.map_congr_left (fun o ho => ?_))
  have h := hf pos slots hpos o ho
  by_cases heq : o.1 = pos
  · rw [if_pos heq, if_neg (by omega)]
  · rw [if_neg heq, if_pos (by omega)]

/-- A star is one round, with the star again behind it if it reads something, or nothing at all. -/
theorem star_eq (hf : Bounded length reads f) (greed : Greed) (hpos : pos ≤ length)
    (slots : Slots) :
    star length greed f pos slots = greed.order ((f pos slots).flatMap fun o =>
      if o.1 = pos then [o] else star length greed f o.1 o.2) [(pos, slots)] :=
  congrArg (greed.order · [(pos, slots)]) (hf.plus_eq greed hpos slots)

end Bounded

end Matching

namespace Core

open Matching

theorem bounded_atom (subject : ByteArray) (a : Atom) :
    Bounded subject.size (!(atom a).nullable) (a.outcomes subject) := by
  cases a with
  | byte b => exact .read subject (· == b)
  | any => exact .read subject (fun _ => true)
  | oneOf s => exact .read subject s.contains
  | textStart => exact .require (· == 0)
  | textEnd => exact .require (· == subject.size)
  | save slot => exact .record slot

/-- What a core expression matches stays within the subject, and is not empty unless the expression
is nullable. -/
theorem bounded_outcomes (subject : ByteArray) (c : Core) :
    Bounded subject.size (!c.nullable) (c.outcomes subject) := by
  induction c with
  | nothing => exact .empty
  | atom a => exact bounded_atom subject a
  | seq a b iha ihb =>
    rw [nullable, Bool.not_and]
    exact iha.andThen ihb
  | either a b iha ihb =>
    rw [nullable, Bool.not_or]
    exact iha.orElse ihb
  | optional a greed ih => exact ih.optional greed
  | star watched a greed ih => exact (ih.plus greed).optional greed
  | plus watched a greed ih => exact ih.plus greed

end Core

end ByteRegex
