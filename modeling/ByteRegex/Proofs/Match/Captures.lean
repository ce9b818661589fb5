import ByteRegex.Proofs.Match.Outcomes
import ByteRegex.Proofs.Pattern.Groups

/-!
# Which captures matching changes

What matching does to offsets and slots is made up of reading bytes and of passing through groups. A
relation that allows these, one after the other, holds between what is there before and after any
match. So a match changes the slots of the groups that it passes through and no others: the slots of
the whole match, which is the group 0, keep what was put there.
-/

namespace ByteRegex

namespace Matching

/-- The relation `R` allows reading any number of bytes, one after the other. -/
structure Steps (R : Nat × Slots → Nat × Slots → Prop) : Prop where
  refl : ∀ a, R a a
  trans : ∀ {a b c}, R a b → R b c → R a c
  read : ∀ pos slots, R (pos, slots) (pos + 1, slots)

def Respects (R : Nat × Slots → Nat × Slots → Prop) (f : Matching) : Prop :=
  ∀ pos slots, ∀ o ∈ f pos slots, R (pos, slots) o

def captured (index : Nat) (f : Matching) : Matching :=
  .andThen (.record (2 * index)) (.andThen f (.record (2 * index + 1)))

namespace Respects

variable {R : Nat × Slots → Nat × Slots → Prop} {length : Nat} {f g : Matching} (hR : Steps R)

include hR

theorem empty : Respects R .empty := by
  intro pos slots o ho
  rw [List.mem_singleton.mp ho]
  exact hR.refl (pos, slots)

theorem read (subject : ByteArray) (accepts : UInt8 → Bool) :
    Respects R (.read subject accepts) := by
  intro pos slots o ho
  obtain ⟨_, _, rfl⟩ := mem_read.mp ho
  exact hR.read pos slots

theorem require (condition : Nat → Bool) : Respects R (.require condition) := by
  intro pos slots o ho
  obtain ⟨_, rfl⟩ := mem_require.mp ho
  exact hR.refl (pos, slots)

theorem andThen (hf : Respects R f) (hg : Respects R g) : Respects R (f.andThen g) := by
  intro pos slots o ho
  obtain ⟨m, hm, ho⟩ := mem_andThen.mp ho
  exact hR.trans (hf pos slots m hm) (hg m.1 m.2 o ho)

theorem optional (hf : Respects R f) (greed : Greed) : Respects R (optional greed f) := by
  intro pos slots o ho
  rcases mem_optional.mp ho with ho | rfl
  · exact hf pos slots o ho
  · exact hR.refl (pos, slots)

theorem plus (hf : Respects R f) (greed : Greed) : Respects R (plus length greed f) := by
  intro pos slots o ho
  -- Induction on what is left of the subject, which each round but the last makes shorter.
  induction hn : length - pos using Nat.strongRecOn generalizing pos slots o with
  | ind n ih =>
    obtain ⟨m, hm, hrest⟩ := mem_plus.mp ho
    have hround := hf pos slots m hm
    rcases hrest with ⟨hlt, hle, hmore⟩ | rfl
    · exact hR.trans hround (ih (length - m.1) (by omega) m.1 m.2 o hmore rfl)
    · exact hround

theorem times (hf : Respects R f) (n : Nat) : Respects R (times f n) := by
  induction n with
  | zero => exact empty hR
  | succ n ih => exact andThen hR hf ih

theorem upTo (hf : Respects R f) (greed : Greed) (n : Nat) : Respects R (upTo greed f n) := by
  induction n with
  | zero => exact empty hR
  | succ n ih => exact optional hR (andThen hR hf ih) greed

theorem repeated (hf : Respects R f) (min : Nat) (max : Option Nat) (greed : Greed) :
    Respects R (repeated length f min max greed) := by
  match min, max with
  | 0, none => exact optional hR (plus hR hf greed) greed
  | min + 1, none => exact andThen hR (times hR hf min) (plus hR hf greed)
  | 0, some max => exact andThen hR (times hR hf 0) (upTo hR hf greed max)
  | min + 1, some max =>
    exact andThen hR (times hR hf (min + 1)) (upTo hR hf greed (max - (min + 1)))

end Respects

theorem Respects.orElse {R : Nat × Slots → Nat × Slots → Prop} {f g : Matching} (hf : Respects R f)
    (hg : Respects R g) : Respects R (f.orElse g) := by
  intro pos slots o ho
  rcases List.mem_append.mp ho with ho | ho
  · exact hf pos slots o ho
  · exact hg pos slots o ho

/-- Every outcome has as many slots as there were before, and the slot `i` has not changed. -/
def Keeps (i : Nat) (f : Matching) : Prop :=
  ∀ pos slots, ∀ o ∈ f pos slots, o.2.size = slots.size ∧ o.2[i]? = slots[i]?

theorem Keeps.record {i slot : Nat} (h : i ≠ slot) : Keeps i (.record slot) := by
  intro pos slots o ho
  rw [List.mem_singleton.mp ho]
  exact ⟨Array.size_setIfInBounds, Array.getElem?_setIfInBounds_ne h.symm⟩

theorem steps_keeps (i : Nat) :
    Steps (fun a b => b.2.size = a.2.size ∧ b.2[i]? = a.2[i]?) where
  refl _ := ⟨rfl, rfl⟩
  trans hab hbc := ⟨hbc.1.trans hab.1, hbc.2.trans hab.2⟩
  read _ _ := ⟨rfl, rfl⟩

end Matching

namespace Expr

open Matching (Respects Steps captured Keeps)

variable {R : Nat × Slots → Nat × Slots → Prop} {e : Expr} {es : List Expr} {i : Nat}

theorem respects_outcomesAll {subject : ByteArray} (hR : Steps R)
    (h : ∀ e ∈ es, Respects R (e.outcomes subject)) : Respects R (outcomesAll subject es) := by
  induction es with
  | nil => exact .empty hR
  | cons e es ih =>
    exact .andThen hR (h e List.mem_cons_self)
      (ih (fun e' he' => h e' (List.mem_cons_of_mem e he')))

theorem respects_outcomesAny {subject : ByteArray} (h : ∀ e ∈ es, Respects R (e.outcomes subject)) :
    Respects R (outcomesAny subject es) := by
  induction es with
  | nil => exact fun _ _ _ ho => absurd ho List.not_mem_nil
  | cons e es ih =>
    exact (h e List.mem_cons_self).orElse (ih (fun e' he' => h e' (List.mem_cons_of_mem e he')))

/-- What allows reading bytes and passing through the groups of an expression allows matching it. -/
theorem respects_outcomes (subject : ByteArray) (hR : Steps R)
    (hgroups : ∀ d index, group d (some index) ∈ e.parts → Respects R (d.outcomes subject) →
      Respects R (captured index (d.outcomes subject))) :
    Respects R (e.outcomes subject) := by
  have hparts : ∀ {c e : Expr},
      (∀ d index, group d (some index) ∈ e.parts → Respects R (d.outcomes subject) →
        Respects R (captured index (d.outcomes subject))) → c ∈ e.children →
      ∀ d index, group d (some index) ∈ c.parts → Respects R (d.outcomes subject) →
        Respects R (captured index (d.outcomes subject)) :=
    fun h hc d index hd => h d index (mem_parts_of_mem_children hc hd)
  induction e using Expr.induct with
  | byte b => exact .read hR subject (· == b)
  | any => exact .read hR subject (fun _ => true)
  | oneOf s => exact .read hR subject s.contains
  | textStart => exact .require hR (· == 0)
  | textEnd => exact .require hR (· == subject.size)
  | concat es ih => exact respects_outcomesAll hR (fun e he => ih e he (hparts hgroups he))
  | alternate es ih => exact respects_outcomesAny (fun e he => ih e he (hparts hgroups he))
  | star e greed ih =>
    exact .optional hR (.plus hR (ih (hparts hgroups List.mem_cons_self)) greed) greed
  | plus e greed ih => exact .plus hR (ih (hparts hgroups List.mem_cons_self)) greed
  | optional e greed ih => exact .optional hR (ih (hparts hgroups List.mem_cons_self)) greed
  | repeated e min max greed ih =>
    exact .repeated hR (ih (hparts hgroups List.mem_cons_self)) min max greed
  | group e index ih =>
    have hbody := ih (hparts hgroups List.mem_cons_self)
    cases index with
    | none => exact hbody
    | some index => exact hgroups e index (self_mem_parts _) hbody

/-- The slot `i` belongs to no group with one of the indices. -/
def Spares (i : Nat) (indices : List Nat) : Prop :=
  ∀ index ∈ indices, i ≠ 2 * index ∧ i ≠ 2 * index + 1

/-- Matching leaves the slots alone that belong to no group of the expression. -/
theorem keeps_outcomes (subject : ByteArray) (h : Spares i e.indices) :
    Keeps i (e.outcomes subject) := by
  have hR := Matching.steps_keeps i
  refine respects_outcomes subject hR (fun d index hd hf => ?_)
  obtain ⟨hfirst, hlast⟩ := h index (mem_indices.mpr ⟨d, hd⟩)
  exact .andThen hR (Keeps.record hfirst) (.andThen hR hf (Keeps.record hlast))

end Expr

end ByteRegex
