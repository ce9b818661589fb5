import ByteRegex.Proofs.Core.Parts
import ByteRegex.Proofs.Match.Outcomes
import ByteRegex.Proofs.Pattern.Normal

/-!
# Spelling out changes nothing

The core form of an expression in normal form has the same outcomes as the expression, in the same
order, and is nullable exactly if the expression is. So every loop whose rounds may read nothing is
watched.
-/

namespace ByteRegex

namespace Matching

variable (f g h : Matching)

theorem empty_andThen : empty.andThen f = f := by
  funext pos slots
  exact List.flatMap_singleton (fun o : Nat × Slots => f o.1 o.2) (pos, slots)

theorem andThen_empty : f.andThen empty = f := by
  funext pos slots
  exact List.flatMap_singleton' (f pos slots)

theorem andThen_assoc : (f.andThen g).andThen h = f.andThen (g.andThen h) := by
  funext pos slots
  exact List.flatMap_assoc

theorem orElse_never : f.orElse never = f := by
  funext pos slots
  exact List.append_nil _

theorem upTo_one (greed : Greed) : upTo greed f 1 = optional greed f := by
  rw [upTo, upTo, andThen_empty]

theorem repeated_some (length min max : Nat) (greed : Greed) :
    repeated length f min (some max) greed = (times f min).andThen (upTo greed f (max - min)) := by
  cases min <;> rfl

end Matching

namespace Core

variable {subject : ByteArray} {c : Core} {cs : List Core} {greed : Greed} {watched : Bool}

/-! ## Sequences -/

theorem outcomes_sequence_cons (c : Core) (cs : List Core) :
    (sequence (c :: cs)).outcomes subject =
      (c.outcomes subject).andThen ((sequence cs).outcomes subject) := by
  cases cs with
  | nil => exact (Matching.andThen_empty _).symm
  | cons d ds => rfl

theorem nullable_sequence_cons (c : Core) (cs : List Core) :
    (sequence (c :: cs)).nullable = (c.nullable && (sequence cs).nullable) := by
  cases cs with
  | nil => exact (Bool.and_true _).symm
  | cons d ds => rfl

theorem watchful_sequence (h : ∀ c ∈ cs, c.Watchful) : (sequence cs).Watchful := by
  induction cs with
  | nil => trivial
  | cons c cs ih =>
    have hc := h c List.mem_cons_self
    have hcs := ih (fun d hd => h d (List.mem_cons_of_mem c hd))
    cases cs with
    | nil => exact hc
    | cons d ds => exact ⟨hc, hcs⟩

theorem outcomes_sequence_replicate (n : Nat) (ds : List Core) :
    (sequence (List.replicate n c ++ ds)).outcomes subject =
      (Matching.times (c.outcomes subject) n).andThen ((sequence ds).outcomes subject) := by
  induction n with
  | zero => exact (Matching.empty_andThen _).symm
  | succ n ih =>
    rw [List.replicate_succ, List.cons_append, outcomes_sequence_cons, ih, Matching.times,
      Matching.andThen_assoc]

theorem nullable_sequence_replicate {n : Nat} {ds : List Core}
    (h : c.nullable = true → (sequence ds).nullable = true) :
    (sequence (List.replicate (n + 1) c ++ ds)).nullable = c.nullable := by
  rw [List.replicate_succ, List.cons_append, nullable_sequence_cons]
  cases hc : c.nullable with
  | false => rfl
  | true =>
    induction n with
    | zero => exact h hc
    | succ n ih => rw [List.replicate_succ, List.cons_append, nullable_sequence_cons, hc, ih]; rfl

/-! ## Repetitions -/

theorem outcomes_options (n : Nat) :
    (options c greed n).outcomes subject = Matching.upTo greed (c.outcomes subject) n := by
  match n with
  | 0 => rfl
  | 1 => exact (Matching.upTo_one _ _).symm
  | n + 2 =>
    show Matching.optional greed (.andThen _ ((options c greed (n + 1)).outcomes subject)) = _
    rw [outcomes_options (n + 1)]
    rfl

theorem watchful_options (hc : c.Watchful) (n : Nat) : (options c greed n).Watchful := by
  match n with
  | 0 => trivial
  | 1 => exact hc
  | n + 2 => exact ⟨hc, watchful_options hc (n + 1)⟩

theorem nullable_options (n : Nat) : (options c greed n).nullable = true := by
  match n with
  | 0 => rfl
  | 1 => rfl
  | n + 2 => rfl

theorem outcomes_repeated (min : Nat) (max : Option Nat) :
    (repeated watched c min max greed).outcomes subject =
      Matching.repeated subject.size (c.outcomes subject) min max greed := by
  have hmax : ∀ min max, (sequence (List.replicate min c ++
      if min < max then [options c greed (max - min)] else [])).outcomes subject =
        Matching.repeated subject.size (c.outcomes subject) min (some max) greed := by
    intro min max
    rw [outcomes_sequence_replicate, Matching.repeated_some, sequence_options, outcomes_options]
  match min, max with
  | 0, none => rfl
  | 0, some 0 => exact (Matching.empty_andThen _).symm
  | 1, none => exact (Matching.empty_andThen _).symm
  | min + 2, none => exact outcomes_sequence_replicate (min + 1) _
  | 0, some (max + 1) => exact hmax 0 (max + 1)
  | min + 1, some max =>
    rw [repeated_succ_some]
    exact hmax (min + 1) max

theorem nullable_repeated (min : Nat) (max : Option Nat) :
    (repeated watched c min max greed).nullable = (min == 0 || c.nullable) := by
  match min, max with
  | 0, none => rfl
  | 0, some 0 => rfl
  | 1, none => rfl
  | min + 2, none => exact nullable_sequence_replicate id
  | 0, some (max + 1) => exact nullable_options (max + 1)
  | min + 1, some max =>
    rw [repeated_succ_some]
    refine nullable_sequence_replicate (n := min) (fun _ => ?_)
    rw [sequence_options]
    exact nullable_options _

theorem watchful_repeated (hc : c.Watchful) (hwatched : watched = false → c.nullable = false)
    (min : Nat) (max : Option Nat) : (repeated watched c min max greed).Watchful :=
  repeated_induct hc ⟨hc, hwatched⟩ ⟨hc, hwatched⟩ (watchful_options hc)
    (fun _ => watchful_sequence) min max

/-! ## Branches -/

theorem watchful_branches (h : ∀ c ∈ cs, c.Watchful) : (branches cs).Watchful := by
  induction cs with
  | nil => trivial
  | cons c cs ih =>
    have hc := h c List.mem_cons_self
    have hcs := ih (fun d hd => h d (List.mem_cons_of_mem c hd))
    cases cs with
    | nil => exact hc
    | cons d ds => exact ⟨hc, hcs⟩

end Core

namespace Expr

open ByteRegex.Core

/-- What the core form of an expression in normal form has in common with the expression. -/
structure SpelledOut (e : Expr) : Prop where
  outcomes : ∀ subject, e.core.outcomes subject = e.outcomes subject
  nullable : e.core.nullable = e.nullable
  watchful : e.core.Watchful

theorem spelledOut_concat {es : List Expr} (h : ∀ e ∈ es, e.SpelledOut) :
    (Expr.concat es).SpelledOut := by
  refine ⟨fun subject => ?_, ?_, ?_⟩
  · show (sequence (coreAll es)).outcomes subject = outcomesAll subject es
    induction es with
    | nil => rfl
    | cons e es ih =>
      rw [coreAll, outcomes_sequence_cons, (h e List.mem_cons_self).outcomes,
        ih (fun e he => h e (List.mem_cons_of_mem _ he)), outcomesAll]
  · show (sequence (coreAll es)).nullable = allNullable es
    induction es with
    | nil => rfl
    | cons e es ih =>
      rw [coreAll, nullable_sequence_cons, (h e List.mem_cons_self).nullable,
        ih (fun e he => h e (List.mem_cons_of_mem _ he)), allNullable]
  · show (sequence (coreAll es)).Watchful
    refine watchful_sequence (fun c hc => ?_)
    rw [coreAll_eq_map] at hc
    obtain ⟨e, he, rfl⟩ := List.mem_map.mp hc
    exact (h e he).watchful

theorem spelledOut_alternate {es : List Expr} (hes : es ≠ []) (h : ∀ e ∈ es, e.SpelledOut) :
    (Expr.alternate es).SpelledOut := by
  have hboth : ∀ subject, (branches (coreAll es)).outcomes subject = outcomesAny subject es ∧
      (branches (coreAll es)).nullable = anyNullable es := by
    intro subject
    induction es with
    | nil => exact absurd rfl hes
    | cons e es ih =>
      have he := h e List.mem_cons_self
      rw [outcomesAny, anyNullable, ← he.outcomes, ← he.nullable]
      cases es with
      | nil => exact ⟨(Matching.orElse_never _).symm, (Bool.or_false _).symm⟩
      | cons e' es =>
        obtain ⟨houtcomes, hnullable⟩ :=
          ih (List.cons_ne_nil _ _) (fun e he => h e (List.mem_cons_of_mem _ he))
        rw [← houtcomes, ← hnullable]
        exact ⟨rfl, rfl⟩
  refine ⟨fun subject => (hboth subject).1, (hboth ByteArray.empty).2, ?_⟩
  show (branches (coreAll es)).Watchful
  refine watchful_branches (fun c hc => ?_)
  rw [coreAll_eq_map] at hc
  obtain ⟨e, he, rfl⟩ := List.mem_map.mp hc
  exact (h e he).watchful

theorem SpelledOut.group {e : Expr} (h : e.SpelledOut) (index : Option Nat) :
    (Expr.group e index).SpelledOut := by
  cases index with
  | none => exact ⟨h.outcomes, h.nullable, h.watchful⟩
  | some index =>
    refine ⟨fun subject => ?_, ?_, trivial, h.watchful, trivial⟩
    · show Matching.andThen _ (.andThen (e.core.outcomes subject) _) = _
      rw [h.outcomes]
      rfl
    · show (true && (e.core.nullable && true)) = e.nullable
      rw [Bool.true_and, Bool.and_true, h.nullable]

theorem SpelledOut.hwatched {e : Expr} (h : e.SpelledOut) :
    e.nullable = false → e.core.nullable = false := fun hnullable => h.nullable.trans hnullable

/-- Without an empty alternation the core form of an expression does what the expression does. -/
theorem spelledOut_of_parts {e : Expr} (h : alternate [] ∉ e.parts) : e.SpelledOut := by
  have hchildren :
      ∀ {d : Expr}, alternate [] ∉ d.parts → ∀ e ∈ d.children, alternate [] ∉ e.parts :=
    fun hd e he hmem => hd (mem_parts_of_mem_children he hmem)
  induction e using Expr.induct with
  | byte b | any | oneOf s | textStart | textEnd => exact ⟨fun _ => rfl, rfl, trivial⟩
  | concat es ih => exact spelledOut_concat (fun e he => ih e he (hchildren h e he))
  | alternate es ih =>
    have hes : es ≠ [] := by
      rintro rfl
      exact h (self_mem_parts _)
    exact spelledOut_alternate hes (fun e he => ih e he (hchildren h e he))
  | star e greed ih =>
    have ih := ih (hchildren h e List.mem_cons_self)
    exact ⟨fun subject => congrArg _ (ih.outcomes subject), rfl, ih.watchful, ih.hwatched⟩
  | plus e greed ih =>
    have ih := ih (hchildren h e List.mem_cons_self)
    exact ⟨fun subject => congrArg _ (ih.outcomes subject), ih.nullable, ih.watchful, ih.hwatched⟩
  | optional e greed ih =>
    have ih := ih (hchildren h e List.mem_cons_self)
    exact ⟨fun subject => congrArg _ (ih.outcomes subject), rfl, ih.watchful⟩
  | repeated e min max greed ih =>
    have ih := ih (hchildren h e List.mem_cons_self)
    refine ⟨fun subject => ?_, ?_, watchful_repeated ih.watchful ih.hwatched _ _⟩
    · exact (outcomes_repeated _ _).trans (by rw [ih.outcomes]; rfl)
    · exact (nullable_repeated _ _).trans (by rw [ih.nullable]; rfl)
  | group e index ih => exact (ih (hchildren h e List.mem_cons_self)).group index

theorem Normal.alternate_nil_not_mem_parts {e : Expr} (h : e.Normal) :
    Expr.alternate [] ∉ e.parts := by
  have hall : ∀ {es : List Expr}, (∀ e ∈ es, Expr.alternate [] ∉ e.parts) →
      Expr.alternate [] ∉ partsAll es := by
    intro es hes hmem
    obtain ⟨e, he, hmem⟩ := mem_partsAll.mp hmem
    exact hes e he hmem
  induction h with
  | byte b | any | oneOf s | textStart | textEnd => exact fun h => nomatch List.mem_singleton.mp h
  | concat _ _ _ ih => exact fun h => (List.mem_cons.mp h).elim nofun (hall ih)
  | alternate hlength _ _ ih =>
    refine fun h => (List.mem_cons.mp h).elim (fun h => ?_) (hall ih)
    rw [← Expr.alternate.inj h] at hlength
    exact absurd hlength (by decide)
  | star greed _ _ ih | plus greed _ _ ih | optional greed _ _ ih | repeated greed _ _ _ ih
  | group index _ ih =>
    exact fun h => (List.mem_cons.mp h).elim nofun ih

/-- The core form of an expression in normal form does what the expression does. -/
theorem Normal.spelledOut {e : Expr} (h : e.Normal) : e.SpelledOut :=
  spelledOut_of_parts h.alternate_nil_not_mem_parts

/-! ## What loops come to -/

variable {e : Expr} {subject : ByteArray} {pos : Nat}

theorem Normal.bounded (h : e.Normal) (subject : ByteArray) :
    Matching.Bounded subject.size (!e.nullable) (e.outcomes subject) := by
  rw [← h.spelledOut.outcomes, ← h.spelledOut.nullable]
  exact Core.bounded_outcomes subject e.core

/-- Behind a round that reads nothing a plus comes to an end; behind any other one there is the
choice between another plus and the end. -/
theorem Normal.outcomes_plus (h : e.Normal) (greed : Greed) (hpos : pos ≤ subject.size)
    (slots : Slots) :
    (e.plus greed).outcomes subject pos slots = (e.outcomes subject pos slots).flatMap fun o =>
      if o.1 = pos then [o] else greed.order ((e.plus greed).outcomes subject o.1 o.2) [o] :=
  (h.bounded subject).plus_eq greed hpos slots

/-- A star chooses between a round and the end. Behind a round that reads nothing it comes to an
end, behind any other one it starts again. -/
theorem Normal.outcomes_star (h : e.Normal) (greed : Greed) (hpos : pos ≤ subject.size)
    (slots : Slots) :
    (e.star greed).outcomes subject pos slots = greed.order
      ((e.outcomes subject pos slots).flatMap fun o =>
        if o.1 = pos then [o] else (e.star greed).outcomes subject o.1 o.2) [(pos, slots)] :=
  (h.bounded subject).star_eq greed hpos slots

end Expr

end ByteRegex
