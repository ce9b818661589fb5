import ByteRegex.Proofs.Core.Generator

/-!
# Counted repetitions and their expansions

A counted repetition can be written out with the other constructs. Its code is generated once and
copied while that of the expansion is generated part by part, but the programs are the same,
wherever the repetition stands: `Expr.ofPattern_fill_expansion`.
-/

namespace ByteRegex

namespace Expr

/-- Up to `n` times, each time after a choice inside the one before. -/
def options (e : Expr) (greed : Greed) : (n : Nat) → Expr
  | 0 => concat []
  | 1 => optional e greed
  | n + 2 => optional (concat [e, options e greed (n + 1)]) greed

/-- A counted repetition written out. -/
def expansion (e : Expr) (min : Nat) (max : Option Nat) (greed : Greed) : Expr :=
  match min, max with
  | 0, none => star e greed
  | 0, some 0 => concat []
  | 1, none => plus e greed
  | min, none => concat (List.replicate (min - 1) e ++ [plus e greed])
  | min, some max =>
    concat (List.replicate min e ++ if min < max then [options e greed (max - min)] else [])

theorem core_options (e : Expr) (greed : Greed) :
    ∀ n, (e.options greed n).core = e.core.options greed n
  | 0 => rfl
  | 1 => rfl
  | n + 2 => by
    simp only [options, core, coreAll, Core.sequence, Core.options, core_options e greed (n + 1)]

theorem core_concat_replicate (e : Expr) (n : Nat) (es : List Expr) :
    (concat (List.replicate n e ++ es)).core =
      .sequence (List.replicate n e.core ++ coreAll es) := by
  rw [core, coreAll_eq_map, List.map_append, List.map_replicate, coreAll_eq_map]

theorem coreAll_options (e : Expr) (greed : Greed) (min max : Nat) :
    coreAll (if min < max then [options e greed (max - min)] else []) =
      if min < max then [Core.options e.core greed (max - min)] else [] := by
  split
  · rw [coreAll, coreAll, core_options]
  · rfl

/-- A counted repetition and its expansion have the same core form. -/
theorem core_expansion (e : Expr) (min : Nat) (max : Option Nat) (greed : Greed) :
    (e.expansion min max greed).core = (repeated e min max greed).core := by
  match min, max with
  | 0, none => rfl
  | 0, some 0 => rfl
  | 1, none => rfl
  | min + 2, none => exact core_concat_replicate e (min + 1) [plus e greed]
  | 0, some (max + 1) =>
    exact (core_concat_replicate e 0 _).trans (congrArg _ (coreAll_options e greed 0 (max + 1)))
  | min + 1, some max =>
    have hexpansion : e.expansion (min + 1) (some max) greed = concat (List.replicate (min + 1) e ++
        if min + 1 < max then [options e greed (max - (min + 1))] else []) := by
      cases min <;> cases max <;> rfl
    rw [hexpansion, core_concat_replicate, coreAll_options, core, Core.repeated_succ_some]
    rfl

theorem allNullable_append (es ds : List Expr) :
    allNullable (es ++ ds) = (allNullable es && allNullable ds) := by
  induction es with
  | nil => rfl
  | cons e es ih => rw [List.cons_append, allNullable, allNullable, ih, Bool.and_assoc]

theorem allNullable_replicate (e : Expr) (n : Nat) :
    allNullable (List.replicate (n + 1) e) = e.nullable := by
  induction n with
  | zero => exact Bool.and_true _
  | succ n ih => rw [List.replicate_succ, allNullable, ih, Bool.and_self]

theorem nullable_options (e : Expr) (greed : Greed) (n : Nat) :
    (e.options greed n).nullable = true := by
  match n with
  | 0 => rfl
  | 1 => rfl
  | n + 2 => rfl

theorem nullable_expansion (e : Expr) (min : Nat) (max : Option Nat) (greed : Greed) :
    (e.expansion min max greed).nullable = (repeated e min max greed).nullable := by
  match min, max with
  | 0, none => rfl
  | 0, some 0 => rfl
  | 1, none => rfl
  | min + 2, none =>
    show allNullable (List.replicate (min + 1) e ++ [plus e greed]) = e.nullable
    rw [allNullable_append, allNullable_replicate]
    simp only [allNullable, nullable, Bool.and_true, Bool.and_self]
  | 0, some (max + 1) =>
    show allNullable [options e greed (max + 1)] = true
    rw [allNullable, nullable_options, allNullable, Bool.and_self]
  | min + 1, some max =>
    have hexpansion : e.expansion (min + 1) (some max) greed = concat (List.replicate (min + 1) e ++
        if min + 1 < max then [options e greed (max - (min + 1))] else []) := by
      cases min <;> cases max <;> rfl
    have hrepeated : (repeated e (min + 1) (some max) greed).nullable = e.nullable :=
      Bool.false_or _
    rw [hexpansion, nullable, allNullable_append, allNullable_replicate, hrepeated]
    split
    · rw [allNullable, nullable_options, allNullable, Bool.and_self, Bool.and_true]
    · rw [allNullable, Bool.and_true]

/-! ## Expressions with a hole -/

/-- An expression with a hole in place of one part. -/
inductive Context where
  | hole
  | concat (before : List Expr) (inner : Context) (after : List Expr)
  | alternate (before : List Expr) (inner : Context) (after : List Expr)
  | star (inner : Context) (greed : Greed)
  | plus (inner : Context) (greed : Greed)
  | optional (inner : Context) (greed : Greed)
  | repeated (inner : Context) (min : Nat) (max : Option Nat) (greed : Greed)
  | group (inner : Context) (index : Option Nat)

def Context.fill (e : Expr) : Context → Expr
  | hole => e
  | concat before inner after => .concat (before ++ inner.fill e :: after)
  | alternate before inner after => .alternate (before ++ inner.fill e :: after)
  | star inner greed => .star (inner.fill e) greed
  | plus inner greed => .plus (inner.fill e) greed
  | optional inner greed => .optional (inner.fill e) greed
  | repeated inner min max greed => .repeated (inner.fill e) min max greed
  | group inner index => .group (inner.fill e) index

theorem anyNullable_append (es ds : List Expr) :
    anyNullable (es ++ ds) = (anyNullable es || anyNullable ds) := by
  induction es with
  | nil => rfl
  | cons e es ih => rw [List.cons_append, anyNullable, anyNullable, ih, Bool.or_assoc]

theorem nullable_fill_congr (C : Context) {e d : Expr} (h : e.nullable = d.nullable) :
    (C.fill e).nullable = (C.fill d).nullable := by
  induction C with
  | hole => exact h
  | concat before inner after ih =>
    simp only [Context.fill, nullable, allNullable_append, allNullable, ih]
  | alternate before inner after ih =>
    simp only [Context.fill, nullable, anyNullable_append, anyNullable, ih]
  | star inner greed ih | optional inner greed ih => rfl
  | plus inner greed ih | group inner index ih => exact ih
  | repeated inner min max greed ih => simp only [Context.fill, nullable, ih]

/-- Around a hole the core form depends on the core form of what is in it, and on whether that is
watched as the body of a loop. -/
theorem core_fill_congr (C : Context) {e d : Expr} (hcore : e.core = d.core)
    (hnullable : e.nullable = d.nullable) : (C.fill e).core = (C.fill d).core := by
  have hn : ∀ C : Context, (C.fill e).nullable = (C.fill d).nullable :=
    fun C => nullable_fill_congr C hnullable
  induction C with
  | hole => exact hcore
  | concat before inner after ih | alternate before inner after ih =>
    simp only [Context.fill, core, coreAll_eq_map, List.map_append, List.map_cons, ih]
  | star inner greed ih | plus inner greed ih | optional inner greed ih
  | repeated inner min max greed ih =>
    simp only [Context.fill, core, hn inner, ih]
  | group inner index ih =>
    cases index with
    | none => exact ih
    | some index => simp only [Context.fill, core, ih]

/-- A counted repetition compiles to the same instructions and tables as its expansion, at any place
of any expression, or exceeds the limit as its expansion does. The number of captures is left out,
since the expansion of a part that is repeated no times has no groups. -/
theorem ofPattern_fill_expansion (C : Context) (e : Expr) (min : Nat) (max : Option Nat)
    (greed : Greed) (limit : Nat) :
    (Program.ofPattern limit (.ofExpr (C.fill (repeated e min max greed)))).map
        (fun p => (p.instrs, p.splitScopes, p.loopParents, p.memo)) =
      (Program.ofPattern limit (.ofExpr (C.fill (e.expansion min max greed)))).map
        (fun p => (p.instrs, p.splitScopes, p.loopParents, p.memo)) := by
  have hcore :
      (C.fill (repeated e min max greed)).core = (C.fill (e.expansion min max greed)).core :=
    core_fill_congr C (core_expansion e min max greed).symm
      (nullable_expansion e min max greed).symm
  have hwhole : (Pattern.ofExpr (C.fill (repeated e min max greed))).core =
      (Pattern.ofExpr (C.fill (e.expansion min max greed))).core :=
    congrArg (fun c => Core.seq (.atom (.save 0)) (.seq c (.atom (.save 1)))) hcore
  rw [Program.ofPattern_eq, Program.ofPattern_eq, hwhole]
  split
  · rfl
  · rfl

end Expr

end ByteRegex
