import ByteRegex.Proofs.Core.Basic

/-!
# The parts of an expression

An expression, its direct parts, theirs, and so on, from the outside to the inside. What is asked of
every repetition or of every byte of an expression is asked of its parts.
-/

namespace ByteRegex.Expr

mutual

/-- The expression and everything in it. -/
def parts : Expr → List Expr
  | byte b => [byte b]
  | any => [any]
  | oneOf s => [oneOf s]
  | textStart => [textStart]
  | textEnd => [textEnd]
  | concat es => concat es :: partsAll es
  | alternate es => alternate es :: partsAll es
  | star e greed => star e greed :: e.parts
  | plus e greed => plus e greed :: e.parts
  | optional e greed => optional e greed :: e.parts
  | repeated e min max greed => repeated e min max greed :: e.parts
  | group e index => group e index :: e.parts

def partsAll : List Expr → List Expr
  | [] => []
  | e :: es => e.parts ++ partsAll es

end

variable {c d e : Expr} {es : List Expr} {P : Expr → Prop}

theorem partsAll_eq_flatMap (es : List Expr) : partsAll es = es.flatMap parts := by
  induction es with
  | nil => rfl
  | cons e es ih => rw [partsAll, ih, List.flatMap_cons]

theorem parts_eq (e : Expr) : e.parts = e :: e.children.flatMap parts := by
  cases e with
  | byte b | any | oneOf s | textStart | textEnd => rfl
  | concat es | alternate es => rw [parts, partsAll_eq_flatMap, children]
  | star e greed | plus e greed | optional e greed | repeated e min max greed | group e index =>
    rw [parts, children, List.flatMap_singleton]

theorem self_mem_parts (e : Expr) : e ∈ e.parts := by
  rw [parts_eq]
  exact List.mem_cons_self

theorem mem_partsAll : d ∈ partsAll es ↔ ∃ e ∈ es, d ∈ e.parts := by
  rw [partsAll_eq_flatMap, List.mem_flatMap]

theorem mem_parts : d ∈ e.parts ↔ d = e ∨ ∃ c ∈ e.children, d ∈ c.parts := by
  rw [parts_eq, List.mem_cons, List.mem_flatMap]

/-- The parts of a direct part are parts. -/
theorem mem_parts_of_mem_children (he : e ∈ d.children) (hc : c ∈ e.parts) : c ∈ d.parts :=
  mem_parts.mpr (Or.inr ⟨e, he, hc⟩)

/-- Induction over an expression, with one hypothesis for all its direct parts. -/
theorem induct_children (h : ∀ e, (∀ d ∈ e.children, P d) → P e) (e : Expr) : P e := by
  have hone : ∀ {d e : Expr}, P e → d ∈ [e] → P d := fun he hd => List.mem_singleton.mp hd ▸ he
  induction e using Expr.induct with
  | byte b | any | oneOf s | textStart | textEnd =>
    exact h _ (fun d hd => absurd hd List.not_mem_nil)
  | concat es ih | alternate es ih => exact h _ ih
  | star e greed ih | plus e greed ih | optional e greed ih | repeated e min max greed ih
  | group e index ih => exact h _ (fun d => hone ih)

/-- What passes on to direct parts holds of all parts. -/
theorem forall_parts (hpass : ∀ {c d : Expr}, P d → c ∈ d.children → P c) (he : P e)
    (hd : d ∈ e.parts) : P d := by
  induction e using induct_children with
  | h e ih =>
    rcases mem_parts.mp hd with rfl | ⟨c, hc, hd⟩
    · exact he
    · exact ih c hc (hpass he hc) hd

/-- The parts of a part stand one after the other among the parts. -/
theorem parts_sublist (hd : d ∈ e.parts) : d.parts.Sublist e.parts := by
  refine forall_parts (P := fun d => d.parts.Sublist e.parts) (fun {c d} h hc => ?_) (.refl _) hd
  refine List.Sublist.trans ?_ h
  rw [parts_eq d, List.flatMap_def]
  exact (List.sublist_flatten_of_mem (List.mem_map_of_mem hc)).trans (List.sublist_cons_self _ _)

end ByteRegex.Expr
