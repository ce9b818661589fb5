import ByteRegex.Proofs.Core.Parts
import ByteRegex.Proofs.Pattern.Reading
import Mathlib.Data.List.Pairwise

/-!
# The groups of an expression

The indices of an expression are those of the capturing groups among its parts. Where no index comes
twice, an index tells which part it captures, and this part has no group of the same index in it.
Where they are numbered in order, as in every pattern that is read, the largest of them tells how
many there are: `Pattern.normal_and_numbered`.
-/

namespace ByteRegex

namespace Expr

variable {d d' e : Expr} {index : Nat}

def groupIndex? : Expr → Option Nat
  | group _ index => index
  | _ => none

theorem indices_eq_flatMap (e : Expr) :
    e.indices = e.groupIndex?.toList ++ e.children.flatMap indices := by
  cases e with
  | byte b | any | oneOf s | textStart | textEnd => rfl
  | concat es => exact indices_concat es
  | alternate es => exact indices_alternate es
  | star d greed | plus d greed | optional d greed | repeated d min max greed =>
    show d.indices = [d].flatMap indices
    rw [List.flatMap_singleton]
  | group d index =>
    show index.toList ++ d.indices = index.toList ++ [d].flatMap indices
    rw [List.flatMap_singleton]

theorem indices_eq_filterMap (e : Expr) : e.indices = e.parts.filterMap groupIndex? := by
  induction e using induct_children with
  | h e ih =>
    rw [indices_eq_flatMap, parts_eq, List.filterMap_cons, List.filterMap_flatMap, List.flatMap_def,
      List.flatMap_def, List.map_congr_left ih]
    cases e.groupIndex? <;> rfl

theorem mem_indices : index ∈ e.indices ↔ ∃ d, group d (some index) ∈ e.parts := by
  rw [indices_eq_filterMap, List.mem_filterMap]
  constructor
  · rintro ⟨c, hc, hindex⟩
    cases c with
    | group d index' =>
      obtain rfl : index' = some index := hindex
      exact ⟨d, hc⟩
    | _ => cases hindex
  · rintro ⟨d, hd⟩
    exact ⟨_, hd, rfl⟩

theorem group_unique (h : e.indices.Nodup) (hd : group d (some index) ∈ e.parts)
    (hd' : group d' (some index) ∈ e.parts) : d = d' := by
  -- Two different groups would stand at two places of the list, and their indices differ then.
  rw [indices_eq_filterMap, List.Nodup, List.pairwise_filterMap] at h
  have hsymm : Std.Symm fun c c' : Expr => ∀ i, c.groupIndex? = some i →
      ∀ i', c'.groupIndex? = some i' → i ≠ i' :=
    ⟨fun _ _ hne i hi i' hi' => (hne i' hi' i hi).symm⟩
  by_contra hne
  have hgroups : group d (some index) ≠ group d' (some index) := fun heq => hne (group.inj heq).1
  exact h.forall hd hd' hgroups index rfl index rfl rfl

theorem not_mem_indices_of_group (h : e.indices.Nodup) (hd : group d (some index) ∈ e.parts) :
    index ∉ d.indices := by
  -- The indices of the part come right behind that of the group.
  have hsublist : (index :: d.indices).Sublist e.indices := by
    have hparts := (parts_sublist hd).filterMap groupIndex?
    rwa [← indices_eq_filterMap, ← indices_eq_filterMap] at hparts
  exact (List.nodup_cons.mp (h.sublist hsublist)).1

theorem Normal.of_mem_parts (he : e.Normal) (hd : d ∈ e.parts) : d.Normal :=
  forall_parts Normal.of_mem_children he hd

/-! ## The largest index -/

theorem maxGroupFrom_eq (e : Expr) (bound : Nat) :
    e.maxGroupFrom bound = e.indices.foldl max bound := by
  have hall : ∀ (es : List Expr) (bound : Nat),
      (∀ e ∈ es, ∀ bound, e.maxGroupFrom bound = e.indices.foldl max bound) →
      maxGroupFromAll bound es = (indicesAll es).foldl max bound := by
    intro es
    induction es with
    | nil => exact fun _ _ => rfl
    | cons e es ih =>
      intro bound h
      rw [maxGroupFromAll, indicesAll, List.foldl_append, h e List.mem_cons_self]
      exact ih _ (fun d hd => h d (List.mem_cons_of_mem e hd))
  induction e using Expr.induct generalizing bound with
  | byte b | any | oneOf s | textStart | textEnd => rfl
  | concat es ih | alternate es ih => exact hall es bound ih
  | star e greed ih | plus e greed ih | optional e greed ih | repeated e min max greed ih =>
    exact ih bound
  | group e index ih =>
    cases index with
    | none => exact (ih _).trans (congrArg (e.indices.foldl max) (Nat.max_zero bound))
    | some index => exact ih _

theorem le_foldl_max {l : List Nat} {bound x : Nat} (h : x ≤ bound ∨ x ∈ l) :
    x ≤ l.foldl max bound := by
  induction l generalizing bound with
  | nil => exact h.elim id (absurd · List.not_mem_nil)
  | cons y l ih =>
    refine ih ?_
    rcases h with h | h
    · exact Or.inl (Nat.le_trans h (Nat.le_max_left _ _))
    · rcases List.mem_cons.mp h with rfl | h
      · exact Or.inl (Nat.le_max_right _ _)
      · exact Or.inr h

theorem le_maxGroup (h : index ∈ e.indices) : index ≤ e.maxGroup := by
  rw [maxGroup, maxGroupFrom_eq]
  exact le_foldl_max (Or.inr h)

end Expr

/-! ## Patterns that have been read -/

namespace Pattern

variable {limits : PatternLimits} {pattern : Pattern}

/-- Groups that are numbered in order are counted by the largest index. So what is true of the
programs of expressions is true of the programs of patterns that have been read. -/
theorem ofExpr_root (hindices : pattern.root.indices = List.range' 1 pattern.captures) :
    Pattern.ofExpr pattern.root = pattern := by
  have hmax : ∀ n, (List.range' 1 n).foldl max 0 = n := by
    intro n
    induction n with
    | zero => rfl
    | succ n ih =>
      rw [List.range'_1_concat, List.foldl_append, ih]
      show max n (1 + n) = n + 1
      omega
  have hcaptures : pattern.root.maxGroup = pattern.captures := by
    rw [Expr.maxGroup, Expr.maxGroupFrom_eq, hindices, hmax]
  rw [Pattern.ofExpr, hcaptures]

/-- Whatever bytes are read, and under whatever limits, the expression is in normal form, its
capturing groups have the indices from 1 up to their number in the order in which they open, and the
pattern is the one that is built from the expression alone. -/
theorem normal_and_numbered {bytes : List UInt8} (h : ofBytes limits bytes = .ok pattern) :
    pattern.root.Normal ∧ pattern.root.indices = List.range' 1 pattern.captures ∧
      ofExpr pattern.root = pattern := by
  obtain ⟨hnormal, hindices⟩ := normal_of_ofBytes h
  exact ⟨hnormal, hindices, ofExpr_root hindices⟩

/-- Groups beside and inside one another, one of which does not capture, and branches of one piece
and of several. -/
theorem normal_and_numbered_siblings : ∃ pattern,
    ofBytes { maxNesting := 3 } "(a|(?:b(c)+|d)*)(e)\x7b2\x7d".toUTF8.data.toList = .ok pattern ∧
      pattern.root.Normal ∧ pattern.root.indices = [1, 2, 3] ∧ ofExpr pattern.root = pattern := by
  have hpattern :
      ofBytes { maxNesting := 3 } "(a|(?:b(c)+|d)*)(e)\x7b2\x7d".toUTF8.data.toList = .ok {
      root := .concat [
        .group (.alternate [.byte 97, .star (.group (.alternate [
          .concat [.byte 98, .plus (.group (.byte 99) (some 2)) .greedy],
          .byte 100]) none) .greedy])
          (some 1),
        .repeated (.group (.byte 101) (some 3)) 2 (some 2) .greedy]
      captures := 3 } := rfl
  exact ⟨_, hpattern, normal_and_numbered hpattern⟩

end Pattern

end ByteRegex
