import ByteRegex.Exec.Memo

/-!
# When rounds start

A round starts no earlier than the round around it. So the rounds that have not read anything are
the innermost ones, and counting them may stop at the first one that started elsewhere.
-/

namespace ByteRegex

/-- The current rounds of `scope` and of the loops around it started at offsets that do not decrease
from the outside to the inside, the innermost at `bound` or before. -/
inductive Nested (parents : Array (Option Nat)) (starts : Array Nat) :
    (bound : Nat) → (scope : Option Nat) → Prop where
  | none (bound : Nat) : Nested parents starts bound none
  | some {bound id start : Nat} (hstart : starts[id]? = some start) (hle : start ≤ bound)
      (houter : Nested parents starts start (Loops.parent? parents id)) :
      Nested parents starts bound (some id)

section Rounds

variable {parents : Array (Option Nat)} {starts : Array Nat} {bound pos : Nat} {scope : Option Nat}

theorem roundsAt_none : roundsAt parents starts pos none = 0 := by
  rw [roundsAt]

theorem roundsAt_some (id : Nat) :
    roundsAt parents starts pos (some id) =
      if starts[id]? = some pos then roundsAt parents starts pos (Loops.parent? parents id) + 1
      else 0 := by
  rw [roundsAt]
  split
  · split
    · next h => rw [h, roundsAt_none]
    · next h => rw [h]
  · rfl

theorem roundsAt_le_length_chain :
    roundsAt parents starts pos scope ≤ (Loops.chain parents scope).length := by
  rw [roundsAt_eq_length_takeWhile]
  exact (List.takeWhile_prefix _).length_le

theorem Nested.mono (h : Nested parents starts bound scope) {bound' : Nat} (hle : bound ≤ bound') :
    Nested parents starts bound' scope := by
  cases h with
  | none => exact .none bound'
  | some hstart hle' houter => exact .some hstart (Nat.le_trans hle' hle) houter

/-- Every loop around a place has an entry. -/
theorem Nested.lt_size (h : Nested parents starts bound scope) :
    ∀ id ∈ Loops.chain parents scope, id < starts.size := by
  induction h with
  | none bound =>
    rw [Loops.chain_none]
    exact fun _ h => absurd h List.not_mem_nil
  | @some _ id start hstart _ _ ih =>
    rw [Loops.chain_some]
    intro id' hid'
    rcases List.mem_cons.mp hid' with rfl | hid'
    · exact (Array.getElem?_eq_some_iff.mp hstart).1
    · exact ih id' hid'

/-- No round has started behind the bound. -/
theorem Nested.roundsAt_of_lt (h : Nested parents starts bound scope) (hlt : bound < pos) :
    roundsAt parents starts pos scope = 0 := by
  cases h with
  | none => exact roundsAt_none
  | @some _ id start hstart hle _ =>
    have hne : starts[id]? ≠ Option.some pos := by
      rw [hstart]
      intro heq
      have := Option.some.inj heq
      omega
    rw [roundsAt_some, if_neg hne]

/-- The starts of the rounds, from the inside to the outside. -/
theorem Nested.exists_offsets (h : Nested parents starts bound scope) :
    ∃ offsets : List Nat, (Loops.chain parents scope).map (starts[·]?) = offsets.map Option.some ∧
      (bound :: offsets).Pairwise (· ≥ ·) := by
  induction h with
  | none bound => exact ⟨[], by rw [Loops.chain_none]; rfl, List.pairwise_singleton _ _⟩
  | @some bound id start hstart hle _ ih =>
    obtain ⟨offsets, hoffsets, hordered⟩ := ih
    refine ⟨start :: offsets, ?_, List.pairwise_cons.mpr ⟨fun offset hoffset => ?_, hordered⟩⟩
    · rw [Loops.chain_some, List.map_cons, List.map_cons, hoffsets, hstart]
    · rcases List.mem_cons.mp hoffset with rfl | hoffset
      · exact hle
      · exact Nat.le_trans (List.rel_of_pairwise_cons hordered hoffset) hle

/-- Behind the first round that started elsewhere no round has started at the offset. -/
theorem Nested.filter_eq_takeWhile (h : Nested parents starts bound scope) (hle : bound ≤ pos) :
    (Loops.chain parents scope).filter (fun id => decide (starts[id]? = Option.some pos)) =
      (Loops.chain parents scope).takeWhile (fun id => decide (starts[id]? = Option.some pos)) := by
  induction h with
  | none bound => rw [Loops.chain_none]; rfl
  | @some bound id start hstart hle' houter ih =>
    have hrest := ih (Nat.le_trans hle' hle)
    rw [Loops.chain_some, List.filter_cons, List.takeWhile_cons, hrest]
    by_cases hpos : start = pos
    · simp only [hstart, hpos, decide_true, if_true]
    · have hlt : start < pos := by omega
      have hnone := houter.roundsAt_of_lt hlt
      rw [roundsAt_eq_length_takeWhile, List.length_eq_zero_iff] at hnone
      simp [hstart, hpos, hnone]

/-- The rounds that started at the offset are the innermost ones, as many of them as are counted. -/
theorem Nested.filter_eq_take (h : Nested parents starts pos scope) :
    (Loops.chain parents scope).filter (fun id => decide (starts[id]? = Option.some pos)) =
      (Loops.chain parents scope).take (roundsAt parents starts pos scope) := by
  rw [h.filter_eq_takeWhile (Nat.le_refl pos), roundsAt_eq_length_takeWhile]
  exact List.prefix_iff_eq_take.mp (List.takeWhile_prefix _)

/-- The start of a round inside the loops around it does not change anything for these. -/
theorem Nested.setIfInBounds {id start : Nat} (h : Nested parents starts bound scope)
    (hid : ∀ outer, scope = Option.some outer → outer < id) :
    Nested parents (starts.setIfInBounds id start) bound scope := by
  induction h with
  | none bound => exact .none bound
  | @some bound outer start' hstart hle houter ih =>
    have hlt := hid outer rfl
    refine .some ?_ hle (ih (fun outer' houter' => ?_))
    · rwa [Array.getElem?_setIfInBounds_ne (by omega)]
    · exact Nat.lt_trans (Loops.lt_of_parent? houter') hlt

theorem roundsAt_setIfInBounds {id start : Nat} (hid : ∀ outer, scope = some outer → outer < id) :
    roundsAt parents (starts.setIfInBounds id start) pos scope =
      roundsAt parents starts pos scope := by
  fun_induction Loops.chain parents scope with
  | case1 => rw [roundsAt_none, roundsAt_none]
  | case2 outer h =>
    have hlt := hid outer rfl
    rw [roundsAt_some, roundsAt_some, h, roundsAt_none, roundsAt_none,
      Array.getElem?_setIfInBounds_ne (by omega)]
  | case3 outer outer' h ih =>
    have hlt := hid outer rfl
    have houter : ∀ o, some outer' = some o → o < id := by
      intro o ho
      obtain rfl := Option.some.inj ho
      exact Nat.lt_trans (Loops.lt_of_parent? h) hlt
    rw [roundsAt_some, roundsAt_some, h, ih houter, Array.getElem?_setIfInBounds_ne (by omega)]

end Rounds

end ByteRegex
