import ByteRegex.Exec.Memo

/-!
# No two states share a cell

The layout of the memory gives each split a stretch of cells, long enough for every number of idle
rounds that the loops around the split allow. So a marked cell says which state it was marked for.
There are no cells between the stretches.
-/

namespace ByteRegex

namespace MemoLayout

/-- The layout gives each split, of which `depths` has the numbers of loops around them, its own
cells. -/
structure Fair (layout : MemoLayout) (depths : List Nat) : Prop where
  size : layout.bases.size = depths.length
  below : ∀ i d, depths[i]? = some d → layout.bases.getD i 0 + d < layout.cells
  apart : ∀ i j d, depths[i]? = some d → i < j → j < depths.length →
    layout.bases.getD i 0 + d < layout.bases.getD j 0

variable {layout : MemoLayout} {depths : List Nat} {i d depth : Nat}

theorem getD_bases_addSplit_of_lt (hi : i < layout.bases.size) (depth : Nat) :
    (layout.addSplit depth).bases.getD i 0 = layout.bases.getD i 0 := by
  simp only [addSplit, Array.getD_eq_getD_getElem?, Array.getElem?_push_lt hi,
    Array.getElem?_eq_getElem hi]

theorem getD_bases_addSplit_size (layout : MemoLayout) (depth : Nat) :
    (layout.addSplit depth).bases.getD layout.bases.size 0 = layout.cells := by
  simp only [addSplit, Array.getD_eq_getD_getElem?, Array.getElem?_push_size, Option.getD_some]

theorem getElem?_depths_append (h : (depths ++ [depth])[i]? = some d) :
    depths[i]? = some d ∧ i < depths.length ∨ i = depths.length ∧ d = depth := by
  by_cases hi : i < depths.length
  · rw [List.getElem?_append_left hi] at h
    exact Or.inl ⟨h, hi⟩
  · rw [List.getElem?_append_right (by omega), List.getElem?_singleton] at h
    split at h
    · exact Or.inr ⟨by omega, (Option.some.inj h).symm⟩
    · cases h

/-- What is true of the empty layout, and is passed on when a split is given its cells, is true of
every layout. -/
theorem induct_ofScopes {P : MemoLayout → (depths : List Nat) → Prop}
    (hempty : P { bases := #[], cells := 0 } [])
    (haddSplit : ∀ {layout depths} depth, P layout depths →
      P (layout.addSplit depth) (depths ++ [depth]))
    (parents scopes : Array (Option Nat)) :
    P (ofScopes parents scopes)
      (scopes.toList.map fun scope => (Loops.chain parents scope).length) := by
  have haddAll : ∀ (scopes : List (Option Nat)) {layout depths}, P layout depths →
      P (scopes.foldl
          (fun layout scope => layout.addSplit (Loops.chain parents scope).length) layout)
        (depths ++ scopes.map fun scope => (Loops.chain parents scope).length) := by
    intro scopes
    induction scopes with
    | nil =>
      intro layout depths h
      rwa [List.map_nil, List.append_nil]
    | cons scope scopes ih =>
      intro layout depths h
      have hnext := ih (haddSplit (Loops.chain parents scope).length h)
      rwa [List.append_assoc] at hnext
  have h := haddAll scopes.toList hempty
  rwa [List.nil_append, Array.foldl_toList] at h

/-! ### No two cells are the same -/

theorem fair_empty : Fair { bases := #[], cells := 0 } [] :=
  ⟨rfl, fun _ _ h => absurd h (by simp), fun _ _ _ h => absurd h (by simp)⟩

theorem Fair.addSplit (h : layout.Fair depths) (depth : Nat) :
    (layout.addSplit depth).Fair (depths ++ [depth]) := by
  have hold : ∀ {i}, i < depths.length →
      (layout.addSplit depth).bases.getD i 0 = layout.bases.getD i 0 :=
    fun hi => getD_bases_addSplit_of_lt (h.size.symm ▸ hi) depth
  have hnew : (layout.addSplit depth).bases.getD depths.length 0 = layout.cells :=
    h.size ▸ getD_bases_addSplit_size layout depth
  have hcells : (layout.addSplit depth).cells = layout.cells + (depth + 1) := rfl
  refine ⟨?_, fun i d hd => ?_, fun i j d hd hij hj => ?_⟩
  · simp only [MemoLayout.addSplit, Array.size_push, h.size, List.length_append,
      List.length_singleton]
  · rcases getElem?_depths_append hd with ⟨hd, hi⟩ | ⟨rfl, rfl⟩
    · have := h.below i d hd
      rw [hold hi]
      omega
    · rw [hnew]
      omega
  · rw [List.length_append, List.length_singleton] at hj
    rcases getElem?_depths_append hd with ⟨hd, hi⟩ | ⟨rfl, rfl⟩
    · rw [hold hi]
      by_cases hlast : j = depths.length
      · rw [hlast, hnew]
        exact h.below i d hd
      · rw [hold (by omega)]
        exact h.apart i j d hd hij (by omega)
    · omega

theorem fair_ofScopes (parents scopes : Array (Option Nat)) :
    (ofScopes parents scopes).Fair
      (scopes.toList.map fun scope => (Loops.chain parents scope).length) :=
  induct_ofScopes fair_empty (fun depth h => h.addSplit depth) parents scopes

/-! ### There are no other cells -/

def Full (layout : MemoLayout) (depths : List Nat) : Prop :=
  ∀ c, c < layout.cells → ∃ i d k, depths[i]? = some d ∧ k ≤ d ∧ layout.bases.getD i 0 + k = c

theorem Full.addSplit (h : layout.Full depths) (hsize : layout.bases.size = depths.length)
    (depth : Nat) : (layout.addSplit depth).Full (depths ++ [depth]) := by
  intro c hc
  by_cases hold : c < layout.cells
  · obtain ⟨i, d, k, hd, hk, rfl⟩ := h c hold
    have hi : i < depths.length := (List.getElem?_eq_some_iff.mp hd).1
    refine ⟨i, d, k, (List.getElem?_append_left hi).trans hd, hk, ?_⟩
    rw [getD_bases_addSplit_of_lt (hsize.symm ▸ hi)]
  · have hcells : (layout.addSplit depth).cells = layout.cells + (depth + 1) := rfl
    refine ⟨depths.length, depth, c - layout.cells, List.getElem?_concat_length, by omega, ?_⟩
    rw [← hsize, getD_bases_addSplit_size]
    omega

theorem full_ofScopes (parents scopes : Array (Option Nat)) :
    (ofScopes parents scopes).Full
      (scopes.toList.map fun scope => (Loops.chain parents scope).length) := by
  -- Where the cells of the next split are is known only if every split before it has been given its
  -- own.
  have hboth := induct_ofScopes (P := fun layout depths => layout.Fair depths ∧ layout.Full depths)
    ⟨fair_empty, fun c hc => absurd hc (Nat.not_lt_zero c)⟩
    (fun depth h => ⟨h.1.addSplit depth, h.2.addSplit h.1.size depth⟩) parents scopes
  exact hboth.2

end MemoLayout

namespace Program

def depthOf (p : Program) (id : Nat) : Nat :=
  (Loops.chain p.loopParents (p.splitScopes.getD id none)).length

/-- The memory has the layout that the tables ask for. -/
def LaidOut (p : Program) : Prop :=
  p.memo = .ofScopes p.loopParents p.splitScopes

variable {p : Program} {i j pos pos' k l : Nat}

theorem getElem?_depths (hi : i < p.splitCount) :
    (p.splitScopes.toList.map fun scope => (Loops.chain p.loopParents scope).length)[i]? =
      some (p.depthOf i) := by
  have hscope : p.splitScopes[i]? = some (p.splitScopes.getD i none) := by
    rw [Array.getD_eq_getD_getElem?, Array.getElem?_eq_getElem hi, Option.getD_some]
  rw [List.getElem?_map, Array.getElem?_toList, hscope]
  rfl

theorem LaidOut.size_bases (hp : p.LaidOut) : p.memo.bases.size = p.splitCount := by
  have hfair := MemoLayout.fair_ofScopes p.loopParents p.splitScopes
  rw [hp, hfair.size, List.length_map, Array.length_toList]
  rfl

theorem LaidOut.offset_lt (hp : p.LaidOut) (hi : i < p.splitCount) (hk : k ≤ p.depthOf i) :
    p.memo.bases.getD i 0 + k < p.memo.cells := by
  have hfair := MemoLayout.fair_ofScopes p.loopParents p.splitScopes
  rw [← hp] at hfair
  have := hfair.below i _ (getElem?_depths hi)
  omega

theorem LaidOut.exists_offset (hp : p.LaidOut) {c : Nat} (hc : c < p.memo.cells) :
    ∃ i k, i < p.splitCount ∧ k ≤ p.depthOf i ∧ p.memo.bases.getD i 0 + k = c := by
  have hfull := MemoLayout.full_ofScopes p.loopParents p.splitScopes
  rw [← hp] at hfull
  obtain ⟨i, d, k, hd, hk, hcell⟩ := hfull c hc
  have hi : i < p.splitCount := by
    have hlt := (List.getElem?_eq_some_iff.mp hd).1
    rwa [List.length_map, Array.length_toList] at hlt
  obtain rfl := Option.some.inj ((getElem?_depths hi).symm.trans hd)
  exact ⟨i, k, hi, hk, hcell⟩

/-- The cell of a state is the cell of no other state. -/
theorem LaidOut.cellOf_inj (hp : p.LaidOut) (hi : i < p.splitCount) (hj : j < p.splitCount)
    (hk : k ≤ p.depthOf i) (hl : l ≤ p.depthOf j) (h : p.cellOf i pos k = p.cellOf j pos' l) :
    i = j ∧ pos = pos' ∧ k = l := by
  have hfair := MemoLayout.fair_ofScopes p.loopParents p.splitScopes
  rw [← hp] at hfair
  have hki := hp.offset_lt hi hk
  have hlj := hp.offset_lt hj hl
  -- The offset is the quotient of the cell by the width of the table, the rest is the remainder.
  have hpos : pos = pos' := by
    have hdiv : ∀ {x y}, y < p.memo.cells → (x * p.memo.cells + y) / p.memo.cells = x := by
      intro x y hy
      rw [Nat.mul_comm, Nat.mul_add_div (by omega), Nat.div_eq_of_lt hy, Nat.add_zero]
    have hquotient := congrArg (· / p.memo.cells) h
    simp only [cellOf, hdiv hki, hdiv hlj] at hquotient
    exact hquotient
  subst hpos
  have hoffset : p.memo.bases.getD i 0 + k = p.memo.bases.getD j 0 + l := Nat.add_left_cancel h
  have hlength : (p.splitScopes.toList.map fun scope =>
      (Loops.chain p.loopParents scope).length).length = p.splitCount := by
    rw [List.length_map, Array.length_toList]
    rfl
  have hij : i = j := by
    rcases Nat.lt_trichotomy i j with hlt | heq | hlt
    · have := hfair.apart i j _ (getElem?_depths hi) hlt (by omega)
      omega
    · exact heq
    · have := hfair.apart j i _ (getElem?_depths hj) hlt (by omega)
      omega
  subst hij
  exact ⟨rfl, rfl, by omega⟩

/-- The cells of an offset between `first` and `last` are cleared with those of all these
offsets. -/
theorem LaidOut.cellOf_mem (hp : p.LaidOut) {first last : Nat} (hi : i < p.splitCount)
    (hk : k ≤ p.depthOf i) (hfirst : first ≤ pos) (hlast : pos ≤ last) :
    first * p.memo.cells ≤ p.cellOf i pos k ∧
      p.cellOf i pos k < first * p.memo.cells + (last + 1 - first) * p.memo.cells := by
  have hlt := hp.offset_lt hi hk
  have hbelow : first * p.memo.cells ≤ pos * p.memo.cells := Nat.mul_le_mul_right _ hfirst
  have habove : (pos + 1) * p.memo.cells ≤ (last + 1) * p.memo.cells :=
    Nat.mul_le_mul_right _ (by omega)
  rw [← Nat.add_mul, show first + (last + 1 - first) = last + 1 by omega]
  rw [Nat.succ_mul] at habove
  unfold cellOf
  exact ⟨by omega, by omega⟩

/-- The table for a subject has the cells of all its offsets. -/
theorem LaidOut.cellOf_lt (hp : p.LaidOut) {length : Nat} (hi : i < p.splitCount)
    (hk : k ≤ p.depthOf i) (hpos : pos ≤ length) : p.cellOf i pos k < p.tableSize length := by
  have hlt := (hp.cellOf_mem hi hk (Nat.zero_le pos) hpos).2
  rwa [Nat.zero_mul, Nat.zero_add, Nat.sub_zero, Nat.mul_comm] at hlt

/-- Every cell of the table is the cell of a state. -/
theorem LaidOut.exists_cellOf (hp : p.LaidOut) {length cell : Nat}
    (hcell : cell < p.tableSize length) :
    ∃ i pos k, i < p.splitCount ∧ pos ≤ length ∧ k ≤ p.depthOf i ∧ p.cellOf i pos k = cell := by
  have hcells : 0 < p.memo.cells :=
    Nat.pos_of_mul_pos_right (Nat.lt_of_le_of_lt (Nat.zero_le _) hcell)
  obtain ⟨i, k, hi, hk, hoffset⟩ := hp.exists_offset (Nat.mod_lt cell hcells)
  have hpos : cell / p.memo.cells < length + 1 := Nat.div_lt_of_lt_mul hcell
  refine ⟨i, cell / p.memo.cells, k, hi, Nat.le_of_lt_succ hpos, hk, ?_⟩
  rw [cellOf, hoffset, Nat.div_add_mod']

end Program

end ByteRegex
