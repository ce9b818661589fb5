import ByteRegex.Proofs.Exec.Memory
import ByteRegex.Proofs.Program.Shape

/-!
# The table has room for all states, and for nothing else

What a search remembers of a state is a split, an offset, and a number of rounds around the split;
how many rounds there can be is found by following the table of loops from the split outwards. In a
program that is compiled this comes to an end, and the cells of the states are exactly the cells of
the table: `Program.packed_ofPattern`.
-/

namespace ByteRegex

/-- Looking up the loop around a loop, then the loop around that one, and so on, goes through
`loops` and ends outside of all loops. -/
inductive Loops.Climbs (parents : Array (Option Nat)) :
    (scope : Option Nat) → (loops : List Nat) → Prop where
  | outside : Climbs parents none []
  | inside {id scope loops} (hparent : parents[id]? = some scope) (h : Climbs parents scope loops) :
      Climbs parents (some id) (id :: loops)

namespace Program

/-- The cells of the states are told apart by split, offset and number of rounds, and they fill the
table. -/
structure Packed (p : Program) : Prop where
  climbs : ∀ id, id < p.splitCount → ∃ scope loops, p.splitScopes[id]? = some scope ∧
    Loops.Climbs p.loopParents scope loops ∧ loops.length = p.depthOf id ∧
      ∀ (roundStarts : Array Nat) (pos : Nat), roundsAt p.loopParents roundStarts pos scope =
        (loops.takeWhile fun loop => roundStarts[loop]? = some pos).length
  bases : p.memo.bases.size = p.splitCount
  offset_inj : ∀ id id' k k',
    id < p.splitCount → id' < p.splitCount → k ≤ p.depthOf id → k' ≤ p.depthOf id' →
      p.memo.bases.getD id 0 + k = p.memo.bases.getD id' 0 + k' → id = id' ∧ k = k'
  offset_iff : ∀ c, c < p.memo.cells ↔
    ∃ id k, id < p.splitCount ∧ k ≤ p.depthOf id ∧ p.memo.bases.getD id 0 + k = c
  cell_inj : ∀ id id' pos pos' k k', id < p.splitCount → id' < p.splitCount → k ≤ p.depthOf id →
    k' ≤ p.depthOf id' → p.cellOf id pos k = p.cellOf id' pos' k' → id = id' ∧ pos = pos' ∧ k = k'
  cell_iff : ∀ length cell, cell < p.tableSize length ↔
    ∃ id pos k, id < p.splitCount ∧ pos ≤ length ∧ k ≤ p.depthOf id ∧ p.cellOf id pos k = cell
  rounds : ∀ id (roundStarts : Array Nat) pos,
    roundsAt p.loopParents roundStarts pos (p.splitScopes.getD id none) ≤ p.depthOf id

variable {p : Program}

/-- Loops are numbered from the outside to the inside, so that following the table comes to an
end. -/
theorem climbs_chain
    (hparents : ∀ id outer : Nat, p.loopParents[id]? = some (some outer) → outer < id)
    {scope : Option Nat} (hscope : ∀ id ∈ scope, id < p.loopCount) :
    Loops.Climbs p.loopParents scope (Loops.chain p.loopParents scope) := by
  cases scope with
  | none =>
    rw [Loops.chain_none]
    exact .outside
  | some id =>
    induction id using Nat.strongRecOn with
    | ind id ih =>
      have hlt : id < p.loopParents.size := hscope id rfl
      have hparent : p.loopParents[id]? = some p.loopParents[id] := Array.getElem?_eq_getElem hlt
      have houter : ∀ outer, p.loopParents[id] = some outer → outer < id := fun outer houter =>
        hparents id outer (houter ▸ hparent)
      rw [Loops.chain_some, parent?_of_numbered hparent houter]
      refine .inside hparent ?_
      cases hnext : p.loopParents[id] with
      | none =>
        rw [Loops.chain_none]
        exact .outside
      | some outer =>
        have hbefore := houter outer hnext
        exact ih outer hbefore fun _ heq => Option.some.inj heq ▸ Nat.lt_trans hbefore hlt

theorem LaidOut.packed (hp : p.LaidOut)
    (hscopes : ∀ id loop : Nat, p.splitScopes[id]? = some (some loop) → loop < p.loopCount)
    (hparents : ∀ id outer : Nat, p.loopParents[id]? = some (some outer) → outer < id) :
    p.Packed where
  climbs id hid := by
    have hscope : p.splitScopes[id]? = some p.splitScopes[id] := Array.getElem?_eq_getElem hid
    have hdepth : p.depthOf id = (Loops.chain p.loopParents p.splitScopes[id]).length := by
      rw [depthOf, Array.getD_eq_getD_getElem?, hscope, Option.getD_some]
    have hclimbs := climbs_chain hparents fun loop hloop => hscopes id loop (hloop ▸ hscope)
    exact ⟨_, _, hscope, hclimbs, hdepth.symm, fun _ _ => roundsAt_eq_length_takeWhile _ _ _ _⟩
  bases := hp.size_bases
  offset_inj id id' k k' hid hid' hk hk' h := by
    have hcell : p.cellOf id 0 k = p.cellOf id' 0 k' := congrArg (0 * p.memo.cells + ·) h
    obtain ⟨hsame, _, hsame'⟩ := hp.cellOf_inj hid hid' hk hk' hcell
    exact ⟨hsame, hsame'⟩
  offset_iff c := by
    refine ⟨hp.exists_offset, ?_⟩
    rintro ⟨id, k, hid, hk, rfl⟩
    exact hp.offset_lt hid hk
  cell_inj _ _ _ _ _ _ := hp.cellOf_inj
  cell_iff length cell := by
    refine ⟨hp.exists_cellOf, ?_⟩
    rintro ⟨id, pos, k, hid, hpos, hk, rfl⟩
    exact hp.cellOf_lt hid hk hpos
  rounds _ _ _ := roundsAt_le_length_chain

/-- In every program that is compiled no two states share a cell, and every cell of the table is the
cell of a state, however long the subject is. -/
theorem packed_ofPattern {limit : Nat} {pattern : Pattern}
    (h : Program.ofPattern limit pattern = .ok p) : p.Packed := by
  obtain ⟨_, rfl⟩ := eq_program_of_ofPattern h
  -- The code and the tables do not depend on the number of captures.
  have hform := wellFormed_program pattern.root
  exact (Core.coherent_program pattern.core pattern.captures).laidOut.packed
    hform.scopes hform.parents

/-- Copies of a loop in a loop: the splits have one, two and three cells by turns. -/
theorem packed_copies : ∃ p,
    Program.ofPattern 64
        (.ofExpr (.repeated (.star (.star (.star (.byte 97) .greedy) .lazy) .greedy) 2 (some 2)
          .greedy)) = .ok p ∧
    p.Packed ∧ p.loopParents = #[none, some 0, none, some 2] ∧
      p.memo = ⟨#[0, 1, 3, 6, 7, 9], 12⟩ := by
  have hprogram :=
    ofPattern_eq 64 (.ofExpr (.repeated (.star (.star (.star (.byte 97) .greedy) .lazy) .greedy) 2
      (some 2) .greedy))
  rw [if_pos (by decide)] at hprogram
  exact ⟨_, hprogram, packed_ofPattern hprogram, rfl, by decide +kernel⟩

end Program

end ByteRegex
