import ByteRegex.Proofs.Core.Loaded
import ByteRegex.Proofs.Exec.Spot

/-!
# Spots at the ends of code

A path through a piece of code leaves it inside the loop in which it entered. If it has read
nothing, the rounds around it are as idle as before, and if it has read something, none of them is.
-/

namespace ByteRegex

def Greed.choose (greed : Greed) (prefer other : Spot) : Turn :=
  match greed with
  | .greedy => .choose prefer other
  | .lazy => .choose other prefer

theorem Greed.mem_spots_choose {greed : Greed} {prefer other c : Spot} :
    c ∈ (greed.choose prefer other).spots ↔ c = prefer ∨ c = other := by
  cases greed
  · simp only [choose, Turn.spots, List.mem_cons, List.not_mem_nil, or_false]
  · simp only [choose, Turn.spots, List.mem_cons, List.not_mem_nil, or_false]
    exact or_comm

namespace Spot

theorem obey_splitInstr (subject : ByteArray) (c : Spot) (greed : Greed) (id prefer other : Nat) :
    c.obey subject (greed.splitInstr id prefer other) =
      greed.choose (c.goto prefer) (c.goto other) := by
  cases greed <;> rfl

/-- The spot at another address of the same loop, at an offset that a path from `c` has come to. -/
def reach (c : Spot) (address pos : Nat) : Spot :=
  ⟨address, pos, if pos = c.pos then c.idle else 0⟩

theorem reach_self (c : Spot) (address : Nat) : c.reach address c.pos = c.goto address := by
  rw [reach, if_pos rfl, goto]

theorem reach_of_lt {c : Spot} {pos : Nat} (h : c.pos < pos) (address : Nat) :
    c.reach address pos = ⟨address, pos, 0⟩ := by
  rw [reach, if_neg (Nat.ne_of_gt h)]

theorem reach_reach {c : Spot} {j k : Nat} (hj : c.pos ≤ j) (hk : j ≤ k) (a b : Nat) :
    (c.reach a j).reach b k = c.reach b k := by
  have hidle : (if k = j then if j = c.pos then c.idle else 0 else 0) =
      if k = c.pos then c.idle else 0 := by
    by_cases h : k = c.pos
    · have hkj : k = j := by omega
      have hjc : j = c.pos := by omega
      rw [if_pos hkj, if_pos hjc, if_pos h]
    · by_cases hkj : k = j
      · rw [if_pos hkj, if_neg (by omega), if_neg h]
      · rw [if_neg hkj, if_neg h]
  exact congrArg (Spot.mk b k) hidle

theorem goto_reach (c : Spot) (a b j : Nat) : (c.goto a).reach b j = c.reach b j := rfl

/-- At the end of a watched round: a round that has read nothing leaves the loop. -/
theorem obey_roundEnd_reach (subject : ByteArray) {c : Spot} {pos : Nat} (hpos : c.pos ≤ pos)
    (start loop stop : Nat) :
    ((⟨start, c.pos, c.idle + 1⟩ : Spot).reach stop pos).obey subject (.roundEnd loop (stop + 2)) =
      .go (c.reach (if c.pos < pos then stop + 1 else stop + 2) pos) := by
  by_cases h : pos = c.pos
  · subst h
    simp only [reach, obey, if_true, Nat.succ_ne_zero, if_false, Nat.lt_irrefl, Nat.add_sub_cancel]
  · have hlt : c.pos < pos := by omega
    simp only [reach, obey, h, hlt, if_true, if_false, goto]

end Spot

end ByteRegex
