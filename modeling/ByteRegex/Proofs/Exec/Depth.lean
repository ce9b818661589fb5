import ByteRegex.Proofs.Exec.Reach

/-!
# How long paths can be

A path goes round a loop only as often as the rounds read something, so loops inside loops make
paths that are at most polynomially long in the subject: `n` instructions that are entered at one
end and left at the other take up fewer than `(length + 2) ^ n` instructions of a path.
-/

namespace ByteRegex

def pathRoom (length n : Nat) : Nat :=
  (length + 2) ^ n - 1

section Arithmetic

variable (length m n : Nat)

theorem pathRoom_add_one : pathRoom length n + 1 = (length + 2) ^ n :=
  Nat.sub_add_cancel (Nat.pow_pos (Nat.succ_pos _))

theorem pathRoom_add : pathRoom length m + pathRoom length n ≤ pathRoom length (m + n) := by
  have hm := pathRoom_add_one length m
  have hn := pathRoom_add_one length n
  have hmn := pathRoom_add_one length (m + n)
  rw [Nat.pow_add, ← hm, ← hn, Nat.succ_mul, Nat.mul_succ] at hmn
  omega

theorem le_pathRoom : n ≤ pathRoom length n := by
  induction n with
  | zero => exact Nat.zero_le _
  | succ n ih =>
    have hone : pathRoom length 1 = length + 1 := by
      rw [pathRoom, Nat.pow_one]
      omega
    have h := pathRoom_add length n 1
    omega

theorem mul_pathRoom : (length + 1) * (pathRoom length n + 1) ≤ pathRoom length (n + 1) := by
  have hn := pathRoom_add_one length n
  have hsucc := pathRoom_add_one length (n + 1)
  have hpos : 0 < (length + 2) ^ n := Nat.pow_pos (Nat.succ_pos _)
  rw [Nat.pow_succ, Nat.mul_comm, Nat.succ_mul] at hsucc
  rw [hn]
  omega

theorem mul_pathRoom_add : (length + 1) * (pathRoom length n + 2) ≤ pathRoom length (n + 2) := by
  have hone : 1 ≤ pathRoom length 1 := le_pathRoom length 1
  have hsucc := pathRoom_add length n 1
  calc
    (length + 1) * (pathRoom length n + 2) ≤ (length + 1) * (pathRoom length (n + 1) + 1) :=
      Nat.mul_le_mul_left _ (by omega)
    _ ≤ pathRoom length (n + 2) := mul_pathRoom length (n + 1)

end Arithmetic

/-- Paths through the code between the addresses `a` and `b` take at most `d` instructions, and read
something if `reads` says so. -/
def Shallow (t : Task) (a b : Nat) (reads : Bool) (d : Nat) : Prop :=
  ∀ (c : Spot) (n : Nat), c.address = a → c.pos ≤ t.subject.size →
    (∀ j, c.pos ≤ j → j ≤ t.subject.size → (reads = true → c.pos < j) → (c.reach b j).EndsIn t n) →
      c.EndsIn t (n + d)

/-- The same for a round of a loop, which leaves the loop, one address further on, if it reads
nothing. -/
def ShallowRound (t : Task) (a b : Nat) (reads : Bool) (d : Nat) : Prop :=
  ∀ (c : Spot) (n : Nat), c.address = a → c.pos ≤ t.subject.size →
    (∀ j, c.pos ≤ j → j ≤ t.subject.size → (reads = true → c.pos < j) →
      (c.reach (if c.pos < j then b else b + 1) j).EndsIn t n) → c.EndsIn t (n + d)

namespace Spot

variable {t : Task} {c d : Spot} {n : Nat}

theorem EndsIn.go (h : c.turn t = .go d) (hd : d.EndsIn t n) : c.EndsIn t (n + 1) := by
  intro e he
  rw [h] at he
  exact List.mem_singleton.mp he ▸ hd

theorem EndsIn.save {slot : Nat} (h : c.turn t = .save slot d) (hd : d.EndsIn t n) :
    c.EndsIn t (n + 1) := by
  intro e he
  rw [h] at he
  exact List.mem_singleton.mp he ▸ hd

theorem EndsIn.fail (h : c.turn t = .fail) : c.EndsIn t (n + 1) := by
  intro e he
  rw [h] at he
  exact absurd he List.not_mem_nil

theorem EndsIn.accept (h : c.turn t = .accept) : c.EndsIn t (n + 1) := by
  intro e he
  rw [h] at he
  exact absurd he List.not_mem_nil

theorem EndsIn.greed {greed : Greed} {a b : Spot} (h : c.turn t = greed.choose a b)
    (ha : a.EndsIn t n) (hb : b.EndsIn t n) : c.EndsIn t (n + 1) := by
  intro e he
  rw [h, Greed.mem_spots_choose] at he
  rcases he with rfl | rfl
  · exact ha
  · exact hb

end Spot

namespace Shallow

variable {t : Task} {a b m d d' : Nat} {reads reads' : Bool}

theorem mono (h : Shallow t a b reads d) (hd : d ≤ d') : Shallow t a b reads d' := by
  intro c n hc hpos hexit
  exact (h c n hc hpos hexit).mono (by omega)

theorem empty : Shallow t a a false 0 := by
  intro c n hc hpos hexit
  subst hc
  have h := hexit c.pos (Nat.le_refl _) hpos (fun h => absurd h Bool.false_ne_true)
  rwa [Spot.reach_self] at h

theorem andThen (hf : Shallow t a m reads d) (hg : Shallow t m b reads' d') :
    Shallow t a b (reads || reads') (d + d') := by
  intro c n hc hpos hexit
  rw [Nat.add_comm d, ← Nat.add_assoc]
  refine hf c (n + d') hc hpos (fun j hle hj hlt => ?_)
  refine hg (c.reach m j) n rfl hj (fun k hle' hk hlt' => ?_)
  rw [Spot.reach_reach hle hle']
  refine hexit k (Nat.le_trans hle hle') hk (fun h => ?_)
  rcases Bool.or_eq_true_iff.mp h with h | h
  · exact Nat.lt_of_lt_of_le (hlt h) hle'
  · exact Nat.lt_of_le_of_lt hle (hlt' h)

theorem read {accepts : UInt8 → Bool} (h : ∀ c : Spot, c.address = a →
    c.turn t = c.read t.subject accepts) : Shallow t a (a + 1) true 1 := by
  intro c n hc _ hexit
  have hturn := h c hc
  subst hc
  by_cases hpos : c.pos < t.subject.size
  · by_cases haccepts : accepts t.subject[c.pos] = true
    · simp only [Spot.read, hpos, haccepts, dif_pos, if_true] at hturn
      have hnext := hexit (c.pos + 1) (Nat.le_succ _) hpos (fun _ => Nat.lt_succ_self _)
      rw [Spot.reach_of_lt (Nat.lt_succ_self _)] at hnext
      exact .go hturn hnext
    · simp only [Spot.read, hpos, haccepts, dif_pos, Bool.false_eq_true, if_false] at hturn
      exact .fail hturn
  · simp only [Spot.read, hpos, dif_neg, not_false_eq_true] at hturn
    exact .fail hturn

theorem require {condition : Spot → Bool} (h : ∀ c : Spot, c.address = a →
    c.turn t = c.require (condition c)) : Shallow t a (a + 1) false 1 := by
  intro c n hc hpos hexit
  have hturn := h c hc
  subst hc
  by_cases hcondition : condition c = true
  · simp only [Spot.require, hcondition, if_true] at hturn
    have hnext := hexit c.pos (Nat.le_refl _) hpos (fun h => absurd h Bool.false_ne_true)
    rw [Spot.reach_self] at hnext
    exact .go hturn hnext
  · simp only [Spot.require, hcondition, Bool.false_eq_true, if_false] at hturn
    exact .fail hturn

theorem record {slot : Nat} (h : ∀ c : Spot, c.address = a →
    c.turn t = .save slot (c.goto (c.address + 1))) : Shallow t a (a + 1) false 1 := by
  intro c n hc hpos hexit
  have hturn := h c hc
  subst hc
  have hnext := hexit c.pos (Nat.le_refl _) hpos (fun h => absurd h Bool.false_ne_true)
  rw [Spot.reach_self] at hnext
  exact .save hturn hnext

/-! ## Loops -/

theorem round_unwatched (hf : Shallow t a b true d) : ShallowRound t a b true d := by
  intro c n hc hpos hexit
  refine hf c n hc hpos (fun j hle hj hlt => ?_)
  have h := hexit j hle hj hlt
  rwa [if_pos (hlt rfl)] at h

theorem round_watched {loop : Nat} (hf : Shallow t (a + 1) b reads d)
    (hstart : t.program.instrs[a]? = some (.roundStart loop))
    (hend : t.program.instrs[b]? = some (.roundEnd loop (b + 2))) :
    ShallowRound t a (b + 1) reads (d + 2) := by
  intro c n hc hpos hexit
  subst hc
  have hbody : Spot.EndsIn t (n + 1 + d) ⟨c.address + 1, c.pos, c.idle + 1⟩ := by
    refine hf _ _ rfl hpos (fun j hle hj hlt => ?_)
    have hle' : c.pos ≤ j := hle
    have hround := Spot.obey_roundEnd_reach t.subject hle' (c.address + 1) loop b
    exact .go ((Spot.turn_eq hend).trans hround) (hexit j hle hj hlt)
  exact (Spot.EndsIn.go (Spot.turn_eq hstart) hbody).mono (by omega)

theorem plus {greed : Greed} {id : Nat} (hf : ShallowRound t a b reads d)
    (hsplit : t.program.instrs[b]? = some (greed.splitInstr id a (b + 1))) :
    Shallow t a (b + 1) reads ((t.subject.size + 1) * (d + 1)) := by
  intro c n hc hpos hexit
  have hrounds : c.EndsIn t (n + (t.subject.size - c.pos + 1) * (d + 1)) := by
    -- Induction on what is left of the subject, which each round but the last makes shorter.
    induction hk : t.subject.size - c.pos using Nat.strongRecOn generalizing c with
    | ind k ih =>
      have hsucc : n + (k + 1) * (d + 1) = n + k * (d + 1) + 1 + d := by
        rw [Nat.succ_mul]
        omega
      rw [hsucc]
      refine hf c _ hc hpos (fun j hle hj hlt => ?_)
      by_cases hmore : c.pos < j
      · have hagain : (c.reach a j).EndsIn t (n + (t.subject.size - j + 1) * (d + 1)) := by
          refine ih _ (by omega) (c.reach a j) rfl hj (fun j' hle' hj' _ => ?_) rfl
          rw [Spot.reach_reach hle hle']
          exact hexit j' (Nat.le_trans hle hle') hj' (fun _ => Nat.lt_of_lt_of_le hmore hle')
        have hrest : (t.subject.size - j + 1) * (d + 1) ≤ k * (d + 1) :=
          Nat.mul_le_mul_right _ (by omega)
        rw [if_pos hmore]
        have hturn := Spot.turn_eq (c := c.reach b j) hsplit
        exact .greed (hturn.trans (Spot.obey_splitInstr ..)) (hagain.mono (by omega))
          ((hexit j hle hj hlt).mono (by omega))
      · have h := hexit j hle hj hlt
        rw [if_neg hmore]
        exact h.mono (by omega)
  refine hrounds.mono (Nat.add_le_add_left (Nat.mul_le_mul_right _ ?_) n)
  omega

theorem star {greed : Greed} {id : Nat} (hf : ShallowRound t (a + 1) b reads d)
    (hsplit : t.program.instrs[a]? = some (greed.splitInstr id (a + 1) (b + 1)))
    (hjump : t.program.instrs[b]? = some (.jump a)) :
    Shallow t a (b + 1) false ((t.subject.size + 1) * (d + 2)) := by
  intro c n hc hpos hexit
  have hrounds : c.EndsIn t (n + (t.subject.size - c.pos + 1) * (d + 2)) := by
    -- As for a plus, with two more instructions for each round: the split and the jump.
    induction hk : t.subject.size - c.pos using Nat.strongRecOn generalizing c with
    | ind k ih =>
      subst hc
      have hsucc : n + (k + 1) * (d + 2) = n + k * (d + 2) + 1 + d + 1 := by
        rw [Nat.succ_mul]
        omega
      have hleave := hexit c.pos (Nat.le_refl _) hpos (fun h => absurd h Bool.false_ne_true)
      rw [Spot.reach_self] at hleave
      rw [hsucc]
      refine .greed ((Spot.turn_eq hsplit).trans (Spot.obey_splitInstr ..)) ?_
        (hleave.mono (by omega))
      refine hf (c.goto (c.address + 1)) _ rfl hpos (fun j hle hj _ => ?_)
      show (c.reach (if c.pos < j then b else b + 1) j).EndsIn t _
      have hle' : c.pos ≤ j := hle
      by_cases hmore : c.pos < j
      · have hagain : (c.reach c.address j).EndsIn t (n + (t.subject.size - j + 1) * (d + 2)) := by
          refine ih _ (by omega) (c.reach c.address j) rfl hj (fun i hi hi' _ => ?_) rfl
          rw [Spot.reach_reach hle' hi]
          exact hexit i (Nat.le_trans hle' hi) hi' (fun h => absurd h Bool.false_ne_true)
        have hrest : (t.subject.size - j + 1) * (d + 2) ≤ k * (d + 2) :=
          Nat.mul_le_mul_right _ (by omega)
        rw [if_pos hmore]
        have hturn := Spot.turn_eq (c := c.reach b j) hjump
        exact .go hturn (hagain.mono (by omega))
      · have h := hexit j hle hj (fun h => absurd h Bool.false_ne_true)
        rw [if_neg hmore]
        exact h.mono (by omega)
  refine hrounds.mono (Nat.add_le_add_left (Nat.mul_le_mul_right _ ?_) n)
  omega

/-! ## Choices -/

theorem either {id : Nat} (hf : Shallow t (a + 1) m reads d) (hg : Shallow t (m + 1) b reads' d')
    (hsplit : t.program.instrs[a]? = some (.split id (a + 1) (m + 1)))
    (hjump : t.program.instrs[m]? = some (.jump b)) :
    Shallow t a b (reads && reads') (d + d' + 2) := by
  intro c n hc hpos hexit
  subst hc
  have hsplit' : t.program.instrs[c.address]? = some (Greed.greedy.splitInstr id _ _) := hsplit
  have hfirst : (c.goto (c.address + 1)).EndsIn t (n + 1 + d) := by
    refine hf _ _ rfl hpos (fun j hle hj hlt => ?_)
    have hturn := Spot.turn_eq (c := c.reach m j) hjump
    exact .go hturn (hexit j hle hj (fun h => hlt (Bool.and_eq_true_iff.mp h).1))
  have hsecond : (c.goto (m + 1)).EndsIn t (n + d') :=
    hg _ _ rfl hpos (fun j hle hj hlt =>
      hexit j hle hj (fun h => hlt (Bool.and_eq_true_iff.mp h).2))
  have h : c.EndsIn t (n + d + d' + 1 + 1) :=
    .greed ((Spot.turn_eq hsplit').trans (Spot.obey_splitInstr ..)) (hfirst.mono (by omega))
      (hsecond.mono (by omega))
  exact h.mono (by omega)

theorem optional {greed : Greed} {id : Nat} (hf : Shallow t (a + 1) b reads d)
    (hsplit : t.program.instrs[a]? = some (greed.splitInstr id (a + 1) b)) :
    Shallow t a b false (d + 1) := by
  intro c n hc hpos hexit
  subst hc
  have hbody : (c.goto (c.address + 1)).EndsIn t (n + d) :=
    hf _ _ rfl hpos (fun j hle hj _ => hexit j hle hj (fun h => absurd h Bool.false_ne_true))
  have hleave := hexit c.pos (Nat.le_refl _) hpos (fun h => absurd h Bool.false_ne_true)
  rw [Spot.reach_self] at hleave
  exact .greed ((Spot.turn_eq hsplit).trans (Spot.obey_splitInstr ..)) hbody
    (hleave.mono (Nat.le_add_right n d))

end Shallow

namespace Core

variable {t : Task} {q : Place} {scope : Option Nat}

theorem shallow_atom {a : Atom} (h : t.program.instrs[q.address]? = some a.instr) :
    Shallow t q.address (q.address + 1) (!(atom a).nullable) 1 := by
  have hturn : ∀ c : Spot, c.address = q.address → c.turn t = c.obey t.subject a.instr :=
    fun c hc => Spot.turn_eq (hc ▸ h)
  cases a with
  | byte b =>
    have hread : ∀ c : Spot, c.address = q.address → c.turn t = c.read t.subject (· == b) := hturn
    exact .read hread
  | any =>
    have hread : ∀ c : Spot, c.address = q.address → c.turn t = c.read t.subject (fun _ => true) :=
      hturn
    exact .read hread
  | oneOf s => exact .read hturn
  | textStart =>
    have hrequire : ∀ c : Spot, c.address = q.address → c.turn t = c.require (c.pos == 0) := hturn
    exact .require hrequire
  | textEnd =>
    have hrequire : ∀ c : Spot, c.address = q.address →
        c.turn t = c.require (c.pos == t.subject.size) := hturn
    exact .require hrequire
  | save slot => exact .record hturn

theorem shallow_round {watched : Bool} {c : Core} (hc : c.RoundAt watched t.program q scope)
    (hreads : watched = false → c.nullable = false)
    (ih : ∀ {q scope}, c.LoadedAt t.program q scope →
      Shallow t q.address (c.after q).address (!c.nullable)
        (pathRoom t.subject.size c.extent.address)) :
    ShallowRound t q.address (q.offset (.ofRound watched c.extent)).address (!c.nullable)
      (pathRoom t.subject.size (Place.ofRound watched c.extent).address) := by
  cases watched with
  | false =>
    have h := ih hc
    rw [hreads rfl] at h ⊢
    exact Shallow.round_unwatched h
  | true =>
    obtain ⟨⟨hstart, _⟩, hbody, hend⟩ := roundAt_watched.mp hc
    have htwo := le_pathRoom t.subject.size 2
    have hroom := pathRoom_add t.subject.size c.extent.address 2
    rw [offset_ofRound]
    intro d n hd hpos hexit
    exact ((Shallow.round_watched (ih hbody) hstart hend) d n hd hpos hexit).mono
      (Nat.add_le_add_left (by simp only [Place.ofRound, if_true]; omega) n)

/-- Paths through the code of an expression stay within the bound for its instructions. -/
theorem shallow_code (c : Core) (hwatchful : c.Watchful) (hc : c.LoadedAt t.program q scope) :
    Shallow t q.address (c.after q).address (!c.nullable)
      (pathRoom t.subject.size c.extent.address) := by
  induction c generalizing q scope with
  | nothing => exact Shallow.empty.mono (Nat.zero_le _)
  | atom a => exact (shallow_atom (loadedAt_atom.mp hc)).mono (le_pathRoom _ 1)
  | seq a b iha ihb =>
    obtain ⟨ha, hb⟩ := loadedAt_seq.mp hc
    rw [after_seq, nullable, Bool.not_and]
    exact (Shallow.andThen (iha hwatchful.1 ha) (ihb hwatchful.2 hb)).mono (pathRoom_add _ _ _)
  | either a b iha ihb =>
    obtain ⟨⟨hsplit, _⟩, ha, hjump, hb⟩ := loadedAt_either.mp hc
    have htwo := le_pathRoom t.subject.size 2
    have hparts := pathRoom_add t.subject.size a.extent.address b.extent.address
    have hroom := pathRoom_add t.subject.size (a.extent.address + b.extent.address) 2
    rw [after_either, nullable, Bool.not_or]
    refine (Shallow.either (iha hwatchful.1 ha) (ihb hwatchful.2 hb) hsplit hjump).mono ?_
    simp only [extent]
    omega
  | optional a greed ih =>
    obtain ⟨⟨hsplit, _⟩, ha⟩ := loadedAt_optional.mp hc
    have hone := le_pathRoom t.subject.size 1
    have hroom := pathRoom_add t.subject.size a.extent.address 1
    rw [after_optional]
    refine (Shallow.optional (ih hwatchful ha) hsplit).mono ?_
    simp only [extent]
    omega
  | star watched a greed ih =>
    obtain ⟨⟨hsplit, _⟩, hround, hjump⟩ := loadedAt_star.mp hc
    rw [after_star]
    exact (Shallow.star (shallow_round hround hwatchful.2 (ih hwatchful.1)) hsplit hjump).mono
      (mul_pathRoom_add _ _)
  | plus watched a greed ih =>
    obtain ⟨hround, hsplit, _⟩ := loadedAt_plus.mp hc
    rw [after_plus]
    exact (Shallow.plus (shallow_round hround hwatchful.2 (ih hwatchful.1)) hsplit).mono
      (mul_pathRoom _ _)

/-- Every path through a program that starts in the subject comes to an end. -/
theorem endsIn_program {c : Core} {captures pos : Nat} (hwatchful : c.Watchful)
    (ht : t.program = c.program captures) (hpos : pos ≤ t.subject.size) :
    Spot.EndsIn t ((t.subject.size + 2) ^ c.extent.address) ⟨0, pos, 0⟩ := by
  obtain ⟨hc, haccept⟩ := loadedAt_program c captures
  rw [← ht] at hc haccept
  have hend : ∀ j, Spot.EndsIn t 1 ((⟨0, pos, 0⟩ : Spot).reach (c.after .start).address j) := by
    intro j
    have hturn := Spot.turn_eq (c := (⟨0, pos, 0⟩ : Spot).reach (c.after .start).address j) haccept
    exact .accept hturn
  have h := shallow_code c hwatchful hc ⟨0, pos, 0⟩ 1 rfl hpos (fun j _ _ _ => hend j)
  rwa [Nat.add_comm, pathRoom_add_one] at h

end Core

end ByteRegex
