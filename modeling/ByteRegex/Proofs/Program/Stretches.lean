import ByteRegex.Proofs.Program.Scopes

/-!
# Between two splits

Code leads on to higher addresses, except that a loop leads back to its split. So from one split to
the next the machine executes no instruction twice.
-/

namespace ByteRegex

def Instr.isSplit : Instr → Bool
  | .split _ _ _ => true
  | _ => false

namespace Program

/-- A bound on the number of instructions from an address up to the next split, that one
included. -/
def stretch (p : Program) (a : Nat) : Nat :=
  if (p.instrs[a]?).any Instr.isSplit then 1 else p.size - a

/-- The address `b` is one of the program, and nearer to the next split than the address `a`. -/
structure Nears (p : Program) (a b : Nat) : Prop where
  lt_size : b < p.size
  stretch_lt : p.stretch b < p.stretch a

/-- The instruction at `a` leads on inside the program, and unless it is a split, nearer to the next
one. -/
def Advances (p : Program) (a : Nat) : Instr → Prop
  | .accept => True
  | .split _ first second => first < p.size ∧ second < p.size
  | .jump target => p.Nears a target
  | .roundEnd _ exit => p.Nears a exit ∧ p.Nears a (a + 1)
  | _ => p.Nears a (a + 1)

def Advancing (p : Program) : Prop :=
  ∀ a instr, p.instrs[a]? = some instr → p.Advances a instr

variable {p : Program} {a b : Nat} {instr : Instr}

theorem stretch_of_split (h : p.instrs[a]? = some instr) (hsplit : instr.isSplit = true) :
    p.stretch a = 1 := by
  rw [stretch, h, Option.any_some, if_pos hsplit]

theorem stretch_of_not_split (h : p.instrs[a]? = some instr) (hsplit : instr.isSplit = false) :
    p.stretch a = p.size - a := by
  rw [stretch, h, Option.any_some, hsplit, if_neg Bool.false_ne_true]

theorem stretch_le (h : a < p.size) : p.stretch a ≤ p.size - a := by
  unfold stretch
  split
  · omega
  · exact Nat.le_refl _

theorem stretch_pos (h : a < p.size) : 0 < p.stretch a := by
  unfold stretch
  split
  · exact Nat.zero_lt_one
  · omega

theorem nears_of_lt (h : p.instrs[a]? = some instr) (hsplit : instr.isSplit = false) (hab : a < b)
    (hb : b < p.size) : p.Nears a b := by
  have hle := stretch_le hb
  have heq := stretch_of_not_split h hsplit
  exact ⟨hb, by omega⟩

theorem nears_split {split : Instr} (h : p.instrs[a]? = some instr) (hsplit : instr.isSplit = false)
    (ha : a + 1 < p.size) (hb : p.instrs[b]? = some split) (hb' : split.isSplit = true) :
    p.Nears a b := by
  have hone := stretch_of_split hb hb'
  have heq := stretch_of_not_split h hsplit
  exact ⟨(Array.getElem?_eq_some_iff.mp hb).1, by omega⟩

theorem advances_greed {greed : Greed} {id prefer other : Nat} (hprefer : prefer < p.size)
    (hother : other < p.size) : p.Advances a (greed.splitInstr id prefer other) := by
  cases greed
  · exact ⟨hprefer, hother⟩
  · exact ⟨hother, hprefer⟩

theorem advances_atom {atom : Atom} (h : p.instrs[a]? = some atom.instr) (hnext : a + 1 < p.size) :
    p.Advances a atom.instr := by
  have hnears : atom.instr.isSplit = false → p.Nears a (a + 1) :=
    fun hsplit => nears_of_lt h hsplit (Nat.lt_succ_self a) hnext
  cases atom <;> exact hnears rfl

end Program

namespace Core

variable {p : Program} {q : Place} {scope : Option Nat}

theorem advances_round {watched : Bool} {c : Core} (hc : c.RoundAt watched p q scope)
    (hend : (q.offset (.ofRound watched c.extent)).address + 1 < p.size)
    (ih : ∀ {q scope}, c.LoadedAt p q scope → (c.after q).address < p.size →
      p.Throughout p.Advances q.address (c.after q).address) :
    p.Throughout p.Advances q.address (q.offset (.ofRound watched c.extent)).address := by
  cases watched with
  | false => exact ih hc (Nat.lt_of_succ_lt hend)
  | true =>
    obtain ⟨⟨hstart, _⟩, hbody, hstop⟩ := roundAt_watched.mp hc
    have hle : q.address + 1 ≤ (c.after q.nextRound).address := le_after c q.nextRound
    rw [offset_ofRound] at hend ⊢
    have hend : (c.after q.nextRound).address + 1 + 1 < p.size := hend
    refine .append (.append (.single hstart ?_) (ih hbody (by omega))) (.single hstop ⟨?_, ?_⟩)
    · exact Program.nears_of_lt hstart rfl (Nat.lt_succ_self _) (by omega)
    · exact Program.nears_of_lt hstop rfl (by omega) hend
    · exact Program.nears_of_lt hstop rfl (Nat.lt_succ_self _) (by omega)

/-- Code leads on inside a program that does not end before the code does. -/
theorem advances_code {c : Core} (hc : c.LoadedAt p q scope) (hend : (c.after q).address < p.size) :
    p.Throughout p.Advances q.address (c.after q).address := by
  induction c generalizing q scope with
  | nothing => exact .empty
  | atom a => exact .single (loadedAt_atom.mp hc) (Program.advances_atom (loadedAt_atom.mp hc) hend)
  | seq a b iha ihb =>
    obtain ⟨ha, hb⟩ := loadedAt_seq.mp hc
    rw [after_seq] at hend ⊢
    exact (iha ha (Nat.lt_of_le_of_lt (le_after b _) hend)).append (ihb hb hend)
  | either a b iha ihb =>
    obtain ⟨⟨hsplit, _⟩, ha, hjump, hb⟩ := loadedAt_either.mp hc
    rw [after_either] at hend ⊢
    have hfirst : q.address + 1 ≤ (a.after q.nextSplit).address := le_after a q.nextSplit
    have hsecond :
        (a.after q.nextSplit).address + 1 ≤ (b.after (a.after q.nextSplit).next).address :=
      le_after b (a.after q.nextSplit).next
    refine .append
      (.append (.append (.single hsplit ⟨?_, ?_⟩) (iha ha (by omega))) (.single hjump ?_))
      (ihb hb hend)
    · show q.address + 1 < p.size
      omega
    · show (a.after q.nextSplit).address + 1 < p.size
      omega
    · exact Program.nears_of_lt hjump rfl hsecond hend
  | optional a greed ih =>
    obtain ⟨⟨hsplit, _⟩, ha⟩ := loadedAt_optional.mp hc
    rw [after_optional] at hend ⊢
    have hbody : q.address + 1 ≤ (a.after q.nextSplit).address := le_after a q.nextSplit
    exact .append (.single hsplit (Program.advances_greed (Nat.lt_of_le_of_lt hbody hend) hend))
      (ih ha hend)
  | star watched a greed ih =>
    obtain ⟨⟨hsplit, _⟩, hround, hjump⟩ := loadedAt_star.mp hc
    rw [after_star] at hend ⊢
    have hbody : q.address + 1 ≤ (q.nextSplit.offset (.ofRound watched a.extent)).address :=
      Nat.le_add_right _ _
    have hjumps : (q.nextSplit.offset (.ofRound watched a.extent)).address + 1 < p.size := hend
    refine .append (.append (.single hsplit (Program.advances_greed ?_ hend))
      (advances_round hround hend ih)) (.single hjump ?_)
    · show q.address + 1 < p.size
      omega
    · -- The only way back: the jump of a loop leads to the split in front of it.
      exact Program.nears_split hjump rfl hend hsplit (by cases greed <;> rfl)
  | plus watched a greed ih =>
    obtain ⟨hround, hsplit, _⟩ := loadedAt_plus.mp hc
    rw [after_plus] at hend ⊢
    have hbody : q.address ≤ (q.offset (.ofRound watched a.extent)).address := Nat.le_add_right _ _
    have hchoice : (q.offset (.ofRound watched a.extent)).address + 1 < p.size := hend
    exact .append (advances_round hround hend ih)
      (.single hsplit (Program.advances_greed (by omega) hend))

/-- In the program of a core expression every instruction leads on. -/
theorem advancing_program (c : Core) (captures : Nat) : (c.program captures).Advancing := by
  have hend : (c.after .start).address < (c.program captures).size := by
    have hstop : (c.after .start).address = c.extent.address := Nat.zero_add _
    rw [size_program, hstop]
    exact Nat.lt_succ_self _
  have hcode := advances_code (loadedAt_program c captures).1 hend
  exact fun a instr ha => forall_of_throughout hcode trivial ha

end Core

end ByteRegex
