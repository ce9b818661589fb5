import ByteRegex.Proofs.Core.Generator

/-!
# Code in a program

A block is loaded in a program when the program has its instructions and its table entries where the
block says they stand. The parts of loaded code are loaded, so that what a piece of code does is
proved once, for every program that it is part of.
-/

namespace ByteRegex

/-- The entries of `part` stand in `whole` from the index `n` on. -/
def Held {α : Type} (whole part : Array α) (n : Nat) : Prop :=
  ∀ i, i < part.size → whole[n + i]? = part[i]?

namespace Held

variable {α : Type} {whole part rest : Array α} {n : Nat}

theorem empty : Held whole #[] n := fun _ h => absurd h (Nat.not_lt_zero _)

theorem self : Held whole whole 0 := fun i _ => congrArg (whole[·]?) (Nat.zero_add i)

theorem singleton_iff {a : α} : Held whole #[a] n ↔ whole[n]? = some a := by
  constructor
  · intro h
    exact h 0 Nat.zero_lt_one
  · intro h i hi
    obtain rfl : i = 0 := Nat.lt_one_iff.mp hi
    exact h

theorem append_iff :
    Held whole (part ++ rest) n ↔ Held whole part n ∧ Held whole rest (n + part.size) := by
  constructor
  · intro h
    refine ⟨fun i hi => ?_, fun i hi => ?_⟩
    · rw [h i (by rw [Array.size_append]; omega), Array.getElem?_append_left hi]
    · rw [Nat.add_assoc, h (part.size + i) (by rw [Array.size_append]; omega),
        Array.getElem?_append_right (by omega), Nat.add_sub_cancel_left]
  · rintro ⟨hpart, hrest⟩ i hi
    rw [Array.size_append] at hi
    by_cases hlt : i < part.size
    · rw [hpart i hlt, Array.getElem?_append_left hlt]
    · have h := hrest (i - part.size) (by omega)
      rw [show n + part.size + (i - part.size) = n + i by omega] at h
      rw [h, Array.getElem?_append_right (by omega)]

end Held

namespace Block

/-- The program has the block where the block says it stands. -/
structure LoadedIn (b : Block) (p : Program) : Prop where
  instrs : Held p.instrs b.instrs b.start.address
  splitScopes : Held p.splitScopes b.splitScopes b.start.splits
  loopParents : Held p.loopParents b.loopParents b.start.loops

variable {p : Program} {q : Place} {scope : Option Nat}

theorem loadedIn_append {a b : Block} (h : b.start = a.stop) :
    (a ++ b).LoadedIn p ↔ a.LoadedIn p ∧ b.LoadedIn p := by
  constructor
  · rintro ⟨hi, hs, hl⟩
    rw [instrs_append, start_append, Held.append_iff] at hi
    rw [splitScopes_append, start_append, Held.append_iff] at hs
    rw [loopParents_append, start_append, Held.append_iff] at hl
    refine ⟨⟨hi.1, hs.1, hl.1⟩, ⟨?_, ?_, ?_⟩⟩ <;> rw [h]
    · exact hi.2
    · exact hs.2
    · exact hl.2
  · rintro ⟨ha, ⟨hi, hs, hl⟩⟩
    rw [h] at hi hs hl
    exact ⟨Held.append_iff.mpr ⟨ha.instrs, hi⟩, Held.append_iff.mpr ⟨ha.splitScopes, hs⟩,
      Held.append_iff.mpr ⟨ha.loopParents, hl⟩⟩

theorem loadedIn_single {instr : Instr} :
    (single q instr).LoadedIn p ↔ p.instrs[q.address]? = some instr :=
  ⟨fun h => Held.singleton_iff.mp h.instrs, fun h => ⟨Held.singleton_iff.mpr h, .empty, .empty⟩⟩

theorem loadedIn_split {first second : Nat} :
    (split q scope first second).LoadedIn p ↔
      p.instrs[q.address]? = some (.split q.splits first second) ∧
        p.splitScopes[q.splits]? = some scope :=
  ⟨fun h => ⟨Held.singleton_iff.mp h.instrs, Held.singleton_iff.mp h.splitScopes⟩,
    fun h => ⟨Held.singleton_iff.mpr h.1, Held.singleton_iff.mpr h.2, .empty⟩⟩

theorem loadedIn_roundStart :
    (roundStart q scope).LoadedIn p ↔
      p.instrs[q.address]? = some (.roundStart q.loops) ∧ p.loopParents[q.loops]? = some scope :=
  ⟨fun h => ⟨Held.singleton_iff.mp h.instrs, Held.singleton_iff.mp h.loopParents⟩,
    fun h => ⟨Held.singleton_iff.mpr h.1, .empty, Held.singleton_iff.mpr h.2⟩⟩

end Block

def Greed.splitInstr (greed : Greed) (id prefer other : Nat) : Instr :=
  match greed with
  | .greedy => .split id prefer other
  | .lazy => .split id other prefer

theorem Greed.loadedIn_split {p : Program} {q : Place} {scope : Option Nat} {greed : Greed}
    {prefer other : Nat} :
    (greed.split q scope prefer other).LoadedIn p ↔
      p.instrs[q.address]? = some (greed.splitInstr q.splits prefer other) ∧
        p.splitScopes[q.splits]? = some scope := by
  cases greed
  · exact Block.loadedIn_split
  · exact Block.loadedIn_split

namespace Core

def LoadedAt (c : Core) (p : Program) (q : Place) (scope : Option Nat) : Prop :=
  (c.code q scope).LoadedIn p

def RoundAt (watched : Bool) (c : Core) (p : Program) (q : Place) (scope : Option Nat) : Prop :=
  (Block.round watched c.extent c.code q scope).LoadedIn p

variable {a b c : Core} {cs ds : List Core} {p : Program} {q : Place} {scope : Option Nat}
    {greed : Greed}
  {watched : Bool}

theorem loadedAt_atom {a : Atom} :
    (atom a).LoadedAt p q scope ↔ p.instrs[q.address]? = some a.instr := Block.loadedIn_single

theorem loadedAt_seq :
    (seq a b).LoadedAt p q scope ↔ a.LoadedAt p q scope ∧ b.LoadedAt p (a.after q) scope :=
  Block.loadedIn_append ((start_code _ _ _).trans (stop_code _ _ _).symm)

theorem loadedAt_either :
    (either a b).LoadedAt p q scope ↔
      (p.instrs[q.address]? =
          some (.split q.splits q.nextSplit.address (a.after q.nextSplit).next.address) ∧
        p.splitScopes[q.splits]? = some scope) ∧
      a.LoadedAt p q.nextSplit scope ∧
      p.instrs[(a.after q.nextSplit).address]? =
        some (.jump (b.after (a.after q.nextSplit).next).address) ∧
      b.LoadedAt p (a.after q.nextSplit).next scope := by
  have ha := stop_code a
  have hfirst : ∀ x y, (a.code q.nextSplit scope).start = (Block.split q scope x y).stop :=
    fun _ _ => start_code a _ _
  have hsecond : ∀ x y z, (b.code (a.after q.nextSplit).next scope).start =
      (Block.split q scope x y ++ a.code q.nextSplit scope ++
        Block.single (a.after q.nextSplit) (.jump z)).stop :=
    fun x y z => (start_code b _ _).trans (stop_split_code_jump ha x y z).symm
  rw [LoadedAt, code, Block.loadedIn_append (hsecond _ _ _),
    Block.loadedIn_append (stop_split_code ha _ _).symm, Block.loadedIn_append (hfirst _ _),
    Block.loadedIn_split, Block.loadedIn_single, and_assoc, and_assoc]
  rfl

theorem loadedAt_optional :
    (optional a greed).LoadedAt p q scope ↔
      (p.instrs[q.address]? =
          some (greed.splitInstr q.splits q.nextSplit.address (a.after q.nextSplit).address) ∧
        p.splitScopes[q.splits]? = some scope) ∧
      a.LoadedAt p q.nextSplit scope := by
  rw [LoadedAt, code, Block.loadedIn_append, Greed.loadedIn_split]
  · rfl
  · rw [start_code, Greed.stop_split]

theorem loadedAt_star :
    (star watched a greed).LoadedAt p q scope ↔
      (p.instrs[q.address]? = some (greed.splitInstr q.splits q.nextSplit.address
          (q.nextSplit.offset (.ofRound watched a.extent)).next.address) ∧
        p.splitScopes[q.splits]? = some scope) ∧
      a.RoundAt watched p q.nextSplit scope ∧
      p.instrs[(q.nextSplit.offset (.ofRound watched a.extent)).address]? =
        some (.jump q.address) := by
  have hstart : ∀ x y, (Block.round watched a.extent a.code q.nextSplit scope).start =
      (greed.split q scope x y).stop := by
    intro x y
    rw [start_round _ _ (start_code a), Greed.stop_split]
  rw [LoadedAt, code, Block.loadedIn_append, Block.loadedIn_append (hstart _ _),
    Greed.loadedIn_split, Block.loadedIn_single, and_assoc]
  · rfl
  · exact (stop_split_round (stop_code a) _ _).symm

theorem loadedAt_plus :
    (plus watched a greed).LoadedAt p q scope ↔
      a.RoundAt watched p q scope ∧
      p.instrs[(q.offset (.ofRound watched a.extent)).address]? =
        some (greed.splitInstr (q.offset (.ofRound watched a.extent)).splits q.address
          (q.offset (.ofRound watched a.extent)).nextSplit.address) ∧
      p.splitScopes[(q.offset (.ofRound watched a.extent)).splits]? = some scope := by
  rw [LoadedAt, code, Block.loadedIn_append, Greed.loadedIn_split]
  · rfl
  · rw [Greed.start_split, stop_round (stop_code a)]

theorem roundAt_watched :
    a.RoundAt true p q scope ↔
      (p.instrs[q.address]? = some (.roundStart q.loops) ∧ p.loopParents[q.loops]? = some scope) ∧
      a.LoadedAt p q.nextRound (some q.loops) ∧
      p.instrs[(a.after q.nextRound).address]? =
        some (.roundEnd q.loops ((a.after q.nextRound).address + 2)) := by
  have hstart : (a.code q.nextRound (some q.loops)).start = (Block.roundStart q scope).stop :=
    start_code a _ _
  rw [RoundAt, Block.round, if_pos rfl, Block.loadedIn_append, Block.loadedIn_append hstart,
    Block.loadedIn_roundStart, Block.loadedIn_single, and_assoc]
  · rfl
  · rw [Block.stop_append hstart, stop_code]
    rfl

/-! ## Lists and repetitions -/

theorem loadedAt_sequence_cons :
    (sequence (c :: cs)).LoadedAt p q scope ↔
      c.LoadedAt p q scope ∧ (sequence cs).LoadedAt p (c.after q) scope := by
  rw [LoadedAt, code_sequence_cons, Block.loadedIn_append]
  · rfl
  · rw [start_code, stop_code]

theorem loadedAt_sequence_append :
    (sequence (cs ++ ds)).LoadedAt p q scope ↔
      (sequence cs).LoadedAt p q scope ∧
      (sequence ds).LoadedAt p ((sequence cs).after q) scope := by
  rw [LoadedAt, code_sequence_append, Block.loadedIn_append]
  · rfl
  · rw [start_code, stop_code]

theorem loadedAt_options_succ {n : Nat} (h : (options c greed (n + 1)).LoadedAt p q scope) :
    c.LoadedAt p q.nextSplit scope ∧
      (options c greed n).LoadedAt p (c.after q.nextSplit) scope := by
  have hfirst :
      ∀ prefer other, (c.code q.nextSplit scope).start = (greed.split q scope prefer other).stop :=
    fun _ _ => (start_code c _ _).trans (greed.stop_split _ _ _ _).symm
  rw [LoadedAt, code_options_succ, Block.loadedIn_append, Block.loadedIn_append (hfirst _ _)] at h
  · exact ⟨h.1.2, h.2⟩
  · rw [start_code, Block.stop_append (hfirst _ _), stop_code]

theorem loadedAt_repeated_none {min : Nat}
    (h : (repeated watched c (min + 2) none greed).LoadedAt p q scope) :
    c.LoadedAt p q scope ∧ (sequence (List.replicate min c)).LoadedAt p (c.after q) scope ∧
      (plus watched c greed).LoadedAt p
        ((sequence (List.replicate min c)).after (c.after q)) scope := by
  obtain ⟨hc, h⟩ := loadedAt_sequence_cons.mp h
  exact ⟨hc, loadedAt_sequence_append.mp h⟩

theorem loadedAt_repeated_some {min max : Nat}
    (h : (repeated watched c (min + 1) (some max) greed).LoadedAt p q scope) :
    c.LoadedAt p q scope ∧ (sequence (List.replicate min c)).LoadedAt p (c.after q) scope ∧
      (options c greed (max - (min + 1))).LoadedAt p
        ((sequence (List.replicate min c)).after (c.after q)) scope := by
  rw [repeated_succ_some] at h
  obtain ⟨hc, h⟩ := loadedAt_sequence_cons.mp h
  have hparts := loadedAt_sequence_append.mp h
  rw [sequence_options] at hparts
  exact ⟨hc, hparts⟩

/-! ## Programs -/

theorem size_program (c : Core) (captures : Nat) :
    (c.program captures).size = c.extent.address + 1 := by
  have hcode : (c.code .start none).instrs.size = c.extent.address := by
    have h := address_stop c .start none
    rwa [after, Place.offset, Place.start, Nat.zero_add, Nat.zero_add] at h
  show (c.code .start none ++ Block.single (c.after .start) .accept).instrs.size = _
  rw [Block.instrs_append, Array.size_append, hcode]
  rfl

/-- A program has its own code, and the instruction that accepts behind it. -/
theorem loadedAt_program (c : Core) (captures : Nat) :
    c.LoadedAt (c.program captures) .start none ∧
      (c.program captures).instrs[(c.after .start).address]? = some .accept := by
  have hwhole : (c.code .start none ++ Block.single (c.after .start) .accept).LoadedIn
      (c.program captures) := by
    constructor <;> rw [Block.start_append, start_code] <;> exact Held.self
  rw [Block.loadedIn_append (stop_code c _ _).symm, Block.loadedIn_single] at hwhole
  exact hwhole

end Core

end ByteRegex
