import ByteRegex.Program.Generator
import ByteRegex.Proofs.Core.Basic

/-!
# Code without a size limit

`Core.code` gives the block of a core expression outright: how much room a part takes is known from
`Core.extent`, so every target is known before the code it points to. Counted repetitions are plain
repetitions here; nothing is moved.
-/

namespace ByteRegex

attribute [ext] Place

namespace Place

def offset (p d : Place) : Place :=
  ⟨p.address + d.address, p.splits + d.splits, p.loops + d.loops⟩

def nextRound (p : Place) : Place := { p with address := p.address + 1, loops := p.loops + 1 }

/-- The room that a round takes when its body takes `d`. -/
def ofRound (watched : Bool) (d : Place) : Place :=
  if watched then ⟨d.address + 2, d.splits, d.loops + 1⟩ else d

theorem offset_start (p : Place) : p.offset .start = p := rfl

theorem offset_offset (p d d' : Place) : (p.offset d).offset d' = p.offset (d.offset d') := by
  simp only [offset, Nat.add_assoc]

end Place

namespace Block

theorem append_assoc (a b c : Block) : a ++ b ++ c = a ++ (b ++ c) := by
  show append (append a b) c = append a (append b c)
  simp only [append, Array.append_assoc]

theorem append_nil (a : Block) (p : Place) : a ++ nil p = a := by
  show append a (nil p) = a
  simp only [append, nil, Array.append_empty]

theorem nil_append {b : Block} {p : Place} (h : b.start = p) : nil p ++ b = b := by
  subst h
  show append (nil b.start) b = b
  simp only [append, nil, Array.empty_append]

theorem stop_nil (p : Place) : (nil p).stop = p := rfl

theorem stop_single (p : Place) (instr : Instr) : (single p instr).stop = p.next := rfl

def round (watched : Bool) (d : Place) (body : Place → Option Nat → Block) (p : Place)
    (scope : Option Nat) : Block :=
  if watched then
    let stop := p.nextRound.offset d
    roundStart p scope ++ body p.nextRound (some p.loops) ++
      single stop (.roundEnd p.loops (stop.address + 2))
  else body p scope

end Block

theorem Greed.start_split (greed : Greed) (p : Place) (scope : Option Nat) (prefer other : Nat) :
    (greed.split p scope prefer other).start = p := by
  cases greed <;> rfl

theorem Greed.stop_split (greed : Greed) (p : Place) (scope : Option Nat) (prefer other : Nat) :
    (greed.split p scope prefer other).stop = p.nextSplit := by
  cases greed <;> rfl

namespace Core

/-- The room that the code of an expression takes. -/
def extent : Core → Place
  | nothing => .start
  | atom _ => ⟨1, 0, 0⟩
  | seq a b => a.extent.offset b.extent
  | either a b => ⟨a.extent.address + b.extent.address + 2, a.extent.splits + b.extent.splits + 1,
      a.extent.loops + b.extent.loops⟩
  | optional a _ => ⟨a.extent.address + 1, a.extent.splits + 1, a.extent.loops⟩
  | star watched a _ =>
    let d := Place.ofRound watched a.extent
    ⟨d.address + 2, d.splits + 1, d.loops⟩
  | plus watched a _ =>
    let d := Place.ofRound watched a.extent
    ⟨d.address + 1, d.splits + 1, d.loops⟩

def after (c : Core) (p : Place) : Place :=
  p.offset c.extent

def code : Core → (p : Place) → (scope : Option Nat) → Block
  | nothing, p, _ => .nil p
  | atom a, p, _ => .single p a.instr
  | seq a b, p, scope => a.code p scope ++ b.code (a.after p) scope
  | either a b, p, scope =>
    let jump := a.after p.nextSplit
    .split p scope p.nextSplit.address jump.next.address ++ a.code p.nextSplit scope ++
      .single jump (.jump (b.after jump.next).address) ++ b.code jump.next scope
  | optional a greed, p, scope =>
    greed.split p scope p.nextSplit.address (a.after p.nextSplit).address ++
      a.code p.nextSplit scope
  | star watched a greed, p, scope =>
    let jump := p.nextSplit.offset (.ofRound watched a.extent)
    greed.split p scope p.nextSplit.address jump.next.address ++
      Block.round watched a.extent (fun p scope => a.code p scope) p.nextSplit scope ++
      .single jump (.jump p.address)
  | plus watched a greed, p, scope =>
    let choice := p.offset (.ofRound watched a.extent)
    Block.round watched a.extent (fun p scope => a.code p scope) p scope ++
      greed.split choice scope p.address choice.nextSplit.address

/-! ## The places behind code -/

theorem after_seq (a b : Core) (p : Place) : (seq a b).after p = b.after (a.after p) :=
  (Place.offset_offset _ _ _).symm

theorem after_either (a b : Core) (p : Place) :
    (either a b).after p = b.after (a.after p.nextSplit).next := by
  ext <;> simp only [after, extent, Place.offset, Place.next, Place.nextSplit] <;> omega

theorem after_optional (a : Core) (greed : Greed) (p : Place) :
    (optional a greed).after p = a.after p.nextSplit := by
  ext <;> simp only [after, extent, Place.offset, Place.nextSplit] <;> omega

theorem after_star (watched : Bool) (a : Core) (greed : Greed) (p : Place) :
    (star watched a greed).after p = (p.nextSplit.offset (.ofRound watched a.extent)).next := by
  ext <;> simp only [after, extent, Place.offset, Place.next, Place.nextSplit] <;> omega

theorem after_plus (watched : Bool) (a : Core) (greed : Greed) (p : Place) :
    (plus watched a greed).after p = (p.offset (.ofRound watched a.extent)).nextSplit := by
  ext <;> simp only [after, extent, Place.offset, Place.nextSplit] <;> omega

/-- A watched round ends with the instruction behind its body. -/
theorem offset_ofRound (a : Core) (p : Place) :
    p.offset (.ofRound true a.extent) = (a.after p.nextRound).next := by
  ext <;> simp only [after, Place.ofRound, Place.offset, Place.nextRound, Place.next,
    if_true] <;> omega

theorem le_after (c : Core) (p : Place) : p.address ≤ (c.after p).address := Nat.le_add_right _ _

/-! ## Where code starts and stops -/

theorem start_round {watched : Bool} {a : Core} (p : Place) (scope : Option Nat)
    (ha : ∀ p scope, (a.code p scope).start = p) :
    (Block.round watched a.extent a.code p scope).start = p := by
  cases watched
  · exact ha p scope
  · rfl

theorem start_code (c : Core) (p : Place) (scope : Option Nat) : (c.code p scope).start = p := by
  induction c generalizing p scope with
  | nothing => rfl
  | atom a => rfl
  | seq a b iha _ => exact iha p scope
  | either a b _ _ => rfl
  | optional a greed _ => exact greed.start_split p scope _ _
  | star watched a greed _ => exact greed.start_split p scope _ _
  | plus watched a greed ih => exact start_round p scope ih

section Stops

variable {watched : Bool} {a : Core} {greed : Greed} {p : Place} {scope : Option Nat}
  (ha : ∀ p scope, (a.code p scope).stop = a.after p)

include ha

theorem stop_round :
    (Block.round watched a.extent a.code p scope).stop = p.offset (.ofRound watched a.extent) := by
  cases watched
  · exact ha p scope
  · have hbody : (Block.roundStart p scope ++ a.code p.nextRound (some p.loops)).stop =
        a.after p.nextRound := (Block.stop_append (start_code a _ _)).trans (ha _ _)
    rw [offset_ofRound]
    exact Block.stop_append hbody.symm

theorem stop_split_code (first second : Nat) :
    (Block.split p scope first second ++ a.code p.nextSplit scope).stop = a.after p.nextSplit :=
  (Block.stop_append (start_code a _ _)).trans (ha _ _)

theorem stop_split_code_jump (first second target : Nat) :
    (Block.split p scope first second ++ a.code p.nextSplit scope ++
      Block.single (a.after p.nextSplit) (.jump target)).stop = (a.after p.nextSplit).next :=
  (Block.stop_append (stop_split_code ha first second).symm).trans (Block.stop_single _ _)

theorem stop_split_round (prefer other : Nat) :
    (greed.split p scope prefer other ++
      Block.round watched a.extent a.code p.nextSplit scope).stop =
        p.nextSplit.offset (.ofRound watched a.extent) := by
  rw [Block.stop_append, stop_round ha]
  rw [start_round _ _ (start_code a), Greed.stop_split]

end Stops

theorem stop_code (c : Core) (p : Place) (scope : Option Nat) :
    (c.code p scope).stop = c.after p := by
  induction c generalizing p scope with
  | nothing => rfl
  | atom a => rfl
  | seq a b iha ihb =>
    rw [after_seq, ← ihb (a.after p) scope]
    refine Block.stop_append ?_
    rw [start_code, iha]
  | either a b iha ihb =>
    rw [after_either, ← ihb (a.after p.nextSplit).next scope]
    refine Block.stop_append ?_
    rw [start_code, stop_split_code_jump iha]
  | optional a greed ih =>
    rw [after_optional, ← ih p.nextSplit scope]
    refine Block.stop_append ?_
    rw [start_code, Greed.stop_split]
  | star watched a greed ih =>
    rw [after_star]
    exact Block.stop_append (stop_split_round ih _ _).symm
  | plus watched a greed ih =>
    rw [after_plus, ← Greed.stop_split greed]
    refine Block.stop_append ?_
    rw [Greed.start_split, stop_round ih]

/-! ## Code without instructions -/

theorem extent_le (c : Core) : c.extent.splits + c.extent.loops ≤ c.extent.address := by
  have hround : ∀ (watched : Bool) (d : Place), d.splits + d.loops ≤ d.address →
      (Place.ofRound watched d).splits + (Place.ofRound watched d).loops ≤
        (Place.ofRound watched d).address := by
    intro watched d h
    cases watched
    · exact h
    · simp only [Place.ofRound, if_true]
      omega
  induction c with
  | nothing => exact Nat.le_refl 0
  | atom a => exact Nat.zero_le 1
  | seq a b iha ihb | either a b iha ihb => simp only [extent, Place.offset]; omega
  | optional a greed ih => simp only [extent]; omega
  | star watched a greed ih | plus watched a greed ih =>
    have h := hround watched a.extent ih
    simp only [extent]
    omega

theorem address_stop (c : Core) (p : Place) (scope : Option Nat) :
    p.address + (c.code p scope).instrs.size = (c.after p).address := by
  have h := congrArg Place.address (stop_code c p scope)
  rwa [Block.stop, start_code] at h

/-- A block without instructions has no entries in its tables either. -/
theorem code_eq_nil {c : Core} (h : c.extent.address = 0) (p : Place) (scope : Option Nat) :
    c.code p scope = .nil p ∧ c.after p = p := by
  have hle := extent_le c
  have hafter : c.after p = p := by
    ext <;> simp only [after, Place.offset] <;> omega
  have hstop := (stop_code c p scope).trans hafter
  have hstart := start_code c p scope
  generalize c.code p scope = b at hstop hstart
  obtain ⟨start, instrs, splitScopes, loopParents⟩ := b
  obtain rfl : start = p := hstart
  simp only [Block.stop, Place.ext_iff] at hstop
  obtain rfl : instrs = #[] := Array.eq_empty_of_size_eq_zero (by omega)
  obtain rfl : splitScopes = #[] := Array.eq_empty_of_size_eq_zero (by omega)
  obtain rfl : loopParents = #[] := Array.eq_empty_of_size_eq_zero (by omega)
  exact ⟨rfl, hafter⟩

/-! ## Code of lists and of repetitions -/

theorem after_sequence_cons (c : Core) (cs : List Core) (p : Place) :
    (sequence (c :: cs)).after p = (sequence cs).after (c.after p) := by
  cases cs with
  | nil => rfl
  | cons d ds => exact after_seq c _ p

theorem code_sequence_cons (c : Core) (cs : List Core) (p : Place) (scope : Option Nat) :
    (sequence (c :: cs)).code p scope = c.code p scope ++ (sequence cs).code (c.after p) scope := by
  cases cs with
  | nil => exact (Block.append_nil _ _).symm
  | cons d ds => rfl

theorem after_sequence_append (cs ds : List Core) (p : Place) :
    (sequence (cs ++ ds)).after p = (sequence ds).after ((sequence cs).after p) := by
  induction cs generalizing p with
  | nil => rfl
  | cons c cs ih => rw [List.cons_append, after_sequence_cons, after_sequence_cons, ih]

theorem code_sequence_append (cs ds : List Core) (p : Place) (scope : Option Nat) :
    (sequence (cs ++ ds)).code p scope =
      (sequence cs).code p scope ++ (sequence ds).code ((sequence cs).after p) scope := by
  induction cs generalizing p with
  | nil => exact (Block.nil_append (start_code _ p scope)).symm
  | cons c cs ih =>
    rw [List.cons_append, code_sequence_cons, code_sequence_cons, ih, after_sequence_cons,
      Block.append_assoc]

theorem after_options_succ (c : Core) (greed : Greed) (n : Nat) (p : Place) :
    (options c greed (n + 1)).after p = (options c greed n).after (c.after p.nextSplit) := by
  cases n with
  | zero => exact after_optional c greed p
  | succ n => exact (after_optional _ greed p).trans (after_seq c _ p.nextSplit)

theorem after_le_after_options (c : Core) (greed : Greed) (n : Nat) (p : Place) :
    (c.after p.nextSplit).address ≤ ((options c greed (n + 1)).after p).address := by
  rw [after_options_succ]
  exact le_after _ _

theorem code_options_succ (c : Core) (greed : Greed) (n : Nat) (p : Place) (scope : Option Nat) :
    (options c greed (n + 1)).code p scope =
      greed.split p scope p.nextSplit.address ((options c greed (n + 1)).after p).address ++
        c.code p.nextSplit scope ++ (options c greed n).code (c.after p.nextSplit) scope := by
  rw [after_options_succ]
  cases n with
  | zero => exact (Block.append_nil _ _).symm
  | succ n =>
    rw [Block.append_assoc]
    show greed.split p scope _ ((seq c (options c greed (n + 1))).after p.nextSplit).address ++
      _ = _
    rw [after_seq]
    rfl

theorem address_options (c : Core) (greed : Greed) (n : Nat) (p : Place) :
    ((options c greed n).after p).address = p.address + n * (c.extent.address + 1) := by
  induction n generalizing p with
  | zero => simp only [options, after, extent, Place.offset, Place.start, Nat.zero_mul]
  | succ n ih =>
    rw [after_options_succ, ih]
    simp only [after, Place.offset, Place.nextSplit, Nat.succ_mul]
    omega

end Core

end ByteRegex
