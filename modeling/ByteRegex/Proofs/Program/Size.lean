import ByteRegex.Proofs.Core.Loaded
import Mathlib.Algebra.GroupWithZero.Nat

/-!
# How large programs are

The size limit is looked at with every instruction that is generated, those of copies included. What
comes of it depends on the expression alone: `Expr.codeSize` is the number of instructions that it
takes, wherever it stands, and a limit that leaves room for them changes nothing
(`Program.ofPattern_codeSize`).
-/

namespace ByteRegex

/-! ## Sizes of expressions -/

/-- A round that is watched has an instruction at its start and one at its end. -/
def roundSize (watched : Bool) (body : Nat) : Nat :=
  if watched then body + 2 else body

def starSize (watched : Bool) (body : Nat) : Nat := roundSize watched body + 2

def plusSize (watched : Bool) (body : Nat) : Nat := roundSize watched body + 1

/-- The size of a counted repetition. Each optional copy has a choice in front of it. -/
def repeatedSize (watched : Bool) (body : Nat) : (min : Nat) → (max : Option Nat) → Nat
  | 0, none => starSize watched body
  | 1, none => plusSize watched body
  | min, none => (min - 1) * body + plusSize watched body
  | 0, some max => max * (body + 1)
  | min, some max => min * body + (max - min) * (body + 1)

namespace Expr

mutual

/-- The number of instructions that the code of an expression takes. -/
def codeSize : Expr → Nat
  | byte _ | any | oneOf _ | textStart | textEnd => 1
  | concat es => codeSizeAll es
  | alternate es => codeSizeAll es + 2 * (es.length - 1)
  | star e _ => starSize e.nullable e.codeSize
  | plus e _ => plusSize e.nullable e.codeSize
  | optional e _ => e.codeSize + 1
  | repeated e min max _ => repeatedSize e.nullable e.codeSize min max
  | group e (some _) => e.codeSize + 2
  | group e none => e.codeSize

def codeSizeAll : List Expr → Nat
  | [] => 0
  | e :: es => e.codeSize + codeSizeAll es

end

end Expr

/-! ## Sizes of code -/

namespace Core

theorem address_ofRound (watched : Bool) (d : Place) :
    (Place.ofRound watched d).address = roundSize watched d.address := by
  cases watched <;> simp [Place.ofRound, roundSize]

theorem address_sequence (cs : List Core) :
    (sequence cs).extent.address = (cs.map fun c => c.extent.address).sum := by
  induction cs with
  | nil => rfl
  | cons c cs ih =>
    cases cs with
    | nil => simp [sequence]
    | cons d ds =>
      show c.extent.address + (sequence (d :: ds)).extent.address = _
      simp [ih]

theorem address_branches (cs : List Core) :
    (branches cs).extent.address =
      (cs.map fun c => c.extent.address).sum + 2 * (cs.length - 1) := by
  induction cs with
  | nil => rfl
  | cons c cs ih =>
    cases cs with
    | nil => simp [branches]
    | cons d ds =>
      show c.extent.address + (branches (d :: ds)).extent.address + 2 = _
      simp only [ih, List.map_cons, List.sum_cons, List.length_cons]
      omega

theorem extent_options (c : Core) (greed : Greed) (n : Nat) :
    (options c greed n).extent.address = n * (c.extent.address + 1) := by
  have h := address_options c greed n .start
  simpa [after, Place.offset, Place.start] using h

theorem address_repeated (watched : Bool) (c : Core) (min : Nat) (max : Option Nat)
    (greed : Greed) :
    (repeated watched c min max greed).extent.address =
      repeatedSize watched c.extent.address min max := by
  have hstar : (star watched c greed).extent.address = starSize watched c.extent.address := by
    simp [extent, starSize, address_ofRound]
  have hplus : (plus watched c greed).extent.address = plusSize watched c.extent.address := by
    simp [extent, plusSize, address_ofRound]
  -- Optional copies are generated only where the maximum lies above the minimum.
  have hoptions : ∀ min max, (List.map (fun c => c.extent.address)
      (if min < max then [options c greed (max - min)] else [])).sum =
        (max - min) * (c.extent.address + 1) := by
    intro min max
    by_cases h : min < max
    · simp [h, extent_options]
    · simp [h, Nat.sub_eq_zero_of_le (Nat.le_of_not_lt h)]
  cases max with
  | none =>
    rcases min with _ | _ | min
    · exact hstar
    · exact hplus
    · simp [repeated, repeatedSize, address_sequence, hplus]
  | some max =>
    cases min with
    | zero =>
      cases max with
      | zero => simp [repeated, repeatedSize, extent, Place.start]
      | succ max => exact extent_options c greed (max + 1)
    | succ min =>
      rw [repeated_succ_some, address_sequence, List.map_cons, List.map_append, List.sum_cons,
        List.sum_append, hoptions]
      simp only [List.map_replicate, List.sum_replicate_nat, repeatedSize, Nat.succ_mul]
      omega

end Core

namespace Expr

/-- The code of an expression has the size of the expression. -/
theorem address_core (e : Expr) : e.core.extent.address = e.codeSize := by
  have hall : ∀ es : List Expr, (∀ e ∈ es, e.core.extent.address = e.codeSize) →
      ((coreAll es).map fun c => c.extent.address).sum = codeSizeAll es := by
    intro es hes
    induction es with
    | nil => rfl
    | cons e es ih =>
      simp only [List.mem_cons, forall_eq_or_imp] at hes
      simp [coreAll, codeSizeAll, hes.1, ih hes.2]
  induction e using Expr.induct with
  | byte b | any | oneOf s | textStart | textEnd => rfl
  | concat es ih => simp [core, codeSize, Core.address_sequence, hall es ih]
  | alternate es ih =>
    have hlength : (coreAll es).length = es.length := by rw [coreAll_eq_map, List.length_map]
    simp [core, codeSize, Core.address_branches, hall es ih, hlength]
  | star e greed ih => simp [core, codeSize, starSize, Core.extent, Core.address_ofRound, ih]
  | plus e greed ih => simp [core, codeSize, plusSize, Core.extent, Core.address_ofRound, ih]
  | optional e greed ih => simp [core, codeSize, Core.extent, ih]
  | repeated e min max greed ih => rw [core, codeSize, Core.address_repeated, ih]
  | group e index ih =>
    cases index with
    | none => exact ih
    | some index =>
      simp only [core, codeSize, Core.extent, Place.offset, ih]
      omega

end Expr

/-! ## Sizes of programs -/

/-- A pattern has one program, which is three instructions larger than its expression: they record
where the match starts and where it ends, and accept. Every limit that is no less gives this
program, and any other is reported to be exceeded. -/
theorem Program.ofPattern_codeSize (pattern : Pattern) :
    ∃ p : Program, p.size = pattern.root.codeSize + 3 ∧
      ∀ limit, Program.ofPattern limit pattern =
        if pattern.root.codeSize + 3 ≤ limit then .ok p else .error ⟨limit⟩ := by
  have hsize : pattern.core.extent.address + 1 = pattern.root.codeSize + 3 := by
    have hcore : pattern.core.extent.address = 1 + (pattern.root.core.extent.address + 1) := rfl
    rw [hcore, Expr.address_core]
    omega
  refine ⟨pattern.core.program pattern.captures, ?_, fun limit => ?_⟩
  · rw [Core.size_program, hsize]
  · rw [Program.ofPattern_eq, hsize]

/-- Of the copies of a loop, the two mandatory ones take five instructions each and the optional one
six. -/
example :
    (Expr.repeated (.star (.optional (.byte 97) .greedy) .lazy) 2 (some 3) .greedy).codeSize = 19 :=
  rfl

end ByteRegex
