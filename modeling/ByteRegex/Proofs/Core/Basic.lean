import ByteRegex.Expr.Basic
import ByteRegex.Program.Instr

/-!
# Core expressions

Code is generated from few constructs: one instruction, one part after another, a choice, and loops.
A core expression has these and nothing else. `Expr.core` spells out lists of parts and counted
repetitions, so that what is true of code is proved by induction over two-armed trees.
-/

namespace ByteRegex

/-- An expression that takes one instruction. -/
inductive Atom where
  | byte (b : UInt8)
  | any
  | oneOf (s : ByteSet)
  | textStart
  | textEnd
  /-- Nothing, and records the offset in a slot. -/
  | save (slot : Nat)

def Atom.instr : Atom → Instr
  | byte b => .byte b
  | any => .any
  | oneOf s => .oneOf s
  | textStart => .textStart
  | textEnd => .textEnd
  | save slot => .save slot

/-- An expression as code is generated from it. A loop tells whether its rounds are watched. -/
inductive Core where
  | nothing
  | atom (a : Atom)
  | seq (a b : Core)
  | either (a b : Core)
  | optional (a : Core) (greed : Greed)
  | star (watched : Bool) (a : Core) (greed : Greed)
  | plus (watched : Bool) (a : Core) (greed : Greed)

namespace Core

def sequence : List Core → Core
  | [] => nothing
  | [c] => c
  | c :: cs => seq c (sequence cs)

/-- One of the parts, the ones further left preferred; nothing if there are no parts. -/
def branches : List Core → Core
  | [] => nothing
  | [c] => c
  | c :: cs => either c (branches cs)

/-- Up to `n` times, each time after a choice inside the one before. -/
def options (c : Core) (greed : Greed) : (n : Nat) → Core
  | 0 => nothing
  | 1 => optional c greed
  | n + 2 => optional (seq c (options c greed (n + 1))) greed

def repeated (watched : Bool) (c : Core) (min : Nat) (max : Option Nat) (greed : Greed) : Core :=
  match min, max with
  | 0, none => star watched c greed
  | 0, some 0 => nothing
  | 1, none => plus watched c greed
  | min, none => sequence (List.replicate (min - 1) c ++ [plus watched c greed])
  | min, some max =>
    sequence (List.replicate min c ++ if min < max then [options c greed (max - min)] else [])

theorem repeated_succ_some (watched : Bool) (c : Core) (min max : Nat) (greed : Greed) :
    repeated watched c (min + 1) (some max) greed =
      sequence (c :: (List.replicate min c ++
        if min + 1 < max then [options c greed (max - (min + 1))] else [])) := by
  cases min <;> cases max <;> rfl

theorem sequence_options (c : Core) (min max : Nat) (greed : Greed) :
    sequence (if min < max then [options c greed (max - min)] else []) =
      options c greed (max - min) := by
  by_cases h : min < max
  · rw [if_pos h, sequence]
  · rw [if_neg h, Nat.sub_eq_zero_of_le (Nat.le_of_not_lt h), sequence, options]

/-- What is true of a loop, of optional copies and of sequences is true of a repetition. -/
theorem repeated_induct {P : Core → Prop} {watched : Bool} {c : Core} {greed : Greed} (hc : P c)
    (hstar : P (star watched c greed)) (hplus : P (plus watched c greed))
    (hoptions : ∀ n, P (options c greed n)) (hsequence : ∀ cs, (∀ d ∈ cs, P d) → P (sequence cs))
    (min : Nat) (max : Option Nat) : P (repeated watched c min max greed) := by
  have hcopies :
      ∀ n (ds : List Core), (∀ d ∈ ds, P d) → P (sequence (List.replicate n c ++ ds)) := by
    intro n ds hds
    refine hsequence _ (fun d hd => ?_)
    rcases List.mem_append.mp hd with hd | hd
    · exact List.eq_of_mem_replicate hd ▸ hc
    · exact hds d hd
  have hrest : ∀ min max, ∀ d ∈ (if min < max then [options c greed (max - min)] else []), P d := by
    intro min max d hd
    split at hd
    · exact List.mem_singleton.mp hd ▸ hoptions _
    · exact absurd hd List.not_mem_nil
  match min, max with
  | 0, none => exact hstar
  | 0, some 0 => exact hoptions 0
  | 1, none => exact hplus
  | min + 2, none => exact hcopies (min + 1) _ (fun d hd => List.mem_singleton.mp hd ▸ hplus)
  | 0, some (max + 1) => exact hcopies 0 _ (hrest 0 (max + 1))
  | min + 1, some max =>
    rw [repeated_succ_some]
    exact hcopies (min + 1) _ (hrest (min + 1) max)

def nullable : Core → Bool
  | nothing => true
  | atom a =>
    match a with
    | .byte _ | .any | .oneOf _ => false
    | .textStart | .textEnd | .save _ => true
  | seq a b => a.nullable && b.nullable
  | either a b => a.nullable || b.nullable
  | optional _ _ | star _ _ _ => true
  | plus _ a _ => a.nullable

/-- Every round that is not watched reads something. -/
def Watchful : Core → Prop
  | nothing | atom _ => True
  | seq a b | either a b => a.Watchful ∧ b.Watchful
  | optional a _ => a.Watchful
  | star watched a _ | plus watched a _ => a.Watchful ∧ (watched = false → a.nullable = false)

end Core

namespace Expr

mutual

def core : Expr → Core
  | byte b => .atom (.byte b)
  | any => .atom .any
  | oneOf s => .atom (.oneOf s)
  | textStart => .atom .textStart
  | textEnd => .atom .textEnd
  | concat es => .sequence (coreAll es)
  | alternate es => .branches (coreAll es)
  | star e greed => .star e.nullable e.core greed
  | plus e greed => .plus e.nullable e.core greed
  | optional e greed => .optional e.core greed
  | repeated e min max greed => .repeated e.nullable e.core min max greed
  | group e (some index) =>
    .seq (.atom (.save (2 * index))) (.seq e.core (.atom (.save (2 * index + 1))))
  | group e none => e.core

def coreAll : List Expr → List Core
  | [] => []
  | e :: es => e.core :: coreAll es

end

theorem coreAll_eq_map (es : List Expr) : coreAll es = es.map core := by
  induction es with
  | nil => rfl
  | cons e es ih => rw [coreAll, ih, List.map_cons]

/-- Induction over an expression, with one hypothesis for every part of a list. -/
@[elab_as_elim]
theorem induct {P : Expr → Prop} (byte : ∀ b, P (byte b)) (any : P any) (oneOf : ∀ s, P (oneOf s))
    (textStart : P textStart) (textEnd : P textEnd)
    (concat : ∀ es, (∀ e ∈ es, P e) → P (concat es))
    (alternate : ∀ es, (∀ e ∈ es, P e) → P (alternate es))
    (star : ∀ e greed, P e → P (star e greed)) (plus : ∀ e greed, P e → P (plus e greed))
    (optional : ∀ e greed, P e → P (optional e greed))
    (repeated : ∀ e min max greed, P e → P (repeated e min max greed))
    (group : ∀ e index, P e → P (group e index)) (e : Expr) : P e :=
  @Expr.rec P (fun es => ∀ e ∈ es, P e) byte any oneOf textStart textEnd concat alternate star plus
    optional repeated group (fun _ h => absurd h List.not_mem_nil)
    (fun _ _ he hes _ hmem => (List.mem_cons.mp hmem).elim (fun h => h ▸ he) (hes _)) e

end Expr

end ByteRegex
