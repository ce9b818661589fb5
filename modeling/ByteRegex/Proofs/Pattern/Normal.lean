import ByteRegex.Pattern.Reader

/-!
# The form of expressions that are read

The text of a pattern says more than an expression has to: a list of parts that is written down has
at least two of them and is not the part of another one, a quantifier has one piece as its operand,
and groups are numbered as they open. The reader keeps this true of everything on its stack.
-/

namespace ByteRegex

namespace Expr

/-- Whether the expression can stand between bars. -/
def isBranch : Expr → Bool
  | alternate _ => false
  | _ => true

/-- Whether the expression can be one part of a branch. -/
def isPiece : Expr → Bool
  | concat _ | alternate _ => false
  | _ => true

def isOperand : Expr → Bool
  | concat _ | alternate _ | star _ _ | plus _ _ | optional _ _ | repeated _ _ _ _ => false
  | _ => true

/-- The form of the expressions that patterns denote. -/
inductive Normal : Expr → Prop where
  | byte (b : UInt8) : Normal (byte b)
  | any : Normal any
  | oneOf (s : ByteSet) : Normal (oneOf s)
  | textStart : Normal textStart
  | textEnd : Normal textEnd
  | concat {es : List Expr} (hlength : 2 ≤ es.length) (hes : ∀ e ∈ es, Normal e)
      (hpieces : ∀ e ∈ es, e.isPiece = true) : Normal (concat es)
  | alternate {es : List Expr} (hlength : 2 ≤ es.length) (hes : ∀ e ∈ es, Normal e)
      (hbranches : ∀ e ∈ es, e.isBranch = true) : Normal (alternate es)
  | star {e : Expr} (greed : Greed) (he : Normal e) (hoperand : e.isOperand = true) :
      Normal (star e greed)
  | plus {e : Expr} (greed : Greed) (he : Normal e) (hoperand : e.isOperand = true) :
      Normal (plus e greed)
  | optional {e : Expr} (greed : Greed) (he : Normal e) (hoperand : e.isOperand = true) :
      Normal (optional e greed)
  | repeated {e : Expr} {min : Nat} {max : Option Nat} (greed : Greed) (he : Normal e)
      (hoperand : e.isOperand = true) (hbounds : ∀ n, max = some n → min ≤ n) :
      Normal (repeated e min max greed)
  | group {e : Expr} (index : Option Nat) (he : Normal e) : Normal (group e index)

theorem Normal.of_mem_children {d e : Expr} (he : e.Normal) (h : d ∈ e.children) : d.Normal := by
  cases he with
  | byte b | any | oneOf s | textStart | textEnd => exact absurd h List.not_mem_nil
  | concat _ hes _ | alternate _ hes _ => exact hes d h
  | star greed he _ | plus greed he _ | optional greed he _ | repeated greed he _ _
  | group index he =>
    exact List.mem_singleton.mp h ▸ he

mutual

/-- The indices of the capturing groups, in the order in which the groups open. -/
def indices : Expr → List Nat
  | byte _ | any | oneOf _ | textStart | textEnd => []
  | concat es | alternate es => indicesAll es
  | star e _ | plus e _ | optional e _ | repeated e _ _ _ => e.indices
  | group e index => index.toList ++ e.indices

def indicesAll : List Expr → List Nat
  | [] => []
  | e :: es => e.indices ++ indicesAll es

end

theorem indicesAll_eq_flatMap (es : List Expr) : indicesAll es = es.flatMap indices := by
  induction es with
  | nil => rfl
  | cons e es ih => rw [indicesAll, ih, List.flatMap_cons]

theorem indices_concat (es : List Expr) : (Expr.concat es).indices = es.flatMap indices := by
  rw [indices, indicesAll_eq_flatMap]

theorem indices_alternate (es : List Expr) : (Expr.alternate es).indices = es.flatMap indices := by
  rw [indices, indicesAll_eq_flatMap]

theorem isPiece_of_isOperand {e : Expr} (h : e.isOperand = true) : e.isPiece = true := by
  cases e <;> first | rfl | exact absurd h Bool.false_ne_true

theorem isBranch_of_isPiece {e : Expr} (h : e.isPiece = true) : e.isBranch = true := by
  cases e <;> first | rfl | exact absurd h Bool.false_ne_true

end Expr

/-! ## Pieces and branches -/

namespace Quantifier

/-- A maximum is not below the minimum. -/
def Ordered : Quantifier → Prop
  | star | plus | optional => True
  | repeated min max => ∀ n, max = some n → min ≤ n

variable {q : Quantifier} {e : Expr}

theorem normal_apply (he : e.Normal) (hoperand : e.isOperand = true) (hq : q.Ordered)
    (greed : Greed) : (q.apply e greed).Normal := by
  cases q with
  | star => exact .star greed he hoperand
  | plus => exact .plus greed he hoperand
  | optional => exact .optional greed he hoperand
  | repeated min max => exact .repeated greed he hoperand hq

theorem isPiece_apply (greed : Greed) : (q.apply e greed).isPiece = true := by
  cases q <;> rfl

theorem indices_apply (greed : Greed) : (q.apply e greed).indices = e.indices := by
  cases q <;> rfl

end Quantifier

def Piece.Normal : Piece → Prop
  | atom e => e.Normal ∧ e.isOperand = true
  | quantified e q => e.Normal ∧ e.isOperand = true ∧ q.Ordered
  | sealed e => e.Normal ∧ e.isPiece = true

theorem Piece.Normal.expr {piece : Piece} (h : piece.Normal) :
    piece.expr.Normal ∧ piece.expr.isPiece = true := by
  cases piece with
  | atom e => exact ⟨h.1, Expr.isPiece_of_isOperand h.2⟩
  | quantified e q => exact ⟨Quantifier.normal_apply h.1 h.2.1 h.2.2 _, Quantifier.isPiece_apply _⟩
  | sealed e => exact h

namespace Branch

def Normal : Branch → Prop
  | empty => True
  | pieces earlier last => (∀ e ∈ earlier, e.Normal ∧ e.isPiece = true) ∧ last.Normal

def indices (branch : Branch) : List Nat :=
  branch.exprs.reverse.flatMap Expr.indices

variable {branch : Branch} {e : Expr}

theorem Normal.exprs (h : branch.Normal) : ∀ e ∈ branch.exprs, e.Normal ∧ e.isPiece = true := by
  cases branch with
  | empty => exact fun _ hmem => absurd hmem List.not_mem_nil
  | pieces earlier last =>
    intro e hmem
    rcases List.mem_cons.mp hmem with rfl | hmem
    · exact h.2.expr
    · exact h.1 e hmem

theorem Normal.push (h : branch.Normal) (he : e.Normal) (hoperand : e.isOperand = true) :
    (branch.push e).Normal :=
  ⟨h.exprs, he, hoperand⟩

theorem indices_push (branch : Branch) (e : Expr) :
    (branch.push e).indices = branch.indices ++ e.indices := by
  show (e :: branch.exprs).reverse.flatMap Expr.indices = _
  rw [List.reverse_cons, List.flatMap_append, List.flatMap_singleton]
  rfl

theorem indices_pieces {earlier : List Expr} {last last' : Piece}
    (h : last.expr.indices = last'.expr.indices) :
    (pieces earlier last).indices = (pieces earlier last').indices := by
  show (last.expr :: earlier).reverse.flatMap Expr.indices =
    (last'.expr :: earlier).reverse.flatMap Expr.indices
  simp only [List.reverse_cons, List.flatMap_append, List.flatMap_singleton, h]

theorem Normal.close (h : branch.Normal) (hclose : branch.close? = some e) :
    e.Normal ∧ e.isBranch = true ∧ e.indices = branch.indices := by
  have hexprs := h.exprs
  unfold close? at hclose
  unfold indices
  split at hclose
  · cases hclose
  · next e' heq =>
    obtain rfl := Option.some.inj hclose
    have he := hexprs e' (by rw [heq]; exact List.mem_cons_self)
    refine ⟨he.1, Expr.isBranch_of_isPiece he.2, ?_⟩
    rw [heq, List.reverse_singleton, List.flatMap_singleton]
  · next hnil hone =>
    obtain rfl := Option.some.inj hclose
    have hlength : 2 ≤ branch.exprs.length := by
      match hes : branch.exprs with
      | [] => exact absurd hes hnil
      | [e] => exact absurd hes (hone e)
      | _ :: _ :: _ => exact Nat.le_add_left 2 _
    have hmem : ∀ e ∈ branch.exprs.reverse, e.Normal ∧ e.isPiece = true :=
      fun e he => hexprs e (List.mem_reverse.mp he)
    refine ⟨.concat ?_ (fun e he => (hmem e he).1) (fun e he => (hmem e he).2), rfl,
      Expr.indices_concat _⟩
    rwa [List.length_reverse]

end Branch

/-! ## Levels -/

namespace Level

structure Normal (level : Level) : Prop where
  complete : ∀ e ∈ level.complete, e.Normal ∧ e.isBranch = true
  branch : level.branch.Normal

def indices (level : Level) : List Nat :=
  level.complete.reverse.flatMap Expr.indices ++ level.branch.indices

variable {level level' : Level} {e : Expr}

theorem normal_opened (start : Nat) : (opened start).Normal :=
  ⟨fun _ hmem => absurd hmem List.not_mem_nil, trivial⟩

theorem Normal.push (h : level.Normal) (he : e.Normal) (hoperand : e.isOperand = true) :
    (level.push e).Normal :=
  ⟨h.complete, h.branch.push he hoperand⟩

theorem indices_push (level : Level) (e : Expr) :
    (level.push e).indices = level.indices ++ e.indices := by
  show level.complete.reverse.flatMap Expr.indices ++ (level.branch.push e).indices = _
  rw [Branch.indices_push, ← List.append_assoc]
  rfl

theorem Normal.nextBranch {start : Nat} (h : level.Normal)
    (hnext : level.nextBranch start = .ok level') :
    level'.Normal ∧ level'.indices = level.indices := by
  unfold Level.nextBranch at hnext
  split at hnext
  · cases hnext
  · next e hclose =>
    obtain rfl := Except.ok.inj hnext
    obtain ⟨he, hbranch, hindices⟩ := h.branch.close hclose
    refine ⟨⟨fun e' hmem => ?_, trivial⟩, ?_⟩
    · rcases List.mem_cons.mp hmem with rfl | hmem
      · exact ⟨he, hbranch⟩
      · exact h.complete e' hmem
    · show (e :: level.complete).reverse.flatMap Expr.indices ++ [] = _
      rw [List.append_nil, List.reverse_cons, List.flatMap_append, List.flatMap_singleton, hindices]
      rfl

theorem Normal.close (h : level.Normal) (hclose : level.close = .ok e) :
    e.Normal ∧ e.indices = level.indices := by
  unfold Level.close at hclose
  split at hclose
  · cases hclose
  · next e' hbranch =>
    obtain ⟨he, hisBranch, hindices⟩ := h.branch.close hbranch
    split at hclose
    · next hcomplete =>
      obtain rfl := Except.ok.inj hclose
      refine ⟨he, ?_⟩
      rw [Level.indices, hcomplete, hindices]
      rfl
    · next hcomplete =>
      obtain rfl := Except.ok.inj hclose
      have hall : ∀ e'' ∈ (e' :: level.complete).reverse, e''.Normal ∧ e''.isBranch = true := by
        intro e'' hmem
        rcases List.mem_cons.mp (List.mem_reverse.mp hmem) with rfl | hmem
        · exact ⟨he, hisBranch⟩
        · exact h.complete e'' hmem
      refine ⟨.alternate ?_ (fun e he => (hall e he).1) (fun e he => (hall e he).2), ?_⟩
      · rw [List.length_reverse, List.length_cons]
        have := List.length_pos_iff.mpr hcomplete
        omega
      · rw [Expr.indices_alternate, List.reverse_cons, List.flatMap_append, List.flatMap_singleton,
          hindices]
        rfl

end Level

end ByteRegex
