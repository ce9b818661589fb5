import ByteRegex.Proofs.Program.Scopes
import Mathlib.Logic.Relation

/-!
# The flow graph of a program

An edge leads from an instruction to each address where the machine may go on after it. Some edges
are taken only if the search has come further: behind an instruction that reads a byte, and behind
the end of a round that has read something. All the others are idle.

Compiled code has no dead instructions: `Core.flows_code`.
-/

namespace ByteRegex

/-- What it takes to go along an edge. -/
inductive EdgeKind where
  /-- Nothing. -/
  | idle
  /-- A byte is read. -/
  | reads
  /-- The round that ends here has read something. -/
  | advances
deriving DecidableEq

def Instr.edges (a : Nat) : Instr → List (EdgeKind × Nat)
  | .accept => []
  | .byte _ | .any | .oneOf _ => [(.reads, a + 1)]
  | .split _ first second => [(.idle, first), (.idle, second)]
  | .jump target => [(.idle, target)]
  | .save _ | .textStart | .textEnd | .roundStart _ => [(.idle, a + 1)]
  | .roundEnd _ exit => [(.advances, a + 1), (.idle, exit)]

theorem Greed.mem_edges_splitInstr {greed : Greed} {id prefer other a b : Nat} {kind : EdgeKind} :
    (kind, b) ∈ (greed.splitInstr id prefer other).edges a ↔
      kind = .idle ∧ (b = prefer ∨ b = other) := by
  cases greed <;> simp only [splitInstr, Instr.edges, List.mem_cons, Prod.mk.injEq,
    List.not_mem_nil, or_false, ← and_or_left]
  exact and_congr_right (fun _ => or_comm)

namespace Program

def Edge (p : Program) (a : Nat) (kind : EdgeKind) (b : Nat) : Prop :=
  ∃ instr, p.instrs[a]? = some instr ∧ (kind, b) ∈ instr.edges a

def Flows (p : Program) (a b : Nat) : Prop :=
  ∃ kind, p.Edge a kind b

/-- A walk from one address to another, with the kinds of its edges. -/
inductive Walk (p : Program) : (start : Nat) → List EdgeKind → (stop : Nat) → Prop where
  | nil {a} : Walk p a [] a
  | cons {a b c kind kinds} (h : p.Edge a kind b) (hrest : Walk p b kinds c) :
      Walk p a (kind :: kinds) c

variable {p : Program} {a b c : Nat} {kind : EdgeKind} {kinds kinds' : List EdgeKind}
    {instr : Instr}

theorem edge_of_instr (h : p.instrs[a]? = some instr) (hb : (kind, b) ∈ instr.edges a) :
    p.Edge a kind b := ⟨instr, h, hb⟩

theorem edge_greed {greed : Greed} {id prefer other : Nat}
    (h : p.instrs[a]? = some (greed.splitInstr id prefer other)) (hb : b = prefer ∨ b = other) :
    p.Edge a .idle b := edge_of_instr h (Greed.mem_edges_splitInstr.mpr ⟨rfl, hb⟩)

theorem Walk.append (h : p.Walk a kinds b) (h' : p.Walk b kinds' c) :
    p.Walk a (kinds ++ kinds') c := by
  induction h with
  | nil => exact h'
  | cons hedge _ ih => exact .cons hedge (ih h')

/-- Every address from `a` up to and including `b` can be reached from `a`. -/
def FlowsTo (p : Program) (a b : Nat) : Prop :=
  ∀ x, a ≤ x → x ≤ b → Relation.ReflTransGen p.Flows a x

namespace FlowsTo

theorem self : p.FlowsTo a a := by
  intro x hle hle'
  obtain rfl : x = a := by omega
  exact .refl

theorem append (hab : p.FlowsTo a b) (hle : a ≤ b) (hbc : p.FlowsTo b c) : p.FlowsTo a c := by
  intro x hx hx'
  by_cases h : x ≤ b
  · exact hab x hx h
  · exact (hab b hle (Nat.le_refl b)).trans (hbc x (by omega) hx')

/-- More code behind `b` that an edge from `a` leads to. -/
theorem behind (hab : p.FlowsTo a b) (h : p.Edge a kind (b + 1)) (hbc : p.FlowsTo (b + 1) c) :
    p.FlowsTo a c := by
  intro x hx hx'
  by_cases hb : x ≤ b
  · exact hab x hx hb
  · exact .head ⟨kind, h⟩ (hbc x (by omega) hx')

theorem step (h : p.Edge a kind (a + 1)) : p.FlowsTo a (a + 1) :=
  self.behind h self

end FlowsTo

end Program

namespace Core

variable {p : Program} {q : Place} {scope : Option Nat}

theorem flows_round {watched : Bool} {c : Core} (hc : c.RoundAt watched p q scope)
    (ih : ∀ {q scope}, c.LoadedAt p q scope → p.FlowsTo q.address (c.after q).address) :
    p.FlowsTo q.address (q.offset (.ofRound watched c.extent)).address := by
  cases watched with
  | false => exact ih hc
  | true =>
    obtain ⟨⟨hstart, _⟩, hbody, hend⟩ := roundAt_watched.mp hc
    rw [offset_ofRound]
    have hin := Program.FlowsTo.step (Program.edge_of_instr hstart List.mem_cons_self)
    have hout := Program.FlowsTo.step (Program.edge_of_instr hend List.mem_cons_self)
    exact (hin.append (Nat.le_succ _) (ih hbody)).append
      (Nat.le_of_succ_le (le_after c q.nextRound)) hout

/-- From the first instruction of some code every other one can be reached, and what stands behind
it. -/
theorem flows_code {c : Core} (hc : c.LoadedAt p q scope) :
    p.FlowsTo q.address (c.after q).address := by
  induction c generalizing q scope with
  | nothing => exact .self
  | atom a =>
    have hinstr := loadedAt_atom.mp hc
    cases a <;> exact .step (Program.edge_of_instr hinstr List.mem_cons_self)
  | seq a b iha ihb =>
    obtain ⟨ha, hb⟩ := loadedAt_seq.mp hc
    rw [after_seq]
    exact (iha ha).append (le_after a q) (ihb hb)
  | either a b iha ihb =>
    obtain ⟨⟨hsplit, _⟩, ha, _, hb⟩ := loadedAt_either.mp hc
    rw [after_either]
    -- The second branch is entered from the split: the jump in front of it leads over it.
    have hfirst := Program.FlowsTo.step (Program.edge_of_instr hsplit List.mem_cons_self)
    have hsecond := Program.edge_of_instr hsplit (List.mem_cons_of_mem _ List.mem_cons_self)
    exact (hfirst.append (Nat.le_succ _) (iha ha)).behind hsecond (ihb hb)
  | optional a greed ih =>
    obtain ⟨⟨hsplit, _⟩, ha⟩ := loadedAt_optional.mp hc
    rw [after_optional]
    exact (Program.FlowsTo.step (Program.edge_greed hsplit (Or.inl rfl))).append
      (Nat.le_succ _) (ih ha)
  | star watched a greed ih =>
    obtain ⟨⟨hsplit, _⟩, hround, _⟩ := loadedAt_star.mp hc
    rw [after_star]
    have hin := Program.FlowsTo.step (Program.edge_greed hsplit (Or.inl rfl))
    exact (hin.append (Nat.le_succ _) (flows_round hround ih)).behind
      (Program.edge_greed hsplit (Or.inr rfl)) .self
  | plus watched a greed ih =>
    obtain ⟨hround, hsplit, _⟩ := loadedAt_plus.mp hc
    rw [after_plus]
    exact (flows_round hround ih).append (Nat.le_add_right _ _)
      (.step (Program.edge_greed hsplit (Or.inr rfl)))

/-- Every instruction of a program can be reached from the first one. -/
theorem flows_program (c : Core) (captures : Nat) {a : Nat} (ha : a < (c.program captures).size) :
    Relation.ReflTransGen (c.program captures).Flows 0 a := by
  have hstop : (c.after .start).address = c.extent.address := Nat.zero_add _
  rw [size_program] at ha
  exact flows_code (loadedAt_program c captures).1 a (Nat.zero_le a) (by omega)

end Core

end ByteRegex
