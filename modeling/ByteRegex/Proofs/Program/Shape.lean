import ByteRegex.Proofs.Pattern.Groups
import ByteRegex.Proofs.Program.Flow
import Mathlib.Algebra.Group.Nat.Defs

/-!
# The shape of programs

Targets are known before the code that they point to, and blocks are copied and moved before the
program is complete. So what is true of every program has to be true of every block on the way: its
targets stay within the code that it is generated with, and its splits and loops are numbered in
order. Then moving a block leaves nothing behind: `Expr.regular_generator`,
`Program.wellFormed_ofPattern`.
-/

namespace ByteRegex

/-! ## Numbers and targets -/

namespace Instr

def targets : Instr → List Nat
  | .split _ first second => [first, second]
  | .jump target => [target]
  | .roundEnd _ exit => [exit]
  | _ => []

def splitId? : Instr → Option Nat
  | .split id _ _ => some id
  | _ => none

def loopId? : Instr → Option Nat
  | .roundStart loop => some loop
  | _ => none

end Instr

namespace Block

/-- A block whose splits and loops are numbered in order, from the place where it stands on, with
targets between the addresses `lo` and `hi` and slots below `slots`. -/
structure Regular (slots lo hi : Nat) (b : Block) : Prop where
  goesOn : .accept ∉ b.instrs
  targets : ∀ instr ∈ b.instrs, ∀ target ∈ instr.targets, lo ≤ target ∧ target ≤ hi
  slots : ∀ slot, .save slot ∈ b.instrs → slot < slots
  splitIds : b.instrs.toList.filterMap Instr.splitId? =
    List.range' b.start.splits b.splitScopes.size
  loopIds : b.instrs.toList.filterMap Instr.loopId? = List.range' b.start.loops b.loopParents.size
  scopes : ∀ i loop : Nat, b.splitScopes[i]? = some (some loop) → loop < b.stop.loops
  parents : ∀ i loop : Nat, b.loopParents[i]? = some (some loop) → loop < b.start.loops + i

variable {slots lo hi : Nat} {a b : Block} {q : Place} {scope : Option Nat} {instr : Instr}

theorem Regular.mono {lo' hi' : Nat} (h : b.Regular slots lo hi) (hlo : lo' ≤ lo) (hhi : hi ≤ hi') :
    b.Regular slots lo' hi' where
  goesOn := h.goesOn
  targets instr hinstr target htarget :=
    ⟨Nat.le_trans hlo (h.targets instr hinstr target htarget).1,
      Nat.le_trans (h.targets instr hinstr target htarget).2 hhi⟩
  slots := h.slots
  splitIds := h.splitIds
  loopIds := h.loopIds
  scopes := h.scopes
  parents := h.parents

theorem Regular.append (ha : a.Regular slots lo hi) (hb : b.Regular slots lo hi)
    (h : b.start = a.stop) : (a ++ b).Regular slots lo hi where
  goesOn hmem := (Array.mem_append.mp hmem).elim ha.goesOn hb.goesOn
  targets instr hmem :=
    (Array.mem_append.mp hmem).elim (ha.targets instr) (hb.targets instr)
  slots slot hmem := (Array.mem_append.mp hmem).elim (ha.slots slot) (hb.slots slot)
  splitIds := by
    rw [instrs_append, splitScopes_append, start_append, Array.toList_append, List.filterMap_append,
      ha.splitIds, hb.splitIds, h, stop, Array.size_append]
    exact List.range'_append_1
  loopIds := by
    rw [instrs_append, loopParents_append, start_append, Array.toList_append, List.filterMap_append,
      ha.loopIds, hb.loopIds, h, stop, Array.size_append]
    exact List.range'_append_1
  scopes i loop hloop := by
    have hle : a.stop.loops ≤ b.stop.loops := h ▸ Nat.le_add_right _ _
    rw [stop_append h]
    rw [splitScopes_append, Array.getElem?_append] at hloop
    split at hloop
    · exact Nat.lt_of_lt_of_le (ha.scopes i loop hloop) hle
    · exact hb.scopes _ loop hloop
  parents i loop hloop := by
    have hstart : b.start.loops = a.start.loops + a.loopParents.size := congrArg Place.loops h
    rw [loopParents_append, Array.getElem?_append] at hloop
    rw [start_append]
    split at hloop
    · exact ha.parents i loop hloop
    · have hlt := hb.parents _ loop hloop
      omega

theorem regular_nil (q : Place) : (nil q).Regular slots lo hi where
  goesOn := Array.not_mem_empty _
  targets _ h := absurd h (Array.not_mem_empty _)
  slots _ h := absurd h (Array.not_mem_empty _)
  splitIds := rfl
  loopIds := rfl
  scopes _ _ h := nomatch h
  parents _ _ h := nomatch h

theorem regular_single (q : Place) (hgoesOn : instr ≠ .accept)
    (htargets : ∀ target ∈ instr.targets, lo ≤ target ∧ target ≤ hi)
    (hslots : ∀ slot, instr = .save slot → slot < slots) (hsplit : instr.splitId? = none)
    (hloop : instr.loopId? = none) : (single q instr).Regular slots lo hi where
  goesOn h := hgoesOn (Array.mem_singleton.mp h).symm
  targets _ h := Array.mem_singleton.mp h ▸ htargets
  slots slot h := hslots slot (Array.mem_singleton.mp h).symm
  splitIds := List.filterMap_cons_none hsplit
  loopIds := List.filterMap_cons_none hloop
  scopes _ _ h := nomatch h
  parents _ _ h := nomatch h

theorem regular_jump (q : Place) {target : Nat} (h : lo ≤ target ∧ target ≤ hi) :
    (single q (.jump target)).Regular slots lo hi :=
  regular_single q nofun (fun _ hmem => List.mem_singleton.mp hmem ▸ h) nofun rfl rfl

theorem regular_split {first second : Nat} (hscope : ∀ loop ∈ scope, loop < q.loops)
    (hfirst : lo ≤ first ∧ first ≤ hi) (hsecond : lo ≤ second ∧ second ≤ hi) :
    (split q scope first second).Regular slots lo hi where
  goesOn h := nomatch Array.mem_singleton.mp h
  targets instr h target htarget := by
    obtain rfl := Array.mem_singleton.mp h
    rcases List.mem_cons.mp htarget with rfl | htarget
    · exact hfirst
    · exact List.mem_singleton.mp htarget ▸ hsecond
  slots _ h := nomatch Array.mem_singleton.mp h
  splitIds := rfl
  loopIds := rfl
  scopes i loop h := by
    obtain ⟨hi, h⟩ := Array.getElem?_eq_some_iff.mp h
    obtain rfl := Nat.lt_one_iff.mp hi
    exact hscope loop h
  parents _ _ h := nomatch h

theorem regular_roundStart (hscope : ∀ loop ∈ scope, loop < q.loops) :
    (roundStart q scope).Regular slots lo hi where
  goesOn h := nomatch Array.mem_singleton.mp h
  targets instr h target htarget := by
    obtain rfl := Array.mem_singleton.mp h
    exact absurd htarget List.not_mem_nil
  slots _ h := nomatch Array.mem_singleton.mp h
  splitIds := rfl
  loopIds := rfl
  scopes _ _ h := nomatch h
  parents i loop h := by
    obtain ⟨hi, h⟩ := Array.getElem?_eq_some_iff.mp h
    obtain rfl := Nat.lt_one_iff.mp hi
    exact hscope loop h

end Block

theorem Greed.regular_split {slots lo hi : Nat} {q : Place} {scope : Option Nat}
    {prefer other : Nat} (greed : Greed) (hscope : ∀ loop ∈ scope, loop < q.loops)
    (hprefer : lo ≤ prefer ∧ prefer ≤ hi) (hother : lo ≤ other ∧ other ≤ hi) :
    (greed.split q scope prefer other).Regular slots lo hi := by
  cases greed with
  | greedy => exact Block.regular_split hscope hprefer hother
  | lazy => exact Block.regular_split hscope hother hprefer

namespace Core

/-! ## Atoms -/

def atoms : Core → List Atom
  | nothing => []
  | atom a => [a]
  | seq a b | either a b => a.atoms ++ b.atoms
  | optional a _ | star _ a _ | plus _ a _ => a.atoms

variable {a : Atom} {c : Core} {cs : List Core} {greed : Greed} {watched : Bool}

theorem mem_atoms_sequence : a ∈ (sequence cs).atoms ↔ ∃ c ∈ cs, a ∈ c.atoms := by
  induction cs with
  | nil => simp only [sequence, atoms, List.not_mem_nil, false_and, exists_false]
  | cons c cs ih =>
    simp only [List.mem_cons, exists_eq_or_imp, ← ih]
    cases cs with
    | nil => exact ⟨Or.inl, fun h => h.resolve_right List.not_mem_nil⟩
    | cons d ds => exact List.mem_append

theorem mem_atoms_branches : a ∈ (branches cs).atoms ↔ ∃ c ∈ cs, a ∈ c.atoms := by
  induction cs with
  | nil => simp only [branches, atoms, List.not_mem_nil, false_and, exists_false]
  | cons c cs ih =>
    simp only [List.mem_cons, exists_eq_or_imp, ← ih]
    cases cs with
    | nil => exact ⟨Or.inl, fun h => h.resolve_right List.not_mem_nil⟩
    | cons d ds => exact List.mem_append

theorem mem_atoms_of_options {n : Nat} (h : a ∈ (options c greed n).atoms) : a ∈ c.atoms := by
  match n with
  | 0 => exact absurd h List.not_mem_nil
  | 1 => exact h
  | n + 2 => exact (List.mem_append.mp h).elim id mem_atoms_of_options

theorem mem_atoms_of_repeated {min : Nat} {max : Option Nat}
    (h : a ∈ (repeated watched c min max greed).atoms) : a ∈ c.atoms := by
  have hsequence : ∀ cs, (∀ d ∈ cs, a ∈ d.atoms → a ∈ c.atoms) →
      a ∈ (sequence cs).atoms → a ∈ c.atoms := by
    intro cs hcs h
    obtain ⟨d, hd, ha⟩ := mem_atoms_sequence.mp h
    exact hcs d hd ha
  exact repeated_induct (P := fun d => a ∈ d.atoms → a ∈ c.atoms) id id id
    (fun _ => mem_atoms_of_options) hsequence min max h

/-! ## Code -/

section Code

variable {slots : Nat} {q : Place} {scope : Option Nat}

theorem regular_atom (hsave : ∀ slot, Atom.save slot ∈ (atom a).atoms → slot < slots) :
    ((atom a).code q scope).Regular slots q.address ((atom a).after q).address := by
  cases a with
  | byte b | any | oneOf s | textStart | textEnd =>
    exact Block.regular_single q nofun (fun _ h => absurd h List.not_mem_nil) nofun rfl rfl
  | save slot =>
    refine Block.regular_single q nofun (fun _ h => absurd h List.not_mem_nil) ?_ rfl rfl
    rintro _ ⟨⟩
    exact hsave slot List.mem_cons_self

/-- The end of a round leads to the address two behind it: one behind the round. -/
theorem regular_round (watched : Bool) (hscope : ∀ loop ∈ scope, loop < q.loops)
    (ih : ∀ {q scope}, (∀ loop ∈ scope, loop < q.loops) →
      (c.code q scope).Regular slots q.address (c.after q).address) :
    (Block.round watched c.extent c.code q scope).Regular slots q.address
      ((q.offset (.ofRound watched c.extent)).address + 1) := by
  cases watched with
  | false => exact (ih hscope).mono (Nat.le_refl _) (Nat.le_succ _)
  | true =>
    have hle := le_after c q.nextRound
    rw [offset_ofRound]
    have hbody : (c.code q.nextRound (some q.loops)).Regular slots q.nextRound.address
        (c.after q.nextRound).address := ih (fun loop h => Option.some.inj h ▸ Nat.lt_succ_self _)
    have hstop : (Block.roundStart q scope ++ c.code q.nextRound (some q.loops)).stop =
        c.after q.nextRound := (Block.stop_append (start_code c _ _)).trans (stop_code c _ _)
    have hend : (Block.single (c.after q.nextRound)
        (.roundEnd q.loops ((c.after q.nextRound).address + 2))).Regular slots q.address
          ((c.after q.nextRound).next.address + 1) := by
      refine Block.regular_single _ nofun (fun target h => ?_) nofun rfl rfl
      obtain rfl := List.mem_singleton.mp h
      have hnext : q.address ≤ q.nextRound.address := Nat.le_succ _
      exact ⟨by omega, Nat.le_refl _⟩
    refine Block.Regular.append (Block.Regular.append ?_ ?_ (start_code c _ _)) hend hstop.symm
    · exact Block.regular_roundStart hscope
    · exact hbody.mono (Nat.le_succ _) (Nat.le_add_right _ 2)

/-- The code of an expression is regular, wherever it stands. -/
theorem regular_code (hsave : ∀ slot, Atom.save slot ∈ c.atoms → slot < slots)
    (hscope : ∀ loop ∈ scope, loop < q.loops) :
    (c.code q scope).Regular slots q.address (c.after q).address := by
  induction c generalizing q scope with
  | nothing => exact Block.regular_nil q
  | atom a => exact regular_atom hsave
  | seq a b iha ihb =>
    rw [after_seq]
    have ha := iha (fun slot h => hsave slot (List.mem_append_left _ h)) hscope
    have hb := ihb (q := a.after q) (fun slot h => hsave slot (List.mem_append_right _ h))
      (Generator.scope_lt_after a hscope)
    exact (ha.mono (Nat.le_refl _) (le_after b _)).append (hb.mono (le_after a q) (Nat.le_refl _))
      ((start_code b _ _).trans (stop_code a q scope).symm)
  | either a b iha ihb =>
    have ha := iha (q := q.nextSplit) (fun slot h => hsave slot (List.mem_append_left _ h)) hscope
    have hb := ihb (q := (a.after q.nextSplit).next)
      (fun slot h => hsave slot (List.mem_append_right _ h)) (Generator.scope_lt_after a hscope)
    have hin : q.address ≤ q.nextSplit.address := Nat.le_succ _
    have hle := le_after a q.nextSplit
    have hnext : (a.after q.nextSplit).address ≤ (a.after q.nextSplit).next.address := Nat.le_succ _
    have hle' := le_after b (a.after q.nextSplit).next
    have hstop := stop_code a
    rw [after_either]
    refine .append (.append (.append ?_ (ha.mono hin (by omega)) (start_code a _ _)) ?_ ?_)
      (hb.mono (by omega) (Nat.le_refl _)) ?_
    · exact Block.regular_split hscope ⟨hin, by omega⟩ ⟨by omega, hle'⟩
    · exact Block.regular_jump _ ⟨by omega, Nat.le_refl _⟩
    · exact (stop_split_code hstop _ _).symm
    · exact (start_code b _ _).trans (stop_split_code_jump hstop _ _ _).symm
  | optional a greed ih =>
    have ha := ih (q := q.nextSplit) hsave hscope
    have hin : q.address ≤ q.nextSplit.address := Nat.le_succ _
    have hle := le_after a q.nextSplit
    rw [after_optional]
    refine .append ?_ (ha.mono hin (Nat.le_refl _))
      ((start_code a _ _).trans (greed.stop_split _ _ _ _).symm)
    exact greed.regular_split hscope ⟨hin, hle⟩ ⟨by omega, Nat.le_refl _⟩
  | star watched a greed ih =>
    have hround := regular_round watched (q := q.nextSplit) hscope (fun hscope => ih hsave hscope)
    have hin : q.address ≤ q.nextSplit.address := Nat.le_succ _
    have hle : q.nextSplit.address ≤ (q.nextSplit.offset (.ofRound watched a.extent)).address :=
      Nat.le_add_right _ _
    have hnext : (q.nextSplit.offset (.ofRound watched a.extent)).next.address =
      (q.nextSplit.offset (.ofRound watched a.extent)).address + 1 := rfl
    rw [after_star]
    refine .append (.append ?_ (hround.mono hin (Nat.le_refl _)) ?_) ?_ ?_
    · exact greed.regular_split hscope ⟨hin, by omega⟩ ⟨by omega, Nat.le_refl _⟩
    · rw [start_round _ _ (start_code a), Greed.stop_split]
    · exact Block.regular_jump _ ⟨Nat.le_refl _, by omega⟩
    · exact (stop_split_round (stop_code a) _ _).symm
  | plus watched a greed ih =>
    have hround := regular_round watched hscope (fun hscope => ih hsave hscope)
    have hle : q.address ≤ (q.offset (.ofRound watched a.extent)).nextSplit.address :=
      Nat.le_succ_of_le (Nat.le_add_right _ _)
    rw [after_plus]
    refine .append hround ?_ ?_
    · exact greed.regular_split (Generator.scope_lt_offset _ hscope) ⟨Nat.le_refl _, hle⟩
        ⟨hle, Nat.le_refl _⟩
    · rw [Greed.start_split, stop_round (stop_code a)]

end Code

end Core

namespace Expr

variable {e : Expr} {es : List Expr} {limit : Nat}

/-! ## Slots -/

/-- Every slot of the code belongs to a capturing group. -/
theorem half_mem_indices {slot : Nat} (h : Atom.save slot ∈ e.core.atoms) :
    slot / 2 ∈ e.indices := by
  have hall : ∀ {es : List Expr},
      (∀ e ∈ es, Atom.save slot ∈ e.core.atoms → slot / 2 ∈ e.indices) →
      (∃ c ∈ coreAll es, Atom.save slot ∈ c.atoms) → slot / 2 ∈ indicesAll es := by
    rintro es hes ⟨c, hc, h⟩
    rw [coreAll_eq_map] at hc
    obtain ⟨e, he, rfl⟩ := List.mem_map.mp hc
    rw [indicesAll_eq_flatMap]
    exact List.mem_flatMap.mpr ⟨e, he, hes e he h⟩
  induction e using Expr.induct with
  | byte b | any | oneOf s | textStart | textEnd => exact nomatch List.mem_singleton.mp h
  | concat es ih => exact hall ih (Core.mem_atoms_sequence.mp h)
  | alternate es ih => exact hall ih (Core.mem_atoms_branches.mp h)
  | star e greed ih | plus e greed ih | optional e greed ih => exact ih h
  | repeated e min max greed ih => exact ih (Core.mem_atoms_of_repeated h)
  | group e index ih =>
    cases index with
    | none => exact ih h
    | some index =>
      have hslot : ∀ {slot'}, slot' = 2 * index ∨ slot' = 2 * index + 1 →
          slot = slot' → slot / 2 ∈ (group e (some index)).indices := by
        rintro _ hslot' rfl
        obtain hindex : slot / 2 = index := by omega
        exact hindex ▸ List.mem_cons_self
      rcases List.mem_append.mp h with h | h
      · exact hslot (Or.inl rfl) (Atom.save.inj (List.mem_singleton.mp h))
      · rcases List.mem_append.mp h with h | h
        · exact List.mem_cons_of_mem index (ih h)
        · exact hslot (Or.inr rfl) (Atom.save.inj (List.mem_singleton.mp h))

theorem lt_slots {slot : Nat} (h : Atom.save slot ∈ e.core.atoms) :
    slot < 2 * (e.maxGroup + 1) := by
  have := le_maxGroup (half_mem_indices h)
  omega

/-! ## Blocks -/

/-- Whatever is generated for an expression, at any place, is regular. A block is copied with the
loops in it renumbered and with its targets moved along; as they are those of the block, this never
goes wrong. -/
theorem regular_generator {q : Place} {scope : Option Nat} {b : Block}
    (hscope : ∀ loop ∈ scope, loop < q.loops) (h : e.generator limit q scope = .ok b) :
    b.start = q ∧ b.Regular (2 * (e.maxGroup + 1)) b.start.address b.stop.address := by
  obtain rfl := eq_code_of_generator hscope h
  rw [Core.start_code, Core.stop_code]
  exact ⟨rfl, Core.regular_code (fun _ => lt_slots) hscope⟩

end Expr

/-! ## Programs -/

/-- The program with the block between the instructions that record where the match starts and
ends. -/
def Block.framed (b : Block) (captures : Nat) : Program :=
  .ofCode (#[.save 0] ++ (b.instrs ++ #[.save 1]) ++ #[.accept]) captures b.splitScopes
    b.loopParents

namespace Program

/-- What is true of every program that is compiled. -/
structure WellFormed (p : Program) : Prop where
  ends : ∃ body, .accept ∉ body ∧ p.instrs.toList = .save 0 :: (body ++ [.save 1, .accept])
  targets : ∀ instr ∈ p.instrs, ∀ target ∈ instr.targets, 1 ≤ target ∧ target < p.size
  slots : ∀ slot, .save slot ∈ p.instrs → slot < p.slotCount
  splitIds : p.instrs.toList.filterMap Instr.splitId? = List.range p.splitCount
  loopIds : p.instrs.toList.filterMap Instr.loopId? = List.range p.loopCount
  scopes : ∀ id loop : Nat, p.splitScopes[id]? = some (some loop) → loop < p.loopCount
  parents : ∀ id loop : Nat, p.loopParents[id]? = some (some loop) → loop < id
  reachable : ∀ a, a < p.size → Relation.ReflTransGen p.Flows 0 a

end Program

namespace Block

variable {b : Block} {captures : Nat}

theorem toList_framed :
    (b.framed captures).instrs.toList = .save 0 :: (b.instrs.toList ++ [.save 1, .accept]) := by
  simp only [framed, Program.ofCode, Array.toList_append, List.append_assoc, List.cons_append,
    List.nil_append]

theorem mem_framed {instr : Instr} :
    instr ∈ (b.framed captures).instrs ↔
      instr ∈ b.instrs ∨ instr = .save 0 ∨ instr = .save 1 ∨ instr = .accept := by
  simp only [← Array.mem_toList_iff, toList_framed, List.mem_cons, List.mem_append,
    List.not_mem_nil, or_false]
  exact or_left_comm

theorem filterMap_framed (f : Instr → Option Nat) (hsave : ∀ slot, f (.save slot) = none)
    (haccept : f .accept = none) :
    (b.framed captures).instrs.toList.filterMap f = b.instrs.toList.filterMap f := by
  rw [toList_framed, List.filterMap_cons_none (hsave 0), List.filterMap_append,
    List.filterMap_cons_none (hsave 1), List.filterMap_cons_none haccept, List.filterMap_nil,
    List.append_nil]

theorem size_framed (hstart : b.start = ⟨1, 0, 0⟩) :
    (b.framed captures).size = b.stop.address + 2 := by
  rw [stop, hstart, Program.size, ← Array.length_toList, toList_framed]
  simp only [List.length_cons, List.length_append, List.length_nil, Array.length_toList]
  omega

theorem Regular.wellFormed (h : b.Regular (2 * (captures + 1)) 1 b.stop.address)
    (hstart : b.start = ⟨1, 0, 0⟩)
    (hreachable : ∀ a, a < (b.framed captures).size →
      Relation.ReflTransGen (b.framed captures).Flows 0 a) : (b.framed captures).WellFormed where
  ends := ⟨b.instrs.toList, fun hmem => h.goesOn (Array.mem_toList_iff.mp hmem), toList_framed⟩
  targets instr hinstr target htarget := by
    rw [size_framed hstart]
    rcases mem_framed.mp hinstr with hinstr | rfl | rfl | rfl
    · have := h.targets instr hinstr target htarget
      omega
    · exact absurd htarget List.not_mem_nil
    · exact absurd htarget List.not_mem_nil
    · exact absurd htarget List.not_mem_nil
  slots slot hslot := by
    show slot < 2 * (captures + 1)
    rcases mem_framed.mp hslot with hslot | hslot | hslot | hslot
    · exact h.slots slot hslot
    · cases hslot
      omega
    · cases hslot
      omega
    · cases hslot
  splitIds := by
    rw [filterMap_framed Instr.splitId? (fun _ => rfl) rfl, h.splitIds, hstart,
      List.range_eq_range']
    rfl
  loopIds := by
    rw [filterMap_framed Instr.loopId? (fun _ => rfl) rfl, h.loopIds, hstart, List.range_eq_range']
    rfl
  scopes id loop hloop := by
    have hloops : b.stop.loops = (b.framed captures).loopCount := by
      show b.start.loops + b.loopParents.size = b.loopParents.size
      rw [hstart, Nat.zero_add]
    exact hloops ▸ h.scopes id loop hloop
  parents id loop hloop := by
    have hlt := h.parents id loop hloop
    rwa [hstart, Nat.zero_add] at hlt
  reachable := hreachable

end Block

namespace Program

variable {limit : Nat} {e : Expr}

theorem core_program_eq_framed (e : Expr) (captures : Nat) :
    (Pattern.ofExpr e).core.program captures = (e.core.code ⟨1, 0, 0⟩ none).framed captures := by
  show ofCode _ captures (#[] ++ (_ ++ #[]) ++ #[]) (#[] ++ (_ ++ #[]) ++ #[]) = _
  rw [Array.append_empty, Array.append_empty, Array.empty_append, Array.append_empty,
    Array.append_empty, Array.empty_append]
  rfl

theorem wellFormed_program (e : Expr) :
    ((Pattern.ofExpr e).core.program e.maxGroup).WellFormed := by
  have hbody : (e.core.code ⟨1, 0, 0⟩ none).Regular (2 * (e.maxGroup + 1)) 1
      (e.core.after ⟨1, 0, 0⟩).address :=
    Core.regular_code (q := ⟨1, 0, 0⟩) (fun _ => Expr.lt_slots) (fun _ h => nomatch h)
  rw [← Core.stop_code e.core ⟨1, 0, 0⟩ none] at hbody
  have hreachable := fun a => @Core.flows_program (Pattern.ofExpr e).core e.maxGroup a
  rw [core_program_eq_framed] at hreachable ⊢
  exact hbody.wellFormed (Core.start_code _ _ _) hreachable

/-- Every split and every watched loop takes an instruction. -/
theorem counts_le_size (c : Core) (captures : Nat) :
    (c.program captures).splitCount + (c.program captures).loopCount ≤
      (c.program captures).size := by
  have hstop := Core.stop_code c .start none
  have hsplits : (c.program captures).splitCount = c.extent.splits := by
    have h := congrArg Place.splits hstop
    rw [Block.stop, Core.start_code] at h
    show (_ ++ #[]).size = _
    rw [Array.append_empty]
    exact Nat.add_left_cancel h
  have hloops : (c.program captures).loopCount = c.extent.loops := by
    have h := congrArg Place.loops hstop
    rw [Block.stop, Core.start_code] at h
    show (_ ++ #[]).size = _
    rw [Array.append_empty]
    exact Nat.add_left_cancel h
  rw [hsplits, hloops, Core.size_program]
  exact Nat.le_succ_of_le (Core.extent_le c)

/-- Every expression compiles to a well-formed program within the limit, or is reported to exceed
it. Below a limit of `2 ^ 32` instructions, ids of splits and numbers of loops fit into 32 bits. No
block that is generated on the way has a target or a number that would be left behind when the block
is moved. -/
theorem wellFormed_ofPattern (hlimit : limit < 2 ^ 32) (e : Expr) :
    (∀ (q : Place) (scope : Option Nat) (b : Block), (∀ loop ∈ scope, loop < q.loops) →
      e.generator limit q scope = .ok b →
        b.start = q ∧ b.Regular (2 * (e.maxGroup + 1)) b.start.address b.stop.address) ∧
    (Program.ofPattern limit (.ofExpr e) = .error ⟨limit⟩ ∨
      ∃ p, Program.ofPattern limit (.ofExpr e) = .ok p ∧ p.WellFormed ∧ p.size ≤ limit ∧
        p.splitCount < 2 ^ 32 ∧ p.loopCount < 2 ^ 32) := by
  refine ⟨fun q scope b hscope => Expr.regular_generator hscope, ?_⟩
  rw [ofPattern_eq]
  by_cases hsize : (Pattern.ofExpr e).core.extent.address + 1 ≤ limit
  · rw [if_pos hsize]
    have hcounts := counts_le_size (Pattern.ofExpr e).core (Pattern.ofExpr e).captures
    rw [← Core.size_program _ (Pattern.ofExpr e).captures] at hsize
    exact Or.inr ⟨_, rfl, wellFormed_program e, hsize, by omega, by omega⟩
  · rw [if_neg hsize]
    exact Or.inl rfl

/-- Copies of a group around an empty alternation, in a loop: `SAVE` and `SPLIT` instructions that
no pattern leads to. -/
theorem wellFormed_empty_group : ∃ p,
    Program.ofPattern 32
        (.ofExpr (.star (.repeated (.group (.alternate []) (some 7)) 2 (some 3) .lazy) .greedy)) =
      .ok p ∧ p.WellFormed ∧ p.size = 12 := by
  have hprogram := ofPattern_eq 32
    (.ofExpr (.star (.repeated (.group (.alternate []) (some 7)) 2 (some 3) .lazy) .greedy))
  rw [if_pos (by decide)] at hprogram
  rcases (@wellFormed_ofPattern 32 (by decide) (.star (.repeated
      (.group (.alternate []) (some 7)) 2 (some 3) .lazy) .greedy)).2
    with herror | ⟨p, hp, hwellFormed, _⟩
  · cases herror.symm.trans hprogram
  · obtain rfl := Except.ok.inj (hp.symm.trans hprogram)
    exact ⟨_, hprogram, hwellFormed, rfl⟩

end Program

end ByteRegex
