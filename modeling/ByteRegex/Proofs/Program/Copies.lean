import ByteRegex.Proofs.Program.Brackets
import ByteRegex.Proofs.Program.Jobs

/-!
# Copied code

Repeated parts are generated once and then copied. A copy is made before the program is complete, so
it can only be right if what is copied does not change any more, leads nowhere but into itself and
right behind itself, and does not share the loops in it with other code: `Program.copied_ofPattern`.
-/

namespace ByteRegex

namespace Instr

/-- The loop whose round starts or ends. -/
def loop? : Instr → Option Nat
  | .roundStart loop | .roundEnd loop _ => some loop
  | _ => none

/-- The instruction with its targets moved by `d.address`, and with the numbers of `d.splits` more
splits and of `d.loops` more loops given out before. -/
def shifted (d : Place) : Instr → Instr
  | .split id first second => .split (id + d.splits) (first + d.address) (second + d.address)
  | .jump target => .jump (target + d.address)
  | .roundStart loop => .roundStart (loop + d.loops)
  | .roundEnd loop exit => .roundEnd (loop + d.loops) (exit + d.address)
  | instr => instr

end Instr

/-! ## Rounds within a block -/

namespace Block

/-- Each round that starts in the block ends in it, and the other way round. -/
structure Paired (b : Block) : Prop where
  starts : ∀ i loop exit : Nat, b.instrs[i]? = some (.roundEnd loop exit) →
    ∃ j, j < i ∧ b.instrs[j]? = some (.roundStart loop)
  ends : ∀ i loop : Nat, b.instrs[i]? = some (.roundStart loop) →
    ∃ j exit, i < j ∧ b.instrs[j]? = some (.roundEnd loop exit)

variable {a b : Block} {q : Place} {scope : Option Nat} {instr : Instr}

theorem getElem?_instrs_append_eq_some {i : Nat} :
    (a ++ b).instrs[i]? = some instr ↔
      a.instrs[i]? = some instr ∨ ∃ j, i = a.instrs.size + j ∧ b.instrs[j]? = some instr := by
  rw [instrs_append, Array.getElem?_append]
  constructor
  · intro h
    split at h
    · exact Or.inl h
    · exact Or.inr ⟨i - a.instrs.size, by omega, h⟩
  · rintro (h | ⟨j, rfl, h⟩)
    · rwa [if_pos (Array.getElem?_eq_some_iff.mp h).1]
    · rwa [if_neg (by omega), Nat.add_sub_cancel_left]

theorem Paired.append (ha : a.Paired) (hb : b.Paired) : (a ++ b).Paired where
  starts i loop exit h := by
    rcases getElem?_instrs_append_eq_some.mp h with hi | ⟨i, rfl, hi⟩
    · obtain ⟨j, hji, hj⟩ := ha.starts i loop exit hi
      exact ⟨j, hji, getElem?_instrs_append_eq_some.mpr (Or.inl hj)⟩
    · obtain ⟨j, hji, hj⟩ := hb.starts i loop exit hi
      exact ⟨_, Nat.add_lt_add_left hji _, getElem?_instrs_append_eq_some.mpr (Or.inr ⟨j, rfl, hj⟩)⟩
  ends i loop h := by
    rcases getElem?_instrs_append_eq_some.mp h with hi | ⟨i, rfl, hi⟩
    · obtain ⟨j, exit, hij, hj⟩ := ha.ends i loop hi
      exact ⟨j, exit, hij, getElem?_instrs_append_eq_some.mpr (Or.inl hj)⟩
    · obtain ⟨j, exit, hij, hj⟩ := hb.ends i loop hi
      exact ⟨_, exit, Nat.add_lt_add_left hij _,
        getElem?_instrs_append_eq_some.mpr (Or.inr ⟨j, rfl, hj⟩)⟩

theorem paired_of_loop?_eq_none (h : ∀ instr ∈ b.instrs, instr.loop? = none) : b.Paired where
  starts _ _ _ hend := nomatch h _ (Array.mem_of_getElem? hend)
  ends _ _ hstart := nomatch h _ (Array.mem_of_getElem? hstart)

theorem paired_single (h : instr.loop? = none) : (single q instr).Paired :=
  paired_of_loop?_eq_none fun _ hmem => Array.mem_singleton.mp hmem ▸ h

theorem paired_split (first second : Nat) : (split q scope first second).Paired :=
  paired_of_loop?_eq_none fun _ hmem => Array.mem_singleton.mp hmem ▸ rfl

theorem getElem?_instrs_watched {i exit : Nat} (r : Place) :
    (roundStart q scope ++ b ++ single r (.roundEnd q.loops exit)).instrs[i]? = some instr ↔
      (i = 0 ∧ instr = .roundStart q.loops) ∨ (∃ j, i = 1 + j ∧ b.instrs[j]? = some instr) ∨
        (i = 1 + b.instrs.size ∧ instr = .roundEnd q.loops exit) := by
  have hone : ∀ (x y : Instr) (j : Nat), #[x][j]? = some y ↔ j = 0 ∧ y = x := by
    intro x y j
    cases j <;> simp [eq_comm]
  have hsize : (roundStart q scope ++ b).instrs.size = 1 + b.instrs.size := Array.size_append
  rw [getElem?_instrs_append_eq_some, getElem?_instrs_append_eq_some, hsize, or_assoc]
  simp only [roundStart, single, hone, List.size_toArray, List.length_cons,
    List.length_nil, Nat.zero_add]
  refine or_congr_right (or_congr_right ?_)
  constructor
  · rintro ⟨j, rfl, rfl, rfl⟩
    exact ⟨rfl, rfl⟩
  · rintro ⟨rfl, rfl⟩
    exact ⟨0, rfl, rfl, rfl⟩

/-- A round that is put around a block starts before all rounds in it and ends after them. -/
theorem Paired.watched (hb : b.Paired) (r : Place) (exit : Nat) :
    (roundStart q scope ++ b ++ single r (.roundEnd q.loops exit)).Paired where
  starts i loop exit' h := by
    rcases (getElem?_instrs_watched r).mp h with ⟨_, hinstr⟩ | ⟨i, rfl, hi⟩ | ⟨rfl, hinstr⟩
    · cases hinstr
    · obtain ⟨j, hji, hj⟩ := hb.starts i loop exit' hi
      exact ⟨1 + j, by omega, (getElem?_instrs_watched r).mpr (Or.inr (Or.inl ⟨j, rfl, hj⟩))⟩
    · cases hinstr
      exact ⟨0, by omega, (getElem?_instrs_watched r).mpr (Or.inl ⟨rfl, rfl⟩)⟩
  ends i loop h := by
    rcases (getElem?_instrs_watched r).mp h with ⟨rfl, hinstr⟩ | ⟨i, rfl, hi⟩ | ⟨_, hinstr⟩
    · cases hinstr
      exact ⟨_, exit, by omega, (getElem?_instrs_watched r).mpr (Or.inr (Or.inr ⟨rfl, rfl⟩))⟩
    · obtain ⟨j, exit', hij, hj⟩ := hb.ends i loop hi
      exact ⟨1 + j, exit', by omega, (getElem?_instrs_watched r).mpr (Or.inr (Or.inl ⟨j, rfl, hj⟩))⟩
    · cases hinstr

end Block

theorem Greed.paired_split {q : Place} {scope : Option Nat} (greed : Greed) (prefer other : Nat) :
    (greed.split q scope prefer other).Paired := by
  cases greed
  · exact Block.paired_split prefer other
  · exact Block.paired_split other prefer

namespace Core

variable {q : Place} {scope : Option Nat}

theorem paired_round {c : Core} (watched : Bool) (ih : ∀ {q scope}, (c.code q scope).Paired) :
    (Block.round watched c.extent c.code q scope).Paired := by
  cases watched with
  | false => exact ih
  | true => exact ih.watched _ _

/-- No loop reaches beyond the code of an expression that it is part of. -/
theorem paired_code (c : Core) : (c.code q scope).Paired := by
  induction c generalizing q scope with
  | nothing => exact Block.paired_of_loop?_eq_none fun _ h => absurd h (Array.not_mem_empty _)
  | atom a => exact Block.paired_single (by cases a <;> rfl)
  | seq a b iha ihb => exact iha.append ihb
  | either a b iha ihb =>
    exact (((Block.paired_split _ _).append iha).append (Block.paired_single rfl)).append ihb
  | optional a greed ih => exact (greed.paired_split _ _).append ih
  | star watched a greed ih =>
    exact ((greed.paired_split _ _).append (paired_round watched ih)).append
      (Block.paired_single rfl)
  | plus watched a greed ih => exact (paired_round watched ih).append (greed.paired_split _ _)

end Core

/-! ## Copies as shifted parts -/

namespace Block

variable {b : Block} {slots hi : Nat} {instr : Instr}

theorem le_of_numbered {number : Instr → Option Nat} {first count n : Nat}
    (h : b.instrs.toList.filterMap number = List.range' first count) (hinstr : instr ∈ b.instrs)
    (hn : number instr = some n) : first ≤ n := by
  have hmem : n ∈ b.instrs.toList.filterMap number :=
    List.mem_filterMap.mpr ⟨instr, Array.mem_toList_iff.mpr hinstr, hn⟩
  rw [h, List.mem_range'_1] at hmem
  exact hmem.1

/-- Nothing in a regular block refers to what is in front of it, so moving the block adds the
distance to every target and number. -/
theorem Regular.moveTo_eq_shifted (h : b.Regular slots b.start.address hi)
    (hpaired : b.Paired) (d : Place) :
    (b.moveTo (b.start.offset d)).instrs = b.instrs.map (Instr.shifted d) := by
  refine Array.map_congr_left fun instr hinstr => ?_
  have htarget : ∀ a ∈ instr.targets,
      shift b.start.address (b.start.offset d).address a = a + d.address :=
    fun a ha => shift_of_le (h.targets instr hinstr a ha).1 d.address
  cases instr with
  | split id first second =>
    have hid := le_of_numbered h.splitIds hinstr rfl
    simp only [Instr.targets, List.mem_cons, List.not_mem_nil, or_false, forall_eq_or_imp,
      forall_eq] at htarget
    rw [moveInstr, Instr.shifted, htarget.1, htarget.2]
    exact congrArg (Instr.split · _ _) (shift_of_le hid d.splits)
  | jump target => exact congrArg Instr.jump (htarget target List.mem_cons_self)
  | roundStart loop =>
    exact congrArg Instr.roundStart (moveLoop_of_le b.start d (le_of_numbered h.loopIds hinstr rfl))
  | roundEnd loop exit =>
    -- The end of a round has the number of its start.
    obtain ⟨i, hi⟩ := Array.mem_iff_getElem?.mp hinstr
    obtain ⟨j, _, hj⟩ := hpaired.starts i loop exit hi
    have hloop := moveLoop_of_le b.start d (le_of_numbered h.loopIds (Array.mem_of_getElem? hj) rfl)
    rw [moveInstr, hloop, htarget exit List.mem_cons_self, Instr.shifted]
  | accept | byte b | any | oneOf set | save slot | textStart | textEnd => rfl

end Block

namespace Program

/-- The part has been copied to the place `target` of the program. What has been copied is closed,
and the copy is the same code further back, with numbers that no other instruction of the program
has. -/
structure Copied (p : Program) (part : Block) (target : Place) : Prop where
  /-- Nothing in the part, or in its rows of the tables, changes after it has been copied. -/
  final : part.LoadedIn p
  targets :
    ∀ instr ∈ part.instrs, ∀ a ∈ instr.targets, part.start.address ≤ a ∧ a ≤ part.stop.address
  paired : part.Paired
  behind : part.stop.address ≤ target.address
  shifted : ∃ d, target = part.start.offset d ∧
    (part.moveTo target).instrs = part.instrs.map (Instr.shifted d)
  /-- Nothing in the copy changes either. -/
  copy : (part.moveTo target).LoadedIn p
  splits : ∀ i id first second : Nat,
    (part.moveTo target).instrs[i]? = some (.split id first second) →
    ∀ a first' second' : Nat, p.instrs[a]? = some (.split id first' second') →
      a = target.address + i
  starts : ∀ i loop : Nat, (part.moveTo target).instrs[i]? = some (.roundStart loop) →
    ∀ a, p.StartsAt loop a → a = target.address + i
  ends : ∀ i loop exit : Nat, (part.moveTo target).instrs[i]? = some (.roundEnd loop exit) →
    ∀ a, p.EndsAt loop a → a = target.address + i

variable {p : Program} {part : Block} {target : Place} {e : Expr} {scope : Option Nat}

theorem Scoped.copied (hp : p.Scoped) (h : part.Precedes p e scope e.core target) :
    p.Copied part target := by
  have hregular : part.Regular (2 * (e.maxGroup + 1)) part.start.address part.stop.address := by
    have hcode : (e.core.code part.start scope).Regular (2 * (e.maxGroup + 1)) part.start.address
        (e.core.after part.start).address := Core.regular_code (fun _ => Expr.lt_slots) h.scope_lt
    rwa [← Core.stop_code e.core part.start scope, ← h.code_eq] at hcode
  have hpaired : part.Paired := h.code_eq ▸ Core.paired_code e.core
  have hcopy : (part.moveTo target).LoadedIn p := h.moveTo_eq target ▸ h.loadedAt
  have hinstr : ∀ {i : Nat} {instr : Instr}, (part.moveTo target).instrs[i]? = some instr →
      p.instrs[target.address + i]? = some instr :=
    fun hi => (hcopy.instrs _ (Array.getElem?_eq_some_iff.mp hi).1).trans hi
  exact {
    final := h.loadedIn
    targets := hregular.targets
    paired := hpaired
    behind := h.leadsTo.address_le
    shifted := by
      obtain ⟨d, hd⟩ := part.leadsTo_stop.trans h.leadsTo
      exact ⟨d, hd, hd ▸ hregular.moveTo_eq_shifted hpaired d⟩
    copy := hcopy
    splits := fun _ _ _ _ hi _ _ _ ha => hp.split_unique ha (hinstr hi)
    starts := fun _ _ hi _ ha => hp.start_unique ha (hinstr hi)
    ends := fun _ _ exit hi _ ha => hp.end_unique ha ⟨exit, hinstr hi⟩ }

/-- A pattern has one program, which every limit gives that is no less than its size. Whatever is
copied on the way to it, or on the way to the limit, is final and closed when it is copied, and the
copy is the same code at its own place with numbers of its own. -/
theorem copied_ofPattern (pattern : Pattern) :
    ∃ p : Program,
      (∀ limit,
        Program.ofPattern limit pattern = if p.size ≤ limit then .ok p else .error ⟨limit⟩) ∧
      ∀ limit part target, pattern.Reaches limit (.move part target) → p.Copied part target := by
  refine ⟨pattern.core.program pattern.captures, fun limit => ?_, fun limit part target h => ?_⟩
  · rw [ofPattern_eq, Core.size_program]
  · obtain ⟨e, scope, hprecedes⟩ := h.loadedIn
    exact (Core.scoped_program pattern.core pattern.captures).copied hprecedes

/-- A copy of two copies of a watched loop, the last of which leads to the end of what is copied.
The copy itself no longer fits into the smaller limit. -/
theorem copied_copies : ∃ pattern p part,
    pattern = Pattern.ofExpr
      (.repeated (.repeated (.plus (.star (.byte 97) .greedy) .lazy) 2 (some 2) .lazy) 2
        (some 2) .greedy) ∧
    part = { start := ⟨1, 0, 0⟩
             instrs :=
               #[.roundStart 0, .split 0 3 5, .byte 97, .jump 2, .roundEnd 0 7, .split 1 7 1,
                 .roundStart 1, .split 2 9 11, .byte 97, .jump 8, .roundEnd 1 13, .split 3 13 7]
             splitScopes := #[some 0, none, some 1, none]
             loopParents := #[none, none] } ∧
    Program.ofPattern 20 pattern = .error ⟨20⟩ ∧ Program.ofPattern 27 pattern = .ok p ∧
    pattern.Reaches 20 (.move part ⟨13, 4, 2⟩) ∧ p.Copied part ⟨13, 4, 2⟩ := by
  obtain ⟨p, hp, hcopied⟩ := copied_ofPattern (.ofExpr (.repeated (.repeated
    (.plus (.star (.byte 97) .greedy) .lazy) 2 (some 2) .lazy) 2 (some 2) .greedy))
  have hmove := fun part hreaches => And.intro hreaches (hcopied 20 part ⟨13, 4, 2⟩ hreaches)
  refine ⟨_, p, _, rfl, rfl, ?_, ?_, hmove _ ?_⟩
  · exact (ofPattern_eq 20 _).trans (if_neg (by decide))
  · have h := hp 27
    rw [ofPattern_eq, if_pos (by decide)] at h ⊢
    split at h
    · exact h
    · cases h
  · exact .next (.next (.root rfl) (.betweenCopies (by cbv))) .copy

end Program

end ByteRegex
