import ByteRegex.Proofs.Core.Loaded

/-!
# The loops around addresses

The rounds of watched loops are brackets in the code, and the loop around an address is the
innermost one that is open there. The tables of a program and the targets of its instructions agree
with the brackets: no instruction but the ends of rounds leads out of a loop or into one.
-/

namespace ByteRegex

def Place.behind (q : Place) : Instr → Place
  | .split _ _ _ => q.nextSplit
  | .roundStart _ => q.nextRound
  | _ => q.next

theorem Place.le_behind (q : Place) (instr : Instr) :
    q.splits ≤ (q.behind instr).splits ∧ q.loops ≤ (q.behind instr).loops := by
  cases instr <;> simp [behind, nextSplit, nextRound, next]

namespace Program

/-- The address as a place: with the number of splits and of rounds in front of it. -/
def placeAt (p : Program) : (address : Nat) → Place
  | 0 => .start
  | a + 1 => (p.instrs[a]?).elim (p.placeAt a) (p.placeAt a).behind

/-- The innermost loop whose round is open at an address. -/
def scopeAt (p : Program) : (address : Nat) → Option Nat
  | 0 => none
  | a + 1 =>
    match p.instrs[a]? with
    | some (.roundStart id) => some id
    | some (.roundEnd id _) => Loops.parent? p.loopParents id
    | _ => p.scopeAt a

/-- What the tables say about the instruction at an address, and where its targets are. -/
def Fits (p : Program) (a : Nat) : Instr → Prop
  | .split id first second =>
    (id = (p.placeAt a).splits ∧ p.splitScopes[id]? = some (p.scopeAt a)) ∧
      p.scopeAt first = p.scopeAt a ∧ p.scopeAt second = p.scopeAt a
  | .jump target => p.scopeAt target = p.scopeAt a
  | .roundStart id =>
    id = (p.placeAt a).loops ∧ id < p.loopCount ∧ Loops.parent? p.loopParents id = p.scopeAt a
  | .roundEnd id exit => p.scopeAt a = some id ∧ p.scopeAt exit = Loops.parent? p.loopParents id
  | _ => True

def Scoped (p : Program) : Prop :=
  ∀ a instr, p.instrs[a]? = some instr → p.Fits a instr

variable {p : Program} {q : Place} {scope : Option Nat}

/-! ## Counting splits and rounds -/

theorem placeAt_mono {a b : Nat} (h : a ≤ b) :
    (p.placeAt a).splits ≤ (p.placeAt b).splits ∧ (p.placeAt a).loops ≤ (p.placeAt b).loops := by
  induction h with
  | refl => exact ⟨Nat.le_refl _, Nat.le_refl _⟩
  | @step m _ ih =>
    rw [placeAt]
    cases p.instrs[m]? with
    | none => exact ih
    | some instr =>
      have hle := (p.placeAt m).le_behind instr
      exact ⟨Nat.le_trans ih.1 hle.1, Nat.le_trans ih.2 hle.2⟩

/-- Different splits have different ids. -/
theorem Scoped.split_unique (hp : p.Scoped) {a b id first second first' second' : Nat}
    (ha : p.instrs[a]? = some (.split id first second))
    (hb : p.instrs[b]? = some (.split id first' second')) : a = b := by
  have hida : id = (p.placeAt a).splits := (hp a _ ha).1.1
  have hidb : id = (p.placeAt b).splits := (hp b _ hb).1.1
  have hlt : ∀ {x y f s}, p.instrs[x]? = some (.split id f s) → x < y →
      (p.placeAt x).splits < (p.placeAt y).splits := by
    intro x y f s hx hxy
    refine Nat.lt_of_lt_of_le ?_ (placeAt_mono hxy).1
    rw [placeAt, hx]
    exact Nat.lt_succ_self _
  rcases Nat.lt_trichotomy a b with h | h | h
  · have := hlt ha h
    omega
  · exact h
  · have := hlt hb h
    omega

theorem Scoped.split_lt (hp : p.Scoped) {a id first second : Nat}
    (h : p.instrs[a]? = some (.split id first second)) : id < p.splitCount :=
  (Array.getElem?_eq_some_iff.mp (hp a _ h).1.2).1

/-- The tables tell the loop around a split. -/
theorem Scoped.scope_of_split (hp : p.Scoped) {a id first second : Nat}
    (h : p.instrs[a]? = some (.split id first second)) :
    p.splitScopes.getD id none = p.scopeAt a := by
  rw [Array.getD_eq_getD_getElem?, (hp a _ h).1.2, Option.getD_some]

/-! ## Standing in code -/

/-- The place is where its address is, inside the loop `scope`, which is numbered already. -/
structure Stands (p : Program) (q : Place) (scope : Option Nat) : Prop where
  place_eq : p.placeAt q.address = q
  scope_eq : p.scopeAt q.address = scope
  numbered : ∀ id, scope = some id → id < q.loops

theorem stands_start (p : Program) : p.Stands .start none :=
  ⟨rfl, rfl, fun _ h => absurd h.symm (Option.some_ne_none _)⟩

theorem placeAt_behind {instr : Instr} (h : p.placeAt q.address = q)
    (hinstr : p.instrs[q.address]? = some instr) : p.placeAt (q.address + 1) = q.behind instr := by
  rw [placeAt, hinstr, h, Option.elim_some]

theorem parent?_of_numbered {id : Nat} (h : p.loopParents[id]? = some scope)
    (hnumbered : ∀ outer, scope = some outer → outer < id) :
    Loops.parent? p.loopParents id = scope := by
  unfold Loops.parent?
  rw [h]
  cases scope with
  | none => rfl
  | some outer => exact if_pos (hnumbered outer rfl)

namespace Stands

theorem split {id first second : Nat} (h : p.Stands q scope)
    (hinstr : p.instrs[q.address]? = some (.split id first second)) :
    p.Stands q.nextSplit scope := by
  refine ⟨placeAt_behind h.place_eq hinstr, ?_, h.numbered⟩
  · show p.scopeAt (q.address + 1) = scope
    rw [scopeAt, hinstr]
    exact h.scope_eq

theorem greed {greed : Greed} {id prefer other : Nat} (h : p.Stands q scope)
    (hinstr : p.instrs[q.address]? = some (greed.splitInstr id prefer other)) :
    p.Stands q.nextSplit scope := by
  cases greed
  · exact h.split hinstr
  · exact h.split hinstr

theorem roundStart (h : p.Stands q scope)
    (hinstr : p.instrs[q.address]? = some (.roundStart q.loops)) :
    p.Stands q.nextRound (some q.loops) := by
  refine ⟨placeAt_behind h.place_eq hinstr, ?_, ?_⟩
  · show p.scopeAt (q.address + 1) = _
    rw [scopeAt, hinstr]
  · intro id hid
    obtain rfl := Option.some.inj hid
    exact Nat.lt_succ_self _

theorem roundEnd {id exit : Nat} (h : p.Stands q (some id))
    (hinstr : p.instrs[q.address]? = some (.roundEnd id exit))
    (hparent : Loops.parent? p.loopParents id = scope) : p.Stands q.next scope := by
  refine ⟨placeAt_behind h.place_eq hinstr, ?_, ?_⟩
  · show p.scopeAt (q.address + 1) = _
    rw [scopeAt, hinstr]
    exact hparent
  · intro outer houter
    rw [houter] at hparent
    exact Nat.lt_trans (Loops.lt_of_parent? hparent) (h.numbered id rfl)

theorem jump {target : Nat} (h : p.Stands q scope)
    (hinstr : p.instrs[q.address]? = some (.jump target)) : p.Stands q.next scope := by
  refine ⟨placeAt_behind h.place_eq hinstr, ?_, h.numbered⟩
  · show p.scopeAt (q.address + 1) = scope
    rw [scopeAt, hinstr]
    exact h.scope_eq

theorem atom {a : Atom} (h : p.Stands q scope) (hinstr : p.instrs[q.address]? = some a.instr) :
    p.Stands q.next scope := by
  have hplace : q.behind a.instr = q.next := by cases a <;> rfl
  refine ⟨(placeAt_behind h.place_eq hinstr).trans hplace, ?_, h.numbered⟩
  · show p.scopeAt (q.address + 1) = scope
    rw [scopeAt, hinstr, ← h.scope_eq]
    cases a <;> rfl

end Stands

/-! ## Stretches of code -/

/-- The instructions from the address `a` up to, but not including, the address `b` are good where
they stand. -/
def Throughout (p : Program) (Good : (address : Nat) → Instr → Prop) (a b : Nat) : Prop :=
  ∀ x instr, a ≤ x → x < b → p.instrs[x]? = some instr → Good x instr

namespace Throughout

variable {Good : (address : Nat) → Instr → Prop} {a b c : Nat}

theorem empty : p.Throughout Good a a := fun _ _ hle hlt => absurd hlt (Nat.not_lt_of_le hle)

theorem single {instr : Instr} (h : p.instrs[a]? = some instr) (hgood : Good a instr) :
    p.Throughout Good a (a + 1) := by
  intro x instr' hle hlt hx
  obtain rfl : x = a := by omega
  rw [h] at hx
  exact Option.some.inj hx ▸ hgood

theorem append (hab : p.Throughout Good a b) (hbc : p.Throughout Good b c) :
    p.Throughout Good a c := by
  intro x instr hle hlt hx
  by_cases h : x < b
  · exact hab x instr hle h hx
  · exact hbc x instr (by omega) hlt hx

end Throughout

theorem Stands.fits_split {id first second : Nat} (hq : p.Stands q scope) (hid : id = q.splits)
    (htable : p.splitScopes[id]? = some scope) (hfirst : p.scopeAt first = scope)
    (hsecond : p.scopeAt second = scope) : p.Fits q.address (.split id first second) := by
  refine ⟨⟨?_, ?_⟩, ?_, ?_⟩
  · rw [hq.place_eq, hid]
  · rw [htable, hq.scope_eq]
  · rw [hfirst, hq.scope_eq]
  · rw [hsecond, hq.scope_eq]

theorem Stands.fits_greed {greed : Greed} {prefer other : Nat} (hq : p.Stands q scope)
    (htable : p.splitScopes[q.splits]? = some scope) (hprefer : p.scopeAt prefer = scope)
    (hother : p.scopeAt other = scope) :
    p.Fits q.address (greed.splitInstr q.splits prefer other) := by
  cases greed
  · exact hq.fits_split rfl htable hprefer hother
  · exact hq.fits_split rfl htable hother hprefer

end Program

namespace Core

variable {p : Program} {q : Place} {scope : Option Nat}

theorem stands_round {watched : Bool} {c : Core} (hc : c.RoundAt watched p q scope)
    (hq : p.Stands q scope)
    (ih : ∀ {q scope}, c.LoadedAt p q scope → p.Stands q scope → p.Stands (c.after q) scope) :
    p.Stands (q.offset (.ofRound watched c.extent)) scope := by
  cases watched with
  | false => exact ih hc hq
  | true =>
    obtain ⟨⟨hstart, hscope⟩, hbody, hend⟩ := roundAt_watched.mp hc
    have hinside := ih hbody (hq.roundStart hstart)
    have hbehind := hinside.roundEnd hend (Program.parent?_of_numbered hscope hq.numbered)
    rwa [← offset_ofRound] at hbehind

/-- Behind the code of an expression the same loop is open as in front of it. -/
theorem stands_after {c : Core} (hc : c.LoadedAt p q scope) (hq : p.Stands q scope) :
    p.Stands (c.after q) scope := by
  induction c generalizing q scope with
  | nothing => exact hq
  | atom a => exact hq.atom (loadedAt_atom.mp hc)
  | seq a b iha ihb =>
    obtain ⟨ha, hb⟩ := loadedAt_seq.mp hc
    rw [after_seq]
    exact ihb hb (iha ha hq)
  | either a b iha ihb =>
    obtain ⟨⟨hsplit, _⟩, ha, hjump, hb⟩ := loadedAt_either.mp hc
    rw [after_either]
    exact ihb hb ((iha ha (hq.split hsplit)).jump hjump)
  | optional a greed ih =>
    obtain ⟨⟨hsplit, _⟩, ha⟩ := loadedAt_optional.mp hc
    rw [after_optional]
    exact ih ha (hq.greed hsplit)
  | star watched a greed ih =>
    obtain ⟨⟨hsplit, _⟩, hround, hjump⟩ := loadedAt_star.mp hc
    rw [after_star]
    exact (stands_round hround (hq.greed hsplit) ih).jump hjump
  | plus watched a greed ih =>
    obtain ⟨hround, hsplit, _⟩ := loadedAt_plus.mp hc
    rw [after_plus]
    exact (stands_round hround hq ih).greed hsplit

theorem fits_round {watched : Bool} {c : Core} (hc : c.RoundAt watched p q scope)
    (hq : p.Stands q scope)
    (hexit : watched = true →
      p.scopeAt ((q.offset (.ofRound watched c.extent)).address + 1) = scope)
    (ih : ∀ {q scope}, c.LoadedAt p q scope → p.Stands q scope →
      p.Throughout p.Fits q.address (c.after q).address) :
    p.Throughout p.Fits q.address (q.offset (.ofRound watched c.extent)).address := by
  cases watched with
  | false => exact ih hc hq
  | true =>
    obtain ⟨⟨hstart, hscope⟩, hbody, hend⟩ := roundAt_watched.mp hc
    have hparent := Program.parent?_of_numbered hscope hq.numbered
    have hinside := stands_after hbody (hq.roundStart hstart)
    have hloop : q.loops < p.loopCount := (Array.getElem?_eq_some_iff.mp hscope).1
    have hexit' := hexit rfl
    rw [offset_ofRound] at hexit' ⊢
    refine .append (.append (.single hstart ?_) (ih hbody (hq.roundStart hstart))) (.single hend ?_)
    · refine ⟨?_, hloop, ?_⟩
      · rw [hq.place_eq]
      · rw [hparent, hq.scope_eq]
    · exact ⟨hinside.scope_eq, hexit'.trans hparent.symm⟩

theorem fits_code {c : Core} (hc : c.LoadedAt p q scope) (hq : p.Stands q scope) :
    p.Throughout p.Fits q.address (c.after q).address := by
  -- Where the code leads to behind itself is known to be in the same loop: `stands_after`.
  induction c generalizing q scope with
  | nothing => exact .empty
  | atom a =>
    refine .single (loadedAt_atom.mp hc) ?_
    cases a <;> trivial
  | seq a b iha ihb =>
    obtain ⟨ha, hb⟩ := loadedAt_seq.mp hc
    rw [after_seq]
    exact (iha ha hq).append (ihb hb (stands_after ha hq))
  | either a b iha ihb =>
    have hend := stands_after hc hq
    obtain ⟨⟨hsplit, htable⟩, ha, hjump, hb⟩ := loadedAt_either.mp hc
    have hfirst := hq.split hsplit
    have hafter := stands_after ha hfirst
    have hsecond := hafter.jump hjump
    rw [after_either] at hend ⊢
    refine .append (.append (.append (.single hsplit ?_) (iha ha hfirst)) (.single hjump ?_))
      (ihb hb hsecond)
    · exact hq.fits_split rfl htable hfirst.scope_eq hsecond.scope_eq
    · show p.scopeAt _ = p.scopeAt _
      rw [hend.scope_eq, hafter.scope_eq]
  | optional a greed ih =>
    have hend := stands_after hc hq
    obtain ⟨⟨hsplit, htable⟩, ha⟩ := loadedAt_optional.mp hc
    have hbody := hq.greed hsplit
    rw [after_optional] at hend ⊢
    exact .append (.single hsplit (hq.fits_greed htable hbody.scope_eq hend.scope_eq)) (ih ha hbody)
  | star watched a greed ih =>
    have hend := stands_after hc hq
    obtain ⟨⟨hsplit, htable⟩, hround, hjump⟩ := loadedAt_star.mp hc
    have hbody := hq.greed hsplit
    have hjumps := stands_round hround hbody stands_after
    rw [after_star] at hend ⊢
    refine .append
      (.append (.single hsplit ?_) (fits_round hround hbody (fun _ => hend.scope_eq) ih))
      (.single hjump ?_)
    · exact hq.fits_greed htable hbody.scope_eq hend.scope_eq
    · show p.scopeAt _ = p.scopeAt _
      rw [hq.scope_eq, hjumps.scope_eq]
  | plus watched a greed ih =>
    have hend := stands_after hc hq
    obtain ⟨hround, hsplit, htable⟩ := loadedAt_plus.mp hc
    have hchoice := stands_round hround hq stands_after
    rw [after_plus] at hend ⊢
    exact .append (fits_round hround hq (fun _ => hend.scope_eq) ih)
      (.single hsplit (hchoice.fits_greed htable hq.scope_eq hend.scope_eq))

/-- What holds throughout the code of an expression, and of the instruction that accepts behind it,
holds of every instruction of its program. -/
theorem forall_of_throughout {c : Core} {captures : Nat} {Good : (address : Nat) → Instr → Prop}
    (hcode : (c.program captures).Throughout Good 0 (c.after .start).address)
    (haccept : Good (c.after .start).address .accept) {a : Nat} {instr : Instr}
    (ha : (c.program captures).instrs[a]? = some instr) : Good a instr := by
  have hsize := size_program c captures
  have hstop : (c.after .start).address = c.extent.address := Nat.zero_add _
  have hlt : a < (c.program captures).size := (Array.getElem?_eq_some_iff.mp ha).1
  by_cases h : a < (c.after .start).address
  · exact hcode a instr (Nat.zero_le a) h ha
  · obtain rfl : a = (c.after .start).address := by omega
    rw [(loadedAt_program c captures).2] at ha
    exact Option.some.inj ha ▸ haccept

/-- In the program of a core expression every instruction fits. -/
theorem scoped_program (c : Core) (captures : Nat) : (c.program captures).Scoped := by
  have hstart := Program.stands_start (c.program captures)
  have hcode := fits_code (loadedAt_program c captures).1 hstart
  exact fun a instr ha => forall_of_throughout hcode trivial ha

end Core

end ByteRegex
