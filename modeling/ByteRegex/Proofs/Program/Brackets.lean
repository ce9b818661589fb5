import ByteRegex.Proofs.Program.Shape
import Mathlib.Data.Nat.Init

/-!
# Rounds as brackets

The two ends of a round are a pair of brackets in the code. Reading the code from its start, the
loops that are open are a stack: a bracket opens the next loop, and another closes the loop that was
opened last. So the pairs are nested, and the tables of the program name the innermost pair around a
split or a round: `Program.bracketed_ofPattern`.
-/

namespace ByteRegex

namespace Program

/-! ## Pairs of brackets -/

def StartsAt (p : Program) (id address : Nat) : Prop :=
  p.instrs[address]? = some (.roundStart id)

def EndsAt (p : Program) (id address : Nat) : Prop :=
  ∃ exit, p.instrs[address]? = some (.roundEnd id exit)

structure Brackets (p : Program) (id first last : Nat) : Prop where
  starts : p.StartsAt id first
  ends : p.EndsAt id last

/-- The loop whose brackets enclose the address, and are enclosed by all others that do; none if no
brackets enclose it. -/
def Innermost (p : Program) (address : Nat) : (scope : Option Nat) → Prop
  | none => ∀ id first last, p.Brackets id first last → ¬(first < address ∧ address < last)
  | some id => ∃ first last, p.Brackets id first last ∧ first < address ∧ address < last ∧
    ∀ id' first' last', p.Brackets id' first' last' → id' ≠ id → first' < address →
      address < last' → first' < first ∧ last < last'

/-- The rounds are nested, and the tables tell how. -/
structure Bracketed (p : Program) : Prop where
  numbered : ∀ id a, p.StartsAt id a ∨ p.EndsAt id a → id < p.loopCount
  paired : ∀ id, id < p.loopCount → ∃ first last, first < last ∧
    (∀ a, p.StartsAt id a ↔ a = first) ∧ (∀ a, p.EndsAt id a ↔ a = last)
  nested : ∀ id first last id' first' last',
    p.Brackets id first last → p.Brackets id' first' last' → id ≠ id' →
      last < first' ∨ last' < first ∨ first < first' ∧ last' < last ∨ first' < first ∧ last < last'
  parents : ∀ id a, p.StartsAt id a →
    ∃ scope, p.loopParents[id]? = some scope ∧ p.Innermost a scope ∧ ∀ outer ∈ scope, outer < id
  scopes : ∀ id first second a, p.instrs[a]? = some (.split id first second) →
    ∃ scope, p.splitScopes[id]? = some scope ∧ p.Innermost a scope

/-! ## Open loops -/

/-- The loops that are open at an address, the last opened one first. -/
def openAt (p : Program) (address : Nat) : List Nat :=
  Loops.chain p.loopParents (p.scopeAt address)

variable {p : Program} {id id' a b x first last first' last' : Nat}

/-- A loop has a larger number than the loops around it. -/
theorem lt_of_mem_chain {parents : Array (Option Nat)}
    (h : id ∈ Loops.chain parents (Loops.parent? parents id')) : id < id' := by
  induction id' using Nat.strongRecOn with
  | ind id' ih =>
    cases hparent : Loops.parent? parents id' with
    | none => simp [hparent, Loops.chain_none] at h
    | some outer =>
      have hlt := Loops.lt_of_parent? hparent
      rw [hparent, Loops.chain_some, List.mem_cons] at h
      rcases h with rfl | h
      · exact hlt
      · exact Nat.lt_trans (ih outer hlt h) hlt

namespace Scoped

theorem openAt_start (hp : p.Scoped) (h : p.StartsAt id a) :
    p.openAt (a + 1) = id :: p.openAt a := by
  have hscope : p.scopeAt (a + 1) = some id := by rw [scopeAt, show p.instrs[a]? = _ from h]
  rw [openAt, hscope, Loops.chain_some, (hp a _ h).2.2, openAt]

theorem openAt_end (hp : p.Scoped) (h : p.EndsAt id a) :
    p.openAt a = id :: p.openAt (a + 1) ∧ ∀ outer ∈ p.openAt (a + 1), outer < id := by
  obtain ⟨exit, h⟩ := h
  have hbehind : p.openAt (a + 1) = Loops.chain p.loopParents (Loops.parent? p.loopParents id) := by
    rw [openAt, scopeAt, h]
  refine ⟨?_, fun outer houter => lt_of_mem_chain (hbehind ▸ houter)⟩
  rw [hbehind, openAt, (hp a _ h).1, Loops.chain_some]

theorem mem_openAt_of_endsAt (hp : p.Scoped) (h : p.EndsAt id a) : id ∈ p.openAt a := by
  simp [(hp.openAt_end h).1]

theorem openAt_other (hstart : ∀ id, ¬p.StartsAt id a) (hend : ∀ id, ¬p.EndsAt id a) :
    p.openAt (a + 1) = p.openAt a := by
  have hscope : p.scopeAt (a + 1) = p.scopeAt a := by
    rw [scopeAt]
    split
    · next id h => exact absurd h (hstart id)
    · next id exit h => exact absurd ⟨exit, h⟩ (hend id)
    · rfl
  rw [openAt, openAt, hscope]

/-- Reading an instruction opens the loop whose round starts there, or closes the loop opened last,
or neither. -/
theorem openAt_succ (hp : p.Scoped) (a : Nat) :
    (∃ id, p.StartsAt id a ∧ p.openAt (a + 1) = id :: p.openAt a) ∨
      (∃ id, p.EndsAt id a ∧ p.openAt a = id :: p.openAt (a + 1)) ∨
      p.openAt (a + 1) = p.openAt a := by
  by_cases hstart : ∃ id, p.StartsAt id a
  · exact Or.inl (hstart.imp fun id h => ⟨h, hp.openAt_start h⟩)
  · by_cases hend : ∃ id, p.EndsAt id a
    · exact Or.inr (Or.inl (hend.imp fun id h => ⟨h, (hp.openAt_end h).1⟩))
    · exact Or.inr (Or.inr (openAt_other (not_exists.mp hstart) (not_exists.mp hend)))

/-- Brackets that open later have larger numbers. -/
theorem starts_lt_iff (hp : p.Scoped) (h : p.StartsAt id a) (h' : p.StartsAt id' b) :
    id < id' ↔ a < b := by
  have hlt : ∀ {id id' a b}, p.StartsAt id a → p.StartsAt id' b → a < b → id < id' := by
    intro id id' a b h h' hab
    have hmono := (placeAt_mono (p := p) (Nat.succ_le_of_lt hab)).2
    rw [placeAt, show p.instrs[a]? = _ from h] at hmono
    rw [(hp a _ h).1, (hp b _ h').1]
    exact hmono
  refine ⟨fun hid => ?_, hlt h h'⟩
  by_cases hba : b < a
  · have := hlt h' h hba
    omega
  · -- At one address stands one instruction.
    have hne : a ≠ b := by
      rintro rfl
      cases (show p.instrs[a]? = _ from h).symm.trans h'
      exact Nat.lt_irrefl _ hid
    omega

theorem start_unique (hp : p.Scoped) (h : p.StartsAt id a) (h' : p.StartsAt id b) : a = b := by
  have hab := hp.starts_lt_iff h h'
  have hba := hp.starts_lt_iff h' h
  omega

/-! ## From one bracket to the other -/

/-- A loop that is open has been opened, and has stayed open since. -/
theorem exists_start (hp : p.Scoped) (h : id ∈ p.openAt x) :
    ∃ a, p.StartsAt id a ∧ a < x ∧ ∀ y, a < y → y ≤ x → id ∈ p.openAt y := by
  induction x with
  | zero => simp [openAt, scopeAt, Loops.chain_none] at h
  | succ x ih =>
    have hbefore : id ∈ p.openAt x → ∃ a, p.StartsAt id a ∧ a < x + 1 ∧
        ∀ y, a < y → y ≤ x + 1 → id ∈ p.openAt y := by
      intro hx
      obtain ⟨a, ha, hlt, hopen⟩ := ih hx
      refine ⟨a, ha, by omega, fun y hay hyx => ?_⟩
      by_cases hy : y = x + 1
      · exact hy ▸ h
      · exact hopen y hay (by omega)
    rcases hp.openAt_succ x with ⟨id', hstart, heq⟩ | ⟨id', hend, heq⟩ | heq
    · rw [heq, List.mem_cons] at h
      rcases h with rfl | hx
      · refine ⟨x, hstart, Nat.lt_succ_self x, fun y hxy hyx => ?_⟩
        obtain rfl : y = x + 1 := by omega
        simp [heq]
      · exact hbefore hx
    · exact hbefore (by simp [heq, h])
    · exact hbefore (heq ▸ h)

/-- No loop is closed twice. -/
theorem end_unique (hp : p.Scoped) (ha : p.EndsAt id a) (hb : p.EndsAt id b) : a = b := by
  have hlt : ∀ {a b}, p.EndsAt id a → p.EndsAt id b → ¬a < b := by
    intro a b ha hb hab
    obtain ⟨first, hfirst, hlt, _⟩ := hp.exists_start (hp.mem_openAt_of_endsAt ha)
    obtain ⟨first', hfirst', _, hopen⟩ := hp.exists_start (hp.mem_openAt_of_endsAt hb)
    obtain rfl := hp.start_unique hfirst hfirst'
    exact Nat.lt_irrefl id ((hp.openAt_end ha).2 id (hopen (a + 1) (by omega) hab))
  have hab := hlt ha hb
  have hba := hlt hb ha
  omega

/-! ## The innermost loop -/

section Closed

/- Behind the code no loop is open. -/
variable (hp : p.Scoped) (hclosed : ∀ x, p.size ≤ x → p.openAt x = [])

include hp hclosed

/-- A loop that is open will be closed. -/
theorem exists_end (h : id ∈ p.openAt x) : ∃ b, p.EndsAt id b ∧ x ≤ b := by
  have hsize : x ≤ p.size := by
    by_cases hle : p.size ≤ x
    · simp [hclosed x hle] at h
    · omega
  induction hsize using Nat.decreasingInduction with
  | self => simp [hclosed p.size (Nat.le_refl _)] at h
  | of_succ x hx ih =>
    have hbehind : id ∈ p.openAt (x + 1) → ∃ b, p.EndsAt id b ∧ x ≤ b := fun h =>
      (ih h).imp fun b hb => ⟨hb.1, by omega⟩
    rcases hp.openAt_succ x with ⟨id', hstart, heq⟩ | ⟨id', hend, heq⟩ | heq
    · exact hbehind (by simp [heq, h])
    · rw [heq, List.mem_cons] at h
      rcases h with rfl | h
      · exact ⟨x, hend, Nat.le_refl x⟩
      · exact hbehind h
    · exact hbehind (heq ▸ h)

theorem exists_brackets (h : id ∈ p.openAt x) :
    ∃ first last, p.Brackets id first last ∧ first < x ∧ x ≤ last := by
  obtain ⟨first, hstart, hlt, _⟩ := hp.exists_start h
  obtain ⟨last, hend, hle⟩ := hp.exists_end hclosed h
  exact ⟨first, last, ⟨hstart, hend⟩, hlt, hle⟩

/-- The loop is open between its brackets and nowhere else. -/
theorem mem_openAt_iff (h : p.Brackets id first last) : id ∈ p.openAt x ↔ first < x ∧ x ≤ last := by
  constructor
  · intro hx
    obtain ⟨a, b, hab, hax, hxb⟩ := hp.exists_brackets hclosed hx
    obtain rfl := hp.start_unique hab.starts h.starts
    obtain rfl := hp.end_unique hab.ends h.ends
    exact ⟨hax, hxb⟩
  · rintro ⟨hfirst, hlast⟩
    obtain ⟨a, ha, _, hopen⟩ := hp.exists_start (hp.mem_openAt_of_endsAt h.ends)
    obtain rfl := hp.start_unique ha h.starts
    exact hopen x hfirst hlast

/-- A loop that starts inside another one ends inside it. -/
theorem last_lt_last (h : p.Brackets id first last) (h' : p.Brackets id' first' last')
    (hstart : first < first') (hlast : first' < last) : last' < last := by
  by_cases hle : last ≤ last'
  · -- Where the outer loop is closed it has been opened last, so it would be the one with the
    -- larger number.
    have hid : id < id' := (hp.starts_lt_iff h.starts h'.starts).mpr hstart
    have hopen := (hp.mem_openAt_iff hclosed h' (x := last)).mpr ⟨hlast, hle⟩
    obtain ⟨hcons, hlt⟩ := hp.openAt_end h.ends
    rw [hcons, List.mem_cons] at hopen
    rcases hopen with rfl | hopen
    · exact absurd hid (Nat.lt_irrefl _)
    · have := hlt id' hopen
      omega
  · omega

theorem nested (h : p.Brackets id first last) (h' : p.Brackets id' first' last') (hne : id ≠ id') :
    last < first' ∨ last' < first ∨ first < first' ∧ last' < last ∨ first' < first ∧
      last < last' := by
  have hclash : ∀ {id id' a b a' b'}, p.Brackets id a b → p.Brackets id' a' b' → a < a' →
      b < a' ∨ a < a' ∧ b' < b := by
    intro id id' a b a' b' h h' haa'
    by_cases hba : b < a'
    · exact Or.inl hba
    · have hends : b ≠ a' := by
        rintro rfl
        obtain ⟨exit, hend⟩ := h.ends
        cases hend.symm.trans h'.starts
      exact Or.inr ⟨haa', hp.last_lt_last hclosed h h' haa' (by omega)⟩
  rcases Nat.lt_trichotomy id id' with hid | hid | hid
  · rcases hclash h h' ((hp.starts_lt_iff h.starts h'.starts).mp hid) with h | h <;> simp [h]
  · exact absurd hid hne
  · rcases hclash h' h ((hp.starts_lt_iff h'.starts h.starts).mp hid) with h | h <;> simp [h]

/-- At every address but the end of a round, the scope is the loop whose brackets enclose it most
closely. -/
theorem innermost_scopeAt (hend : ∀ id, ¬p.EndsAt id x) : p.Innermost x (p.scopeAt x) := by
  have henclosed : ∀ {id first last}, p.Brackets id first last → first < x → x < last →
      id ∈ p.openAt x := fun h hfirst hlast =>
    (hp.mem_openAt_iff hclosed h).mpr ⟨hfirst, Nat.le_of_lt hlast⟩
  cases hscope : p.scopeAt x with
  | none =>
    rintro id first last h ⟨hfirst, hlast⟩
    have hopen := henclosed h hfirst hlast
    simp [openAt, hscope, Loops.chain_none] at hopen
  | some id =>
    have hopen : p.openAt x = id :: Loops.chain p.loopParents (Loops.parent? p.loopParents id) := by
      rw [openAt, hscope, Loops.chain_some]
    have hmem : id ∈ p.openAt x := by simp [hopen]
    obtain ⟨first, last, h, hfirst, hlast⟩ := hp.exists_brackets hclosed hmem
    have hne : x ≠ last := fun heq => hend id (heq ▸ h.ends)
    refine ⟨first, last, h, hfirst, by omega, fun id' first' last' h' hid hfirst' hlast' => ?_⟩
    have houter := henclosed h' hfirst' hlast'
    rw [hopen, List.mem_cons] at houter
    have hlt : first' < first :=
      (hp.starts_lt_iff h'.starts h.starts).mp (lt_of_mem_chain (houter.resolve_left hid))
    exact ⟨hlt, hp.last_lt_last hclosed h' h hlt (by omega)⟩

theorem bracketed (hstarts : ∀ id, id < p.loopCount → ∃ a, p.StartsAt id a)
    (hparents : ∀ id outer : Nat, p.loopParents[id]? = some (some outer) → outer < id) :
    p.Bracketed where
  numbered id a h := by
    rcases h with h | h
    · exact (hp a _ h).2.1
    · obtain ⟨first, hfirst, _⟩ := hp.exists_start (hp.mem_openAt_of_endsAt h)
      exact (hp first _ hfirst).2.1
  paired id hid := by
    obtain ⟨first, hfirst⟩ := hstarts id hid
    have hopen : id ∈ p.openAt (first + 1) := by simp [hp.openAt_start hfirst]
    obtain ⟨last, hlast, hle⟩ := hp.exists_end hclosed hopen
    exact ⟨first, last, hle,
      fun a => ⟨fun ha => hp.start_unique ha hfirst, fun ha => ha ▸ hfirst⟩,
      fun a => ⟨fun ha => hp.end_unique ha hlast, fun ha => ha ▸ hlast⟩⟩
  nested _ _ _ _ _ _ := hp.nested hclosed
  parents id a h := by
    have hlt : id < p.loopParents.size := (hp a _ h).2.1
    have hend : ∀ id, ¬p.EndsAt id a := fun id ⟨exit, hend⟩ => nomatch (Eq.symm h).trans hend
    refine ⟨p.loopParents[id], Array.getElem?_eq_getElem hlt, ?_, fun outer houter => ?_⟩
    · have hparent := parent?_of_numbered (Array.getElem?_eq_getElem hlt) fun outer houter =>
        hparents id outer (by rw [Array.getElem?_eq_getElem hlt, houter])
      rw [← hparent, (hp a _ h).2.2]
      exact hp.innermost_scopeAt hclosed hend
    · exact hparents id outer (by rw [Array.getElem?_eq_getElem hlt, houter])
  scopes id first second a h :=
    ⟨p.scopeAt a, (hp a _ h).1.2,
      hp.innermost_scopeAt hclosed fun _ ⟨_, hend⟩ => nomatch h.symm.trans hend⟩

end Closed

end Scoped

/-! ## The tables -/

/-- Behind the code of a program no loop is open. -/
theorem openAt_program (c : Core) (captures : Nat) (hx : (c.program captures).size ≤ x) :
    (c.program captures).openAt x = [] := by
  obtain ⟨hcode, haccept⟩ := Core.loadedAt_program c captures
  have hstands := Core.stands_after hcode (stands_start _)
  have hsize : (c.program captures).size = (c.after .start).address + 1 := by
    rw [Core.size_program, Core.after]
    simp [Place.offset, Place.start]
  have hscope : (c.program captures).scopeAt x = none := by
    induction hx with
    | refl =>
      rw [hsize, scopeAt, haccept]
      exact hstands.scope_eq
    | @step x hle ih =>
      have hnone : (c.program captures).instrs[x]? = none := Array.getElem?_eq_none hle
      rw [scopeAt, hnone]
      exact ih
  rw [openAt, hscope, Loops.chain_none]

/-- Every loop has a round: the numbers of the starts of rounds are those of the loops. -/
theorem exists_startsAt
    (hloopIds : p.instrs.toList.filterMap Instr.loopId? = List.range p.loopCount)
    (hid : id < p.loopCount) : ∃ a, p.StartsAt id a := by
  have hmem : id ∈ p.instrs.toList.filterMap Instr.loopId? := by rwa [hloopIds, List.mem_range]
  obtain ⟨instr, hinstr, hloop⟩ := List.mem_filterMap.mp hmem
  obtain ⟨a, ha⟩ := Array.mem_iff_getElem?.mp (Array.mem_toList_iff.mp hinstr)
  cases instr <;> simp [Instr.loopId?] at hloop
  exact ⟨a, hloop ▸ ha⟩

/-- In every program that is compiled the rounds are nested, and the tables name the innermost round
around each split and each round, whether the code was generated in place or copied. -/
theorem bracketed_ofPattern {limit : Nat} {pattern : Pattern}
    (h : Program.ofPattern limit pattern = .ok p) : p.Bracketed := by
  obtain ⟨_, rfl⟩ := eq_program_of_ofPattern h
  -- The code and the tables do not depend on the number of captures.
  have hform := wellFormed_program pattern.root
  exact (Core.scoped_program pattern.core pattern.captures).bracketed
    (fun _ => openAt_program pattern.core pattern.captures) (fun _ => exists_startsAt hform.loopIds)
    hform.parents

/-- Two watched loops, one directly inside the other, in copies of copies. -/
theorem bracketed_copies : ∃ p,
    Program.ofPattern 64
        (.ofExpr (.repeated (.repeated (.star (.star (.star (.byte 97) .greedy) .lazy) .greedy)
          1 (some 2) .lazy) 2 (some 2) .greedy)) = .ok p ∧
    p.Bracketed ∧ p.loopParents = #[none, some 0, none, some 2, none, some 4, none, some 6] := by
  have hprogram :=
    ofPattern_eq 64 (.ofExpr (.repeated (.repeated (.star (.star (.star (.byte 97) .greedy) .lazy)
    .greedy) 1 (some 2) .lazy) 2 (some 2) .greedy))
  rw [if_pos (by decide)] at hprogram
  exact ⟨_, hprogram, bracketed_ofPattern hprogram, rfl⟩

end Program

end ByteRegex
