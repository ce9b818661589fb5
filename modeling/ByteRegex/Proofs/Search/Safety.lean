import ByteRegex.Proofs.Exec.Reaching
import ByteRegex.Proofs.Match.Enclosure
import ByteRegex.Proofs.Search.Leftmost

/-!
# Attempts are safe

However attempts follow one another on a machine, whatever an instruction looks up is there: the
machine stays inside the program and the subject, and each number in the code is that of an entry.
When the subject matches, the ends of the match have been recorded.
-/

namespace ByteRegex

namespace State

/-- All that the instruction at the address of the state looks up is there, and so is all that is
looked up to take back the stack. -/
structure Safe (t : Task) (s : State) : Prop where
  address : s.address < t.program.size
  pos : s.pos ≤ t.subject.size
  save : ∀ slot, t.program.instrs[s.address]? = some (.save slot) → slot < s.slots.size
  roundStart : ∀ loop, t.program.instrs[s.address]? = some (.roundStart loop) →
    loop < s.roundStarts.size
  roundEnd : ∀ loop exit, t.program.instrs[s.address]? = some (.roundEnd loop exit) →
    loop < s.roundStarts.size
  split : ∀ id first second, t.program.instrs[s.address]? = some (.split id first second) →
    id < t.program.splitScopes.size ∧ id < t.program.memo.bases.size ∧
      (∀ loop ∈ Loops.chain t.program.loopParents (t.program.splitScopes.getD id none),
        loop < s.roundStarts.size ∧ loop < t.program.loopParents.size) ∧
      s.cell t.program id < t.program.tableSize t.subject.size
  table : ∀ table, s.memo = .active table → table.cells.size = t.program.tableSize t.subject.size
  stack : ∀ frame ∈ s.stack, match frame with
    | .retry address pos => address < t.program.size ∧ pos ≤ t.subject.size
    | .restoreSlot slot _ => slot < s.slots.size
    | .restoreRound loop _ => loop < s.roundStarts.size

/-- In this state, where an attempt at `start` comes to a match, the ends of the match have been
recorded, and the cells to be forgotten are cells of the table. -/
structure SafeMatch (t : Task) (start : Nat) (s : State) : Prop where
  recorded : ∃ first last, s.slots[0]? = some (some first) ∧ s.slots[1]? = some (some last)
  forgotten : ∀ table, s.memo = .active table →
    start * t.program.memo.cells ≤ (s.maxPos + 1) * t.program.memo.cells ∧
      (s.maxPos + 1) * t.program.memo.cells ≤ table.cells.size

variable {t : Task} {start : Nat} {s : State}

theorem InBounds.size_table (hs : s.InBounds t start) {table : MarkTable}
    (htable : s.memo = .active table) : table.cells.size = t.program.tableSize t.subject.size := by
  have hfits := hs.memo
  rw [htable] at hfits
  exact hfits.1

theorem InBounds.safe (hs : s.InBounds t start) (hp : t.program.Closed) (horderly : s.Orderly t) :
    s.Safe t where
  address := hs.address
  pos := hs.pos
  save slot hinstr := hs.slots.symm ▸ hp.slots hinstr
  roundStart loop hinstr := by
    rw [horderly.loops]
    exact (hp.coherent.fits _ _ hinstr).2.1
  roundEnd loop exit hinstr := by
    have hnested := horderly.nested
    rw [(hp.coherent.fits _ _ hinstr).1] at hnested
    cases hnested with
    | some hstart _ _ => exact (Array.getElem?_eq_some_iff.mp hstart).1
  split id first second hinstr := by
    have hsplit := hp.coherent.fits.split_lt hinstr
    refine ⟨hsplit, hp.coherent.laidOut.size_bases.symm ▸ hsplit, fun loop hloop => ?_,
      hs.cell_lt hp.coherent hinstr⟩
    rw [hp.coherent.fits.scope_of_split hinstr] at hloop
    have hlt := horderly.nested.lt_size loop hloop
    exact ⟨hlt, Nat.lt_of_lt_of_eq hlt horderly.loops⟩
  table table htable := hs.size_table htable
  stack frame hframe := by
    have hbounds := hs.stack frame hframe
    cases frame with
    | retry address pos => exact hbounds
    | restoreSlot slot offset => exact hs.slots.symm ▸ hbounds
    | restoreRound loop offset => exact horderly.loops.symm ▸ hbounds

/-- The cells of the offsets that an attempt has been to are cells of the table. -/
theorem InBounds.safeMatch (hs : s.InBounds t start) {found : Match}
    (hfound : Match.ofSlots? s.slots = some found) : s.SafeMatch t start where
  recorded := by
    obtain ⟨span, hspan, _⟩ := Option.map_eq_some_iff.mp hfound
    exact ⟨span.start, span.stop, Match.slots_of_spanOfSlots? hspan⟩
  forgotten table htable := by
    have hstarted := hs.started
    have hmaxPos := hs.maxPos
    -- The largest offset is one of the subject, and the start comes no later.
    rw [hs.size_table htable, Program.tableSize, Nat.mul_comm t.program.memo.cells]
    exact ⟨Nat.mul_le_mul_right _ (by omega), Nat.mul_le_mul_right _ (by omega)⟩

end State

namespace Trail

variable {t : Task} {trail : Trail} {start : Nat} {s : State}

theorem Reachable.fits (h : trail.Reachable t) (hp : t.program.Closed) : trail.memo.Fits t :=
  h.passes (P := fun trail => trail.memo.Fits t) trivial fun hmemo hstart htakes =>
    htakes.fits hp hmemo hstart

/-- Every state of an attempt is within bounds. -/
theorem Reachable.inBounds (h : trail.Reachable t) (hp : t.program.Closed)
    (hstart : start ≤ t.subject.size) (hs : State.Reaches t (trail.begin t.program start) s) :
    s.InBounds t start := by
  induction hs with
  | refl => exact State.inBounds_begin hp (h.fits hp) hstart
  | tail _ hstep ih =>
    have hnext := ih.step hp
    rwa [hstep] at hnext

end Trail

namespace Matcher

variable {limits : Limits} {text : String} {m : Matcher} {pattern : Pattern} {subject : ByteArray}
  {trail : Trail} {start : Nat}

theorem BuiltFrom.sound_of_reachable (h : m.BuiltFrom pattern)
    (htrail : trail.Reachable (m.task subject)) : trail.Sound (m.task subject) := by
  have hruns := h.runs subject m.limits.maxVisitedBits
  exact htrail.sound hruns.coherent fun start hstart => ⟨_, hruns.endsIn hstart⟩

theorem BuiltFrom.placed (h : m.BuiltFrom pattern) (htrail : trail.Reachable (m.task subject))
    (hstart : start ≤ subject.size) {s : State}
    (hs : State.Reaches (m.task subject) (trail.begin m.program start) s) :
    s.Placed (m.task subject) := by
  have hruns := h.runs subject m.limits.maxVisitedBits
  have hsettled := (h.sound_of_reachable htrail).settled ⟨_, hruns.endsIn hstart⟩
  exact hs.placed hruns.coherent.fits hsettled

theorem BuiltFrom.exists_ofSlots? (h : m.BuiltFrom pattern) (htrail : trail.Sound (m.task subject))
    (hstart : start ≤ subject.size) {n : Nat} {u : State}
    (hleads : Leads (m.task subject) (trail.begin m.program start) n (.accepted u)) :
    ∃ found, Match.ofSlots? u.slots = some found := by
  have hruns := h.runs subject m.limits.maxVisitedBits
  -- The attempt comes to what exploring its start comes to, which is a reference match.
  obtain ⟨result, k, hexplores, _, hmatch⟩ := h.explores hstart
  obtain ⟨_, next, htakes, _⟩ := htrail.takes hruns.coherent ⟨_, hruns.endsIn hstart⟩ hexplores
  have haccepted : Trail.Takes (m.task subject) trail start n (.accepted u.slots) _ :=
    .accepted hleads
  obtain ⟨hresult, _⟩ := haccepted.unique htakes
  cases result with
  | none => cases hresult
  | some slots =>
    obtain rfl := AttemptEnd.accepted.inj hresult
    cases hfound : pattern.matchAt subject start with
    | none =>
      rw [hfound] at hmatch
      cases hmatch
    | some found =>
      rw [hfound] at hmatch
      exact ⟨found, Option.some.inj hmatch⟩

/-- Attempts at offsets of a subject may follow one another in any order, under any limits. As long
as none of them was stopped, an attempt looks up nothing that is not there, in whichever state it
executes an instruction, and where it comes to a match this has a start and an end. -/
theorem attempts_safe (hbuild : (build limits text).value = .ok m) (subject : ByteArray)
    (trail : Trail) (htrail : trail.Reachable (m.task subject)) (start : Nat)
    (hstart : start ≤ subject.size) (s : State)
    (hs : State.Reaches (m.task subject) (trail.begin m.program start) s) :
    s.Safe (m.task subject) ∧
      ∀ u, s.step (m.task subject) = .accepted u → u.SafeMatch (m.task subject) start := by
  obtain ⟨pattern, hbuilt, rfl⟩ := exists_builtFrom_of_build hbuild
  have hsound := hbuilt.sound_of_reachable htrail
  have hbounds := htrail.inBounds hbuilt.closed hstart hs
  have hplaced := hbuilt.placed htrail hstart hs
  refine ⟨hbounds.safe hbuilt.closed hplaced.orderly, fun u hu => ?_⟩
  obtain ⟨n, hleads⟩ := hs.exists_leads hu
  obtain ⟨found, hfound⟩ := hbuilt.exists_ofSlots? hsound hstart hleads
  have hend := hbounds.step hbuilt.closed
  rw [hu] at hend
  exact State.InBounds.safeMatch hend hfound

/-- An attempt that comes to a match, on a machine that has made another attempt before. -/
theorem attempts_safe_second_attempt :
    ∃ m trail s u, (build { maxVisitedBits := 40 } "(a*)+b").value = .ok m ∧
      Trail.Reachable (m.task "xaab".toUTF8) trail ∧
      State.Reaches (m.task "xaab".toUTF8) (trail.begin m.program 1) s ∧
      s.step (m.task "xaab".toUTF8) = .accepted u ∧ s.Safe (m.task "xaab".toUTF8) ∧
      u.SafeMatch (m.task "xaab".toUTF8) 1 := by
  have hpattern : Pattern.ofText (Limits.pattern { maxVisitedBits := 40 }) "(a*)+b" = .ok {
      root := .concat [.plus (.group (.star (.byte 97) .greedy) (some 1)) .greedy, .byte 98]
      captures := 1 } := rfl
  have hbuild := (build_value hpattern).trans (if_pos (by decide))
  obtain ⟨hbuilt, _⟩ := builtFrom_of_build hbuild hpattern
  have hearlier : 2 ≤ "xaab".toUTF8.size := by decide
  have hstart : 1 ≤ "xaab".toUTF8.size := by decide
  obtain ⟨result, n, hexplores, hn, _⟩ := hbuilt.explores hearlier
  obtain ⟨hended, hsound⟩ := hbuilt.attempt rfl (Trail.sound_initial _) hearlier hexplores hn
  have htrail := Trail.Reachable.initial.attempt _ 0 2 hearlier
    (hended ▸ AttemptEnd.ofResult_ne_stopped result)
  obtain ⟨slots, haccepted⟩ := (hbuilt.accepted_iff rfl hsound hstart).mpr (by decide +kernel)
  obtain ⟨s, u, hs, hstep, _⟩ := Trail.exists_reaches_of_accepted haccepted
  obtain ⟨hsafe, hmatch⟩ := attempts_safe hbuild "xaab".toUTF8 _ htrail 1 hstart s hs
  exact ⟨_, _, s, u, hbuild, htrail, hs, hstep, hsafe, hmatch u hstep⟩

end Matcher

end ByteRegex
