import ByteRegex.Proofs.Match.Captures
import ByteRegex.Proofs.Match.Realisation
import ByteRegex.Proofs.Search.Scans

/-!
# Searches find the leftmost match

A search without step limit answers with the reference match at the least offset that has one, and
it answers so with any room for its memory.
-/

namespace ByteRegex

/-! ## Explorations of whole programs -/

/-- Exploring a program comes to the captures of the preferred outcome of its expression. -/
theorem Core.finds_program {t : Task} {c : Core} {captures start : Nat} (hwatchful : c.Watchful)
    (hprogram : t.program = c.program captures) (hstart : start ≤ t.subject.size) (slots : Slots) :
    Finds t ⟨0, start, 0⟩ slots ((c.outcomes t.subject start slots).head?.map Prod.snd) := by
  obtain ⟨hc, haccept⟩ := loadedAt_program c captures
  rw [← hprogram] at hc haccept
  have hexit : ∀ o ∈ c.outcomes t.subject start slots,
      Finds t ((⟨0, start, 0⟩ : Spot).reach (c.after .start).address o.1) o.2 (some o.2) := by
    intro o _
    have hturn :=
      Spot.turn_eq (c := (⟨0, start, 0⟩ : Spot).reach (c.after .start).address o.1) haccept
    exact ⟨1, .accept hturn⟩
  have hfirst :
      ∀ l : List (Nat × Slots), l.findSome? (fun o => some o.2) = l.head?.map Prod.snd := by
    intro l
    cases l <;> rfl
  have h := realises_code c hwatchful hc ⟨0, start, 0⟩ slots (fun o => some o.2) rfl hstart hexit
  rwa [hfirst] at h

namespace Pattern

variable {pattern : Pattern} {subject : ByteArray} {start : Nat}

/-- The slots of a match tell its span and those of its groups. -/
theorem ofSlots?_outcome (hindices : pattern.root.indices = List.range' 1 pattern.captures)
    {o : Nat × Slots}
    (ho : o ∈ (Expr.group pattern.root (some 0)).outcomes subject start pattern.blankSlots) :
    Match.ofSlots? o.2 = some {
      span := ⟨start, o.1⟩
      groups := (List.range' 1 pattern.captures).map (Match.spanOfSlots? o.2) } := by
  have hkeeps : ∀ i, i < 2 → Matching.Keeps i (pattern.root.outcomes subject) := by
    intro i hi
    refine Expr.keeps_outcomes subject (fun index hindex => ?_)
    rw [hindices, List.mem_range'_1] at hindex
    omega
  have hsize : pattern.blankSlots.size = 2 * (pattern.captures + 1) := Array.size_replicate
  obtain ⟨o₁, ho₁, ho⟩ := Matching.mem_andThen.mp ho
  obtain rfl : o₁ = (start, pattern.blankSlots.setIfInBounds 0 (some start)) :=
    List.mem_singleton.mp ho₁
  obtain ⟨o₂, ho₂, ho⟩ := Matching.mem_andThen.mp ho
  obtain rfl : o = (o₂.1, o₂.2.setIfInBounds 1 (some o₂.1)) := List.mem_singleton.mp ho
  obtain ⟨hsize₂, hzero⟩ := hkeeps 0 (by omega) _ _ o₂ ho₂
  rw [Array.size_setIfInBounds, hsize] at hsize₂
  have hfirst : (o₂.2.setIfInBounds 1 (some o₂.1)).getD 0 none = some start := by
    rw [Array.getD_eq_getD_getElem?, Array.getElem?_setIfInBounds_ne (by omega), hzero,
      Array.getElem?_setIfInBounds_self_of_lt (by omega), Option.getD_some]
  have hlast : (o₂.2.setIfInBounds 1 (some o₂.1)).getD 1 none = some o₂.1 := by
    rw [Array.getD_eq_getD_getElem?, Array.getElem?_setIfInBounds_self_of_lt (by omega),
      Option.getD_some]
  have hgroups : (o₂.2.setIfInBounds 1 (some o₂.1)).size / 2 - 1 = pattern.captures := by
    rw [Array.size_setIfInBounds, hsize₂]
    omega
  have hspan : Match.spanOfSlots? (o₂.2.setIfInBounds 1 (some o₂.1)) 0 = some ⟨start, o₂.1⟩ := by
    rw [Match.spanOfSlots?, hfirst, hlast]
  rw [Match.ofSlots?, hspan, Option.map_some, hgroups]

/-- The captures of the preferred outcome describe the reference match. -/
theorem map_ofSlots?_outcomes (hnormal : pattern.root.Normal)
    (hindices : pattern.root.indices = List.range' 1 pattern.captures) (subject : ByteArray)
    (start : Nat) :
    ((pattern.core.outcomes subject start pattern.blankSlots).head?.map Prod.snd).map
        Match.ofSlots? =
      (pattern.matchAt subject start).map some := by
  have hcore := (hnormal.group (some 0)).spelledOut.outcomes subject
  rw [core, hcore, matchAt]
  cases hhead :
    ((Expr.group pattern.root (some 0)).outcomes subject start pattern.blankSlots).head? with
  | none => rfl
  | some o => exact congrArg some (ofSlots?_outcome hindices (List.mem_of_mem_head? hhead))

end Pattern

/-! ## Searches -/

namespace Matcher

variable {limits : Limits} {text : String} {m : Matcher} {pattern : Pattern}

/-- Exploring an offset of the subject comes to the captures of the reference match there. -/
theorem BuiltFrom.explores (h : m.BuiltFrom pattern) {subject : ByteArray} {pos : Nat}
    (hpos : pos ≤ subject.size) : ∃ result n,
      Explores (m.task subject) ⟨0, pos, 0⟩ (Trail.blank m.program) result n ∧
      n < (m.task subject).room ∧
      result.map Match.ofSlots? = (pattern.matchAt subject pos).map some := by
  have hruns := h.runs subject m.limits.maxVisitedBits
  have hblank : Trail.blank m.program = pattern.blankSlots := by
    rw [h.program]
    rfl
  obtain ⟨result, n, hexplores, hn⟩ := hruns.explores hpos (Trail.blank m.program)
  obtain ⟨n', hfinds⟩ := Core.finds_program (t := m.task subject) hruns.watchful h.program hpos
    (Trail.blank m.program)
  obtain ⟨rfl, _⟩ := hexplores.unique hfinds
  refine ⟨_, n, hexplores, hn, ?_⟩
  rw [hblank]
  exact Pattern.map_ofSlots?_outcomes h.normal h.indices subject pos

/-- An attempt that no limit stops comes to a match exactly where there is a reference match. -/
theorem BuiltFrom.accepted_iff (h : m.BuiltFrom pattern) (hlimit : m.limits.stepLimit = none)
    {subject : ByteArray} {trail : Trail} (htrail : trail.Sound (m.task subject)) {start : Nat}
    (hstart : start ≤ subject.size) :
    (∃ slots,
        (trail.attempt (m.task subject) (m.ceiling subject) 0 start).result = .accepted slots) ↔
      pattern.matchAt subject start ≠ none := by
  obtain ⟨result, n, hexplores, hn, hmatch⟩ := h.explores hstart
  obtain ⟨hresult, _⟩ := h.attempt hlimit htrail hstart hexplores hn
  rw [hresult]
  cases result with
  | none =>
    have hnone : pattern.matchAt subject start = none := Option.map_eq_none_iff.mp hmatch.symm
    exact ⟨fun ⟨_, haccepted⟩ => (nomatch haccepted), fun hsome => absurd hnone hsome⟩
  | some slots =>
    refine ⟨fun _ hnone => ?_, fun _ => ⟨slots, rfl⟩⟩
    rw [hnone] at hmatch
    exact nomatch hmatch

/-- Exploring the offsets of the subject one after the other comes to the reference match. -/
theorem BuiltFrom.explored (h : m.BuiltFrom pattern) (subject : ByteArray) (start : Nat) :
    ∃ n, Search.Explored (m.task subject) start n (.ofMatch (pattern.leftmost subject start)) ∧
      n ≤ (subject.size + 1) * (m.task subject).room := by
  obtain ⟨n, hexplored, hn⟩ :=
    Search.exists_explored (t := m.task subject) (pattern.matchAt subject)
      (fun _ => h.explores) start
  exact ⟨n, hexplored, Nat.le_trans hn (Nat.mul_le_mul_right _ (Nat.sub_le _ _))⟩

/-- A search comes to the reference match, whatever a sound trail holds. -/
theorem BuiltFrom.exists_takes (h : m.BuiltFrom pattern) {subject : ByteArray} {trail : Trail}
    (htrail : trail.Sound (m.task subject)) (start : Nat) :
    ∃ n next,
      Search.Takes (m.task subject) start trail n (.ofMatch (pattern.leftmost subject start)) next ∧
      next.Sound (m.task subject) ∧ n ≤ (subject.size + 1) * (m.task subject).room := by
  have hruns := h.runs subject m.limits.maxVisitedBits
  obtain ⟨n, hexplored, hn⟩ := h.explored subject start
  obtain ⟨k, next, htakes, hnext, hk⟩ :=
    hexplored.takes hruns.coherent (fun _ hpos => ⟨_, hruns.endsIn hpos⟩) htrail
  exact ⟨k, next, htakes, hnext, Nat.le_trans hk hn⟩

/-- Without step limit a search is not stopped. -/
theorem BuiltFrom.search_eq (h : m.BuiltFrom pattern) (hlimit : m.limits.stepLimit = none)
    {subject : ByteArray} {trail next : Trail} {start n : Nat} {result : SearchEnd}
    (htakes : Search.Takes (m.task subject) start trail n result next)
    (hn : n ≤ (subject.size + 1) * (m.task subject).room) :
    m.search subject trail start = ⟨result, next, n⟩ := by
  have hroom := m.room_le_ceiling h hlimit subject
  rw [search, htakes.scan_eq (by omega), Nat.zero_add]

/-- A search without step limit answers with the reference match. -/
theorem BuiltFrom.findAt_eq (h : m.BuiltFrom pattern) (hlimit : m.limits.stepLimit = none)
    (subject : ByteArray) (start : Nat) :
    (m.findAt subject start).value = .ok (pattern.leftmost subject start) := by
  obtain ⟨n, next, htakes, _, hn⟩ := h.exists_takes (Trail.sound_initial (m.task subject)) start
  exact (congrArg m.answer (h.search_eq hlimit htakes hn)).trans (answer_ofMatch m _ next n)

/-- Without step limit, and with any room for a table, `findAt` answers with the preferred match at
the least offset that has one, as the expression of the pattern defines them. -/
theorem findAt_eq_leftmost (hpattern : Pattern.ofText limits.pattern text = .ok pattern)
    (hbuild : (build limits text).value = .ok m) (hlimit : limits.stepLimit = none)
    (subject : ByteArray) (start : Nat) :
    (m.findAt subject start).value = .ok (pattern.leftmost subject start) := by
  obtain ⟨hbuilt, rfl⟩ := builtFrom_of_build hbuild hpattern
  exact hbuilt.findAt_eq hlimit subject start

/-- A lazy option is tried where going on without it fails. -/
theorem findAt_lazy_option :
    ∃ pattern m, Pattern.ofText (Limits.pattern {}) "(a|b)??c" = .ok pattern ∧
      (build { maxVisitedBits := 0 } "(a|b)??c").value = .ok m ∧
      (m.findAt "xbc".toUTF8 0).value = .ok (pattern.leftmost "xbc".toUTF8 0) ∧
      pattern.leftmost "xbc".toUTF8 0 = some ⟨⟨1, 3⟩, [some ⟨1, 2⟩]⟩ := by
  have hpattern : Pattern.ofText (Limits.pattern { maxVisitedBits := 0 }) "(a|b)??c" = .ok {
      root := .concat [
        .optional (.group (.alternate [.byte 97, .byte 98]) (some 1)) .lazy,
        .byte 99]
      captures := 1 } := rfl
  have hbuild := (build_value hpattern).trans (if_pos (by decide))
  exact ⟨_, _, hpattern, hbuild, findAt_eq_leftmost hpattern hbuild rfl _ 0, rfl⟩

end Matcher

end ByteRegex
