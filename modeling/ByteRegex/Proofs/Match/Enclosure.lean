import ByteRegex.Proofs.Match.Captures
import ByteRegex.Proofs.Match.Spelling

/-!
# The spans of groups

What a group captures lies inside of what is matched around it. So the spans of a match are all
parts of the subject, and each of them starts before it stops.
-/

namespace ByteRegex

namespace Matching

/-- From `a` to `b` the slots of the group `k` stay what they are, or they come to hold a span of
which `Q` holds between the offsets of `a` and `b`. -/
structure Fills (k : Nat) (Q : Nat → Nat → Span → Prop) (a b : Nat × Slots) : Prop where
  le : a.1 ≤ b.1
  size_eq : b.2.size = a.2.size
  slots : 2 * k + 1 < a.2.size →
    (b.2[2 * k]? = a.2[2 * k]? ∧ b.2[2 * k + 1]? = a.2[2 * k + 1]?) ∨
      ∃ span : Span,
        (b.2[2 * k]? = some (some span.start) ∧ b.2[2 * k + 1]? = some (some span.stop)) ∧
        Q a.1 b.1 span

/-- What holds of a span between two offsets also holds of it between offsets around these. -/
def Widens (Q : Nat → Nat → Span → Prop) : Prop :=
  ∀ {i i' j j' span}, i ≤ i' → j' ≤ j → Q i' j' span → Q i j span

variable {k index : Nat} {Q : Nat → Nat → Span → Prop} {f : Matching}

theorem steps_fills (hQ : Widens Q) (k : Nat) : Steps (Fills k Q) where
  refl _ := ⟨Nat.le_refl _, rfl, fun _ => Or.inl ⟨rfl, rfl⟩⟩
  read _ _ := ⟨Nat.le_succ _, rfl, fun _ => Or.inl ⟨rfl, rfl⟩⟩
  trans hab hbc := by
    refine ⟨Nat.le_trans hab.le hbc.le, hbc.size_eq.trans hab.size_eq, fun hsize => ?_⟩
    -- What has been written last is in the slots.
    rcases hbc.slots (hab.size_eq ▸ hsize) with ⟨hstart, hstop⟩ | ⟨span, hspan, hQspan⟩
    · rcases hab.slots hsize with hsame | ⟨span, hspan, hQspan⟩
      · exact Or.inl ⟨hstart.trans hsame.1, hstop.trans hsame.2⟩
      · exact Or.inr ⟨span, ⟨hstart.trans hspan.1, hstop.trans hspan.2⟩,
          hQ (Nat.le_refl _) hbc.le hQspan⟩
    · exact Or.inr ⟨span, hspan, hQ hab.le (Nat.le_refl _) hQspan⟩

/-- Passing through a group is passing through its part between two writes to its slots. -/
theorem mem_captured {pos : Nat} {slots : Slots} {o : Nat × Slots}
    (ho : o ∈ captured index f pos slots) :
    ∃ o' ∈ f pos (slots.setIfInBounds (2 * index) (some pos)),
      o = (o'.1, o'.2.setIfInBounds (2 * index + 1) (some o'.1)) := by
  obtain ⟨o₁, ho₁, ho⟩ := mem_andThen.mp ho
  obtain rfl : o₁ = (pos, slots.setIfInBounds (2 * index) (some pos)) := List.mem_singleton.mp ho₁
  obtain ⟨o₂, ho₂, ho⟩ := mem_andThen.mp ho
  exact ⟨o₂, ho₂, List.mem_singleton.mp ho⟩

theorem fills_captured_of_ne (hindex : index ≠ k) (hf : Respects (Fills k Q) f) :
    Respects (Fills k Q) (captured index f) := by
  intro pos slots o ho
  obtain ⟨o', ho', rfl⟩ := mem_captured ho
  have hbody := hf _ _ o' ho'
  have hsize' : o'.2.size = slots.size := hbody.size_eq.trans Array.size_setIfInBounds
  refine ⟨hbody.le, Array.size_setIfInBounds.trans hsize', fun (hsize : _ < slots.size) => ?_⟩
  -- Neither of the two writes of the group is to one of the slots.
  have hother : ∀ i, i = 2 * k ∨ i = 2 * k + 1 →
      (o'.2.setIfInBounds (2 * index + 1) (some o'.1))[i]? = o'.2[i]? ∧
        (slots.setIfInBounds (2 * index) (some pos))[i]? = slots[i]? := by
    intro i hi
    exact ⟨Array.getElem?_setIfInBounds_ne (by omega), Array.getElem?_setIfInBounds_ne (by omega)⟩
  obtain ⟨hstart, hstart'⟩ := hother (2 * k) (Or.inl rfl)
  obtain ⟨hstop, hstop'⟩ := hother (2 * k + 1) (Or.inr rfl)
  rcases hbody.slots (Nat.lt_of_lt_of_eq hsize Array.size_setIfInBounds.symm) with
    ⟨hsame, hsame'⟩ | ⟨span, hspan, hQ⟩
  · exact Or.inl ⟨hstart.trans (hsame.trans hstart'), hstop.trans (hsame'.trans hstop')⟩
  · exact Or.inr ⟨span, ⟨hstart.trans hspan.1, hstop.trans hspan.2⟩, hQ⟩

abbrev Encloses (k : Nat) : Nat × Slots → Nat × Slots → Prop :=
  Fills k fun i j span => i ≤ span.start ∧ span.start ≤ span.stop ∧ span.stop ≤ j

theorem steps_encloses (k : Nat) : Steps (Encloses k) :=
  steps_fills (fun hi hj ⟨hle, hforward, hbefore⟩ =>
    ⟨Nat.le_trans hi hle, hforward, Nat.le_trans hbefore hj⟩) k

theorem encloses_captured (index : Nat) (hf : Respects (Encloses k) f) :
    Respects (Encloses k) (captured index f) := by
  by_cases hindex : index = k
  · subst hindex
    intro pos slots o ho
    obtain ⟨o', ho', rfl⟩ := mem_captured ho
    have hbody := hf _ _ o' ho'
    have hsize' : o'.2.size = slots.size := hbody.size_eq.trans Array.size_setIfInBounds
    refine ⟨hbody.le, Array.size_setIfInBounds.trans hsize',
      fun (hsize : _ < slots.size) => Or.inr ?_⟩
    have hstop :
        (o'.2.setIfInBounds (2 * index + 1) (some o'.1))[2 * index + 1]? = some (some o'.1) :=
      Array.getElem?_setIfInBounds_self_of_lt (by omega)
    have hstart : (o'.2.setIfInBounds (2 * index + 1) (some o'.1))[2 * index]? = o'.2[2 * index]? :=
      Array.getElem?_setIfInBounds_ne (by omega)
    -- The start is the one written in front of the part, or that of a group of the same index in
    -- the part.
    rcases hbody.slots (Nat.lt_of_lt_of_eq hsize Array.size_setIfInBounds.symm) with
      ⟨hsame, _⟩ | ⟨span, ⟨hspan, _⟩, hle, hforward, hbefore⟩
    · rw [Array.getElem?_setIfInBounds_self_of_lt (by omega)] at hsame
      exact ⟨⟨pos, o'.1⟩, ⟨hstart.trans hsame, hstop⟩, Nat.le_refl _, hbody.le, Nat.le_refl _⟩
    · exact ⟨⟨span.start, o'.1⟩, ⟨hstart.trans hspan, hstop⟩, hle, Nat.le_trans hforward hbefore,
        Nat.le_refl _⟩
  · exact fills_captured_of_ne hindex hf

end Matching

theorem Expr.encloses_outcomes (subject : ByteArray) (k : Nat) (e : Expr) :
    Matching.Respects (Matching.Encloses k) (e.outcomes subject) :=
  respects_outcomes subject (Matching.steps_encloses k)
    (fun _ index _ => Matching.encloses_captured index)

namespace Match

/-- The spans of a match are parts of a subject, from the offset `lo` on, and those of the groups
are parts of the whole match. -/
structure FitsIn (lo length captures : Nat) (found : Match) : Prop where
  behind : lo ≤ found.span.start
  forward : found.span.start ≤ found.span.stop
  inside : found.span.stop ≤ length
  groups_length : found.groups.length = captures
  groups : ∀ index span, found.group? index = some span →
    found.span.start ≤ span.start ∧ span.start ≤ span.stop ∧ span.stop ≤ found.span.stop

theorem FitsIn.mono {lo lo' length captures : Nat} {found : Match}
    (h : found.FitsIn lo length captures) (hlo : lo' ≤ lo) : found.FitsIn lo' length captures :=
  ⟨Nat.le_trans hlo h.behind, h.forward, h.inside, h.groups_length, h.groups⟩

theorem slots_of_spanOfSlots? {slots : Slots} {k : Nat} {span : Span}
    (h : spanOfSlots? slots k = some span) :
    slots[2 * k]? = some (some span.start) ∧ slots[2 * k + 1]? = some (some span.stop) := by
  have hslot : ∀ {i pos}, slots.getD i none = some pos → slots[i]? = some (some pos) := by
    intro i pos hpos
    rw [Array.getD_eq_getD_getElem?] at hpos
    cases hi : slots[i]? with
    | none =>
      rw [hi] at hpos
      cases hpos
    | some offset =>
      rw [hi] at hpos
      exact congrArg some hpos
  unfold spanOfSlots? at h
  split at h
  · next hstart hstop =>
    obtain rfl := Option.some.inj h
    exact ⟨hslot hstart, hslot hstop⟩
  · cases h

theorem spanOfSlots?_of_group? {slots : Slots} {captures index : Nat} {whole span : Span}
    (h : Match.group? ⟨whole, (List.range' 1 captures).map (spanOfSlots? slots)⟩ (index + 1) =
      some span) :
    index < captures ∧ spanOfSlots? slots (index + 1) = some span := by
  have hjoin : (((List.range' 1 captures).map (spanOfSlots? slots))[index]?).join = some span := h
  rw [List.getElem?_map] at hjoin
  by_cases hindex : index < captures
  · rw [List.getElem?_range' hindex, Nat.one_mul, Nat.add_comm] at hjoin
    exact ⟨hindex, hjoin⟩
  · rw [List.getElem?_eq_none (by rw [List.length_range']; omega)] at hjoin
    cases hjoin

end Match

namespace Pattern

variable {pattern : Pattern} {subject : ByteArray} {start : Nat} {found : Match}

/-- What a group of a reference match holds is what the slots of the group have been filled with. -/
theorem filled_of_group? {Q : Nat → Nat → Span → Prop} {index : Nat} {span : Span}
    (h : pattern.matchAt subject start = some found) (hspan : found.group? (index + 1) = some span)
    (hfills : Matching.Respects (Matching.Fills (index + 1) Q)
      ((Expr.group pattern.root (some 0)).outcomes subject)) :
    Q found.span.start found.span.stop span := by
  rw [matchAt, Option.map_eq_some_iff] at h
  obtain ⟨o, ho, rfl⟩ := h
  obtain ⟨hindex, hspan⟩ := Match.spanOfSlots?_of_group? hspan
  obtain ⟨hfirst, hlast⟩ := Match.slots_of_spanOfSlots? hspan
  have hsize : 2 * (index + 1) + 1 < pattern.blankSlots.size := by
    rw [blankSlots, Array.size_replicate]
    omega
  -- The slots were blank at first and hold a span at last, so they have been filled.
  rcases (hfills start _ o (List.mem_of_mem_head? ho)).slots hsize with
    ⟨hblank, _⟩ | ⟨span', ⟨hfirst', hlast'⟩, hQ⟩
  · rw [hfirst, blankSlots, Array.getElem?_replicate, if_pos (by omega)] at hblank
    cases hblank
  · have hstart : span.start = span'.start :=
      Option.some.inj (Option.some.inj (hfirst.symm.trans hfirst'))
    have hstop : span.stop = span'.stop :=
      Option.some.inj (Option.some.inj (hlast.symm.trans hlast'))
    obtain rfl : span = span' := congr (congrArg Span.mk hstart) hstop
    exact hQ

theorem fitsIn_of_matchAt (hnormal : pattern.root.Normal) (hstart : start ≤ subject.size)
    (h : pattern.matchAt subject start = some found) :
    found.FitsIn start subject.size pattern.captures := by
  have hfound := h
  rw [matchAt, Option.map_eq_some_iff] at hfound
  obtain ⟨o, ho, rfl⟩ := hfound
  have hmem := List.mem_of_mem_head? ho
  obtain ⟨hforward, hinside, _⟩ := (hnormal.group (some 0)).bounded subject start _ hstart o hmem
  refine ⟨Nat.le_refl _, hforward, hinside, ?_, fun index span hspan => ?_⟩
  · rw [List.length_map, List.length_range']
  · cases index with
    | zero =>
      obtain rfl := Option.some.inj hspan
      exact ⟨Nat.le_refl _, hforward, Nat.le_refl _⟩
    | succ index => exact filled_of_group? h hspan (Expr.encloses_outcomes subject (index + 1) _)

end Pattern

end ByteRegex
