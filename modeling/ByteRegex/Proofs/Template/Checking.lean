import ByteRegex.Template.Basic

/-!
# Templates checked

A template is at fault exactly if it refers to a group that the pattern does not have, and the first
reference to such a group is the one that is reported.
-/

namespace ByteRegex.Template

variable {t : Template} {captures : Nat} {piece : TemplatePiece} {e : TemplateError}

theorem missingGroup?_eq_some {index : Nat} :
    missingGroup? captures piece = some index ↔ piece = .group index ∧ captures < index := by
  cases piece with
  | byte b => exact iff_of_false nofun nofun
  | group other =>
    rw [missingGroup?]
    constructor
    · intro h
      split at h
      · next hlt =>
        obtain rfl := Option.some.inj h
        exact ⟨rfl, hlt⟩
      · cases h
    · rintro ⟨⟨⟩, hlt⟩
      exact if_pos hlt

theorem missingGroup?_eq_none :
    missingGroup? captures piece = none ↔ ∀ index, piece = .group index → index ≤ captures := by
  rw [Option.eq_none_iff_forall_ne_some]
  constructor
  · rintro h index rfl
    exact Nat.not_lt.mp fun hlt => h index (missingGroup?_eq_some.mpr ⟨rfl, hlt⟩)
  · intro h index hmissing
    obtain ⟨hpiece, hlt⟩ := missingGroup?_eq_some.mp hmissing
    exact absurd (h index hpiece) (Nat.not_le_of_lt hlt)

theorem check_eq_ok :
    t.check captures = .ok () ↔ ∀ index, .group index ∈ t.pieces → index ≤ captures := by
  have hnone :
      t.check captures = .ok () ↔ t.pieces.toList.findSome? (missingGroup? captures) = none := by
    rw [check]
    cases t.pieces.toList.findSome? (missingGroup? captures) with
    | none => exact iff_of_true rfl rfl
    | some index => exact iff_of_false nofun nofun
  rw [hnone, List.findSome?_eq_none_iff]
  constructor
  · exact fun h index hindex =>
      missingGroup?_eq_none.mp (h _ (Array.mem_toList_iff.mpr hindex)) index rfl
  · intro h piece hpiece
    exact missingGroup?_eq_none.mpr
      (by rintro index rfl; exact h index (Array.mem_toList_iff.mp hpiece))

theorem check_eq_error :
    t.check captures = .error e ↔
      ∃ before index after, t.pieces.toList = before ++ .group index :: after ∧
      (∀ earlier, .group earlier ∈ before → earlier ≤ captures) ∧ captures < index ∧
      e = .ofGroup index captures := by
  have hsome : t.check captures = .error e ↔
      ∃ index, t.pieces.toList.findSome? (missingGroup? captures) = some index ∧
        e = .ofGroup index captures := by
    rw [check]
    cases t.pieces.toList.findSome? (missingGroup? captures) with
    | none => exact iff_of_false nofun nofun
    | some index => simp [eq_comm]
  rw [hsome]
  constructor
  · rintro ⟨index, hindex, rfl⟩
    obtain ⟨before, piece, after, hpieces, hmissing, hbefore⟩ :=
      List.findSome?_eq_some_iff.mp hindex
    obtain ⟨rfl, hlt⟩ := missingGroup?_eq_some.mp hmissing
    exact ⟨before, index, after, hpieces,
      fun earlier hearlier => missingGroup?_eq_none.mp (hbefore _ hearlier) earlier rfl, hlt, rfl⟩
  · rintro ⟨before, index, after, hpieces, hbefore, hlt, rfl⟩
    refine ⟨index, List.findSome?_eq_some_iff.mpr ⟨before, .group index, after, hpieces,
      missingGroup?_eq_some.mpr ⟨rfl, hlt⟩, fun piece hpiece => ?_⟩, rfl⟩
    exact missingGroup?_eq_none.mpr (by rintro earlier rfl; exact hbefore earlier hpiece)

theorem exists_of_check_eq_error (h : t.check captures = .error e) :
    ∃ index, .group index ∈ t.pieces ∧ captures < index ∧ e = .ofGroup index captures := by
  obtain ⟨before, index, after, hpieces, _, hlt, rfl⟩ := check_eq_error.mp h
  have hmem : .group index ∈ t.pieces.toList := hpieces ▸ List.mem_append_right _ List.mem_cons_self
  exact ⟨index, Array.mem_toList_iff.mp hmem, hlt, rfl⟩

end ByteRegex.Template
