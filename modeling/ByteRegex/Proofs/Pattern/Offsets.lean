import ByteRegex.Proofs.Pattern.Locating

/-!
# Faults are where they are said to be

An offset is kept from the byte that starts a construct until the byte that shows what is wrong with
it. What the state of the reader has to do with the bytes so far is an invariant,
`PatternReader.Located`; each byte preserves it or leads to a fault that the pattern has, whatever
follows: `Pattern.blames_of_ofBytes`.
-/

namespace ByteRegex

variable {limits : PatternLimits} {done : List UInt8} {b : UInt8}

/-! ## Content -/

/-- A branch without pieces starts at the end of the bytes, which is the start of the pattern or
comes right after what opens a group or another branch. -/
def Level.Located (done : List UInt8) (level : Level) : Prop :=
  level.branch = .empty → level.start = done.length ∧
    (level.start = 0 ∨ ∃ b ∈ ['(', '|', ':'].map Char.toUInt8, done[level.start - 1]? = some b)

namespace Level

variable {level : Level} {e : PatternError}

theorem located_opened (h : b ∈ ['(', '|', ':'].map Char.toUInt8) (complete : List Expr) :
    Located (done ++ [b]) ⟨complete, done.length + 1, .empty⟩ :=
  fun _ => ⟨(lastAt_concat done b).1, Or.inr ⟨b, h, List.getElem?_concat_length⟩⟩

theorem located_push (level : Level) (x : Expr) : (level.push x).Located done :=
  fun h => Branch.noConfusion h

theorem empty_of_close? (h : level.branch.close? = none) : level.branch = .empty := by
  unfold Branch.close? at h
  split at h
  · next hexprs =>
    cases hbranch : level.branch with
    | empty => rfl
    | pieces earlier last =>
      rw [hbranch] at hexprs
      cases hexprs
  · cases h
  · cases h

theorem Located.blames (h : level.Located done) (hempty : level.branch.close? = none)
    {rest : List UInt8} (hrest : ∀ b, rest.head? = some b → b ∈ ['|', ')'].map Char.toUInt8) :
    (PatternError.emptyExpression level.start).Blames limits (done ++ rest) := by
  obtain ⟨hstart, hbefore⟩ := h (empty_of_close? hempty)
  refine ⟨?_, hbefore.imp_right fun ⟨b, hmem, hb⟩ => ⟨b, hmem, getElem?_append_of_eq_some hb rest⟩⟩
  rw [hstart]
  cases rest with
  | nil => exact Or.inl (by rw [List.append_nil])
  | cons b rest =>
    refine Or.inr ⟨b, hrest b rfl, ?_⟩
    rw [List.getElem?_append_right (Nat.le_refl _), Nat.sub_self]
    rfl

theorem Located.blames_of_close (h : level.Located done) (he : level.close = .error e)
    {rest : List UInt8} (hrest : ∀ b, rest.head? = some b → b ∈ ['|', ')'].map Char.toUInt8) :
    e.Blames limits (done ++ rest) := by
  unfold close at he
  split at he
  · next hempty =>
    obtain rfl := Except.error.inj he
    exact h.blames hempty hrest
  · split at he <;> cases he

theorem Located.locates_nextBranch (h : level.Located done) :
    Locates limits (done ++ ['|'.toUInt8]) (Level.Located (done ++ ['|'.toUInt8]))
      (level.nextBranch (done.length + 1)) := by
  unfold nextBranch
  split
  · next hempty =>
    intro rest
    rw [List.append_assoc]
    refine h.blames hempty ?_
    rintro _ ⟨⟩
    decide
  · exact located_opened (by decide) _

end Level

/-! ## Readers -/

/-- What the last bytes have to do with the mode. -/
def ReaderMode.Located (limits : PatternLimits) (done : List UInt8) (level : Level) :
    ReaderMode → Prop
  | pieces => level.Located done
  | opened pos => LastAt done pos '('.toUInt8
  | marked pos => done[pos]? = some '('.toUInt8 ∧ LastAt done (pos + 1) '?'.toUInt8
  | escape pos => LastAt done pos '\\'.toUInt8
  | bounds reader => (∃ earlier e, level.branch = .pieces earlier (.atom e)) ∧ reader.Located done
  | bracket reader => reader.Located limits done

namespace PatternReader

/-- What is true of a reader that has read the bytes `done`. -/
structure Located (limits : PatternLimits) (done : List UInt8) (r : PatternReader) : Prop where
  mode : r.mode.Located limits done r.level
  groups : ∀ g ∈ r.groups, done[g.pos]? = some '('.toUInt8

variable {r : PatternReader}

theorem located_initial (limits : PatternLimits) : initial.Located limits [] :=
  ⟨fun _ => ⟨rfl, Or.inl rfl⟩, nofun⟩

theorem Located.level (h : r.Located limits done) (hmode : r.mode = .pieces) :
    r.level.Located done := by
  have hlocated := h.mode
  rwa [hmode] at hlocated

theorem Located.concat (h : r.Located limits done) {mode : ReaderMode} {level : Level}
    (hmode : mode.Located limits (done ++ [b]) level) :
    ({ r with mode := mode, level := level } : PatternReader).Located limits (done ++ [b]) :=
  ⟨hmode, fun g hg => getElem?_append_of_eq_some (h.groups g hg) _⟩

theorem Located.push (h : r.Located limits done) (e : Expr) :
    (r.push e).Located limits (done ++ [b]) :=
  h.concat (show ReaderMode.Located limits _ _ .pieces from Level.located_push r.level e)

theorem located_enter (hgroups : ∀ g ∈ r.groups, done[g.pos]? = some '('.toUInt8) {pos start : Nat}
    (index : Option Nat) (hpos : done[pos]? = some '('.toUInt8)
    (hstart : (Level.opened start).Located done) :
    (r.enter pos start index).Located limits done := by
  refine ⟨hstart, fun g hg => ?_⟩
  rcases List.mem_cons.mp hg with rfl | hg
  · exact hpos
  · exact hgroups g hg

/-- A closing parenthesis closes the innermost group, or else the bytes before it are a pattern. -/
theorem Located.locates_leave (h : r.Located limits done) (hmode : r.mode = .pieces)
    (hpos : r.pos = done.length)
    (haccepted : ∀ root, r.level.close = .ok root → r.groups = [] →
      ∃ pattern, Pattern.ofBytes limits done = .ok pattern) :
    Locates limits (done ++ [')'.toUInt8]) (Located limits (done ++ [')'.toUInt8])) r.leave := by
  unfold leave
  cases hclose : r.level.close with
  | error e =>
    intro rest
    rw [List.append_assoc]
    refine (h.level hmode).blames_of_close hclose ?_
    rintro _ ⟨⟩
    decide
  | ok root =>
    cases hgroups : r.groups with
    | nil =>
      intro rest
      obtain ⟨pattern, hpattern⟩ := haccepted root hclose hgroups
      refine ⟨?_, pattern, ?_⟩
      · rw [hpos]
        exact getElem?_last rest
      · rwa [hpos, List.append_assoc, List.take_left]
    | cons g groups =>
      refine ⟨?_, fun g' hg => ?_⟩
      · show ReaderMode.Located limits _ _ r.mode
        rw [hmode]
        exact Level.located_push g.around _
      · exact getElem?_append_of_eq_some (h.groups g' (hgroups ▸ List.mem_cons_of_mem g hg)) _

theorem Located.locates_quantify (h : r.Located limits done) (hpos : r.pos = done.length)
    (q : Quantifier)
    (hb : b ∈ ['*', '+', '?', '\x7b'].map Char.toUInt8 ∨
      ∃ earlier e, r.level.branch = .pieces earlier (.atom e)) :
    Locates limits (done ++ [b]) (Located limits (done ++ [b])) (r.quantify q) := by
  unfold quantify
  split
  · exact h.concat
      (show ReaderMode.Located limits _ _ .pieces from fun hempty => Branch.noConfusion hempty)
  · next hoperand =>
    rcases hb with hmem | ⟨earlier, e, hbranch⟩
    · intro rest
      rw [hpos]
      exact ⟨b, hmem, getElem?_last rest⟩
    · exact absurd hbranch (hoperand earlier e)

theorem Located.locates_question (h : r.Located limits done) (hmode : r.mode = .pieces)
    (hpos : r.pos = done.length) :
    Locates limits (done ++ ['?'.toUInt8]) (Located limits (done ++ ['?'.toUInt8])) r.question := by
  unfold question
  split
  · refine h.concat (?_ : ReaderMode.Located limits _ _ r.mode)
    rw [hmode]
    exact fun hempty => Branch.noConfusion hempty
  · exact h.locates_quantify hpos .optional (Or.inl (by decide))

theorem Located.locates_brace (h : r.Located limits done) (hpos : r.pos = done.length) :
    Locates limits (done ++ ['\x7b'.toUInt8])
      (Located limits (done ++ ['\x7b'.toUInt8])) r.brace := by
  unfold brace
  split
  · next earlier e hbranch =>
    refine h.concat (?_ : ReaderMode.Located limits _ r.level (.bounds (.opened r.pos)))
    rw [hpos]
    exact ⟨⟨earlier, e, hbranch⟩, BoundsReader.located_opened done⟩
  · intro rest
    rw [hpos]
    exact ⟨'\x7b'.toUInt8, by decide, getElem?_last rest⟩

theorem Located.locates_feedPiece (h : r.Located limits done) (hmode : r.mode = .pieces)
    (hpos : r.pos = done.length)
    (haccepted : ∀ root, r.level.close = .ok root → r.groups = [] →
      ∃ pattern, Pattern.ofBytes limits done = .ok pattern) :
    Locates limits (done ++ [b]) (Located limits (done ++ [b])) (r.feedPiece limits b) := by
  unfold feedPiece
  cases hmark : Mark.ofByte? b with
  | none => exact h.push _
  | some mark =>
    obtain rfl := Mark.byte_of_ofByte? hmark
    cases mark with
    | dot | caret | dollar => exact h.push _
    | backslash =>
      refine h.concat (?_ : ReaderMode.Located limits _ r.level (.escape r.pos))
      rw [hpos]
      exact lastAt_concat done _
    | bracket =>
      refine h.concat (?_ : ReaderMode.Located limits _ r.level (.bracket (.start r.pos)))
      rw [hpos]
      exact BracketReader.located_start limits done
    | opening =>
      dsimp only
      split
      · intro rest
        rw [hpos]
        exact ⟨getElem?_last rest, rfl⟩
      · refine h.concat (?_ : ReaderMode.Located limits _ r.level (.opened r.pos))
        rw [hpos]
        exact lastAt_concat done _
    | closing => exact h.locates_leave hmode hpos haccepted
    | bar =>
      have hnext : Locates limits _ _ (r.level.nextBranch (r.pos + 1)) :=
        hpos ▸ (h.level hmode).locates_nextBranch
      refine hnext.bind fun level hlevel => ?_
      refine h.concat (?_ : ReaderMode.Located limits _ level r.mode)
      rw [hmode]
      exact hlevel
    | asterisk => exact h.locates_quantify hpos .star (Or.inl (by decide))
    | plus => exact h.locates_quantify hpos .plus (Or.inl (by decide))
    | question => exact h.locates_question hmode hpos
    | brace => exact h.locates_brace hpos

/-- One byte: the constructs that are open stay where they are, and a fault lies in what has been
read. -/
theorem Located.locates_feedByte (h : r.Located limits done) (hpos : r.pos = done.length)
    (hdone : Pattern.ofBytes limits done = r.finish) :
    Locates limits (done ++ [b]) (Located limits (done ++ [b])) (r.feedByte limits b) := by
  have hlocated := h.mode
  unfold feedByte
  cases hmode : r.mode with
  | pieces =>
    -- Content that can be closed with no group around it is a pattern as it stands.
    refine h.locates_feedPiece hmode hpos fun root hclose hgroups => ?_
    rw [hdone, finish, hmode]
    simp only [hclose, hgroups]
    exact ⟨_, rfl⟩
  | opened pos =>
    rw [hmode] at hlocated
    obtain ⟨hlength, hopening⟩ := hlocated
    dsimp only
    split
    · next hquestion =>
      obtain rfl := hquestion
      refine h.concat (?_ : ReaderMode.Located limits _ r.level (.marked pos))
      refine ⟨getElem?_append_of_eq_some hopening _, ?_⟩
      rw [hlength]
      exact lastAt_concat done _
    · -- The group is entered before the byte is looked at, so its content starts at the byte.
      have hstart : (Level.opened r.pos).Located done := by
        refine fun _ => ⟨hpos, Or.inr ⟨'('.toUInt8, by decide, ?_⟩⟩
        show done[r.pos - 1]? = _
        rwa [hpos, ← hlength, Nat.add_sub_cancel]
      have henter : Located limits done (r.enter pos r.pos (some (r.captures + 1))) :=
        located_enter h.groups _ hopening hstart
      have hcontent : (r.enterCapturing pos).Located limits done := ⟨henter.mode, henter.groups⟩
      exact hcontent.locates_feedPiece rfl hpos nofun
  | marked pos =>
    rw [hmode] at hlocated
    obtain ⟨hopening, hlength, hmark⟩ := hlocated
    dsimp only
    split
    · next hcolon =>
      obtain rfl := hcolon
      have hstart : (Level.opened (r.pos + 1)).Located (done ++ [':'.toUInt8]) := by
        rw [hpos]
        exact Level.located_opened (by decide) []
      refine located_enter (fun g hg => ?_) none (getElem?_append_of_eq_some hopening _) hstart
      exact getElem?_append_of_eq_some (h.groups g hg) _
    · next hother =>
      intro rest
      refine ⟨?_, ?_, ?_⟩
      · rw [List.append_assoc]
        exact getElem?_append_of_eq_some hopening _
      · rw [List.append_assoc]
        exact getElem?_append_of_eq_some hmark _
      · rw [hlength, getElem?_last]
        exact fun heq => hother (Option.some.inj heq)
  | escape pos =>
    rw [hmode] at hlocated
    dsimp only
    split
    · next hescape => exact LastAt.blames_invalidEscape hlocated hescape
    · exact h.push _
    · exact h.push _
  | bounds bounds =>
    rw [hmode] at hlocated
    obtain ⟨hoperand, hbounds⟩ := hlocated
    refine (hbounds.locates_feed hpos).bind fun step hstep => ?_
    cases step with
    | more reader =>
      exact h.concat
        (show ReaderMode.Located limits _ _ (.bounds reader) from ⟨hoperand, hstep _ rfl⟩)
    | done min max => exact h.locates_quantify hpos _ (Or.inr hoperand)
  | bracket bracket =>
    rw [hmode] at hlocated
    have hunfinished : Pattern.ofBytes limits done = .error bracket.unfinished := by
      rw [hdone, finish, hmode]
    refine (BracketReader.Located.locates_feed hlocated hpos hunfinished).bind fun step hstep => ?_
    cases step with
    | more reader =>
      exact h.concat (show ReaderMode.Located limits _ _ (.bracket reader) from hstep _ rfl)
    | done s => exact h.push _

theorem Located.locates_feed (h : r.Located limits done) (hpos : r.pos = done.length)
    (hdone : Pattern.ofBytes limits done = r.finish) :
    Locates limits (done ++ [b])
      (fun r' => r'.Located limits (done ++ [b]) ∧ r'.pos = (done ++ [b]).length)
      (r.feed limits b) := by
  unfold feed
  refine (h.locates_feedByte hpos hdone).bind fun next hnext => ⟨⟨hnext.mode, hnext.groups⟩, ?_⟩
  show r.pos + 1 = _
  rw [hpos, List.length_append, List.length_singleton]

theorem Located.blames_of_finish (h : r.Located limits done) (hpos : r.pos = done.length)
    {e : PatternError} (hfinish : r.finish = .error e) : e.Blames limits done := by
  have hlocated := h.mode
  unfold finish at hfinish
  cases hmode : r.mode with
  | opened pos =>
    rw [hmode] at hlocated hfinish
    obtain ⟨hlength, hopening⟩ := hlocated
    obtain rfl := Except.error.inj hfinish
    refine ⟨Or.inl hpos, Or.inr ⟨'('.toUInt8, by decide, ?_⟩⟩
    rwa [hpos, ← hlength, Nat.add_sub_cancel]
  | marked pos =>
    rw [hmode] at hlocated hfinish
    obtain ⟨hopening, hlength, hmark⟩ := hlocated
    obtain rfl := Except.error.inj hfinish
    refine ⟨hopening, hmark, ?_⟩
    rw [List.getElem?_eq_none (Nat.le_of_eq hlength.symm)]
    exact nofun
  | escape pos =>
    rw [hmode] at hlocated hfinish
    obtain rfl := Except.error.inj hfinish
    exact ⟨hlocated.2, hlocated.1⟩
  | bounds bounds =>
    rw [hmode] at hlocated hfinish
    obtain rfl := Except.error.inj hfinish
    exact hlocated.2.brace
  | bracket bracket =>
    rw [hmode] at hlocated hfinish
    obtain rfl := Except.error.inj hfinish
    exact BracketReader.Located.blames_unfinished hlocated
  | pieces =>
    rw [hmode] at hfinish
    cases hclose : r.level.close with
    | error e' =>
      rw [hclose] at hfinish
      obtain rfl := Except.error.inj hfinish
      have hblames : e'.Blames limits (done ++ []) := (h.level hmode).blames_of_close hclose nofun
      rwa [List.append_nil] at hblames
    | ok root =>
      simp only [hclose] at hfinish
      cases hgroups : r.groups with
      | nil =>
        simp only [hgroups] at hfinish
        cases hfinish
      | cons g groups =>
        rw [hgroups] at hfinish
        obtain rfl := Except.error.inj hfinish
        exact h.groups g (hgroups ▸ List.mem_cons_self)

end PatternReader

namespace Pattern

variable {bytes : List UInt8} {e : PatternError}

theorem ofBytes_append {r : PatternReader}
    (hreads : done.foldlM (PatternReader.feed limits) .initial = .ok r) (rest : List UInt8) :
    ofBytes limits (done ++ rest) =
      (rest.foldlM (PatternReader.feed limits) r >>= PatternReader.finish) := by
  rw [ofBytes, List.foldlM_append, hreads]
  rfl

/-- Whatever has been read, the bytes that are left keep the constructs located, up to a fault if
there is one. -/
theorem locates_reads {r : PatternReader} (h : r.Located limits done) (hpos : r.pos = done.length)
    (hreads : done.foldlM (PatternReader.feed limits) .initial = .ok r) :
    Locates limits (done ++ bytes)
      (fun r' => r'.Located limits (done ++ bytes) ∧ r'.pos = (done ++ bytes).length)
      (bytes.foldlM (PatternReader.feed limits) r) := by
  induction bytes generalizing done r with
  | nil =>
    rw [List.append_nil]
    exact ⟨h, hpos⟩
  | cons b bytes ih =>
    have hdone : ofBytes limits done = r.finish := by
      have hnil := ofBytes_append hreads []
      rwa [List.append_nil] at hnil
    have hfeed : Locates limits _ _ (r.feed limits b) := h.locates_feed hpos hdone
    have hassoc : done ++ [b] ++ bytes = done ++ b :: bytes := List.append_assoc done [b] bytes
    rw [List.foldlM_cons]
    cases hnext : r.feed limits b with
    | error e =>
      rw [hnext] at hfeed
      intro rest
      rw [← hassoc, List.append_assoc]
      exact hfeed (bytes ++ rest)
    | ok next =>
      rw [hnext] at hfeed
      obtain ⟨hlocated, hlength⟩ := hfeed
      have hreads' : (done ++ [b]).foldlM (PatternReader.feed limits) .initial = .ok next := by
        rw [List.foldlM_append, hreads]
        exact congrArg (· >>= pure) hnext
      rw [← hassoc]
      exact ih hlocated hlength hreads'

theorem locates_initial (limits : PatternLimits) (bytes : List UInt8) :
    Locates limits bytes (fun r => r.Located limits bytes ∧ r.pos = bytes.length)
      (bytes.foldlM (PatternReader.feed limits) .initial) :=
  locates_reads (PatternReader.located_initial limits) rfl rfl

theorem blames_of_error (herror : ofBytes limits bytes = .error e) : e.Blames limits bytes := by
  have hreads := locates_initial limits bytes
  rw [ofBytes] at herror
  cases hbytes : bytes.foldlM (PatternReader.feed limits) .initial with
  | error e' =>
    rw [hbytes] at hreads herror
    obtain rfl := Except.error.inj herror
    have hblames := hreads []
    rwa [List.append_nil] at hblames
  | ok r =>
    rw [hbytes] at hreads herror
    exact hreads.1.blames_of_finish hreads.2 herror

/-- A fault is where it is said to be. -/
theorem blames_of_ofBytes (h : ofBytes limits bytes = .error e) :
    e.Blames limits bytes ∧ e.pos ≤ bytes.length ∧
      ((∀ pos, e ≠ .emptyExpression pos) → e.pos < bytes.length) := by
  have hblames := blames_of_error h
  exact ⟨hblames, hblames.pos_le, hblames.pos_lt⟩

/-- The range that a set cannot end starts at its low end, a line feed, after a closing bracket that
stands for itself. -/
theorem blames_of_ofBytes_range :
    let bytes := "(a|[^]b\\n-\\d])".toUTF8.data.toList
    let e : PatternError := .invalidClassRange 7
    ofBytes {} bytes = .error e ∧ e.Blames {} bytes ∧ e.pos < bytes.length := by
  intro bytes e
  have herror : ofBytes {} bytes = .error e := rfl
  obtain ⟨hblames, _, hlt⟩ := blames_of_ofBytes herror
  exact ⟨herror, hblames, hlt nofun⟩

end Pattern

end ByteRegex
