import ByteRegex.Proofs.Pattern.Offsets

/-!
# Faults that last

Patterns are read from left to right, and a byte is never looked at twice. So a fault that a byte
causes is the fault of every pattern that starts with the same bytes; only a fault that the end of a
pattern brings to light can be mended by more text. The end causes faults of few kinds, and a
missing expression only at the end itself: `Pattern.ofText_append_of_lasting`.
-/

namespace ByteRegex

variable {limits : PatternLimits} {done : List UInt8} {e : PatternError}

/-- The fault is one that the end of a pattern of so many bytes does not cause. -/
def PatternError.Lasting (length : Nat) : PatternError → Prop
  | danglingQuantifier _ | invalidEscape _ _ | invalidClassRange _ | repetitionTooLarge _ _
  | nestingTooDeep _ _ | unexpectedParenthesis _ => True
  | emptyExpression pos => pos < length
  | unclosedParenthesis _ | trailingEscape _ | unsupportedGroup _ | unclosedClass _
  | invalidRepetition _ => False

/-! ## Faults that the end causes -/

theorem BracketReader.not_lasting_unfinished (reader : BracketReader) (length : Nat) :
    ¬reader.unfinished.Lasting length := by
  unfold unfinished
  split <;> exact id

/-- An expression that is missing when content is closed is missing right there. -/
theorem Level.Located.eq_of_close {level : Level} (h : level.Located done)
    (hclose : level.close = .error e) : e = .emptyExpression done.length := by
  unfold close at hclose
  split at hclose
  · next hempty =>
    obtain rfl := Except.error.inj hclose
    rw [(h (empty_of_close? hempty)).1]
  · split at hclose <;> cases hclose

namespace PatternReader

variable {r : PatternReader}

theorem Located.not_lasting_of_finish (h : r.Located limits done) (hpos : r.pos = done.length)
    (hfinish : r.finish = .error e) : ¬e.Lasting done.length := by
  have hmissing : ¬(PatternError.emptyExpression done.length).Lasting done.length := Nat.lt_irrefl _
  unfold finish at hfinish
  cases hmode : r.mode with
  | opened pos =>
    rw [hmode] at hfinish
    obtain rfl := Except.error.inj hfinish
    rwa [hpos]
  | marked pos | escape pos | bounds bounds =>
    rw [hmode] at hfinish
    obtain rfl := Except.error.inj hfinish
    exact id
  | bracket bracket =>
    rw [hmode] at hfinish
    obtain rfl := Except.error.inj hfinish
    exact bracket.not_lasting_unfinished _
  | pieces =>
    rw [hmode] at hfinish
    cases hclose : r.level.close with
    | error e' =>
      rw [hclose] at hfinish
      obtain rfl := Except.error.inj hfinish
      rwa [(h.level hmode).eq_of_close hclose]
    | ok root =>
      simp only [hclose] at hfinish
      cases hgroups : r.groups with
      | nil =>
        simp only [hgroups] at hfinish
        cases hfinish
      | cons g groups =>
        rw [hgroups] at hfinish
        obtain rfl := Except.error.inj hfinish
        exact id

end PatternReader

/-! ## Longer patterns -/

namespace Pattern

variable {bytes : List UInt8} {p : String}

/-- A lasting fault lies in what the bytes lead to, before the end is looked at. -/
theorem feedAll_of_lasting (h : ofBytes limits bytes = .error e)
    (hlasting : e.Lasting bytes.length) :
    bytes.foldlM (PatternReader.feed limits) .initial = .error e := by
  have hreads := locates_initial limits bytes
  rw [ofBytes] at h
  cases hbytes : bytes.foldlM (PatternReader.feed limits) .initial with
  | error e' =>
    rw [hbytes] at h
    obtain rfl := Except.error.inj h
    rfl
  | ok r =>
    rw [hbytes] at h hreads
    exact absurd hlasting (hreads.1.not_lasting_of_finish hreads.2 h)

theorem ofBytes_append_of_lasting (h : ofBytes limits bytes = .error e)
    (hlasting : e.Lasting bytes.length) (rest : List UInt8) :
    ofBytes limits (bytes ++ rest) = .error e := by
  rw [ofBytes, List.foldlM_append, feedAll_of_lasting h hlasting]
  rfl

/-- Text that is appended to a pattern does not mend a fault that the end of the pattern has not
caused; the offset and the rest of what the fault says stay as they are. -/
theorem ofText_append_of_lasting (h : ofText limits p = .error e)
    (hlasting : e.Lasting p.utf8ByteSize) (q : String) : ofText limits (p ++ q) = .error e := by
  have hbytes : (p ++ q).toUTF8.data.toList = p.toUTF8.data.toList ++ q.toUTF8.data.toList := by
    rw [String.toUTF8_eq_toByteArray, String.toByteArray_append]
    exact ByteArray.toList_data_append
  rw [ofText, hbytes]
  exact ofBytes_append_of_lasting h hlasting _

/-- The missing alternative comes before a group that would be nested too deeply. -/
theorem ofText_append_missing_alternative :
    let limits : PatternLimits := { maxNesting := 1 }
    let e : PatternError := .emptyExpression 4
    (ofText limits "(é||" = .error e ∧ e.Lasting "(é||".utf8ByteSize) ∧
      ofText limits ("(é||" ++ "(b))") = .error e := by
  intro limits e
  have h : ofText limits "(é||" = .error e := rfl
  have hlasting : e.Lasting "(é||".utf8ByteSize := show 4 < "(é||".utf8ByteSize by decide
  exact ⟨⟨h, hlasting⟩, ofText_append_of_lasting h hlasting "(b))"⟩

/-- At the end a missing alternative can still be added. -/
example : ofText {} "(a|" = .error (.emptyExpression 3) ∧
    ∃ pattern, ofText {} ("(a|" ++ "b)") = .ok pattern :=
  ⟨rfl, _, rfl⟩

end Pattern

end ByteRegex
