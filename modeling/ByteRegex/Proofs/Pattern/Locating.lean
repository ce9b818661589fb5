import ByteRegex.Proofs.Pattern.Faults

/-!
# Offsets inside braces and brackets

The readers of bounds and of bracket expressions keep the offsets of what they have begun: of the
brace or bracket, of a number, of an escape sequence, of a possible low end of a range. What the
bytes at these offsets are is preserved by each byte, or the byte leads to a fault that the pattern
has, whatever follows.
-/

namespace ByteRegex

variable {limits : PatternLimits} {done : List UInt8} {b : UInt8}

theorem getElem?_append_of_eq_some {i : Nat} (h : done[i]? = some b) (rest : List UInt8) :
    (done ++ rest)[i]? = some b := by
  rw [List.getElem?_append_left (lt_length_of_getElem? h), h]

theorem getElem?_last (rest : List UInt8) :
    (done ++ [b] ++ rest)[done.length]? = some b :=
  getElem?_append_of_eq_some List.getElem?_concat_length rest

/-- A stage that ends with the last of the bytes `done` comes to a result with the property, or to a
fault of every pattern that starts with these bytes. -/
def Locates {α : Type} (limits : PatternLimits) (done : List UInt8) (P : α → Prop) :
    Except PatternError α → Prop
  | .ok a => P a
  | .error e => ∀ rest, e.Blames limits (done ++ rest)

theorem Locates.bind {α β : Type} {P : α → Prop} {Q : β → Prop} {x : Except PatternError α}
    {f : α → Except PatternError β} (hx : Locates limits done P x)
    (hf : ∀ a, P a → Locates limits done Q (f a)) : Locates limits done Q (x >>= f) := by
  cases x with
  | error e => exact hx
  | ok a => exact hf a hx

def LastAt (done : List UInt8) (pos : Nat) (b : UInt8) : Prop :=
  pos + 1 = done.length ∧ done[pos]? = some b

theorem lastAt_concat (done : List UInt8) (b : UInt8) : LastAt (done ++ [b]) done.length b :=
  ⟨by rw [List.length_append, List.length_singleton], List.getElem?_concat_length⟩

theorem LastAt.drop {pos : Nat} (h : LastAt done pos b) : done.drop pos = [b] := by
  obtain ⟨hlength, hb⟩ := h
  obtain ⟨hlt, rfl⟩ := List.getElem?_eq_some_iff.mp hb
  rw [List.drop_eq_getElem_cons hlt, List.drop_eq_nil_of_le (Nat.le_of_eq hlength.symm)]

theorem LastAt.blames_invalidEscape {pos : Nat} (h : LastAt done pos '\\'.toUInt8)
    (hescape : Escaped.ofByte? b = none) (rest : List UInt8) :
    (PatternError.invalidEscape pos b).Blames limits (done ++ [b] ++ rest) := by
  refine ⟨?_, ?_, hescape⟩
  · rw [List.append_assoc]
    exact getElem?_append_of_eq_some h.2 _
  · rw [h.1]
    exact getElem?_last rest

/-! ## Bounds -/

/-- The bytes end with the digits of the number so far, which come right after a brace or a
comma. -/
structure NumberReader.Located (done : List UInt8) (n : NumberReader) : Prop where
  start : 0 < n.pos ∧ ∃ b ∈ ['\x7b', ','].map Char.toUInt8, done[n.pos - 1]? = some b
  digits : ∀ d ∈ done.drop n.pos, Text.isDigit d = true
  value : n.value = Text.decimalValue (done.drop n.pos)

namespace NumberReader

variable {n : NumberReader} {number : Option NumberReader}

theorem Located.pos_le (h : n.Located done) : n.pos ≤ done.length := by
  obtain ⟨hpos, _, _, hb⟩ := h.start
  have hlt := lt_length_of_getElem? hb
  omega

theorem located_none (h : b ∈ ['\x7b', ','].map Char.toUInt8) :
    Located (done ++ [b]) ⟨(done ++ [b]).length, 0⟩ := by
  refine ⟨⟨?_, b, h, ?_⟩, ?_, ?_⟩
  · rw [List.length_append]
    exact Nat.succ_pos _
  · rw [List.length_append]
    exact List.getElem?_concat_length
  · simp
  · simp [Text.decimalValue]

theorem Located.concat (h : n.Located done) (hdigit : Text.isDigit b = true) :
    Located (done ++ [b]) ⟨n.pos, 10 * n.value + Text.digitValue b⟩ := by
  have hdrop : (done ++ [b]).drop n.pos = done.drop n.pos ++ [b] :=
    List.drop_append_of_le_length h.pos_le
  obtain ⟨hpos, c, hc, hstart⟩ := h.start
  refine ⟨⟨hpos, c, hc, getElem?_append_of_eq_some hstart _⟩, fun d hd => ?_, ?_⟩
  · rw [hdrop] at hd
    rcases List.mem_append.mp hd with hd | hd
    · exact h.digits d hd
    · rwa [List.mem_singleton.mp hd]
  · rw [hdrop, Text.decimalValue_concat, h.value]

theorem Located.blames (h : n.Located done) (hlimit : limits.maxRepetitions < n.value)
    (rest : List UInt8) :
    (PatternError.repetitionTooLarge n.pos limits.maxRepetitions).Blames limits (done ++ rest) := by
  obtain ⟨hpos, c, hc, hstart⟩ := h.start
  refine ⟨rfl, ⟨hpos, c, hc, getElem?_append_of_eq_some hstart rest⟩, ?_⟩
  rw [List.drop_append_of_le_length h.pos_le, List.takeWhile_append_of_pos h.digits]
  -- The digits that follow cannot bring the number back below the limit.
  calc limits.maxRepetitions < n.value := hlimit
    _ = Text.decimalValue (done.drop n.pos) := h.value
    _ ≤ Text.decimalValue (done.drop n.pos ++ rest.takeWhile Text.isDigit) :=
      Text.decimalValue_le_append _ _

theorem locates_feed (h : (number.getD ⟨done.length, 0⟩).Located done)
    (hdigit : Text.isDigit b = true) :
    Locates limits (done ++ [b]) (fun number' => ∃ n, number' = some n ∧ n.Located (done ++ [b]))
      (feed limits.maxRepetitions done.length b number) := by
  have hnext := h.concat hdigit
  unfold feed
  dsimp only
  split
  · next hlimit => exact hnext.blames hlimit
  · exact ⟨_, rfl, hnext⟩

end NumberReader

def BoundsPhase.number : BoundsPhase → Option NumberReader
  | min number => number
  | max _ number => number

structure BoundsReader.Located (done : List UInt8) (reader : BoundsReader) : Prop where
  brace : done[reader.pos]? = some '\x7b'.toUInt8
  number : (reader.phase.number.getD ⟨done.length, 0⟩).Located done

namespace BoundsReader

theorem located_opened (done : List UInt8) :
    (opened done.length).Located (done ++ ['\x7b'.toUInt8]) :=
  ⟨List.getElem?_concat_length, NumberReader.located_none (by decide)⟩

theorem Located.locates_feed {reader : BoundsReader} (h : reader.Located done) {pos : Nat}
    (hpos : pos = done.length) :
    Locates limits (done ++ [b])
      (fun step => ∀ reader', step = .more reader' → reader'.Located (done ++ [b]))
      (reader.feed limits.maxRepetitions pos b) := by
  subst hpos
  obtain ⟨start, phase⟩ := reader
  obtain ⟨hbrace, hnumber⟩ := h
  have hbrace' := getElem?_append_of_eq_some hbrace [b]
  have hinvalid :
      ∀ rest, (PatternError.invalidRepetition start).Blames limits (done ++ [b] ++ rest) :=
    fun rest => getElem?_append_of_eq_some hbrace' rest
  unfold feed
  cases phase with
  | min number =>
    dsimp only
    split
    · next hdigit =>
      refine (NumberReader.locates_feed hnumber hdigit).bind ?_
      rintro _ ⟨n, rfl, hn⟩ _ ⟨⟩
      exact ⟨hbrace', hn⟩
    · cases number with
      | none => exact hinvalid
      | some n =>
        dsimp only
        split
        · exact nofun
        · split
          · next hcomma =>
            rintro _ ⟨⟩
            exact ⟨hbrace', NumberReader.located_none (by rw [hcomma]; decide)⟩
          · exact hinvalid
  | max m number =>
    dsimp only
    split
    · next hdigit =>
      refine (NumberReader.locates_feed hnumber hdigit).bind ?_
      rintro _ ⟨n, rfl, hn⟩ _ ⟨⟩
      exact ⟨hbrace', hn⟩
    · split
      · cases number with
        | none => exact nofun
        | some n =>
          dsimp only
          split
          · exact hinvalid
          · exact nofun
      · exact hinvalid

end BoundsReader

/-! ## Bracket expressions -/

/-- At `pos`, in the bracket expression that starts at `opening`, starts an item, whatever
follows. -/
def ItemAt (done : List UInt8) (opening pos : Nat) : Prop :=
  pos ≤ done.length ∧ ∀ rest, ItemsBefore (done.drop (opening + 1) ++ rest) (done.drop pos ++ rest)

section ItemAt

variable {opening pos : Nat} {lows highs : List UInt8} {low high : UInt8}

theorem ItemAt.append (h : ItemAt done opening pos) (hopening : opening < done.length)
    (more : List UInt8) : ItemAt (done ++ more) opening pos := by
  obtain ⟨hpos, hitems⟩ := h
  refine ⟨Nat.le_trans hpos (List.length_append ▸ Nat.le_add_right _ _), fun rest => ?_⟩
  rw [List.drop_append_of_le_length hopening, List.drop_append_of_le_length hpos, List.append_assoc,
    List.append_assoc]
  exact hitems _

theorem itemAt_length (h : ∀ rest, ItemsBefore (done.drop (opening + 1) ++ rest) rest) :
    ItemAt done opening done.length := by
  refine ⟨Nat.le_refl _, fun rest => ?_⟩
  rw [List.drop_length]
  exact h rest

theorem ItemAt.set {s : ByteSet} (h : ItemAt done opening pos)
    (hitem : Escaped.Spelled (done.drop pos) (.set s)) : ItemAt done opening done.length :=
  itemAt_length fun rest => .set (h.2 rest) hitem

/-- A byte that could start a range does not if another byte than a dash follows. -/
theorem ItemAt.byte (h : ItemAt done opening pos) (hopening : opening < done.length)
    (hitem : Escaped.Spelled (done.drop pos) (.byte low)) (hb : b ≠ '-'.toUInt8) :
    ItemAt (done ++ [b]) opening done.length := by
  refine ⟨List.length_append ▸ Nat.le_add_right _ _, fun rest => .byte ?_ hitem ?_⟩
  · rw [List.drop_left, List.drop_append_of_le_length hopening, List.append_assoc]
    exact h.2 _
  · rw [List.drop_left, List.singleton_append, List.head?_cons]
    exact fun h => hb (Option.some.inj h)

theorem itemAt_first (hopening : opening + 1 = done.length) (hb : b ≠ '^'.toUInt8) :
    ItemAt (done ++ [b]) opening done.length := by
  refine ⟨List.length_append ▸ Nat.le_add_right _ _, fun rest => ?_⟩
  rw [hopening, List.drop_left]
  refine .start ?_
  rw [List.singleton_append, List.head?_cons]
  exact fun h => hb (Option.some.inj h)

theorem itemAt_negated (hopening : opening + 1 = done.length) :
    ItemAt (done ++ ['^'.toUInt8]) opening (done ++ ['^'.toUInt8]).length := by
  refine itemAt_length fun rest => ?_
  rw [hopening, List.drop_left]
  exact .negated rest

/-- At `pos`, in the bracket expression that starts at `opening`, starts a range of which everything
up to the dash and the bytes `tail` after it have been read. -/
structure RangeFrom (limits : PatternLimits) (done : List UInt8) (opening pos : Nat)
    (lows tail : List UInt8) :
    Prop where
  bracket : done[opening]? = some '['.toUInt8
  item : ItemAt done opening pos
  ends : done.drop pos = lows ++ '-'.toUInt8 :: tail
  unclosed :
    Pattern.ofBytes limits (done.take (pos + lows.length + 1)) = .error (.unclosedClass opening)

namespace RangeFrom

variable {tail : List UInt8}

theorem length_eq (h : RangeFrom limits done opening pos lows tail) :
    done.length = pos + lows.length + 1 + tail.length := by
  have hsum := congrArg List.length h.ends
  have hpos := h.item.1
  rw [List.length_drop, List.length_append, List.length_cons] at hsum
  omega

theorem append (h : RangeFrom limits done opening pos lows tail) (more : List UInt8) :
    RangeFrom limits (done ++ more) opening pos lows (tail ++ more) := by
  have hopening := lt_length_of_getElem? h.bracket
  refine ⟨getElem?_append_of_eq_some h.bracket more, h.item.append hopening more, ?_, ?_⟩
  · rw [List.drop_append_of_le_length h.item.1, h.ends, List.append_assoc, List.cons_append]
  · rw [List.take_append_of_le_length (h.length_eq ▸ Nat.le_add_right _ _)]
    exact h.unclosed

theorem rangeAt (h : RangeFrom limits done opening pos lows highs) (hproper : highs ≠ [']'.toUInt8])
    (rest : List UInt8) : RangeAt limits (done ++ rest) opening pos lows highs := by
  have hrest := h.append rest
  refine ⟨hrest.bracket, ?_, ⟨rest, hrest.ends⟩, hproper, hrest.unclosed⟩
  rw [List.drop_append_of_le_length (lt_length_of_getElem? h.bracket),
    List.drop_append_of_le_length h.item.1]
  exact h.item.2 rest

/-- Both ends have been read, and the range is one that a set can hold. -/
theorem itemAt (h : RangeFrom limits done opening pos lows highs)
    (hlow : Escaped.Spelled lows (.byte low)) (hhigh : Escaped.Spelled highs (.byte high))
    (hle : low ≤ high) (hproper : highs ≠ [']'.toUInt8]) : ItemAt done opening done.length := by
  refine itemAt_length fun rest => .range ?_ hlow hhigh hle hproper
  have hitems := h.item.2 rest
  rwa [h.ends, List.append_assoc, List.cons_append] at hitems

end RangeFrom

end ItemAt

namespace BracketPhase

/-- What the last bytes have to do with the phase of the bracket expression that starts at
`opening`. -/
def Located (limits : PatternLimits) (done : List UInt8) (opening : Nat) : BracketPhase → Prop
  | opened => opening + 1 = done.length
  | first | item => ItemAt done opening done.length
  | escape pos => LastAt done pos '\\'.toUInt8 ∧ ItemAt done opening pos
  | low b pos => Escaped.Spelled (done.drop pos) (.byte b) ∧ ItemAt done opening pos
  | dash b pos =>
    ItemAt done opening pos ∧
    ∃ lows, done.drop pos = lows ++ ['-'.toUInt8] ∧ Escaped.Spelled lows (.byte b)
  | high b pos backslash =>
    LastAt done backslash '\\'.toUInt8 ∧
    ∃ lows, RangeFrom limits done opening pos lows ['\\'.toUInt8] ∧ Escaped.Spelled lows (.byte b)

end BracketPhase

structure BracketReader.Located (limits : PatternLimits) (done : List UInt8)
    (reader : BracketReader) :
    Prop where
  bracket : done[reader.pos]? = some '['.toUInt8
  phase : reader.phase.Located limits done reader.pos

namespace BracketReader

variable {reader : BracketReader}

theorem located_start (limits : PatternLimits) (done : List UInt8) :
    (start done.length).Located limits (done ++ ['['.toUInt8]) :=
  ⟨List.getElem?_concat_length, (lastAt_concat done _).1⟩

theorem Located.lt_length (h : reader.Located limits done) : reader.pos < done.length :=
  lt_length_of_getElem? h.bracket

theorem located_feedItem (hbracket : (done ++ [b])[reader.pos]? = some '['.toUInt8)
    (hitem : ItemAt (done ++ [b]) reader.pos done.length) :
    (reader.feedItem done.length b).Located limits (done ++ [b]) := by
  unfold feedItem
  split
  · next hbackslash =>
    obtain rfl := hbackslash
    exact ⟨hbracket, lastAt_concat done _, hitem⟩
  · next hplain =>
    refine ⟨hbracket, ?_, hitem⟩
    rw [List.drop_left]
    exact .plain b hplain

/-- Both ends of a range have been read. -/
theorem locates_addRange {pos : Nat} {lows highs : List UInt8} {low high : UInt8}
    (h : RangeFrom limits done reader.pos pos lows highs) (hlow : Escaped.Spelled lows (.byte low))
    (hhigh : Escaped.Spelled highs (.byte high)) (hproper : highs ≠ [']'.toUInt8]) :
    Locates limits done (fun step => ∀ reader', step = .more reader' → reader'.Located limits done)
      (reader.addRange low pos high) := by
  unfold addRange
  split
  · next hlt =>
    exact fun rest => ⟨_, lows, highs, low, h.rangeAt hproper rest, hlow, Or.inl ⟨high, hlt, hhigh⟩⟩
  · next hle =>
    rintro _ ⟨⟩
    exact ⟨h.bracket, h.itemAt hlow hhigh (UInt8.not_lt.mp hle) hproper⟩

theorem Located.locates_feed (h : reader.Located limits done) {pos : Nat} (hpos : pos = done.length)
    (hunfinished : Pattern.ofBytes limits done = .error reader.unfinished) :
    Locates limits (done ++ [b])
      (fun step => ∀ reader', step = .more reader' → reader'.Located limits (done ++ [b]))
      (reader.feed pos b) := by
  subst hpos
  have hbracket := getElem?_append_of_eq_some h.bracket [b]
  have hphase := h.phase
  have hlt := h.lt_length
  obtain ⟨opening, negated, set, phase⟩ := reader
  unfold feed
  cases phase with
  | opened =>
    dsimp only
    split
    · next hcaret =>
      obtain rfl := hcaret
      rintro _ ⟨⟩
      exact ⟨hbracket, itemAt_negated hphase⟩
    · next hfirst =>
      rintro _ ⟨⟩
      exact located_feedItem hbracket (itemAt_first hphase hfirst)
  | first =>
    rintro _ ⟨⟩
    exact located_feedItem hbracket (ItemAt.append hphase hlt [b])
  | item =>
    dsimp only [feedItemOrEnd]
    split
    · exact nofun
    · rintro _ ⟨⟩
      exact located_feedItem hbracket (ItemAt.append hphase hlt [b])
  | escape pos =>
    obtain ⟨hlast, hitem⟩ := hphase
    have hitem' := hitem.append hlt [b]
    have hspelled :
        ∀ e, Escaped.ofByte? b = some e → Escaped.Spelled ((done ++ [b]).drop pos) e := by
      intro e he
      rw [List.drop_append_of_le_length hitem.1, hlast.drop]
      exact .escaped b he
    dsimp only
    split
    · next hescape => exact hlast.blames_invalidEscape hescape
    · next c hescape =>
      rintro _ ⟨⟩
      exact ⟨hbracket, hspelled _ hescape, hitem'⟩
    · next s hescape =>
      rintro _ ⟨⟩
      exact ⟨hbracket, hitem'.set (hspelled _ hescape)⟩
  | low c pos =>
    obtain ⟨hspelled, hitem⟩ := hphase
    dsimp only
    split
    · next hdash =>
      obtain rfl := hdash
      rintro _ ⟨⟩
      exact ⟨hbracket, hitem.append hlt _, done.drop pos,
        List.drop_append_of_le_length hitem.1, hspelled⟩
    · next hdash =>
      dsimp only [feedItemOrEnd]
      split
      · exact nofun
      · rintro _ ⟨⟩
        exact located_feedItem hbracket (hitem.byte hlt hspelled hdash)
  | dash c pos =>
    obtain ⟨hitem, lows, hends, hlow⟩ := hphase
    -- The dash is the last byte so far, so the pattern up to it is one that leaves the bracket
    -- open.
    have hrange : RangeFrom limits (done ++ [b]) opening pos lows [b] := by
      have hlength := congrArg List.length hends
      have hpos := hitem.1
      rw [List.length_drop, List.length_append, List.length_singleton] at hlength
      have hread : RangeFrom limits done opening pos lows [] :=
        ⟨h.bracket, hitem, hends, by rwa [List.take_of_length_le (by omega)]⟩
      exact hread.append [b]
    dsimp only
    split
    · exact nofun
    · next hproper =>
      split
      · next hbackslash =>
        obtain rfl := hbackslash
        rintro _ ⟨⟩
        exact ⟨hbracket, lastAt_concat done _, lows, hrange, hlow⟩
      · next hplain =>
        refine locates_addRange hrange hlow (.plain b hplain) ?_
        exact fun heq => hproper (List.singleton_inj.mp heq)
  | high c pos backslash =>
    obtain ⟨hlast, lows, hread, hlow⟩ := hphase
    have hrange : RangeFrom limits (done ++ [b]) opening pos lows ['\\'.toUInt8, b] :=
      hread.append [b]
    have hproper : ['\\'.toUInt8, b] ≠ [']'.toUInt8] := by simp
    dsimp only
    split
    · next hescape => exact hlast.blames_invalidEscape hescape
    · next high hescape => exact locates_addRange hrange hlow (.escaped b hescape) hproper
    · next s hescape =>
      exact fun rest => ⟨opening, lows, _, c, hrange.rangeAt hproper rest, hlow,
        Or.inr ⟨s, .escaped b hescape⟩⟩

theorem Located.blames_unfinished (h : reader.Located limits done) :
    reader.unfinished.Blames limits done := by
  obtain ⟨opening, negated, set, phase⟩ := reader
  cases phase with
  | escape backslash => exact ⟨h.phase.1.2, h.phase.1.1⟩
  | high c pos backslash => exact ⟨h.phase.1.2, h.phase.1.1⟩
  | opened | first | item | low c pos | dash c pos => exact h.bracket

end BracketReader

end ByteRegex
