import ByteRegex.Proofs.Pattern.Writing

/-!
# Reading tokens

A written expression is a row of tokens: bytes, marks, sets in brackets, quantifiers. Each of them
is read to its end and no further, whatever comes next, and leads to one reader.
-/

namespace ByteRegex

/-- What the reader keeps of an expression that is one part of a branch. -/
def Expr.piece : Expr → Piece
  | star e .greedy => .quantified e .star
  | plus e .greedy => .quantified e .plus
  | optional e .greedy => .quantified e .optional
  | repeated e min max .greedy => .quantified e (.repeated min max)
  | star e .lazy => .sealed (star e .lazy)
  | plus e .lazy => .sealed (plus e .lazy)
  | optional e .lazy => .sealed (optional e .lazy)
  | repeated e min max .lazy => .sealed (repeated e min max .lazy)
  | e => .atom e

theorem Expr.expr_piece (e : Expr) : e.piece.expr = e := by
  cases e with
  | star e greed | plus e greed | optional e greed | repeated e min max greed => cases greed <;> rfl
  | _ => rfl

theorem Expr.piece_of_isOperand {e : Expr} (h : e.isOperand = true) : e.piece = .atom e := by
  cases e <;> first | rfl | exact absurd h Bool.false_ne_true

theorem Quantifier.piece_apply_greedy (q : Quantifier) (e : Expr) :
    (q.apply e .greedy).piece = .quantified e q := by
  cases q <;> rfl

theorem Quantifier.piece_apply_lazy (q : Quantifier) (e : Expr) :
    (q.apply e .lazy).piece = .sealed (q.apply e .lazy) := by
  cases q <;> rfl

theorem Escaped.ofByte?_of_mem_literals {c : UInt8} (h : c ∈ literals) :
    ofByte? c = some (.byte c) :=
  if_pos h

theorem metacharacters_subset : metacharacters ⊆ Escaped.literals := by
  decide

theorem bracketCharacters_subset : bracketCharacters ⊆ Escaped.literals := by
  decide

def Level.add (level : Level) (piece : Piece) : Level :=
  { level with branch := .pieces level.branch.exprs piece }

namespace PatternReader

/-- Feeding the bytes to the one reader leads to the other. The offset of the latter is not looked
at; it is the one behind the bytes. -/
def Consumes (limits : PatternLimits) (r : PatternReader) (bytes : List UInt8)
    (r' : PatternReader) : Prop :=
  bytes.foldlM (feed limits) r = .ok { r' with pos := r.pos + bytes.length }

variable {limits : PatternLimits} {r r' r'' : PatternReader} {a b : List UInt8} {c : UInt8}

theorem consumes_nil (r : PatternReader) : Consumes limits r [] r := rfl

theorem Consumes.append (ha : Consumes limits r a r')
    (hb : Consumes limits { r' with pos := r.pos + a.length } b
      { r'' with pos := r.pos + a.length }) :
    Consumes limits r (a ++ b) r'' := by
  unfold Consumes at ha ⊢
  rw [List.foldlM_append, ha, List.length_append, ← Nat.add_assoc]
  exact hb

theorem consumes_single (h : r.feedByte limits c = .ok r') : Consumes limits r [c] r' := by
  unfold Consumes
  rw [List.foldlM_cons, feed, h]
  rfl

theorem Consumes.cons (h : r.feedByte limits c = .ok r')
    (hb : Consumes limits { r' with pos := r.pos + 1 } b { r'' with pos := r.pos + 1 }) :
    Consumes limits r (c :: b) r'' :=
  (consumes_single h).append hb

theorem feedByte_pieces (hmode : r.mode = .pieces) (c : UInt8) :
    r.feedByte limits c = r.feedPiece limits c := by
  rw [feedByte, hmode]

/-! ## Bytes and marks -/

theorem ofByte?_of_not_mem_metacharacters (h : c ∉ metacharacters) : Mark.ofByte? c = none := by
  cases hmark : Mark.ofByte? c with
  | none => rfl
  | some m =>
    obtain rfl := Mark.byte_of_ofByte? hmark
    cases m <;> exact absurd (by decide) h

theorem feedByte_escape {p : Nat} (hmode : r.mode = .escape p) (h : c ∈ metacharacters) :
    r.feedByte limits c = .ok (r.push (.byte c)) := by
  simp only [feedByte, hmode, Escaped.ofByte?_of_mem_literals (metacharacters_subset h)]

theorem consumes_byte (hmode : r.mode = .pieces) (c : UInt8) :
    Consumes limits r (escaping metacharacters c) (r.push (.byte c)) := by
  rw [escaping]
  split
  · next hspecial =>
    have hbackslash : r.feedByte limits '\\'.toUInt8 = .ok { r with mode := .escape r.pos } :=
      feedByte_pieces hmode _
    exact .cons hbackslash (consumes_single (feedByte_escape rfl hspecial))
  · next hplain =>
    exact consumes_single
      (by rw [feedByte_pieces hmode, feedPiece, ofByte?_of_not_mem_metacharacters hplain])

theorem consumes_mark (hmode : r.mode = .pieces) {e : Expr}
    (h : r.feedPiece limits c = .ok (r.push e)) : Consumes limits r [c] (r.push e) :=
  consumes_single ((feedByte_pieces hmode c).trans h)

end PatternReader

/-! ## Sets -/

theorem ByteSet.insert_eq_insertRange (s : ByteSet) (c : UInt8) :
    s.insert c = s.insertRange c c := by
  refine ext_contains (fun b => ?_)
  rw [contains_insert, contains_insertRange]
  congr 1
  rw [Bool.eq_iff_iff, Bool.and_eq_true]
  simp only [decide_eq_true_eq]
  exact ⟨fun h => h ▸ ⟨UInt8.le_refl c, UInt8.le_refl c⟩, fun h => UInt8.le_antisymm h.1 h.2⟩

namespace BracketReader

/-- The next byte starts an item, and the items so far denote the set. -/
inductive Holds : BracketReader → ByteSet → Prop where
  | opened (pos : Nat) : Holds (.start pos) .empty
  | item (pos : Nat) (s : ByteSet) : Holds ⟨pos, false, s, .item⟩ s
  | low (pos : Nat) (s : ByteSet) (c : UInt8) (p : Nat) :
      Holds ⟨pos, false, s, .low c p⟩ (s.insert c)

variable {reader : BracketReader} {first negated : Bool} {s : ByteSet} {c : UInt8}

theorem ne_of_not_mem_bracketCharacters (h : c ∉ bracketCharacters) {d : UInt8}
    (hd : d ∈ bracketCharacters) : c ≠ d :=
  fun heq => h (heq ▸ hd)

/-- The next byte starts an item, or ends the list unless it would be the `first` item; the items so
far denote the set, before a negation. -/
inductive Awaits : BracketReader → (first negated : Bool) → ByteSet → Prop where
  | opened (pos : Nat) : Awaits (.start pos) true false .empty
  | first (pos : Nat) : Awaits ⟨pos, true, .empty, .first⟩ true true .empty
  | item (pos : Nat) (negated : Bool) (s : ByteSet) :
      Awaits ⟨pos, negated, s, .item⟩ false negated s
  | low (pos : Nat) (negated : Bool) (s : ByteSet) (c : UInt8) (p : Nat) :
    Awaits ⟨pos, negated, s, .low c p⟩ false negated (s.insert c)

theorem Holds.awaits (h : reader.Holds s) : ∃ first, reader.Awaits first false s := by
  cases h with
  | opened pos => exact ⟨true, .opened pos⟩
  | item pos s => exact ⟨false, .item pos false s⟩
  | low pos s c p => exact ⟨false, .low pos false s c p⟩

theorem Awaits.feed_backslash (h : reader.Awaits first negated s) (pos : Nat) :
    reader.feed pos '\\'.toUInt8 = .ok (.more ⟨reader.pos, negated, s, .escape pos⟩) := by
  cases h <;> rfl

theorem Awaits.feed_plain (h : reader.Awaits first negated s) (pos : Nat)
    (hplain : c ∉ bracketCharacters) :
    reader.feed pos c = .ok (.more ⟨reader.pos, negated, s, .low c pos⟩) := by
  have hend : c ≠ ']'.toUInt8 := ne_of_not_mem_bracketCharacters hplain (by decide)
  have hbackslash : c ≠ '\\'.toUInt8 := ne_of_not_mem_bracketCharacters hplain (by decide)
  have hcaret : c ≠ '^'.toUInt8 := ne_of_not_mem_bracketCharacters hplain (by decide)
  have hdash : c ≠ '-'.toUInt8 := ne_of_not_mem_bracketCharacters hplain (by decide)
  cases h with
  | opened p => simp only [feed, start, feedItem, if_neg hcaret, if_neg hbackslash]
  | first p => simp only [feed, feedItem, if_neg hbackslash]
  | item p negated s => simp only [feed, feedItemOrEnd, feedItem, if_neg hend, if_neg hbackslash]
  | low p negated s d p' =>
    simp only [feed, feedItemOrEnd, feedItem, if_neg hdash, if_neg hend, if_neg hbackslash]

theorem Holds.feed_end (h : reader.Holds s) (hphase : reader.phase ≠ .opened) (pos : Nat) :
    reader.feed pos ']'.toUInt8 = .ok (.done s) := by
  cases h with
  | opened p => exact absurd rfl hphase
  | item p s => rfl
  | low p s d p' => rfl

end BracketReader

namespace PatternReader

variable {limits : PatternLimits} {r : PatternReader} {reader reader' : BracketReader} {s : ByteSet}
  {first negated : Bool} {c low high : UInt8} {p p' : Nat}

theorem feedByte_bracket (hmode : r.mode = .bracket reader)
    (h : reader.feed r.pos c = .ok (.more reader')) :
    r.feedByte limits c = .ok { r with mode := .bracket reader' } := by
  simp only [feedByte, hmode]
  rw [h]
  rfl

theorem feedByte_bracket_done (hmode : r.mode = .bracket reader)
    (h : reader.feed r.pos c = .ok (.done s)) : r.feedByte limits c = .ok (r.push (.oneOf s)) := by
  simp only [feedByte, hmode]
  rw [h]
  rfl

/-- The first byte of an item, which may start a range. -/
theorem consumes_low (limits : PatternLimits) (hmode : r.mode = .bracket reader)
    (h : reader.Awaits first negated s) (low : UInt8) :
    ∃ p, Consumes limits r (escaping bracketCharacters low)
      { r with mode := .bracket ⟨reader.pos, negated, s, .low low p⟩ } := by
  rw [escaping]
  split
  · next hspecial =>
    refine ⟨r.pos, .cons (feedByte_bracket hmode (h.feed_backslash _)) (consumes_single ?_)⟩
    refine feedByte_bracket rfl ?_
    simp only [BracketReader.feed,
      Escaped.ofByte?_of_mem_literals (bracketCharacters_subset hspecial)]
  · next hplain => exact ⟨r.pos, consumes_single (feedByte_bracket hmode (h.feed_plain _ hplain))⟩

/-- The high end of a range, after the dash. -/
theorem consumes_high (hmode : r.mode = .bracket ⟨p, negated, s, .dash low p'⟩) (hle : low ≤ high) :
    Consumes limits r (escaping bracketCharacters high)
      { r with mode := .bracket ⟨p, negated, s.insertRange low high, .item⟩ } := by
  have hadd : ∀ phase : BracketPhase, BracketReader.addRange ⟨p, negated, s, phase⟩ low p' high =
      .ok (.more ⟨p, negated, s.insertRange low high, .item⟩) :=
    fun _ => if_neg (UInt8.not_lt.mpr hle)
  rw [escaping]
  split
  · next hspecial =>
    have hbackslash : BracketReader.feed ⟨p, negated, s, .dash low p'⟩ r.pos '\\'.toUInt8 =
        .ok (.more ⟨p, negated, s, .high low p' r.pos⟩) := rfl
    refine .cons (feedByte_bracket hmode hbackslash) (consumes_single (feedByte_bracket rfl ?_))
    simp only [BracketReader.feed,
      Escaped.ofByte?_of_mem_literals (bracketCharacters_subset hspecial)]
    exact hadd _
  · next hplain =>
    refine consumes_single (feedByte_bracket hmode ?_)
    have hend : high ≠ ']'.toUInt8 :=
      BracketReader.ne_of_not_mem_bracketCharacters hplain (by decide)
    have hbackslash : high ≠ '\\'.toUInt8 :=
      BracketReader.ne_of_not_mem_bracketCharacters hplain (by decide)
    simp only [BracketReader.feed, if_neg hend, if_neg hbackslash]
    exact hadd _

/-- Both ends of a range and the dash between them. -/
theorem consumes_span (limits : PatternLimits) (hmode : r.mode = .bracket reader)
    (h : reader.Awaits first negated s) (hle : low ≤ high) :
    Consumes limits r
      (escaping bracketCharacters low ++ '-'.toUInt8 :: escaping bracketCharacters high)
      { r with mode := .bracket ⟨reader.pos, negated, s.insertRange low high, .item⟩ } := by
  obtain ⟨p, hlow⟩ := consumes_low limits hmode h low
  have hdash : ∀ pos, BracketReader.feed ⟨reader.pos, negated, s, .low low p⟩ pos '-'.toUInt8 =
      .ok (.more ⟨reader.pos, negated, s, .dash low p⟩) := fun _ => rfl
  exact hlow.append (.cons (feedByte_bracket rfl (hdash _)) (consumes_high rfl hle))

theorem consumes_range (limits : PatternLimits) (hmode : r.mode = .bracket reader)
    (h : reader.Holds s) {range : ByteRange} (hle : range.low ≤ range.high) :
    ∃ reader', reader'.Holds (s.insertRange range.low range.high) ∧ reader'.phase ≠ .opened ∧
      Consumes limits r range.written { r with mode := .bracket reader' } := by
  obtain ⟨_, hawaits⟩ := h.awaits
  rw [ByteRange.written]
  split
  · next heq =>
    obtain ⟨p, hlow⟩ := consumes_low limits hmode hawaits range.low
    refine ⟨_, ?_, fun hphase => ?_, hlow.append (consumes_nil _)⟩
    · rw [← heq, ← ByteSet.insert_eq_insertRange]
      exact .low _ _ _ _
    · cases hphase
  · refine ⟨_, .item reader.pos _, fun hphase => ?_, consumes_span limits hmode hawaits hle⟩
    cases hphase

/-- The ranges of a set and the bracket that closes it. Right after the opening bracket a closing
one would stand for itself, so there has to be a range in between. -/
theorem consumes_ranges (limits : PatternLimits) (hmode : r.mode = .bracket reader)
    (h : reader.Holds s) {ranges : List ByteRange} (hle : ∀ range ∈ ranges, range.low ≤ range.high)
    (hphase : ranges = [] → reader.phase ≠ .opened) :
    Consumes limits r (ranges.flatMap ByteRange.written ++ [']'.toUInt8])
      (r.push (.oneOf (ranges.foldl (fun t range => t.insertRange range.low range.high) s))) := by
  induction ranges generalizing r reader s with
  | nil => exact consumes_single (feedByte_bracket_done hmode (h.feed_end (hphase rfl) _))
  | cons range ranges ih =>
    obtain ⟨reader', hholds, hphase', hrange⟩ :=
      consumes_range limits hmode h (hle range List.mem_cons_self)
    rw [List.flatMap_cons, List.append_assoc, List.foldl_cons]
    exact hrange.append (ih rfl hholds (fun range' hmem => hle range' (List.mem_cons_of_mem _ hmem))
      (fun _ => hphase'))

theorem consumes_set (hmode : r.mode = .pieces) (hs : s ≠ .empty) :
    Consumes limits r s.written (r.push (.oneOf s)) := by
  have hbracket : r.feedByte limits '['.toUInt8 = .ok { r with mode := .bracket (.start r.pos) } :=
    feedByte_pieces hmode _
  refine .cons hbracket ?_
  have hranges := consumes_ranges limits
    (r := { r with pos := r.pos + 1, mode := .bracket (.start r.pos) }) rfl (.opened r.pos)
    (fun range hrange => ByteSet.low_le_high hrange)
    (fun hnil => absurd hnil (ByteSet.ranges_ne_nil hs))
  rwa [ByteSet.foldl_ranges] at hranges

end PatternReader

/-! ## Quantifiers -/

def Quantifier.Within (limits : PatternLimits) (q : Quantifier) : Prop :=
  ∀ min max, q = repeated min max →
    min ≤ limits.maxRepetitions ∧ ∀ n, max = some n → n ≤ limits.maxRepetitions

/-- A phase of bounds with the number being read left out. -/
inductive BoundsPhase.OfNumber : (Option NumberReader → BoundsPhase) → Prop where
  | min : OfNumber .min
  | max (m : Nat) : OfNumber (.max m)

namespace PatternReader

variable {limits : PatternLimits} {r : PatternReader} {phase : Option NumberReader → BoundsPhase}
  {number : Option NumberReader} {bounds bounds' : BoundsReader} {c : UInt8} {d n p v : Nat}

theorem feedByte_bounds (hmode : r.mode = .bounds bounds)
    (h : bounds.feed limits.maxRepetitions r.pos c = .ok (.more bounds')) :
    r.feedByte limits c = .ok { r with mode := .bounds bounds' } := by
  simp only [feedByte, hmode]
  rw [h]
  rfl

/-- One more digit of a number that started at `start` and is `v` so far. -/
theorem consumes_digit (hphase : BoundsPhase.OfNumber phase)
    (hmode : r.mode = .bounds ⟨p, phase number⟩) {start : Nat}
    (hnumber : number.getD ⟨r.pos, 0⟩ = ⟨start, v⟩) (hd : d < 10) (hn : 10 * v + d = n)
    (hlimit : n ≤ limits.maxRepetitions) :
    Consumes limits r [d.digitChar.toUInt8]
      { r with mode := .bounds ⟨p, phase (some ⟨start, n⟩)⟩ } := by
  obtain ⟨hdigit, hvalue⟩ := digitChar_spec hd
  have hfeed : NumberReader.feed limits.maxRepetitions r.pos d.digitChar.toUInt8 number =
      .ok (some ⟨start, n⟩) := by
    simp only [NumberReader.feed, hnumber, hvalue, hn, if_neg (Nat.not_lt.mpr hlimit)]
  refine consumes_single (feedByte_bounds hmode ?_)
  cases hphase with
  | min =>
    simp only [BoundsReader.feed, hdigit, if_true, hfeed]
    rfl
  | max m =>
    simp only [BoundsReader.feed, hdigit, if_true, hfeed]
    rfl

theorem consumes_decimal (hphase : BoundsPhase.OfNumber phase)
    (hmode : r.mode = .bounds ⟨p, phase none⟩) (hlimit : n ≤ limits.maxRepetitions) :
    Consumes limits r (decimal n) { r with mode := .bounds ⟨p, phase (some ⟨r.pos, n⟩)⟩ } := by
  induction n using Nat.strongRecOn with
  | ind n ih =>
    rcases Nat.lt_or_ge n 10 with hn | hn
    · rw [decimal_of_lt hn]
      exact consumes_digit hphase hmode rfl hn (by omega) hlimit
    · rw [decimal_of_le hn]
      have hprefix := ih (n / 10) (by omega) (by omega)
      exact hprefix.append
        (consumes_digit hphase rfl rfl (Nat.mod_lt n (by decide)) (Nat.div_add_mod n 10) hlimit)

theorem quantify_add {level : Level} {e : Expr} (hlevel : r.level = level.add (.atom e))
    (q : Quantifier) :
    r.quantify q = .ok { r with mode := .pieces, level := level.add (.quantified e q) } := by
  simp only [quantify, hlevel, Level.add]

/-- The closing brace applies the repetition to the latest piece. -/
theorem consumes_brace {level : Level} {e : Expr} {min : Nat} {max : Option Nat}
    (hmode : r.mode = .bounds bounds) (hlevel : r.level = level.add (.atom e))
    (h : bounds.feed limits.maxRepetitions r.pos c = .ok (.done min max)) :
    Consumes limits r [c]
      { r with mode := .pieces, level := level.add (.quantified e (.repeated min max)) } := by
  refine consumes_single ?_
  simp only [feedByte, hmode]
  rw [h]
  exact quantify_add hlevel _

/-- The rest of the bounds after the minimum. -/
theorem consumes_maximum {level : Level} {e : Expr} {min start : Nat} {max : Option Nat}
    (hmode : r.mode = .bounds ⟨p, .min (some ⟨start, min⟩)⟩)
    (hlevel : r.level = level.add (.atom e))
    (hmax : ∀ n, max = some n → min ≤ n ∧ n ≤ limits.maxRepetitions) :
    Consumes limits r (writtenMaximum min max ++ ['\x7d'.toUInt8])
      { r with mode := .pieces, level := level.add (.quantified e (.repeated min max)) } := by
  have hcomma :
      BoundsReader.feed limits.maxRepetitions ⟨p, .min (some ⟨start, min⟩)⟩ r.pos ','.toUInt8 =
      .ok (.more ⟨p, .max min none⟩) := rfl
  cases max with
  | none => exact .cons (feedByte_bounds hmode hcomma) (consumes_brace rfl hlevel rfl)
  | some max =>
    obtain ⟨hle, hlimit⟩ := hmax max rfl
    rw [writtenMaximum]
    split
    · next heq =>
      obtain rfl := heq
      exact consumes_brace hmode hlevel rfl
    · have hbrace : ∀ pos pos',
          BoundsReader.feed limits.maxRepetitions ⟨p, .max min (some ⟨pos, max⟩)⟩ pos'
            '\x7d'.toUInt8 = .ok (.done min (some max)) :=
        fun _ _ => if_neg (Nat.not_lt.mpr hle)
      exact .cons (feedByte_bounds hmode hcomma)
        ((consumes_decimal (.max min) rfl hlimit).append (consumes_brace rfl hlevel (hbrace _ _)))

theorem consumes_quantifier {level : Level} {e : Expr} {q : Quantifier} (hmode : r.mode = .pieces)
    (hlevel : r.level = level.add (.atom e)) (hordered : q.Ordered) (hwithin : q.Within limits) :
    Consumes limits r q.written
      { r with mode := .pieces, level := level.add (.quantified e q) } := by
  have hmark : ∀ {c : UInt8} {q : Quantifier}, r.feedPiece limits c = r.quantify q →
      Consumes limits r [c] { r with mode := .pieces, level := level.add (.quantified e q) } :=
    fun h => consumes_single (((feedByte_pieces hmode _).trans h).trans (quantify_add hlevel _))
  cases q with
  | star => exact hmark rfl
  | plus => exact hmark rfl
  | optional =>
    refine hmark (q := .optional) ?_
    show r.question = _
    simp only [question, hlevel, Level.add]
  | repeated min max =>
    obtain ⟨hmin, hmax⟩ := hwithin min max rfl
    have hbrace :
        r.feedByte limits '\x7b'.toUInt8 = .ok { r with mode := .bounds (.opened r.pos) } := by
      rw [feedByte_pieces hmode]
      show r.brace = _
      simp only [brace, hlevel, Level.add]
    exact .cons hbrace ((consumes_decimal .min rfl hmin).append
      (consumes_maximum rfl hlevel (fun n hn => ⟨hordered n hn, hmax n hn⟩)))

theorem consumes_greed {level : Level} {e : Expr} {q : Quantifier} (hmode : r.mode = .pieces)
    (hlevel : r.level = level.add (.quantified e q)) (greed : Greed) :
    Consumes limits r greed.written { r with level := level.add (q.apply e greed).piece } := by
  cases greed with
  | greedy =>
    rw [Quantifier.piece_apply_greedy, ← hlevel]
    exact consumes_nil r
  | lazy =>
    rw [Quantifier.piece_apply_lazy]
    refine consumes_single ((feedByte_pieces hmode _).trans ?_)
    show r.question = _
    simp only [question, hlevel, Level.add]

end PatternReader

end ByteRegex
