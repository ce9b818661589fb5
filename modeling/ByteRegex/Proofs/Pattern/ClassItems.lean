import ByteRegex.Proofs.Pattern.RoundTrip

/-!
# What bracket expressions denote

A bracket expression lists single bytes, ranges and named sets. However it is spelled, it is read to
its closing bracket and no further, and the set that it denotes holds the bytes that one of the
items holds, or all others if the list is negated: `ClassItem.bracketExpression_denotes`.
-/

namespace ByteRegex

/-! ## Items -/

/-- The sets that a letter names after a backslash. The capital letter names the bytes outside of
the set. -/
inductive NamedSet where
  | digit
  | word
  | space

namespace NamedSet

def letter : NamedSet → (negated : Bool) → UInt8
  | digit, false => 'd'.toUInt8
  | digit, true => 'D'.toUInt8
  | word, false => 'w'.toUInt8
  | word, true => 'W'.toUInt8
  | space, false => 's'.toUInt8
  | space, true => 'S'.toUInt8

def Holds : NamedSet → UInt8 → Prop
  | digit, b => '0'.toUInt8 ≤ b ∧ b ≤ '9'.toUInt8
  | word, b =>
    ('a'.toUInt8 ≤ b ∧ b ≤ 'z'.toUInt8) ∨ ('A'.toUInt8 ≤ b ∧ b ≤ 'Z'.toUInt8) ∨
      ('0'.toUInt8 ≤ b ∧ b ≤ '9'.toUInt8) ∨ b = '_'.toUInt8
  | space, b => b ∈ [' ', '\t', '\n', '\x0b', '\x0c', '\r'].map Char.toUInt8

def set : NamedSet → ByteSet
  | digit => .digit
  | word => .word
  | space => .space

theorem contains_set (name : NamedSet) (b : UInt8) : name.set.contains b = true ↔ name.Holds b := by
  cases name with
  | digit =>
    rw [set, ByteSet.digit, ByteSet.contains_range, Bool.and_eq_true, decide_eq_true_eq,
      decide_eq_true_eq]
    rfl
  | word =>
    rw [set, ByteSet.word, ByteSet.contains_insert, ByteSet.contains_insertRange,
      ByteSet.contains_insertRange, ByteSet.contains_range, Holds]
    simp only [Bool.or_eq_true, Bool.and_eq_true, decide_eq_true_eq, or_assoc,
      @eq_comm _ '_'.toUInt8]
  | space =>
    rw [set, ByteSet.space, ByteSet.contains_insert, ByteSet.contains_range, Holds]
    simp only [Bool.or_eq_true, Bool.and_eq_true, decide_eq_true_eq, UInt8.le_iff_toNat_le,
      ← UInt8.toNat_inj, List.map_cons, List.map_nil, List.mem_cons, List.not_mem_nil, or_false]
    show (9 ≤ b.toNat ∧ b.toNat ≤ 13) ∨ 32 = b.toNat ↔ b.toNat = 32 ∨ b.toNat = 9 ∨ b.toNat = 10 ∨
      b.toNat = 11 ∨ b.toNat = 12 ∨ b.toNat = 13
    omega

def named (name : NamedSet) (negated : Bool) : ByteSet :=
  if negated then name.set.compl else name.set

theorem ofByte?_letter (name : NamedSet) (negated : Bool) :
    Escaped.ofByte? (name.letter negated) = some (.set (name.named negated)) := by
  cases name <;> cases negated <;> rfl

theorem contains_named (name : NamedSet) (negated : Bool) (b : UInt8) :
    (name.named negated).contains b = true ↔ if negated then ¬name.Holds b else name.Holds b := by
  cases negated with
  | false => exact name.contains_set b
  | true =>
    show name.set.compl.contains b = true ↔ ¬name.Holds b
    rw [ByteSet.contains_compl, Bool.not_eq_true', ← Bool.not_eq_true, name.contains_set]

end NamedSet

inductive ClassItem where
  | byte (b : UInt8)
  | range (low high : UInt8)
  | named (name : NamedSet) (negated : Bool)

namespace ClassItem

def Valid : ClassItem → Prop
  | byte b => b < 128
  | range low high => low ≤ high ∧ high < 128
  | named _ _ => True

def Holds : ClassItem → UInt8 → Prop
  | byte c, b => b = c
  | range low high, b => low ≤ b ∧ b ≤ high
  | named name negated, b => if negated then ¬name.Holds b else name.Holds b

/-- The item with a backslash before each byte that means something else between brackets. -/
def written : ClassItem → List UInt8
  | byte b => escaping bracketCharacters b
  | range low high =>
    escaping bracketCharacters low ++ '-'.toUInt8 :: escaping bracketCharacters high
  | named name negated => ['\\'.toUInt8, name.letter negated]

/-- The bytes spell the items. The `first` item comes right after the opening bracket or the caret,
where a closing bracket may stand for itself, and no list ends there; the last one may be a dash
that stands for itself. -/
inductive Spells : (first : Bool) → List ClassItem → List UInt8 → Prop where
  | nil : Spells false [] []
  | item (first : Bool) {item : ClassItem} {items : List ClassItem} {bytes : List UInt8}
      (h : Spells false items bytes) : Spells first (item :: items) (item.written ++ bytes)
  | bracket {items : List ClassItem} {bytes : List UInt8} (h : Spells false items bytes) :
      Spells true (byte ']'.toUInt8 :: items) (']'.toUInt8 :: bytes)
  | dash (first : Bool) : Spells first [byte '-'.toUInt8] ['-'.toUInt8]

def bracketExpression (negated : Bool) (body : List UInt8) : List UInt8 :=
  '['.toUInt8 :: ((if negated then ['^'.toUInt8] else []) ++ (body ++ [']'.toUInt8]))

def addTo (s : ByteSet) : ClassItem → ByteSet
  | byte b => s.insert b
  | range low high => s.insertRange low high
  | named name negated => s.union (name.named negated)

def denoted (negated : Bool) (s : ByteSet) : ByteSet :=
  if negated then s.compl else s

variable {first negated : Bool} {item : ClassItem} {items : List ClassItem}
    {body : List UInt8} {s : ByteSet}
  {b : UInt8}

theorem contains_addTo (item : ClassItem) :
    (addTo s item).contains b = true ↔ s.contains b = true ∨ item.Holds b := by
  cases item with
  | byte c =>
    rw [addTo, ByteSet.contains_insert, Bool.or_eq_true, decide_eq_true_eq]
    exact or_congr_right eq_comm
  | range low high =>
    rw [addTo, ByteSet.contains_insertRange, Bool.or_eq_true, Bool.and_eq_true, decide_eq_true_eq,
      decide_eq_true_eq]
    rfl
  | named name negated =>
    rw [addTo, ByteSet.contains_union, Bool.or_eq_true, name.contains_named]
    rfl

theorem contains_foldl_addTo (items : List ClassItem) (s : ByteSet) (b : UInt8) :
    (items.foldl addTo s).contains b = true ↔
      s.contains b = true ∨ ∃ item ∈ items, item.Holds b := by
  induction items generalizing s with
  | nil => simp
  | cons item items ih =>
    rw [List.foldl_cons, ih, contains_addTo, List.exists_mem_cons_iff, or_assoc]

theorem contains_denoted (negated : Bool) (s : ByteSet) (b : UInt8) :
    (denoted negated s).contains b = true ↔
      if negated then ¬s.contains b = true else s.contains b = true := by
  cases negated with
  | false => exact Iff.rfl
  | true =>
    show s.compl.contains b = true ↔ ¬s.contains b = true
    rw [ByteSet.contains_compl, Bool.not_eq_true', Bool.not_eq_true]

/-- Any list that is not empty can be spelled with backslashes alone. -/
theorem spells_written (h : items ≠ []) : Spells true items (items.flatMap written) := by
  have hrest : ∀ items : List ClassItem, Spells false items (items.flatMap written) := by
    intro items
    induction items with
    | nil => exact .nil
    | cons item items ih => exact .item false ih
  obtain ⟨item, items, rfl⟩ := List.exists_cons_of_ne_nil h
  exact .item true (hrest items)

/-! ## ASCII -/

theorem Valid.ascii_written (h : item.Valid) : Ascii item.written := by
  cases item with
  | byte b => exact ascii_escaping _ h
  | range low high =>
    obtain ⟨hle, hhigh⟩ := h
    exact (ascii_escaping _ (UInt8.lt_of_le_of_lt hle hhigh)).append
      (.cons (by decide) (ascii_escaping _ hhigh))
  | named name negated =>
    refine .cons (by decide) (.cons ?_ nofun)
    cases name <;> cases negated <;> decide

theorem Spells.ascii (h : Spells first items body) (hvalid : ∀ item ∈ items, item.Valid) :
    Ascii body := by
  induction h with
  | nil => exact nofun
  | item first _ ih =>
    obtain ⟨hitem, hitems⟩ := List.forall_mem_cons.mp hvalid
    exact hitem.ascii_written.append (ih hitems)
  | bracket _ ih => exact .cons (by decide) (ih (List.forall_mem_cons.mp hvalid).2)
  | dash first => decide

theorem ascii_bracketExpression (negated : Bool) (h : Ascii body) :
    Ascii (bracketExpression negated body) := by
  have hcaret : Ascii (if negated then ['^'.toUInt8] else []) := by
    cases negated <;> decide
  exact .cons (by decide) (hcaret.append (h.append (by decide)))

end ClassItem

/-! ## Reading them -/

namespace BracketReader

variable {reader : BracketReader} {first negated : Bool} {s : ByteSet}

theorem Awaits.feed_end (h : reader.Awaits false negated s) (pos : Nat) :
    reader.feed pos ']'.toUInt8 = .ok (.done (ClassItem.denoted negated s)) := by
  cases h <;> rfl

theorem Awaits.feed_bracket (h : reader.Awaits true negated s) (pos : Nat) :
    reader.feed pos ']'.toUInt8 = .ok (.more ⟨reader.pos, negated, s, .low ']'.toUInt8 pos⟩) := by
  cases h <;> rfl

/-- A dash leads to a reader that takes it for itself if the closing bracket follows. -/
theorem Awaits.feed_dash (h : reader.Awaits first negated s) (pos : Nat) :
    ∃ reader', reader.feed pos '-'.toUInt8 = .ok (.more reader') ∧ ∀ pos',
      reader'.feed pos' ']'.toUInt8 =
        .ok (.done (ClassItem.denoted negated (s.insert '-'.toUInt8))) := by
  cases h with
  | opened pos | first pos | item pos negated s | low pos negated s c p =>
    exact ⟨_, rfl, fun _ => rfl⟩

end BracketReader

namespace PatternReader

open ClassItem

variable {limits : PatternLimits} {r : PatternReader} {reader : BracketReader}
    {first negated : Bool}
  {item : ClassItem} {items : List ClassItem} {body : List UInt8} {s : ByteSet}

/-- One item leads to a reader that awaits the next one. -/
theorem consumes_item (limits : PatternLimits) (hmode : r.mode = .bracket reader)
    (h : reader.Awaits first negated s) (hvalid : item.Valid) :
    ∃ reader', reader'.Awaits false negated (addTo s item) ∧
      Consumes limits r item.written { r with mode := .bracket reader' } := by
  cases item with
  | byte b =>
    obtain ⟨p, hlow⟩ := consumes_low limits hmode h b
    exact ⟨_, .low _ _ _ _ _, hlow⟩
  | range low high => exact ⟨_, .item _ _ _, consumes_span limits hmode h hvalid.1⟩
  | named name complement =>
    refine ⟨_, .item reader.pos negated _,
      .cons (feedByte_bracket hmode (h.feed_backslash _))
      (consumes_single (feedByte_bracket rfl ?_))⟩
    simp only [BracketReader.feed, name.ofByte?_letter]
    rfl

/-- The items and the bracket that closes them. The induction is on the spelling; what is carried
along is the set of the items before. -/
theorem consumes_items (hspells : Spells first items body) (hmode : r.mode = .bracket reader)
    (h : reader.Awaits first negated s) (hvalid : ∀ item ∈ items, item.Valid) :
    Consumes limits r (body ++ [']'.toUInt8])
      (r.push (.oneOf (denoted negated (items.foldl addTo s)))) := by
  induction hspells generalizing r reader s with
  | nil => exact consumes_single (feedByte_bracket_done hmode (h.feed_end _))
  | item first _ ih =>
    obtain ⟨hitem, hitems⟩ := List.forall_mem_cons.mp hvalid
    obtain ⟨reader', hawaits, hreads⟩ := consumes_item limits hmode h hitem
    rw [List.append_assoc]
    exact hreads.append (ih rfl hawaits hitems)
  | bracket _ ih =>
    have hitems := (List.forall_mem_cons.mp hvalid).2
    exact .cons (feedByte_bracket hmode (h.feed_bracket _)) (ih rfl (.low _ _ _ _ _) hitems)
  | dash first =>
    obtain ⟨reader', hdash, hend⟩ := h.feed_dash r.pos
    exact .cons (feedByte_bracket hmode hdash)
      (consumes_single (feedByte_bracket_done rfl (hend _)))

theorem consumes_bracketExpression (hspells : Spells true items body) (hmode : r.mode = .pieces)
    (hvalid : ∀ item ∈ items, item.Valid) (negated : Bool) :
    Consumes limits r (bracketExpression negated body)
      (r.push (.oneOf (denoted negated (items.foldl addTo .empty)))) := by
  have hbracket : r.feedByte limits '['.toUInt8 = .ok { r with mode := .bracket (.start r.pos) } :=
    feedByte_pieces hmode _
  refine .cons hbracket ?_
  cases negated with
  | false => exact consumes_items hspells rfl (.opened r.pos) hvalid
  | true =>
    exact .cons (feedByte_bracket rfl rfl) (consumes_items hspells rfl (.first r.pos) hvalid)

end PatternReader

namespace ClassItem

open PatternReader

variable {items : List ClassItem} {body : List UInt8}

/-- However the items of a bracket expression are spelled, one and the same set is read, between
other pieces, right after the parenthesis that opens a group, or as the whole pattern. Its members
are the bytes that one of the items holds, or all the others if the list is negated. -/
theorem bracketExpression_denotes (limits : PatternLimits) (hitems : items ≠ [])
    (hvalid : ∀ item ∈ items, item.Valid) (negated : Bool) :
    Spells true items (items.flatMap written) ∧
    ∃ s : ByteSet,
      (∀ b, s.contains b = true ↔
        if negated then ¬∃ item ∈ items, item.Holds b else ∃ item ∈ items, item.Holds b) ∧
      ∀ body, Spells true items body →
        (∀ r : PatternReader, r.mode = .pieces →
          Consumes limits r (bracketExpression negated body) (r.push (.oneOf s))) ∧
        (∀ (r : PatternReader) (p : Nat), r.mode = .opened p →
          Consumes limits r (bracketExpression negated body)
            ((r.enterCapturing p).push (.oneOf s))) ∧
        Pattern.ofText limits (String.ofList ((bracketExpression negated body).map Char.ofUInt8)) =
          .ok { root := .oneOf s, captures := 0 } := by
  refine ⟨spells_written hitems, denoted negated (items.foldl addTo .empty), fun b => ?_,
    fun body hspells => ?_⟩
  · have hmembers := contains_foldl_addTo items .empty b
    rw [ByteSet.contains_empty, or_iff_right Bool.false_ne_true] at hmembers
    rw [contains_denoted, hmembers]
  · have hreads : ∀ r : PatternReader, r.mode = .pieces → Consumes limits r _ _ :=
      fun r hmode => consumes_bracketExpression hspells hmode hvalid negated
    refine ⟨hreads, fun r p hmode => .capturing hmode (hreads (r.enterCapturing p) rfl), ?_⟩
    rw [Pattern.ofText, (ascii_bracketExpression negated (hspells.ascii hvalid)).toUTF8,
      Pattern.ofBytes, hreads .initial rfl]
    rfl

/-- A closing bracket in front, a range that ends with a dash, digits, and a dash behind
a byte, all of them excluded. -/
theorem bracketExpression_denotes_raw_ends :
    let items : List ClassItem :=
      [.byte ']'.toUInt8, .range '+'.toUInt8 '-'.toUInt8, .named .digit false, .byte 'a'.toUInt8,
        .byte '-'.toUInt8]
    let body := "]+-\\-\\da-".toUTF8.data.toList
    (items ≠ [] ∧ (∀ item ∈ items, item.Valid) ∧ Spells true items body) ∧
      ∃ s : ByteSet, (∀ b, s.contains b = true ↔ ¬∃ item ∈ items, item.Holds b) ∧
        Pattern.ofText {} "[^]+-\\-\\da-]" = .ok { root := .oneOf s, captures := 0 } := by
  intro items body
  have hitems : items ≠ [] := List.cons_ne_nil _ _
  have hvalid : ∀ item ∈ items, item.Valid := by
    simp only [items, List.forall_mem_cons, List.not_mem_nil, IsEmpty.forall_iff,
      implies_true, and_true]
    exact ⟨(by decide : ']'.toUInt8 < 128),
      (by decide : '+'.toUInt8 ≤ '-'.toUInt8 ∧ '-'.toUInt8 < 128), trivial,
      (by decide : 'a'.toUInt8 < 128), (by decide : '-'.toUInt8 < 128)⟩
  have hspells : Spells true items body :=
    .bracket (.item false (.item false (.item false (.dash false))))
  obtain ⟨_, s, hmembers, hreads⟩ := bracketExpression_denotes {} hitems hvalid true
  have htext :
      String.ofList ((bracketExpression true body).map Char.ofUInt8) = "[^]+-\\-\\da-]" := by
    decide +kernel
  exact ⟨⟨hitems, hvalid, hspells⟩, s, hmembers, htext ▸ (hreads body hspells).2.2⟩

end ClassItem

end ByteRegex
