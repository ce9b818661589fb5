import ByteRegex.Expr.Outline
import ByteRegex.Proofs.ByteSet.Canonical

/-!
# What labels tell

The label of a node of an outline tells all about the node but its parts: which kind of node it is,
and the byte, the members, the bounds, the choice or the index that go with the kind.
-/

namespace ByteRegex

theorem Greed.suffix_injective {greed greed' : Greed}
    (h : greed.suffix.toList = greed'.suffix.toList) : greed = greed' := by
  cases greed <;> cases greed' <;> first | rfl | exact absurd h (by decide)

namespace Expr

/-! ## Bounds -/

/-- The numbers between the braces; none stands for a maximum that there is not. -/
def boundsFields (min : Nat) : Option Nat → List (Option Nat)
  | none => [some min, none]
  | some max => if max = min then [some min] else [some min, some max]

def fieldText (field : Option Nat) : List Char :=
  field.elim [] fun n => (toString n).toList

variable {min min' : Nat} {max max' : Option Nat}

theorem fieldText_injective {field field' : Option Nat} (h : fieldText field = fieldText field') :
    field = field' := by
  cases field with
  | none =>
    cases field' with
    | none => rfl
    | some n => exact absurd (String.toList_eq_nil_iff.mp h.symm) Nat.repr_ne_empty
  | some m =>
    cases field' with
    | none => exact absurd (String.toList_eq_nil_iff.mp h) Nat.repr_ne_empty
    | some n => exact congrArg some (Nat.repr_inj.mp (String.toList_inj.mp h))

theorem not_mem_fieldText {c : Char} (hc : c.isDigit = false) (field : Option Nat) :
    c ∉ fieldText field := by
  cases field with
  | none => exact List.not_mem_nil
  | some n => exact Text.not_mem_toString hc n

theorem boundsFields_injective (h : boundsFields min max = boundsFields min' max') :
    min = min' ∧ max = max' := by
  cases max <;> cases max' <;> simp only [boundsFields] at h
  case none.none => simp_all
  case none.some n => split at h <;> simp_all
  case some.none n => split at h <;> simp_all
  case some.some m n => split at h <;> split at h <;> simp_all

theorem toList_boundsText (min : Nat) (max : Option Nat) :
    (boundsText min max).toList =
      '\x7b' :: ([','].intercalate ((boundsFields min max).map fieldText) ++ ['\x7d']) := by
  cases max with
  | none => simp [boundsText, boundsFields, fieldText, String.toList_append]
  | some max =>
    rw [boundsText, boundsFields]
    split <;> simp [fieldText, String.toList_append]

/-- Bounds end with their brace. -/
theorem boundsText_append_inj {rest rest' : List Char}
    (h : (boundsText min max).toList ++ rest = (boundsText min' max').toList ++ rest') :
    (min = min' ∧ max = max') ∧ rest = rest' := by
  have hmissing : ∀ {c : Char}, c.isDigit = false → ∀ min max,
      ∀ part ∈ (boundsFields min max).map fieldText, c ∉ part := by
    intro c hc min max part hpart
    obtain ⟨field, _, rfl⟩ := List.mem_map.mp hpart
    exact not_mem_fieldText hc field
  have hbrace : ∀ min max, '\x7d' ∉ [','].intercalate ((boundsFields min max).map fieldText) :=
    fun min max => Text.not_mem_intercalate (by decide) (hmissing (by decide) min max)
  have hsplit : ∀ min max, ([','].intercalate ((boundsFields min max).map fieldText)).splitOn ',' =
      (boundsFields min max).map fieldText := by
    intro min max
    refine List.splitOn_intercalate ',' (hmissing (by decide) min max) ?_
    cases max with
    | none => simp [boundsFields]
    | some max =>
      rw [boundsFields]
      split <;> simp
  simp only [toList_boundsText, List.cons_append, List.append_assoc, List.nil_append,
    List.cons.injEq, true_and] at h
  obtain ⟨hbounds, hrest⟩ := Text.append_cons_inj (hbrace min max) (hbrace min' max') h
  have hfields := congrArg (List.splitOn ',') hbounds
  rw [hsplit, hsplit] at hfields
  exact ⟨boundsFields_injective
    (List.map_injective_iff.mpr (fun _ _ => fieldText_injective) hfields), hrest⟩

/-! ## Kinds and details -/

def kind : Expr → String
  | byte _ => "literal"
  | any => "any_byte"
  | oneOf _ => "class"
  | textStart => "start"
  | textEnd => "end"
  | concat _ => "concat"
  | alternate _ => "alternate"
  | star _ _ => "star"
  | plus _ _ => "plus"
  | optional _ _ => "optional"
  | repeated _ _ _ _ => "repeat"
  | group _ _ => "group"

/-- What follows the first word of a label. -/
def details : Expr → List Char
  | any | textStart | textEnd | concat _ | alternate _ => []
  | byte b =>
    ' ' :: ((Text.hexByte b).toList ++
      if isVisible b then [' ', '\'', Char.ofUInt8 b, '\''] else [])
  | oneOf s => ' ' :: s.text.toList
  | star _ greed | plus _ greed | optional _ greed => greed.suffix.toList
  | repeated _ min max greed => ' ' :: ((boundsText min max).toList ++ greed.suffix.toList)
  | group _ (some index) => ' ' :: (toString index).toList
  | group _ none => ' ' :: "(non-capturing)".toList

def isKindChar (c : Char) : Bool :=
  c.isLower || c == '_'

variable {e e' : Expr}

theorem toList_label (e : Expr) : e.label.toList = e.kind.toList ++ e.details := by
  cases e with
  | byte b =>
    rw [label, byteLabel, details, kind]
    split <;> simp [String.toList_append]
  | any | textStart | textEnd | concat es | alternate es => simp [label, kind, details]
  | oneOf s => simp [label, kind, details, String.toList_append]
  | star e greed | plus e greed | optional e greed =>
    simp [label, kind, details, String.toList_append]
  | repeated e min max greed => simp [label, kind, details, String.toList_append]
  | group e index => cases index <;> simp [label, kind, details, String.toList_append]

theorem isKindChar_of_mem_kind (e : Expr) : ∀ c ∈ e.kind.toList, isKindChar c = true := by
  refine List.all_eq_true.mp ?_
  cases e <;> (rw [kind]; rfl)

theorem not_isKindChar_head?_details (e : Expr) : ∀ c ∈ e.details.head?, ¬isKindChar c = true := by
  have hblank : ¬isKindChar ' ' = true := by decide
  cases e with
  | any | textStart | textEnd | concat es | alternate es => exact nofun
  | byte b | oneOf s | repeated e min max greed => exact Text.not_of_mem_head?_cons hblank
  | star e greed | plus e greed | optional e greed =>
    cases greed with
    | greedy => exact nofun
    | lazy => exact Text.not_of_mem_head?_cons hblank
  | group e index => cases index <;> exact Text.not_of_mem_head?_cons hblank

theorem unbroken_singleton {b : UInt8} (hb : isVisible b = true) :
    Text.Unbroken (String.singleton (Char.ofUInt8 b)) := by
  intro hmem
  have hbreak : '\n' = Char.ofUInt8 b := by simpa using hmem
  have hvalue : 10 = b.toNat := (congrArg Char.toNat hbreak).trans (UInt8.toNat_toUInt32 b)
  simp only [isVisible, Bool.and_eq_true, decide_eq_true_eq, UInt8.le_iff_toNat_le] at hb
  have hlow : 33 ≤ b.toNat := hb.1
  omega

theorem unbroken_suffix (greed : Greed) : Text.Unbroken greed.suffix := by
  cases greed <;> decide

theorem unbroken_boundsText (min : Nat) (max : Option Nat) :
    Text.Unbroken (boundsText min max) := by
  cases max with
  | none => simp +decide only [boundsText, Text.unbroken_append, Text.unbroken_toString]
  | some max =>
    rw [boundsText]
    split <;> simp +decide only [Text.unbroken_append, Text.unbroken_toString]

theorem unbroken_label (e : Expr) : Text.Unbroken e.label := by
  cases e with
  | any | textStart | textEnd | concat es | alternate es => simp +decide only [label]
  | byte b =>
    rw [label, byteLabel]
    split
    · next hb =>
      simp +decide only [Text.unbroken_append, Text.unbroken_hexByte, unbroken_singleton hb]
    · simp +decide only [Text.unbroken_append, Text.unbroken_hexByte]
  | oneOf s => simp +decide only [label, Text.unbroken_append, ByteSet.unbroken_text]
  | star e greed | plus e greed | optional e greed =>
    simp +decide only [label, Text.unbroken_append, unbroken_suffix]
  | repeated e min max greed =>
    simp +decide only [label, Text.unbroken_append, unbroken_suffix, unbroken_boundsText]
  | group e index =>
    cases index with
    | none => simp +decide only [label]
    | some index => simp +decide only [label, Text.unbroken_append, Text.unbroken_toString]

/-- A code holds no blank, so that it ends where the character follows, or with the label. -/
theorem details_byte_injective {b c : UInt8} (h : (byte b).details = (byte c).details) : b = c := by
  have hcode : ∀ b, ∀ x ∈ (Text.hexByte b).toList, x ≠ ' ' := by
    rintro b x hx rfl
    exact (Text.mem_hexByte hx).elim (by decide) (by decide)
  have hcharacter : ∀ b : UInt8,
      ∀ x ∈ (if isVisible b then [' ', '\'', Char.ofUInt8 b, '\''] else []).head?, ¬x ≠ ' ' := by
    intro b x hx
    split at hx
    · exact Text.not_of_mem_head?_cons (P := (· ≠ ' ')) (not_not_intro rfl) x hx
    · cases hx
  obtain ⟨hsame, _⟩ := Text.append_inj_of_forall (hcode b) (hcode c) (hcharacter b) (hcharacter c)
    (List.cons.inj h).2
  exact Text.hexByte_injective hsame

theorem details_group_injective {index index' : Option Nat}
    (h : (group e index).details = (group e' index').details) : index = index' := by
  have hnumber : ∀ n : Nat, (toString n).toList ≠ "(non-capturing)".toList := by
    intro n hn
    have hparenthesis : '(' ∉ (toString n).toList := Text.not_mem_toString (by decide) n
    exact hparenthesis (hn ▸ by decide)
  cases index <;> cases index'
  case none.none => rfl
  case some.some m n => rw [Nat.repr_inj.mp (String.toList_inj.mp (List.cons.inj h).2)]
  case some.none n => exact absurd (List.cons.inj h).2 (hnumber n)
  case none.some n => exact absurd (List.cons.inj h).2.symm (hnumber n)

/-- Nodes of different kinds have labels that start differently, and for each kind the details can
be told. -/
theorem eq_of_details (hkind : e.kind = e'.kind) (h : e.details = e'.details)
    (hchildren : e.children = e'.children) : e = e' := by
  cases e <;> cases e' <;> simp [kind] at hkind
  case any.any | textStart.textStart | textEnd.textEnd => rfl
  case byte.byte b c => rw [details_byte_injective h]
  case concat.concat es es' | alternate.alternate es es' => rw [show es = es' from hchildren]
  case oneOf.oneOf s t => rw [ByteSet.text_inj.mp (String.toList_inj.mp (List.cons.inj h).2)]
  case star.star d greed d' greed' | plus.plus d greed d' greed' | optional.optional d
    greed d' greed' =>
    rw [Greed.suffix_injective h, List.singleton_inj.mp hchildren]
  case repeated.repeated d min max greed d' min' max' greed' =>
    obtain ⟨⟨rfl, rfl⟩, hgreed⟩ := boundsText_append_inj (List.cons.inj h).2
    rw [Greed.suffix_injective hgreed, List.singleton_inj.mp hchildren]
  case group.group d index d' index' =>
    rw [details_group_injective h, List.singleton_inj.mp hchildren]

/-- A label tells everything but the parts. -/
theorem eq_of_label (h : e.label = e'.label) (hchildren : e.children = e'.children) : e = e' := by
  have hlist := congrArg String.toList h
  rw [toList_label, toList_label] at hlist
  obtain ⟨hkind, hdetails⟩ :=
    Text.append_inj_of_forall e.isKindChar_of_mem_kind e'.isKindChar_of_mem_kind
    e.not_isKindChar_head?_details e'.not_isKindChar_head?_details hlist
  exact eq_of_details (String.toList_inj.mp hkind) hdetails hchildren

end Expr

end ByteRegex
