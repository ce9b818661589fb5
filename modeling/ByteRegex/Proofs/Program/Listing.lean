import ByteRegex.Program.Listing
import ByteRegex.Proofs.ByteSet.Canonical

/-!
# What listings tell

A line of a listing tells the name of an instruction and all of its operands, and lines do not run
into one another. So a listing is the listing of one sequence of instructions only:
`Program.listingOf_inj`.
-/

namespace ByteRegex

theorem unbroken_addressText (address : Nat) : Text.Unbroken (addressText address) :=
  Text.unbroken_hex 5 address

theorem addressText_injective {a b : Nat} (h : (addressText a).toList = (addressText b).toList) :
    a = b :=
  Text.hex_injective h

namespace Instr

/-! ## Names and operands -/

def name : Instr → String
  | accept => "MATCH"
  | byte _ => "CHAR"
  | any => "ANY_BYTE"
  | oneOf _ => "CLASS"
  | split _ _ _ => "SPLIT"
  | jump _ => "JUMP"
  | save _ => "SAVE"
  | textStart => "START"
  | textEnd => "END"
  | roundStart _ => "ITER_START"
  | roundEnd _ _ => "ITER_END"

/-- The operands of an instruction, with what separates them from its name and from one another. -/
def operands : Instr → List Char
  | accept | any | textStart | textEnd => []
  | byte b => ' ' :: (Text.hexByte b).toList
  | oneOf s => ' ' :: s.text.toList
  | split id first second =>
    '(' :: ((toString id).toList ++ ')' :: ' ' :: ((addressText first).toList ++
      ' ' :: (addressText second).toList))
  | jump target => ' ' :: (addressText target).toList
  | save slot => ' ' :: (toString slot).toList
  | roundStart loop => '(' :: ((toString loop).toList ++ [')'])
  | roundEnd loop exit => '(' :: ((toString loop).toList ++ ')' :: ' ' :: (addressText exit).toList)

def isNameChar (c : Char) : Bool :=
  c.isUpper || c == '_'

variable {i j : Instr}

theorem toList_text (i : Instr) : i.text.toList = i.name.toList ++ i.operands := by
  cases i <;> simp [text, name, operands, String.toList_append]

theorem isNameChar_of_mem_name (i : Instr) : ∀ c ∈ i.name.toList, isNameChar c = true := by
  refine List.all_eq_true.mp ?_
  cases i <;> (rw [name]; rfl)

theorem not_isNameChar_head?_operands (i : Instr) :
    ∀ c ∈ i.operands.head?, ¬isNameChar c = true := by
  cases i with
  | accept | any | textStart | textEnd => exact nofun
  | byte | oneOf | jump | save | split | roundStart | roundEnd =>
    exact Text.not_of_mem_head?_cons (by decide)

theorem unbroken_text (i : Instr) : Text.Unbroken i.text := by
  cases i <;> simp +decide only [text, Text.unbroken_append, Text.unbroken_hexByte,
    Text.unbroken_toString, unbroken_addressText, ByteSet.unbroken_text, and_true]

/-- Instructions of different kinds have different names, and for each kind the operands can be
told. -/
theorem eq_of_operands (hname : i.name = j.name) (h : i.operands = j.operands) : i = j := by
  cases i <;> cases j <;> simp [name] at hname
  case accept.accept | any.any | textStart.textStart | textEnd.textEnd => rfl
  case byte.byte b c => rw [Text.hexByte_injective (List.cons.inj h).2]
  case oneOf.oneOf s t => rw [ByteSet.text_inj.mp (String.toList_inj.mp (List.cons.inj h).2)]
  case jump.jump a b => rw [addressText_injective (List.cons.inj h).2]
  case save.save m n => rw [Nat.repr_inj.mp (String.toList_inj.mp (List.cons.inj h).2)]
  case roundStart.roundStart m n =>
    rw [(Text.toString_append_cons_inj (by decide) (List.cons.inj h).2).1]
  case roundEnd.roundEnd m a n b =>
    obtain ⟨rfl, hexit⟩ := Text.toString_append_cons_inj (by decide) (List.cons.inj h).2
    rw [addressText_injective (List.cons.inj hexit).2]
  case split.split m a b n a' b' =>
    obtain ⟨rfl, htargets⟩ := Text.toString_append_cons_inj (by decide) (List.cons.inj h).2
    obtain ⟨rfl, hsecond⟩ := Text.hex_append_cons_inj (by decide) (List.cons.inj htargets).2
    rw [addressText_injective hsecond]

/-- The name ends where the operands begin, and the text ends with the line. -/
theorem text_append_newline_inj {rest rest' : List Char}
    (h : i.text.toList ++ '\n' :: rest = j.text.toList ++ '\n' :: rest') :
    i = j ∧ rest = rest' := by
  obtain ⟨htext, hrest⟩ := Text.append_cons_inj i.unbroken_text j.unbroken_text h
  rw [toList_text, toList_text] at htext
  obtain ⟨hname, hoperands⟩ :=
    Text.append_inj_of_forall i.isNameChar_of_mem_name j.isNameChar_of_mem_name
    i.not_isNameChar_head?_operands j.not_isNameChar_head?_operands htext
  exact ⟨eq_of_operands (String.toList_inj.mp hname) hoperands, hrest⟩

end Instr

namespace Program

/-! ## Lines -/

def lines : (address : Nat) → List Instr → List Char
  | _, [] => []
  | address, i :: is => (lineText address i).toList ++ lines (address + 1) is

theorem toList_lineText (address : Nat) (i : Instr) :
    (lineText address i).toList =
      (addressText address).toList ++ ':' :: ' ' :: (i.text.toList ++ ['\n']) := by
  simp [lineText, String.toList_append]

theorem toList_listingOf (is : Array Instr) :
    (listingOf is).toList = '\n' :: lines 0 is.toList := by
  have hfold : ∀ (is : List Instr) (address : Nat) (text : String),
      ((is.zipIdx address).foldl (fun text line => text ++ lineText line.2 line.1) text).toList =
        text.toList ++ lines address is := by
    intro is
    induction is with
    | nil => simp [lines]
    | cons i is ih =>
      intro address text
      rw [List.zipIdx_cons, List.foldl_cons, ih, lines, String.toList_append, List.append_assoc]
  rw [listingOf, ← Array.foldl_toList, Array.toList_zipIdx]
  exact hfold is.toList 0 "\n"

theorem lines_cons_ne_nil (address : Nat) (i : Instr) (is : List Instr) :
    lines address (i :: is) ≠ [] := by
  simp [lines, toList_lineText]

theorem lines_injective {is js : List Instr} {address : Nat}
    (h : lines address is = lines address js) : is = js := by
  induction is generalizing js address with
  | nil =>
    cases js with
    | nil => rfl
    | cons j js => exact absurd h.symm (lines_cons_ne_nil address j js)
  | cons i is ih =>
    cases js with
    | nil => exact absurd h (lines_cons_ne_nil address i is)
    | cons j js =>
      -- Both lines have the same address, so that they differ in nothing but their instructions.
      simp only [lines, toList_lineText, List.append_assoc, List.cons_append,
        List.append_cancel_left_eq, List.cons.injEq, true_and, List.nil_append] at h
      obtain ⟨rfl, hrest⟩ := Instr.text_append_newline_inj h
      rw [ih hrest]

/-- A listing tells all about the instructions that it lists. -/
theorem listingOf_inj (is js : Array Instr) : listingOf is = listingOf js ↔ is = js := by
  refine ⟨fun h => ?_, fun h => h ▸ rfl⟩
  have hlist := congrArg String.toList h
  rw [toList_listingOf, toList_listingOf] at hlist
  exact Array.toList_inj.mp (lines_injective (List.cons.inj hlist).2)

end Program

end ByteRegex
