import ByteRegex.Proofs.Template.Checking
import ByteRegex.Proofs.Text.Decimal
import Mathlib.Algebra.Group.Nat.Defs
import Mathlib.Data.List.Induction
import Mathlib.Data.List.TakeWhile

/-!
# What templates say

A template is read from left to right: two dollar signs are one, a dollar sign and the digits behind
it, as many as there are, refer to a group, and any other byte stands for itself. Checking and
filling in a template go by this reading: `Template.check_and_expand`.
-/

namespace ByteRegex

/-- What a stretch of a template says. -/
inductive TemplateToken where
  /-- One byte that stands for itself. -/
  | plain (b : UInt8)
  /-- Two dollar signs. -/
  | dollar
  /-- A dollar sign and digits. -/
  | reference (digits : List UInt8)

namespace TemplateToken

/-- The bytes that the token stands for. A group that the match did not pass through stands for
nothing. -/
def filled (subject : ByteArray) (m : Match) : TemplateToken → List UInt8
  | plain b => [b]
  | dollar => ['$'.toUInt8]
  | reference digits =>
    match m.group? (Text.decimalValue digits) with
    | some span => (subject.data.toList.drop span.start).take (span.stop - span.start)
    | none => []

def piece : TemplateToken → TemplatePiece
  | plain b => .byte b
  | dollar => .byte '$'.toUInt8
  | reference digits => .group (Text.decimalValue digits)

end TemplateToken

namespace Template

inductive Reads : List UInt8 → List TemplateToken → Prop where
  | nil : Reads [] []
  | dollar {rest : List UInt8} {tokens : List TemplateToken} (h : Reads rest tokens) :
      Reads ('$'.toUInt8 :: '$'.toUInt8 :: rest) (.dollar :: tokens)
  | reference {digits rest : List UInt8} {tokens : List TemplateToken} (hsome : digits ≠ [])
      (hdigits : ∀ d ∈ digits, Text.isDigit d = true)
      (hall : ∀ b ∈ rest.head?, Text.isDigit b = false)
      (h : Reads rest tokens) :
      Reads ('$'.toUInt8 :: (digits ++ rest)) (.reference digits :: tokens)
  | plain {b : UInt8} {rest : List UInt8} {tokens : List TemplateToken}
      (halone : b = '$'.toUInt8 → ∀ c ∈ rest.head?, c ≠ '$'.toUInt8 ∧ Text.isDigit c = false)
      (h : Reads rest tokens) : Reads (b :: rest) (.plain b :: tokens)

variable {bytes digits rest : List UInt8} {tokens : List TemplateToken}
    {pieces : Array TemplatePiece} {b : UInt8}

theorem head?_dropWhile_isDigit (bytes : List UInt8) :
    ∀ b ∈ (bytes.dropWhile Text.isDigit).head?, Text.isDigit b = false := by
  intro b hb
  have hstop := List.head?_dropWhile_not Text.isDigit bytes
  rwa [Option.mem_def.mp hb] at hstop

/-- Every template can be read. -/
theorem exists_reads : (bytes : List UInt8) → ∃ tokens, Reads bytes tokens
  | [] => ⟨[], .nil⟩
  | [b] => ⟨[.plain b], .plain (fun _ => nofun) .nil⟩
  | b :: c :: rest => by
    by_cases halone : b = '$'.toUInt8 → c ≠ '$'.toUInt8 ∧ Text.isDigit c = false
    · obtain ⟨tokens, htokens⟩ := exists_reads (c :: rest)
      exact ⟨_, .plain (fun hb _ hc => Option.some.inj hc ▸ halone hb) htokens⟩
    · -- The dollar sign is followed by another one, or by the first of the digits.
      simp only [Classical.not_imp, not_and_or, not_not, Bool.not_eq_false] at halone
      obtain ⟨rfl, rfl | hdigit⟩ := halone
      · obtain ⟨tokens, htokens⟩ := exists_reads rest
        exact ⟨_, .dollar htokens⟩
      · obtain ⟨tokens, htokens⟩ := exists_reads ((c :: rest).dropWhile Text.isDigit)
        have hsome : (c :: rest).takeWhile Text.isDigit ≠ [] := by
          rw [List.takeWhile_cons_of_pos hdigit]
          exact List.cons_ne_nil _ _
        have hreference := Reads.reference hsome (fun d hd => List.mem_takeWhile_imp hd)
          (head?_dropWhile_isDigit _) htokens
        rw [List.takeWhile_append_dropWhile] at hreference
        exact ⟨_, hreference⟩
termination_by bytes => bytes.length
decreasing_by
  · exact Nat.lt_succ_self _
  · exact Nat.lt_succ_of_lt (Nat.lt_succ_self _)
  · exact Nat.lt_succ_of_le (List.dropWhile_sublist _).length_le

/-! ## Reading byte by byte -/

/-- A byte that does not go on with what is being read is read as if that had been complete
before. -/
theorem foldl_feed_settled {mode : TemplateMode} {piece : TemplatePiece}
    (hfinish : TemplateReader.finish ⟨pieces, mode⟩ = ⟨pieces.push piece⟩)
    (hfeed : ∀ b ∈ rest.head?,
      TemplateReader.feed ⟨pieces, mode⟩ b = TemplateReader.feed ⟨pieces.push piece, .plain⟩ b) :
    (rest.foldl TemplateReader.feed ⟨pieces, mode⟩).finish =
      (rest.foldl TemplateReader.feed ⟨pieces.push piece, .plain⟩).finish := by
  cases rest with
  | nil => exact hfinish
  | cons b rest => rw [List.foldl_cons, List.foldl_cons, hfeed b rfl]

/-- The digits behind a dollar sign add up to a number. -/
theorem foldl_feed_digits (hsome : digits ≠ []) (hdigits : ∀ d ∈ digits, Text.isDigit d = true) :
    digits.foldl TemplateReader.feed ⟨pieces, .dollar⟩ =
      ⟨pieces, .number (Text.decimalValue digits)⟩ := by
  induction digits using List.reverseRecOn with
  | nil => exact absurd rfl hsome
  | append_singleton digits d ih =>
    have hd := hdigits d (List.mem_append_right _ (List.mem_singleton_self d))
    rw [List.foldl_append, Text.decimalValue_concat]
    by_cases hnil : digits = []
    · subst hnil
      have hdollar : d ≠ '$'.toUInt8 := by
        rintro rfl
        exact absurd hd (by decide)
      simp only [List.foldl_nil, List.foldl_cons, TemplateReader.feed, if_neg hdollar, if_pos hd]
      simp [Text.decimalValue]
    · rw [ih hnil (fun d' hd' => hdigits d' (List.mem_append_left _ hd'))]
      exact if_pos hd

theorem toList_push_append (pieces : Array TemplatePiece) (piece : TemplatePiece)
    (rest : List TemplatePiece) :
    (pieces.push piece).toList ++ rest = pieces.toList ++ piece :: rest := by
  rw [Array.toList_push, List.append_assoc, List.singleton_append]

/-- The reader keeps a piece for each token. -/
theorem pieces_of_reads (h : Reads bytes tokens) (pieces : Array TemplatePiece) :
    (bytes.foldl TemplateReader.feed ⟨pieces, .plain⟩).finish.pieces.toList =
      pieces.toList ++ tokens.map TemplateToken.piece := by
  induction h generalizing pieces with
  | nil => exact (List.append_nil _).symm
  | dollar _ ih =>
    rw [List.foldl_cons, List.foldl_cons, List.map_cons, ← toList_push_append]
    exact ih _
  | reference hsome hdigits hall _ ih =>
    rw [List.foldl_cons, List.foldl_append, List.map_cons, ← toList_push_append]
    show (List.foldl _
      (List.foldl TemplateReader.feed ⟨pieces, .dollar⟩ _) _).finish.pieces.toList = _
    rw [foldl_feed_digits hsome hdigits, foldl_feed_settled rfl]
    · exact ih _
    · intro b hb
      exact if_neg (Bool.eq_false_iff.mp (hall b hb))
  | @plain b rest tokens halone _ ih =>
    rw [List.foldl_cons, List.map_cons, ← toList_push_append]
    by_cases hdollar : b = '$'.toUInt8
    · subst hdollar
      show (rest.foldl TemplateReader.feed ⟨pieces, .dollar⟩).finish.pieces.toList = _
      rw [foldl_feed_settled rfl]
      · exact ih _
      · intro c hc
        obtain ⟨hdollar, hdigit⟩ := halone rfl c hc
        exact (if_neg hdollar).trans (if_neg (Bool.eq_false_iff.mp hdigit))
    · have hfeed : TemplateReader.feed ⟨pieces, .plain⟩ b = ⟨pieces.push (.byte b), .plain⟩ :=
        if_neg hdollar
      rw [hfeed]
      exact ih _

theorem pieces_ofBytes (h : Reads bytes tokens) :
    (ofBytes bytes).pieces.toList = tokens.map TemplateToken.piece :=
  pieces_of_reads h #[]

/-! ## Filling in -/

variable {subject : ByteArray} {m : Match} {captures : Nat} {e : TemplateError}

theorem toList_expandPiece (out : ByteArray) (token : TemplateToken) :
    (expandPiece subject m out token.piece).data.toList =
      out.data.toList ++ token.filled subject m := by
  cases token with
  | plain b => exact Array.toList_push
  | dollar => exact Array.toList_push
  | reference digits =>
    rw [TemplateToken.piece, expandPiece, TemplateToken.filled]
    cases m.group? (Text.decimalValue digits) with
    | none => exact (List.append_nil _).symm
    | some span =>
      dsimp only
      rw [ByteArray.toList_data_append, ByteArray.data_extract, Array.toList_extract,
        List.extract_eq_take_drop]

theorem toList_expand (h : Reads bytes tokens) (out : ByteArray) :
    ((ofBytes bytes).expand subject m out).data.toList =
      out.data.toList ++ tokens.flatMap (TemplateToken.filled subject m) := by
  have hfold : ∀ (tokens : List TemplateToken) (out : ByteArray),
      ((tokens.map TemplateToken.piece).foldl (expandPiece subject m) out).data.toList =
        out.data.toList ++ tokens.flatMap (TemplateToken.filled subject m) := by
    intro tokens
    induction tokens with
    | nil => exact fun out => (List.append_nil _).symm
    | cons token tokens ih =>
      intro out
      rw [List.map_cons, List.foldl_cons, ih, toList_expandPiece, List.flatMap_cons,
        List.append_assoc]
  rw [expand, ← Array.foldl_toList, pieces_ofBytes h]
  exact hfold tokens out

/-! ## Checking -/

theorem piece_eq_group {token : TemplateToken} {index : Nat} :
    token.piece = .group index ↔
      ∃ digits, token = .reference digits ∧ Text.decimalValue digits = index := by
  cases token <;> simp [TemplateToken.piece]

theorem check_ofBytes_eq_ok (h : Reads bytes tokens) :
    (ofBytes bytes).check captures = .ok () ↔
      ∀ digits, .reference digits ∈ tokens → Text.decimalValue digits ≤ captures := by
  simp only [check_eq_ok, ← Array.mem_toList_iff, pieces_ofBytes h, List.mem_map]
  constructor
  · exact fun hall digits hdigits => hall _ ⟨_, hdigits, rfl⟩
  · rintro hall index ⟨token, htoken, hpiece⟩
    obtain ⟨digits, rfl, rfl⟩ := piece_eq_group.mp hpiece
    exact hall digits htoken

/-- The first reference to a group that is not there is at fault. -/
theorem check_ofBytes_eq_error (h : Reads bytes tokens) :
    (ofBytes bytes).check captures = .error e ↔
      ∃ before digits after, tokens = before ++ .reference digits :: after ∧
        (∀ earlier, .reference earlier ∈ before → Text.decimalValue earlier ≤ captures) ∧
        captures < Text.decimalValue digits ∧ e = .ofGroup (Text.decimalValue digits) captures := by
  rw [check_eq_error, pieces_ofBytes h]
  constructor
  · rintro ⟨_, _, _, hpieces, hbefore, hlt, rfl⟩
    obtain ⟨before, rest, rfl, rfl, hrest⟩ := List.map_eq_append_iff.mp hpieces
    obtain ⟨token, after, rfl, htoken, rfl⟩ := List.map_eq_cons_iff.mp hrest
    obtain ⟨digits, rfl, rfl⟩ := piece_eq_group.mp htoken
    exact ⟨before, digits, after, rfl,
      fun earlier hearlier => hbefore _ (List.mem_map_of_mem hearlier), hlt, rfl⟩
  · rintro ⟨before, digits, after, rfl, hbefore, hlt, rfl⟩
    refine ⟨_, _, _, List.map_append, fun index hindex => ?_, hlt, rfl⟩
    obtain ⟨token, htoken, hpiece⟩ := List.mem_map.mp hindex
    obtain ⟨earlier, rfl, rfl⟩ := piece_eq_group.mp hpiece
    exact hbefore earlier htoken

/-- A template is checked and filled in by its reading. What is filled in is what the tokens stand
for, one after the other. The check fails exactly if a reference is to a group above the captures,
and then the first such reference is the fault. Its number is reported up to the largest one of 64
bits, which is still above any number of captures of 32 bits. -/
theorem check_and_expand (bytes : List UInt8) (captures : Nat) :
    (∃ tokens, Reads bytes tokens) ∧ ∀ tokens, Reads bytes tokens →
      (∀ (subject : ByteArray) (m : Match) (out : ByteArray),
        ((ofBytes bytes).expand subject m out).data.toList =
          out.data.toList ++ tokens.flatMap (TemplateToken.filled subject m)) ∧
      ((ofBytes bytes).check captures = .ok () ↔
        ∀ digits, .reference digits ∈ tokens → Text.decimalValue digits ≤ captures) ∧
      (∀ e, (ofBytes bytes).check captures = .error e ↔
        ∃ before digits after, tokens = before ++ .reference digits :: after ∧
          (∀ earlier, .reference earlier ∈ before → Text.decimalValue earlier ≤ captures) ∧
          captures < Text.decimalValue digits ∧
          e = { group := min (Text.decimalValue digits) (2 ^ 64 - 1), captures := captures }) ∧
      (captures < 2 ^ 32 → ∀ e, (ofBytes bytes).check captures = .error e →
        captures < e.group) := by
  refine ⟨exists_reads bytes,
    fun tokens h => ⟨fun _ _ out => toList_expand h out, check_ofBytes_eq_ok h,
      fun e => check_ofBytes_eq_error h, fun hcaptures e he => ?_⟩⟩
  obtain ⟨_, digits, _, _, _, hlt, rfl⟩ := (check_ofBytes_eq_error h).mp he
  have hlimit : captures < (1 <<< 64) - 1 := Nat.lt_trans hcaptures (by decide)
  exact Nat.lt_min.mpr ⟨hlt, hlimit⟩

theorem check_and_expand_two_references :
    let bytes := "$$9$01$12$a".toUTF8.data.toList
    let m : Match := { span := ⟨0, 2⟩, groups := [some ⟨1, 2⟩] }
    ((ofBytes bytes).expand "xy".toUTF8 m .empty).data.toList = "$9y$a".toUTF8.data.toList ∧
      (ofBytes bytes).check 3 = .error { group := 12, captures := 3 } ∧
      ∀ e, (ofBytes bytes).check 3 = .error e → 3 < e.group := by
  intro bytes m
  have hend : Reads [36, 97] [.plain 36, .plain 97] :=
    .plain (by rintro - _ ⟨⟩; exact ⟨nofun, rfl⟩) (.plain nofun .nil)
  have hsecond : Reads [36, 49, 50, 36, 97] [.reference [49, 50], .plain 36, .plain 97] :=
    .reference (List.cons_ne_nil 49 [50]) (List.all_eq_true.mp rfl) (by rintro _ ⟨⟩; rfl) hend
  have hfirst : Reads [36, 48, 49, 36, 49, 50, 36, 97]
      [.reference [48, 49], .reference [49, 50], .plain 36, .plain 97] :=
    .reference (List.cons_ne_nil 48 [49]) (List.all_eq_true.mp rfl) (by rintro _ ⟨⟩; rfl) hsecond
  have hreads : Reads bytes
      [.dollar, .plain 57, .reference [48, 49], .reference [49, 50], .plain 36, .plain 97] :=
    .dollar (.plain nofun hfirst)
  obtain ⟨hexpand, _, herror, hlarge⟩ := (check_and_expand bytes 3).2 _ hreads
  refine ⟨(hexpand "xy".toUTF8 m .empty).trans (by decide +kernel),
    (herror _).mpr ⟨[.dollar, .plain 57, .reference [48, 49]], [49, 50], [.plain 36, .plain 97],
      rfl, ?_, by decide, rfl⟩,
    hlarge (by decide)⟩
  intro earlier hearlier
  simp only [List.mem_cons, reduceCtorEq, TemplateToken.reference.injEq, List.not_mem_nil,
    or_false, false_or] at hearlier
  subst hearlier
  decide

end Template

end ByteRegex
