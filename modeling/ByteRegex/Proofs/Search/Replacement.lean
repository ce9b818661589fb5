import ByteRegex.Proofs.Match.Enclosure
import ByteRegex.Proofs.Search.Items
import ByteRegex.Proofs.Template.Checking
import ByteRegex.Template.Replace

/-!
# What replacing matches writes

The matches of a subject follow one another, so the bytes between them are parts of the subject, and
so are the spans of the groups that a template refers to. What is written is put together from these
parts, each of which is looked up here with its bounds checked: `Template.spliced?`.
-/

namespace ByteRegex

/-! ## Matches in order -/

/-- Matches of a subject, each of them behind the one before it, from the offset `lo` on. -/
inductive Match.Follow (length captures : Nat) : (lo : Nat) → List Match → Prop where
  | nil {lo} (h : lo ≤ length) : Follow length captures lo []
  | cons {lo first rest} (hfirst : first.FitsIn lo length captures)
      (hrest : Follow length captures first.span.stop rest) :
      Follow length captures lo (first :: rest)

theorem Match.Follow.take {length captures lo : Nat} {found : List Match}
    (h : Follow length captures lo found) (k : Nat) : Follow length captures lo (found.take k) := by
  induction h generalizing k with
  | nil h =>
    rw [List.take_nil]
    exact .nil h
  | cons hfirst _ ih =>
    cases k with
    | zero => exact .nil (Nat.le_trans hfirst.behind (Nat.le_trans hfirst.forward hfirst.inside))
    | succ k => exact .cons hfirst (ih k)

namespace Pattern

variable {pattern : Pattern} {subject : ByteArray} {found : List Match}

theorem fitsIn_of_leftmost (hnormal : pattern.root.Normal) {start : Nat} {first : Match}
    (h : pattern.leftmost subject start = some first) :
    first.FitsIn start subject.size pattern.captures := by
  obtain ⟨i, hle, hlt, hi, _⟩ := findSome?_range'_eq_some h
  exact (fitsIn_of_matchAt hnormal (by omega) hi).mono hle

theorem stop_le_nextStart? {first : Match} {length next : Nat}
    (h : first.nextStart? length = some next) : first.span.stop ≤ next := by
  obtain ⟨rfl, _⟩ := nextStart?_eq_some.mp h
  exact Nat.le_max_left _ _

/-- Each match that a stream yields lies behind the one before it. -/
theorem Lists.follow (hnormal : pattern.root.Normal) {start : Option Nat}
    (h : pattern.Lists subject start found) {lo : Nat} (hlo : lo ≤ subject.size)
    (hstart : ∀ o, start = some o → lo ≤ o) :
    Match.Follow subject.size pattern.captures lo found := by
  induction h generalizing lo with
  | nil _ => exact .nil hlo
  | cons h _ ih =>
    obtain ⟨o, rfl, hfirst⟩ := Option.bind_eq_some_iff.mp h
    have hfits := fitsIn_of_leftmost hnormal hfirst
    exact .cons (hfits.mono (hstart o rfl)) (ih hfits.inside (fun _ => stop_le_nextStart?))

end Pattern

/-! ## Templates filled in -/

/-- What a piece of a template stands for. A span that is not a part of the subject has no bytes. -/
def TemplatePiece.filled? (subject : ByteArray) (m : Match) : TemplatePiece → Option ByteArray
  | byte b => some [b].toByteArray
  | group index =>
    match m.group? index with
    | some span => span.bytes? subject
    | none => some .empty

namespace Template

def filledAll? (subject : ByteArray) (m : Match) : List TemplatePiece → Option ByteArray
  | [] => some .empty
  | piece :: pieces => do
    let first ← piece.filled? subject m
    let rest ← filledAll? subject m pieces
    return first ++ rest

/-- The subject from the offset `copied` on, with the template filled in for each match in the place
of the match. -/
def spliced? (t : Template) (subject : ByteArray) : (copied : Nat) → List Match → Option ByteArray
  | copied, [] => Span.bytes? ⟨copied, subject.size⟩ subject
  | copied, m :: found => do
    let before ← Span.bytes? ⟨copied, m.span.start⟩ subject
    let filled ← filledAll? subject m t.pieces.toList
    let rest ← t.spliced? subject m.span.stop found
    return before ++ filled ++ rest

variable {t : Template} {subject out : ByteArray} {m : Match} {captures copied lo : Nat}
  {found : List Match}

theorem bytes?_of_le {start stop : Nat} (h : start ≤ stop) (h' : stop ≤ subject.size) :
    Span.bytes? ⟨start, stop⟩ subject = some (subject.extract start stop) := if_pos ⟨h, h'⟩

/-- A piece is filled in by what it stands for. -/
theorem filled?_eq (hm : m.FitsIn lo subject.size captures) (out : ByteArray)
    (piece : TemplatePiece) :
    ∃ bytes, piece.filled? subject m = some bytes ∧
      expandPiece subject m out piece = out ++ bytes := by
  cases piece with
  | byte b => exact ⟨_, rfl, ByteArray.append_toByteArray_singleton.symm⟩
  | group index =>
    rw [TemplatePiece.filled?, expandPiece]
    cases hspan : m.group? index with
    | none => exact ⟨_, rfl, ByteArray.append_empty.symm⟩
    | some span =>
      obtain ⟨_, hforward, hinside⟩ := hm.groups index span hspan
      exact ⟨_, bytes?_of_le hforward (Nat.le_trans hinside hm.inside), rfl⟩

theorem filledAll?_eq (hm : m.FitsIn lo subject.size captures) (out : ByteArray)
    (pieces : List TemplatePiece) :
    ∃ bytes, filledAll? subject m pieces = some bytes ∧
      pieces.foldl (expandPiece subject m) out = out ++ bytes := by
  induction pieces generalizing out with
  | nil => exact ⟨_, rfl, ByteArray.append_empty.symm⟩
  | cons piece pieces ih =>
    obtain ⟨first, hfirst, hout⟩ := filled?_eq hm out piece
    obtain ⟨rest, hrest, hout'⟩ := ih (out ++ first)
    refine ⟨first ++ rest, ?_, ?_⟩
    · rw [filledAll?, hfirst, hrest]
      rfl
    · rw [List.foldl_cons, hout, hout', ByteArray.append_assoc]

theorem expand_eq (hm : m.FitsIn lo subject.size captures) (out : ByteArray) :
    ∃ bytes, filledAll? subject m t.pieces.toList = some bytes ∧
      t.expand subject m out = out ++ bytes := by
  rw [expand, ← Array.foldl_toList]
  exact filledAll?_eq hm out t.pieces.toList

/-! ## Items replaced -/

/-- What replacing the items of a stream one by one comes to. -/
def replaceItems (t : Template) (subject : ByteArray) : (out : ByteArray) → (copied : Nat) →
    List (Except RegexError Match) → Except RegexError ByteArray
  | out, copied, [] => .ok (out ++ subject.extract copied subject.size)
  | _, _, .error e :: _ => .error e
  | out, copied, .ok m :: items =>
    t.replaceItems subject
      (t.expand subject m (out ++ subject.extract copied m.span.start)) m.span.stop items

theorem replaceItems_error (out : ByteArray) (copied : Nat) (found : List Match) (e : RegexError) :
    t.replaceItems subject out copied (found.map .ok ++ [.error e]) = .error e := by
  induction found generalizing out copied with
  | nil => rfl
  | cons m found ih => exact ih _ _

/-- The bytes between matches that follow one another are parts of the subject. -/
theorem replaceItems_ok (h : Match.Follow subject.size captures copied found) (out : ByteArray) :
    ∃ bytes, t.spliced? subject copied found = some bytes ∧
      t.replaceItems subject out copied (found.map .ok) = .ok (out ++ bytes) := by
  induction h generalizing out with
  | nil hcopied => exact ⟨_, bytes?_of_le hcopied (Nat.le_refl _), rfl⟩
  | @cons copied first rest hfirst _ ih =>
    have hbefore := bytes?_of_le hfirst.behind (Nat.le_trans hfirst.forward hfirst.inside)
    obtain ⟨filled, hfilled, hout⟩ :=
      expand_eq (t := t) hfirst (out ++ subject.extract copied first.span.start)
    obtain ⟨after, hafter, hreplaced⟩ :=
      ih (out ++ subject.extract copied first.span.start ++ filled)
    refine ⟨subject.extract copied first.span.start ++ filled ++ after, ?_, ?_⟩
    · rw [spliced?, hbefore, hfilled, hafter]
      rfl
    · rw [List.map_cons, replaceItems, hout, hreplaced]
      simp only [ByteArray.append_assoc]

end Template

namespace MatchStream

variable {stream : MatchStream} {items : List (Except RegexError Match)} {t : Template}
  {subject : ByteArray}

/-- What is replaced in some calls are the first items. -/
theorem Delivers.replaceUpTo_value (h : stream.Delivers items) (out : ByteArray) (copied : Nat)
    (events : Array Event) (n : Nat) :
    (stream.replaceUpTo t subject out copied events n).value =
      t.replaceItems subject out copied (items.take n) := by
  induction n generalizing stream items out copied events with
  | zero => rfl
  | succ n ih =>
    rw [replaceUpTo]
    cases items with
    | nil =>
      have hitem : stream.next.item = none := h 0
      generalize stream.next = step at hitem
      obtain ⟨item, moreEvents, rest⟩ := step
      obtain rfl : item = none := hitem
      rfl
    | cons item items =>
      obtain ⟨hitem, hrest⟩ := delivers_cons.mp h
      generalize stream.next = step at hitem hrest
      obtain ⟨item', moreEvents, rest⟩ := step
      obtain rfl : item' = some item := hitem
      cases item with
      | error e => rfl
      | ok m => exact ih hrest _ _ _

end MatchStream

namespace Matcher

variable {limits : Limits} {text : String} {m : Matcher} {pattern : Pattern} {t : Template}
  {subject template : ByteArray} {isGlobal : Bool}

theorem replace_of_check_error (ht : Template.ofBytes template.data.toList = t) {e : TemplateError}
    (h : t.check m.captureCount = .error e) :
    (m.replace subject template isGlobal).value = .error (.template e) := by
  rw [replace, ht]
  dsimp only
  rw [h]

theorem replace_of_check_ok (ht : Template.ofBytes template.data.toList = t)
    (h : t.check m.captureCount = .ok ()) :
    (m.replace subject template isGlobal).value =
      ((m.stream subject).replaceUpTo t subject .empty 0 #[]
        (if isGlobal then (m.stream subject).callBound else 1)).value := by
  rw [replace, ht]
  dsimp only
  rw [h]

/-- Replacing takes the items that it needs from the stream. -/
theorem replace_value (ht : Template.ofBytes template.data.toList = t)
    (h : t.check m.captureCount = .ok ()) {items : List (Except RegexError Match)}
    (hitems : (m.stream subject).Delivers items)
    (hlength : items.length < (m.stream subject).callBound) :
    (m.replace subject template isGlobal).value =
      t.replaceItems subject .empty 0 (if isGlobal then items else items.take 1) := by
  rw [replace_of_check_ok ht h, hitems.replaceUpTo_value]
  cases isGlobal with
  | true => exact congrArg _ (List.take_of_length_le (Nat.le_of_lt hlength))
  | false => rfl

/-- Replacing goes on up to the first error, and what it looks up until then is there. -/
theorem replaceItems_cases {captures : Nat} {found : List Match}
    {items : List (Except RegexError Match)} (hfollow : Match.Follow subject.size captures 0 found)
    (hopens : Match.Opens found items) :
    ∃ found' bytes, Match.Follow subject.size captures 0 found' ∧
      t.spliced? subject 0 found' = some bytes ∧
      ((items = found'.map .ok ∧ t.replaceItems subject .empty 0 items = .ok bytes) ∨
        ∃ e, items = found'.map .ok ++ [.error e] ∧
          t.replaceItems subject .empty 0 items = .error e) := by
  obtain ⟨k, hitems⟩ := hopens
  obtain ⟨bytes, hspliced, hreplaced⟩ := Template.replaceItems_ok (t := t) (hfollow.take k) .empty
  rw [ByteArray.empty_append] at hreplaced
  refine ⟨found.take k, bytes, hfollow.take k, hspliced, ?_⟩
  rcases hitems with rfl | ⟨e, rfl⟩
  · exact Or.inl ⟨rfl, hreplaced⟩
  · exact Or.inr ⟨e, rfl, Template.replaceItems_error .empty 0 _ e⟩

/-- Only a template that refers to a missing group is at fault, whatever the subject is. With any
other template, what is replaced are the items of the stream, or the first one alone: matches that
follow one another in the subject, for each of which the template is spliced in, up to the first
error if there is one, and that is the result then. -/
theorem replace_eq_spliced (hbuild : (build limits text).value = .ok m) (template : ByteArray)
    (ht : Template.ofBytes template.data.toList = t) :
    ((∃ index, .group index ∈ t.pieces ∧ m.captureCount < index) →
      ∃ index, .group index ∈ t.pieces ∧ m.captureCount < index ∧ ∀ subject isGlobal,
        (m.replace subject template isGlobal).value =
          .error (.template (.ofGroup index m.captureCount))) ∧
    ((∀ index, .group index ∈ t.pieces → index ≤ m.captureCount) → ∀ subject,
      ∃ items, (m.stream subject).toList.value = items ∧
      (∀ n, (m.stream subject).itemAt n = items[n]?) ∧
        ∀ isGlobal needed, needed = (if isGlobal then items else items.take 1) →
          ∃ found bytes, Match.Follow subject.size m.captureCount 0 found ∧
            t.spliced? subject 0 found = some bytes ∧
            ((needed = found.map .ok ∧ (m.replace subject template isGlobal).value = .ok bytes) ∨
              ∃ e, needed = found.map .ok ++ [.error e] ∧
                (m.replace subject template isGlobal).value = .error e)) := by
  obtain ⟨pattern, hpattern⟩ := exists_pattern_of_build hbuild
  obtain ⟨hbuilt, _⟩ := builtFrom_of_build hbuild hpattern
  constructor
  · rintro ⟨index, hindex, hlt⟩
    cases hcheck : t.check m.captureCount with
    | ok _ => exact absurd (Template.check_eq_ok.mp hcheck index hindex) (Nat.not_le_of_lt hlt)
    | error e =>
      obtain ⟨first, hfirst, hmissing, rfl⟩ := Template.exists_of_check_eq_error hcheck
      exact ⟨first, hfirst, hmissing, fun _ _ => replace_of_check_error ht hcheck⟩
  · intro hgroups subject
    have hcheck := Template.check_eq_ok.mpr hgroups
    have hcaptures : m.captureCount = pattern.captures := congrArg Program.captures hbuilt.program
    obtain ⟨found, items, hlists, hitems, hopens, hlength⟩ := hbuilt.exists_delivers subject
    have hfollow := hlists.follow hbuilt.normal (Nat.zero_le _) (fun o _ => Nat.zero_le o)
    refine ⟨items, ?_, hitems, ?_⟩
    · exact (hitems.collect_value #[] #[] _).trans (List.take_of_length_le (Nat.le_of_lt hlength))
    · rintro isGlobal _ rfl
      rw [replace_value ht hcheck hitems hlength, hcaptures]
      refine replaceItems_cases hfollow ?_
      cases isGlobal with
      | true => exact hopens
      | false => exact hopens.take 1

/-- An empty match right behind another one, and one at the end of the subject, neither of which
passes through the group. -/
theorem replace_empty_matches : ∃ m found, (build { stepLimit := some 20 } "(b)|c*").value = .ok m ∧
    (m.stream "ba".toUTF8).toList.value = found.map .ok ∧ found.length = 3 ∧
      Match.Follow 2 1 0 found ∧
      (Template.ofBytes "<$1>".toUTF8.data.toList).spliced? "ba".toUTF8 0 found =
        some "<b><>a<>".toUTF8 ∧
      (m.replace "ba".toUTF8 "<$1>".toUTF8 true).value = .ok "<b><>a<>".toUTF8 := by
  have hpattern : Pattern.ofText (Limits.pattern { stepLimit := some 20 }) "(b)|c*" = .ok {
      root := .alternate [.group (.byte 98) (some 1), .star (.byte 99) .greedy]
      captures := 1 } := rfl
  have hbuild := (build_value hpattern).trans (if_pos (by decide))
  obtain ⟨items, hitems, _, hreplace⟩ :=
    (replace_eq_spliced hbuild "<$1>".toUTF8 rfl).2 (Template.check_eq_ok.mp rfl) "ba".toUTF8
  obtain ⟨found, bytes, hfollow, hspliced, hcases⟩ := hreplace true items rfl
  have hfound :
      items = [(⟨⟨0, 1⟩, [some ⟨0, 1⟩]⟩ : Match), ⟨⟨1, 1⟩, [none]⟩, ⟨⟨2, 2⟩, [none]⟩].map .ok := by
    rw [← hitems]
    decide +kernel
  rcases hcases with ⟨hneeded, hvalue⟩ | ⟨e, hneeded, _⟩
  · obtain rfl := (List.map_inj_right (fun _ _ => Except.ok.inj)).mp (hneeded.symm.trans hfound)
    have hbytes : some bytes = some "<b><>a<>".toUTF8 := by
      rw [← hspliced]
      decide +kernel
    obtain rfl := Option.some.inj hbytes
    exact ⟨_, _, hbuild, hitems.trans hfound, rfl, hfollow, hspliced, hvalue⟩
  · have he : .error e ∈ items := hneeded ▸ List.mem_append_right _ List.mem_cons_self
    rw [hfound] at he
    obtain ⟨_, _, hm⟩ := List.mem_map.mp he
    cases hm

end Matcher

end ByteRegex
