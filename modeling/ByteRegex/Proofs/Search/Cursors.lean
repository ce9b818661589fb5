import ByteRegex.Proofs.Search.StepLimit
import ByteRegex.Search.Cursor

/-!
# Cursors move over the matches of a stream

Each search by a cursor starts anew at the match that the cursor holds and remembers nothing of
earlier searches, while a stream goes on with one machine. Both come to the same matches: whatever
is done with a cursor, it moves over the list that the stream yields, and a search that is stopped
leaves it where it is.
-/

namespace ByteRegex

inductive CursorAction where
  /-- Searches for the next match, or only for the first one. -/
  | search (isGlobal : Bool)
  /-- Puts the cursor back in front of the first match. -/
  | reset
  /-- Sets the step limit of the matcher. -/
  | limit (limit : Option Nat)
deriving DecidableEq

/-- An action, what a search answered if it was one, and the cursor after it. -/
structure CursorEntry where
  action : CursorAction
  answer : Option (Except RegexError Bool)
  cursor : SearchCursor
deriving DecidableEq

def SearchCursor.holding : Option Match → SearchCursor
  | some found => { current := some found, exhausted := false }
  | none => .atEnd

/-- Whether a search by the cursor has nothing to search for. -/
def SearchCursor.rests (cursor : SearchCursor) (isGlobal : Bool) : Bool :=
  cursor.exhausted || (!isGlobal && cursor.current.isSome)

namespace Matcher

def advanceWork (m : Matcher) (subject : ByteArray) (cursor : SearchCursor) (isGlobal : Bool) :
    Nat :=
  if cursor.rests isGlobal then 0 else (cursor.nextStart? subject.size).elim 0 (m.workAt subject)

/-- What happens when actions are carried out one after the other on one cursor. -/
def log (subject : ByteArray) : (m : Matcher) → (cursor : SearchCursor) → List CursorAction →
    List CursorEntry
  | _, _, [] => []
  | m, cursor, .search isGlobal :: actions =>
    let step := m.advance subject cursor isGlobal
    ⟨.search isGlobal, some step.found, step.cursor⟩ :: log subject m step.cursor actions
  | m, cursor, .reset :: actions =>
    ⟨.reset, none, cursor.reset⟩ :: log subject m cursor.reset actions
  | m, cursor, .limit limit :: actions =>
    ⟨.limit limit, none, cursor⟩ :: log subject (m.withStepLimit limit) cursor actions

end Matcher

/-! ## Positions in a list of matches -/

inductive Position (n : Nat) where
  | before
  | on (i : Fin n)
  | exhausted
deriving DecidableEq

namespace Position

variable {n : Nat}

/-- The position on the match with the index `k`, behind them all if there is none. -/
def nth (k : Nat) : Position n :=
  if h : k < n then .on ⟨k, h⟩ else .exhausted

/-- Where a search moves to. One that is not global does not go on from a match. -/
def search (isGlobal : Bool) : Position n → Position n
  | before => nth 0
  | on i => if isGlobal then nth (i + 1) else on i
  | exhausted => exhausted

def finds (isGlobal : Bool) (p : Position n) : Bool :=
  match p.search isGlobal with
  | on i => decide (p ≠ on i)
  | before | exhausted => false

def cursor (found : List Match) : Position found.length → SearchCursor
  | before => .initial
  | on i => { current := some found[i], exhausted := false }
  | exhausted => .atEnd

/-- The log of a cursor that moves over `found`, from the position `p` on and with the given step
limit. A search takes the instructions that `work` tells for the cursor. -/
inductive Logs (found : List Match) (work : SearchCursor → Bool → Nat) :
    (limit : Option Nat) → (p : Position found.length) → List CursorEntry → Prop where
  | nil (limit p) : Logs found work limit p []
  | search {limit p isGlobal rest}
      (hwork : ∀ n, limit = some n → work (p.cursor found) isGlobal ≤ n)
      (hrest : Logs found work limit (p.search isGlobal) rest) :
      Logs found work limit p
        (⟨.search isGlobal, some (.ok (p.finds isGlobal)),
          (p.search isGlobal).cursor found⟩ :: rest)
  | stopped {n p isGlobal rest} (hwork : n < work (p.cursor found) isGlobal)
      (hrest : Logs found work (some n) p rest) :
      Logs found work (some n) p
        (⟨.search isGlobal, some (.error (.stepLimit n)), p.cursor found⟩ :: rest)
  | reset {limit p rest} (hrest : Logs found work limit .before rest) :
      Logs found work limit p (⟨.reset, none, .initial⟩ :: rest)
  | limit {limit p limit' rest} (hrest : Logs found work limit' p rest) :
      Logs found work limit p (⟨.limit limit', none, p.cursor found⟩ :: rest)

theorem cursor_nth (found : List Match) (k : Nat) :
    (nth k : Position found.length).cursor found = .holding found[k]? := by
  by_cases hk : k < found.length
  · rw [nth, dif_pos hk, List.getElem?_eq_getElem hk]
    rfl
  · rw [nth, dif_neg hk, List.getElem?_eq_none (Nat.le_of_not_lt hk)]
    rfl

end Position

/-! ## One search -/

namespace Matcher

variable {m : Matcher} {pattern : Pattern} {subject : ByteArray} {cursor : SearchCursor}
  {isGlobal : Bool} {limit : Nat}

theorem advance_of_rests (h : cursor.rests isGlobal = true) :
    (m.advance subject cursor isGlobal).found = .ok false ∧
      (m.advance subject cursor isGlobal).cursor = cursor := by
  have hrests : (cursor.exhausted || (!isGlobal && cursor.current.isSome)) = true := h
  rw [advance, if_pos hrests]
  exact ⟨rfl, rfl⟩

theorem advance_of_answer (h : cursor.rests isGlobal = false) {start : Nat}
    (hstart : cursor.nextStart? subject.size = some start) {answer : Option Match}
    (hanswer : (m.findAt subject start).value = .ok answer) :
    (m.advance subject cursor isGlobal).found = .ok answer.isSome ∧
      (m.advance subject cursor isGlobal).cursor = .holding answer := by
  have hrests : (cursor.exhausted || (!isGlobal && cursor.current.isSome)) = false := h
  rw [advance, hrests, hstart]
  simp only [Bool.false_eq_true, if_false, hanswer]
  cases answer <;> exact ⟨rfl, rfl⟩

theorem advance_of_error (h : cursor.rests isGlobal = false) {start : Nat}
    (hstart : cursor.nextStart? subject.size = some start) {e : RegexError}
    (herror : (m.findAt subject start).value = .error e) :
    (m.advance subject cursor isGlobal).found = .error e ∧
      (m.advance subject cursor isGlobal).cursor = cursor := by
  have hrests : (cursor.exhausted || (!isGlobal && cursor.current.isSome)) = false := h
  rw [advance, hrests, hstart]
  simp only [Bool.false_eq_true, if_false, herror, and_self]

theorem advance_of_end (h : cursor.rests isGlobal = false)
    (hend : cursor.nextStart? subject.size = none) :
    (m.advance subject cursor isGlobal).found = .ok false ∧
      (m.advance subject cursor isGlobal).cursor = .atEnd := by
  have hrests : (cursor.exhausted || (!isGlobal && cursor.current.isSome)) = false := h
  rw [advance, hrests, hend]
  exact ⟨rfl, rfl⟩

/-- A search that has found something leaves the cursor on it. -/
theorem exists_of_advance (h : (m.advance subject cursor isGlobal).found = .ok true) :
    ∃ start found, (m.findAt subject start).value = .ok (some found) ∧
      (m.advance subject cursor isGlobal).cursor.current = some found := by
  cases hrests : cursor.rests isGlobal with
  | true => exact nomatch (advance_of_rests hrests).1.symm.trans h
  | false =>
    cases hstart : cursor.nextStart? subject.size with
    | none => exact nomatch (advance_of_end hrests hstart).1.symm.trans h
    | some start =>
      cases hvalue : (m.findAt subject start).value with
      | error e => exact nomatch (advance_of_error hrests hstart hvalue).1.symm.trans h
      | ok answer =>
        obtain ⟨hfound, hcursor⟩ := advance_of_answer hrests hstart hvalue
        cases answer with
        | none => exact nomatch hfound.symm.trans h
        | some found => exact ⟨start, found, hvalue, congrArg SearchCursor.current hcursor⟩

/-- A search that no limit stops finds the leftmost match behind the one that the cursor holds. -/
theorem BuiltFrom.advance_within (h : m.BuiltFrom pattern) (hrests : cursor.rests isGlobal = false)
    (hwork : ∀ n, m.limits.stepLimit = some n →
      (m.withStepLimit none).advanceWork subject cursor isGlobal ≤ n) :
    ∃ answer, (cursor.nextStart? subject.size).bind (pattern.leftmost subject) = answer ∧
      (m.advance subject cursor isGlobal).found = .ok answer.isSome ∧
      (m.advance subject cursor isGlobal).cursor = .holding answer := by
  cases hstart : cursor.nextStart? subject.size with
  | none => exact ⟨none, rfl, advance_of_end hrests hstart⟩
  | some start =>
    refine ⟨_, rfl, advance_of_answer hrests hstart ?_⟩
    rw [advanceWork, hrests, hstart] at hwork
    cases hlimit : m.limits.stepLimit with
    | none => exact h.findAt_eq hlimit subject start
    | some n =>
      have hlimited : (m.withStepLimit none).withStepLimit (some n) = m := by
        rw [← hlimit]
        rfl
      have hfound := (h.withStepLimit none).findAt_within rfl (hwork n hlimit)
      rwa [hlimited] at hfound

theorem BuiltFrom.advance_beyond (h : m.BuiltFrom pattern)
    (hlimit : m.limits.stepLimit = some limit)
    (hwork : limit < (m.withStepLimit none).advanceWork subject cursor isGlobal) :
    (m.advance subject cursor isGlobal).found = .error (.stepLimit limit) ∧
      (m.advance subject cursor isGlobal).cursor = cursor := by
  have hlimited : (m.withStepLimit none).withStepLimit (some limit) = m := by
    rw [← hlimit]
    rfl
  cases hrests : cursor.rests isGlobal with
  | true =>
    rw [advanceWork, hrests, if_pos rfl] at hwork
    exact absurd hwork (Nat.not_lt_zero limit)
  | false =>
    cases hstart : cursor.nextStart? subject.size with
    | none =>
      rw [advanceWork, hrests, hstart] at hwork
      exact absurd hwork (Nat.not_lt_zero limit)
    | some start =>
      rw [advanceWork, hrests, hstart] at hwork
      have herror := (h.withStepLimit none).findAt_beyond rfl hwork
      rw [hlimited] at herror
      exact advance_of_error hrests hstart herror

end Matcher

/-! ## Many actions -/

namespace Position

variable {pattern : Pattern} {subject : ByteArray} {found : List Match}

theorem search_of_rests {p : Position found.length} {isGlobal : Bool}
    (h : (p.cursor found).rests isGlobal = true) : p.search isGlobal = p := by
  cases p with
  | before => cases isGlobal <;> cases h
  | on i =>
    cases isGlobal with
    | true => cases h
    | false => rfl
  | exhausted => rfl

/-- A search moves to the leftmost match behind the one that the cursor holds. -/
theorem cursor_search (hlists : pattern.Lists subject (some 0) found) {p : Position found.length}
    {isGlobal : Bool} (h : (p.cursor found).rests isGlobal = false) :
    ∃ k, p.search isGlobal = nth k ∧ p ≠ nth k ∧
      ((p.cursor found).nextStart? subject.size).bind (pattern.leftmost subject) = found[k]? := by
  cases p with
  | before =>
    refine ⟨0, rfl, ?_, hlists.head?⟩
    rw [nth]
    split <;> nofun
  | on i =>
    cases isGlobal with
    | false => cases h
    | true =>
      refine ⟨i + 1, rfl, ?_, hlists.succ (List.getElem?_eq_getElem i.isLt)⟩
      rw [nth]
      split
      · intro heq
        have := congrArg Fin.val (Position.on.inj heq)
        simp only at this
        omega
      · nofun
  | exhausted => cases h

theorem finds_of_search {p q : Position found.length} {isGlobal : Bool} (h : p.search isGlobal = q)
    (hmoves : p ≠ q) : p.finds isGlobal = (q.cursor found).current.isSome := by
  rw [finds, h]
  cases q with
  | before => rfl
  | on i => exact decide_eq_true hmoves
  | exhausted => rfl

theorem finds_of_stay {p : Position found.length} {isGlobal : Bool} (h : p.search isGlobal = p) :
    p.finds isGlobal = false := by
  rw [finds, h]
  cases p with
  | before => rfl
  | on i => exact decide_eq_false (fun hmoves => hmoves rfl)
  | exhausted => rfl

end Position

namespace Matcher

variable {limits : Limits} {text : String} {m : Matcher} {pattern : Pattern} {subject : ByteArray}
  {found : List Match}

/-- A search by the cursor at a position does what the position says. -/
theorem BuiltFrom.advance_position (h : m.BuiltFrom pattern)
    (hlists : pattern.Lists subject (some 0) found) (p : Position found.length) (isGlobal : Bool)
    (hwork : ∀ n, m.limits.stepLimit = some n →
      (m.withStepLimit none).advanceWork subject (p.cursor found) isGlobal ≤ n) :
    (m.advance subject (p.cursor found) isGlobal).found = .ok (p.finds isGlobal) ∧
      (m.advance subject (p.cursor found) isGlobal).cursor = (p.search isGlobal).cursor found := by
  cases hrests : (p.cursor found).rests isGlobal with
  | true =>
    have hstay := Position.search_of_rests hrests
    rw [Position.finds_of_stay hstay, hstay]
    exact advance_of_rests hrests
  | false =>
    obtain ⟨k, hsearch, hmoves, hnext⟩ := Position.cursor_search hlists hrests
    obtain ⟨answer, hanswer, hfound, hcursor⟩ := h.advance_within hrests hwork
    obtain rfl : answer = found[k]? := hanswer.symm.trans hnext
    rw [Position.finds_of_search hsearch hmoves, hsearch, Position.cursor_nth, hfound, hcursor]
    cases found[k]? <;> exact ⟨rfl, rfl⟩

theorem limit_cases (limit : Option Nat) (work : Nat) :
    (∀ n, limit = some n → work ≤ n) ∨ ∃ n, limit = some n ∧ n < work := by
  cases limit with
  | none => exact Or.inl nofun
  | some n =>
    rcases Nat.lt_or_ge n work with hlt | hle
    · exact Or.inr ⟨n, rfl, hlt⟩
    · exact Or.inl (fun k hk => Option.some.inj hk ▸ hle)

/-- The log of any actions is that of the position. -/
theorem BuiltFrom.logs_log (h : m.BuiltFrom pattern) (hlists : pattern.Lists subject (some 0) found)
    (actions : List CursorAction) (limit : Option Nat) (p : Position found.length) :
    Position.Logs found ((m.withStepLimit none).advanceWork subject) limit p
      (log subject (m.withStepLimit limit) (p.cursor found) actions) := by
  induction actions generalizing limit p with
  | nil => exact .nil limit p
  | cons action actions ih =>
    cases action with
    | search isGlobal =>
      -- Either the search comes to its end and moves the position, or it is stopped and nothing
      -- changes.
      rw [log]
      rcases limit_cases limit
        ((m.withStepLimit none).advanceWork subject (p.cursor found) isGlobal)
        with hwork | ⟨n, rfl, hbeyond⟩
      · obtain ⟨hfound, hcursor⟩ :=
          (h.withStepLimit limit).advance_position hlists p isGlobal hwork
        rw [hfound, hcursor]
        exact .search hwork (ih limit _)
      · obtain ⟨hfound, hcursor⟩ := (h.withStepLimit (some n)).advance_beyond rfl hbeyond
        rw [hfound, hcursor]
        exact .stopped hbeyond (ih (some n) p)
    | reset => exact .reset (ih limit .before)
    | limit limit' => exact .limit (ih limit' p)

/-- Whatever is done with a cursor, it moves over the matches that the stream of the subject yields
without step limit: a search moves it and tells whether it has come onto a match, unless the limit
stops the search, which then leaves the cursor where it is. -/
theorem log_over_matches (hbuild : (build limits text).value = .ok m) (subject : ByteArray) :
    ∃ found : List Match,
      (∀ n, ((m.withStepLimit none).stream subject).itemAt n = found[n]?.map .ok) ∧
      ∀ actions, Position.Logs found ((m.withStepLimit none).advanceWork subject) limits.stepLimit
        .before (log subject m .initial actions) := by
  obtain ⟨pattern, hpattern⟩ := exists_pattern_of_build hbuild
  obtain ⟨hbuilt, rfl⟩ := builtFrom_of_build hbuild hpattern
  obtain ⟨found, hlists, _, hitems⟩ := (hbuilt.withStepLimit none).exists_matches rfl subject
  exact ⟨found, hitems, fun actions => hbuilt.logs_log hlists actions m.limits.stepLimit .before⟩

/-- A search is stopped, tried again under a higher limit, and followed by others up to the end. -/
theorem log_stopped_and_retried :
    ∃ m found, (build { stepLimit := some 5 } "a|b").value = .ok m ∧
      Position.Logs found ((m.withStepLimit none).advanceWork "ab".toUTF8) (some 5) .before
        [⟨.search true, some (.error (.stepLimit 5)), .initial⟩,
          ⟨.limit (some 6), none, .initial⟩,
          ⟨.search true, some (.ok true), .holding (some ⟨⟨0, 1⟩, []⟩)⟩,
          ⟨.search false, some (.ok false), .holding (some ⟨⟨0, 1⟩, []⟩)⟩,
          ⟨.search true, some (.ok true), .holding (some ⟨⟨1, 2⟩, []⟩)⟩,
          ⟨.search true, some (.ok false), .atEnd⟩,
          ⟨.search true, some (.ok false), .atEnd⟩,
          ⟨.reset, none, .initial⟩,
          ⟨.search false, some (.ok true), .holding (some ⟨⟨0, 1⟩, []⟩)⟩] := by
  have hpattern : Pattern.ofText (Limits.pattern { stepLimit := some 5 }) "a|b" = .ok {
      root := .alternate [.byte 97, .byte 98]
      captures := 0 } := rfl
  have hbuild := (build_value hpattern).trans (if_pos (by decide))
  obtain ⟨found, _, hlogs⟩ := log_over_matches hbuild "ab".toUTF8
  refine ⟨_, found, hbuild, ?_⟩
  have hlog := hlogs [.search true, .limit (some 6), .search true, .search false, .search true,
    .search true, .search true, .reset, .search false]
  refine Eq.subst (motive := Position.Logs found _ (some 5) .before) ?_ hlog
  decide +kernel

end Matcher

end ByteRegex
