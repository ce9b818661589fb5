import ByteRegex.Proofs.Search.Textbook
import ByteRegex.Search.Stream

/-!
# The calls of a stream

A stream is asked for its next match again and again. Without step limit each call searches from
where the match before it lets the next one start, so the stream yields the matches that searching
the subject over and over finds, and nothing behind them.
-/

namespace ByteRegex

namespace Pattern

/-- `found` are the matches of the subject from the offset `start` on, each of them the leftmost one
behind the one before it. -/
inductive Lists (pattern : Pattern) (subject : ByteArray) :
    (start : Option Nat) → (found : List Match) → Prop where
  | nil {start} (h : start.bind (pattern.leftmost subject) = none) : Lists pattern subject start []
  | cons {start first rest} (h : start.bind (pattern.leftmost subject) = some first)
      (hrest : Lists pattern subject (first.nextStart? subject.size) rest) :
      Lists pattern subject start (first :: rest)

variable {pattern : Pattern} {subject : ByteArray}

theorem nextStart?_eq_some {found : Match} {length next : Nat} :
    found.nextStart? length = some next ↔
      next = max found.span.stop (found.span.start + 1) ∧ next ≤ length := by
  show (if max found.span.stop (found.span.start + 1) ≤ length then
    some (max found.span.stop (found.span.start + 1)) else none) = some next ↔ _
  split
  · next hle =>
    rw [Option.some.injEq, eq_comm]
    exact ⟨fun h => ⟨h, h ▸ hle⟩, And.left⟩
  · next hgt => exact ⟨nofun, fun h => absurd (h.1 ▸ h.2) hgt⟩

theorem lt_nextStart? {found : Match} {length next : Nat}
    (h : found.nextStart? length = some next) : found.span.start < next ∧ next ≤ length := by
  obtain ⟨rfl, hle⟩ := nextStart?_eq_some.mp h
  omega

/-- There are no more matches than offsets. -/
theorem exists_lists (hnormal : pattern.root.Normal) (subject : ByteArray) (start : Nat) :
    ∃ found, pattern.Lists subject (some start) found ∧
      found.length ≤ subject.size + 1 - start := by
  -- Each search starts behind the start of the match before it, so fewer offsets are left to it.
  induction hk : subject.size + 1 - start using Nat.strongRecOn generalizing start with
  | ind k ih =>
    cases hfound : pattern.leftmost subject start with
    | none => exact ⟨[], .nil hfound, Nat.zero_le _⟩
    | some first =>
      obtain ⟨⟨hle, hsize⟩, _⟩ := spans_of_leftmost hnormal hfound
      cases hnext : first.nextStart? subject.size with
      | none =>
        refine ⟨[first], .cons hfound (hnext ▸ .nil rfl), ?_⟩
        rw [List.length_singleton]
        omega
      | some next =>
        obtain ⟨hlt, hnextSize⟩ := lt_nextStart? hnext
        obtain ⟨rest, hrest, hlength⟩ := ih _ (by omega) next rfl
        refine ⟨first :: rest, .cons hfound (hnext ▸ hrest), ?_⟩
        rw [List.length_cons]
        omega

theorem Lists.head? {start : Option Nat} {found : List Match}
    (h : pattern.Lists subject start found) :
    start.bind (pattern.leftmost subject) = found[0]? := by
  cases h with
  | nil h => exact h
  | cons h _ => exact h

theorem Lists.succ {start : Option Nat} {found : List Match} (h : pattern.Lists subject start found)
    {i : Nat} {m : Match} (hm : found[i]? = some m) :
    (m.nextStart? subject.size).bind (pattern.leftmost subject) = found[i + 1]? := by
  induction h generalizing i with
  | nil h => cases hm
  | @cons start first rest _ hrest ih =>
    cases i with
    | zero =>
      obtain rfl := Option.some.inj hm
      exact hrest.head?
    | succ i => exact ih hm

theorem Lists.leftmost_of_mem {start : Option Nat} {found : List Match}
    (h : pattern.Lists subject start found) {m : Match} (hm : m ∈ found) :
    ∃ lo, pattern.leftmost subject lo = some m := by
  induction h with
  | nil _ => exact absurd hm List.not_mem_nil
  | cons hfirst _ ih =>
    rcases List.mem_cons.mp hm with rfl | hm
    · obtain ⟨lo, _, hlo⟩ := Option.bind_eq_some_iff.mp hfirst
      exact ⟨lo, hlo⟩
    · exact ih hm

end Pattern

namespace MatchStream

def after (stream : MatchStream) : (n : Nat) → MatchStream
  | 0 => stream
  | n + 1 => (stream.after n).next.rest

/-- What a call of `next` yields that comes after `n` others. -/
def itemAt (stream : MatchStream) (n : Nat) : Option (Except RegexError Match) :=
  (stream.after n).next.item

/-- The search that the next call of `next` makes, unless the stream is at its end. -/
def search? (stream : MatchStream) : Option Search :=
  stream.nextStart.map (stream.matcher.search stream.subject stream.trail)

/-- The number of instructions that the next call of `next` executes. -/
def work (stream : MatchStream) : Nat :=
  (stream.search?.map Search.steps).getD 0

variable {stream : MatchStream} {trail : Trail} {n limit : Nat} {found : Option Match}

theorem next_of_end (h : stream.nextStart = none) :
    stream.next.item = none ∧ stream.next.rest = stream := by
  obtain ⟨_, _, _, _⟩ := stream
  obtain rfl : _ = none := h
  exact ⟨rfl, rfl⟩

theorem next_of_search (h : stream.search? = some ⟨.ofMatch found, trail, n⟩) :
    stream.next.item = found.map .ok ∧
      stream.next.rest = ⟨stream.matcher, stream.subject, trail,
        found.bind (·.nextStart? stream.subject.size)⟩ := by
  obtain ⟨m, subject, trail, nextStart⟩ := stream
  obtain ⟨start, rfl, hsearch⟩ := Option.map_eq_some_iff.mp h
  have hsearch : m.search subject trail start = ⟨.ofMatch found, _, n⟩ := hsearch
  have hanswer : m.answer (m.search subject trail start) = .ok found := by
    rw [hsearch, Matcher.answer_ofMatch]
  simp only [next, hanswer]
  rw [hsearch]
  cases found <;> exact ⟨rfl, rfl⟩

theorem next_of_stopped (h : stream.search? = some ⟨.stopped, trail, n⟩)
    (hlimit : stream.matcher.limits.stepLimit = some limit) :
    stream.next.item = some (.error (.stepLimit limit)) ∧ stream.next.rest.nextStart = none := by
  obtain ⟨m, subject, trail, nextStart⟩ := stream
  obtain ⟨start, rfl, hsearch⟩ := Option.map_eq_some_iff.mp h
  have hsearch : m.search subject trail start = ⟨.stopped, _, n⟩ := hsearch
  have hanswer : m.answer (m.search subject trail start) = .error (.stepLimit limit) := by
    have hlimit : m.limits.stepLimit = some limit := hlimit
    rw [hsearch, Matcher.answer, hlimit]
  simp only [next, hanswer, and_self]

theorem after_succ (stream : MatchStream) (n : Nat) :
    stream.after (n + 1) = stream.next.rest.after n := by
  induction n with
  | zero => rfl
  | succ n ih =>
    rw [after, ih]
    rfl

/-- The stream searches with a matcher that has been built, and what it remembers is right. -/
structure Sound (pattern : Pattern) (stream : MatchStream) : Prop where
  built : stream.matcher.BuiltFrom pattern
  unlimited : stream.matcher.limits.stepLimit = none
  trail : stream.trail.Sound (stream.matcher.task stream.subject)

variable {pattern : Pattern}

theorem sound_stream {m : Matcher} (h : m.BuiltFrom pattern) (hlimit : m.limits.stepLimit = none)
    (subject : ByteArray) : (m.stream subject).Sound pattern :=
  ⟨h, hlimit, Trail.sound_initial (m.task subject)⟩

theorem Sound.search? (h : stream.Sound pattern) {start : Nat}
    (hstart : stream.nextStart = some start) :
    ∃ n trail, Search.Takes (stream.matcher.task stream.subject) start stream.trail n
        (.ofMatch (pattern.leftmost stream.subject start)) trail ∧
      trail.Sound (stream.matcher.task stream.subject) ∧
      stream.search? = some ⟨.ofMatch (pattern.leftmost stream.subject start), trail, n⟩ := by
  obtain ⟨n, trail, htakes, htrail, hn⟩ := h.built.exists_takes h.trail start
  refine ⟨n, trail, htakes, htrail, ?_⟩
  rw [MatchStream.search?, hstart, Option.map_some, h.built.search_eq h.unlimited htakes hn]

theorem Sound.not_stopped (h : stream.Sound pattern) {search : Search}
    (hsearch : stream.search? = some search) : search.result ≠ .stopped := by
  obtain ⟨start, hstart, _⟩ := Option.map_eq_some_iff.mp hsearch
  obtain ⟨n, trail, _, _, hfound⟩ := h.search? hstart
  obtain rfl := Option.some.inj (hsearch.symm.trans hfound)
  exact SearchEnd.ofMatch_ne_stopped _

theorem Sound.next (h : stream.Sound pattern) :
    stream.next.item = (stream.nextStart.bind (pattern.leftmost stream.subject)).map .ok ∧
      stream.next.rest.Sound pattern ∧ stream.next.rest.subject = stream.subject ∧
      stream.next.rest.nextStart = (stream.nextStart.bind (pattern.leftmost stream.subject)).bind
        (·.nextStart? stream.subject.size) := by
  cases hstart : stream.nextStart with
  | none =>
    obtain ⟨hitem, hrest⟩ := next_of_end hstart
    rw [hitem, hrest]
    exact ⟨rfl, h, rfl, hstart⟩
  | some start =>
    obtain ⟨n, trail, _, htrail, hsearch⟩ := h.search? hstart
    obtain ⟨hitem, hrest⟩ := next_of_search hsearch
    rw [hitem, hrest]
    exact ⟨rfl, ⟨h.built, h.unlimited, htrail⟩, rfl, rfl⟩

theorem Sound.after (h : stream.Sound pattern) (n : Nat) : (stream.after n).Sound pattern := by
  induction n with
  | zero => exact h
  | succ n ih => exact ih.next.2.1

theorem Sound.next_lists (h : stream.Sound pattern) {found : List Match}
    (hlists : pattern.Lists stream.subject stream.nextStart found) :
    stream.next.item = found[0]?.map .ok ∧
      pattern.Lists stream.next.rest.subject stream.next.rest.nextStart found.tail := by
  obtain ⟨hitem, _, hsubject, hnextStart⟩ := h.next
  rw [hitem, hsubject, hnextStart, hlists.head?]
  cases hlists with
  | nil _ => exact ⟨rfl, .nil rfl⟩
  | cons _ hrest => exact ⟨rfl, hrest⟩

/-- The stream yields the matches from its next start on, and nothing behind them. -/
theorem Sound.itemAt (h : stream.Sound pattern) {found : List Match}
    (hlists : pattern.Lists stream.subject stream.nextStart found) (n : Nat) :
    stream.itemAt n = found[n]?.map .ok := by
  obtain ⟨hitem, hrest⟩ := h.next_lists hlists
  induction n generalizing stream found with
  | zero => exact hitem
  | succ n ih =>
    have hsound := h.next.2.1
    obtain ⟨hitem', hrest'⟩ := hsound.next_lists hrest
    rw [MatchStream.itemAt, after_succ, ← List.getElem?_tail]
    exact ih hsound hrest hitem' hrest'

end MatchStream

namespace Matcher

/-- Without step limit the stream of a subject yields its matches, at most one for each offset. -/
theorem BuiltFrom.exists_matches {m : Matcher} {pattern : Pattern} (h : m.BuiltFrom pattern)
    (hlimit : m.limits.stepLimit = none) (subject : ByteArray) :
    ∃ found : List Match, pattern.Lists subject (some 0) found ∧ found.length ≤ subject.size + 1 ∧
      ∀ n, (m.stream subject).itemAt n = found[n]?.map .ok := by
  obtain ⟨found, hlists, hlength⟩ := Pattern.exists_lists h.normal subject 0
  exact ⟨found, hlists, hlength, (MatchStream.sound_stream h hlimit subject).itemAt hlists⟩

end Matcher

end ByteRegex
