import ByteRegex.Proofs.Search.StepLimit

/-!
# What a stream yields under a limit

A stream yields matches until there are no more of them, or until a call is stopped; then it is at
its end. So its items are the matches of the subject, or the first few of these and one error.
-/

namespace ByteRegex

/-- `items` are the matches in `found`, or the first few of these and an error. -/
def Match.Opens (found : List Match) (items : List (Except RegexError Match)) : Prop :=
  ∃ k, items = (found.take k).map .ok ∨ ∃ e, items = (found.take k).map .ok ++ [.error e]

namespace Match.Opens

variable {found : List Match} {items : List (Except RegexError Match)} {first : Match}

theorem all (found : List Match) : Opens found (found.map .ok) :=
  ⟨found.length, Or.inl (by rw [List.take_length])⟩

theorem error (found : List Match) (e : RegexError) : Opens found [.error e] :=
  ⟨0, Or.inr ⟨e, rfl⟩⟩

theorem cons (h : Opens found items) : Opens (first :: found) (.ok first :: items) := by
  obtain ⟨k, rfl | ⟨e, rfl⟩⟩ := h
  · exact ⟨k + 1, Or.inl rfl⟩
  · exact ⟨k + 1, Or.inr ⟨e, rfl⟩⟩

theorem take (h : Opens found items) (n : Nat) : Opens found (items.take n) := by
  obtain ⟨k, rfl | ⟨e, rfl⟩⟩ := h
  · exact ⟨min n k, Or.inl (by rw [← List.map_take, List.take_take])⟩
  · by_cases hn : n ≤ ((found.take k).map .ok : List (Except RegexError Match)).length
    · refine ⟨min n k, Or.inl ?_⟩
      rw [List.take_append_of_le_length hn, ← List.map_take, List.take_take]
    · refine ⟨k, Or.inr ⟨e, ?_⟩⟩
      rw [List.take_of_length_le]
      rw [List.length_append, List.length_singleton]
      omega

theorem mem (h : Opens found items) {m : Match} (hm : .ok m ∈ items) : m ∈ found := by
  have htake : ∀ {k}, Except.ok m ∈ ((found.take k).map .ok : List (Except RegexError Match)) →
      m ∈ found := by
    intro k hmem
    obtain ⟨m', hm', heq⟩ := List.mem_map.mp hmem
    exact Except.ok.inj heq ▸ List.mem_of_mem_take hm'
  obtain ⟨k, rfl | ⟨e, rfl⟩⟩ := h
  · exact htake hm
  · rcases List.mem_append.mp hm with hm | hm
    · exact htake hm
    · exact nomatch List.mem_singleton.mp hm

end Match.Opens

namespace MatchStream

/-- The stream yields `items`, one after the other, and nothing behind them. -/
def Delivers (stream : MatchStream) (items : List (Except RegexError Match)) : Prop :=
  ∀ n, stream.itemAt n = items[n]?

variable {pattern : Pattern} {stream : MatchStream} {found : List Match} {limit : Option Nat}
  {item : Except RegexError Match} {items : List (Except RegexError Match)}

theorem itemAt_succ (stream : MatchStream) (n : Nat) :
    stream.itemAt (n + 1) = stream.next.rest.itemAt n := by
  rw [itemAt, itemAt, after_succ]

theorem delivers_cons :
    stream.Delivers (item :: items) ↔
      stream.next.item = some item ∧ stream.next.rest.Delivers items := by
  constructor
  · exact fun h => ⟨h 0, fun n => (stream.itemAt_succ n).symm.trans (h (n + 1))⟩
  · rintro ⟨hfirst, hrest⟩ n
    cases n with
    | zero => exact hfirst
    | succ n => exact (stream.itemAt_succ n).trans (hrest n)

theorem delivers_nil_of_end (h : stream.nextStart = none) : stream.Delivers [] := by
  obtain ⟨hitem, hrest⟩ := next_of_end h
  intro n
  induction n with
  | zero => exact hitem
  | succ n ih => rw [itemAt_succ, hrest, ih, List.getElem?_nil, List.getElem?_nil]

/-- Behind an item that is not a match there is nothing more. -/
theorem delivers_nil_of_last (h : ∀ m, stream.next.item ≠ some (.ok m)) :
    stream.next.rest.Delivers [] := by
  refine delivers_nil_of_end ?_
  obtain ⟨m, subject, trail, nextStart⟩ := stream
  cases nextStart with
  | none => rfl
  | some start =>
    rw [next] at h ⊢
    dsimp only at h ⊢
    split at h
    · next found hanswer => exact absurd rfl (h found)
    · rfl
    · rfl

theorem delivers_nil (h : stream.next.item = none) : stream.Delivers [] := by
  have hrest := delivers_nil_of_last (fun m hm => nomatch h.symm.trans hm)
  intro n
  cases n with
  | zero => exact h
  | succ n => exact (stream.itemAt_succ n).trans (hrest n)

/-- A call under a limit yields and hands on the same as without, or it yields an error. -/
theorem Sound.next_withStepLimit (h : stream.Sound pattern) (limit : Option Nat) :
    ((stream.withStepLimit limit).next.item = stream.next.item ∧
      (stream.withStepLimit limit).next.rest = stream.next.rest.withStepLimit limit) ∨
    ∃ e, (stream.withStepLimit limit).next.item = some (.error e) := by
  cases limit with
  | none =>
    have hsame :
        ∀ {stream : MatchStream}, stream.Sound pattern → stream.withStepLimit none = stream := by
      intro stream h
      obtain ⟨⟨program, limits⟩, subject, trail, nextStart⟩ := stream
      have hunlimited : limits.stepLimit = none := h.unlimited
      rw [withStepLimit, Matcher.withStepLimit, ← hunlimited]
    rw [hsame h, hsame h.next.2.1]
    exact Or.inl ⟨rfl, rfl⟩
  | some limit =>
    rcases Nat.lt_or_ge limit stream.work with hbeyond | hwithin
    · exact Or.inr ⟨_, (h.next_beyond hbeyond).1⟩
    · exact Or.inl (h.next_within hwithin)

/-- Under any limit a stream yields the matches that it yields without, or the first few and an
error. -/
theorem Sound.exists_delivers (h : stream.Sound pattern)
    (hlists : pattern.Lists stream.subject stream.nextStart found) (limit : Option Nat) :
    ∃ items, (stream.withStepLimit limit).Delivers items ∧ Match.Opens found items := by
  induction found generalizing stream with
  | nil =>
    obtain ⟨hitem, _⟩ := h.next_lists hlists
    rcases h.next_withStepLimit limit with ⟨hsame, _⟩ | ⟨e, herror⟩
    · exact ⟨[], delivers_nil (hsame.trans hitem), .all []⟩
    · have hrest := delivers_nil_of_last (fun m hm => nomatch herror.symm.trans hm)
      exact ⟨[.error e], delivers_cons.mpr ⟨herror, hrest⟩, .error [] e⟩
  | cons first found ih =>
    obtain ⟨hitem, hrest⟩ := h.next_lists hlists
    rcases h.next_withStepLimit limit with ⟨hsame, hsame'⟩ | ⟨e, herror⟩
    · obtain ⟨items, hitems, hopens⟩ := ih h.next.2.1 hrest
      exact ⟨.ok first :: items,
        delivers_cons.mpr ⟨hsame.trans hitem, hsame' ▸ hitems⟩, hopens.cons⟩
    · have hrest := delivers_nil_of_last (fun m hm => nomatch herror.symm.trans hm)
      exact ⟨[.error e], delivers_cons.mpr ⟨herror, hrest⟩, .error _ e⟩

/-- What is collected in some calls are the first items. -/
theorem Delivers.collect_value (h : stream.Delivers items)
    (earlier : Array (Except RegexError Match)) (events : Array Event) (n : Nat) :
    (stream.collect earlier events n).value = earlier.toList ++ items.take n := by
  induction n generalizing stream items earlier events with
  | zero => rw [collect, List.take_zero, List.append_nil]
  | succ n ih =>
    rw [collect]
    cases items with
    | nil =>
      have hitem : stream.next.item = none := h 0
      generalize stream.next = step at hitem
      obtain ⟨item, moreEvents, rest⟩ := step
      obtain rfl : item = none := hitem
      rw [List.take_nil, List.append_nil]
    | cons item items =>
      obtain ⟨hitem, hrest⟩ := delivers_cons.mp h
      generalize stream.next = step at hitem hrest
      obtain ⟨item', moreEvents, rest⟩ := step
      obtain rfl : item' = some item := hitem
      rw [ih hrest, Array.toList_push, List.append_assoc, List.take_succ_cons,
        List.singleton_append]

end MatchStream

namespace Matcher

variable {m : Matcher} {pattern : Pattern}

/-- The items of a subject under the limit of the matcher. There are fewer of them than calls are
made. -/
theorem BuiltFrom.exists_delivers (h : m.BuiltFrom pattern) (subject : ByteArray) :
    ∃ found items, pattern.Lists subject (some 0) found ∧ (m.stream subject).Delivers items ∧
      Match.Opens found items ∧ items.length < (m.stream subject).callBound := by
  have hsound := MatchStream.sound_stream (h.withStepLimit none) rfl subject
  obtain ⟨found, hlists, hlength⟩ := Pattern.exists_lists h.normal subject 0
  obtain ⟨items, hitems, hopens⟩ := hsound.exists_delivers hlists m.limits.stepLimit
  refine ⟨found, items, hlists, hitems, hopens, ?_⟩
  show items.length < subject.size + 3
  obtain ⟨k, rfl | ⟨e, rfl⟩⟩ := hopens
  · rw [List.length_map, List.length_take]
    omega
  · rw [List.length_append, List.length_map, List.length_take, List.length_singleton]
    omega

end Matcher

end ByteRegex
