import ByteRegex.Proofs.Match.Enclosure
import ByteRegex.Proofs.Match.Spans

/-!
# What groups capture

A group records where its part starts and where it stops. As long as no group has another one of the
same index in it, nothing else writes to its slots in between. So what the slots hold are two ends
of one match of the part, in whichever round and by whichever path the group was passed through
last.
-/

namespace ByteRegex

namespace Expr

open Matching (Fills Keeps Respects)

variable {d e : Expr} {index : Nat}

theorem keeps_start (subject : ByteArray) (h : index ∉ d.indices) :
    Keeps (2 * index) (d.outcomes subject) := by
  refine keeps_outcomes subject (fun index' hindex' => ?_)
  have hne : index' ≠ index := fun heq => h (heq ▸ hindex')
  omega

/-- Matching an expression fills the slots of a group with spans of the part of the group. -/
theorem fills_outcomes (subject : ByteArray) (hnormal : e.Normal) (hnodup : e.indices.Nodup)
    (hd : group d (some index) ∈ e.parts) :
    Respects (Fills index fun _ _ span =>
      span.start ≤ subject.size → d.Spans subject span.start span.stop) (e.outcomes subject) := by
  refine respects_outcomes subject (Matching.steps_fills (fun _ _ h => h) index)
    (fun d' index' hd' hbody => ?_)
  by_cases hindex : index' = index
  · subst hindex
    -- The only group that writes to the slots is the one of `d`, and nothing inside of `d` does.
    obtain rfl := group_unique hnodup hd hd'
    intro pos slots o ho
    obtain ⟨o', ho', rfl⟩ := Matching.mem_captured ho
    obtain ⟨hsize, hstart⟩ := keeps_start subject (not_mem_indices_of_group hnodup hd) _ _ o' ho'
    rw [Array.size_setIfInBounds] at hsize
    refine ⟨(hbody _ _ o' ho').le, Array.size_setIfInBounds.trans hsize,
      fun (hslots : _ < slots.size) => Or.inr ⟨⟨pos, o'.1⟩, ⟨?_, ?_⟩, fun hpos => ?_⟩⟩
    · rw [Array.getElem?_setIfInBounds_ne (by omega), hstart,
        Array.getElem?_setIfInBounds_self_of_lt (by omega)]
    · rw [Array.getElem?_setIfInBounds_self_of_lt (by omega)]
    · have hnormal' : (group d (some index')).Normal := hnormal.of_mem_parts hd
      have hrelates := (hnormal'.of_mem_children List.mem_cons_self).relates subject
      exact (hrelates pos _ o'.1 hpos).mp ⟨o'.2, ho'⟩
  · exact Matching.fills_captured_of_ne hindex hbody

end Expr

/-- The spans of a match are what the pattern says: the whole match is one of the whole expression,
and what a group captures is a match of the part of the only group that has this index. -/
structure Match.SoundFor (pattern : Pattern) (subject : ByteArray) (found : Match) : Prop where
  fits : found.FitsIn 0 subject.size pattern.captures
  whole : pattern.root.Spans subject found.span.start found.span.stop
  groups : ∀ index span, found.group? (index + 1) = some span →
    ∃ e, (∀ e', Expr.group e' (some (index + 1)) ∈ pattern.root.parts ↔ e' = e) ∧
      e.Spans subject span.start span.stop

namespace Pattern

variable {pattern : Pattern} {subject : ByteArray} {start index : Nat} {found : Match}

theorem exists_group (hindices : pattern.root.indices = List.range' 1 pattern.captures)
    (hindex : index < pattern.captures) :
    ∃ e, ∀ e', Expr.group e' (some (index + 1)) ∈ pattern.root.parts ↔ e' = e := by
  have hmem : index + 1 ∈ pattern.root.indices := by
    rw [hindices, List.mem_range'_1]
    omega
  have hnodup : pattern.root.indices.Nodup := hindices ▸ List.nodup_range'
  obtain ⟨e, he⟩ := Expr.mem_indices.mp hmem
  exact ⟨e, fun e' => ⟨fun he' => Expr.group_unique hnodup he' he, fun heq => heq ▸ he⟩⟩

theorem soundFor_of_matchAt (hnormal : pattern.root.Normal)
    (hindices : pattern.root.indices = List.range' 1 pattern.captures)
    (hstart : start ≤ subject.size) (h : pattern.matchAt subject start = some found) :
    found.SoundFor pattern subject := by
  have hfits := fitsIn_of_matchAt hnormal hstart h
  obtain ⟨_, hwhole⟩ := spans_of_matchAt hnormal hstart h
  refine ⟨hfits.mono (Nat.zero_le start), hwhole, fun index span hspan => ?_⟩
  have hindex : index < pattern.captures := by
    rw [← hfits.groups_length]
    refine Nat.lt_of_not_le fun hle => ?_
    have hnone : found.group? (index + 1) = (none : Option (Option Span)).join :=
      congrArg Option.join (List.getElem?_eq_none hle)
    exact nomatch hnone.symm.trans hspan
  obtain ⟨e, he⟩ := exists_group hindices hindex
  have hnodup : pattern.root.indices.Nodup := hindices ▸ List.nodup_range'
  have hbody := Expr.fills_outcomes subject hnormal hnodup ((he e).mpr rfl)
  have hfills :=
    filled_of_group? h hspan (Matching.fills_captured_of_ne (Nat.succ_ne_zero index).symm hbody)
  obtain ⟨_, hforward, hbefore⟩ := hfits.groups (index + 1) span hspan
  have hinside := hfits.inside
  exact ⟨e, he, hfills (by omega)⟩

end Pattern

end ByteRegex
