import ByteRegex.Proofs.Exec.Reach
import ByteRegex.Proofs.Match.Outcomes

/-!
# Code matches what its expression matches

Suppose each way to leave a piece of code is known to come to a certain result. Then entering the
code comes to the first of these results, where the ways to leave it are the outcomes of its
expression, in their order. Stated like this, for every result that the rest of the program may
have, the claim needs no mention of stacks, and the code of an expression is put together from that
of its parts.
-/

namespace ByteRegex

def Finds (t : Task) (c : Spot) (slots : Slots) (result : Option Slots) : Prop :=
  ∃ n, Explores t c slots result n

namespace Finds

variable {t : Task} {c d a b : Spot} {slots : Slots} {r : Option Slots}

theorem go (h : c.turn t = .go d) (hd : Finds t d slots r) : Finds t c slots r := by
  obtain ⟨n, hn⟩ := hd
  exact ⟨n + 1, .go h hn⟩

theorem fail (h : c.turn t = .fail) : Finds t c slots none := ⟨1, .fail h⟩

theorem choose (h : c.turn t = .choose a b) {ra rb : Option Slots} (ha : Finds t a slots ra)
    (hb : Finds t b slots rb) : Finds t c slots (ra.or rb) := by
  obtain ⟨m, hm⟩ := ha
  obtain ⟨n, hn⟩ := hb
  cases ra with
  | none => exact ⟨m + n + 1, .second h hm hn⟩
  | some r => exact ⟨m + 1, .first h hm⟩

theorem greed {greed : Greed} (h : c.turn t = greed.choose a b) {res : Nat × Slots → Option Slots}
    {more less : List (Nat × Slots)} (ha : Finds t a slots (more.findSome? res))
    (hb : Finds t b slots (less.findSome? res)) :
    Finds t c slots ((greed.order more less).findSome? res) := by
  cases greed
  · rw [Greed.order, List.findSome?_append]
    exact choose h ha hb
  · rw [Greed.order, List.findSome?_append]
    exact choose h hb ha

end Finds

theorem findSome?_flatMap {α β γ : Type} (f : α → List β) (g : β → Option γ) (l : List α) :
    (l.flatMap f).findSome? g = l.findSome? fun a => (f a).findSome? g := by
  induction l with
  | nil => rfl
  | cons a l ih =>
    rw [List.flatMap_cons, List.findSome?_append, ih, List.findSome?_cons]
    cases (f a).findSome? g <;> rfl

/-- Between the addresses `a` and `b` the program matches what `f` says. -/
def Realises (t : Task) (a b : Nat) (f : Matching) : Prop :=
  ∀ (c : Spot) (slots : Slots) (res : Nat × Slots → Option Slots), c.address = a →
    c.pos ≤ t.subject.size → (∀ o ∈ f c.pos slots, Finds t (c.reach b o.1) o.2 (res o)) →
      Finds t c slots ((f c.pos slots).findSome? res)

/-- Between the addresses `a` and `b` the program has a round of a loop that matches what `f` says.
A round that reads nothing leaves the loop, one address further on. -/
def RealisesRound (t : Task) (a b : Nat) (f : Matching) : Prop :=
  ∀ (c : Spot) (slots : Slots) (res : Nat × Slots → Option Slots), c.address = a →
    c.pos ≤ t.subject.size →
    (∀ o ∈ f c.pos slots, Finds t (c.reach (if c.pos < o.1 then b else b + 1) o.1) o.2 (res o)) →
      Finds t c slots ((f c.pos slots).findSome? res)

namespace Realises

variable {t : Task} {a b m : Nat} {f g : Matching}

theorem empty : Realises t a a .empty := by
  intro c slots res hc _ hexit
  subst hc
  have h := hexit (c.pos, slots) List.mem_cons_self
  rw [Spot.reach_self] at h
  rwa [Matching.empty, List.findSome?_singleton]

theorem andThen {reads reads' : Bool} (hf : Realises t a m f) (hg : Realises t m b g)
    (hbound : f.Bounded t.subject.size reads) (hgbound : g.Bounded t.subject.size reads') :
    Realises t a b (f.andThen g) := by
  intro c slots res hc hpos hexit
  rw [Matching.andThen, findSome?_flatMap]
  refine hf c slots _ hc hpos (fun o ho => ?_)
  have ho' := hbound c.pos slots hpos o ho
  refine hg (c.reach m o.1) o.2 res rfl ho'.2.1 (fun o' hmem => ?_)
  have hle := (hgbound o.1 o.2 ho'.2.1 o' hmem).1
  rw [Spot.reach_reach ho'.1 hle]
  exact hexit o' (Matching.mem_andThen.mpr ⟨o, ho, hmem⟩)

theorem read {accepts : UInt8 → Bool} (h : ∀ c : Spot, c.address = a →
    c.turn t = c.read t.subject accepts) : Realises t a (a + 1) (.read t.subject accepts) := by
  intro c slots res hc _ hexit
  have hturn := h c hc
  subst hc
  by_cases hpos : c.pos < t.subject.size
  · by_cases haccepts : accepts t.subject[c.pos] = true
    · simp only [Spot.read, Matching.read, hpos, haccepts, dif_pos, if_true, List.mem_singleton,
        forall_eq, List.findSome?_singleton] at hturn hexit ⊢
      rw [Spot.reach_of_lt (Nat.lt_succ_self _)] at hexit
      exact .go hturn hexit
    · simp only [Spot.read, Matching.read, hpos, haccepts, dif_pos, Bool.false_eq_true, if_false,
        List.findSome?_nil] at hturn ⊢
      exact .fail hturn
  · simp only [Spot.read, Matching.read, hpos, dif_neg, not_false_eq_true, List.findSome?_nil]
      at hturn ⊢
    exact .fail hturn

theorem require {condition : Nat → Bool} (h : ∀ c : Spot, c.address = a →
    c.turn t = c.require (condition c.pos)) : Realises t a (a + 1) (.require condition) := by
  intro c slots res hc _ hexit
  have hturn := h c hc
  subst hc
  by_cases hcondition : condition c.pos = true
  · simp only [Spot.require, Matching.require, hcondition, if_true, List.mem_singleton, forall_eq,
      List.findSome?_singleton] at hturn hexit ⊢
    rw [Spot.reach_self] at hexit
    exact .go hturn hexit
  · simp only [Spot.require, Matching.require, hcondition, Bool.false_eq_true, if_false,
      List.findSome?_nil] at hturn ⊢
    exact .fail hturn

theorem record {slot : Nat} (h : ∀ c : Spot, c.address = a →
    c.turn t = .save slot (c.goto (c.address + 1))) : Realises t a (a + 1) (.record slot) := by
  intro c slots res hc _ hexit
  have hturn := h c hc
  subst hc
  obtain ⟨n, hn⟩ := hexit _ List.mem_cons_self
  rw [Spot.reach_self] at hn
  rw [Matching.record, List.findSome?_singleton]
  exact ⟨n + 1, .save hturn hn⟩

/-! ## Loops -/

theorem round_unwatched (hf : Realises t a b f) (hbound : f.Bounded t.subject.size true) :
    RealisesRound t a b f := by
  intro c slots res hc hpos hexit
  refine hf c slots res hc hpos (fun o ho => ?_)
  have h := hexit o ho
  rwa [if_pos ((hbound c.pos slots hpos o ho).2.2 rfl)] at h

theorem round_watched {reads : Bool} {loop : Nat} (hf : Realises t (a + 1) b f)
    (hbound : f.Bounded t.subject.size reads)
    (hstart : t.program.instrs[a]? = some (.roundStart loop))
    (hend : t.program.instrs[b]? = some (.roundEnd loop (b + 2))) :
    RealisesRound t a (b + 1) f := by
  intro c slots res hc hpos hexit
  subst hc
  refine .go (Spot.turn_eq hstart) (hf ⟨c.address + 1, c.pos, c.idle + 1⟩ slots res rfl hpos ?_)
  intro o ho
  have hle := (hbound c.pos slots hpos o ho).1
  exact .go ((Spot.turn_eq hend).trans (Spot.obey_roundEnd_reach _ hle _ _ _)) (hexit o ho)

theorem plus {reads : Bool} {greed : Greed} {id : Nat} (hf : RealisesRound t a b f)
    (hbound : f.Bounded t.subject.size reads)
    (hsplit : t.program.instrs[b]? = some (greed.splitInstr id a (b + 1))) :
    Realises t a (b + 1) (.plus t.subject.size greed f) := by
  intro c slots res hc hpos hexit
  -- Induction on what is left of the subject, which each round but the last makes shorter.
  induction hn : t.subject.size - c.pos using Nat.strongRecOn generalizing c slots with
  | ind n ih =>
    rw [Matching.plus, findSome?_flatMap]
    refine hf c slots _ hc hpos (fun o ho => ?_)
    have ho' := hbound c.pos slots hpos o ho
    by_cases hlt : c.pos < o.1
    · have hexit' : ∀ o' ∈ greed.order (Matching.plus t.subject.size greed f o.1 o.2) [o],
          Finds t (c.reach (b + 1) o'.1) o'.2 (res o') := by
        intro o' hmem
        refine hexit o' (Matching.mem_plus.mpr ⟨o, ho, ?_⟩)
        rcases Greed.mem_order.mp hmem with hmem | hmem
        · exact Or.inl ⟨hlt, ho'.2.1, hmem⟩
        · exact Or.inr (List.mem_singleton.mp hmem)
      have hmore : c.pos < o.1 ∧ o.1 ≤ t.subject.size := ⟨hlt, ho'.2.1⟩
      rw [if_pos hlt, if_pos hmore]
      refine .greed ((Spot.turn_eq hsplit).trans (Spot.obey_splitInstr ..)) ?_ ?_
      · refine ih (t.subject.size - o.1) (by omega) _ _ rfl ho'.2.1 (fun o' hmem => ?_) rfl
        have hle := (hbound.plus greed o.1 o.2 ho'.2.1 o' hmem).1
        rw [Spot.goto_reach, Spot.reach_reach ho'.1 hle]
        exact hexit' o' (Greed.mem_order.mpr (Or.inl hmem))
      · rw [List.findSome?_singleton]
        exact hexit' o (Greed.mem_order.mpr (Or.inr (List.mem_singleton.mpr rfl)))
    · have heq : o ∈ Matching.plus t.subject.size greed f c.pos slots :=
        Matching.mem_plus.mpr ⟨o, ho, Or.inr rfl⟩
      have hmore : ¬(c.pos < o.1 ∧ o.1 ≤ t.subject.size) := fun h => hlt h.1
      rw [if_neg hlt, if_neg hmore, List.findSome?_singleton]
      exact hexit o heq

theorem star {reads : Bool} {greed : Greed} {id : Nat} (hf : RealisesRound t (a + 1) b f)
    (hbound : f.Bounded t.subject.size reads)
    (hsplit : t.program.instrs[a]? = some (greed.splitInstr id (a + 1) (b + 1)))
    (hjump : t.program.instrs[b]? = some (.jump a)) :
    Realises t a (b + 1) (.star t.subject.size greed f) := by
  intro c slots res hc hpos hexit
  -- The star starts again behind a round, so the induction is on the star and not on the plus in
  -- it.
  induction hn : t.subject.size - c.pos using Nat.strongRecOn generalizing c slots with
  | ind n ih =>
    subst hc
    refine .greed ((Spot.turn_eq hsplit).trans (Spot.obey_splitInstr ..)) ?_ ?_
    · rw [Matching.plus, findSome?_flatMap]
      refine hf (c.goto (c.address + 1)) slots _ rfl hpos (fun o ho => ?_)
      show Finds t (c.reach (if c.pos < o.1 then b else b + 1) o.1) o.2 _
      have ho' := hbound c.pos slots hpos o ho
      by_cases hlt : c.pos < o.1
      · have hmore : c.pos < o.1 ∧ o.1 ≤ t.subject.size := ⟨hlt, ho'.2.1⟩
        rw [if_pos hlt, if_pos hmore]
        have hturn := Spot.turn_eq (c := c.reach b o.1) hjump
        refine .go hturn ?_
        refine ih (t.subject.size - o.1) (by omega) _ _ rfl ho'.2.1 (fun o' hmem => ?_) rfl
        have hle := ((hbound.plus greed).optional greed o.1 o.2 ho'.2.1 o' hmem).1
        rw [Spot.goto_reach, Spot.reach_reach ho'.1 hle]
        refine hexit o' (Matching.mem_optional.mpr (Or.inl (Matching.mem_plus.mpr ⟨o, ho, ?_⟩)))
        rcases Matching.mem_optional.mp hmem with hmem | hmem
        · exact Or.inl ⟨hlt, ho'.2.1, hmem⟩
        · exact Or.inr hmem
      · have hmore : ¬(c.pos < o.1 ∧ o.1 ≤ t.subject.size) := fun h => hlt h.1
        rw [if_neg hlt, if_neg hmore, List.findSome?_singleton]
        exact hexit o
          (Matching.mem_optional.mpr (Or.inl (Matching.mem_plus.mpr ⟨o, ho, Or.inr rfl⟩)))
    · have h := hexit (c.pos, slots) (Matching.mem_optional.mpr (Or.inr rfl))
      rw [Spot.reach_self] at h
      rwa [List.findSome?_singleton]

/-! ## Choices -/

theorem either {id : Nat} (hf : Realises t (a + 1) m f) (hg : Realises t (m + 1) b g)
    (hsplit : t.program.instrs[a]? = some (.split id (a + 1) (m + 1)))
    (hjump : t.program.instrs[m]? = some (.jump b)) : Realises t a b (f.orElse g) := by
  intro c slots res hc hpos hexit
  subst hc
  rw [Matching.orElse, List.findSome?_append]
  refine .choose (Spot.turn_eq hsplit) ?_ ?_
  · refine hf (c.goto (c.address + 1)) slots res rfl hpos (fun o ho => ?_)
    have hturn := Spot.turn_eq (c := c.reach m o.1) hjump
    exact .go hturn (hexit o (List.mem_append_left _ ho))
  · exact hg (c.goto (m + 1)) slots res rfl hpos (fun o ho => hexit o (List.mem_append_right _ ho))

theorem optional {greed : Greed} {id : Nat} (hf : Realises t (a + 1) b f)
    (hsplit : t.program.instrs[a]? = some (greed.splitInstr id (a + 1) b)) :
    Realises t a b (.optional greed f) := by
  intro c slots res hc hpos hexit
  subst hc
  refine .greed ((Spot.turn_eq hsplit).trans (Spot.obey_splitInstr ..)) ?_ ?_
  · exact hf (c.goto (c.address + 1)) slots res rfl hpos
      (fun o ho => hexit o (Matching.mem_optional.mpr (Or.inl ho)))
  · have h := hexit (c.pos, slots) (Matching.mem_optional.mpr (Or.inr rfl))
    rw [Spot.reach_self] at h
    rwa [List.findSome?_singleton]

end Realises

namespace Core

variable {t : Task} {q : Place} {scope : Option Nat}

theorem realises_atom {a : Atom} (h : t.program.instrs[q.address]? = some a.instr) :
    Realises t q.address (q.address + 1) (a.outcomes t.subject) := by
  have hturn : ∀ c : Spot, c.address = q.address → c.turn t = c.obey t.subject a.instr :=
    fun c hc => Spot.turn_eq (hc ▸ h)
  cases a with
  | byte b =>
    show Realises t q.address _ (.read t.subject (· == b))
    exact .read hturn
  | any =>
    show Realises t q.address _ (.read t.subject (fun _ => true))
    exact .read hturn
  | oneOf s => exact .read hturn
  | textStart => exact .require hturn
  | textEnd => exact .require hturn
  | save slot => exact .record hturn

theorem realises_round {watched : Bool} {c : Core} (hc : c.RoundAt watched t.program q scope)
    (hreads : watched = false → c.nullable = false)
    (ih : ∀ {q scope}, c.LoadedAt t.program q scope →
      Realises t q.address (c.after q).address (c.outcomes t.subject)) :
    RealisesRound t q.address (q.offset (.ofRound watched c.extent)).address
      (c.outcomes t.subject) := by
  have hbound := bounded_outcomes t.subject c
  cases watched with
  | false =>
    rw [hreads rfl] at hbound
    exact Realises.round_unwatched (ih hc) hbound
  | true =>
    obtain ⟨⟨hstart, _⟩, hbody, hend⟩ := roundAt_watched.mp hc
    rw [offset_ofRound]
    exact Realises.round_watched (ih hbody) hbound hstart hend

/-- The code of a core expression matches what the expression matches. -/
theorem realises_code (c : Core) (hwatchful : c.Watchful) (hc : c.LoadedAt t.program q scope) :
    Realises t q.address (c.after q).address (c.outcomes t.subject) := by
  induction c generalizing q scope with
  | nothing => exact .empty
  | atom a => exact realises_atom (loadedAt_atom.mp hc)
  | seq a b iha ihb =>
    obtain ⟨ha, hb⟩ := loadedAt_seq.mp hc
    rw [after_seq]
    exact .andThen (iha hwatchful.1 ha) (ihb hwatchful.2 hb) (bounded_outcomes _ a)
      (bounded_outcomes _ b)
  | either a b iha ihb =>
    obtain ⟨⟨hsplit, _⟩, ha, hjump, hb⟩ := loadedAt_either.mp hc
    rw [after_either]
    exact .either (iha hwatchful.1 ha) (ihb hwatchful.2 hb) hsplit hjump
  | optional a greed ih =>
    obtain ⟨⟨hsplit, _⟩, ha⟩ := loadedAt_optional.mp hc
    rw [after_optional]
    exact .optional (ih hwatchful ha) hsplit
  | star watched a greed ih =>
    obtain ⟨⟨hsplit, _⟩, hround, hjump⟩ := loadedAt_star.mp hc
    rw [after_star]
    exact .star (realises_round hround hwatchful.2 (ih hwatchful.1))
      (bounded_outcomes _ a) hsplit hjump
  | plus watched a greed ih =>
    obtain ⟨hround, hsplit, _⟩ := loadedAt_plus.mp hc
    rw [after_plus]
    exact .plus (realises_round hround hwatchful.2 (ih hwatchful.1)) (bounded_outcomes _ a) hsplit

end Core

end ByteRegex
