import ByteRegex.Exec.Run
import ByteRegex.Proofs.Exec.Memory

/-!
# The machine explores

Started at a spot, the machine comes to what exploring the spot comes to, whatever is on its stack
and whatever a sound memory holds. If it skips a marked spot, then one that has been given up on: a
spot that is still open lies on the path to where the machine is, and no path comes back to where it
was.
-/

namespace ByteRegex

/-- After `n` instructions from the state `s` the outcome is `o`. -/
inductive Leads (t : Task) : (s : State) → (n : Nat) → (o : Outcome) → Prop where
  | one (s : State) : Leads t s 1 (s.step t)
  | more {s s' n o} (h : s.step t = .running s') (hn : Leads t s' n o) : Leads t s (n + 1) o

namespace Leads

variable {t : Task}

theorem of_step {s : State} {o : Outcome} (h : s.step t = o) : Leads t s 1 o := h ▸ one s

theorem append {s s' : State} {m n : Nat} {o o' : Outcome} (h : Leads t s m o)
    (ho : o = .running s') (h' : Leads t s' n o') : Leads t s (m + n) o' := by
  induction h with
  | one s =>
    rw [Nat.add_comm]
    exact .more ho h'
  | @more _ _ m _ hstep _ ih =>
    rw [Nat.add_right_comm]
    exact .more hstep (ih ho)

end Leads

/-- The machine has come from `s` to `u`, where the subject matches. Besides what was open before,
the memory may hold spots that led to the match. -/
structure Accepts (t : Task) (s u : State) (Open : Spot → Prop) : Prop where
  maxPos : s.maxPos ≤ u.maxPos
  loops : u.roundStarts.size = t.program.loopCount
  memo : u.memo.Sound t fun k => Open k ∨ s.pos ≤ k.pos ∧ k.pos ≤ u.maxPos

/-- The machine has come from `s` to `u` and has taken back what it did. -/
structure State.Retracts (s u : State) : Prop where
  slots : u.slots = s.slots
  roundStarts : u.roundStarts = s.roundStarts
  maxPos : s.maxPos ≤ u.maxPos

theorem State.Retracts.refl (s : State) : s.Retracts s :=
  ⟨rfl, rfl, Nat.le_refl _⟩

theorem State.Retracts.trans {s u v : State} (h : s.Retracts u) (h' : u.Retracts v) :
    s.Retracts v :=
  ⟨h'.slots.trans h.slots, h'.roundStarts.trans h.roundStarts, Nat.le_trans h.maxPos h'.maxPos⟩

/-- Where something has been done and taken back after a move, the stack goes on as if there had
been no move. -/
theorem State.Moves.exists_retracts {t : Task} {s s' u : State} {d : Spot} (hmoves : Moves t s s' d)
    (hu : s'.Retracts u) :
    ∃ v, s.Retracts v ∧ v.memo = u.memo ∧ u.backtrackTo s'.stack = v.backtrackTo s.stack :=
  ⟨{ u with slots := s.slots, roundStarts := s.roundStarts },
    ⟨rfl, rfl, Nat.le_trans hmoves.maxPos hu.maxPos⟩, rfl, hmoves.undoes u hu.slots hu.roundStarts⟩

/-- The machine has come from `s` to `u` without a match and has taken back what it did. -/
structure GivesUp (t : Task) (s u : State) (Open : Spot → Prop) : Prop extends s.Retracts u where
  memo : u.memo.Sound t Open

/-- What the machine comes to from the state `s`, in at most `n` instructions: a match, or whatever
the stack of `s` tells to do. -/
inductive Completes (t : Task) (s : State) (Open : Spot → Prop) :
    (result : Option Slots) → (n : Nat) → Prop where
  | accepts {u : State} {m n : Nat} (hleads : Leads t s m (.accepted u)) (hmn : m ≤ n)
      (h : Accepts t s u Open) : Completes t s Open (some u.slots) n
  | givesUp {u : State} {m n : Nat} (hleads : Leads t s m (u.backtrackTo s.stack)) (hmn : m ≤ n)
      (h : GivesUp t s u Open) : Completes t s Open none n

section Exploration

variable {t : Task} {s s' : State} {Open : Spot → Prop} {result : Option Slots} {n : Nat}

theorem Memo.Sound.mono {memo : Memo} {Open' : Spot → Prop} (h : memo.Sound t Open)
    (hopen : ∀ k, Open k → k.Dead t ∨ Open' k) : memo.Sound t Open' := by
  intro k hk
  rcases h k hk with hdead | hk
  · exact Or.inl hdead
  · exact hopen k hk

/-- An instruction in front that the stack takes back. -/
theorem Completes.of_move (h : Completes t s' Open result n) (hstep : s.step t = .running s')
    {d : Spot} (hmoves : State.Moves t s s' d) : Completes t s Open result (n + 1) := by
  cases h with
  | accepts hleads hmn h =>
    refine .accepts (.more hstep hleads) (Nat.succ_le_succ hmn) ⟨?_, h.loops, h.memo.mono ?_⟩
    · exact Nat.le_trans hmoves.maxPos h.maxPos
    · rintro k (hk | ⟨hle, hle'⟩)
      · exact Or.inr (Or.inl hk)
      · exact Or.inr (Or.inr ⟨Nat.le_trans hmoves.pos hle, hle'⟩)
  | @givesUp u m _ hleads hmn h =>
    obtain ⟨v, hv, hmemo, hback⟩ := hmoves.exists_retracts h.toRetracts
    rw [hback] at hleads
    exact .givesUp (.more hstep hleads) (Nat.succ_le_succ hmn) ⟨hv, hmemo ▸ h.memo⟩

/-- Where a spot is open, so are the spots that come after it. -/
theorem not_reached {c d : Spot}
    (hopen : ∀ k, Open k → ¬Relation.ReflTransGen (Spot.Precedes t) c k)
    (hcd : Spot.Precedes t c d) : ∀ k, Open k → ¬Relation.ReflTransGen (Spot.Precedes t) d k :=
  fun k hk h => hopen k hk (.head hcd h)

/-- A spot that is being explored is not reached from the spots behind it. -/
theorem not_reached_again {c d : Spot} (hends : ∃ m, c.EndsIn t m) (hcd : Spot.Precedes t c d)
    (hopen : ∀ k, Open k → ¬Relation.ReflTransGen (Spot.Precedes t) c k) :
    ∀ k, Open k ∨ k = c → ¬Relation.ReflTransGen (Spot.Precedes t) d k := by
  rintro k (hk | rfl) h
  · exact not_reached hopen hcd k hk h
  · obtain ⟨m, hm⟩ := hends
    exact hm.not_transGen (.head' hcd h)

/-- At a marked spot the machine gives up, as exploring the spot would do. -/
theorem completes_of_marked {c : Spot} (h : Explores t c s.slots result n)
    (hmemo : s.memo.Sound t Open)
    (hopen : ∀ k, Open k → ¬Relation.ReflTransGen (Spot.Precedes t) c k)
    (hmarked : s.memo.Marks t.program c) (hstep : s.step t = s.backtrack) :
    Completes t s Open result n := by
  have hdead : c.Dead t := (hmemo c hmarked).resolve_right (fun hc => hopen c hc .refl)
  obtain ⟨m, hm⟩ := hdead s.slots
  obtain ⟨rfl, rfl⟩ := h.unique hm
  have hpos : 1 ≤ n := by
    cases h <;> omega
  exact .givesUp (.of_step hstep) hpos ⟨.refl s, hmemo⟩

/-- At a split the machine tries the side `a` and keeps the address `y` of the side `b` for
later. -/
structure Tries (t : Task) (s s' : State) (a b : Spot) (y : Nat) : Prop where
  orderly : s'.Orderly t
  spot : s'.spot t = a
  retracts : s.Retracts s'
  pos : s'.pos = s.pos
  stack : s'.stack = .retry y s.pos :: s.stack
  other : b = (s.spot t).goto y
  scope : t.program.scopeAt y = t.program.scopeAt s.address

/-- Whatever the memory is then, a split that is not skipped has its first side tried. -/
theorem tries_of_choose (hs : s.Orderly t) {x y : Nat}
    (hx : t.program.scopeAt x = t.program.scopeAt s.address)
    (hy : t.program.scopeAt y = t.program.scopeAt s.address) (memo : Memo) :
    ∃ s', ({ s with memo := memo } : State).choose x y = .running s' ∧
      Tries t s s' ((s.spot t).goto x) ((s.spot t).goto y) y ∧ s'.memo = memo := by
  obtain ⟨horderly, hspot⟩ := hs.resume (u := { s with memo := memo }) rfl (Nat.le_refl _) hx
    (.retry y s.pos :: s.stack)
  exact ⟨_, rfl, ⟨horderly, hspot, ⟨rfl, rfl, Nat.le_refl _⟩, rfl, rfl, rfl, hy⟩, rfl⟩

/-- When the first side has failed, the machine tries the second one in a state like the one
before. -/
theorem Tries.retry {a b : Spot} {y : Nat} (htries : Tries t s s' a b y) (hs : s.Orderly t)
    {u : State} (hu : s'.Retracts u) :
    ({ u with address := y, pos := s.pos, stack := s.stack } : State).Orderly t ∧
      ({ u with address := y, pos := s.pos, stack := s.stack } : State).spot t = b := by
  have hall := htries.retracts.trans hu
  rw [htries.other]
  exact hs.resume hall.roundStarts hall.maxPos htries.scope s.stack

/-- At a split the machine gives up if the spot is marked. If it is not, then the first side is
tried, with the spot open. -/
theorem step_of_choice (hp : t.program.Coherent) (hs : s.Orderly t) (hmemo : s.memo.Sound t Open)
    {a b : Spot} (hturn : (s.spot t).turn t = .choose a b) :
    (s.memo.Marks t.program (s.spot t) ∧ s.step t = s.backtrack) ∨
    ∃ s' y, s.step t = .running s' ∧ Tries t s s' a b y ∧
      s'.memo.Sound t fun k => Open k ∨ k = s.spot t := by
  obtain ⟨id, x, y, hinstr, rfl, rfl, hstep⟩ := State.step_of_choose hp.fits hs hturn
  obtain ⟨_, hx, hy⟩ := hp.fits _ _ hinstr
  rcases State.split_cases hinstr hp with ⟨hmarked, hsplit⟩ | ⟨memo, hmarks, hsplit⟩
  · exact Or.inl ⟨hmarked, hstep.trans hsplit⟩
  · obtain ⟨s', hchoose, htries, rfl⟩ := tries_of_choose hs hx hy memo
    refine Or.inr ⟨s', y, hstep.trans (hsplit.trans hchoose), htries, fun k hk => ?_⟩
    rcases hmarks k hk with hk | hk
    · exact (hmemo k hk).imp_right Or.inl
    · exact Or.inr (Or.inr hk)

/-- What the machine comes to from one side of a split it comes to from the split. If that is
nothing, then the split is a dead end. -/
theorem Completes.of_choice {m m' : Nat}
    (h : Completes t s' (fun k => Open k ∨ k = s.spot t) result n)
    (hleads : Leads t s m' (.running s')) (hm : m' ≤ m) (hs : s.Orderly t) (hpos : s'.pos = s.pos)
    (hretracts : s.Retracts s') (hnone : result = none → (s.spot t).Dead t ∧ s'.stack = s.stack) :
    Completes t s Open result (m + n) := by
  cases h with
  | @accepts u l _ hleads' hl h =>
    have hle := Nat.le_trans hretracts.maxPos h.maxPos
    refine .accepts (hleads.append rfl hleads') (by omega) ⟨hle, h.loops, h.memo.mono ?_⟩
    rintro k ((hk | rfl) | ⟨hfirst, hlast⟩)
    · exact Or.inr (Or.inl hk)
    · exact Or.inr (Or.inr ⟨Nat.le_refl _, Nat.le_trans hs.maxPos hle⟩)
    · exact Or.inr (Or.inr ⟨hpos ▸ hfirst, hlast⟩)
  | @givesUp u l _ hleads' hl h =>
    obtain ⟨hdead, hstack⟩ := hnone rfl
    rw [hstack] at hleads'
    refine .givesUp (hleads.append rfl hleads') (by omega)
      ⟨hretracts.trans h.toRetracts, h.memo.mono ?_⟩
    rintro k (hk | rfl)
    · exact Or.inr hk
    · exact Or.inl hdead

/-- The machine comes to what exploring the spot that it is at comes to, in no more steps. -/
theorem completes_of_explores (hp : t.program.Coherent) {c : Spot} {slots : Slots}
    (h : Explores t c slots result n) (hs : s.Orderly t) (hspot : s.spot t = c)
    (hslots : s.slots = slots) (hends : ∃ m, c.EndsIn t m) (hmemo : s.memo.Sound t Open)
    (hopen : ∀ k, Open k → ¬Relation.ReflTransGen (Spot.Precedes t) c k) :
    Completes t s Open result n := by
  -- Induction on the exploration. At a split the spot becomes open for what comes behind it; that
  -- no path comes back to an open spot carries over, since paths end.
  induction h generalizing s Open with
  | accept hturn =>
    subst hspot hslots
    have hstep := State.step_of_accept hp.fits hs hturn
    exact .accepts (.of_step hstep) (Nat.le_refl _)
      ⟨Nat.le_refl _, hs.loops, hmemo.mono (fun k hk => Or.inr (Or.inl hk))⟩
  | fail hturn =>
    subst hspot hslots
    have hstep := State.step_of_fail hp.fits hs hturn
    exact .givesUp (.of_step hstep) (Nat.le_refl _) ⟨.refl s, hmemo⟩
  | @go c d slots result n hturn _ ih =>
    subst hspot hslots
    obtain ⟨s', hstep, hmoves, hslots⟩ := State.step_of_go hp.fits hs hturn
    have hnext : Spot.Precedes t (s.spot t) d := Spot.precedes_of_turn hturn List.mem_cons_self
    refine (ih hmoves.orderly hmoves.spot hslots ?_ ?_
      (not_reached hopen hnext)).of_move hstep hmoves
    · exact Spot.exists_endsIn_next hends hnext
    · rwa [hmoves.memo]
  | @save c d slot slots result n hturn _ ih =>
    subst hspot hslots
    obtain ⟨s', hstep, hmoves, hslots⟩ := State.step_of_save hp.fits hs hturn
    have hnext : Spot.Precedes t (s.spot t) d := Spot.precedes_of_turn hturn List.mem_cons_self
    refine (ih hmoves.orderly hmoves.spot hslots ?_ ?_
      (not_reached hopen hnext)).of_move hstep hmoves
    · exact Spot.exists_endsIn_next hends hnext
    · rwa [hmoves.memo]
  | @first c a b slots result n hturn ha ih =>
    subst hspot hslots
    rcases step_of_choice hp hs hmemo hturn with ⟨hmarked, hstep⟩ | ⟨s', y, hstep, htries, hmemo'⟩
    · exact completes_of_marked (.first hturn ha) hmemo hopen hmarked hstep
    · have hnext : Spot.Precedes t (s.spot t) a := Spot.precedes_of_turn hturn List.mem_cons_self
      have hfirst := ih htries.orderly htries.spot htries.retracts.slots
        (Spot.exists_endsIn_next hends hnext) hmemo' (not_reached_again hends hnext hopen)
      rw [Nat.add_comm]
      exact hfirst.of_choice (.of_step hstep) (Nat.le_refl _) hs htries.pos htries.retracts nofun
  | @second c a b slots result m n hturn ha hb iha ihb =>
    subst hspot hslots
    rcases step_of_choice hp hs hmemo hturn with ⟨hmarked, hstep⟩ | ⟨s', y, hstep, htries, hmemo'⟩
    · exact completes_of_marked (.second hturn ha hb) hmemo hopen hmarked hstep
    · have hnext : Spot.Precedes t (s.spot t) a := Spot.precedes_of_turn hturn List.mem_cons_self
      have hnext' : Spot.Precedes t (s.spot t) b :=
        Spot.precedes_of_turn hturn (List.mem_cons_of_mem a List.mem_cons_self)
      have hfirst := iha htries.orderly htries.spot htries.retracts.slots
        (Spot.exists_endsIn_next hends hnext) hmemo' (not_reached_again hends hnext hopen)
      cases hfirst with
      | @givesUp u l _ hleads hl hu =>
        -- The stack of the first side begins with the second one.
        rw [htries.stack] at hleads
        obtain ⟨horderly, hspot⟩ := htries.retry hs hu.toRetracts
        have hall := htries.retracts.trans hu.toRetracts
        have hsecond := ihb horderly hspot hall.slots (Spot.exists_endsIn_next hends hnext') hu.memo
          (not_reached_again hends hnext' hopen)
        have hleads' : Leads t s (l + 1)
            (.running { u with address := y, pos := s.pos, stack := s.stack }) := .more hstep hleads
        rw [show m + n + 1 = (m + 1) + n by omega]
        refine hsecond.of_choice hleads' (by omega) hs rfl
          ⟨hall.slots, hall.roundStarts, hall.maxPos⟩ (fun hnone => ?_)
        subst hnone
        exact ⟨Spot.dead_of_explores (.second hturn ha hb), rfl⟩

end Exploration

end ByteRegex
