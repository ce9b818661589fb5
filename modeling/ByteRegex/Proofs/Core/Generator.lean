import ByteRegex.Proofs.Core.Moving

/-!
# What the generators make

Every generator makes the code of the core expression, or it reports the size limit because that
code does not end within it. A generator that makes no code at all does not look at the limit, so
the converse holds only for a whole program, which ends with an instruction: `Program.ofPattern_eq`.
-/

namespace ByteRegex

/-- The result is `x`, or the size limit is reported and `x` ends beyond it, at the address
`stop`. -/
def Gives {α : Type} (limit : Nat) (r : Except ProgramTooLarge α) (x : α) (stop : Nat) : Prop :=
  r = .ok x ∨ (r = .error ⟨limit⟩ ∧ limit < stop)

namespace Gives

theorem ok {α : Type} {limit : Nat} (x : α) (stop : Nat) : Gives limit (.ok x) x stop := Or.inl rfl

theorem within (limit : Nat) (b : Block) : Gives limit (b.within limit) b b.stop.address := by
  rcases Nat.lt_or_ge limit b.stop.address with h | h
  · exact Or.inr ⟨if_neg (Nat.not_le.mpr h), h⟩
  · exact Or.inl (if_pos h)

theorem bind {α β : Type} {limit m n : Nat} {r : Except ProgramTooLarge α} {x : α}
    {f : α → Except ProgramTooLarge β} {y : β} (hr : Gives limit r x m) (hf : Gives limit (f x) y n)
    (hmn : m ≤ n) : Gives limit (r >>= f) y n := by
  rcases hr with rfl | ⟨rfl, hm⟩
  · exact hf
  · exact Or.inr ⟨rfl, Nat.lt_of_lt_of_le hm hmn⟩

theorem eq_of_ok {α : Type} {limit stop : Nat} {r : Except ProgramTooLarge α} {x y : α}
    (h : Gives limit r x stop) (hr : r = .ok y) : y = x := by
  rcases h with h | ⟨h, _⟩
  · exact Except.ok.inj (hr.symm.trans h)
  · cases hr.symm.trans h

end Gives

theorem Block.eq_of_within {limit : Nat} {b b' : Block} (h : b.within limit = .ok b') : b' = b :=
  (Gives.within limit b).eq_of_ok h

namespace Generator

/-- The generator makes the code of `c` at every place that is not inside a loop of a later
number. -/
def Makes (limit : Nat) (g : Generator) (c : Core) : Prop :=
  ∀ p scope, (∀ l ∈ scope, l < p.loops) →
    Gives limit (g p scope) (c.code p scope) (c.after p).address

variable {limit : Nat} {g : Generator} {c : Core}

theorem gives_single (p : Place) (scope : Option Nat) (instr : Instr) :
    Gives limit (single limit instr p scope) (.single p instr) p.next.address :=
  Gives.within limit (.single p instr)

theorem makes_atom (a : Atom) : Makes limit (single limit a.instr) (.atom a) :=
  fun p scope _ => gives_single p scope a.instr

theorem scope_lt_offset {scope : Option Nat} {p : Place} (d : Place)
    (h : ∀ l ∈ scope, l < p.loops) : ∀ l ∈ scope, l < (p.offset d).loops :=
  fun l hl => Nat.lt_of_lt_of_le (h l hl) (Nat.le_add_right _ _)

theorem scope_lt_after {scope : Option Nat} {p : Place} (c : Core) (h : ∀ l ∈ scope, l < p.loops) :
    ∀ l ∈ scope, l < (c.after p).loops := scope_lt_offset c.extent h

theorem makes_between (before after : Atom) (hg : Makes limit g c) :
    Makes limit (between limit before.instr after.instr g)
      (.seq (.atom before) (.seq c (.atom after))) := by
  intro p scope hscope
  have hcode : Core.code (.seq (.atom before) (.seq c (.atom after))) p scope =
      Block.single p before.instr ++ c.code p.next scope ++
        Block.single (c.after p.next) after.instr := (Block.append_assoc _ _ _).symm
  have hstop :
      (Core.seq (.atom before) (.seq c (.atom after))).after p = (c.after p.next).next := by
    rw [Core.after_seq, Core.after_seq]
    rfl
  rw [hcode, hstop]
  refine Gives.bind (gives_single p scope before.instr) ?_ (?_ : p.next.address ≤ _)
  · refine Gives.bind (hg p.next scope hscope) ?_ (Nat.le_succ _)
    rw [Core.stop_code]
    exact Gives.bind (gives_single _ scope after.instr) (Gives.ok _ _) (Nat.le_refl _)
  · exact Nat.le_succ_of_le (c.le_after p.next)

theorem makes_round {watched : Bool} (hg : Makes limit g c) (p : Place) (scope : Option Nat)
    (hscope : ∀ l ∈ scope, l < p.loops) :
    Gives limit (round limit watched g p scope) (Block.round watched c.extent c.code p scope)
      (p.offset (.ofRound watched c.extent)).address := by
  cases watched
  · exact hg p scope hscope
  · have hinner : ∀ l ∈ some p.loops, l < p.nextRound.loops := by
      intro l hl
      obtain rfl : p.loops = l := Option.some.inj hl
      exact Nat.lt_succ_self _
    rw [Core.offset_ofRound]
    refine Gives.bind (Gives.within limit (.roundStart p scope)) ?_ ?_
    · refine Gives.bind (hg p.nextRound (some p.loops) hinner) ?_ (Nat.le_succ _)
      rw [Core.stop_code]
      exact Gives.bind (gives_single _ scope _) (Gives.ok _ _) (Nat.le_refl _)
    · exact Nat.le_succ_of_le (c.le_after p.nextRound)

theorem makes_star {watched : Bool} {greed : Greed} (hg : Makes limit g c) :
    Makes limit (star limit watched greed g) (.star watched c greed) := by
  intro p scope hscope
  rw [Core.after_star]
  refine Gives.bind (makes_round hg p.nextSplit scope hscope) ?_ (Nat.le_succ _)
  rw [Core.stop_round (Core.stop_code c)]
  refine Gives.bind (gives_single _ scope _) ?_ (Nat.le_refl _)
  refine Gives.bind (Gives.within limit _) (Gives.ok _ _) ?_
  rw [Greed.stop_split]
  exact Nat.le_succ_of_le (Nat.le_add_right _ _)

theorem makes_plus {watched : Bool} {greed : Greed} (hg : Makes limit g c) :
    Makes limit (plus limit watched greed g) (.plus watched c greed) := by
  intro p scope hscope
  rw [Core.after_plus]
  refine Gives.bind (makes_round hg p scope hscope) ?_ (Nat.le_succ _)
  rw [Core.stop_round (Core.stop_code c)]
  refine Gives.bind (Gives.within limit _) (Gives.ok _ _) ?_
  exact Nat.le_of_eq (congrArg Place.address (greed.stop_split _ scope _ _))

theorem makes_optional {greed : Greed} (hg : Makes limit g c) :
    Makes limit (optional limit greed g) (.optional c greed) := by
  intro p scope hscope
  rw [Core.after_optional]
  refine Gives.bind (hg p.nextSplit scope hscope) ?_ (Nat.le_refl _)
  rw [Core.stop_code]
  refine Gives.bind (Gives.within limit _) (Gives.ok _ _) ?_
  rw [Greed.stop_split]
  exact c.le_after p.nextSplit

/-! ## Repetitions -/

theorem gives_addCopies {p : Place} {scope : Option Nat}
    (hscope : ∀ l ∈ scope, l < p.loops) (n : Nat) {code : Block} {q : Place} (hq : code.stop = q) :
    Gives limit (addCopies limit (c.code p scope) code n)
      (code ++ (Core.sequence (List.replicate n c)).code q scope)
      ((Core.sequence (List.replicate n c)).after q).address := by
  induction n generalizing code q with
  | zero => exact Or.inl (congrArg _ (Block.append_nil code q).symm)
  | succ n ih =>
    rw [List.replicate_succ, Core.code_sequence_cons, Core.after_sequence_cons, addCopies]
    split
    · next hempty =>
      -- Copies of no instructions are left out, and so is any check of the limit.
      have hsize : c.extent.address = 0 := by
        have h := Core.address_stop c p scope
        rw [Array.isEmpty_iff_size_eq_zero.mp hempty] at h
        simp only [Core.after, Place.offset] at h
        omega
      have hnil : ∀ m, (Core.sequence (List.replicate m c)).extent.address = 0 := by
        intro m
        have h : ((Core.sequence (List.replicate m c)).after .start).address = 0 := by
          induction m with
          | zero => rfl
          | succ m ihm =>
            rw [List.replicate_succ, Core.after_sequence_cons,
              (Core.code_eq_nil hsize .start none).2]
            exact ihm
        simpa only [Core.after, Place.offset, Place.start, Nat.zero_add] using h
      obtain ⟨hc, hcafter⟩ := Core.code_eq_nil hsize q scope
      obtain ⟨hcs, _⟩ := Core.code_eq_nil (hnil n) q scope
      rw [hc, hcafter, hcs, Block.append_nil, Block.append_nil]
      exact Gives.ok _ _
    · rw [hq, Core.moveTo_code p q c hscope]
      refine Gives.bind (Gives.within limit _) ?_ ?_
      · rw [← Block.append_assoc]
        refine ih ((Block.stop_append ?_).trans (Core.stop_code c q scope))
        rw [Core.start_code, hq]
      · rw [Core.stop_code]
        exact Core.le_after _ _

theorem gives_addOptionalCopies {p : Place} {scope : Option Nat} {greed : Greed}
    (hscope : ∀ l ∈ scope, l < p.loops) (n : Nat) {code : Block} {q : Place} (hq : code.stop = q) :
    Gives limit
      (addOptionalCopies limit greed scope ((Core.options c greed n).after q).address
        (c.code p scope) code n)
      (code ++ (Core.options c greed n).code q scope)
      ((Core.options c greed n).after q).address := by
  induction n generalizing code q with
  | zero => exact Or.inl (congrArg _ (Block.append_nil code q).symm)
  | succ n ih =>
    have hgrow := Core.after_le_after_options c greed n q
    rw [addOptionalCopies, hq, Core.code_options_succ]
    refine Gives.bind (Gives.within limit _) ?_ ?_
    · rw [Greed.stop_split, Core.moveTo_code p q.nextSplit c hscope]
      refine Gives.bind (Gives.within limit _) ?_ ?_
      · rw [← Block.append_assoc, ← Block.append_assoc, Core.after_options_succ]
        refine ih ((Block.stop_append ?_).trans (Core.stop_code c q.nextSplit scope))
        rw [Core.start_code, Block.stop_append, Greed.stop_split]
        rw [Greed.start_split, hq]
      · rw [Core.stop_code]
        exact hgrow
    · rw [Greed.stop_split]
      exact Nat.le_trans (c.le_after q.nextSplit) hgrow

/-- A part, copies of it, and then what `rest` makes. -/
theorem gives_copies (hg : Makes limit g c) {p : Place} {scope : Option Nat}
    (hscope : ∀ l ∈ scope, l < p.loops) (n : Nat) (ds : List Core)
    {rest : Block → Block → Except ProgramTooLarge Block}
    (hrest : ∀ {code : Block} {q : Place}, code.stop = q → (∀ l ∈ scope, l < q.loops) →
      Gives limit (rest (c.code p scope) code) (code ++ (Core.sequence ds).code q scope)
        ((Core.sequence ds).after q).address) :
    Gives limit
      (g p scope >>= fun part => addCopies limit part part n >>= fun code => rest part code)
      ((Core.sequence (c :: (List.replicate n c ++ ds))).code p scope)
      ((Core.sequence (c :: (List.replicate n c ++ ds))).after p).address := by
  rw [Core.code_sequence_cons, Core.code_sequence_append, Core.after_sequence_cons,
    Core.after_sequence_append, ← Block.append_assoc]
  have hcopies := Core.le_after (Core.sequence (List.replicate n c)) (c.after p)
  refine Gives.bind (hg p scope hscope) ?_ (Nat.le_trans hcopies (Core.le_after _ _))
  refine Gives.bind (gives_addCopies hscope n (Core.stop_code c p scope)) ?_ (Core.le_after _ _)
  refine hrest ?_ (scope_lt_after _ (scope_lt_after c hscope))
  rw [Block.stop_append, Core.stop_code]
  rw [Core.start_code, Core.stop_code]

theorem exitOfCopies_eq (greed : Greed) (p q : Place) (scope : Option Nat) (n : Nat) :
    exitOfCopies (c.code p scope) q.address n = ((Core.options c greed n).after q).address := by
  have h := Core.address_stop c p scope
  simp only [Core.after, Place.offset] at h
  rw [Core.address_options, exitOfCopies,
    show (c.code p scope).instrs.size = c.extent.address by omega]

theorem repeated_succ_some (watched : Bool) (min max : Nat) (greed : Greed) (p : Place)
    (scope : Option Nat) :
    repeated limit watched (min + 1) (some max) greed g p scope =
      (g p scope >>= fun part => addCopies limit part part min >>= fun code =>
        addOptionalCopies limit greed scope
          (exitOfCopies part code.stop.address (max - (min + 1))) part code (max - (min + 1))) := by
  cases min <;> cases max <;> rfl

theorem makes_repeated {watched : Bool} {min : Nat} {max : Option Nat} {greed : Greed}
    (hg : Makes limit g c) :
    Makes limit (repeated limit watched min max greed g) (.repeated watched c min max greed) := by
  intro p scope hscope
  match min, max with
  | 0, none => exact makes_star hg p scope hscope
  | 0, some 0 => exact Gives.ok _ _
  | 1, none => exact makes_plus hg p scope hscope
  | min + 2, none =>
    refine gives_copies hg hscope min [.plus watched c greed] (fun {code q} hq hq' => ?_)
    rw [hq]
    exact Gives.bind (makes_plus hg q scope hq') (Gives.ok _ _) (Nat.le_refl _)
  | 0, some (max + 1) =>
    show Gives limit _ ((Core.options c greed (max + 1)).code p scope)
      ((Core.options c greed (max + 1)).after p).address
    have hgrow := Core.after_le_after_options c greed max p
    refine Gives.bind (hg p.nextSplit scope hscope) ?_ hgrow
    rw [exitOfCopies_eq greed p.nextSplit p scope (max + 1), Core.code_options_succ]
    refine Gives.bind (Gives.within limit _) ?_ ?_
    · rw [Core.after_options_succ]
      refine gives_addOptionalCopies (p := p.nextSplit) hscope max
        ((Block.stop_append ?_).trans (Core.stop_code c _ scope))
      rw [Core.start_code, Greed.stop_split]
    · rw [Greed.stop_split]
      exact Nat.le_trans (c.le_after p.nextSplit) hgrow
  | min + 1, some max =>
    rw [repeated_succ_some, Core.repeated_succ_some]
    refine gives_copies hg hscope min _ (fun {code q} hq _ => ?_)
    rw [Core.sequence_options, exitOfCopies_eq greed p _ scope, hq]
    exact gives_addOptionalCopies hscope (max - (min + 1)) hq

/-! ## Alternatives -/

/-- The code of alternatives, with room for a split and a jump around each but the last. -/
def branchBlocks (scope : Option Nat) : List Core → Place → List Block
  | [], _ => []
  | [c], p => [c.code p scope]
  | c :: cs, p => c.code p.nextSplit scope :: branchBlocks scope cs (c.after p.nextSplit).next

theorem after_branches_cons (a b : Core) (cs : List Core) (p : Place) :
    (Core.branches (a :: b :: cs)).after p =
      (Core.branches (b :: cs)).after (a.after p.nextSplit).next :=
  Core.after_either a _ p

theorem branchBlocks_cons_cons (scope : Option Nat) (a b : Core) (cs : List Core) (p : Place) :
    branchBlocks scope (a :: b :: cs) p =
      a.code p.nextSplit scope :: branchBlocks scope (b :: cs) (a.after p.nextSplit).next := rfl

theorem exists_branchBlocks_cons (scope : Option Nat) (a : Core) (cs : List Core) (p : Place) :
    ∃ x xs, branchBlocks scope (a :: cs) p = x :: xs := by
  cases cs <;> exact ⟨_, _, rfl⟩

theorem address_getLast_branchBlocks (scope : Option Nat) (a : Core) (cs : List Core) (p : Place)
    (n : Nat) :
    ((branchBlocks scope (a :: cs) p).getLast?.map (·.stop.address)).getD n =
      ((Core.branches (a :: cs)).after p).address := by
  induction cs generalizing a p with
  | nil => exact congrArg Place.address (Core.stop_code a p scope)
  | cons b cs ih =>
    have h := ih b (a.after p.nextSplit).next
    obtain ⟨x, xs, hx⟩ := exists_branchBlocks_cons scope b cs (a.after p.nextSplit).next
    rw [hx] at h
    rw [after_branches_cons, branchBlocks_cons_cons, hx, List.getLast?_cons_cons, h]

theorem joinBranches_branchBlocks (scope : Option Nat) (cs : List Core) {code : Block} {p : Place}
    (hp : code.stop = p) :
    joinBranches scope ((Core.branches cs).after p).address code (branchBlocks scope cs p) =
      code ++ (Core.branches cs).code p scope := by
  cases cs with
  | nil => exact (Block.append_nil code p).symm
  | cons a cs =>
    induction cs generalizing code a p with
    | nil => rfl
    | cons b cs ih =>
      obtain ⟨x, xs, hx⟩ := exists_branchBlocks_cons scope b cs (a.after p.nextSplit).next
      let jump := a.after p.nextSplit
      have hfirst : ∀ n, (code ++ Block.split p scope p.nextSplit.address n ++
          a.code p.nextSplit scope).stop = jump := by
        intro n
        rw [Block.stop_append, Core.stop_code]
        rw [Core.start_code, Block.stop_append (by exact hp.symm)]
        rfl
      have hjump : ∀ m n, (code ++ Block.split p scope p.nextSplit.address n ++
          a.code p.nextSplit scope ++ Block.single jump (.jump m)).stop = jump.next := by
        intro m n
        rw [Block.stop_append (hfirst n).symm]
        rfl
      rw [branchBlocks_cons_cons, hx, joinBranches, ← hx, hp, Core.stop_code, Core.start_code,
        after_branches_cons, ih (hjump _ _) b]
      · simp only [Block.append_assoc, Core.branches, Core.code]
        rfl
      · exact fun h => List.cons_ne_nil x xs h

end Generator

/-! ## Expressions -/

namespace Expr

open Generator

theorem gives_addSequence {limit : Nat} {scope : Option Nat} {es : List Expr}
    (hes : ∀ e ∈ es, Makes limit (e.generator limit) e.core) {code : Block} {p : Place}
    (hp : code.stop = p) (hscope : ∀ l ∈ scope, l < p.loops) :
    Gives limit (addSequence limit scope code es)
      (code ++ (Core.sequence (coreAll es)).code p scope)
      ((Core.sequence (coreAll es)).after p).address := by
  induction es generalizing code p with
  | nil => exact Or.inl (congrArg _ (Block.append_nil code p).symm)
  | cons e es ih =>
    rw [addSequence, coreAll, Core.code_sequence_cons, Core.after_sequence_cons, hp,
      ← Block.append_assoc]
    refine Gives.bind (hes e List.mem_cons_self p scope hscope) ?_ (Core.le_after _ _)
    refine ih (fun d hd => hes d (List.mem_cons_of_mem e hd)) ?_ (scope_lt_after e.core hscope)
    rw [Block.stop_append, Core.stop_code]
    rw [Core.start_code, hp]

theorem gives_addBranches {limit : Nat} {scope : Option Nat} {es : List Expr}
    (hes : ∀ e ∈ es, Makes limit (e.generator limit) e.core) {branches : Array Block} {p : Place}
    (hscope : ∀ l ∈ scope, l < p.loops) :
    Gives limit (addBranches limit scope branches p es)
      (branches ++ (branchBlocks scope (coreAll es) p).toArray)
      ((Core.branches (coreAll es)).after p).address := by
  cases es with
  | nil => exact Or.inl (congrArg _ Array.append_empty.symm)
  | cons e es =>
    induction es generalizing branches e p with
    | nil =>
      refine Gives.bind (hes e List.mem_cons_self p scope hscope) ?_ (Nat.le_refl _)
      exact Or.inl (congrArg _ Array.push_eq_append)
    | cons d es ih =>
      let jump := e.core.after p.nextSplit
      have hblocks : branches ++ (branchBlocks scope (coreAll (e :: d :: es)) p).toArray =
          branches.push (e.core.code p.nextSplit scope) ++
            (branchBlocks scope (coreAll (d :: es)) jump.next).toArray := by
        rw [coreAll, coreAll, branchBlocks_cons_cons]
        simp only [Array.push_eq_append, Array.append_assoc, List.append_toArray, List.cons_append,
          List.nil_append]
        rfl
      have hafter : ((Core.branches (coreAll (e :: d :: es))).after p).address =
          ((Core.branches (coreAll (d :: es))).after jump.next).address :=
        congrArg Place.address (after_branches_cons e.core d.core (coreAll es) p)
      have hgrow : jump.address ≤ jump.next.address := Nat.le_succ _
      rw [hblocks, hafter]
      refine Gives.bind (hes e List.mem_cons_self p.nextSplit scope hscope) ?_
        (Nat.le_trans hgrow (Core.le_after _ _))
      rw [Core.stop_code]
      refine Gives.bind (Gives.within limit (.single jump (.jump 0))) ?_ (Core.le_after _ _)
      exact ih (p := jump.next) (scope_lt_after e.core hscope) d
        (fun b hb => hes b (List.mem_cons_of_mem e hb))

/-- The generator of an expression makes the code of its core form. -/
theorem makes_generator (limit : Nat) (e : Expr) : Makes limit (e.generator limit) e.core := by
  induction e using Expr.induct with
  | byte b => exact makes_atom (.byte b)
  | any => exact makes_atom .any
  | oneOf s => exact makes_atom (.oneOf s)
  | textStart => exact makes_atom .textStart
  | textEnd => exact makes_atom .textEnd
  | concat es ih =>
    intro p scope hscope
    have h := gives_addSequence ih (Block.stop_nil p) hscope
    rwa [Block.nil_append (Core.start_code _ p scope)] at h
  | alternate es ih =>
    intro p scope hscope
    refine Gives.bind (gives_addBranches ih hscope) (Or.inl (congrArg _ ?_)) (Nat.le_refl _)
    have hexit :
        (((branchBlocks scope (coreAll es) p).getLast?.map (·.stop.address)).getD p.address) =
        ((Core.branches (coreAll es)).after p).address := by
      cases es with
      | nil => rfl
      | cons e es => exact address_getLast_branchBlocks scope e.core (coreAll es) p p.address
    rw [Array.empty_append, List.toList_toArray, joined, hexit,
      joinBranches_branchBlocks scope _ (Block.stop_nil p),
      Block.nil_append (Core.start_code _ p scope)]
    rfl
  | star e greed ih => exact makes_star ih
  | plus e greed ih => exact makes_plus ih
  | optional e greed ih => exact makes_optional ih
  | repeated e min max greed ih => exact makes_repeated ih
  | group e index ih =>
    cases index with
    | none => exact ih
    | some index => exact makes_between (.save (2 * index)) (.save (2 * index + 1)) ih

theorem eq_code_of_generator {limit : Nat} {e : Expr} {q : Place} {scope : Option Nat} {b : Block}
    (hscope : ∀ loop ∈ scope, loop < q.loops) (h : e.generator limit q scope = .ok b) :
    b = e.core.code q scope :=
  (e.makes_generator limit q scope hscope).eq_of_ok h

end Expr

/-! ## Programs -/

def Core.program (c : Core) (captures : Nat) : Program :=
  let code := c.code .start none ++ .single (c.after .start) .accept
  .ofCode code.instrs captures code.splitScopes code.loopParents

/-- The core form of a whole pattern, which is a group of number 0. -/
def Pattern.core (pattern : Pattern) : Core :=
  (Expr.group pattern.root (some 0)).core

/-- A pattern becomes the program of its core form if that ends within the limit. -/
theorem Program.ofPattern_eq (limit : Nat) (pattern : Pattern) :
    Program.ofPattern limit pattern =
      if pattern.core.extent.address + 1 ≤ limit then .ok (pattern.core.program pattern.captures)
      else .error ⟨limit⟩ := by
  have hmakes := (Expr.group pattern.root (some 0)).makes_generator limit .start none
    (fun l hl => absurd hl (Option.not_mem_none l))
  have hstop : (pattern.core.after .start).address = pattern.core.extent.address := Nat.zero_add _
  rcases hmakes with hmakes | ⟨hmakes, hlt⟩
  · have hcode : Program.ofPattern limit pattern =
        (Generator.single limit .accept (pattern.core.after .start) none >>= fun accept =>
          let code := pattern.core.code .start none ++ accept
          pure (.ofCode code.instrs pattern.captures code.splitScopes code.loopParents)) := by
      rw [← Core.stop_code pattern.core .start none]
      exact congrArg (· >>= _) hmakes
    rw [hcode, Generator.single, Block.within, Block.stop_single, Place.next, hstop]
    split
    · rfl
    · rfl
  · have hover : ¬pattern.core.extent.address + 1 ≤ limit := by
      change limit < (pattern.core.after .start).address at hlt
      omega
    rw [if_neg hover]
    exact congrArg (· >>= _) hmakes

theorem Program.eq_program_of_ofPattern {limit : Nat} {pattern : Pattern} {p : Program}
    (h : Program.ofPattern limit pattern = .ok p) :
    pattern.core.extent.address + 1 ≤ limit ∧ p = pattern.core.program pattern.captures := by
  rw [Program.ofPattern_eq] at h
  split at h
  · next hlimit => exact ⟨hlimit, (Except.ok.inj h).symm⟩
  · cases h

end ByteRegex
