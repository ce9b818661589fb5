import ByteRegex.Proofs.Core.Loaded

/-!
# What is generated on the way

The functions that generate code call one another, and some of these calls copy code that has been
generated before. A job is such a call, and the jobs of a pattern are all that its program comes
from. Whether or not the size limit stops the generation, what a job is about is part of the
program, as it is: `Pattern.Reaches.loadedIn`.
-/

namespace ByteRegex

/-- A call of one of the functions that generate code, with what it is called for. -/
inductive Job where
  /-- `Expr.generator`: the code of an expression. -/
  | expr (e : Expr) (place : Place) (scope : Option Nat)
  /-- `Generator.round`: the rounds of a loop with the body `e`. -/
  | round (e : Expr) (place : Place) (scope : Option Nat)
  /-- `Expr.addSequence`: the code of expressions, one after the other, behind `code`. -/
  | sequence (scope : Option Nat) (code : Block) (es : List Expr)
  /-- `Expr.addBranches`: the code of alternatives, the first of which begins at the place. -/
  | branches (scope : Option Nat) (place : Place) (es : List Expr)
  /-- `Generator.addCopies`: copies of `part` behind `code`. -/
  | copies (part code : Block) (n : Nat)
  /-- `Generator.addOptionalCopies`: copies of `part` behind `code`, each after a choice between it
  and `exit`. -/
  | optionalCopies (greed : Greed) (scope : Option Nat) (exit : Nat) (part code : Block) (n : Nat)
  /-- `Block.moveTo`: one copy of `part`. -/
  | move (part : Block) (target : Place)

namespace Job

/-- Doing the first job leads to the second call. The results that it is called with are those of
earlier calls, which were within the limit. Copies of no instructions count as copies, although
there is nothing to be moved. -/
inductive Calls (limit : Nat) : Job → Job → Prop where
  | concat {es p scope} : Calls limit (.expr (.concat es) p scope) (.sequence scope (.nil p) es)
  | first {e es code scope} : Calls limit (.sequence scope code (e :: es)) (.expr e code.stop scope)
  | rest {e es code scope part} (hpart : e.generator limit code.stop scope = .ok part) :
      Calls limit (.sequence scope code (e :: es)) (.sequence scope (code ++ part) es)
  | alternate {es p scope} : Calls limit (.expr (.alternate es) p scope) (.branches scope p es)
  | branch {e d es p scope} :
      Calls limit (.branches scope p (e :: d :: es)) (.expr e p.nextSplit scope)
  | branches {e d es p scope branch jump}
      (hbranch : e.generator limit p.nextSplit scope = .ok branch)
      (hjump : (Block.single branch.stop (.jump 0)).within limit = .ok jump) :
      Calls limit (.branches scope p (e :: d :: es)) (.branches scope jump.stop (d :: es))
  | lastBranch {e p scope} : Calls limit (.branches scope p [e]) (.expr e p scope)
  | star {e greed p scope} :
      Calls limit (.expr (.star e greed) p scope) (.round e p.nextSplit scope)
  | plus {e greed p scope} : Calls limit (.expr (.plus e greed) p scope) (.round e p scope)
  | watched {e p scope start} (hnullable : e.nullable = true)
      (hstart : (Block.roundStart p scope).within limit = .ok start) :
      Calls limit (.round e p scope) (.expr e start.stop (some p.loops))
  | unwatched {e p scope} (hnullable : e.nullable = false) :
      Calls limit (.round e p scope) (.expr e p scope)
  | optional {e greed p scope} :
      Calls limit (.expr (.optional e greed) p scope) (.expr e p.nextSplit scope)
  | capture {e index p scope save}
      (hsave : Generator.single limit (.save (2 * index)) p scope = .ok save) :
      Calls limit (.expr (.group e (some index)) p scope) (.expr e save.stop scope)
  | group {e p scope} : Calls limit (.expr (.group e none) p scope) (.expr e p scope)
  -- Repetitions without a maximum end with a loop.
  | anyNumber {e greed p scope} :
      Calls limit (.expr (.repeated e 0 none greed) p scope) (.expr (.star e greed) p scope)
  | atLeastOne {e greed p scope} :
      Calls limit (.expr (.repeated e 1 none greed) p scope) (.expr (.plus e greed) p scope)
  | atLeast {e min greed p scope} :
      Calls limit (.expr (.repeated e (min + 2) none greed) p scope) (.expr e p scope)
  | atLeastCopies {e min greed p scope part} (hpart : e.generator limit p scope = .ok part) :
      Calls limit (.expr (.repeated e (min + 2) none greed) p scope) (.copies part part min)
  | atLeastLoop {e min greed p scope part code} (hpart : e.generator limit p scope = .ok part)
      (hcode : Generator.addCopies limit part part min = .ok code) :
      Calls limit (.expr (.repeated e (min + 2) none greed) p scope)
        (.expr (.plus e greed) code.stop scope)
  -- Repetitions with a maximum: of those without a minimum the first part is optional already.
  | between {e min max greed p scope} :
      Calls limit (.expr (.repeated e (min + 1) (some max) greed) p scope) (.expr e p scope)
  | betweenCopies {e min max greed p scope part} (hpart : e.generator limit p scope = .ok part) :
      Calls limit (.expr (.repeated e (min + 1) (some max) greed) p scope) (.copies part part min)
  | betweenOptions {e min max greed p scope part code}
      (hpart : e.generator limit p scope = .ok part)
      (hcode : Generator.addCopies limit part part min = .ok code) :
      Calls limit (.expr (.repeated e (min + 1) (some max) greed) p scope)
        (.optionalCopies greed scope
          (Generator.exitOfCopies part code.stop.address (max - (min + 1))) part code
          (max - (min + 1)))
  | atMost {e max greed p scope} :
      Calls limit (.expr (.repeated e 0 (some (max + 1)) greed) p scope) (.expr e p.nextSplit scope)
  | atMostOptions {e max greed p scope part choice}
      (hpart : e.generator limit p.nextSplit scope = .ok part)
      (hchoice : (greed.split p scope p.nextSplit.address
        (Generator.exitOfCopies part p.address (max + 1))).within limit = .ok choice) :
      Calls limit (.expr (.repeated e 0 (some (max + 1)) greed) p scope)
        (.optionalCopies greed scope (Generator.exitOfCopies part p.address (max + 1)) part
          (choice ++ part) max)
  | copy {part code n} : Calls limit (.copies part code (n + 1)) (.move part code.stop)
  | copies {part code n copy} (hcopy : (part.moveTo code.stop).within limit = .ok copy) :
      Calls limit (.copies part code (n + 1)) (.copies part (code ++ copy) n)
  | optionalCopy {greed scope exit part code n choice}
      (hchoice :
        (greed.split code.stop scope code.stop.nextSplit.address exit).within limit = .ok choice) :
      Calls limit (.optionalCopies greed scope exit part code (n + 1)) (.move part choice.stop)
  | optionalCopies {greed scope exit part code n choice copy}
      (hchoice :
        (greed.split code.stop scope code.stop.nextSplit.address exit).within limit = .ok choice)
      (hcopy : (part.moveTo choice.stop).within limit = .ok copy) :
      Calls limit (.optionalCopies greed scope exit part code (n + 1))
        (.optionalCopies greed scope exit part (code ++ choice ++ copy) n)

end Job

/-- Generating the program of the pattern comes to the job, even if it stops at the limit later
on. -/
inductive Pattern.Reaches (limit : Nat) (pattern : Pattern) : Job → Prop where
  | root {save} (hsave : Generator.single limit (.save 0) .start none = .ok save) :
      Reaches limit pattern (.expr pattern.root save.stop none)
  | next {job job'} (h : Reaches limit pattern job) (hcalls : job.Calls limit job') :
      Reaches limit pattern job'

/-! ## What jobs are about -/

def Place.LeadsTo (p q : Place) : Prop :=
  ∃ d, q = p.offset d

namespace Place.LeadsTo

theorem refl (p : Place) : p.LeadsTo p := ⟨.start, p.offset_start.symm⟩

theorem trans {p q r : Place} (hpq : p.LeadsTo q) (hqr : q.LeadsTo r) : p.LeadsTo r := by
  obtain ⟨d, rfl⟩ := hpq
  obtain ⟨d', rfl⟩ := hqr
  exact ⟨d.offset d', p.offset_offset d d'⟩

theorem nextSplit (p : Place) : p.LeadsTo p.nextSplit := ⟨⟨1, 1, 0⟩, rfl⟩

theorem after (c : Core) (p : Place) : p.LeadsTo (c.after p) := ⟨c.extent, rfl⟩

theorem address_le {p q : Place} (h : p.LeadsTo q) : p.address ≤ q.address := by
  obtain ⟨d, rfl⟩ := h
  exact Nat.le_add_right _ _

end Place.LeadsTo

theorem Block.leadsTo_stop (b : Block) : b.start.LeadsTo b.stop :=
  ⟨⟨b.instrs.size, b.splitScopes.size, b.loopParents.size⟩, rfl⟩

/-- The block is the code of `e` inside the loop `scope` and part of the program, which has the code
of `c` at the place `q` behind it. -/
structure Block.Precedes (part : Block) (p : Program) (e : Expr) (scope : Option Nat)
    (c : Core) (q : Place) :
    Prop where
  scope_lt : ∀ loop ∈ scope, loop < part.start.loops
  code_eq : part = e.core.code part.start scope
  loadedIn : part.LoadedIn p
  leadsTo : part.stop.LeadsTo q
  loadedAt : c.LoadedAt p q scope

/-- The code that the job is about is part of the program. -/
def Job.LoadedIn (p : Program) : Job → Prop
  | expr e q scope => (∀ loop ∈ scope, loop < q.loops) ∧ e.core.LoadedAt p q scope
  | round e q scope => (∀ loop ∈ scope, loop < q.loops) ∧ e.core.RoundAt e.nullable p q scope
  | sequence scope code es =>
    (∀ loop ∈ scope, loop < code.stop.loops) ∧
      (Core.sequence (Expr.coreAll es)).LoadedAt p code.stop scope
  | branches scope q es =>
    (∀ loop ∈ scope, loop < q.loops) ∧ (Core.branches (Expr.coreAll es)).LoadedAt p q scope
  | copies part code n =>
    ∃ e scope, part.Precedes p e scope (.sequence (List.replicate n e.core)) code.stop
  | optionalCopies greed scope _ part code n =>
    ∃ e, part.Precedes p e scope (.options e.core greed n) code.stop
  | move part target => ∃ e scope, part.Precedes p e scope e.core target

namespace Block.Precedes

variable {limit n : Nat} {e : Expr} {c : Core} {part code : Block} {p : Program} {q : Place}
    {scope : Option Nat}

theorem of_generator (hscope : ∀ loop ∈ scope, loop < q.loops)
    (hpart : e.generator limit q scope = .ok part) (he : e.core.LoadedAt p q scope)
    (hc : c.LoadedAt p (e.core.after q) scope) : part.Precedes p e scope c part.stop := by
  obtain rfl := Expr.eq_code_of_generator hscope hpart
  have hstart := Core.start_code e.core q scope
  exact ⟨hstart.symm ▸ hscope, by rw [hstart], he, .refl _, by rwa [Core.stop_code]⟩

/-- A part is moved to the code of its expression. -/
theorem moveTo_eq (h : part.Precedes p e scope c q) (target : Place) :
    part.moveTo target = e.core.code target scope := by
  rw [h.code_eq]
  exact Core.moveTo_code _ target e.core h.scope_lt

theorem next {d : Core} {r : Place} (h : part.Precedes p e scope c q) (hqr : q.LeadsTo r)
    (hd : d.LoadedAt p r scope) : part.Precedes p e scope d r :=
  ⟨h.scope_lt, h.code_eq, h.loadedIn, h.leadsTo.trans hqr, hd⟩

theorem stop_of_addCopies (h : part.Precedes p e scope c q)
    (hcode : Generator.addCopies limit part part n = .ok code) :
    code.stop = (Core.sequence (List.replicate n e.core)).after part.stop := by
  rw [h.code_eq] at hcode ⊢
  obtain rfl := (Generator.gives_addCopies h.scope_lt n (Core.stop_code _ _ _)).eq_of_ok hcode
  rw [Block.stop_append, Core.stop_code, Core.stop_code]
  rw [Core.start_code, Core.stop_code]

theorem stop_append_moveTo (h : part.Precedes p e scope c q) {r : Place} (hr : code.stop = r) :
    (code ++ part.moveTo r).stop = e.core.after r := by
  rw [Block.stop_append hr.symm, h.moveTo_eq, Core.stop_code]

end Block.Precedes

namespace Job

variable {limit : Nat} {job job' : Job} {p : Program}

/-- A job only calls for code that is part of the code it is about. -/
theorem Calls.loadedIn (h : job.Calls limit job') (hjob : job.LoadedIn p) : job'.LoadedIn p := by
  cases h with
  | concat => exact hjob
  | first => exact ⟨hjob.1, (Core.loadedAt_sequence_cons.mp hjob.2).1⟩
  | @rest e es code scope part hpart =>
    obtain ⟨hscope, hcode⟩ := hjob
    obtain rfl := Expr.eq_code_of_generator hscope hpart
    have hstop : (code ++ e.core.code code.stop scope).stop = e.core.after code.stop :=
      (Block.stop_append (Core.start_code _ _ _)).trans (Core.stop_code _ _ _)
    rw [LoadedIn, hstop]
    exact ⟨Generator.scope_lt_after _ hscope, (Core.loadedAt_sequence_cons.mp hcode).2⟩
  | alternate => exact hjob
  | branch => exact ⟨hjob.1, (Core.loadedAt_either.mp hjob.2).2.1⟩
  | @branches e d es q scope branch jump hbranch hjump =>
    obtain ⟨hscope, hcode⟩ := hjob
    obtain rfl := Expr.eq_code_of_generator (q := q.nextSplit) hscope hbranch
    obtain rfl := Block.eq_of_within hjump
    rw [LoadedIn, Block.stop_single, Core.stop_code]
    exact ⟨Generator.scope_lt_after (p := q.nextSplit) e.core hscope,
      (Core.loadedAt_either.mp hcode).2.2.2⟩
  | lastBranch => exact hjob
  | star => exact ⟨hjob.1, (Core.loadedAt_star.mp hjob.2).2.1⟩
  | plus => exact ⟨hjob.1, (Core.loadedAt_plus.mp hjob.2).1⟩
  | watched hnullable hstart =>
    obtain ⟨_, hround⟩ := hjob
    obtain rfl := Block.eq_of_within hstart
    rw [hnullable] at hround
    exact ⟨fun _ h => Option.some.inj h ▸ Nat.lt_succ_self _, (Core.roundAt_watched.mp hround).2.1⟩
  | unwatched hnullable =>
    obtain ⟨hscope, hround⟩ := hjob
    rw [hnullable] at hround
    exact ⟨hscope, hround⟩
  | optional => exact ⟨hjob.1, (Core.loadedAt_optional.mp hjob.2).2⟩
  | capture hsave =>
    obtain rfl := Block.eq_of_within hsave
    exact ⟨hjob.1, (Core.loadedAt_seq.mp (Core.loadedAt_seq.mp hjob.2).2).1⟩
  | group => exact hjob
  | anyNumber => exact hjob
  | atLeastOne => exact hjob
  | atLeast => exact ⟨hjob.1, (Core.loadedAt_repeated_none hjob.2).1⟩
  | atLeastCopies hpart =>
    obtain ⟨hc, hcopies, _⟩ := Core.loadedAt_repeated_none hjob.2
    exact ⟨_, _, .of_generator hjob.1 hpart hc hcopies⟩
  | @atLeastLoop e min greed q scope part code hpart hcode =>
    obtain ⟨hscope, hjob⟩ := hjob
    obtain ⟨hc, hcopies, hloop⟩ := Core.loadedAt_repeated_none hjob
    have hpart' := Block.Precedes.of_generator hscope hpart hc hcopies
    obtain rfl := Expr.eq_code_of_generator hscope hpart
    rw [LoadedIn, hpart'.stop_of_addCopies hcode, Core.stop_code]
    exact ⟨Generator.scope_lt_after _ (Generator.scope_lt_after _ hscope), hloop⟩
  | between => exact ⟨hjob.1, (Core.loadedAt_repeated_some hjob.2).1⟩
  | betweenCopies hpart =>
    obtain ⟨hc, hcopies, _⟩ := Core.loadedAt_repeated_some hjob.2
    exact ⟨_, _, .of_generator hjob.1 hpart hc hcopies⟩
  | @betweenOptions e min max greed q scope part code hpart hcode =>
    obtain ⟨hscope, hjob⟩ := hjob
    obtain ⟨hc, hcopies, hoptions⟩ := Core.loadedAt_repeated_some hjob
    have hpart' := Block.Precedes.of_generator hscope hpart hc hcopies
    obtain rfl := Expr.eq_code_of_generator hscope hpart
    refine ⟨e, ?_⟩
    rw [hpart'.stop_of_addCopies hcode]
    refine hpart'.next (.after _ _) ?_
    rwa [Core.stop_code]
  | @atMost e max greed q scope =>
    exact ⟨hjob.1, (Core.loadedAt_options_succ (n := max) hjob.2).1⟩
  | @atMostOptions e max greed q scope part choice hpart hchoice =>
    obtain ⟨hscope, hjob⟩ := hjob
    obtain ⟨hc, hoptions⟩ := Core.loadedAt_options_succ (n := max) hjob
    have hpart' := Block.Precedes.of_generator (q := q.nextSplit) hscope hpart hc hoptions
    obtain rfl := Block.eq_of_within hchoice
    obtain rfl := Expr.eq_code_of_generator (q := q.nextSplit) hscope hpart
    refine ⟨e, ?_⟩
    rw [Block.stop_append ((Core.start_code _ _ _).trans (greed.stop_split _ _ _ _).symm)]
    exact hpart'
  | @copy part code n =>
    obtain ⟨e, scope, h⟩ := hjob
    exact ⟨e, scope, h.next (.refl _) (Core.loadedAt_sequence_cons.mp h.loadedAt).1⟩
  | @copies part code n copy hcopy =>
    obtain ⟨e, scope, h⟩ := hjob
    obtain rfl := Block.eq_of_within hcopy
    refine ⟨e, scope, ?_⟩
    rw [h.stop_append_moveTo rfl]
    exact h.next (.after _ _) (Core.loadedAt_sequence_cons.mp h.loadedAt).2
  | @optionalCopy greed scope exit part code n choice hchoice =>
    obtain ⟨e, h⟩ := hjob
    obtain rfl := Block.eq_of_within hchoice
    refine ⟨e, scope, ?_⟩
    rw [Greed.stop_split]
    exact h.next (.nextSplit _) (Core.loadedAt_options_succ h.loadedAt).1
  | @optionalCopies greed scope exit part code n choice copy hchoice hcopy =>
    obtain ⟨e, h⟩ := hjob
    obtain rfl := Block.eq_of_within hchoice
    obtain rfl := Block.eq_of_within hcopy
    have hstop : (code ++ greed.split code.stop scope code.stop.nextSplit.address exit).stop =
        code.stop.nextSplit :=
          (Block.stop_append (greed.start_split _ _ _ _)).trans (greed.stop_split _ _ _ _)
    refine ⟨e, ?_⟩
    rw [Greed.stop_split, h.stop_append_moveTo hstop]
    exact h.next ((Place.LeadsTo.nextSplit _).trans (.after _ _))
      (Core.loadedAt_options_succ h.loadedAt).2

end Job

/-- Whatever the generation comes to is part of the program. -/
theorem Pattern.Reaches.loadedIn {limit : Nat} {pattern : Pattern} {job : Job}
    (h : pattern.Reaches limit job) : job.LoadedIn (pattern.core.program pattern.captures) := by
  induction h with
  | root hsave =>
    obtain rfl := Block.eq_of_within hsave
    have hcode := (Core.loadedAt_program pattern.core pattern.captures).1
    exact ⟨fun loop h => absurd h (Option.not_mem_none loop),
      (Core.loadedAt_seq.mp (Core.loadedAt_seq.mp hcode).2).1⟩
  | next _ hcalls ih => exact hcalls.loadedIn ih

end ByteRegex
