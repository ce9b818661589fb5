import ByteRegex.Proofs.Core.Parts
import ByteRegex.Proofs.Exec.Spot
import ByteRegex.Proofs.Match.Spelling
import ByteRegex.Proofs.Program.Flow

/-!
# Cycles make progress

A walk that comes back to where it started has to read something on the way, or the machine could go
round for ever without getting any further. Compiled code has no other cycles, unless the body of a
loop is taken to read something in every round and does not: `Program.progressive_iff`. Among the
expressions that is so only where an alternation has no alternatives, which no pattern denotes.
-/

namespace ByteRegex

namespace Spot

variable {t : Task} {c d : Spot}

theorem of_mem_read {subject : ByteArray} (accepts : UInt8 → Bool)
    (h : d ∈ (c.read subject accepts).spots) : d.address = c.address + 1 ∧ d.pos = c.pos + 1 := by
  unfold read at h
  split at h
  · split at h
    · obtain rfl := List.mem_singleton.mp h
      exact ⟨rfl, rfl⟩
    · exact absurd h List.not_mem_nil
  · exact absurd h List.not_mem_nil

theorem of_mem_require (condition : Bool) (h : d ∈ (c.require condition).spots) :
    d.address = c.address + 1 ∧ d.pos = c.pos := by
  unfold require at h
  split at h
  · obtain rfl := List.mem_singleton.mp h
    exact ⟨rfl, rfl⟩
  · exact absurd h List.not_mem_nil

/-- What an instruction does leads along one of its edges, and along an idle one without reading. -/
theorem exists_mem_edges (subject : ByteArray) {instr : Instr}
    (h : d ∈ (c.obey subject instr).spots) :
    ∃ kind, (kind, d.address) ∈ instr.edges c.address ∧
      d.pos = if kind = .reads then c.pos + 1 else c.pos := by
  cases instr with
  | accept => exact absurd h List.not_mem_nil
  | byte b =>
    obtain ⟨haddress, hpos⟩ := of_mem_read (· == b) h
    exact ⟨.reads, haddress ▸ List.mem_cons_self, hpos⟩
  | any =>
    obtain ⟨haddress, hpos⟩ := of_mem_read (fun _ => true) h
    exact ⟨.reads, haddress ▸ List.mem_cons_self, hpos⟩
  | oneOf s =>
    obtain ⟨haddress, hpos⟩ := of_mem_read s.contains h
    exact ⟨.reads, haddress ▸ List.mem_cons_self, hpos⟩
  | textStart =>
    obtain ⟨haddress, hpos⟩ := of_mem_require (c.pos == 0) h
    exact ⟨.idle, haddress ▸ List.mem_cons_self, hpos⟩
  | textEnd =>
    obtain ⟨haddress, hpos⟩ := of_mem_require (c.pos == subject.size) h
    exact ⟨.idle, haddress ▸ List.mem_cons_self, hpos⟩
  | split id first second =>
    rcases List.mem_cons.mp h with rfl | h
    · exact ⟨.idle, List.mem_cons_self, rfl⟩
    · obtain rfl := List.mem_singleton.mp h
      exact ⟨.idle, List.mem_cons_of_mem _ List.mem_cons_self, rfl⟩
  | jump target | save slot | roundStart loop =>
    obtain rfl := List.mem_singleton.mp h
    exact ⟨.idle, List.mem_cons_self, rfl⟩
  | roundEnd loop exit =>
    rw [obey] at h
    split at h
    · obtain rfl := List.mem_singleton.mp h
      exact ⟨.advances, List.mem_cons_self, rfl⟩
    · obtain rfl := List.mem_singleton.mp h
      exact ⟨.idle, List.mem_cons_of_mem _ List.mem_cons_self, rfl⟩

/-- The machine goes along the edges of the flow graph. -/
theorem edge_of_precedes (h : Precedes t c d) :
    ∃ kind, t.program.Edge c.address kind d.address ∧
      d.pos = if kind = .reads then c.pos + 1 else c.pos := by
  unfold Precedes turn at h
  cases hinstr : t.program.instrs[c.address]? with
  | none =>
    rw [hinstr] at h
    exact absurd h List.not_mem_nil
  | some instr =>
    rw [hinstr] at h
    obtain ⟨kind, hedge, hpos⟩ := exists_mem_edges t.subject h
    exact ⟨kind, ⟨instr, hinstr, hedge⟩, hpos⟩

end Spot

namespace Program

/-- On every cycle some instruction reads a byte, or a round that has read something ends. -/
def Progressive (p : Program) : Prop :=
  ∀ a kinds, p.Walk a kinds a → kinds ≠ [] → ∃ kind ∈ kinds, kind ≠ .idle

/-- Every walk along idle edges from the address comes to an end. -/
def Settles (p : Program) (a : Nat) : Prop :=
  Acc (fun b a => p.Edge a .idle b) a

/-- A walk along idle edges leads from the address `a` to the address `b`. -/
def Slips (p : Program) : (a b : Nat) → Prop :=
  Relation.ReflTransGen (p.Edge · .idle ·)

variable {p : Program} {a b : Nat} {instr : Instr} {kinds : List EdgeKind}

theorem settles_of_instr (h : p.instrs[a]? = some instr)
    (hnext : ∀ b, (.idle, b) ∈ instr.edges a → p.Settles b) : p.Settles a := by
  refine .intro a (fun b hedge => ?_)
  obtain ⟨instr', hinstr', hb⟩ := hedge
  obtain rfl := Option.some.inj (h.symm.trans hinstr')
  exact hnext b hb

theorem settles_of_single (h : p.instrs[a]? = some instr) (hedges : instr.edges a = [(.idle, b)])
    (hb : p.Settles b) : p.Settles a := by
  refine settles_of_instr h (fun c hc => ?_)
  rw [hedges, List.mem_singleton] at hc
  exact (Prod.mk.inj hc).2 ▸ hb

theorem settles_greed {greed : Greed} {id prefer other : Nat}
    (h : p.instrs[a]? = some (greed.splitInstr id prefer other)) (hprefer : p.Settles prefer)
    (hother : p.Settles other) : p.Settles a := by
  refine settles_of_instr h (fun b hb => ?_)
  rcases (Greed.mem_edges_splitInstr.mp hb).2 with rfl | rfl
  · exact hprefer
  · exact hother

theorem settles_roundEnd {loop exit : Nat} (h : p.instrs[a]? = some (.roundEnd loop exit))
    (hexit : p.Settles exit) : p.Settles a := by
  refine settles_of_instr h (fun b hb => ?_)
  obtain rfl : b = exit := by
    simpa only [Instr.edges, List.mem_cons, Prod.mk.injEq, reduceCtorEq, false_and, true_and,
      List.not_mem_nil, or_false, false_or] using hb
  exact hexit

/-- Where all idle walks come to an end, none leads back. -/
theorem Settles.not_cycle (h : p.Settles a) (hwalk : p.Walk a kinds a)
    (hidle : ∀ kind ∈ kinds, kind = .idle) : kinds = [] := by
  induction h generalizing kinds with
  | intro a _ ih =>
    cases hwalk with
    | nil => rfl
    | @cons _ b _ kind kinds hedge hrest =>
      -- The cycle goes through the next address as well, where it starts with its second edge.
      obtain rfl := hidle kind List.mem_cons_self
      have hturned := hrest.append (.cons hedge .nil)
      have hnil := ih b hedge hturned (fun kind hkind => ?_)
      · exact absurd hnil (List.append_ne_nil_of_right_ne_nil kinds (List.cons_ne_nil _ _))
      · rcases List.mem_append.mp hkind with hkind | hkind
        · exact hidle kind (List.mem_cons_of_mem _ hkind)
        · exact List.mem_singleton.mp hkind

theorem progressive_of_settles (h : ∀ a, a < p.size → p.Settles a) : p.Progressive := by
  intro a kinds hwalk hne
  refine Decidable.byContradiction (fun hreads => ?_)
  have hidle : ∀ kind ∈ kinds, kind = .idle :=
    fun kind hkind => Decidable.byContradiction (fun h => hreads ⟨kind, hkind, h⟩)
  have ha : a < p.size := by
    cases hwalk with
    | nil => exact absurd rfl hne
    | cons hedge _ =>
      obtain ⟨_, hinstr, _⟩ := hedge
      exact (Array.getElem?_eq_some_iff.mp hinstr).1
  exact hne ((h a ha).not_cycle hwalk hidle)

theorem Slips.exists_walk (h : p.Slips a b) :
    ∃ kinds, p.Walk a kinds b ∧ ∀ kind ∈ kinds, kind = .idle := by
  induction h using Relation.ReflTransGen.head_induction_on with
  | refl => exact ⟨[], .nil, fun _ h => absurd h List.not_mem_nil⟩
  | head hedge _ ih =>
    obtain ⟨kinds, hwalk, hidle⟩ := ih
    refine ⟨.idle :: kinds, .cons hedge hwalk, fun kind hkind => ?_⟩
    rcases List.mem_cons.mp hkind with rfl | hkind
    · rfl
    · exact hidle kind hkind

/-- With progress on every cycle, an idle walk does not close at an idle edge. -/
theorem Progressive.not_slips (hp : p.Progressive) (h : p.Edge a .idle b) : ¬p.Slips b a := by
  intro hback
  obtain ⟨kinds, hwalk, hidle⟩ := hback.exists_walk
  obtain ⟨kind, hkind, hne⟩ := hp a (.idle :: kinds) (.cons h hwalk) (List.cons_ne_nil _ _)
  rcases List.mem_cons.mp hkind with rfl | hkind
  · exact hne rfl
  · exact hne (hidle kind hkind)

end Program

namespace Core

variable {p : Program} {q : Place} {scope : Option Nat}

/-! ## Watched loops -/

theorem settles_roundAt {watched : Bool} {c : Core} (hc : c.RoundAt watched p q scope)
    (hreads : watched = false → c.nullable = false)
    (hexit : c.nullable = true → p.Settles ((q.offset (.ofRound watched c.extent)).address + 1))
    (ih : ∀ {q scope}, c.LoadedAt p q scope → (c.nullable = true → p.Settles (c.after q).address) →
      p.Settles q.address) : p.Settles q.address := by
  cases watched with
  | false => exact ih hc (fun hnullable => absurd (hreads rfl) (ne_false_of_eq_true hnullable))
  | true =>
    obtain ⟨⟨hstart, _⟩, hbody, hend⟩ := roundAt_watched.mp hc
    rw [offset_ofRound] at hexit
    exact Program.settles_of_single hstart rfl
      (ih hbody (fun hnullable => Program.settles_roundEnd hend (hexit hnullable)))

/-- Walks along idle edges that enter some code come to an end, if those behind it do or the code
reads something. -/
theorem settles_loadedAt {c : Core} (hwatchful : c.Watchful) (hc : c.LoadedAt p q scope)
    (hend : c.nullable = true → p.Settles (c.after q).address) : p.Settles q.address := by
  induction c generalizing q scope with
  | nothing => exact hend rfl
  | atom a =>
    have hinstr := loadedAt_atom.mp hc
    cases a with
    | byte b | any | oneOf s =>
      refine Program.settles_of_instr hinstr (fun b hb => ?_)
      exact absurd (Prod.mk.inj (List.mem_singleton.mp hb)).1 nofun
    | textStart | textEnd | save slot => exact Program.settles_of_single hinstr rfl (hend rfl)
  | seq a b iha ihb =>
    obtain ⟨ha, hb⟩ := loadedAt_seq.mp hc
    rw [after_seq] at hend
    refine iha hwatchful.1 ha (fun hnullable => ihb hwatchful.2 hb (fun hnullable' => hend ?_))
    rw [nullable, hnullable, hnullable']
    rfl
  | either a b iha ihb =>
    obtain ⟨⟨hsplit, _⟩, ha, hjump, hb⟩ := loadedAt_either.mp hc
    rw [after_either] at hend
    have hsplit' : p.instrs[q.address]? = some (Greed.greedy.splitInstr q.splits _ _) := hsplit
    refine Program.settles_greed hsplit' ?_ ?_
    · exact iha hwatchful.1 ha (fun hnullable => Program.settles_of_single hjump rfl
        (hend (Bool.or_eq_true_iff.mpr (Or.inl hnullable))))
    · exact ihb hwatchful.2 hb (fun hnullable => hend (Bool.or_eq_true_iff.mpr (Or.inr hnullable)))
  | optional a greed ih =>
    obtain ⟨⟨hsplit, _⟩, ha⟩ := loadedAt_optional.mp hc
    rw [after_optional] at hend
    exact Program.settles_greed hsplit (ih hwatchful ha (fun _ => hend rfl)) (hend rfl)
  | star watched a greed ih =>
    obtain ⟨⟨hsplit, _⟩, hround, _⟩ := loadedAt_star.mp hc
    rw [after_star] at hend
    exact Program.settles_greed hsplit
      (settles_roundAt hround hwatchful.2 (fun _ => hend rfl) (ih hwatchful.1)) (hend rfl)
  | plus watched a greed ih =>
    obtain ⟨hround, _, _⟩ := loadedAt_plus.mp hc
    rw [after_plus] at hend
    exact settles_roundAt hround hwatchful.2 hend (ih hwatchful.1)

theorem settles_throughout_round {watched : Bool} {c : Core} (hwatchful : c.Watchful)
    (hreads : watched = false → c.nullable = false) (hc : c.RoundAt watched p q scope)
    (hend : p.Settles (q.offset (.ofRound watched c.extent)).address)
    (hexit : p.Settles ((q.offset (.ofRound watched c.extent)).address + 1))
    (ih : ∀ {q scope}, c.LoadedAt p q scope → p.Settles (c.after q).address →
      p.Throughout (fun a _ => p.Settles a) q.address (c.after q).address) :
    p.Throughout (fun a _ => p.Settles a) q.address
      (q.offset (.ofRound watched c.extent)).address := by
  have hentry := settles_roundAt hc hreads (fun _ => hexit) (settles_loadedAt hwatchful)
  cases watched with
  | false => exact ih hc hend
  | true =>
    obtain ⟨⟨hstart, _⟩, hbody, hstop⟩ := roundAt_watched.mp hc
    rw [offset_ofRound] at hexit ⊢
    have hround := Program.settles_roundEnd hstop hexit
    exact .append (.append (.single hstart hentry) (ih hbody hround)) (.single hstop hround)

/-- If walks along idle edges come to an end behind some code, they do so from everywhere in it. -/
theorem settles_throughout {c : Core} (hwatchful : c.Watchful) (hc : c.LoadedAt p q scope)
    (hend : p.Settles (c.after q).address) :
    p.Throughout (fun a _ => p.Settles a) q.address (c.after q).address := by
  induction c generalizing q scope with
  | nothing => exact .empty
  | atom a => exact .single (loadedAt_atom.mp hc) (settles_loadedAt hwatchful hc (fun _ => hend))
  | seq a b iha ihb =>
    obtain ⟨ha, hb⟩ := loadedAt_seq.mp hc
    rw [after_seq] at hend ⊢
    exact (iha hwatchful.1 ha (settles_loadedAt hwatchful.2 hb (fun _ => hend))).append
      (ihb hwatchful.2 hb hend)
  | either a b iha ihb =>
    have hentry := settles_loadedAt hwatchful hc (fun _ => hend)
    obtain ⟨⟨hsplit, _⟩, ha, hjump, hb⟩ := loadedAt_either.mp hc
    rw [after_either] at hend ⊢
    have hover : p.Settles (a.after q.nextSplit).address :=
      Program.settles_of_single hjump rfl hend
    exact .append (.append (.append (.single hsplit hentry) (iha hwatchful.1 ha hover))
      (.single hjump hover)) (ihb hwatchful.2 hb hend)
  | optional a greed ih =>
    have hentry := settles_loadedAt hwatchful hc (fun _ => hend)
    obtain ⟨⟨hsplit, _⟩, ha⟩ := loadedAt_optional.mp hc
    rw [after_optional] at hend ⊢
    exact .append (.single hsplit hentry) (ih hwatchful ha hend)
  | star watched a greed ih =>
    have hentry := settles_loadedAt hwatchful hc (fun _ => hend)
    obtain ⟨⟨hsplit, _⟩, hround, hjump⟩ := loadedAt_star.mp hc
    rw [after_star] at hend ⊢
    have hback : p.Settles (q.nextSplit.offset (.ofRound watched a.extent)).address :=
      Program.settles_of_single hjump rfl hentry
    exact .append (.append (.single hsplit hentry)
      (settles_throughout_round hwatchful.1 hwatchful.2 hround hback hend (ih hwatchful.1)))
      (.single hjump hback)
  | plus watched a greed ih =>
    have hentry := settles_loadedAt hwatchful hc (fun _ => hend)
    obtain ⟨hround, hsplit, _⟩ := loadedAt_plus.mp hc
    rw [after_plus] at hend ⊢
    have hchoice := Program.settles_greed hsplit hentry hend
    exact .append (settles_throughout_round hwatchful.1 hwatchful.2 hround hchoice hend
      (ih hwatchful.1)) (.single hsplit hchoice)

theorem progressive_program {c : Core} (hwatchful : c.Watchful) (captures : Nat) :
    (c.program captures).Progressive := by
  obtain ⟨hc, haccept⟩ := loadedAt_program c captures
  have hend : (c.program captures).Settles (c.after .start).address :=
    Program.settles_of_instr haccept (fun _ hb => absurd hb List.not_mem_nil)
  have hcode := settles_throughout hwatchful hc hend
  refine Program.progressive_of_settles (fun a ha => ?_)
  have hinstr := Array.getElem?_eq_getElem ha
  exact forall_of_throughout hcode hend hinstr

/-! ## Loops that are not watched -/

/-- A round that may read nothing, and is not watched or has somewhere to go, is slipped through. -/
theorem slips_round {watched : Bool} {c : Core} (hc : c.RoundAt watched p q scope)
    (hslips : ∀ {q scope}, c.LoadedAt p q scope → p.Slips q.address (c.after q).address) :
    p.Slips q.address (q.offset (.ofRound watched c.extent)).address ∨
      p.Slips q.address ((q.offset (.ofRound watched c.extent)).address + 1) := by
  cases watched with
  | false => exact Or.inl (hslips hc)
  | true =>
    obtain ⟨⟨hstart, _⟩, hbody, hend⟩ := roundAt_watched.mp hc
    rw [offset_ofRound]
    have hin := Program.edge_of_instr hstart List.mem_cons_self
    have hout := Program.edge_of_instr hend (List.mem_cons_of_mem _ List.mem_cons_self)
    exact Or.inr (.head hin ((hslips hbody).tail hout))

/-- Code that can match without reading a byte is passed along idle edges. -/
theorem slips_loadedAt {c : Core} (hnullable : c.nullable = true) (hc : c.LoadedAt p q scope) :
    p.Slips q.address (c.after q).address := by
  induction c generalizing q scope with
  | nothing => exact .refl
  | atom a =>
    have hinstr := loadedAt_atom.mp hc
    cases a with
    | byte b | any | oneOf s => exact absurd hnullable Bool.false_ne_true
    | textStart | textEnd | save slot =>
      exact .single (Program.edge_of_instr hinstr List.mem_cons_self)
  | seq a b iha ihb =>
    obtain ⟨ha, hb⟩ := loadedAt_seq.mp hc
    rw [after_seq]
    rw [nullable, Bool.and_eq_true] at hnullable
    exact (iha hnullable.1 ha).trans (ihb hnullable.2 hb)
  | either a b iha ihb =>
    obtain ⟨⟨hsplit, _⟩, ha, hjump, hb⟩ := loadedAt_either.mp hc
    rw [after_either]
    rcases Bool.or_eq_true_iff.mp hnullable with hnullable | hnullable
    · have hover := Program.edge_of_instr hjump List.mem_cons_self
      exact .head (Program.edge_of_instr hsplit List.mem_cons_self) ((iha hnullable ha).tail hover)
    · have hsecond := Program.edge_of_instr hsplit (List.mem_cons_of_mem _ List.mem_cons_self)
      exact .head hsecond (ihb hnullable hb)
  | optional a greed ih =>
    obtain ⟨⟨hsplit, _⟩, _⟩ := loadedAt_optional.mp hc
    rw [after_optional]
    exact .single (Program.edge_greed hsplit (Or.inr rfl))
  | star watched a greed ih =>
    obtain ⟨⟨hsplit, _⟩, _, _⟩ := loadedAt_star.mp hc
    rw [after_star]
    exact .single (Program.edge_greed hsplit (Or.inr rfl))
  | plus watched a greed ih =>
    obtain ⟨hround, hsplit, _⟩ := loadedAt_plus.mp hc
    rw [after_plus]
    rcases slips_round hround (ih hnullable) with hslips | hslips
    · exact hslips.tail (Program.edge_greed hsplit (Or.inr rfl))
    · exact hslips

/-- With progress on every cycle, every round that is not watched reads something. -/
theorem watchful_of_progressive {c : Core} (hp : p.Progressive) (hc : c.LoadedAt p q scope) :
    c.Watchful := by
  have hround : ∀ {watched : Bool} {a : Core} {q scope}, a.RoundAt watched p q scope →
      (∀ {q scope}, a.LoadedAt p q scope → a.Watchful) → a.Watchful := by
    intro watched a q scope ha ih
    cases watched with
    | false => exact ih ha
    | true => exact ih (roundAt_watched.mp ha).2.1
  induction c generalizing q scope with
  | nothing | atom a => trivial
  | seq a b iha ihb =>
    obtain ⟨ha, hb⟩ := loadedAt_seq.mp hc
    exact ⟨iha ha, ihb hb⟩
  | either a b iha ihb =>
    obtain ⟨_, ha, _, hb⟩ := loadedAt_either.mp hc
    exact ⟨iha ha, ihb hb⟩
  | optional a greed ih => exact ih (loadedAt_optional.mp hc).2
  | star watched a greed ih =>
    obtain ⟨⟨hsplit, _⟩, hbody, hjump⟩ := loadedAt_star.mp hc
    refine ⟨hround hbody ih, fun hwatched => Bool.eq_false_iff.mpr (fun hnullable => ?_)⟩
    subst hwatched
    have hback : p.Edge _ .idle q.address := Program.edge_of_instr hjump List.mem_cons_self
    exact hp.not_slips hback
      (.head (Program.edge_greed hsplit (Or.inl rfl)) (slips_loadedAt hnullable hbody))
  | plus watched a greed ih =>
    obtain ⟨hbody, hsplit, _⟩ := loadedAt_plus.mp hc
    refine ⟨hround hbody ih, fun hwatched => Bool.eq_false_iff.mpr (fun hnullable => ?_)⟩
    subst hwatched
    exact hp.not_slips (Program.edge_greed hsplit (Or.inl rfl)) (slips_loadedAt hnullable hbody)

theorem progressive_iff (c : Core) (captures : Nat) :
    (c.program captures).Progressive ↔ c.Watchful :=
  ⟨fun hp => watchful_of_progressive hp (loadedAt_program c captures).1,
    fun hwatchful => progressive_program hwatchful captures⟩

end Core

namespace Program

open ByteRegex.Expr (alternate)

variable {limit : Nat} {e : Expr} {p : Program}

/-- The program of an expression makes progress on every cycle, exactly if every round that is not
watched reads something. So it does unless there is an alternation without alternatives in the
expression. -/
theorem progressive_ofPattern (h : Program.ofPattern limit (.ofExpr e) = .ok p) :
    (p.Progressive ↔ e.core.Watchful) ∧ (alternate [] ∉ e.parts → p.Progressive) := by
  obtain ⟨_, rfl⟩ := eq_program_of_ofPattern h
  have hiff : ((Pattern.ofExpr e).core.program e.maxGroup).Progressive ↔ e.core.Watchful :=
    (Core.progressive_iff _ _).trans ⟨fun h => h.2.1, fun h => ⟨trivial, h, trivial⟩⟩
  exact ⟨hiff, fun hparts => hiff.mpr (Expr.spelledOut_of_parts hparts).watchful⟩

/-- A lazy loop in a greedy one. The rounds of the outer one may read nothing, and are watched. -/
theorem progressive_nested_loops : ∃ p,
    Program.ofPattern 16 (.ofExpr (.star (.star (.byte 97) .lazy) .greedy)) = .ok p ∧
      p.Progressive ∧ p.Walk 1 [.idle, .idle, .idle, .advances, .idle] 1 := by
  have hprogram := ofPattern_eq 16 (.ofExpr (.star (.star (.byte 97) .lazy) .greedy))
  rw [if_pos (by decide)] at hprogram
  refine ⟨_, hprogram, (progressive_ofPattern hprogram).2 (by simp [Expr.parts]), ?_⟩
  exact .cons ⟨.split 0 2 8, rfl, List.mem_cons_self⟩
    (.cons ⟨.roundStart 0, rfl, List.mem_cons_self⟩
    (.cons ⟨.split 1 6 4, rfl, List.mem_cons_self⟩
    (.cons ⟨.roundEnd 0 8, rfl, List.mem_cons_self⟩
    (.cons ⟨.jump 1, rfl, List.mem_cons_self⟩ .nil))))

/-- An empty alternation has no code, but a loop around one is not watched: the program goes round
between the split and the jump without reading anything. -/
theorem not_progressive_empty_alternation : ∃ p,
    Program.ofPattern 16 (.ofExpr (.star (.alternate []) .greedy)) = .ok p ∧ ¬p.Progressive := by
  have hprogram := ofPattern_eq 16 (.ofExpr (.star (.alternate []) .greedy))
  rw [if_pos (by decide)] at hprogram
  refine ⟨_, hprogram, fun hprogressive => ?_⟩
  obtain ⟨kind, hkind, hreads⟩ := hprogressive 1 [.idle, .idle]
    (.cons ⟨.split 0 2 3, rfl, List.mem_cons_self⟩ (.cons ⟨.jump 1, rfl, List.mem_cons_self⟩ .nil))
    (List.cons_ne_nil _ _)
  exact hreads (List.eq_of_mem_replicate (n := 2) hkind)

end Program

end ByteRegex
