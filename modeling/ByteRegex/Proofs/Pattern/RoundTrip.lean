import ByteRegex.Proofs.Pattern.Tokens

/-!
# Reading back what is written

The text of an expression in normal form denotes that expression and no other one, whatever stands
around it: a piece becomes the latest piece of the branch that is being read, a branch fills an
empty one, and the content of a group fills an empty level. The number of a group is the next one
where it opens. The main statement is `Pattern.ofText_text`.
-/

namespace ByteRegex

namespace PatternReader

variable {limits : PatternLimits} {r r' : PatternReader} {nesting : Nat}
    {indices indices' : List Nat}

/-- The reader stands between pieces, has room for so many groups inside one another, and would give
these indices to the capturing groups that open next. -/
structure Ready (limits : PatternLimits) (r : PatternReader) (nesting : Nat) (indices : List Nat) :
    Prop where
  mode : r.mode = .pieces
  nesting : r.groups.length + nesting ≤ limits.maxNesting
  indices : indices = List.range' (r.captures + 1) indices.length

def reached (r : PatternReader) (level : Level) (n : Nat) : PatternReader :=
  { r with mode := .pieces, level := level, captures := r.captures + n }

theorem reached_level (hmode : r.mode = .pieces) : r.reached r.level 0 = r := by
  obtain ⟨pos, mode, level, groups, captures⟩ := r
  obtain rfl : mode = .pieces := hmode
  rfl

theorem Consumes.then {a b : List UInt8} {level level' : Level} {n n' : Nat}
    (ha : Consumes limits r a (r.reached level n))
    (hb : Consumes limits { r.reached level n with pos := r.pos + a.length } b
      ({ r.reached level n with pos := r.pos + a.length }.reached level' n')) :
    Consumes limits r (a ++ b) (r.reached level' (n + n')) := by
  unfold reached at ha hb ⊢
  rw [← Nat.add_assoc]
  exact ha.append hb

theorem Ready.mono (h : Ready limits r nesting indices) {n : Nat} (hn : n ≤ nesting) :
    Ready limits r n indices :=
  ⟨h.mode, Nat.le_trans (Nat.add_le_add_left hn _) h.nesting, h.indices⟩

theorem range'_of_append {start : Nat}
    (h : indices ++ indices' = List.range' start (indices ++ indices').length) :
    indices = List.range' start indices.length ∧
      indices' = List.range' (start + indices.length) indices'.length := by
  rw [List.length_append, ← List.range'_append_1] at h
  exact List.append_inj h List.length_range'.symm

theorem Ready.left (h : Ready limits r nesting (indices ++ indices')) :
    Ready limits r nesting indices :=
  ⟨h.mode, h.nesting, (range'_of_append h.indices).1⟩

/-- After the first of two stretches of the text the reader is ready for the second. -/
theorem Ready.right (h : Ready limits r nesting (indices ++ indices')) (level : Level) (pos : Nat) :
    Ready limits { r.reached level indices.length with pos := pos } nesting indices' := by
  refine ⟨rfl, h.nesting, ?_⟩
  have hindices := (range'_of_append h.indices).2
  rwa [Nat.add_right_comm] at hindices

/-- A parenthesis that is not followed by a question mark opens a capturing group. No text that can
be read as its content starts with a question mark. -/
theorem Consumes.capturing {p : Nat} {c : UInt8} {bytes : List UInt8} (hmode : r.mode = .opened p)
    (h : Consumes limits (r.enterCapturing p) (c :: bytes) r') :
    Consumes limits r (c :: bytes) r' := by
  unfold Consumes at h ⊢
  rw [List.foldlM_cons] at h ⊢
  by_cases hc : c = '?'.toUInt8
  · -- From inside the group the question mark is a quantifier without operand.
    obtain rfl := hc
    have herror :
        (r.enterCapturing p).feed limits '?'.toUInt8 = .error (.danglingQuantifier r.pos) := rfl
    rw [herror] at h
    cases h
  · have hfeed : r.feed limits c = (r.enterCapturing p).feed limits c := by
      simp only [feed, feedByte, hmode, if_neg hc]
      rfl
    rw [hfeed]
    exact h

theorem consumes_closing {e : Expr} {g : OpenGroup} {groups : List OpenGroup}
    (hmode : r.mode = .pieces) (hclose : r.level.close = .ok e) (hgroups : r.groups = g :: groups) :
    Consumes limits r [')'.toUInt8]
      { r with level := g.around.push (.group e g.index), groups := groups } := by
  refine consumes_single ((feedByte_pieces hmode _).trans ?_)
  show r.leave = _
  simp only [leave, hclose, hgroups]
  rfl

theorem consumes_bar {e : Expr} (hmode : r.mode = .pieces)
    (hclose : r.level.branch.close? = some e) :
    Consumes limits r ['|'.toUInt8]
      { r with level :=
        { complete := e :: r.level.complete, start := r.pos + 1, branch := .empty } } := by
  refine consumes_single ((feedByte_pieces hmode _).trans ?_)
  show (do let level ← r.level.nextBranch (r.pos + 1); return { r with level := level }) = _
  simp only [Level.nextBranch, hclose]
  rfl

end PatternReader

theorem Branch.close?_of_two_le {branch : Branch} (h : 2 ≤ branch.exprs.length) :
    branch.close? = some (.concat branch.exprs.reverse) := by
  unfold close?
  split
  · next hexprs =>
    rw [hexprs] at h
    exact absurd h (Nat.not_succ_le_zero 1)
  · next e hexprs =>
    rw [hexprs] at h
    exact absurd h (Nat.not_succ_le_self 1)
  · rfl

namespace Quantifier

theorem of_normal_apply {q : Quantifier} {e : Expr} {greed : Greed} (h : (q.apply e greed).Normal) :
    e.isOperand = true ∧ q.Ordered := by
  cases q with
  | star => cases h with | star _ _ hoperand => exact ⟨hoperand, trivial⟩
  | plus => cases h with | plus _ _ hoperand => exact ⟨hoperand, trivial⟩
  | optional => cases h with | optional _ _ hoperand => exact ⟨hoperand, trivial⟩
  | repeated min max => cases h with | repeated _ _ hoperand hbounds => exact ⟨hoperand, hbounds⟩

theorem mem_children_apply (q : Quantifier) {e : Expr} {greed : Greed} :
    e ∈ (q.apply e greed).children := by
  cases q <;> exact List.mem_cons_self

theorem written_apply (q : Quantifier) (e : Expr) (greed : Greed) :
    (q.apply e greed).written = e.written ++ q.written ++ greed.written := by
  cases q <;> rfl

theorem nesting_apply (q : Quantifier) (e : Expr) (greed : Greed) :
    (q.apply e greed).nesting = e.nesting := by
  cases q <;> rfl

end Quantifier

namespace Expr

open PatternReader

variable {limits : PatternLimits} {e : Expr} {es : List Expr}

/-- The text is read as one more piece of the branch. -/
def ReadsPiece (limits : PatternLimits) (e : Expr) : Prop :=
  ∀ r, Ready limits r e.nesting e.indices →
    Consumes limits r e.written (r.reached (r.level.add e.piece) e.indices.length)

def ReadsBranch (limits : PatternLimits) (e : Expr) : Prop :=
  ∀ r, Ready limits r e.nesting e.indices → r.level.branch = .empty →
    ∃ branch, branch.close? = some e ∧
      Consumes limits r e.written (r.reached { r.level with branch := branch } e.indices.length)

def ReadsContent (limits : PatternLimits) (e : Expr) : Prop :=
  ∀ r, Ready limits r e.nesting e.indices → r.level.branch = .empty → r.level.complete = [] →
    ∃ level, level.close = .ok e ∧ Consumes limits r e.written (r.reached level e.indices.length)

theorem ReadsPiece.readsBranch (h : ReadsPiece limits e) : ReadsBranch limits e := by
  intro r hready hbranch
  refine ⟨.pieces [] e.piece, ?_, ?_⟩
  · rw [Branch.close?, Branch.exprs, expr_piece]
  · have hlevel : r.level.add e.piece = { r.level with branch := .pieces [] e.piece } := by
      rw [Level.add, hbranch]
      rfl
    exact hlevel ▸ h r hready

theorem ReadsBranch.readsContent (h : ReadsBranch limits e) : ReadsContent limits e := by
  intro r hready hbranch hcomplete
  obtain ⟨branch, hclose, hreads⟩ := h r hready hbranch
  refine ⟨{ r.level with branch := branch }, ?_, hreads⟩
  simp only [Level.close, hclose, hcomplete]

/-- One piece after another. -/
theorem consumes_pieces (h : ∀ e ∈ es, ReadsPiece limits e) {r : PatternReader}
    (hready : Ready limits r (nestingAll es) (indicesAll es)) :
    ∃ branch, branch.exprs = es.reverse ++ r.level.branch.exprs ∧
      Consumes limits r (es.flatMap written)
        (r.reached { r.level with branch := branch } (indicesAll es).length) := by
  induction es generalizing r with
  | nil => exact ⟨r.level.branch, rfl, (reached_level hready.mode).symm ▸ consumes_nil r⟩
  | cons e es ih =>
    have hfirst := h e List.mem_cons_self r (hready.left.mono (Nat.le_max_left _ _))
    have hready' := (hready.right (r.level.add e.piece) (r.pos + e.written.length)).mono
      (Nat.le_max_right _ _)
    obtain ⟨branch, hexprs, hrest⟩ := ih (fun d hd => h d (List.mem_cons_of_mem e hd)) hready'
    refine ⟨branch, ?_, ?_⟩
    · rw [hexprs, List.reverse_cons, List.append_assoc, List.singleton_append]
      show es.reverse ++ e.piece.expr :: r.level.branch.exprs = _
      rw [expr_piece]
    · rw [indicesAll, List.length_append]
      exact hfirst.then hrest

/-- One branch after another, with bars between them. -/
theorem consumes_branches (h : ∀ e ∈ es, ReadsBranch limits e) (hes : es ≠ []) {r : PatternReader}
    (hready : Ready limits r (nestingAll es) (indicesAll es)) (hbranch : r.level.branch = .empty) :
    ∃ level e, level.branch.close? = some e ∧ e :: level.complete = es.reverse ++ r.level.complete ∧
      Consumes limits r (alternate es).written (r.reached level (indicesAll es).length) := by
  induction es generalizing r with
  | nil => exact absurd rfl hes
  | cons e es ih =>
    obtain ⟨branch, hclose, hfirst⟩ :=
      h e List.mem_cons_self r (hready.left.mono (Nat.le_max_left _ _)) hbranch
    cases es with
    | nil =>
      rw [written_alternate_singleton, indicesAll, indicesAll, List.append_nil]
      exact ⟨{ r.level with branch := branch }, e, hclose, rfl, hfirst⟩
    | cons d es =>
      -- The bar is read together with the branch before it, so that the rest starts with an empty
      -- branch.
      let next : Level :=
        { complete := e :: r.level.complete
          start := r.pos + e.written.length + 1
          branch := .empty }
      have hbar :
          Consumes limits r (e.written ++ ['|'.toUInt8]) (r.reached next e.indices.length) :=
        hfirst.append (consumes_bar rfl hclose)
      have hready' := (hready.right next (r.pos + (e.written ++ ['|'.toUInt8]).length)).mono
        (Nat.le_max_right _ _)
      obtain ⟨level, last, hlast, hcomplete, hrest⟩ :=
        ih (fun e' he' => h e' (List.mem_cons_of_mem e he')) (List.cons_ne_nil d es) hready' rfl
      refine ⟨level, last, hlast, ?_, ?_⟩
      · rw [hcomplete, List.reverse_cons (a := e), List.append_assoc]
        rfl
      · rw [written_alternate_cons_cons, List.append_cons, indicesAll, List.length_append]
        exact hbar.then hrest

/-- The content of a group and the parenthesis that closes it. -/
theorem ReadsContent.closed (h : ReadsContent limits e) {r : PatternReader}
    (hready : Ready limits r e.nesting e.indices) {start : Nat} (hlevel : r.level = .opened start)
    {g : OpenGroup} {groups : List OpenGroup} (hgroups : r.groups = g :: groups) :
    Consumes limits r (e.written ++ [')'.toUInt8])
      ({ r with groups := groups }.reached
        (g.around.push (.group e g.index)) e.indices.length) := by
  obtain ⟨level, hclose, hreads⟩ := h r hready (hlevel ▸ rfl) (hlevel ▸ rfl)
  exact hreads.append (consumes_closing rfl hclose hgroups)

theorem ReadsContent.readsPiece_group (h : ReadsContent limits e) (index : Option Nat) :
    ReadsPiece limits (group e index) := by
  intro r hready
  have hroom : r.groups.length < limits.maxNesting :=
    Nat.lt_of_lt_of_le (Nat.lt_add_of_pos_right (Nat.succ_pos _)) hready.nesting
  have hnesting : r.groups.length + 1 + e.nesting ≤ limits.maxNesting := by
    have := hready.nesting
    rw [nesting] at this
    omega
  have hopening : r.feedByte limits '('.toUInt8 = .ok { r with mode := .opened r.pos } :=
    (feedByte_pieces hready.mode _).trans (if_neg (Nat.not_le.mpr hroom))
  cases index with
  | none =>
    have hmark : feedByte limits { r with mode := .opened r.pos, pos := r.pos + 1 } '?'.toUInt8 =
        .ok { r with mode := .marked r.pos, pos := r.pos + 1 } := rfl
    have hcolon :
        feedByte limits { r with mode := .marked r.pos, pos := r.pos + 1 + 1 } ':'.toUInt8 =
        .ok (enter { r with pos := r.pos + 1 + 1 } r.pos (r.pos + 1 + 1 + 1) none) := rfl
    have hcontent := h.closed
      (r := { r.enter r.pos (r.pos + 1 + 1 + 1) none with pos := r.pos + 1 + 1 + 1 })
      ⟨rfl, hnesting, hready.indices⟩ rfl rfl
    exact .cons hopening (.cons hmark (.cons hcolon hcontent))
  | some index =>
    have hindices : index :: e.indices = List.range' (r.captures + 1) (e.indices.length + 1) :=
      hready.indices
    rw [List.range'_succ, List.cons.injEq] at hindices
    obtain ⟨rfl, hindices⟩ := hindices
    have hcontent := h.closed
      (r := enterCapturing { r with mode := .opened r.pos, pos := r.pos + 1 } r.pos)
      ⟨rfl, hnesting, hindices⟩ rfl rfl
    -- Nothing tells a capturing group but the first byte of its content, which is read from inside
    -- already.
    obtain ⟨c, bytes, hbytes⟩ := List.exists_cons_of_ne_nil
      (List.append_ne_nil_of_right_ne_nil e.written (List.cons_ne_nil ')'.toUInt8 []))
    have hlength : (group e (some (r.captures + 1))).indices.length = 1 + e.indices.length :=
      Nat.add_comm _ _
    rw [hlength, reached, ← Nat.add_assoc, written, hbytes]
    rw [hbytes] at hcontent
    exact .cons hopening (.capturing rfl hcontent)

/-- What has no parts and adds one piece is read as that piece. -/
theorem readsPiece_of_push (hoperand : e.isOperand = true) (hindices : e.indices = [])
    (h : ∀ r : PatternReader, r.mode = .pieces → Consumes limits r e.written (r.push e)) :
    ReadsPiece limits e := by
  intro r hready
  rw [piece_of_isOperand hoperand, hindices]
  exact h r hready.mode

/-- An operand with a quantifier behind it. -/
theorem ReadsPiece.apply (h : ReadsPiece limits e) (hoperand : e.isOperand = true) {q : Quantifier}
    (hordered : q.Ordered) (hwithin : q.Within limits) (greed : Greed) :
    ReadsPiece limits (q.apply e greed) := by
  intro r hready
  rw [q.nesting_apply, Quantifier.indices_apply] at hready
  rw [q.written_apply, Quantifier.indices_apply]
  have hreads := h r hready
  rw [piece_of_isOperand hoperand] at hreads
  have hquantified : Consumes limits r (e.written ++ q.written)
      (r.reached (r.level.add (.quantified e q)) e.indices.length) :=
    hreads.append (consumes_quantifier rfl rfl hordered hwithin)
  exact hquantified.append (consumes_greed rfl rfl greed)

/-- How the text of an expression can be read, which depends on where it can stand. -/
structure Rereads (limits : PatternLimits) (e : Expr) : Prop where
  piece : e.isPiece = true → ReadsPiece limits e
  branch : e.isBranch = true → ReadsBranch limits e
  content : ReadsContent limits e

theorem ReadsPiece.rereads (h : ReadsPiece limits e) : Rereads limits e :=
  ⟨fun _ => h, fun _ => h.readsBranch, h.readsBranch.readsContent⟩

theorem ReadsBranch.rereads (h : ReadsBranch limits e) (hpiece : e.isPiece = false) :
    Rereads limits e :=
  ⟨fun hpiece' => absurd (hpiece.symm.trans hpiece') Bool.false_ne_true, fun _ => h, h.readsContent⟩

theorem readsBranch_concat (hlength : 2 ≤ es.length) (h : ∀ e ∈ es, ReadsPiece limits e) :
    ReadsBranch limits (concat es) := by
  intro r hready hbranch
  obtain ⟨branch, hexprs, hreads⟩ := consumes_pieces h hready
  rw [hbranch, Branch.exprs, List.append_nil] at hexprs
  refine ⟨branch, ?_, written_concat es ▸ hreads⟩
  rw [Branch.close?_of_two_le (by rwa [hexprs, List.length_reverse]), hexprs, List.reverse_reverse]

theorem readsContent_alternate (hlength : 2 ≤ es.length) (h : ∀ e ∈ es, ReadsBranch limits e) :
    ReadsContent limits (alternate es) := by
  intro r hready hbranch hcomplete
  have hes : es ≠ [] := List.ne_nil_of_length_pos (Nat.lt_of_lt_of_le (by decide) hlength)
  obtain ⟨level, last, hclose, hall, hreads⟩ := consumes_branches h hes hready hbranch
  rw [hcomplete, List.append_nil] at hall
  refine ⟨level, ?_, hreads⟩
  simp only [Level.close, hclose]
  split
  · next hnil =>
    rw [hnil] at hall
    have hone := congrArg List.length hall
    rw [List.length_reverse] at hone
    exact absurd hone (Nat.ne_of_lt hlength)
  · rw [hall, List.reverse_reverse]

theorem rereads_apply {q : Quantifier} {greed : Greed} (h : (q.apply e greed).Writable limits)
    (ih : e.Writable limits → Rereads limits e) : Rereads limits (q.apply e greed) := by
  obtain ⟨hoperand, hordered⟩ := Quantifier.of_normal_apply h.normal
  have hpiece := (ih (h.of_mem_children q.mem_children_apply)).piece (isPiece_of_isOperand hoperand)
  refine (hpiece.apply hoperand hordered ?_ greed).rereads
  rintro min max rfl
  exact h.bounds e min max greed List.mem_cons_self

/-- Whatever can be written is read, wherever it can stand. The induction is on the expression; a
part of it is read from every reader that is ready, so it does not matter what was read before. -/
theorem Writable.rereads (h : e.Writable limits) : Rereads limits e := by
  induction e using Expr.induct with
  | byte b => exact (readsPiece_of_push rfl rfl (fun r hr => consumes_byte hr b)).rereads
  | any => exact (readsPiece_of_push rfl rfl (fun r hr => consumes_mark hr rfl)).rereads
  | oneOf s =>
    exact (readsPiece_of_push rfl rfl
      (fun r hr => consumes_set hr (h.sets s List.mem_cons_self).1)).rereads
  | textStart => exact (readsPiece_of_push rfl rfl (fun r hr => consumes_mark hr rfl)).rereads
  | textEnd => exact (readsPiece_of_push rfl rfl (fun r hr => consumes_mark hr rfl)).rereads
  | concat es ih =>
    cases h.normal with
    | concat hlength hes hpieces =>
      have hchildren : ∀ e ∈ es, ReadsPiece limits e :=
        fun e he => (ih e he (h.of_mem_children he)).piece (hpieces e he)
      exact (readsBranch_concat hlength hchildren).rereads rfl
  | alternate es ih =>
    cases h.normal with
    | alternate hlength hes hbranches =>
      have hchildren : ∀ e ∈ es, ReadsBranch limits e :=
        fun e he => (ih e he (h.of_mem_children he)).branch (hbranches e he)
      exact ⟨nofun, nofun, readsContent_alternate hlength hchildren⟩
  | star e greed ih => exact rereads_apply (q := .star) h ih
  | plus e greed ih => exact rereads_apply (q := .plus) h ih
  | optional e greed ih => exact rereads_apply (q := .optional) h ih
  | repeated e min max greed ih => exact rereads_apply (q := .repeated min max) h ih
  | group e index ih =>
    exact ((ih (h.of_mem_children List.mem_cons_self)).content.readsPiece_group index).rereads

end Expr

namespace Pattern

variable {limits : PatternLimits} {e : Expr} {n : Nat}

/-- The bytes that write an expression down denote it. -/
theorem ofBytes_written (h : e.Writable limits) (hindices : e.indices = List.range' 1 n) :
    ofBytes limits e.written = .ok { root := e, captures := n } := by
  have hlength : e.indices.length = n := by rw [hindices, List.length_range']
  have hready : PatternReader.Ready limits .initial e.nesting e.indices :=
    ⟨rfl, (Nat.zero_add _).symm ▸ h.nesting, hlength.symm ▸ hindices⟩
  obtain ⟨level, hclose, hreads⟩ := h.rereads.content .initial hready rfl rfl
  unfold PatternReader.Consumes at hreads
  rw [ofBytes, hreads, hlength]
  show (do let root ← level.close; return ({ root := root, captures := 0 + n } : Pattern)) = _
  rw [hclose, Nat.zero_add]
  rfl

/-- Reading undoes writing. -/
theorem ofText_text (h : e.Writable limits) (hindices : e.indices = List.range' 1 n) :
    ofText limits e.text = .ok { root := e, captures := n } := by
  rw [ofText, h.toUTF8_text]
  exact ofBytes_written h hindices

/-- A set with a dash at its end, a lazy quantifier, a bar, and a group that is repeated. -/
theorem ofText_text_set_and_group :
    let e : Expr := .star (.group (.alternate [.oneOf (.range '+'.toUInt8 '-'.toUInt8),
      .repeated (.byte '.'.toUInt8) 2 none .lazy]) (some 1)) .greedy
    e.text = "([+-\\-]|\\.\x7b2,\x7d?)*" ∧ (e.Writable {} ∧ e.indices = List.range' 1 1) ∧
      ofText {} e.text = .ok { root := e, captures := 1 } := by
  intro e
  have hset : (ByteSet.range '+'.toUInt8 '-'.toUInt8) ≠ .empty ∧
      ∀ b, (ByteSet.range '+'.toUInt8 '-'.toUInt8).contains b = true → b < 128 := by
    refine ⟨by decide, fun b hb => ?_⟩
    rw [ByteSet.contains_range, Bool.and_eq_true] at hb
    exact UInt8.lt_of_le_of_lt (of_decide_eq_true hb.2) (by decide)
  have hwritable : e.Writable {} := by
    refine ⟨?_, fun d min max greed hd => ?_, by decide, fun b hb => ?_, fun s hs => ?_⟩
    · refine .star _ (.group _ (.alternate (by decide) ?_ ?_)) rfl
      · exact List.forall_mem_cons.mpr
          ⟨.oneOf _, List.forall_mem_singleton.mpr (.repeated _ (.byte _) rfl nofun)⟩
      · exact List.forall_mem_cons.mpr ⟨rfl, List.forall_mem_singleton.mpr rfl⟩
    · obtain ⟨-, rfl, rfl, -⟩ : d = .byte '.'.toUInt8 ∧ min = 2 ∧ max = none ∧ greed = .lazy := by
        simpa [e, Expr.parts, Expr.partsAll] using hd
      exact ⟨by decide, nofun⟩
    · obtain rfl : b = '.'.toUInt8 := by
        simpa [e, Expr.parts, Expr.partsAll] using hb
      decide
    · obtain rfl : s = .range '+'.toUInt8 '-'.toUInt8 := by
        simpa [e, Expr.parts, Expr.partsAll] using hs
      exact hset
  exact ⟨by decide +kernel, ⟨hwritable, rfl⟩, ofText_text hwritable rfl⟩

end Pattern

end ByteRegex
