import ByteRegex.Pattern.Basic
import ByteRegex.Proofs.Core.Parts
import ByteRegex.Proofs.Pattern.Labels

/-!
# What outlines tell

The line of a node tells how many levels there are above it, and the label. Since parents come
before their parts, this is enough to find the parts of every node again, so that an outline is the
outline of one pattern only: `Pattern.outline_inj`. Which of the levels above have more nodes to
come does not matter.
-/

namespace ByteRegex

/-! ## Rows -/

structure Row where
  depth : Nat
  label : String

namespace Expr

mutual

def rows (depth : Nat) (e : Expr) : List Row :=
  ⟨depth, e.label⟩ :: match e with
    | byte _ | any | oneOf _ | textStart | textEnd => []
    | concat es | alternate es => rowsAll (depth + 1) es
    | star e _ | plus e _ | optional e _ | repeated e _ _ _ | group e _ => e.rows (depth + 1)

def rowsAll (depth : Nat) : List Expr → List Row
  | [] => []
  | e :: es => e.rows depth ++ rowsAll depth es

end

variable {e e' : Expr} {es es' : List Expr} {row : Row} {rest rest' : List Row} {depth : Nat}

theorem rows_eq (depth : Nat) (e : Expr) :
    e.rows depth = ⟨depth, e.label⟩ :: rowsAll (depth + 1) e.children := by
  cases e with
  | byte b | any | oneOf s | textStart | textEnd => rw [rows, children, rowsAll]
  | concat es | alternate es => rw [rows, children]
  | star e greed | plus e greed | optional e greed | repeated e min max greed | group e index =>
    rw [rows, children, rowsAll, rowsAll, List.append_nil]

theorem rowsAll_eq_flatMap (depth : Nat) (es : List Expr) :
    rowsAll depth es = es.flatMap (rows depth) := by
  induction es with
  | nil => rfl
  | cons e es ih => rw [rowsAll, ih, List.flatMap_cons]

theorem unbroken_of_mem_rows (h : row ∈ e.rows depth) : Text.Unbroken row.label := by
  induction e using induct_children generalizing depth with
  | h e ih =>
    rw [rows_eq, List.mem_cons, rowsAll_eq_flatMap, List.mem_flatMap] at h
    rcases h with rfl | ⟨d, hd, h⟩
    · exact e.unbroken_label
    · exact ih d hd h

theorem head?_rows_append (e : Expr) (depth : Nat) (rest : List Row) :
    (e.rows depth ++ rest).head? = some ⟨depth, e.label⟩ := by
  rw [rows_eq]
  rfl

theorem depth_le_of_mem_head? (hrest : ∀ row ∈ rest.head?, row.depth < depth) :
    ∀ row ∈ (rowsAll depth es ++ rest).head?, row.depth ≤ depth := by
  intro row hrow
  cases es with
  | nil => exact Nat.le_of_lt (hrest row hrow)
  | cons e es =>
    rw [rowsAll, List.append_assoc, head?_rows_append] at hrow
    exact Nat.le_of_eq (congrArg Row.depth (Option.some.inj hrow)).symm

theorem ne_rowsAll_cons_append (hrest : ∀ row ∈ rest.head?, row.depth < depth) (e : Expr)
    (es : List Expr) (rest' : List Row) : rest ≠ rowsAll depth (e :: es) ++ rest' := by
  rintro rfl
  rw [rowsAll, List.append_assoc, head?_rows_append] at hrest
  exact Nat.lt_irrefl depth (hrest _ rfl)

/-- Rows of a list end where a row of a higher level follows, or none. -/
theorem rowsAll_append_inj
    (ih : ∀ e ∈ es, ∀ {e' rest rest' depth}, (∀ row ∈ rest.head?, row.depth ≤ depth) →
      (∀ row ∈ rest'.head?, row.depth ≤ depth) → e.rows depth ++ rest = e'.rows depth ++ rest' →
        e = e' ∧ rest = rest')
    (hrest : ∀ row ∈ rest.head?, row.depth < depth)
    (hrest' : ∀ row ∈ rest'.head?, row.depth < depth)
    (h : rowsAll depth es ++ rest = rowsAll depth es' ++ rest') : es = es' ∧ rest = rest' := by
  induction es generalizing es' with
  | nil =>
    cases es' with
    | nil => exact ⟨rfl, h⟩
    | cons e' es' => exact absurd h (ne_rowsAll_cons_append hrest e' es' rest')
  | cons e es ihs =>
    cases es' with
    | nil => exact absurd h.symm (ne_rowsAll_cons_append hrest' e es rest)
    | cons e' es' =>
      rw [rowsAll, rowsAll, List.append_assoc, List.append_assoc] at h
      obtain ⟨rfl, hes⟩ :=
        ih e List.mem_cons_self (depth_le_of_mem_head? hrest) (depth_le_of_mem_head? hrest') h
      obtain ⟨rfl, hrests⟩ := ihs (fun d hd => ih d (List.mem_cons_of_mem e hd)) hes
      exact ⟨rfl, hrests⟩

/-- Rows of an expression end where a row of its level or of a higher one follows, or none. -/
theorem rows_append_inj (hrest : ∀ row ∈ rest.head?, row.depth ≤ depth)
    (hrest' : ∀ row ∈ rest'.head?, row.depth ≤ depth)
    (h : e.rows depth ++ rest = e'.rows depth ++ rest') : e = e' ∧ rest = rest' := by
  induction e using induct_children generalizing e' depth rest rest' with
  | h e ih =>
    rw [rows_eq, rows_eq, List.cons_append, List.cons_append, List.cons.injEq, Row.mk.injEq] at h
    obtain ⟨⟨_, hlabel⟩, hparts⟩ := h
    obtain ⟨hchildren, hrests⟩ := rowsAll_append_inj ih
      (fun row hrow => Nat.lt_succ_of_le (hrest row hrow))
      (fun row hrow => Nat.lt_succ_of_le (hrest' row hrow)) hparts
    exact ⟨eq_of_label hlabel hchildren, hrests⟩

theorem rows_inj (h : e.rows depth = e'.rows depth) : e = e' := by
  have hnone : ∀ row ∈ ([] : List Row).head?, row.depth ≤ depth := nofun
  exact (rows_append_inj hnone hnone (by rw [h])).1

end Expr

/-! ## Lines -/

/-- The blocks that the lines of an outline are drawn with, of three columns each: rails for the
levels above a node, and marks for its own level. -/
structure Drawing where
  rails : List String
  marks : List String
  length_eq : ∀ block ∈ rails ++ marks, block.length = 3
  apart : ∀ mark ∈ marks, mark ∉ rails

namespace Drawing

/-- Blocks that show which levels have more nodes to come. -/
def boxes : Drawing where
  rails := ["   ", " │ "]
  marks := [" ├─", " └─"]
  length_eq := by decide
  apart := by decide

/-- The text has one line for each row, with a rail for every level above, a mark, a blank and the
label. -/
inductive Draws (d : Drawing) : List Row → (text : String) → Prop where
  | nil : Draws d [] ""
  | cons {row rows rails mark text} (hrails : ∀ rail ∈ rails, rail ∈ d.rails)
      (hdepth : rails.length = row.depth) (hmark : mark ∈ d.marks) (h : Draws d rows text) :
      Draws d (row :: rows) (String.join rails ++ mark ++ " " ++ row.label ++ "\n" ++ text)

variable {d : Drawing} {rows rows' : List Row} {text text' : String}

theorem Draws.append (h : d.Draws rows text) (h' : d.Draws rows' text') :
    d.Draws (rows ++ rows') (text ++ text') := by
  induction h with
  | nil => rwa [List.nil_append, String.empty_append]
  | cons hrails hdepth hmark _ ih =>
    rw [List.cons_append, String.append_assoc]
    exact .cons hrails hdepth hmark ih

theorem block_append_inj {block block' : String} {rest rest' : List Char}
    (hblock : block ∈ d.rails ++ d.marks) (hblock' : block' ∈ d.rails ++ d.marks)
    (h : block.toList ++ rest = block'.toList ++ rest') : block = block' ∧ rest = rest' := by
  have hlength : block.toList.length = block'.toList.length := by
    rw [String.length_toList, String.length_toList, d.length_eq block hblock,
      d.length_eq block' hblock']
  obtain ⟨heq, hrest⟩ := List.append_inj h hlength
  exact ⟨String.toList_inj.mp heq, hrest⟩

theorem mark_append_ne_rail_append {mark rail : String} (hmark : mark ∈ d.marks)
    (hrail : rail ∈ d.rails) (rest rest' : List Char) :
    mark.toList ++ rest ≠ rail.toList ++ rest' := by
  intro h
  obtain ⟨rfl, _⟩ :=
    block_append_inj (List.mem_append_right d.rails hmark) (List.mem_append_left d.marks hrail) h
  exact d.apart mark hmark hrail

/-- The mark ends the rails, so that their number is known. -/
theorem rails_append_inj {rails rails' : List String} {mark mark' : String} {rest rest' : List Char}
    (hrails : ∀ rail ∈ rails, rail ∈ d.rails) (hrails' : ∀ rail ∈ rails', rail ∈ d.rails)
    (hmark : mark ∈ d.marks) (hmark' : mark' ∈ d.marks)
    (h : rails.flatMap String.toList ++ (mark.toList ++ rest) =
      rails'.flatMap String.toList ++ (mark'.toList ++ rest')) :
    rails.length = rails'.length ∧ rest = rest' := by
  induction rails generalizing rails' with
  | nil =>
    cases rails' with
    | nil =>
      have hmarks : ∀ mark ∈ d.marks, mark ∈ d.rails ++ d.marks :=
        fun _ => List.mem_append_right d.rails
      exact ⟨rfl, (block_append_inj (hmarks mark hmark) (hmarks mark' hmark') h).2⟩
    | cons rail' rails' =>
      rw [List.flatMap_nil, List.nil_append, List.flatMap_cons, List.append_assoc] at h
      exact absurd h (mark_append_ne_rail_append hmark (hrails' rail' List.mem_cons_self) _ _)
  | cons rail rails ih =>
    obtain ⟨hrail, hrails⟩ := List.forall_mem_cons.mp hrails
    cases rails' with
    | nil =>
      rw [List.flatMap_nil, List.nil_append, List.flatMap_cons, List.append_assoc] at h
      exact absurd h.symm (mark_append_ne_rail_append hmark' hrail _ _)
    | cons rail' rails' =>
      obtain ⟨hrail', hrails'⟩ := List.forall_mem_cons.mp hrails'
      rw [List.flatMap_cons, List.flatMap_cons, List.append_assoc, List.append_assoc] at h
      obtain ⟨_, hdeeper⟩ := block_append_inj (List.mem_append_left d.marks hrail)
        (List.mem_append_left d.marks hrail') h
      obtain ⟨hlength, hrest⟩ := ih hrails hrails' hdeeper
      exact ⟨congrArg (· + 1) hlength, hrest⟩

theorem toList_line (rails : List String) (mark label text : String) :
    (String.join rails ++ mark ++ " " ++ label ++ "\n" ++ text).toList =
      rails.flatMap String.toList ++
        (mark.toList ++ ' ' :: (label.toList ++ '\n' :: text.toList)) := by
  simp only [String.toList_append, String.toList_join, List.append_assoc]
  rfl

/-- The lines tell the rows, as long as no label goes on over a line break. -/
theorem Draws.unique (h : d.Draws rows text) (h' : d.Draws rows' text') (htext : text = text')
    (hrows : ∀ row ∈ rows, Text.Unbroken row.label)
    (hrows' : ∀ row ∈ rows', Text.Unbroken row.label) : rows = rows' := by
  have hlist := congrArg String.toList htext
  induction h generalizing rows' text' with
  | nil =>
    cases h' with
    | nil => rfl
    | cons => simp at hlist
  | @cons row rows _ _ text hrails hdepth hmark _ ih =>
    cases h' with
    | nil => simp at hlist
    | @cons row' rows' _ _ text' hrails' hdepth' hmark' h' =>
      rw [toList_line, toList_line] at hlist
      obtain ⟨hlength, hline⟩ := rails_append_inj hrails hrails' hmark hmark' hlist
      obtain ⟨hlabel, hlines⟩ := Text.append_cons_inj (hrows row List.mem_cons_self)
        (hrows' row' List.mem_cons_self) (List.cons.inj hline).2
      have hrow : row = row' :=
        congrArg₂ Row.mk (hdepth.symm.trans (hlength.trans hdepth')) (String.toList_inj.mp hlabel)
      rw [hrow, ih h' (String.toList_inj.mp hlines)
        (fun r hr => hrows r (List.mem_cons_of_mem row hr))
        (fun r hr => hrows' r (List.mem_cons_of_mem row' hr)) hlines]

end Drawing

/-! ## Outlines -/

namespace Expr

variable {e : Expr} {es : List Expr} {rails : List String} {depth : Nat}

theorem outlineTo_eq (text rail : String) (isLast : Bool) (e : Expr) :
    e.outlineTo text rail isLast =
      outlineAllTo (text ++ rail ++ branchMark isLast ++ " " ++ e.label ++ "\n")
        (railBelow rail isLast) e.children := by
  cases e with
  | byte b | any | oneOf s | textStart | textEnd => rw [outlineTo, children, outlineAllTo]
  | concat es | alternate es => rw [outlineTo, children]
  | star e greed | plus e greed | optional e greed | repeated e min max greed | group e index =>
    rw [outlineTo, children, outlineAllTo, outlineAllTo]
    rfl

theorem branchMark_mem (isLast : Bool) : branchMark isLast ∈ Drawing.boxes.marks := by
  cases isLast <;> decide

theorem railBelow_join (rails : List String) (isLast : Bool) :
    ∃ block ∈ Drawing.boxes.rails,
      railBelow (String.join rails) isLast = String.join (rails ++ [block]) := by
  refine ⟨if isLast then "   " else " │ ", ?_, ?_⟩
  · cases isLast <;> decide
  · rw [railBelow, String.join_append, String.join_cons, String.join_nil, String.append_empty]

theorem exists_outlineAllTo (ih : ∀ e ∈ es, ∀ {isLast}, ∃ lines,
      (∀ text, e.outlineTo text (String.join rails) isLast = text ++ lines) ∧
        Drawing.boxes.Draws (e.rows depth) lines) :
    ∃ lines, (∀ text, outlineAllTo text (String.join rails) es = text ++ lines) ∧
      Drawing.boxes.Draws (rowsAll depth es) lines := by
  induction es with
  | nil => exact ⟨"", fun text => String.append_empty.symm, .nil⟩
  | cons e es ihs =>
    obtain ⟨first, hfirst, hdrawn⟩ := ih e List.mem_cons_self
    obtain ⟨lines, hlines, hdrawns⟩ := ihs fun d hd => ih d (List.mem_cons_of_mem e hd)
    refine ⟨first ++ lines, fun text => ?_, hdrawn.append hdrawns⟩
    rw [outlineAllTo, hfirst, hlines, String.append_assoc]

/-- An expression adds the lines of its rows to whatever text there is. -/
theorem exists_outlineTo (hrails : ∀ rail ∈ rails, rail ∈ Drawing.boxes.rails)
    (hdepth : rails.length = depth) {isLast : Bool} :
    ∃ lines, (∀ text, e.outlineTo text (String.join rails) isLast = text ++ lines) ∧
      Drawing.boxes.Draws (e.rows depth) lines := by
  induction e using induct_children generalizing rails depth isLast with
  | h e ih =>
    obtain ⟨block, hblock, hbelow⟩ := railBelow_join rails isLast
    have hrailsBelow : ∀ rail ∈ rails ++ [block], rail ∈ Drawing.boxes.rails :=
      List.forall_mem_append.mpr ⟨hrails, List.forall_mem_singleton.mpr hblock⟩
    have hdepthBelow : (rails ++ [block]).length = depth + 1 := by
      rw [List.length_append, hdepth, List.length_singleton]
    obtain ⟨lines, hlines, hdrawn⟩ :=
      exists_outlineAllTo fun d hd => ih d hd hrailsBelow hdepthBelow
    refine ⟨String.join rails ++ branchMark isLast ++ " " ++ e.label ++ "\n" ++ lines,
      fun text => ?_, ?_⟩
    · rw [outlineTo_eq, hbelow, hlines]
      simp only [String.append_assoc]
    · rw [rows_eq]
      exact .cons hrails hdepth (branchMark_mem isLast) hdrawn

end Expr

namespace Pattern

/-- The text has a first line that tells the number of groups, and one line below for each node. -/
def DrawnWith (d : Drawing) (p : Pattern) (text : String) : Prop :=
  ∃ lines, text = " regexp (" ++ toString p.captures ++ " captures)\n" ++ lines ∧
    d.Draws (p.root.rows 0) lines

variable {p q : Pattern} {d : Drawing} {text : String}

theorem drawnWith_outline (p : Pattern) : p.DrawnWith .boxes p.outline := by
  have hrails : ∀ rail ∈ [], rail ∈ Drawing.boxes.rails := nofun
  obtain ⟨lines, hlines, hdrawn⟩ := Expr.exists_outlineTo (e := p.root) hrails rfl
  exact ⟨lines, hlines _, hdrawn⟩

theorem DrawnWith.unique (hp : p.DrawnWith d text) (hq : q.DrawnWith d text) : p = q := by
  obtain ⟨lines, htext, hdrawn⟩ := hp
  obtain ⟨lines', htext', hdrawn'⟩ := hq
  have hlist := congrArg String.toList (htext.symm.trans htext')
  simp only [String.toList_append, List.append_assoc] at hlist
  obtain ⟨hcaptures, hlines⟩ :=
    Text.toString_append_cons_inj (by decide) (List.append_cancel_left hlist)
  have hsame : lines = lines' := String.toList_inj.mp (List.append_cancel_left hlines)
  have hroot : p.root = q.root := Expr.rows_inj (hdrawn.unique hdrawn' hsame
    (fun row hrow => Expr.unbroken_of_mem_rows hrow)
    (fun row hrow => Expr.unbroken_of_mem_rows hrow))
  exact congrArg₂ Pattern.mk hroot hcaptures

/-- An outline loses nothing, and neither does any other drawing with blocks of three columns. -/
theorem outline_inj (p q : Pattern) :
    p.DrawnWith .boxes p.outline ∧
      (∀ d text, p.DrawnWith d text → q.DrawnWith d text → p = q) ∧
      (p.outline = q.outline ↔ p = q) := by
  refine ⟨p.drawnWith_outline, fun d text hp hq => hp.unique hq, fun h => ?_, congrArg outline⟩
  exact p.drawnWith_outline.unique (h ▸ q.drawnWith_outline)

/-- An empty sequence with something next to it does not look like a sequence of that. -/
theorem outline_concat_empty :
    let p := ofExpr (.alternate [.concat [], .star (.byte 97) .lazy])
    let q := ofExpr (.alternate [.concat [.star (.byte 97) .lazy]])
    let text := " regexp (0 captures)\n └─ alternate\n    ├─ concat\n" ++
      "    └─ star (lazy)\n       └─ literal 0x61 'a'\n"
    p.outline = text ∧ p.DrawnWith .boxes text ∧ ¬q.DrawnWith .boxes text := by
  intro p q text
  have houtline : p.outline = text := by decide +kernel
  have hdrawn : p.DrawnWith .boxes text := houtline ▸ (outline_inj p q).1
  refine ⟨houtline, hdrawn, fun hq => ?_⟩
  have hsame : p = q := (outline_inj p q).2.1 .boxes text hdrawn hq
  exact absurd (congrArg (·.root.children.length) hsame) (by decide)

end Pattern

end ByteRegex
