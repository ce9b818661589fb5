import ByteRegex.Exec.State
import Mathlib.Algebra.Group.Nat.Defs
import Mathlib.Logic.Relation

/-!
# Paths through programs

What a program can do from some point of a search on depends on little of the machine's state: the
address, the offset, and how many of the rounds around the address have not read anything. Such a
spot says which spots may come next. Captures are carried along by paths but decide nothing, and the
stack and the memory of the machine are about the order in which paths are tried.
-/

namespace ByteRegex

/-- Where captures start and end. -/
abbrev Slots := Array (Option Nat)

/-- Where a path is: the address of the next instruction, the offset in the subject, and the number
of rounds around the address, from the inside to the outside, that have not read anything. -/
structure Spot where
  address : Nat
  pos : Nat
  idle : Nat

/-- What the instruction at a spot does. -/
inductive Turn where
  | accept
  | fail
  | go (next : Spot)
  | save (slot : Nat) (next : Spot)
  | choose (first second : Spot)

def Turn.spots : Turn → List Spot
  | accept | fail => []
  | go next | save _ next => [next]
  | choose first second => [first, second]

namespace Spot

def goto (c : Spot) (address : Nat) : Spot := { c with address := address }

/-- Reads a byte that satisfies `accepts`. No round around the next address is idle then. -/
def read (c : Spot) (subject : ByteArray) (accepts : UInt8 → Bool) : Turn :=
  if h : c.pos < subject.size then
    if accepts subject[c.pos] then .go ⟨c.address + 1, c.pos + 1, 0⟩ else .fail
  else .fail

def require (c : Spot) (condition : Bool) : Turn :=
  if condition then .go (c.goto (c.address + 1)) else .fail

def obey (subject : ByteArray) (c : Spot) : Instr → Turn
  | .accept => .accept
  | .byte b => c.read subject (· == b)
  | .any => c.read subject (fun _ => true)
  | .oneOf set => c.read subject set.contains
  | .split _ first second => .choose (c.goto first) (c.goto second)
  | .jump target => .go (c.goto target)
  | .save slot => .save slot (c.goto (c.address + 1))
  | .textStart => c.require (c.pos == 0)
  | .textEnd => c.require (c.pos == subject.size)
  | .roundStart _ => .go ⟨c.address + 1, c.pos, c.idle + 1⟩
  | .roundEnd _ exit =>
    if c.idle = 0 then .go (c.goto (c.address + 1)) else .go ⟨exit, c.pos, c.idle - 1⟩

def turn (t : Task) (c : Spot) : Turn :=
  (t.program.instrs[c.address]?).elim .fail (c.obey t.subject)

variable {t : Task}

theorem turn_eq {c : Spot} {instr : Instr} (h : t.program.instrs[c.address]? = some instr) :
    c.turn t = c.obey t.subject instr := by
  rw [turn, h, Option.elim_some]

/-! ## Paths that come to an end -/

/-- Every path from the spot takes at most `n` instructions. -/
def EndsIn (t : Task) : (n : Nat) → Spot → Prop
  | 0, _ => False
  | n + 1, c => ∀ d ∈ (c.turn t).spots, EndsIn t n d

theorem EndsIn.mono {m n : Nat} {c : Spot} (h : EndsIn t m c) (hmn : m ≤ n) : EndsIn t n c := by
  induction m generalizing n c with
  | zero => exact h.elim
  | succ m ih =>
    obtain ⟨n, rfl⟩ : ∃ k, n = k + 1 := ⟨n - 1, by omega⟩
    exact fun d hd => ih (h d hd) (by omega)

def Precedes (t : Task) (c d : Spot) : Prop := d ∈ (c.turn t).spots

theorem precedes_of_turn {c d : Spot} {turn : Turn} (h : c.turn t = turn) (hd : d ∈ turn.spots) :
    Precedes t c d := by
  rw [Precedes, h]
  exact hd

theorem EndsIn.next {n : Nat} {c d : Spot} (h : EndsIn t n c) (hcd : Precedes t c d) :
    EndsIn t (n - 1) d := by
  cases n with
  | zero => exact h.elim
  | succ n => exact h d hcd

theorem exists_endsIn_next {c d : Spot} (h : ∃ n, EndsIn t n c) (hcd : Precedes t c d) :
    ∃ n, EndsIn t n d := by
  obtain ⟨n, hn⟩ := h
  exact ⟨n - 1, hn.next hcd⟩

/-- A path that comes to an end in any case does not come back to where it was. -/
theorem EndsIn.not_transGen {n : Nat} {c : Spot} (h : EndsIn t n c) :
    ¬Relation.TransGen (Precedes t) c c := by
  intro hc
  have hshorter : ∀ {m c d}, EndsIn t m c → Relation.TransGen (Precedes t) c d →
      EndsIn t (m - 1) d := by
    intro m c d hm hcd
    induction hcd with
    | single hb => exact hm.next hb
    | tail _ hb ih => exact (ih.next hb).mono (by omega)
  induction n with
  | zero => exact h
  | succ n ih => exact ih (hshorter h hc)

end Spot

/-! ## Explorations -/

/-- Tries the paths from a spot in order, with captures so far in `slots`. Either one of them
accepts, and `result` holds its captures, or all of them fail; `steps` instructions are executed for
it. -/
inductive Explores (t : Task) : Spot → Slots → (result : Option Slots) → (steps : Nat) → Prop where
  | accept {c slots} (h : c.turn t = .accept) : Explores t c slots (some slots) 1
  | fail {c slots} (h : c.turn t = .fail) : Explores t c slots none 1
  | go {c next slots result n} (h : c.turn t = .go next) (hn : Explores t next slots result n) :
      Explores t c slots result (n + 1)
  | save {c next slot slots result n} (h : c.turn t = .save slot next)
      (hn : Explores t next (slots.setIfInBounds slot (some c.pos)) result n) :
      Explores t c slots result (n + 1)
  | first {c a b slots result n} (h : c.turn t = .choose a b)
      (ha : Explores t a slots (some result) n) : Explores t c slots (some result) (n + 1)
  | second {c a b slots result m n} (h : c.turn t = .choose a b) (ha : Explores t a slots none m)
      (hb : Explores t b slots result n) : Explores t c slots result (m + n + 1)

namespace Explores

variable {t : Task}

/-- What an exploration comes to, and how long it takes, is determined. -/
theorem unique {c : Spot} {slots : Slots} {r r' : Option Slots} {n n' : Nat}
    (h : Explores t c slots r n) (h' : Explores t c slots r' n') : r = r' ∧ n = n' := by
  induction h generalizing r' n' with
  | accept h =>
    cases h' with
    | accept => exact ⟨rfl, rfl⟩
    | fail h' | go h' _ | save h' _ | first h' _ | second h' _ _ =>
      simp only [h, reduceCtorEq] at h'
  | fail h =>
    cases h' with
    | fail => exact ⟨rfl, rfl⟩
    | accept h' | go h' _ | save h' _ | first h' _ | second h' _ _ =>
      simp only [h, reduceCtorEq] at h'
  | go h _ ih =>
    cases h' with
    | go h' hn =>
      obtain rfl := Turn.go.inj (h.symm.trans h')
      obtain ⟨rfl, rfl⟩ := ih hn
      exact ⟨rfl, rfl⟩
    | accept h' | fail h' | save h' _ | first h' _ | second h' _ _ =>
      simp only [h, reduceCtorEq] at h'
  | save h _ ih =>
    cases h' with
    | save h' hn =>
      obtain ⟨rfl, rfl⟩ := Turn.save.inj (h.symm.trans h')
      obtain ⟨rfl, rfl⟩ := ih hn
      exact ⟨rfl, rfl⟩
    | accept h' | fail h' | go h' _ | first h' _ | second h' _ _ =>
      simp only [h, reduceCtorEq] at h'
  | first h _ ih =>
    cases h' with
    | first h' ha =>
      obtain ⟨rfl, rfl⟩ := Turn.choose.inj (h.symm.trans h')
      obtain ⟨hresult, rfl⟩ := ih ha
      exact ⟨hresult, rfl⟩
    | second h' ha _ =>
      obtain ⟨rfl, rfl⟩ := Turn.choose.inj (h.symm.trans h')
      exact absurd (ih ha).1 (Option.some_ne_none _)
    | accept h' | fail h' | go h' _ | save h' _ => simp only [h, reduceCtorEq] at h'
  | second h _ _ iha ihb =>
    cases h' with
    | first h' ha =>
      obtain ⟨rfl, rfl⟩ := Turn.choose.inj (h.symm.trans h')
      exact absurd (iha ha).1.symm (Option.some_ne_none _)
    | second h' ha hb =>
      obtain ⟨rfl, rfl⟩ := Turn.choose.inj (h.symm.trans h')
      obtain ⟨_, rfl⟩ := iha ha
      obtain ⟨rfl, rfl⟩ := ihb hb
      exact ⟨rfl, rfl⟩
    | accept h' | fail h' | go h' _ | save h' _ => simp only [h, reduceCtorEq] at h'

/-- Captures decide neither whether a path accepts nor how long it takes to find one. -/
theorem change_slots {c : Spot} {slots : Slots} {r : Option Slots} {n : Nat}
    (h : Explores t c slots r n) (slots' : Slots) :
    ∃ r', Explores t c slots' r' n ∧ r'.isSome = r.isSome := by
  induction h generalizing slots' with
  | accept h => exact ⟨_, accept h, rfl⟩
  | fail h => exact ⟨_, fail h, rfl⟩
  | go h _ ih =>
    obtain ⟨r', hn, hr⟩ := ih slots'
    exact ⟨r', go h hn, hr⟩
  | save h _ ih =>
    obtain ⟨r', hn, hr⟩ := ih _
    exact ⟨r', save h hn, hr⟩
  | first h _ ih =>
    obtain ⟨r', hn, hr⟩ := ih slots'
    obtain ⟨result, rfl⟩ := Option.isSome_iff_exists.mp hr
    exact ⟨_, first h hn, rfl⟩
  | second h _ _ iha ihb =>
    obtain ⟨ra, ha, hra⟩ := iha slots'
    obtain rfl : ra = none := Option.isSome_eq_false_iff.mp hra |> Option.isNone_iff_eq_none.mp
    obtain ⟨r', hb, hr⟩ := ihb slots'
    exact ⟨r', second h ha hb, hr⟩

/-- How large the table may be is of no concern to explorations. -/
theorem of_task {t' : Task} (hprogram : t'.program = t.program) (hsubject : t'.subject = t.subject)
    {c : Spot} {slots : Slots} {r : Option Slots} {n : Nat} (h : Explores t c slots r n) :
    Explores t' c slots r n := by
  have hturn : ∀ c : Spot, c.turn t' = c.turn t := by
    intro c
    rw [Spot.turn, Spot.turn, hprogram, hsubject]
  induction h with
  | accept h => exact accept ((hturn _).trans h)
  | fail h => exact fail ((hturn _).trans h)
  | go h _ ih => exact go ((hturn _).trans h) ih
  | save h _ ih => exact save ((hturn _).trans h) ih
  | first h _ ih => exact first ((hturn _).trans h) ih
  | second h _ _ iha ihb => exact second ((hturn _).trans h) iha ihb

end Explores

namespace Spot

variable {t : Task}

/-- No path from the spot accepts, and trying them all comes to an end. -/
def Dead (t : Task) (c : Spot) : Prop :=
  ∀ slots, ∃ n, Explores t c slots none n

theorem dead_of_explores {c : Spot} {slots : Slots} {n : Nat} (h : Explores t c slots none n) :
    Dead t c := by
  intro slots'
  obtain ⟨r, hr, hnone⟩ := h.change_slots slots'
  obtain rfl : r = none := Option.isNone_iff_eq_none.mp (Option.isSome_eq_false_iff.mp hnone)
  exact ⟨n, hr⟩

/-- Where paths of at most `n` instructions start, fewer than `2 ^ n` instructions try them all. -/
theorem EndsIn.explores {n : Nat} {c : Spot} (h : EndsIn t n c) (slots : Slots) :
    ∃ r m, Explores t c slots r m ∧ m < 2 ^ n := by
  induction n generalizing c slots with
  | zero => exact h.elim
  | succ n ih =>
    have hpos : 0 < 2 ^ n := Nat.two_pow_pos n
    rw [Nat.pow_succ]
    cases hturn : c.turn t with
    | accept => exact ⟨_, 1, .accept hturn, by omega⟩
    | fail => exact ⟨_, 1, .fail hturn, by omega⟩
    | go d =>
      obtain ⟨r, m, hm, hlt⟩ := ih (h d (precedes_of_turn hturn List.mem_cons_self)) slots
      exact ⟨r, m + 1, .go hturn hm, by omega⟩
    | save slot d =>
      obtain ⟨r, m, hm, hlt⟩ := ih (h d (precedes_of_turn hturn List.mem_cons_self)) _
      exact ⟨r, m + 1, .save hturn hm, by omega⟩
    | choose a b =>
      obtain ⟨ra, ma, ha, hlta⟩ := ih (h a (precedes_of_turn hturn List.mem_cons_self)) slots
      cases ra with
      | some r => exact ⟨r, ma + 1, .first hturn ha, by omega⟩
      | none =>
        obtain ⟨rb, mb, hb, hltb⟩ :=
          ih (h b (precedes_of_turn hturn (List.mem_cons_of_mem a List.mem_cons_self))) slots
        exact ⟨rb, ma + mb + 1, .second hturn ha hb, by omega⟩

end Spot

end ByteRegex
