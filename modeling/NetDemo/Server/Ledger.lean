import Mathlib.Algebra.Group.Nat.Defs
import Mathlib.Data.Multiset.AddSub
import Mathlib.Tactic.Common

/-! What becomes of accepted sockets, without the contexts and the threads: the ledger of a server
that counts its connections in an unsigned 32-bit integer. -/

namespace NetDemo.Server

@[ext]
structure Ledger where
  /-- Accepted and not yet compared with the limit. -/
  arriving : Multiset ℕ
  /-- Below the limit and not yet counted. -/
  admitted : Multiset ℕ
  /-- Counted and not yet given to a context. -/
  seating : Multiset ℕ
  /-- In a context, or taken out of one in order to be closed. -/
  held : Multiset ℕ
  closed : Multiset ℕ
  disconnected : Multiset ℕ
  counted : Multiset ℕ
  uncounted : Multiset ℕ
  sockets : ℕ
  cnt : ℕ
  limit : ℕ

inductive Entry
  | stay
  | accept
  | refuse (x : ℕ)
  | pass (x : ℕ)
  | count (x : ℕ)
  /-- `x` takes the place of the socket that the context still has. -/
  | seat (x : ℕ) (old : Option ℕ)
  /-- `x` is reported; it is closed only if the system does what it is asked for. -/
  | close (x : ℕ) (ok : Bool)

/-- No socket loses its context to another one, and every close is carried out. -/
def Entry.Granted : Entry → Prop
  | .seat _ old => old = none
  | .close _ ok => ok = true
  | _ => True

namespace Ledger
open Multiset

def Fits (l : Ledger) : Entry → Prop
  | .stay => True
  | .accept => True
  | .refuse x => x ∈ l.arriving ∧ l.limit ≤ l.cnt
  | .pass x => x ∈ l.arriving ∧ l.cnt < l.limit
  | .count x => x ∈ l.admitted
  | .seat x old => x ∈ l.seating ∧ ∀ y ∈ old, y ∈ l.held
  | .close x _ => x ∈ l.held

def next (l : Ledger) : Entry → Ledger
  | .stay => l
  | .accept => { l with arriving := l.sockets ::ₘ l.arriving, sockets := l.sockets + 1 }
  | .refuse x => { l with arriving := l.arriving.erase x, closed := x ::ₘ l.closed }
  | .pass x => { l with arriving := l.arriving.erase x, admitted := x ::ₘ l.admitted }
  | .count x =>
    { l with
      admitted := l.admitted.erase x
      seating := x ::ₘ l.seating
      counted := x ::ₘ l.counted
      cnt := (l.cnt + 1) % 2 ^ 32 }
  | .seat x old =>
    { l with
      seating := l.seating.erase x
      held := x ::ₘ old.elim l.held l.held.erase }
  | .close x ok =>
    let l := { l with held := l.held.erase x, disconnected := x ::ₘ l.disconnected }
    if ok then
      { l with
        closed := x ::ₘ l.closed
        uncounted := x ::ₘ l.uncounted
        cnt := if l.cnt = 0 then 2 ^ 32 - 1 else l.cnt - 1 }
    else l

def given (l : Ledger) (x : ℕ) : ℕ := if x < l.sockets then 1 else 0

/-- How often a socket stands before the end of its life. -/
def alive (l : Ledger) (x : ℕ) : ℕ :=
  l.arriving.count x + l.admitted.count x + l.seating.count x + l.held.count x

/-- The socket is not in two places, and is not counted down without having been counted. -/
structure Placed (l : Ledger) (x : ℕ) : Prop where
  once : l.alive x + l.closed.count x ≤ l.given x
  told : l.alive x + l.disconnected.count x ≤ l.given x
  counted : l.arriving.count x + l.admitted.count x + l.counted.count x ≤ l.given x
  paired : l.seating.count x + l.held.count x + l.uncounted.count x ≤ l.counted.count x

structure Sound (l : Ledger) : Prop where
  placed : ∀ x, l.Placed x
  modulo : (l.cnt + card l.uncounted) % 2 ^ 32 = card l.counted % 2 ^ 32
  word : l.cnt < 2 ^ 32

/-- The socket is in one place, and is counted as long as it is there. -/
structure Exact (l : Ledger) (x : ℕ) : Prop where
  once : l.alive x + l.closed.count x = l.given x
  paired : l.seating.count x + l.held.count x + l.uncounted.count x = l.counted.count x
  told : l.disconnected.count x = l.uncounted.count x

theorem count_erase_add {s : Multiset ℕ} {x : ℕ} (h : x ∈ s) (y : ℕ) :
    (s.erase x).count y + (if y = x then 1 else 0) = s.count y := by
  conv_rhs => rw [← Multiset.cons_erase h]
  rw [Multiset.count_cons]

variable {l : Ledger}

theorem count_elim_le (s : Multiset ℕ) (old : Option ℕ) (y : ℕ) :
    (old.elim s s.erase).count y ≤ s.count y := by
  cases old with
  | none => exact le_rfl
  | some x => exact Multiset.count_le_of_le y (Multiset.erase_le x s)

/-! ### What one entry does -/

theorem Placed.next {y : ℕ} (h : l.Placed y) {e : Entry} (hfit : l.Fits e) : (l.next e).Placed y := by
  obtain ⟨honce, htold, hcounted, hpaired⟩ := h
  simp only [alive, given] at honce htold hcounted
  cases e with
  | stay => exact ⟨honce, htold, hcounted, hpaired⟩
  | accept =>
    constructor <;> simp only [Ledger.next, alive, given, Multiset.count_cons] <;> grind
  | refuse x =>
    have herase := count_erase_add hfit.1 y
    constructor <;> simp only [Ledger.next, alive, given, Multiset.count_cons] <;> grind
  | pass x =>
    have herase := count_erase_add hfit.1 y
    constructor <;> simp only [Ledger.next, alive, given, Multiset.count_cons] <;> grind
  | count x =>
    have herase := count_erase_add hfit y
    constructor <;> simp only [Ledger.next, alive, given, Multiset.count_cons] <;> grind
  | seat x old =>
    have herase := count_erase_add hfit.1 y
    have hold := count_elim_le l.held old y
    constructor <;> simp only [Ledger.next, alive, given, Multiset.count_cons] <;> grind
  | close x ok =>
    have herase := count_erase_add hfit y
    cases ok <;> constructor <;>
      simp only [Ledger.next, alive, given, Bool.false_eq_true, if_false, if_true, Multiset.count_cons] <;>
      grind

theorem Placed.le_one {x : ℕ} (h : l.Placed x) :
    l.closed.count x ≤ 1 ∧ l.disconnected.count x ≤ 1 ∧ l.counted.count x ≤ 1 ∧
      l.uncounted.count x ≤ l.counted.count x := by
  obtain ⟨honce, htold, hcounted, hpaired⟩ := h
  have hgiven : l.given x ≤ 1 := by
    unfold given
    split_ifs <;> omega
  refine ⟨by omega, by omega, by omega, by omega⟩

theorem Sound.uncounted_le (h : l.Sound) : l.uncounted ≤ l.counted :=
  Multiset.le_iff_count.mpr fun x => (h.placed x).le_one.2.2.2

/-- What is still held was counted, so the counter is decremented for it later. -/
theorem Sound.card_lt (h : l.Sound) {x : ℕ} (hx : x ∈ l.held) : card l.uncounted < card l.counted := by
  have hle : x ::ₘ l.uncounted ≤ l.counted := by
    rw [Multiset.le_iff_count]
    intro y
    have hpaired := (h.placed y).paired
    rw [Multiset.count_cons]
    split_ifs with hyx
    · have hpos : 0 < l.held.count y := Multiset.count_pos.mpr (hyx ▸ hx)
      omega
    · omega
  have hcard := Multiset.card_le_card hle
  rwa [Multiset.card_cons] at hcard

theorem Sound.next (h : l.Sound) {e : Entry} (hfit : l.Fits e) : (l.next e).Sound := by
  refine ⟨fun x => (h.placed x).next hfit, ?_, ?_⟩
  · have hmodulo := h.modulo
    have hword := h.word
    cases e with
    | count x =>
      simp only [Ledger.next, Multiset.card_cons]
      omega
    | close x ok =>
      cases ok with
      | false => exact hmodulo
      | true =>
        simp only [Ledger.next, if_true, Multiset.card_cons]
        split_ifs <;> omega
    | _ => exact hmodulo
  · have hword := h.word
    cases e with
    | count x => exact Nat.mod_lt _ (by decide)
    | close x ok =>
      cases ok with
      | false => exact hword
      | true =>
        simp only [Ledger.next, if_true]
        split_ifs <;> omega
    | _ => exact hword

/-! ### The counter as a number -/

/-- How many sockets the counter stands for. -/
def live (l : Ledger) : ℕ := card l.counted - card l.uncounted

theorem Sound.cnt_eq (h : l.Sound) (hlive : l.live < 2 ^ 32) : l.cnt = l.live := by
  have hle := Multiset.card_le_card h.uncounted_le
  have hmodulo := h.modulo
  have hword := h.word
  unfold live at hlive ⊢
  omega

/-- Counting what is admitted already, the counter is exact and does not pass `bound`. -/
structure Within (bound : ℕ) (l : Ledger) : Prop where
  exact : l.cnt + card l.uncounted = card l.counted
  le : l.cnt + card l.admitted ≤ bound

/-- An exact counter stays exact until it wraps above; it never wraps below. -/
theorem exact_next (h : l.cnt + card l.uncounted = card l.counted) (hs : l.Sound) {e : Entry}
    (hfit : l.Fits e) (hwrap : ∀ x, e = .count x → l.cnt + 1 < 2 ^ 32) :
    (l.next e).cnt + card (l.next e).uncounted = card (l.next e).counted := by
  cases e with
  | count x =>
    have hmod : (l.cnt + 1) % 2 ^ 32 = l.cnt + 1 := Nat.mod_eq_of_lt (hwrap x rfl)
    simp only [Ledger.next, Multiset.card_cons, hmod]
    omega
  | close x ok =>
    cases ok with
    | false => exact h
    | true =>
      -- `x` was counted and is not counted down yet.
      have hlt := hs.card_lt hfit
      have hpos : ¬ l.cnt = 0 := by omega
      simp only [Ledger.next, if_true, if_neg hpos, Multiset.card_cons]
      omega
  | _ => exact h

theorem Within.next {bound : ℕ} (h : l.Within bound) (hbound : bound < 2 ^ 32) (hs : l.Sound) {e : Entry}
    (hfit : l.Fits e) (hroom : ∀ x, e = .pass x → l.cnt + card l.admitted < bound) :
    (l.next e).Within bound := by
  obtain ⟨hexact, hle⟩ := h
  refine ⟨exact_next hexact hs hfit fun x he => ?_, ?_⟩
  · -- The counter does not pass `bound`, so it does not wrap.
    subst he
    have hpos := Multiset.card_pos_iff_exists_mem.mpr ⟨x, hfit⟩
    omega
  · cases e with
    | pass x =>
      have hlt := hroom x rfl
      simp only [Ledger.next, Multiset.card_cons]
      omega
    | count x =>
      have hcard := Multiset.card_erase_add_one hfit
      have hmod := Nat.mod_le (l.cnt + 1) (2 ^ 32)
      simp only [Ledger.next]
      omega
    | close x ok =>
      cases ok with
      | false => exact hle
      | true =>
        simp only [Ledger.next, if_true]
        have hlt := hs.card_lt hfit
        split_ifs <;> omega
    | _ => exact hle

/-! ### When nothing goes wrong -/

theorem Exact.next {y : ℕ} (h : l.Exact y) {e : Entry} (hfit : l.Fits e) (hgranted : e.Granted) :
    (l.next e).Exact y := by
  obtain ⟨honce, hpaired, htold⟩ := h
  simp only [alive, given] at honce
  cases e with
  | stay => exact ⟨honce, hpaired, htold⟩
  | accept =>
    constructor <;> simp only [Ledger.next, alive, given, Multiset.count_cons] <;> grind
  | refuse x =>
    have herase := count_erase_add hfit.1 y
    constructor <;> simp only [Ledger.next, alive, given, Multiset.count_cons] <;> grind
  | pass x =>
    have herase := count_erase_add hfit.1 y
    constructor <;> simp only [Ledger.next, alive, given, Multiset.count_cons] <;> grind
  | count x =>
    have herase := count_erase_add hfit y
    constructor <;> simp only [Ledger.next, alive, given, Multiset.count_cons] <;> grind
  | seat x old =>
    have herase := count_erase_add hfit.1 y
    obtain rfl : old = none := hgranted
    constructor <;> simp only [Ledger.next, alive, given, Option.elim_none, Multiset.count_cons] <;> grind
  | close x ok =>
    have herase := count_erase_add hfit y
    obtain rfl : ok = true := hgranted
    constructor <;> simp only [Ledger.next, alive, given, if_true, Multiset.count_cons] <;> grind

end Ledger
end NetDemo.Server
