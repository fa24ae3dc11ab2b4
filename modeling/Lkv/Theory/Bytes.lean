/-
# Lkv.Theory.Bytes — byte strings, little-endian words, checked ranges

Every on-disk structure below is a list of bytes cut into windows and
fixed-width little-endian words.  `leBytes w n` writes the low `8 * w` bits of
`n`; `leNat` reads them back (`leNat_leBytes`).  `window` is the total cut of a
byte string and `getRange` the checked one, which answers `none` exactly when
the range does not lie inside the string.
-/
import Mathlib.Data.List.Basic
import Mathlib.Tactic.Linarith

namespace Lkv.Theory

set_option autoImplicit false

abbrev Bytes := List UInt8

instance : LawfulBEq Bytes := inferInstance

/-! ## Little-endian words -/

/-- The low `w` bytes of `n`, least significant first. -/
def leBytes : Nat → Nat → Bytes
  | 0, _ => []
  | w + 1, n => UInt8.ofNat (n % 256) :: leBytes w (n / 256)

/-- The number a byte string denotes, least significant byte first. -/
def leNat : Bytes → Nat
  | [] => 0
  | b :: bs => b.toNat + 256 * leNat bs

@[simp] theorem leBytes_length (w n : Nat) : (leBytes w n).length = w := by
  induction w generalizing n with
  | zero => rfl
  | succ w ih => simp [leBytes, ih]

theorem leNat_leBytes (w n : Nat) (fits : n < 256 ^ w) : leNat (leBytes w n) = n := by
  induction w generalizing n with
  | zero =>
      have : n = 0 := by simpa using fits
      simp [leBytes, leNat, this]
  | succ w ih =>
      have quotient : n / 256 < 256 ^ w := by
        rw [Nat.div_lt_iff_lt_mul (by decide), ← Nat.pow_succ]
        exact fits
      have digit : (UInt8.ofNat (n % 256)).toNat = n % 256 := by
        rw [UInt8.toNat_ofNat']
        omega
      rw [leBytes, leNat, ih _ quotient, digit]
      omega

theorem leNat_lt (bs : Bytes) : leNat bs < 256 ^ bs.length := by
  induction bs with
  | nil => simp [leNat]
  | cons b bs ih =>
      have low : b.toNat < 256 := b.toNat_lt
      rw [leNat, List.length_cons, Nat.pow_succ]
      omega

theorem leBytes_leNat (bs : Bytes) : leBytes bs.length (leNat bs) = bs := by
  induction bs with
  | nil => rfl
  | cons b bs ih =>
      have low : b.toNat < 256 := b.toNat_lt
      have digit : (b.toNat + 256 * leNat bs) % 256 = b.toNat := by omega
      have rest : (b.toNat + 256 * leNat bs) / 256 = leNat bs := by omega
      rw [List.length_cons, leNat, leBytes, digit, rest, ih, UInt8.ofNat_toNat]

/-! ## Windows -/

/-- `count` bytes from `start`, or as many of them as there are. -/
def window (bs : Bytes) (start count : Nat) : Bytes :=
  (bs.drop start).take count

/-- The bytes `start..stop`, when that range lies inside the string. -/
def getRange (bs : Bytes) (start stop : Nat) : Option Bytes :=
  if start ≤ stop ∧ stop ≤ bs.length then some (window bs start (stop - start)) else none

theorem window_length (bs : Bytes) (start count : Nat) (inside : start + count ≤ bs.length) :
    (window bs start count).length = count := by
  simp only [window, List.length_take, List.length_drop]
  omega

theorem window_length_le (bs : Bytes) (start count : Nat) :
    (window bs start count).length ≤ count := by
  simp only [window, List.length_take]
  omega

@[simp] theorem window_zero_count (bs : Bytes) (start : Nat) : window bs start 0 = [] := by
  simp [window]

@[simp] theorem window_all (bs : Bytes) : window bs 0 bs.length = bs := by
  simp [window]

theorem window_getElem? (bs : Bytes) (start count i : Nat) :
    (window bs start count)[i]? = if i < count then bs[start + i]? else none := by
  simp only [window, List.getElem?_take, List.getElem?_drop]

theorem window_append_left (as bs : Bytes) (start count : Nat)
    (inside : start + count ≤ as.length) :
    window (as ++ bs) start count = window as start count := by
  apply List.ext_getElem?
  intro i
  simp only [window_getElem?]
  split
  · rw [List.getElem?_append_left (by omega)]
  · rfl

theorem window_append_right (as bs : Bytes) (start count : Nat) (past : as.length ≤ start) :
    window (as ++ bs) start count = window bs (start - as.length) count := by
  apply List.ext_getElem?
  intro i
  simp only [window_getElem?]
  split
  · rw [List.getElem?_append_right (by omega)]
    congr 1
    omega
  · rfl

theorem window_window (bs : Bytes) (start count start' count' : Nat)
    (inside : start' + count' ≤ count) :
    window (window bs start count) start' count' = window bs (start + start') count' := by
  apply List.ext_getElem?
  intro i
  simp only [window_getElem?]
  split
  · rw [if_pos (by omega), Nat.add_assoc]
  · rfl

/-- Adjacent windows join. -/
theorem window_add (bs : Bytes) (start m n : Nat) :
    window bs start (m + n) = window bs start m ++ window bs (start + m) n := by
  simp only [window, List.take_add, List.drop_drop]

theorem window_eq_self (bs : Bytes) (count : Nat) (all : bs.length ≤ count) :
    window bs 0 count = bs := by
  simp [window, List.take_of_length_le all]

/-- Two strings that agree byte by byte on a range have the same window there. -/
theorem window_congr {as bs : Bytes} {start count : Nat}
    (same : ∀ i, start ≤ i → i < start + count → as[i]? = bs[i]?) :
    window as start count = window bs start count := by
  apply List.ext_getElem?
  intro i
  simp only [window_getElem?]
  split
  · exact same _ (by omega) (by omega)
  · rfl

theorem window_append_at (front bytes : Bytes) (start count : Nat) :
    window (front ++ bytes) (front.length + start) count = window bytes start count := by
  rw [window_append_right _ _ _ _ (by omega), Nat.add_sub_cancel_left]

/-! ## Tables of cells of one width -/

section Table

variable {α : Type} {cell : α → Bytes} {width : Nat}

theorem flatMap_cells_length (fixed : ∀ a, (cell a).length = width) (items : List α) :
    (items.flatMap cell).length = items.length * width := by
  induction items with
  | nil => simp
  | cons a items ih =>
      rw [List.flatMap_cons, List.length_append, fixed, ih, List.length_cons, Nat.succ_mul,
        Nat.add_comm]

theorem window_cell (fixed : ∀ a, (cell a).length = width) (items : List α) (rest : Bytes) {i : Nat}
    (below : i < items.length) :
    window (items.flatMap cell ++ rest) (i * width) width = cell items[i] := by
  induction items generalizing i with
  | nil => simp at below
  | cons a items ih =>
      rw [List.flatMap_cons, List.append_assoc]
      cases i with
      | zero =>
          rw [Nat.zero_mul, window_append_left _ _ _ _ (by rw [fixed]; omega), ← fixed a, window_all]
          rfl
      | succ i =>
          rw [Nat.succ_mul, Nat.add_comm]
          conv_lhs => rw [← fixed a]
          rw [window_append_at, fixed, List.getElem_cons_succ]
          exact ih (by simpa using below)

end Table

theorem getRange_some {bs : Bytes} {start stop : Nat} (ordered : start ≤ stop)
    (inside : stop ≤ bs.length) :
    getRange bs start stop = some (window bs start (stop - start)) := by
  rw [getRange, if_pos ⟨ordered, inside⟩]

/-- The range that a part of the string takes up. -/
theorem getRange_part (front part rest : Bytes) {start stop : Nat} (first : start = front.length)
    (last : stop = front.length + part.length) :
    getRange (front ++ (part ++ rest)) start stop = some part := by
  subst first last
  rw [getRange_some (by omega) (by simp only [List.length_append]; omega), Nat.add_sub_cancel_left,
    ← Nat.add_zero front.length, window_append_at, window_append_left _ _ _ _ (by omega), window_all]

theorem getRange_none {bs : Bytes} {start stop : Nat} (outside : bs.length < stop) :
    getRange bs start stop = none := by
  rw [getRange, if_neg (by omega)]

theorem getRange_eq_some_iff {bs : Bytes} {start stop : Nat} {found : Bytes} :
    getRange bs start stop = some found ↔
      start ≤ stop ∧ stop ≤ bs.length ∧ window bs start (stop - start) = found := by
  unfold getRange
  split
  · simp_all
  · simp only [reduceCtorEq, false_iff]
    tauto

end Lkv.Theory
