/-
# Lkv.Theory.File — a regular file as a length and its bytes

A file is its length and a byte at every position, zero past the end: a write
past the end leaves a gap that reads as zero, and so does extending the length.
`slice` reads a range as a byte string, `Holds f off bs` says that `bs` is what
the file reads at `off`, and the frame lemmas say which bytes a write or a
truncation leaves alone.
-/
import Lkv.Theory.Bytes

namespace Lkv.Theory

set_option autoImplicit false

structure File where
  len : Nat
  byte : Nat → UInt8
  zero_past_end : ∀ i, len ≤ i → byte i = 0

namespace File

@[ext] theorem ext {f g : File} (len : f.len = g.len) (byte : ∀ i, f.byte i = g.byte i) :
    f = g := by
  cases f
  cases g
  simp_all only [mk.injEq, true_and]
  exact funext byte

def empty : File := ⟨0, fun _ => 0, fun _ _ => rfl⟩

/-! ## Writing and truncating -/

/-- Write `bs` at `off`.  Writing nothing does not extend the file. -/
def write (f : File) (off : Nat) (bs : Bytes) : File where
  len := if bs = [] then f.len else max f.len (off + bs.length)
  byte i := if off ≤ i ∧ i < off + bs.length then bs.getD (i - off) 0 else f.byte i
  zero_past_end i past := by
    by_cases nothing : bs = []
    · simp only [nothing, if_true] at past
      simp only [nothing, List.length_nil, Nat.add_zero]
      rw [if_neg (by omega)]
      exact f.zero_past_end i past
    · rw [if_neg nothing] at past
      rw [if_neg (by omega)]
      exact f.zero_past_end i (by omega)

/-- Cut the file at `n`, or extend it with zeros. -/
def setLen (f : File) (n : Nat) : File where
  len := n
  byte i := if i < n then f.byte i else 0
  zero_past_end i past := if_neg (by omega)

theorem write_len (f : File) (off : Nat) {bs : Bytes} (some : bs ≠ []) :
    (f.write off bs).len = max f.len (off + bs.length) := if_neg some

theorem le_write_len (f : File) (off : Nat) (bs : Bytes) : f.len ≤ (f.write off bs).len := by
  simp only [write]
  split <;> omega

theorem write_len_le (f : File) (off : Nat) (bs : Bytes) :
    (f.write off bs).len ≤ max f.len (off + bs.length) := by
  simp only [write]
  split <;> omega

theorem write_byte_of_outside (f : File) {off i : Nat} {bs : Bytes}
    (outside : i < off ∨ off + bs.length ≤ i) : (f.write off bs).byte i = f.byte i :=
  if_neg (by omega)

theorem write_byte_of_inside (f : File) {off i : Nat} {bs : Bytes} (above : off ≤ i)
    (below : i < off + bs.length) : (f.write off bs).byte i = bs.getD (i - off) 0 :=
  if_pos ⟨above, below⟩

@[simp] theorem write_nil (f : File) (off : Nat) : f.write off [] = f := by
  apply ext
  · simp [write]
  · intro i
    exact write_byte_of_outside f (by simp; omega)

/-- Writing one string after another is writing their concatenation. -/
theorem write_write (f : File) (off : Nat) (as bs : Bytes) :
    (f.write off as).write (off + as.length) bs = f.write off (as ++ bs) := by
  apply ext
  · simp only [write, List.length_append, List.append_eq_nil_iff]
    split <;> split <;> simp_all
    omega
  · intro i
    simp only [write, List.length_append]
    split
    · rw [if_pos (by omega)]
      simp only [List.getD_eq_getElem?_getD]
      rw [List.getElem?_append_right (by omega), Nat.sub_sub]
    · split
      · rw [if_pos (by omega)]
        simp only [List.getD_eq_getElem?_getD]
        rw [List.getElem?_append_left (by omega)]
      · rw [if_neg (by omega)]

/-- Going back to write what comes before. -/
theorem write_write_before (f : File) (off : Nat) (as bs : Bytes) :
    (f.write (off + as.length) bs).write off as = f.write off (as ++ bs) := by
  apply ext
  · simp only [write, List.length_append, List.append_eq_nil_iff]
    split <;> split <;> simp_all
    omega
  · intro i
    simp only [write, List.length_append]
    split
    · rw [if_pos (by omega)]
      simp only [List.getD_eq_getElem?_getD]
      rw [List.getElem?_append_left (by omega)]
    · split
      · rw [if_pos (by omega)]
        simp only [List.getD_eq_getElem?_getD]
        rw [List.getElem?_append_right (by omega), Nat.sub_sub]
      · rw [if_neg (by omega)]

@[simp] theorem setLen_len (f : File) (n : Nat) : (f.setLen n).len = n := rfl

theorem setLen_byte (f : File) {n i : Nat} (below : i < n) : (f.setLen n).byte i = f.byte i :=
  if_pos below

@[simp] theorem setLen_self (f : File) : f.setLen f.len = f := by
  refine ext (setLen_len f f.len) fun i => ?_
  by_cases below : i < f.len
  · exact setLen_byte f below
  · rw [f.zero_past_end i (by omega)]
    exact if_neg below

/-- Cutting off what was appended gives the file back. -/
theorem setLen_write_end (f : File) (bs : Bytes) : (f.write f.len bs).setLen f.len = f := by
  refine ext rfl fun i => ?_
  by_cases below : i < f.len
  · rw [setLen_byte _ below, write_byte_of_outside f (.inl below)]
  · rw [f.zero_past_end i (by omega)]
    exact if_neg below

/-! ## Reading ranges -/

/-- The `n` bytes from `off`. -/
def slice (f : File) : Nat → Nat → Bytes
  | _, 0 => []
  | off, n + 1 => f.byte off :: slice f (off + 1) n

@[simp] theorem slice_length (f : File) (off n : Nat) : (f.slice off n).length = n := by
  induction n generalizing off with
  | zero => rfl
  | succ n ih => simp [slice, ih]

theorem slice_getElem? (f : File) (off n i : Nat) :
    (f.slice off n)[i]? = if i < n then some (f.byte (off + i)) else none := by
  induction n generalizing off i with
  | zero => simp [slice]
  | succ n ih =>
      cases i with
      | zero => simp [slice]
      | succ i =>
          rw [slice, List.getElem?_cons_succ, ih]
          simp only [Nat.add_lt_add_iff_right]
          rw [Nat.add_right_comm, Nat.add_assoc]

theorem slice_add (f : File) (off m n : Nat) :
    f.slice off (m + n) = f.slice off m ++ f.slice (off + m) n := by
  induction m generalizing off with
  | zero => simp [slice]
  | succ m ih =>
      rw [Nat.add_right_comm, slice, ih, slice, List.cons_append]
      congr 3
      omega

theorem slice_congr {f g : File} {off n : Nat}
    (same : ∀ i, off ≤ i → i < off + n → f.byte i = g.byte i) : f.slice off n = g.slice off n := by
  apply List.ext_getElem?
  intro i
  simp only [slice_getElem?]
  split
  · rw [same _ (by omega) (by omega)]
  · rfl

theorem window_slice (f : File) (off n start count : Nat) (inside : start + count ≤ n) :
    window (f.slice off n) start count = f.slice (off + start) count := by
  apply List.ext_getElem?
  intro i
  simp only [window_getElem?, slice_getElem?]
  split
  · rw [if_pos (by omega), Nat.add_assoc]
  · rfl

/-- A window that may reach past the end of the slice. -/
theorem window_slice_min (f : File) (off n start count : Nat) :
    window (f.slice off n) start count = f.slice (off + start) (min (n - start) count) := by
  apply List.ext_getElem?
  intro i
  simp only [window_getElem?, slice_getElem?]
  by_cases below : i < count
  · rw [if_pos below]
    by_cases inside : start + i < n
    · rw [if_pos inside, if_pos (by omega), Nat.add_assoc]
    · rw [if_neg inside, if_neg (by omega)]
  · rw [if_neg below, if_neg (by omega)]

/-! ## What the file holds -/

/-- The file reads `bs` at `off`. -/
def Holds (f : File) (off : Nat) (bs : Bytes) : Prop :=
  f.slice off bs.length = bs

theorem holds_slice (f : File) (off n : Nat) : f.Holds off (f.slice off n) := by
  simp [Holds]

theorem holds_append {f : File} {off : Nat} {as bs : Bytes} :
    f.Holds off (as ++ bs) ↔ f.Holds off as ∧ f.Holds (off + as.length) bs := by
  unfold Holds
  rw [List.length_append, slice_add]
  constructor
  · intro h
    exact List.append_inj h (by simp)
  · rintro ⟨left, right⟩
    rw [left, right]

theorem holds_write (f : File) (off : Nat) (bs : Bytes) : (f.write off bs).Holds off bs := by
  apply List.ext_getElem?
  intro i
  rw [slice_getElem?]
  split
  · rename_i inside
    rw [write_byte_of_inside f (by omega) (by omega), Nat.add_sub_cancel_left,
      List.getElem?_eq_getElem inside]
    simp [List.getD_eq_getElem?_getD, List.getElem?_eq_getElem inside]
  · rw [List.getElem?_eq_none (by omega)]

/-- Past its end a file reads as zero. -/
theorem holds_zeros {f : File} {off : Nat} (past : f.len ≤ off) (n : Nat) :
    f.Holds off (List.replicate n 0) := by
  unfold Holds
  rw [List.length_replicate]
  induction n generalizing off with
  | zero => rfl
  | succ n ih => rw [slice, f.zero_past_end off past, ih (Nat.le_succ_of_le past), List.replicate_succ]

theorem Holds.congr {f g : File} {off : Nat} {bs : Bytes} (holds : f.Holds off bs)
    (same : ∀ i, off ≤ i → i < off + bs.length → g.byte i = f.byte i) : g.Holds off bs := by
  unfold Holds at *
  rw [slice_congr same, holds]

theorem Holds.window {f : File} {off : Nat} {bs : Bytes} (holds : f.Holds off bs)
    {start count : Nat} (inside : start + count ≤ bs.length) :
    f.slice (off + start) count = Theory.window bs start count := by
  unfold Holds at holds
  rw [← window_slice f off bs.length start count inside, holds]

theorem Holds.slice_eq {f : File} {off n : Nat} {bs : Bytes} (holds : f.Holds off bs)
    (length : bs.length = n) : f.slice off n = bs := by
  rw [← length]
  exact holds

/-- A write outside a range leaves what the range holds. -/
theorem Holds.write {f : File} {off off' : Nat} {bs bs' : Bytes} (holds : f.Holds off bs)
    (apart : off' + bs'.length ≤ off ∨ off + bs.length ≤ off') :
    (f.write off' bs').Holds off bs :=
  holds.congr fun _ above below => write_byte_of_outside f (by omega)

/-- An empty file that was written to. -/
theorem slice_write_empty (bs : Bytes) :
    (empty.write 0 bs).slice 0 (empty.write 0 bs).len = bs := by
  by_cases nothing : bs = []
  · rw [nothing, write_nil]
    rfl
  · have len : (empty.write 0 bs).len = bs.length := by
      rw [write_len _ _ nothing, Nat.zero_add]
      exact Nat.max_eq_right (Nat.zero_le _)
    rw [len]
    exact holds_write empty 0 bs

/-- What a write leaves in a range that starts with it. -/
theorem slice_write_front (f : File) (off n : Nat) (bs : Bytes) (inside : bs.length ≤ n) :
    (f.write off bs).slice off n = bs ++ (f.slice off n).drop bs.length := by
  obtain ⟨m, rfl⟩ := Nat.exists_eq_add_of_le inside
  have front : (f.write off bs).slice off bs.length = bs := holds_write f off bs
  have behind : (f.write off bs).slice (off + bs.length) m = f.slice (off + bs.length) m :=
    slice_congr fun i above _ => write_byte_of_outside f (.inr above)
  rw [slice_add, slice_add, front, behind, List.drop_left' (slice_length f off bs.length)]

theorem Holds.setLen {f : File} {off n : Nat} {bs : Bytes} (holds : f.Holds off bs)
    (kept : off + bs.length ≤ n) : (f.setLen n).Holds off bs :=
  holds.congr fun _ _ below => setLen_byte f (by omega)

/-! ## The front of a file -/

/-- The first `n` bytes of `f` are in `g` as well. -/
structure SameFront (n : Nat) (f g : File) : Prop where
  long : n ≤ g.len
  byte : ∀ i < n, g.byte i = f.byte i

namespace SameFront

variable {n : Nat} {f g h : File}

theorem refl (long : n ≤ f.len) : SameFront n f f := ⟨long, fun _ _ => rfl⟩

theorem trans (first : SameFront n f g) (second : SameFront n g h) : SameFront n f h :=
  ⟨second.long, fun i below => (second.byte i below).trans (first.byte i below)⟩

theorem mono {m : Nat} (same : SameFront n f g) (below : m ≤ n) : SameFront m f g :=
  ⟨below.trans same.long, fun i inside => same.byte i (inside.trans_le below)⟩

theorem write {off : Nat} {bs : Bytes} (long : n ≤ f.len) (behind : n ≤ off) :
    SameFront n f (f.write off bs) :=
  ⟨long.trans (le_write_len f off bs), fun _ below => write_byte_of_outside f (.inl (below.trans_le behind))⟩

theorem setLen {m : Nat} (behind : n ≤ m) : SameFront n f (f.setLen m) :=
  ⟨behind, fun _ below => setLen_byte f (below.trans_le behind)⟩

theorem slice (same : SameFront n f g) {off count : Nat} (inside : off + count ≤ n) :
    g.slice off count = f.slice off count :=
  slice_congr fun i _ below => same.byte i (below.trans_le inside)

end SameFront

end File

end Lkv.Theory
