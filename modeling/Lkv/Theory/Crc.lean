/-
# Lkv.Theory.Crc — CRC-32C, one bit at a time

The reflected Castagnoli polynomial, register initialised and finished by
complementing.  `crc32cAppend` continues a finished checksum over more bytes,
which is what makes it incremental (`crc32cAppend_append`).  The register moves
linearly in exclusive or (`byteStep_xor`), so checksums of two strings combine to
that of their concatenation (`crc32cCombine_eq`).  It loses nothing on the way, so strings
that differ in one byte have different checksums (`OneByte.checksum`), and what a write that
stopped half way leaves can be told from the checksums of its parts (`Apart.take`,
`NeverZero.take`).
-/
import Lkv.Theory.Bytes

namespace Lkv.Theory

set_option autoImplicit false

namespace Crc

def polynomial : BitVec 32 := 0x82F63B78#32

def bitStep (register : BitVec 32) : BitVec 32 :=
  if register.getLsbD 0 then (register >>> 1) ^^^ polynomial else register >>> 1

def bitSteps : Nat → BitVec 32 → BitVec 32
  | 0, register => register
  | n + 1, register => bitSteps n (bitStep register)

def byteStep (register : BitVec 32) (b : UInt8) : BitVec 32 :=
  bitSteps 8 (register ^^^ b.toBitVec.setWidth 32)

end Crc

/-- Continue the checksum `crc` of some bytes over the bytes that follow them. -/
def crc32cAppend (crc : BitVec 32) (bs : Bytes) : BitVec 32 :=
  ~~~(bs.foldl Crc.byteStep (~~~crc))

def crc32c (bs : Bytes) : BitVec 32 :=
  crc32cAppend 0 bs

theorem crc32cAppend_append (crc : BitVec 32) (as bs : Bytes) :
    crc32cAppend (crc32cAppend crc as) bs = crc32cAppend crc (as ++ bs) := by
  simp only [crc32cAppend, BitVec.not_not, List.foldl_append]

@[simp] theorem crc32cAppend_nil (crc : BitVec 32) : crc32cAppend crc [] = crc := by
  simp [crc32cAppend]

/-- The register goes on from where the first part leaves it. -/
theorem not_crc32c_append (as bs : Bytes) :
    ~~~crc32c (as ++ bs) = bs.foldl Crc.byteStep (~~~crc32c as) := by
  rw [crc32c, ← crc32cAppend_append, ← crc32c, crc32cAppend, BitVec.not_not]

theorem crc32c_lt (bs : Bytes) : (crc32c bs).toNat < 256 ^ 4 :=
  (crc32c bs).isLt

/-! ## Combining checksums -/

namespace Crc

theorem bitStep_xor (a b : BitVec 32) : bitStep (a ^^^ b) = bitStep a ^^^ bitStep b := by
  have cancel : ∀ x y p : BitVec 32, x ^^^ p ^^^ (y ^^^ p) = x ^^^ y := by
    intro x y p
    rw [BitVec.xor_assoc x p (y ^^^ p), ← BitVec.xor_assoc p y p, BitVec.xor_comm p y,
      BitVec.xor_assoc y p p, BitVec.xor_self, BitVec.xor_zero]
  unfold bitStep
  rw [BitVec.getLsbD_xor, BitVec.ushiftRight_xor_distrib]
  cases a.getLsbD 0 <;> cases b.getLsbD 0
  · rfl
  · exact BitVec.xor_assoc _ _ _
  · show a >>> 1 ^^^ b >>> 1 ^^^ polynomial = a >>> 1 ^^^ polynomial ^^^ b >>> 1
    rw [BitVec.xor_assoc, BitVec.xor_comm (b >>> 1), ← BitVec.xor_assoc]
  · exact (cancel _ _ _).symm

theorem bitSteps_xor (n : Nat) (a b : BitVec 32) :
    bitSteps n (a ^^^ b) = bitSteps n a ^^^ bitSteps n b := by
  induction n generalizing a b with
  | zero => rfl
  | succ n ih => rw [bitSteps, bitStep_xor, ih, bitSteps, bitSteps]

/-- The register after `n` zero bytes. -/
def zeroSteps : Nat → BitVec 32 → BitVec 32
  | 0, register => register
  | n + 1, register => zeroSteps n (byteStep register 0)

theorem byteStep_xor (a b : BitVec 32) (byte : UInt8) :
    byteStep (a ^^^ b) byte = byteStep a byte ^^^ byteStep b 0 := by
  have zero : (0 : UInt8).toBitVec.setWidth 32 = 0#32 := by decide
  rw [byteStep, byteStep, byteStep, zero, BitVec.xor_zero, ← bitSteps_xor, BitVec.xor_assoc,
    BitVec.xor_assoc, BitVec.xor_comm b]

theorem foldl_byteStep_xor (bs : Bytes) (a b : BitVec 32) :
    bs.foldl byteStep (a ^^^ b) = bs.foldl byteStep a ^^^ zeroSteps bs.length b := by
  induction bs generalizing a b with
  | nil => rfl
  | cons byte bs ih => rw [List.foldl_cons, byteStep_xor, ih, List.foldl_cons, List.length_cons, zeroSteps]

end Crc

/-- The checksum of a concatenation, from that of its first part, that of its second
part and the length of the second part. -/
def crc32cCombine (crc1 crc2 : BitVec 32) (len2 : Nat) : BitVec 32 :=
  Crc.zeroSteps len2 crc1 ^^^ crc2

theorem crc32cCombine_eq (crc : BitVec 32) (bs : Bytes) :
    crc32cCombine crc (crc32c bs) bs.length = crc32cAppend crc bs := by
  have start : ~~~crc = ~~~0 ^^^ crc := by
    rw [← BitVec.not_xor_left]
    exact congrArg _ BitVec.zero_xor.symm
  rw [crc32cCombine, crc32c, crc32cAppend, crc32cAppend, start, Crc.foldl_byteStep_xor,
    BitVec.not_xor_left, BitVec.xor_comm]

-- The check value of the CRC-32C catalogue, over the digits one to nine.
example : crc32c [0x31, 0x32, 0x33, 0x34, 0x35, 0x36, 0x37, 0x38, 0x39] = 0xE3069283#32 := by
  decide +kernel

/-! ## Single errors

The polynomial has its highest bit set, so no step loses information, and two strings that
differ in one byte have different checksums. -/

namespace Crc

theorem bitStep_eq_zero {register : BitVec 32} (zero : bitStep register = 0) : register = 0 := by
  unfold bitStep at zero
  by_cases low : register.getLsbD 0 = true
  · rw [if_pos low] at zero
    -- the bit that the shift clears is set in the polynomial
    have top : (register >>> 1 ^^^ polynomial).getLsbD 31 = true := by
      rw [BitVec.getLsbD_xor, BitVec.getLsbD_ushiftRight, BitVec.getLsbD_of_ge register _ (by decide)]
      decide
    rw [zero] at top
    exact absurd top (by decide)
  · rw [if_neg low] at zero
    apply BitVec.eq_of_getLsbD_eq
    intro i below
    cases i with
    | zero => simpa using low
    | succ i =>
        have bit := congrArg (fun register => register.getLsbD i) zero
        rw [BitVec.getLsbD_ushiftRight, Nat.add_comm] at bit
        simpa using bit

theorem bitStep_injective {a b : BitVec 32} (same : bitStep a = bitStep b) : a = b := by
  apply BitVec.xor_eq_zero_iff.mp
  apply bitStep_eq_zero
  rw [bitStep_xor, same, BitVec.xor_self]
  rfl

theorem bitSteps_injective {n : Nat} {a b : BitVec 32} (same : bitSteps n a = bitSteps n b) :
    a = b := by
  induction n generalizing a b with
  | zero => exact same
  | succ n ih => exact bitStep_injective (ih same)

theorem byteStep_injective {a b : BitVec 32} {byte : UInt8}
    (same : byteStep a byte = byteStep b byte) : a = b :=
  (BitVec.xor_left_inj _).mp (bitSteps_injective same)

theorem byteStep_byte {register : BitVec 32} {x y : UInt8}
    (same : byteStep register x = byteStep register y) : x = y := by
  have wide := (BitVec.xor_right_inj _).mp (bitSteps_injective same)
  have narrow := congrArg (BitVec.setWidth 8) wide
  simpa [UInt8.toBitVec_inj] using narrow

theorem foldl_byteStep_injective {bs : Bytes} {a b : BitVec 32}
    (same : bs.foldl byteStep a = bs.foldl byteStep b) : a = b := by
  induction bs generalizing a b with
  | nil => exact same
  | cons byte bs ih => exact byteStep_injective (ih same)

end Crc

/-- The two strings differ in one byte. -/
inductive OneByte : Bytes → Bytes → Prop
  | at (front : Bytes) (x y : UInt8) (rest : Bytes) (differ : x ≠ y) :
      OneByte (front ++ x :: rest) (front ++ y :: rest)

namespace OneByte

variable {as bs cs ds : Bytes}

theorem length (one : OneByte as bs) : bs.length = as.length := by
  obtain ⟨front, x, y, rest, differ⟩ := one
  simp

theorem ne (one : OneByte as bs) : as ≠ bs := by
  obtain ⟨front, x, y, rest, differ⟩ := one
  intro same
  exact differ (List.cons.inj (List.append_cancel_left same)).1

/-- The byte is in the one part or in the other. -/
theorem append (one : OneByte (as ++ cs) ds) :
    (∃ bs, OneByte as bs ∧ ds = bs ++ cs) ∨ ∃ bs, OneByte cs bs ∧ ds = as ++ bs := by
  generalize whole : as ++ cs = bytes at one
  obtain ⟨front, x, y, rest, differ⟩ := one
  rcases List.append_eq_append_iff.mp whole with ⟨more, rfl, rfl⟩ | ⟨more, rfl, later⟩
  · exact .inr ⟨more ++ y :: rest, .at more x y rest differ, by rw [List.append_assoc]⟩
  · cases more with
    | nil =>
        rw [List.nil_append] at later
        subst later
        exact .inr ⟨y :: rest, .at [] x y rest differ, by simp⟩
    | cons byte more =>
        rw [List.cons_append] at later
        obtain ⟨rfl, rfl⟩ := List.cons.inj later
        exact .inl ⟨front ++ y :: more, .at front x y more differ, by simp⟩

theorem checksum (one : OneByte as bs) (crc : BitVec 32) : crc32cAppend crc as ≠ crc32cAppend crc bs := by
  obtain ⟨front, x, y, rest, differ⟩ := one
  intro same
  simp only [crc32cAppend, List.foldl_append, List.foldl_cons] at same
  exact differ (Crc.byteStep_byte (Crc.foldl_byteStep_injective (BitVec.not_inj.mp same)))

theorem leNat_ne (one : OneByte as bs) : leNat as ≠ leNat bs := by
  intro same
  apply one.ne
  rw [← leBytes_leNat as, ← leBytes_leNat bs, one.length, same]

end OneByte

/-- One bit turned over; the bits of a byte are counted from the lowest. -/
def flipBit (bs : Bytes) (i : Nat) : Bytes :=
  bs.modify (i / 8) fun byte => byte ^^^ 1 <<< UInt8.ofNat (i % 8)

theorem oneByte_flipBit {bs : Bytes} {i : Nat} (inside : i < 8 * bs.length) :
    OneByte bs (flipBit bs i) := by
  have below : i / 8 < bs.length := by omega
  have bit : ∀ k < 8, (1 : UInt8) <<< UInt8.ofNat k ≠ 0 := by decide
  have split := List.take_append_drop (i / 8) bs
  rw [List.drop_eq_getElem_cons below] at split
  rw [flipBit, List.modify_eq_take_cons_drop below]
  conv => lhs; rw [← split]
  refine .at _ _ _ _ fun same => ?_
  apply bit (i % 8) (Nat.mod_lt _ (by decide))
  have := congrArg (fun byte => bs[i / 8] ^^^ byte) same
  simpa [← UInt8.xor_assoc] using this.symm

/-! ## Parts of strings

When a longer string is written over another, what stands there in between is a part of the
one and the rest of the other. -/

/-- Equal checksums were equal before the bytes that follow in both. -/
theorem crc32c_append_cancel {as bs : Bytes} (cs : Bytes)
    (same : crc32c (as ++ cs) = crc32c (bs ++ cs)) : crc32c as = crc32c bs := by
  have registers : cs.foldl Crc.byteStep (~~~crc32c as) = cs.foldl Crc.byteStep (~~~crc32c bs) := by
    rw [← not_crc32c_append, ← not_crc32c_append, same]
  exact BitVec.not_inj.mp (Crc.foldl_byteStep_injective registers)

namespace Crc

/-- The registers differ after every byte of the two strings. -/
def Apart : BitVec 32 → BitVec 32 → Bytes → Bytes → Prop
  | a, b, x :: xs, y :: ys => byteStep a x ≠ byteStep b y ∧ Apart (byteStep a x) (byteStep b y) xs ys
  | _, _, _, _ => True

instance decidableApart : ∀ a b as bs, Decidable (Apart a b as bs)
  | _, _, [], _ => isTrue trivial
  | _, _, _ :: _, [] => isTrue trivial
  | a, b, x :: xs, y :: ys =>
      have := decidableApart (byteStep a x) (byteStep b y) xs ys
      inferInstanceAs (Decidable (_ ∧ _))

theorem Apart.take {a b : BitVec 32} {as bs : Bytes} (apart : Apart a b as bs) {n : Nat}
    (some : 0 < n) (long : n ≤ as.length) (long' : n ≤ bs.length) :
    (as.take n).foldl byteStep a ≠ (bs.take n).foldl byteStep b := by
  induction n generalizing a b as bs with
  | zero => exact absurd some (Nat.lt_irrefl 0)
  | succ n ih =>
      cases as with
      | nil => exact absurd long (by simp)
      | cons x xs =>
          cases bs with
          | nil => exact absurd long' (by simp)
          | cons y ys =>
              rw [List.take_succ_cons, List.take_succ_cons, List.foldl_cons, List.foldl_cons]
              cases n with
              | zero => exact apart.1
              | succ n =>
                  exact ih apart.2 (Nat.succ_pos n) (Nat.le_of_succ_le_succ long)
                    (Nat.le_of_succ_le_succ long')

/-- No part of the string, filled up with zeros, has checksum zero. -/
def NeverZero : BitVec 32 → Bytes → Prop
  | register, [] => register ≠ BitVec.allOnes 32
  | register, x :: xs => (x ≠ 0 → zeroSteps (xs.length + 1) register ≠ BitVec.allOnes 32) ∧
      NeverZero (byteStep register x) xs

instance decidableNeverZero : ∀ register bs, Decidable (NeverZero register bs)
  | _, [] => inferInstanceAs (Decidable (_ ≠ _))
  | register, x :: xs =>
      have := decidableNeverZero (byteStep register x) xs
      inferInstanceAs (Decidable (_ ∧ _))

theorem foldl_zeros (n : Nat) (register : BitVec 32) :
    (List.replicate n 0).foldl byteStep register = zeroSteps n register := by
  induction n generalizing register with
  | zero => rfl
  | succ n ih => exact ih _

theorem NeverZero.take {register : BitVec 32} {bs : Bytes} (never : NeverZero register bs) {n : Nat}
    (le : n ≤ bs.length) :
    (bs.take n ++ List.replicate (bs.length - n) 0).foldl byteStep register ≠ BitVec.allOnes 32 := by
  induction bs generalizing register n with
  | nil =>
      cases Nat.le_zero.mp le
      exact never
  | cons x xs ih =>
      cases n with
      | succ n =>
          rw [List.length_cons, Nat.add_sub_add_right]
          exact ih never.2 (Nat.le_of_succ_le_succ le)
      | zero =>
          show (List.replicate (xs.length + 1) 0).foldl byteStep register ≠ _
          by_cases zero : x = 0
          · -- a zero is what the string is filled up with
            subst zero
            exact ih never.2 (Nat.zero_le _)
          · rw [foldl_zeros]
            exact never.1 zero

end Crc

end Lkv.Theory
