/-
# Lkv.Format.Layout — what a segment of any bytes is found to be

A file may come from anywhere, so the checks that a segment goes through when it is opened
run on arbitrary bytes.  None of them panics: the layout is settled from the footer before
anything is sliced (`segmentLayout_noPanic`, `LaidOut`), the blocks and the checksum table have
as many entries each (`verifySegmentBlocks_eq_ok`), and the records and slots of the data
are checked against its length before they are read (`validateBase_noPanic`).
-/
import Lkv.Format.Records

namespace Lkv

open Lkv.Theory

set_option autoImplicit false

/-! ## The footer -/

/-- The data is the front of the segment and the checksum table follows it. -/
structure LaidOut (bytes : Bytes) (layout : SegmentLayout) : Prop where
  data : bytes.take layout.data.length = layout.data
  table : layout.checksums.length = divCeil layout.data.length checksumBlockSize * 4
  size : layout.data.length + layout.checksums.length + checksumFooterSize = bytes.length

section Layout

variable {bytes : Bytes} {layout : SegmentLayout}

/-- What is left to do once the footer has announced the size of the data. -/
theorem layout_cases {dataSize checksumSize : Nat}
    (size : ((checkedAdd dataSize checksumSize).bind fun size =>
      checkedAdd size checksumFooterSize) = some bytes.length) :
    sliceAt bytes dataSize (dataSize + checksumSize) =
        .ok (window bytes dataSize checksumSize) ∧
      sliceAt bytes 0 dataSize = .ok (bytes.take dataSize) ∧
      dataSize + checksumSize + checksumFooterSize = bytes.length := by
  obtain ⟨sum, front, rest⟩ := Option.bind_eq_some_iff.mp size
  obtain ⟨rfl, -⟩ := checkedAdd_eq_some_iff.mp front
  obtain ⟨total, -⟩ := checkedAdd_eq_some_iff.mp rest
  have table := @sliceAt_ok bytes dataSize (dataSize + checksumSize) (by omega) (by omega)
  have data := @sliceAt_ok bytes 0 dataSize (by omega) (by omega)
  rw [Nat.add_sub_cancel_left] at table
  exact ⟨table, data, total.symm⟩

theorem segmentLayout_laidOut (laid : segmentLayout bytes = .ok layout) : LaidOut bytes layout := by
  unfold segmentLayout at laid
  split at laid
  · simp at laid
  dsimp only at laid
  split at laid
  · simp at laid
  split at laid
  · simp at laid
  split at laid
  · simp at laid
  simp only [bind_eq_ok, orFail_eq_ok, checkedMul_eq_some_iff] at laid
  obtain ⟨checksumSize, ⟨table, -⟩, laid⟩ := laid
  split at laid
  · simp at laid
  rename_i size
  obtain ⟨checksums, data, total⟩ := layout_cases (not_not.mp size)
  simp only [checksums, ok_bind] at laid
  split at laid
  · simp at laid
  rw [data] at laid
  cases laid
  have front : (bytes.take (leNat (window (window bytes (bytes.length - checksumFooterSize)
      checksumFooterSize) 8 8))).length = leNat (window (window bytes
        (bytes.length - checksumFooterSize) checksumFooterSize) 8 8) := by
    rw [List.length_take]
    omega
  exact
    { data := by rw [front]
      table := by rw [front, window_length _ _ _ (by omega), table]
      size := by rw [front, window_length _ _ _ (by omega), total] }

theorem segmentLayout_noPanic (bytes : Bytes) : NoPanic (segmentLayout bytes) := by
  unfold segmentLayout
  split
  · exact noPanic_fail
  dsimp only
  split
  · exact noPanic_fail
  split
  · exact noPanic_fail
  split
  · exact noPanic_fail
  refine (noPanic_orFail _).bind fun checksumSize _ => ?_
  split
  · exact noPanic_fail
  rename_i size
  obtain ⟨checksums, data, -⟩ := layout_cases (not_not.mp size)
  rw [checksums, ok_bind]
  split
  · exact noPanic_fail
  · rw [data]
    exact noPanic_ok

theorem segmentMetadataChecksum_noPanic (bytes : Bytes) :
    NoPanic (segmentMetadataChecksum bytes) :=
  (segmentLayout_noPanic bytes).bind fun _ _ => noPanic_ok

end Layout

/-! ## The blocks -/

/-- Every block of the data has the checksum that the table has for it. -/
def BlocksMatch (layout : SegmentLayout) : Prop :=
  ∀ b < divCeil layout.data.length checksumBlockSize,
    (crc32c (dataBlock layout.data b)).toNat = leNat (window layout.checksums (b * 4) 4)

section Blocks

variable {layout : SegmentLayout} {segmentOffset : Nat}

theorem verifyBlocksFrom_cases {i n : Nat} (inside : (i + n) * 4 ≤ layout.checksums.length) :
    (verifyBlocksFrom layout segmentOffset i n = .ok () ↔ ∀ b, i ≤ b → b < i + n →
      (crc32c (dataBlock layout.data b)).toNat = leNat (window layout.checksums (b * 4) 4)) ∧
    NoPanic (verifyBlocksFrom layout segmentOffset i n) := by
  induction n generalizing i with
  | zero => exact ⟨iff_of_true rfl fun b above below => absurd above (by omega), noPanic_ok⟩
  | succ n ih =>
      obtain ⟨accepted, safe⟩ := @ih (i + 1) (by omega)
      rw [verifyBlocksFrom, u32At_ok (by omega), ok_bind]
      by_cases first : (crc32c (dataBlock layout.data i)).toNat =
          leNat (window layout.checksums (i * 4) 4)
      · rw [if_neg (not_not.mpr first), accepted]
        refine ⟨⟨fun later b above below => ?_, fun all b above below =>
          all b (by omega) (by omega)⟩, safe⟩
        by_cases here : b = i
        · rw [here, first]
        · exact later b (by omega) (by omega)
      · rw [if_pos first]
        refine ⟨⟨fun ok => by simp at ok, fun all => ?_⟩, noPanic_fail⟩
        exact absurd (all i (by omega) (by omega)) first

variable (table : layout.checksums.length = divCeil layout.data.length checksumBlockSize * 4)

include table

theorem verifySegmentBlocks_eq_ok :
    verifySegmentBlocks layout segmentOffset = .ok () ↔ BlocksMatch layout := by
  rw [verifySegmentBlocks, (verifyBlocksFrom_cases (by rw [table]; omega)).1]
  simp only [Nat.zero_le, Nat.zero_add, forall_const]
  rfl

theorem verifySegmentBlocks_noPanic : NoPanic (verifySegmentBlocks layout segmentOffset) :=
  (verifyBlocksFrom_cases (by rw [table]; omega)).2

end Blocks

/-! ## The data -/

section Data

variable {C : Crates} {data : Bytes} {start slots len : Nat}

theorem recordsStart_noPanic (slots dataSize : Nat) : NoPanic (recordsStart slots dataSize) := by
  refine (noPanic_orFail _).bind fun start _ => ?_
  split
  · exact noPanic_fail
  · exact noPanic_ok

theorem readBaseHeader_noPanic (data : Bytes) : NoPanic (readBaseHeader data) := by
  unfold readBaseHeader
  split
  · exact noPanic_fail
  split
  · exact noPanic_fail
  dsimp only
  split
  · exact noPanic_fail
  · exact (recordsStart_noPanic _ _).bind fun _ _ => noPanic_ok

/-- The hash index that the header announces lies in the data. -/
theorem readBaseHeader_table (header : readBaseHeader data = .ok (slots, len)) :
    baseHeader + slots * slotSize ≤ data.length := by
  unfold readBaseHeader at header
  split at header
  · simp at header
  split at header
  · simp at header
  dsimp only at header
  split at header
  · simp at header
  obtain ⟨recordsAt, ran, result⟩ := bind_eq_ok.mp header
  obtain ⟨rfl, -, inside⟩ := recordsStart_eq_ok.mp ran
  cases result
  exact inside

theorem validateRecords_noPanic (word : start + data.length < 2 ^ 64) {n : Nat} {walk : RecordWalk} :
    NoPanic (validateRecords C data start n walk) := by
  induction n generalizing walk with
  | zero => exact noPanic_ok
  | succ n ih =>
      rw [validateRecords]
      refine (noPanic_orFail _).bind fun headerEnd sum => ?_
      obtain ⟨rfl, -⟩ := checkedAdd_eq_some_iff.mp (orFail_eq_ok.mp sum)
      split
      · exact noPanic_fail
      rename_i inside
      rw [u32At_ok (by omega), ok_bind, u32At_ok (by omega), ok_bind]
      refine (noPanic_orFail _).bind fun valueStart keySum => ?_
      obtain ⟨rfl, -⟩ := checkedAdd_eq_some_iff.mp (orFail_eq_ok.mp keySum)
      refine (noPanic_orFail _).bind fun stop valueSum => ?_
      obtain ⟨rfl, -⟩ := checkedAdd_eq_some_iff.mp (orFail_eq_ok.mp valueSum)
      split
      · exact noPanic_fail
      rw [sliceAt_ok (by omega) (by omega), ok_bind]
      split
      · exact noPanic_fail
      rw [addOrPanic_ok (by omega), ok_bind]
      exact ih

theorem validateSlots_noPanic {records : List (Nat × Nat)} {n first : Nat} {referenced : List Nat}
    (inside : baseHeader + (first + n) * slotSize ≤ data.length) :
    NoPanic (validateSlots data records first n referenced) := by
  induction n generalizing first referenced with
  | zero => exact noPanic_ok
  | succ n ih =>
      have slot : baseHeader + first * slotSize + slotSize ≤ data.length := by
        unfold slotSize at *
        omega
      have next : baseHeader + (first + 1 + n) * slotSize ≤ data.length := by
        rw [Nat.add_right_comm, Nat.add_assoc]
        exact inside
      unfold slotSize at slot
      rw [validateSlots]
      unfold slotSize
      rw [u32At_ok (by omega), ok_bind, u64At_ok (by omega), ok_bind]
      split
      · split
        · exact noPanic_fail
        · exact ih next
      split
      · exact noPanic_fail
      split
      · exact noPanic_fail
      · exact ih next

theorem validateBase_noPanic (word : start + data.length < 2 ^ 64) :
    NoPanic (validateBase C data start slots len) := by
  refine (recordsStart_noPanic _ _).bind fun recordsAt ran => ?_
  obtain ⟨rfl, -, inside⟩ := recordsStart_eq_ok.mp ran
  split
  · exact noPanic_fail
  refine (validateRecords_noPanic word).bind fun walk _ => ?_
  split
  · exact noPanic_fail
  refine (validateSlots_noPanic (by rw [Nat.zero_add]; exact inside)).bind fun referenced _ => ?_
  split
  · exact noPanic_fail
  · exact noPanic_ok

end Data

end Lkv
