/-
# Lkv.Database.Opening — opening a segment that was written

The verifier of a segment whose checksum table is that of `data`
(`matches_iff`), and `ActiveBase.open` on such a segment: with `OnRead` it succeeds
on the metadata and the header alone, with `Full` the whole Base is checked (`open_eq_ok`),
and a written Base passes (`open_written`).
-/
import Lkv.Format.Writer
import Lkv.Database.Iteration

namespace Lkv

open Lkv.Theory SegmentVerifier

set_option autoImplicit false

section Verifier

variable {data mapping rest : Bytes} {offset b : Nat} {full : Bool}

theorem blockOf_eq (data rest : Bytes) (b : Nat) :
    blockOf (data ++ rest) data.length b = dataBlock data b := by
  apply List.ext_getElem?
  intro i
  rw [blockOf, dataBlock, window_getElem?, window_getElem?]
  by_cases inside : b * checksumBlockSize + i < data.length
  · rw [List.getElem?_append_left inside]
    by_cases below : i < checksumBlockSize
    · rw [if_pos below, if_pos (by omega)]
    · rw [if_neg below, if_neg (by omega)]
  · rw [if_neg (by omega), List.getElem?_eq_none (by omega), ite_self]

theorem checksumWords_written (checksums : List Nat) (words : ∀ c ∈ checksums, c < 256 ^ 4) :
    checksumWords (checksums.flatMap (leBytes 4)) = checksums := by
  have size := checksumTable_length checksums
  apply List.ext_getElem
  · simp [checksumWords, size]
  · intro i below below'
    simp only [checksumWords, List.getElem_map, List.getElem_range]
    have cell := window_cell (leBytes_length 4) checksums [] below'
    rw [List.append_nil] at cell
    rw [Nat.mul_comm, cell, leNat_leBytes _ _ (words _ (List.getElem_mem below'))]

theorem blockChecksums_word (data : Bytes) : ∀ c ∈ blockChecksums data, c < 256 ^ 4 := by
  intro c member
  obtain ⟨b, _, rfl⟩ := List.mem_map.mp member
  exact crc32c_lt _

/-- The verifier of a segment whose table is that of `data`. -/
def verifierOf (offset : Nat) (seen data : Bytes) (full : Bool) : SegmentVerifier :=
  SegmentVerifier.new offset ⟨seen, (blockChecksums data).flatMap (leBytes 4)⟩ full

theorem verifierOf_checksums (offset : Nat) (seen data : Bytes) (full : Bool) :
    (verifierOf offset seen data full).checksums = blockChecksums data :=
  checksumWords_written _ (blockChecksums_word data)

/-- A block matches when its checksum is that of the block of `data`. -/
theorem matches_iff {seen : Bytes} (below : b < divCeil data.length checksumBlockSize) :
    Matches (seen ++ rest) (verifierOf offset seen data full) b ↔
      crc32c (dataBlock seen b) = crc32c (dataBlock data b) := by
  unfold Matches
  rw [verifierOf_checksums]
  change _ = some (crc32c (blockOf (seen ++ rest) seen.length b)).toNat ↔ _
  rw [blockOf_eq, List.getElem?_eq_getElem (by simpa using below), Option.some.injEq]
  simp only [blockChecksums, List.getElem_map, List.getElem_range]
  rw [← BitVec.toNat_inj]
  exact eq_comm

theorem sound_verifierOf {seen : Bytes} (same : seen.length = data.length)
    (trusted : full = true → ∀ b < divCeil data.length checksumBlockSize,
      crc32c (dataBlock seen b) = crc32c (dataBlock data b)) :
    Sound (seen ++ rest) (verifierOf offset seen data full) := by
  have count : ((blockChecksums data).flatMap (leBytes 4)).length / 4 =
      divCeil data.length checksumBlockSize := by
    rw [checksumTable_length, blockChecksums_length, Nat.mul_div_cancel _ (by decide)]
  refine sound_new (by simp) (by rw [count, same]) fun on b below => ?_
  rw [count] at below
  exact (matches_iff below).mpr (trusted on b below)

/-- A reader that checks the blocks gets the bytes of `data`, if a changed block never
has the checksum of the original. -/
theorem guarded_verifierOf {seen : Bytes} (same : seen.length = data.length)
    (caught : ∀ b < divCeil data.length checksumBlockSize, dataBlock seen b ≠ dataBlock data b →
      crc32c (dataBlock seen b) ≠ crc32c (dataBlock data b)) :
    Guarded data (seen ++ rest) true (verifierOf offset seen data false) where
  size := same
  inside := by simp [same]
  trusted := nofun
  sound _ := sound_verifierOf same nofun
  genuine _ b below matched := by
    rw [verifierOf_checksums, blockChecksums_length] at below
    have equal := (matches_iff below).mp matched
    have block : dataBlock seen b = dataBlock data b := by
      by_contra differs
      exact caught b below differs equal
    change blockOf (seen ++ rest) seen.length b = blockOf data seen.length b
    rw [blockOf_eq, block, same]
    have := blockOf_eq data [] b
    rw [List.append_nil] at this
    exact this.symm

theorem allMatch_verifierOf : AllMatch (data ++ rest) (verifierOf offset data data full) := by
  intro b below
  rw [verifierOf_checksums, blockChecksums_length] at below
  exact (matches_iff below).mpr rfl

end Verifier

/-! ## `ActiveBase.open` -/

theorem IsBase.roomy {C : Crates} {start slots : Nat} {entries : List Entry} {data : Bytes}
    (isBase : IsBase C start entries slots data) : Roomy data true := by
  have size := isBase.size
  rw [segmentBytes_length] at size
  unfold divCeil checksumBlockSize checksumFooterSize at size
  exact ⟨by omega, fun _ => by omega⟩

section Open

variable {C : Crates} {file : File} {mapping : BaseBytes} {sb : Superblock} {base : ActiveBase}

/-- An `OnRead` open looks at the checksum metadata and at the header, a `Full` open also at
the blocks and the records. -/
theorem open_eq_ok {verification : VerificationMode} :
    ActiveBase.open C file mapping sb verification = .ok base ↔
      ∃ layout, segmentLayout (mapping.deref file) = .ok layout ∧
        (crc32c ((mapping.deref file).drop layout.data.length)).toNat = sb.baseChecksum ∧
        readBaseHeader layout.data = .ok (sb.baseSlots, sb.baseLen) ∧
        (verification = .full → BlocksMatch layout ∧
          validateBase C layout.data sb.baseOffset sb.baseSlots sb.baseLen = .ok ()) ∧
        base = ActiveBase.new mapping
          (SegmentVerifier.new sb.baseOffset layout (verification = .full)) sb
          sb.baseSlots sb.baseLen := by
  unfold ActiveBase.open
  simp only [segmentMetadataChecksum]
  constructor
  · intro opened
    simp only [bind_eq_ok] at opened
    obtain ⟨layout, laid, _, ⟨layout', laid', ⟨⟩⟩, opened⟩ := opened
    rw [laid] at laid'
    cases laid'
    split at opened
    · simp at opened
    rename_i checksum
    cases verification with
    | onRead =>
        simp only [reduceCtorEq, if_false, ok_bind, bind_eq_ok] at opened
        obtain ⟨⟨slots, len⟩, header, opened⟩ := opened
        split at opened
        · simp at opened
        rename_i agree
        simp only [ne_eq, not_or, not_not] at agree checksum
        obtain ⟨rfl, rfl⟩ := agree
        cases opened
        exact ⟨layout, laid, checksum, header, nofun, rfl⟩
    | full =>
        simp only [if_true, bind_eq_ok] at opened
        obtain ⟨⟨⟩, blocks, ⟨slots, len⟩, header, opened⟩ := opened
        split at opened
        · simp at opened
        rename_i agree
        simp only [ne_eq, not_or, not_not] at agree checksum
        obtain ⟨rfl, rfl⟩ := agree
        obtain ⟨⟨⟩, valid, ⟨⟩⟩ := bind_eq_ok.mp opened
        rw [verifySegmentBlocks_eq_ok (segmentLayout_laidOut laid).table] at blocks
        exact ⟨layout, laid, checksum, header, fun _ => ⟨blocks, valid⟩, rfl⟩
  · rintro ⟨layout, laid, checksum, header, full, rfl⟩
    rw [laid, ok_bind, ok_bind]
    change (if _ ≠ _ then _ else _) = _
    rw [if_neg (not_not.mpr checksum)]
    cases verification with
    | onRead =>
        simp only [reduceCtorEq, if_false, ok_bind, header, ne_eq, not_true_eq_false, or_self]
        rfl
    | full =>
        obtain ⟨blocks, valid⟩ := full rfl
        rw [if_pos rfl, (verifySegmentBlocks_eq_ok (segmentLayout_laidOut laid).table).mpr blocks, ok_bind,
          header, ok_bind]
        simp only [ne_eq, not_true_eq_false, or_self, if_false, valid, ok_bind]
        rfl

theorem open_noPanic {verification : VerificationMode}
    (word : sb.baseOffset + (mapping.deref file).length < 2 ^ 64) :
    NoPanic (ActiveBase.open C file mapping sb verification) := by
  refine (segmentLayout_noPanic _).bind fun layout laid => ?_
  have table := (segmentLayout_laidOut laid).table
  have inside := (segmentLayout_laidOut laid).size
  refine (segmentMetadataChecksum_noPanic _).bind fun _ _ => ?_
  split
  · exact noPanic_fail
  cases verification with
  | onRead =>
      refine noPanic_ok.bind fun _ _ => (readBaseHeader_noPanic _).bind fun header _ => ?_
      dsimp only
      split
      · exact noPanic_fail
      · exact noPanic_ok
  | full =>
      refine (verifySegmentBlocks_noPanic table).bind fun _ _ =>
        (readBaseHeader_noPanic _).bind fun header _ => ?_
      dsimp only
      split
      · exact noPanic_fail
      · exact (validateBase_noPanic (by omega)).bind fun _ _ => noPanic_ok

variable {start slots : Nat} {entries : List Entry} {data : Bytes} {verification : VerificationMode}

/-- The root names the Base of `entries`. -/
structure Describes (sb : Superblock) (start slots : Nat) (entries : List Entry) (data : Bytes) :
    Prop where
  offset : sb.baseOffset = start
  slots : sb.baseSlots = slots
  len : sb.baseLen = entries.length
  checksum : sb.baseChecksum = metadataChecksum data

theorem metadata_drop (data : Bytes) :
    (crc32c ((segmentBytes data).drop data.length)).toNat = metadataChecksum data := by
  rw [segmentBytes, List.drop_left]
  rfl

/-- A written Base with distinct keys opens in either mode. -/
theorem open_written (isBase : IsBase C start entries slots data)
    (distinct : (entries.map Prod.fst).Nodup) (held : mapping.deref file = segmentBytes data)
    (describes : Describes sb start slots entries data) :
    ActiveBase.open C file mapping sb verification =
      .ok (ActiveBase.new mapping (verifierOf start data data (verification = .full)) sb slots
        entries.length) := by
  obtain ⟨offset, slotsIs, lenIs, checksum⟩ := describes
  obtain ⟨index, laid, dataIs⟩ := isBase.laid
  have header : readBaseHeader data = .ok (slots, entries.length) := dataIs ▸ laid.header
  have layout := isBase.segmentLayout
  have valid : validateBase C data start slots entries.length = .ok () :=
    validateBase_eq_ok.mpr ⟨entries, rfl, dataIs ▸ laid.shape distinct⟩
  have blocks := (verifySegmentBlocks_eq_ok (segmentLayout_laidOut layout).table).mp
    (verifySegmentBlocks_written data start)
  rw [open_eq_ok, held]
  refine ⟨_, layout, ?_, ?_, fun _ => ⟨blocks, ?_⟩, ?_⟩
  · rw [metadata_drop, checksum]
  · rw [header, slotsIs, lenIs]
  · rw [offset, slotsIs, lenIs]
    exact valid
  · rw [offset, slotsIs, lenIs]
    rfl

/-- Installing a written Base trusts it. -/
theorem install_written (isBase : IsBase C start entries slots data)
    (held : mapping.deref file = segmentBytes data)
    (describes : Describes sb start slots entries data) :
    ActiveBase.install file mapping sb =
      .ok (ActiveBase.new mapping (verifierOf start data data true) sb slots entries.length) := by
  obtain ⟨offset, slotsIs, lenIs, -⟩ := describes
  obtain ⟨index, laid, dataIs⟩ := isBase.laid
  have header : readBaseHeader data = .ok (slots, entries.length) := dataIs ▸ laid.header
  unfold ActiveBase.install
  rw [held, isBase.segmentLayout, ok_bind, header, ok_bind]
  simp only [slotsIs, lenIs, offset, ne_eq, not_true_eq_false, or_self, if_false]
  rfl

end Open

end Lkv
