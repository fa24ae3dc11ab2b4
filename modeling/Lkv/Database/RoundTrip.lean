/-
# Lkv.Database.RoundTrip — a Base read back

What the readers of a Base find in the segment that the writer makes: the layout, the
checksums and the header are accepted, the walk over the records gives the entries in
order, and a lookup answers with the entries (`IsBase.get_eq`, `IsBase.lookup`).  For a
list of entries with distinct keys, `writeBase_roundTrip` puts writer and readers together.
-/
import Lkv.Database.Integrity
import Lkv.Database.Opening
import Lkv.Theory.Dictionary

namespace Lkv
open Lkv.Theory Lkv.Theory.Prog Dictionary SegmentVerifier

set_option autoImplicit false

/-! ## Reading a written segment -/

section Written

variable {C : Crates} {start slots : Nat} {entries : List Entry} {data : Bytes} {v : SegmentVerifier}

theorem guarded_written (size : v.dataSize = data.length) (sound : v.Sound (segmentBytes data))
    (verifying : Bool) : Guarded data (segmentBytes data) verifying v where
  size := size
  inside := by
    rw [segmentBytes_length]
    omega
  trusted _ i below := by
    rw [segmentBytes, List.getElem?_append_left below]
  sound _ := sound
  genuine _ b _ _ := by
    have alone := blockOf_eq data [] b
    rw [List.append_nil] at alone
    rw [size, segmentBytes, blockOf_eq, alone]

theorem allMatch_written (size : v.dataSize = data.length) (table : v.checksums = blockChecksums data) :
    AllMatch (segmentBytes data) v := by
  have all := @allMatch_verifierOf data (checksumMetadata data.length (blockChecksums data)) 0 false
  intro b below
  have fits : b < (verifierOf 0 data data false).checksums.length := by
    rw [verifierOf_checksums, ← table]
    exact below
  have matched := all b fits
  unfold Matches at matched ⊢
  rw [table, size]
  rwa [verifierOf_checksums] at matched

theorem segmentMetadataChecksum_written (isBase : IsBase C start entries slots data) :
    segmentMetadataChecksum (segmentBytes data) = .ok (metadataChecksum data) := by
  unfold segmentMetadataChecksum
  rw [isBase.segmentLayout, ok_bind]
  show Except.ok _ = _
  rw [metadata_drop]

namespace IsBase

theorem pointed (isBase : IsBase C start entries slots data) : Pointed data start slots := by
  obtain ⟨index, laid, dataIs⟩ := isBase.laid
  rw [dataIs]
  exact laid.pointed

/-- With distinct keys, the index of a Base is the map of its entries. -/
theorem get_eq (isBase : IsBase C start entries slots data) (distinct : Distinct entries)
    (key : Bytes) : baseGet C data start slots key = latest entries key := by
  obtain ⟨index, laid, rfl⟩ := isBase.laid
  have shape := laid.shape distinct
  cases found : latest entries key with
  | none =>
      refine shape.get_none fun entry member same => ?_
      exact latest_eq_none_iff.mp found (List.mem_map.mpr ⟨entry, member, same⟩)
  | some value =>
      exact shape.get_all_iff.mpr laid.paths (key, value) (mem_of_latest found)

/-- The walk over the records meets every entry. -/
theorem walk_eq (isBase : IsBase C start entries slots data) :
    walkBase (segmentBytes data) data.length entries.length (baseHeader + slots * slotSize) =
      (Lkv.placed (baseHeader + slots * slotSize) entries, none) := by
  obtain ⟨index, laid, dataIs⟩ := isBase.laid
  rw [segmentBytes, walkBase_append, dataIs]
  exact walkBase_of_walk le_rfl (dataIs ▸ isBase.roomy.1) laid.walk

/-- A lookup answers with the entries, whatever the verifier remembers. -/
theorem lookup (isBase : IsBase C start entries slots data) (distinct : Distinct entries)
    (size : v.dataSize = data.length) (table : v.checksums = blockChecksums data)
    (sound : v.Sound (segmentBytes data)) (verification : VerificationMode) (key : Bytes) :
    ∃ v', lookupSegment (segmentBytes data) verification start slots key (C.hash key) v =
        (.ok (latest entries key), v') ∧ Same v v' ∧ v'.Sound (segmentBytes data) := by
  have roomy := isBase.roomy
  obtain ⟨v', ran, guarded, same⟩ := lookupSegment_eq C (guarded_written size sound _)
    ⟨roomy.1, fun _ => roomy.2 rfl⟩ isBase.pointed (fun _ => allMatch_written size table) key
  rw [isBase.get_eq distinct] at ran
  refine ⟨v', ran, same, ?_⟩
  cases checking : checksOnRead verification v with
  | true => exact guarded.sound checking
  | false =>
      have unchanged := lookupSegment_unchecked (segmentBytes data) key checking start slots
        (C.hash key)
      rw [ran] at unchanged
      have unchanged : v' = v := unchanged
      exact unchanged ▸ sound

/-- A Base with distinct keys passes the full check. -/
theorem validated (isBase : IsBase C start entries slots data) (distinct : Distinct entries) :
    validateBase C data start slots entries.length = .ok () := by
  obtain ⟨index, laid, dataIs⟩ := isBase.laid
  exact validateBase_eq_ok.mpr ⟨entries, rfl, dataIs ▸ laid.shape distinct⟩

theorem header (isBase : IsBase C start entries slots data) :
    readBaseHeader data = .ok (slots, entries.length) := by
  obtain ⟨index, laid, dataIs⟩ := isBase.laid
  exact dataIs ▸ laid.header

end IsBase

end Written

/-! ## Writing a list -/

/-- The entries of a list, in order. -/
def Feed.ofList : Feed (List Entry) where
  next
    | _, [] => .ok (Option.none, [])
    | _, entry :: rest => .ok (Option.some entry, rest)
  bound entries := entries.length + 1

theorem yields_ofList (P : File → Prop) (entries : List Entry) :
    Yields Feed.ofList P entries entries := by
  induction entries with
  | nil => exact .done _ fun _ _ => ⟨_, rfl⟩
  | cons entry rest ih => exact .more _ _ _ _ (fun _ _ => rfl) ih

/-- The writer fed from a list writes its Base. -/
theorem writes_ofList {C : Crates} {start slots : Nat} {entries : List Entry} {data : Bytes} {d : Disk}
    (isBase : IsBase C start entries slots data) (quiet : d.Quiet) :
    ∃ d', writeBaseWithMetadataAt C Feed.ofList start entries.length entries d =
        (.ok ⟨(segmentBytes data).length, slots, entries.length, metadataChecksum data⟩, d') ∧
      d'.file = d.file.write start (segmentBytes data) := by
  have ready : Ready Feed.ofList (fun _ => True) d start entries.length entries entries slots :=
    ⟨yields_ofList _ entries, rfl, isBase.count, isBase.length ▸ isBase.word,
      isBase.segmentSize ▸ isBase.size, Nat.lt_succ_self _, fun _ _ => trivial⟩
  have spec := @wp_writeBaseWithMetadataAt _ C Feed.ofList (fun _ => True) start entries.length entries d
  unfold wp at spec
  cases ran : writeBaseWithMetadataAt C Feed.ofList start entries.length entries d with
  | mk r d' =>
      rw [ran] at spec
      cases r with
      | ok written =>
          obtain ⟨entries', slots', data', isBase', _, rfl, file, _, only⟩ := spec
          cases only _ _ ready
          obtain ⟨rfl, rfl⟩ := isBase'.unique isBase
          exact ⟨d', rfl, file⟩
      | error e => exact absurd quiet ((spec _ _ ready).1.due isBase.valid)

/-- The bytes that were written read back as the entries: every reader accepts them, the
records are the entries in order, and a lookup finds just them. -/
structure ReadsBack (C : Crates) (start : Nat) (entries : List Entry) (written : WrittenBase)
    (bytes : Bytes) (layout : SegmentLayout) : Prop where
  laid : segmentLayout bytes = .ok layout
  blocks : verifySegmentBlocks layout start = .ok ()
  header : readBaseHeader layout.data = .ok (written.slots, written.len)
  valid : validateBase C layout.data start written.slots written.len = .ok ()
  metadata : segmentMetadataChecksum bytes = .ok written.metadataChecksum
  walk : ∃ offsets, walkBase bytes layout.data.length written.len
    (baseHeader + written.slots * slotSize) = (offsets, none) ∧ offsets.map Prod.snd = entries
  found : ∀ (full : Bool) (verification : VerificationMode), ∀ entry ∈ entries,
    (lookupSegment bytes verification start written.slots entry.1 (C.hash entry.1)
      (SegmentVerifier.new start layout full)).1 = .ok (some entry.2)
  absent : ∀ (full : Bool) (verification : VerificationMode) (key : Bytes),
    (∀ entry ∈ entries, entry.1 ≠ key) →
    (lookupSegment bytes verification start written.slots key (C.hash key)
      (SegmentVerifier.new start layout full)).1 = .ok none

/-- A list of entries with distinct keys, written and read back. -/
theorem writeBase_roundTrip (C : Crates) {entries : List Entry} {start slots : Nat} {d : Disk}
    (distinct : (entries.map Prod.fst).Nodup)
    (lengths : ∀ entry ∈ entries, checkLengths entry.1 entry.2 = .ok ())
    (count : baseSlotCount entries.length = .ok slots)
    (word : start + segmentSize slots entries < 2 ^ 64) (quiet : d.Quiet) :
    ∃ written d' layout,
      writeBaseWithMetadataAt C Feed.ofList start entries.length entries d = (.ok written, d') ∧
      written.len = entries.length ∧
      ReadsBack C start entries written (d'.file.slice start written.size) layout := by
  have dataWord : start + (baseHeader + slots * slotSize + totalSize entries) < 2 ^ 64 := by
    unfold segmentSize at word
    omega
  obtain ⟨data, isBase⟩ : ∃ data, IsBase C start entries slots data := exists_isBase C count
    (fun entry member => checkLengths_eq_ok.mp (lengths entry member)) dataWord (by omega)
  obtain ⟨d', ran, file⟩ := writes_ofList isBase quiet
  have bytes : d'.file.slice start (segmentBytes data).length = segmentBytes data := by
    rw [file]
    exact File.holds_write d.file start (segmentBytes data)
  have lookup : ∀ (full : Bool) (verification : VerificationMode) (key : Bytes),
      (lookupSegment (segmentBytes data) verification start slots key (C.hash key)
        (SegmentVerifier.new start ⟨data, (blockChecksums data).flatMap (leBytes 4)⟩ full)).1 =
        .ok (latest entries key) := by
    intro full verification key
    obtain ⟨v', ran, -⟩ := isBase.lookup distinct
      (v := verifierOf start data data full) rfl (verifierOf_checksums ..)
      (sound_verifierOf rfl fun _ _ _ => rfl) verification key
    unfold verifierOf at ran
    rw [ran]
  refine ⟨_, d', ⟨data, (blockChecksums data).flatMap (leBytes 4)⟩, ran, rfl, ?_⟩
  dsimp only
  rw [bytes]
  exact
    { laid := isBase.segmentLayout
      blocks := verifySegmentBlocks_written data start
      header := isBase.header
      valid := isBase.validated distinct
      metadata := segmentMetadataChecksum_written isBase
      walk := ⟨_, isBase.walk_eq, placed_map_snd _ _⟩
      found := by
        intro full verification entry member
        rw [lookup, (latest_eq_some_iff distinct).mpr member]
      absent := by
        intro full verification key absent
        rw [lookup, latest_eq_none_iff.mpr]
        intro member
        obtain ⟨entry, inside, same⟩ := List.mem_map.mp member
        exact absent entry inside same }

theorem writeBase_roundTrip_one : ∃ written d' layout,
    writeBaseWithMetadataAt zeroHash Feed.ofList dataStart 1 [([1], [2])] (Disk.ofFile File.empty []) =
      (.ok written, d') ∧ written.len = 1 ∧
    ReadsBack zeroHash dataStart [([1], [2])] written (d'.file.slice dataStart written.size) layout :=
  @writeBase_roundTrip zeroHash [([1], [2])] dataStart 2 (Disk.ofFile File.empty []) (by decide)
    (by decide) (by decide) (by decide) (Disk.quiet_ofFile File.empty)

end Lkv
