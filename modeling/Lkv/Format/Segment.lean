/-
# Lkv.Format.Segment — the Base segment: writer, layout, validator

`format/segment.rs`.  A Base is a frozen open-addressing hash table, its packed
records, one CRC-32C per 64 KiB of data, and a footer.  The writer takes its
entries from an iterator that may read the very file being written (a mapped
Base or Overlay), so it is given as a `Feed`: each `next` sees the file as it
is at that moment.

Loops of the source carry a fuel argument; running out of it is `Stop.diverge`,
never a result.
-/
import Lkv.Storage

namespace Lkv

open Lkv.Theory

set_option autoImplicit false

def baseHeader : Nat := 24
def slotSize : Nat := 12
def checksumBlockSize : Nat := 64 * 1024
def checksumFooterSize : Nat := 24
def emptySegmentSize : Nat := baseHeader + 4 + checksumFooterSize
def maxKeySize : Nat := 1024 * 1024
def maxValueSize : Nat := 2 ^ 32 - 1
def writeBufferSize : Nat := 256 * 1024

/-- `b"HASH"`. -/
def hashSectionId : Bytes := [0x48, 0x41, 0x53, 0x48]

/-- `b"CRC3"`. -/
def checksumSectionId : Bytes := [0x43, 0x52, 0x43, 0x33]

def checkLengths (key value : Bytes) : Res Unit :=
  if key.length > maxKeySize ∨ value.length > maxValueSize then
    fail (.fromIo .invalidInput (s!"key or value exceeds the format limit ({maxKeySize} key bytes, " ++
      s!"{maxValueSize} value bytes)"))
  else .ok ()

/-- `div_ceil`. -/
def divCeil (a b : Nat) : Nat := (a + b - 1) / b

/-! ## Records -/

/-- The record at `offset`: key, value and the offset after it. -/
def recordAt (mapping : Bytes) (offset dataSize : Nat) : Res (Bytes × Bytes × Nat) := do
  let headerEnd ← orFail ((checkedAdd offset 8).filter (· ≤ dataSize))
    (.invalidBase "truncated record header")
  let header ← orFail (getRange mapping offset headerEnd)
    (.invalidBase "record header lies outside mapping")
  let keyLen := leNat (window header 0 4)
  let valueLen := leNat (window header 4 4)
  let valueStart ← orFail (checkedAdd headerEnd keyLen)
    (.invalidBase "record key length overflow")
  let stop ← orFail ((checkedAdd valueStart valueLen).filter (· ≤ dataSize))
    (.invalidBase "record extends beyond segment")
  let key ← orFail (getRange mapping headerEnd valueStart)
    (.invalidBase "record key lies outside mapping")
  let value ← orFail (getRange mapping valueStart stop)
    (.invalidBase "record value lies outside mapping")
  return (key, value, stop)

/-- The record at `offset` without checks: an offset outside the mapping panics. -/
def trustedRecordAt (mapping : Bytes) (offset : Nat) : Res (Bytes × Bytes × Nat) := do
  let keyLen ← u32At mapping offset
  let valueLen ← u32At mapping (← addOrPanic offset 4)
  let keyStart ← addOrPanic offset 8
  let valueStart ← addOrPanic keyStart keyLen
  let stop ← addOrPanic valueStart valueLen
  return (← sliceAt mapping keyStart valueStart, ← sliceAt mapping valueStart stop, stop)

/-! ## Sizes -/

/-- `usize::checked_next_power_of_two`. -/
def checkedNextPowerOfTwo (n : Nat) : Option Nat :=
  let power := if n ≤ 1 then 1 else 2 ^ (Nat.log2 (n - 1) + 1)
  if power < 2 ^ 64 then some power else none

def baseSlotCount (len : Nat) : Res Nat :=
  if len = 0 then .ok 0
  else orFail ((checkedMul len 5).bind fun scaled => checkedNextPowerOfTwo (divCeil scaled 4))
    (.fromIo .invalidInput "too many entries")

/-! ## Writing a Base -/

/-- The entries a Base is built from, pulled one at a time. -/
structure Feed (ι : Type) where
  next : File → ι → Res (Option (Bytes × Bytes) × ι)
  /-- More calls of `next` than the iteration can take. -/
  bound : ι → Nat

/-- `std::iter::empty()`. -/
def Feed.none : Feed Unit := ⟨fun _ _ => .ok (Option.none, ()), fun _ => 1⟩

/-- The first free slot from `slot` on, cyclically. -/
def freeSlot (index : List (Nat × Nat)) (slots : Nat) : Nat → Nat → Res Nat
  | 0, _ => .error .diverge
  | fuel + 1, slot =>
      match index[slot]? with
      | none => panic "index out of bounds"
      | some entry =>
          if entry.2 = 0 then .ok slot
          else freeSlot index slots fuel ((slot + 1) &&& (slots - 1))

/-- Claim a slot for the record of `key` at `offset`. -/
def placeEntry (C : Crates) (index : List (Nat × Nat)) (slots : Nat) (key : Bytes)
    (offset : Nat) : Res (List (Nat × Nat)) :=
  if slots = 0 then panic "attempt to subtract with overflow"
  else do
    let h := C.hash key
    let slot ← freeSlot index slots slots (h &&& (slots - 1))
    return index.set slot (h >>> 32, offset)

structure RecordsWritten where
  index : List (Nat × Nat)
  offset : Nat
  writtenLen : Nat

/-- The loop over the entries: write each record, claim its slot. -/
def writeRecords {ι : Type} (C : Crates) (feed : Feed ι) (slots : Nat) :
    Nat → ι → RecordsWritten → Io RecordsWritten
  | 0, _, _ => Prog.stop .diverge
  | fuel + 1, entries, written => do
      match ← Prog.lift (feed.next (← Prog.state).file entries) with
      | (none, _) => return written
      | (some (key, value), entries) =>
          Prog.lift (checkLengths key value)
          Io.bufWrite writeBufferSize (leBytes 4 key.length)
          Io.bufWrite writeBufferSize (leBytes 4 value.length)
          Io.bufWrite writeBufferSize key
          Io.bufWrite writeBufferSize value
          let index ← Prog.lift (placeEntry C written.index slots key written.offset)
          let offset ← Prog.lift (orFail (checkedAdd written.offset (8 + key.length + value.length))
            (.fromIo .invalidInput "base is too large"))
          writeRecords C feed slots fuel entries ⟨index, offset, written.writtenLen + 1⟩

/-- The loop over the slot table. -/
def writeSlots : List (Nat × Nat) → Io Unit
  | [] => pure ()
  | (fingerprint, offset) :: rest => do
      Io.bufWrite writeBufferSize (leBytes 4 fingerprint)
      Io.bufWrite writeBufferSize (leBytes 8 offset)
      writeSlots rest

structure WrittenSegment where
  size : Nat
  metadataChecksum : Nat
  deriving DecidableEq

structure WrittenBase where
  size : Nat
  slots : Nat
  len : Nat
  metadataChecksum : Nat
  deriving DecidableEq

/-- The checksum table and the footer. -/
def checksumMetadata (dataSize : Nat) (checksums : List Nat) : Bytes :=
  let table := checksums.flatMap (leBytes 4)
  table ++ checksumSectionId ++ leBytes 4 checksumFooterSize ++ leBytes 8 dataSize ++
    leBytes 4 checksumBlockSize ++ leBytes 4 (crc32c table).toNat

/-- Read the data back block by block and checksum each. -/
def readBlockChecksums : Nat → Nat → List Nat → Io (List Nat)
  | 0, _, _ => Prog.stop .diverge
  | fuel + 1, remaining, checksums =>
      if remaining = 0 then return checksums
      else do
        let len := min remaining checksumBlockSize
        let block ← Io.readExact len
        readBlockChecksums fuel (remaining - len) (checksums ++ [(crc32c block).toNat])

def appendBlockChecksums (start dataSize : Nat) : Io WrittenSegment := do
  let blockCount := divCeil dataSize checksumBlockSize
  Io.seekStart start
  let checksums ← readBlockChecksums (blockCount + 1) dataSize []
  let tableSize ← Prog.lift (orFail (checkedMul checksums.length 4)
    (.fromIo .invalidInput "checksum table is too large"))
  let _ ← Prog.lift (orFail (checkedAdd tableSize checksumFooterSize)
    (.fromIo .invalidInput "checksum table is too large"))
  Io.reserve (.fromIo .invalidInput "checksum table is too large")
  let metadata := checksumMetadata dataSize checksums
  Io.seekStart (start + dataSize)
  Io.writeAll metadata
  let size ← Prog.lift (orFail (checkedAdd dataSize metadata.length)
    (.fromIo .invalidInput "segment is too large"))
  return ⟨size, (crc32c metadata).toNat⟩

def writeBaseWithMetadataAt {ι : Type} (C : Crates) (feed : Feed ι) (start len : Nat)
    (entries : ι) : Io WrittenBase := do
  let slots ← Prog.lift (baseSlotCount len)
  let indexBytes ← Prog.lift (orFail (checkedMul slots slotSize)
    (.fromIo .invalidInput "base index is too large"))
  let recordsStart ← Prog.lift (orFail
    ((checkedAdd start baseHeader).bind fun offset => checkedAdd offset indexBytes)
    (.fromIo .invalidInput "base offset overflow"))
  Io.seekStart recordsStart
  let written ← Io.withBufWriter do
    let written ← writeRecords C feed slots (feed.bound entries) entries
      ⟨List.replicate slots (0, 0), recordsStart, 0⟩
    Io.flushBuf
    return written
  if written.writtenLen ≠ len then
    Prog.stop (.err (.fromIo .invalidInput "entry count changed while writing base"))
  else
    Io.seekStart start
    Io.withBufWriter do
      Io.bufWrite writeBufferSize hashSectionId
      Io.bufWrite writeBufferSize (leBytes 4 baseHeader)
      Io.bufWrite writeBufferSize (leBytes 8 slots)
      Io.bufWrite writeBufferSize (leBytes 8 len)
      Prog.onlyIf (slots > 0) (writeSlots written.index)
      Io.flushBuf
    let segment ← appendBlockChecksums start (written.offset - start)
    return ⟨segment.size, slots, len, segment.metadataChecksum⟩

/-- `write_base_at`. -/
def writeBaseAt {ι : Type} (C : Crates) (feed : Feed ι) (start len : Nat) (entries : ι) :
    Io Nat := do
  return (← writeBaseWithMetadataAt C feed start len entries).size

/-! ## Measuring -/

def measureEntries {ι : Type} (feed : Feed ι) (file : File) :
    Nat → ι → Nat → Nat → Res (Nat × Nat)
  | 0, _, _, _ => .error .diverge
  | fuel + 1, entries, observed, recordsSize => do
      match ← feed.next file entries with
      | (none, _) => return (observed, recordsSize)
      | (some (key, value), entries) =>
          let observed ← orFail (checkedAdd observed 1) (.fromIo .invalidInput "too many entries")
          let recordsSize ← orFail
            (((checkedAdd recordsSize 8).bind fun size => checkedAdd size key.length).bind
              fun size => checkedAdd size value.length)
            (.fromIo .invalidInput "base is too large")
          measureEntries feed file fuel entries observed recordsSize

/-- The number of entries and the size of the Base they make. -/
def measureBaseIter {ι : Type} (feed : Feed ι) (file : File) (entries : ι) : Res (Nat × Nat) := do
  let (observed, recordsSize) ← measureEntries feed file (feed.bound entries) entries 0 baseHeader
  let slots ← baseSlotCount observed
  let tooLarge := Error.fromIo .invalidInput "base is too large"
  let size ← orFail ((checkedMul slots slotSize).bind fun bytes => checkedAdd recordsSize bytes)
    tooLarge
  let checksumSize ← orFail ((checkedMul (divCeil size checksumBlockSize) 4).bind
    fun checksums => checkedAdd checksums checksumFooterSize) tooLarge
  let total ← orFail (checkedAdd size checksumSize) tooLarge
  return (observed, total)

/-! ## Reading a segment -/

structure SegmentLayout where
  data : Bytes
  checksums : Bytes
  deriving DecidableEq

def segmentLayout (bytes : Bytes) : Res SegmentLayout :=
  if bytes.length < checksumFooterSize then fail (.invalidBase "missing checksum footer")
  else
    let footer := window bytes (bytes.length - checksumFooterSize) checksumFooterSize
    if window footer 0 4 ≠ checksumSectionId then fail (.invalidBase "invalid checksum footer")
    else if leNat (window footer 4 4) ≠ checksumFooterSize then
      fail (.invalidBase "invalid checksum footer size")
    else
      let dataSize := leNat (window footer 8 8)
      if leNat (window footer 16 4) ≠ checksumBlockSize then
        fail (.invalidBase "unsupported checksum block size")
      else do
        let checksumSize ← orFail (checkedMul (divCeil dataSize checksumBlockSize) 4)
          (.invalidBase "checksum table overflow")
        if ((checkedAdd dataSize checksumSize).bind
            fun size => checkedAdd size checksumFooterSize) ≠ some bytes.length then
          fail (.invalidBase "checksum layout does not match segment size")
        else
          let checksums ← sliceAt bytes dataSize (dataSize + checksumSize)
          if (crc32c checksums).toNat ≠ leNat (window footer 20 4) then
            fail (.corruptedMetadata "checksum table CRC32C mismatch")
          else return ⟨← sliceAt bytes 0 dataSize, checksums⟩

/-- Block `i` of the data. -/
def dataBlock (data : Bytes) (i : Nat) : Bytes :=
  window data (i * checksumBlockSize) checksumBlockSize

def verifyBlocksFrom (layout : SegmentLayout) (segmentOffset : Nat) : Nat → Nat → Res Unit
  | _, 0 => .ok ()
  | i, n + 1 => do
      if (crc32c (dataBlock layout.data i)).toNat ≠ (← u32At layout.checksums (i * 4)) then
        fail (.corruptedBlock segmentOffset i)
      else verifyBlocksFrom layout segmentOffset (i + 1) n

def verifySegmentBlocks (layout : SegmentLayout) (segmentOffset : Nat) : Res Unit :=
  verifyBlocksFrom layout segmentOffset 0 (divCeil layout.data.length checksumBlockSize)

def segmentMetadataChecksum (bytes : Bytes) : Res Nat := do
  let layout ← segmentLayout bytes
  return (crc32c (bytes.drop layout.data.length)).toNat

def recordsStart (slots dataSize : Nat) : Res Nat := do
  let start ← orFail ((checkedMul slots slotSize).bind fun size => checkedAdd baseHeader size)
    (.invalidBase "hash index size overflow")
  if start > dataSize then fail (.invalidBase "truncated hash index")
  else return start

/-- `u64::is_power_of_two`. -/
def isPowerOfTwo (n : Nat) : Bool := n ≠ 0 && 2 ^ Nat.log2 n = n

def readBaseHeader (bytes : Bytes) : Res (Nat × Nat) :=
  if bytes.length < baseHeader ∨ window bytes 0 4 ≠ hashSectionId then
    fail (.fromIo .invalidData "invalid base file")
  else if leNat (window bytes 4 4) ≠ baseHeader then
    fail (.fromIo .invalidData "invalid base header size")
  else
    let slots := leNat (window bytes 8 8)
    let len := leNat (window bytes 16 8)
    if slots ≠ 0 ∧ ¬isPowerOfTwo slots then fail (.fromIo .invalidData "invalid slot count")
    else do
      let _ ← recordsStart slots bytes.length
      return (slots, len)

/-! ## The semantic check of a Base -/

/-- The records walked so far: the offset after them, their absolute offsets with
fingerprints, and their keys. -/
structure RecordWalk where
  offset : Nat
  records : List (Nat × Nat)
  keys : List Bytes

def validateRecords (C : Crates) (bytes : Bytes) (absoluteStart : Nat) :
    Nat → RecordWalk → Res RecordWalk
  | 0, walk => .ok walk
  | n + 1, walk => do
      let headerEnd ← orFail (checkedAdd walk.offset 8) (.invalidBase "record overflow")
      if headerEnd > bytes.length then fail (.invalidBase "truncated record header")
      else
        let keyLen ← u32At bytes walk.offset
        let valueLen ← u32At bytes (walk.offset + 4)
        let valueStart ← orFail (checkedAdd headerEnd keyLen) (.invalidBase "key length overflow")
        let stop ← orFail (checkedAdd valueStart valueLen) (.invalidBase "value length overflow")
        if stop > bytes.length then fail (.invalidBase "record extends beyond base")
        else
          let key ← sliceAt bytes headerEnd valueStart
          if key ∈ walk.keys then fail (.invalidBase "duplicate key")
          else
            let absolute ← addOrPanic absoluteStart walk.offset
            validateRecords C bytes absoluteStart n
              ⟨stop, (absolute, C.hash key >>> 32) :: walk.records, key :: walk.keys⟩

/-- The value a hash map holds for a key, its last insertion first. -/
def mapGet (map : List (Nat × Nat)) (key : Nat) : Option Nat :=
  (map.find? fun entry => entry.1 = key).map Prod.snd

def validateSlots (bytes : Bytes) (records : List (Nat × Nat)) :
    Nat → Nat → List Nat → Res (List Nat)
  | _, 0, referenced => .ok referenced
  | slot, n + 1, referenced => do
      let slotOffset := baseHeader + slot * slotSize
      let storedFingerprint ← u32At bytes slotOffset
      let recordOffset ← u64At bytes (slotOffset + 4)
      if recordOffset = 0 then
        if storedFingerprint ≠ 0 then fail (.invalidBase "empty slot has a fingerprint")
        else validateSlots bytes records (slot + 1) n referenced
      else if mapGet records recordOffset ≠ some storedFingerprint then
        fail (.invalidBase "slot points outside base or has the wrong fingerprint")
      else if recordOffset ∈ referenced then
        fail (.invalidBase "record is referenced by multiple slots")
      else validateSlots bytes records (slot + 1) n (recordOffset :: referenced)

def validateBase (C : Crates) (bytes : Bytes) (absoluteStart slots len : Nat) : Res Unit := do
  let start ← recordsStart slots bytes.length
  if len > (bytes.length - start) / 8 then
    fail (.invalidBase "entry count exceeds segment capacity")
  else
    let walk ← validateRecords C bytes absoluteStart len ⟨start, [], []⟩
    if walk.offset ≠ bytes.length then fail (.invalidBase "unreferenced bytes at end of base")
    else
      let referenced ← validateSlots bytes walk.records 0 slots []
      if referenced.length ≠ len then fail (.invalidBase "record is missing from hash index")
      else return ()

end Lkv
