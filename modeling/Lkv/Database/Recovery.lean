/-
# Lkv.Database.Recovery — reading the log back

`database/recovery.rs`.  The scan takes record after record, checks each before
it touches the index, and stops at the end of the log, at a record that is cut
short, or at a compaction marker; anything else that does not check is an error.

`wp_scanOverlay` is the spec for a log that is a list of batches and a dead tail
(`Dead`): the index holds the latest operation on every key, and the valid length
ends after the last batch.
-/
import Lkv.Database.Installing

namespace Lkv

open Lkv.Theory Lkv.Theory.Prog Dictionary

set_option autoImplicit false

/-! ## The scan -/

structure OverlayScan where
  index : OverlayMap
  memory : Nat
  validLen : Nat

namespace OverlayScan

def empty (validLen : Nat) : OverlayScan := ⟨.mapped none [] [], 0, validLen⟩

/-- `release_mapping` (with `none`) and `replace_mapping`. -/
def replaceMapping (scan : OverlayScan) (bytes : Option BaseBytes) : Res OverlayScan := do
  return { scan with index := ← scan.index.replaceMappedBytes bytes }

end OverlayScan

/-- The fields of a record header that passed its checksum. -/
structure LogHeader where
  marker : Option Marker
  keyLen : Nat
  valueLen : Nat
  recordChecksum : Nat
  absoluteOffset : Nat
  headerEnd : Nat

/-- The header at `offset`; `none` when fewer bytes are left. -/
def readHeader (bytes : Bytes) (mappingOffset offset : Nat) : Res (Option LogHeader) := do
  let headerEnd ← orFail (checkedAdd offset logHeaderSize)
    (.invalidBase "overlay header offset overflow")
  match getRange bytes offset headerEnd with
  | none => return none
  | some header =>
      let absoluteOffset ← orFail (checkedAdd mappingOffset offset)
        (.invalidBase "overlay offset overflow")
      if (crc32c (window header 0 logHeaderChecksumOffset)).toNat ≠
          leNat (window header logHeaderChecksumOffset 4) then
        fail (.corruptedLog absoluteOffset
          s!"overlay header checksum mismatch at offset {absoluteOffset}")
      else
        return some
          { marker := header.head?.bind Marker.fromByte
            keyLen := leNat (window header 1 4)
            valueLen := leNat (window header 5 4)
            recordChecksum := leNat (window header 9 4)
            absoluteOffset := absoluteOffset
            headerEnd := headerEnd }

/-- What the loop meets at an offset: the end of the log, or a batch to apply. -/
inductive LogStep where
  | stop
  | batch (payload : Bytes) (headerEnd recordEnd : Nat)

/-- The body of the loop up to the application of a batch. -/
def readRecord (bytes : Bytes) (mappingOffset offset : Nat) : Res LogStep := do
  match ← readHeader bytes mappingOffset offset with
  | none => return .stop
  | some header =>
      let payloadLen ← orFail (checkedAdd header.keyLen header.valueLen)
        (.fromIo .invalidData "overlay record length overflow")
      let recordEnd ← orFail (checkedAdd header.headerEnd payloadLen)
        (.invalidBase "overlay record offset overflow")
      match getRange bytes header.headerEnd recordEnd with
      | none => return .stop
      | some payload =>
          match header.marker with
          | none =>
              fail (.fromIo .invalidData
                s!"invalid overlay operation at offset {header.absoluteOffset}")
          | some marker =>
              if marker = .compact ∧ header.keyLen = 0 ∧ header.valueLen = 0 then
                if header.recordChecksum = (recordChecksum marker 0 0 []).toNat then return .stop
                else fail (.corruptedLog header.absoluteOffset
                  s!"invalid compact marker checksum at offset {header.absoluteOffset}")
              else if marker ≠ .batch ∨ header.keyLen ≠ 0 then
                fail (.fromIo .invalidData
                  s!"unexpected overlay marker at offset {header.absoluteOffset}")
              else if payloadLen > maxLogPayloadSize then
                fail (.fromIo .invalidData "overlay record exceeds configured format limits")
              else if (crc32cAppend (recordChecksumStart marker header.keyLen header.valueLen)
                  payload).toNat ≠ header.recordChecksum then
                fail (.corruptedLog header.absoluteOffset
                  s!"overlay checksum mismatch at offset {header.absoluteOffset}")
              else return .batch payload header.headerEnd recordEnd

/-- The operation at `cursor` of a payload: its place in the log and where it ends. -/
def readOperation (payload : Bytes) (payloadOffset cursor : Nat) : Res (MappedRecord × Nat) := do
  let operationOffset ← orFail (checkedAdd payloadOffset cursor)
    (.invalidBase "overlay operation offset overflow")
  let headerEnd ← orFail (checkedAdd cursor operationHeaderSize)
    (.invalidBase "overlay operation offset overflow")
  let header ← orFail (getRange payload cursor headerEnd)
    (.fromIo .invalidData "truncated batch operation")
  let marker := header.head?.bind Marker.fromByte
  let keyLen := leNat (window header 1 4)
  let valueLen := leNat (window header 5 4)
  if ¬(marker = some .put ∨ marker = some .delete) ∨ (marker = some .delete ∧ valueLen ≠ 0) ∨
      keyLen > maxKeySize ∨ valueLen > maxValueSize then
    fail (.fromIo .invalidData "invalid batch operation")
  else
    let keyEnd ← orFail (checkedAdd headerEnd keyLen) (.invalidBase "batch key offset overflow")
    let valueEnd ← orFail (checkedAdd keyEnd valueLen)
      (.invalidBase "batch value offset overflow")
    let _ ← orFail (getRange payload headerEnd keyEnd)
      (.fromIo .invalidData "truncated batch key")
    let _ ← orFail (getRange payload keyEnd valueEnd)
      (.fromIo .invalidData "truncated batch value")
    return (⟨operationOffset⟩, valueEnd)

/-- The index and the memory charge that the scan builds. -/
structure ScanState where
  index : OverlayMap
  memory : Nat

/-- The loop over the operations of a payload. -/
def applyOperations (file : File) (payload : Bytes) (payloadOffset : Nat) :
    Nat → Nat → ScanState → Res (Nat × ScanState)
  | 0, cursor, scan => .ok (cursor, scan)
  | count + 1, cursor, scan => do
      let (record, next) ← readOperation payload payloadOffset cursor
      let (index, removed, added) ← scan.index.installRecovered file record
      applyOperations file payload payloadOffset count next
        ⟨index, saturatingAdd (scan.memory - removed) added⟩

def applyBatchPayload (payload : Bytes) (payloadOffset : Nat) (scan : ScanState) :
    Io ScanState := do
  let countBytes ← Prog.lift (orFail (getRange payload 0 4)
    (.fromIo .invalidData "truncated batch count"))
  let count := leNat countBytes
  if count > maxBatchOperations then
    Prog.stop (.err (.fromIo .invalidData "batch operation count exceeds the runtime limit"))
  else
    Io.reserve (.invalidBase "Overlay index allocation failed")
    let (cursor, scan) ← Prog.lift
      (applyOperations (← Prog.state).file payload payloadOffset count 4 scan)
    if cursor ≠ payload.length then
      Prog.stop (.err (.fromIo .invalidData "trailing bytes in batch"))
    else return scan

/-- The loop of `scan_overlay`: where it stops, and what it has read. -/
def scanFrom (bytes : Bytes) (mappingOffset : Nat) :
    Nat → Nat → ScanState → Io (Nat × ScanState)
  | 0, _, _ => Prog.stop .diverge
  | fuel + 1, offset, scan => do
      if offset < bytes.length then
        match ← Prog.lift (readRecord bytes mappingOffset offset) with
        | .stop => return (offset, scan)
        | .batch payload headerEnd recordEnd =>
            let scan ← applyBatchPayload payload headerEnd scan
            scanFrom bytes mappingOffset fuel recordEnd scan
      else return (offset, scan)

def scanOverlay (mapping : BaseBytes) (mappingOffset : Nat) : Io OverlayScan := do
  let bytes := mapping.deref (← Prog.state).file
  let (offset, scan) ← scanFrom bytes mappingOffset (bytes.length + 1) 0
    ⟨.mapped (some mapping) [] [], 0⟩
  let validLen ← Prog.lift (orFail (checkedAdd mappingOffset offset)
    (.invalidBase "overlay length overflow"))
  return ⟨scan.index, scan.memory, validLen⟩

/-! ## Records -/

section Records

variable {front tail : Bytes} {mappingOffset : Nat}

theorem readHeader_short (few : tail.length < logHeaderSize)
    (word : front.length + logHeaderSize < 2 ^ 64) :
    readHeader (front ++ tail) mappingOffset front.length = .ok none := by
  have beyond : getRange (front ++ tail) front.length (front.length + logHeaderSize) = none :=
    getRange_none (by rw [List.length_append]; omega)
  rw [readHeader, checkedAdd_some word, orFail_some, ok_bind, beyond]
  rfl

/-- The header passes its own checksum. -/
def HeaderValid (bytes : Bytes) : Prop :=
  (crc32c (window bytes 0 logHeaderChecksumOffset)).toNat =
    leNat (window bytes logHeaderChecksumOffset 4)

/-- The fields of the header that `bytes` begin with. -/
abbrev headerAt (absoluteOffset headerEnd : Nat) (bytes : Bytes) : LogHeader :=
  { marker := bytes.head?.bind Marker.fromByte
    keyLen := leNat (window bytes 1 4)
    valueLen := leNat (window bytes 5 4)
    recordChecksum := leNat (window bytes 9 4)
    absoluteOffset := absoluteOffset
    headerEnd := headerEnd }

section HeaderFields

variable (marker : Marker) (checksum : BitVec 32) (rest : Bytes) {keyLen valueLen : Nat}

theorem window_recordHeader {start count : Nat} (inside : start + count ≤ logHeaderSize) :
    window (recordHeader marker keyLen valueLen checksum ++ rest) start count =
      window (recordHeader marker keyLen valueLen checksum) start count :=
  window_append_left _ _ _ _ (by rwa [recordHeader_length])

theorem window_headerFields {start count : Nat} (inside : start + count ≤ logHeaderChecksumOffset) :
    window (recordHeader marker keyLen valueLen checksum ++ rest) start count =
      window (headerFields marker keyLen valueLen checksum) start count := by
  rw [recordHeader, List.append_assoc,
    window_append_left _ _ _ _ (by rwa [headerFields_length])]

theorem recordHeader_valid :
    HeaderValid (recordHeader marker keyLen valueLen checksum ++ rest) := by
  unfold HeaderValid
  rw [window_headerFields _ _ _ (by decide), window_recordHeader _ _ _ (by decide),
    window_eq_self _ _ (by simp), recordHeader, window_append_right _ _ _ _ (by simp),
    headerFields_length, Nat.sub_self, window_eq_self _ _ (by simp),
    leNat_leBytes _ _ (crc32c_lt _)]

theorem recordHeader_keyLen (key : keyLen < 2 ^ 32) :
    leNat (window (recordHeader marker keyLen valueLen checksum ++ rest) 1 4) = keyLen := by
  rw [window_headerFields _ _ _ (by decide)]
  simp only [headerFields, window_append_right, window_append_left, window_eq_self,
    List.length_singleton, leBytes_length, Nat.reduceAdd, Nat.reduceSub, le_refl]
  exact leNat_leBytes _ _ key

theorem recordHeader_valueLen (value : valueLen < 2 ^ 32) :
    leNat (window (recordHeader marker keyLen valueLen checksum ++ rest) 5 4) = valueLen := by
  rw [window_headerFields _ _ _ (by decide)]
  simp only [headerFields, window_append_right, window_append_left, window_eq_self,
    List.length_singleton, leBytes_length, Nat.reduceAdd, Nat.reduceSub, Nat.reduceLeDiff, le_refl]
  exact leNat_leBytes _ _ value

theorem recordHeader_checksum :
    leNat (window (recordHeader marker keyLen valueLen checksum ++ rest) 9 4) = checksum.toNat := by
  rw [window_headerFields _ _ _ (by decide)]
  simp only [headerFields, window_append_right, window_eq_self, List.length_singleton,
    leBytes_length, Nat.reduceSub, Nat.reduceLeDiff, le_refl]
  exact leNat_leBytes _ _ checksum.isLt

end HeaderFields

theorem readHeader_eq (front : Bytes) (long : logHeaderSize ≤ tail.length)
    (word : front.length + logHeaderSize < 2 ^ 64) (offset : mappingOffset + front.length < 2 ^ 64) :
    (HeaderValid tail ∧ readHeader (front ++ tail) mappingOffset front.length =
      .ok (some (headerAt (mappingOffset + front.length) (front.length + logHeaderSize) tail))) ∨
    (¬HeaderValid tail ∧ ∃ error, readHeader (front ++ tail) mappingOffset front.length =
      .error (.err error)) := by
  have header : getRange (front ++ tail) front.length (front.length + logHeaderSize) =
      some (tail.take logHeaderSize) := by
    rw [getRange_some (by omega) (by rw [List.length_append]; omega), Nat.add_sub_cancel_left,
      ← Nat.add_zero front.length, window_append_at]
    rfl
  have inHeader : ∀ start count, start + count ≤ logHeaderSize →
      window (tail.take logHeaderSize) start count = window tail start count := by
    intro start count inside
    have := window_window tail 0 logHeaderSize start count inside
    rwa [Nat.zero_add] at this
  have first : (tail.take logHeaderSize).head? = tail.head? := by
    cases tail with
    | nil => rfl
    | cons b tail => rfl
  rw [readHeader, checkedAdd_some word, orFail_some, ok_bind, header]
  simp only [checkedAdd_some offset, orFail_some, ok_bind, inHeader _ _ (show
    0 + logHeaderChecksumOffset ≤ logHeaderSize by decide), inHeader _ _ (show
    logHeaderChecksumOffset + 4 ≤ logHeaderSize by decide), inHeader _ _ (show
    1 + 4 ≤ logHeaderSize by decide), inHeader _ _ (show 5 + 4 ≤ logHeaderSize by decide),
    inHeader _ _ (show 9 + 4 ≤ logHeaderSize by decide), first]
  by_cases valid : HeaderValid tail
  · exact .inl ⟨valid, if_neg (not_not_intro valid)⟩
  · exact .inr ⟨valid, _, if_pos valid⟩

theorem readHeader_encoded (front rest : Bytes) (marker : Marker) {keyLen valueLen : Nat}
    (checksum : BitVec 32) (key : keyLen < 2 ^ 32) (value : valueLen < 2 ^ 32)
    (word : front.length + logHeaderSize < 2 ^ 64) (offset : mappingOffset + front.length < 2 ^ 64) :
    readHeader (front ++ (recordHeader marker keyLen valueLen checksum ++ rest)) mappingOffset
        front.length =
      .ok (some ⟨some marker, keyLen, valueLen, checksum.toNat, mappingOffset + front.length,
        front.length + logHeaderSize⟩) := by
  have long : logHeaderSize ≤ (recordHeader marker keyLen valueLen checksum ++ rest).length := by
    rw [List.length_append, recordHeader_length]
    exact Nat.le_add_right _ _
  rcases readHeader_eq front long word offset with ⟨-, read⟩ | ⟨invalid, -⟩
  · rw [read, headerAt, recordHeader_keyLen _ _ _ key, recordHeader_valueLen _ _ _ value,
      recordHeader_checksum]
    exact congrArg (fun marker => Except.ok (some (LogHeader.mk marker _ _ _ _ _)))
      (Marker.fromByte_toByte marker)
  · exact absurd (recordHeader_valid ..) invalid

/-- A record that a scan takes: the operations of a batch, in which a key may occur again. -/
structure Record where
  ops : List Operation
  keys : ∀ op ∈ ops, op.1.length ≤ maxKeySize
  count : ops.length ≤ maxBatchOperations
  size : (payloadBytes ops).length ≤ maxLogPayloadSize

def Record.bytes (record : Record) : Bytes := encodeBatch record.ops

def Batch.record (batch : Batch) : Record := ⟨batch.ops, batch.keys, batch.count, batch.size⟩

/-- A record is read as its payload. -/
theorem readRecord_batch (front rest : Bytes) (batch : Record)
    (word : mappingOffset + front.length + batch.bytes.length < 2 ^ 64) :
    readRecord (front ++ (batch.bytes ++ rest)) mappingOffset front.length =
      .ok (.batch (payloadBytes batch.ops) (front.length + logHeaderSize)
        (front.length + batch.bytes.length)) := by
  have size : batch.bytes.length = logHeaderSize + (payloadBytes batch.ops).length :=
    encodeBatch_length batch.ops
  have small : (payloadBytes batch.ops).length ≤ maxLogPayloadSize := batch.size
  have word32 : (payloadBytes batch.ops).length < 2 ^ 32 := lt_of_le_of_lt small (by decide)
  have shape : front ++ (batch.bytes ++ rest) = front ++ (recordHeader .batch 0
      (payloadBytes batch.ops).length (recordChecksum .batch 0 (payloadBytes batch.ops).length
        (payloadBytes batch.ops)) ++ (payloadBytes batch.ops ++ rest)) := by
    rw [Record.bytes, encodeBatch, List.append_assoc]
  have payload : getRange (front ++ (batch.bytes ++ rest)) (front.length + logHeaderSize)
      (front.length + logHeaderSize + (payloadBytes batch.ops).length) =
      some (payloadBytes batch.ops) := by
    rw [shape, ← List.append_assoc front]
    exact getRange_part _ _ _ (by simp) (by simp)
  have checksum : crc32cAppend (recordChecksumStart .batch 0 (payloadBytes batch.ops).length)
      (payloadBytes batch.ops) = recordChecksum .batch 0 (payloadBytes batch.ops).length
        (payloadBytes batch.ops) := rfl
  rw [readRecord]
  conv_lhs =>
    arg 1
    rw [shape]
  rw [readHeader_encoded front _ .batch _ (by decide) word32 (by omega) (by omega), ok_bind]
  simp only [checkedAdd_some (show 0 + (payloadBytes batch.ops).length < 2 ^ 64 by omega),
    Nat.zero_add, orFail_some, ok_bind,
    checkedAdd_some (show front.length + logHeaderSize + (payloadBytes batch.ops).length < 2 ^ 64 by
      omega), payload, checksum]
  simp only [reduceCtorEq, false_and, if_false, ne_eq, not_true_eq_false, or_self, Nat.not_lt.mpr small]
  rw [size, ← Nat.add_assoc]
  rfl

/-- The bytes from `offset` on hold no batch: too few for a header, a batch cut short,
or anything behind a compaction marker. -/
inductive Dead (offset : Nat) : Bytes → Prop
  | short {tail : Bytes} (few : tail.length < logHeaderSize) : Dead offset tail
  | cut {tail : Bytes} (batch : Batch) (front : tail <+: batch.bytes)
      (less : tail.length < batch.bytes.length) (word : offset + batch.bytes.length < 2 ^ 64) :
      Dead offset tail
  | marked {tail : Bytes} (front : compactMarker <+: tail) : Dead offset tail

/-- The lengths a header announces. -/
def declaredLen (bytes : Bytes) : Nat := leNat (window bytes 1 4) + leNat (window bytes 5 4)

theorem declaredLen_lt (bytes : Bytes) : declaredLen bytes < 2 ^ 33 := by
  have word : ∀ start, leNat (window bytes start 4) < 2 ^ 32 := fun start =>
    lt_of_lt_of_le (leNat_lt _) (Nat.pow_le_pow_right (n := 256) (by decide) (window_length_le ..))
  have one := word 1
  have five := word 5
  unfold declaredLen
  omega

theorem checkedAdd_declared (bytes : Bytes) :
    checkedAdd (leNat (window bytes 1 4)) (leNat (window bytes 5 4)) = some (declaredLen bytes) :=
  checkedAdd_some (lt_trans (declaredLen_lt bytes) (by decide))

/-- A header whose payload is not all there ends the scan. -/
theorem readRecord_cut (front : Bytes) (valid : HeaderValid tail) (long : logHeaderSize ≤ tail.length)
    (cut : tail.length < logHeaderSize + declaredLen tail)
    (word : front.length + logHeaderSize + declaredLen tail < 2 ^ 64)
    (offset : mappingOffset + front.length < 2 ^ 64) :
    readRecord (front ++ tail) mappingOffset front.length = .ok .stop := by
  rcases readHeader_eq front long (by omega) offset with ⟨-, read⟩ | ⟨invalid, -⟩
  · rw [readRecord, read, ok_bind]
    simp only [checkedAdd_declared, orFail_some, ok_bind, checkedAdd_some word]
    rw [getRange_none (by rw [List.length_append]; omega)]
    rfl
  · exact absurd valid invalid

theorem readRecord_short (front : Bytes) (few : tail.length < logHeaderSize)
    (word : front.length + logHeaderSize < 2 ^ 64) :
    readRecord (front ++ tail) mappingOffset front.length = .ok .stop := by
  rw [readRecord, readHeader_short few word]
  rfl

theorem readRecord_marked (front : Bytes) (isFront : compactMarker <+: tail)
    (header : front.length + logHeaderSize < 2 ^ 64) (word : mappingOffset + front.length < 2 ^ 64) :
    readRecord (front ++ tail) mappingOffset front.length = .ok .stop := by
  obtain ⟨rest, rfl⟩ := isFront
  rw [readRecord, compactMarker, readHeader_encoded front _ .compact _ (by decide) (by decide)
    header word, ok_bind]
  have nothing : getRange (front ++ (compactMarker ++ rest)) (front.length + logHeaderSize)
      (front.length + logHeaderSize) = some [] := by
    rw [getRange_some le_rfl (by simp only [List.length_append, compactMarker_length]; omega),
      Nat.sub_self, window_zero_count]
  have same : checkedAdd (front.length + logHeaderSize) 0 = some (front.length + logHeaderSize) :=
    checkedAdd_some header
  rw [compactMarker] at nothing
  simp only [checkedAdd_some (show 0 + 0 < 2 ^ 64 by decide), Nat.add_zero, orFail_some, ok_bind,
    same, nothing, and_self, if_true]
  rfl

theorem readRecord_dead (front : Bytes) (dead : Dead (mappingOffset + front.length) tail)
    (above : logHeaderSize ≤ mappingOffset) (word : mappingOffset + front.length < 2 ^ 64) :
    readRecord (front ++ tail) mappingOffset front.length = .ok .stop := by
  by_cases few : tail.length < logHeaderSize
  · exact readRecord_short front few (by omega)
  · cases dead with
    | short few' => exact absurd few' few
    | cut batch isFront less fits =>
        -- The header is complete; the payload it announces is not.
        obtain ⟨part, rfl⟩ : ∃ part, tail = recordHeader .batch 0 (payloadBytes batch.ops).length
            (recordChecksum .batch 0 (payloadBytes batch.ops).length (payloadBytes batch.ops)) ++
              part := by
          obtain ⟨rest, whole⟩ := isFront
          rw [Batch.bytes, encodeBatch, List.append_eq_append_iff] at whole
          rcases whole with ⟨missing, header, _⟩ | ⟨part, tailIs, _⟩
          · have := congrArg List.length header
            rw [recordHeader_length, List.length_append] at this
            cases missing with
            | nil => exact ⟨[], by rw [header]; simp⟩
            | cons b missing =>
                rw [List.length_cons] at this
                omega
          · exact ⟨part, tailIs⟩
        have size : batch.bytes.length = logHeaderSize + (payloadBytes batch.ops).length :=
          encodeBatch_length batch.ops
        have small : (payloadBytes batch.ops).length < 2 ^ 32 :=
          lt_of_le_of_lt batch.size (by decide)
        have declared : declaredLen (recordHeader .batch 0 (payloadBytes batch.ops).length
            (recordChecksum .batch 0 (payloadBytes batch.ops).length (payloadBytes batch.ops)) ++ part) =
            (payloadBytes batch.ops).length := by
          rw [declaredLen, recordHeader_keyLen _ _ _ (by decide), recordHeader_valueLen _ _ _ small,
            Nat.zero_add]
        refine readRecord_cut front (recordHeader_valid ..) (Nat.not_lt.mp few) ?_ ?_ word
        · rw [declared]
          omega
        · rw [declared]
          omega
    | marked isFront => exact readRecord_marked front isFront (by omega) word

end Records

/-! ## Operations -/

section Operations

/-- An encoded operation is read at its place. -/
theorem readOperation_encoded (front rest : Bytes) {op : Operation} {payloadOffset : Nat}
    (key : op.1.length ≤ maxKeySize) (value : (operationParts op.2).2.length ≤ maxValueSize)
    (word : payloadOffset + front.length + operationSize op < 2 ^ 64) :
    readOperation (front ++ (encodeOperation op ++ rest)) payloadOffset front.length =
      .ok (⟨payloadOffset + front.length⟩, front.length + operationSize op) := by
  have parts := operationAt front rest (lt_of_le_of_lt key (by decide)) (lt_of_le_of_lt value (by decide))
  have size : operationSize op = operationHeaderSize + op.1.length + (operationParts op.2).2.length := rfl
  have marker : (operationHeader op).head?.bind Marker.fromByte = some (operationParts op.2).1 :=
    Marker.fromByte_toByte _
  have allowed : ¬(¬(some (operationParts op.2).1 = some Marker.put ∨
        some (operationParts op.2).1 = some Marker.delete) ∨
      (some (operationParts op.2).1 = some Marker.delete ∧ (operationParts op.2).2.length ≠ 0) ∨
      op.1.length > maxKeySize ∨ (operationParts op.2).2.length > maxValueSize) := by
    have key' : ¬op.1.length > maxKeySize := Nat.not_lt.mpr key
    have value' : ¬(operationParts op.2).2.length > maxValueSize := Nat.not_lt.mpr value
    obtain ⟨_, _ | _⟩ := op <;> simp_all [operationParts]
  rw [readOperation]
  simp only [checkedAdd_some (show payloadOffset + front.length < 2 ^ 64 by omega), orFail_some,
    ok_bind, checkedAdd_some (show front.length + operationHeaderSize < 2 ^ 64 by omega), parts.header,
    marker, parts.keyLen, parts.valueLen, if_neg allowed,
    checkedAdd_some (show front.length + operationHeaderSize + op.1.length < 2 ^ 64 by omega),
    checkedAdd_some (show front.length + operationHeaderSize + op.1.length +
      (operationParts op.2).2.length < 2 ^ 64 by omega), parts.key, parts.value]
  rw [size, ← Nat.add_assoc, ← Nat.add_assoc]
  rfl

variable {file : File} {mapping : BaseBytes} {table : List MappedRecord} {ops : List Operation}

/-- A recovered record enters the index. -/
theorem installRecovered_spec {log : Bytes} {record : MappedRecord} {op : Operation}
    (front : log <+: mapping.deref file) (decodes : OverlayMap.RecordsDecode log table ops)
    (here : record.slices log = .ok op) :
    ∃ table' old ops', OverlayMap.installRecovered file record (.mapped (some mapping) table []) =
        .ok (.mapped (some mapping) table' [], chargeOf old, MappedRecord.charge op) ∧
      OverlayMap.RecordsDecode log table' ops' ∧ Sets ops op old ops' := by
  obtain ⟨previous, table', old, ops', inserted, decodes', sets, oldDecodes⟩ :=
    OverlayMap.insertMappedRecord_spec front decodes here
  refine ⟨table', old, ops', ?_, decodes', sets⟩
  unfold OverlayMap.installRecovered
  simp only [OverlayMap.memoryCharge_ok (slices_extend here front), ok_bind, inserted]
  cases previous with
  | none =>
      cases oldDecodes
      rfl
  | some record =>
      obtain ⟨op', rest, oldHere, nothing, rfl⟩ := List.forall₂_cons_left_iff.mp oldDecodes
      obtain rfl := List.forall₂_nil_left_iff.mp nothing
      simp only [OverlayMap.memoryCharge_ok oldHere, ok_bind, chargeOf_cons, chargeOf_nil]
      rfl

theorem charge_le (op : Operation) : MappedRecord.charge op ≤ operationSize op := by
  obtain ⟨key, value⟩ := op
  unfold MappedRecord.charge operationSize
  cases value with
  | none => exact Nat.add_le_add_right (Nat.le_add_left _ _) 0
  | some value =>
      refine Nat.add_le_add (Nat.le_add_left _ _) ?_
      dsimp only
      split
      · exact le_rfl
      · exact Nat.zero_le _

/-- The operations of a payload, from some point on, enter the index in order.  Their
records lie in the payload and what is before it. -/
theorem applyOperations_spec (before done : Bytes) (added : List Operation) (rest : Bytes)
    (front : before ++ (done ++ (operationsBytes added ++ rest)) <+: mapping.deref file)
    (decodes : OverlayMap.RecordsDecode (before ++ (done ++ (operationsBytes added ++ rest))) table ops)
    (keys : ∀ op ∈ added, op.1.length ≤ maxKeySize)
    (values : ∀ op ∈ added, (operationParts op.2).2.length ≤ maxValueSize)
    (word : before.length + done.length + (operationsBytes added).length < 2 ^ 64)
    (light : chargeOf ops ≤ before.length + done.length) :
    ∃ table' ops', applyOperations file (done ++ (operationsBytes added ++ rest)) before.length
        added.length done.length ⟨.mapped (some mapping) table [], chargeOf ops⟩ =
        .ok (done.length + (operationsBytes added).length,
          ⟨.mapped (some mapping) table' [], chargeOf ops'⟩) ∧
      OverlayMap.RecordsDecode (before ++ (done ++ (operationsBytes added ++ rest))) table' ops' ∧
      (Distinct ops → Distinct ops') ∧
      (∀ key, latest ops' key = latest (added.reverse ++ ops) key) ∧
      chargeOf ops' ≤ before.length + done.length + (operationsBytes added).length := by
  induction added generalizing done table ops with
  | nil => exact ⟨table, ops, rfl, decodes, id, fun _ => rfl, light⟩
  | cons op added ih =>
      have more : (operationsBytes (op :: added)).length =
          operationSize op + (operationsBytes added).length := by
        rw [operationsBytes_cons, List.length_append, encodeOperation_length]
      rw [more] at word ⊢
      have key := keys op (List.mem_cons_self ..)
      have value := values op (List.mem_cons_self ..)
      have read := readOperation_encoded done (operationsBytes added ++ rest) key value
        (show before.length + done.length + operationSize op < 2 ^ 64 by omega)
      rw [operationsBytes_cons, List.append_assoc] at front decodes ⊢
      have place : MappedRecord.slices ⟨before.length + done.length⟩
          (before ++ (done ++ (encodeOperation op ++ (operationsBytes added ++ rest)))) = .ok op := by
        have at_ := slices_encoded (before ++ done) (operationsBytes added ++ rest)
          (lt_of_le_of_lt key (by decide)) (lt_of_le_of_lt value (by decide))
          (by rw [List.length_append]; omega)
        rw [List.length_append] at at_
        simpa only [List.append_assoc] using at_
      obtain ⟨table1, old, ops1, installed, decodes1, sets⟩ :=
        installRecovered_spec front decodes place
      have balance := sets.charge
      have within := sets.within
      have small := charge_le op
      have next : (done ++ encodeOperation op).length = done.length + operationSize op := by
        rw [List.length_append, encodeOperation_length]
      have later := @ih table1 ops1 (done ++ encodeOperation op)
      rw [next, List.append_assoc] at later
      obtain ⟨table', ops', ran, decodes', distinct, same, light'⟩ := later front decodes1
        (fun later member => keys later (List.mem_cons_of_mem _ member))
        (fun later member => values later (List.mem_cons_of_mem _ member)) (by omega) (by omega)
      refine ⟨table', ops', ?_, decodes', distinct ∘ sets.distinct, fun k => ?_, by omega⟩
      · rw [List.length_cons, applyOperations, read, ok_bind]
        dsimp only
        rw [installed, ok_bind]
        have memory : saturatingAdd (chargeOf ops - chargeOf old) (MappedRecord.charge op) =
            chargeOf ops1 := by
          rw [OverlayMap.saturatingAdd_eq (by omega)]
          omega
        dsimp only
        rw [memory, ran, Nat.add_assoc]
      · rw [same, List.reverse_cons, List.append_assoc]
        exact sets.trans_cons _ k

end Operations

/-! ## The whole log -/

/-- The operations of the batches, the latest batch first. -/
def logOps (batches : List Batch) : List Operation := batches.reverse.flatMap Batch.ops

theorem logOps_append (batches : List Batch) (batch : Batch) :
    logOps (batches ++ [batch]) = batch.ops ++ logOps batches := by
  simp [logOps]

/-- The bytes of the records, and their operations, the latest first. -/
def recordsLog (records : List Record) : Bytes := records.flatMap Record.bytes

def recordsOps (records : List Record) : List Operation := (records.flatMap Record.ops).reverse

theorem recordsOps_cons (record : Record) (records : List Record) :
    recordsOps (record :: records) = recordsOps records ++ record.ops.reverse := by
  simp [recordsOps]

theorem recordsLog_batches (batches : List Batch) :
    recordsLog (batches.map Batch.record) = logBytes batches := by
  rw [recordsLog, List.flatMap_map]
  rfl

/-- In a batch no key occurs twice, so the order of its operations does not matter. -/
theorem latest_recordsOps (batches : List Batch) (key : Bytes) :
    latest (recordsOps (batches.map Batch.record)) key = latest (logOps batches) key := by
  induction batches with
  | nil => rfl
  | cons batch batches ih =>
      have split : logOps (batch :: batches) = logOps batches ++ batch.ops := by simp [logOps]
      rw [List.map_cons, recordsOps_cons, split, latest_append, latest_append, ih]
      exact congrArg _ (latest_perm (List.reverse_perm _)
        ((show Distinct batch.ops from batch.distinct).perm (List.reverse_perm _).symm) key)

theorem Record.values (record : Record) :
    ∀ op ∈ record.ops, (operationParts op.2).2.length ≤ maxValueSize := by
  intro op member
  have inside : (encodeOperation op).length ≤ (operationsBytes record.ops).length := by
    obtain ⟨before, after, split⟩ := List.append_of_mem member
    rw [split, operationsBytes, List.flatMap_append, List.flatMap_cons, List.length_append,
      List.length_append]
    omega
  have size := record.size
  rw [payloadBytes_length] at size
  rw [encodeOperation_length, operationSize] at inside
  unfold maxLogPayloadSize at size
  unfold maxValueSize
  omega

theorem Batch.values (batch : Batch) :
    ∀ op ∈ batch.ops, (operationParts op.2).2.length ≤ maxValueSize :=
  batch.record.values

/-! ### Charges -/

theorem chargeOf_le_bytes (ops : List Operation) : chargeOf ops ≤ (operationsBytes ops).length := by
  induction ops with
  | nil => exact le_rfl
  | cons op ops ih =>
      rw [chargeOf_cons, operationsBytes_cons, List.length_append, encodeOperation_length]
      exact Nat.add_le_add (charge_le op) ih

theorem Batch.chargeOf_le (batch : Batch) : chargeOf batch.ops ≤ batch.bytes.length := by
  have some := chargeOf_le_bytes batch.ops
  rw [Batch.bytes, encodeBatch_length, payloadBytes_length]
  omega

theorem chargeOf_logOps (batches : List Batch) :
    chargeOf (logOps batches) ≤ (logBytes batches).length := by
  induction batches with
  | nil => exact le_rfl
  | cons batch batches ih =>
      have split : logOps (batch :: batches) = logOps batches ++ batch.ops := by simp [logOps]
      have bytes : logBytes (batch :: batches) = batch.bytes ++ logBytes batches := rfl
      have one := batch.chargeOf_le
      rw [split, bytes, chargeOf_append, List.length_append]
      omega

/-- An index is charged no more than the bytes of the log it indexes. -/
theorem chargeOf_le_log {batches : List Batch} {ops : List Operation} (distinct : Distinct ops)
    (same : ∀ key, latest ops key = latest (logOps batches) key) :
    chargeOf ops ≤ (logBytes batches).length := by
  refine (Lkv.chargeOf_le distinct fun op member => ?_).trans (chargeOf_logOps batches)
  exact mem_of_latest ((same op.1).symm.trans ((latest_eq_some_iff distinct).mpr member))

section Scan

variable {d : Disk} {mapping : BaseBytes} {table : List MappedRecord} {ops : List Operation}

theorem wp_applyBatchPayload (before : Bytes) (record : Record)
    (front : before ++ payloadBytes record.ops <+: mapping.deref d.file)
    (decodes : OverlayMap.RecordsDecode (before ++ payloadBytes record.ops) table ops)
    (word : before.length + (payloadBytes record.ops).length < 2 ^ 64)
    (light : chargeOf ops ≤ before.length) :
    wp (applyBatchPayload (payloadBytes record.ops) before.length
        ⟨.mapped (some mapping) table [], chargeOf ops⟩)
      (fun scan d' => Disk.Issued [] d d' ∧ ∃ table' ops',
        scan = ⟨.mapped (some mapping) table' [], chargeOf ops'⟩ ∧
        OverlayMap.RecordsDecode (before ++ payloadBytes record.ops) table' ops' ∧
        (Distinct ops → Distinct ops') ∧
        (∀ key, latest ops' key = latest (record.ops.reverse ++ ops) key) ∧
        chargeOf ops' ≤ before.length + (payloadBytes record.ops).length)
      (fun e d' => d.Failed e ∧ Disk.Issued [] d d') d := by
  have count : getRange (payloadBytes record.ops) 0 4 = some (leBytes 4 record.ops.length) :=
    getRange_part [] (leBytes 4 record.ops.length) (operationsBytes record.ops) rfl (by simp)
  have few := record.count
  have countIs : leNat (leBytes 4 record.ops.length) = record.ops.length :=
    leNat_leBytes _ _ (lt_of_le_of_lt few (by decide))
  unfold applyBatchPayload
  rw [count]
  refine wp_bind (wp_lift ?_ nofun)
  rintro _ ⟨⟩
  rw [countIs, if_neg (Nat.not_lt.mpr few)]
  refine wp_bind (Io.wp_reserve ?_ fun due => ⟨⟨due, _, rfl⟩, Disk.issued_tick d⟩)
  refine wp_bind (wp_state (wp_bind ?_))
  rw [payloadBytes_length] at word
  have applied := @applyOperations_spec d.tick.file mapping table ops before
    (leBytes 4 record.ops.length) record.ops []
  rw [List.append_nil, leBytes_length] at applied
  obtain ⟨table', ops', ran, decodes', distinct, same, light'⟩ := applied front decodes record.keys
    record.values (by omega) (by omega)
  have ran : applyOperations d.tick.file (payloadBytes record.ops) before.length record.ops.length 4
      ⟨.mapped (some mapping) table [], chargeOf ops⟩ = _ := ran
  rw [ran]
  refine wp_lift ?_ nofun
  rintro _ ⟨⟩
  dsimp only
  rw [payloadBytes_length, if_neg (fun different => different rfl)]
  exact wp_pure ⟨Disk.issued_tick d, table', ops', rfl, decodes', distinct, same, by omega⟩

/-- A scan goes through whole records and comes to what is behind them, whatever it is. -/
theorem wp_scanRecords {mappingOffset : Nat} {tail : Bytes} (records : List Record) (front : Bytes)
    (deref : mapping.deref d.file = front ++ (recordsLog records ++ tail))
    (decodes : OverlayMap.RecordsDecode front table ops)
    (word : mappingOffset + front.length + (recordsLog records).length < 2 ^ 64)
    (light : chargeOf ops ≤ front.length) {fuel : Nat} {Q : Nat × ScanState → Disk → Prop}
    {E : Stop → Disk → Prop} (failed : ∀ e d', d.Failed e ∧ Disk.Issued [] d d' → E e d')
    (next : ∀ d' table' ops', Disk.Issued [] d d' →
      OverlayMap.RecordsDecode (front ++ recordsLog records) table' ops' →
      (Distinct ops → Distinct ops') →
      (∀ key, latest ops' key = latest (recordsOps records ++ ops) key) →
      wp (scanFrom (mapping.deref d.file) mappingOffset fuel
        (front.length + (recordsLog records).length)
        ⟨.mapped (some mapping) table' [], chargeOf ops'⟩) Q E d') :
    wp (scanFrom (mapping.deref d.file) mappingOffset (fuel + records.length) front.length
        ⟨.mapped (some mapping) table [], chargeOf ops⟩) Q E d := by
  induction records generalizing d front table ops with
  | nil =>
      exact next d table ops (Disk.Issued.refl d) ((List.append_nil front).symm ▸ decodes) id
        fun _ => rfl
  | cons record records ih =>
      have size : record.bytes.length = logHeaderSize + (payloadBytes record.ops).length :=
        encodeBatch_length record.ops
      have some : 0 < logHeaderSize := by decide
      have split_log : recordsLog (record :: records) = record.bytes ++ recordsLog records := rfl
      rw [split_log, List.length_append] at word next
      rw [split_log, List.append_assoc] at deref
      have read := readRecord_batch front (recordsLog records ++ tail) record
        (show mappingOffset + front.length + record.bytes.length < 2 ^ 64 by omega)
      rw [List.length_cons, ← Nat.add_assoc, scanFrom,
        if_pos (by rw [deref]; simp only [List.length_append]; omega)]
      rw [← deref] at read
      rw [read]
      refine wp_bind (wp_lift ?_ nofun)
      rintro _ ⟨⟩
      have payload : (front ++ recordHeader .batch 0 (payloadBytes record.ops).length
          (recordChecksum .batch 0 (payloadBytes record.ops).length (payloadBytes record.ops))) ++
          payloadBytes record.ops = front ++ record.bytes := by
        rw [Record.bytes, encodeBatch, List.append_assoc]
      have applied := wp_applyBatchPayload _ record
        (by rw [payload, deref, ← List.append_assoc]; exact List.prefix_append _ _)
        (by rw [payload]; exact decodes.extend (List.prefix_append _ _))
        (by rw [List.length_append, recordHeader_length]; omega)
        (by rw [List.length_append, recordHeader_length]; omega)
      rw [payload] at applied
      rw [List.length_append, recordHeader_length] at applied
      refine wp_bind (wp_mono applied ?_ failed)
      rintro _ d1 ⟨issued1, table1, ops1, rfl, decodes1, distinct1, same1, light1⟩
      have deref1 : mapping.deref d1.file = mapping.deref d.file := by rw [issued1.kept]
      have ahead : (front ++ record.bytes).length = front.length + record.bytes.length :=
        List.length_append
      have later := @ih d1 table1 ops1 (front ++ record.bytes)
        (by rw [deref1, deref, List.append_assoc]) decodes1
        (by rw [ahead]; omega) (by rw [ahead]; omega)
      rw [deref1, ahead] at later
      refine later (fun e d' stopped =>
        failed e d' ⟨issued1.failed stopped.1, issued1.trans stopped.2⟩) ?_
      intro d2 table' ops' issued2 decodes' distinct' same'
      rw [Nat.add_assoc]
      rw [List.append_assoc] at decodes'
      refine next d2 table' ops' (issued1.trans issued2) decodes' (distinct' ∘ distinct1) fun key => ?_
      rw [same', latest_append, same1, ← latest_append, ← List.append_assoc, recordsOps_cons]

theorem recordsLog_length (records : List Record) : records.length ≤ (recordsLog records).length := by
  induction records with
  | nil => exact le_rfl
  | cons record records ih =>
      have size := encodeBatch_length record.ops
      have split_log : recordsLog (record :: records) = encodeBatch record.ops ++ recordsLog records := rfl
      rw [split_log, List.length_append, List.length_cons, size]
      unfold logHeaderSize
      omega

/-- A scan of records and what is behind them, down to the step behind them. -/
theorem wp_scanOverlay_bind {mappingOffset : Nat} {tail : Bytes} (records : List Record)
    (deref : mapping.deref d.file = recordsLog records ++ tail)
    (word : mappingOffset + (recordsLog records).length < 2 ^ 64) {Q : OverlayScan → Disk → Prop}
    {E : Stop → Disk → Prop} (failed : ∀ e d', d.Failed e ∧ Disk.Issued [] d d' → E e d')
    (next : ∀ d' table' ops' fuel, Disk.Issued [] d d' →
      OverlayMap.RecordsDecode (recordsLog records) table' ops' → Distinct ops' →
      (∀ key, latest ops' key = latest (recordsOps records) key) →
      tail.length < fuel →
      wp (scanFrom (recordsLog records ++ tail) mappingOffset fuel (recordsLog records).length
          ⟨.mapped (some mapping) table' [], chargeOf ops'⟩)
        (fun r d'' => wp (do
          let validLen ← Prog.lift (orFail (checkedAdd mappingOffset r.1)
            (.invalidBase "overlay length overflow"))
          return ⟨r.2.index, r.2.memory, validLen⟩) Q E d'') E d') :
    wp (scanOverlay mapping mappingOffset) Q E d := by
  have few := recordsLog_length records
  unfold scanOverlay
  refine wp_bind (wp_state (wp_bind ?_))
  have fuelIs : (mapping.deref d.file).length + 1 =
      ((recordsLog records).length - records.length + tail.length + 1) + records.length := by
    rw [deref, List.length_append]
    omega
  dsimp only
  rw [fuelIs]
  refine @wp_scanRecords d mapping [] [] mappingOffset tail records []
    (by rw [deref]; rfl) .nil (by simpa using word) (by simp) _ _ _ failed ?_
  intro d' table' ops' issued decodes distinct same
  rw [deref, List.length_nil, Nat.zero_add]
  refine next d' table' ops' _ issued (by simpa using decodes) (distinct distinct_nil) ?_ (by omega)
  intro key
  rw [same, List.append_nil]

/-- Scanning a log of batches: every batch is in the index, and nothing else. -/
theorem wp_scanOverlay {logStart n : Nat} {log tail : Bytes} (batches : List Batch)
    (above : logHeaderSize ≤ logStart) (logIs : logBytes batches = log)
    (held : d.file.Holds logStart (log ++ tail)) (size : n = (log ++ tail).length)
    (word : logStart + n < 2 ^ 64) (dead : Dead (logStart + log.length) tail) :
    wp (scanOverlay (.mapped logStart n) logStart)
      (fun scan d' => Disk.Issued [] d d' ∧ ∃ table ops, scan = ⟨.mapped (some (.mapped logStart n)) table [], chargeOf ops,
          logStart + log.length⟩ ∧
        OverlayMap.RecordsDecode log table ops ∧ Distinct ops ∧
        ∀ key, latest ops key = latest (logOps batches) key)
      (fun e d' => d.Failed e ∧ Disk.Issued [] d d') d := by
  subst logIs size
  have deref : (BaseBytes.mapped logStart (logBytes batches ++ tail).length).deref d.file =
      recordsLog (batches.map Batch.record) ++ tail := by
    rw [recordsLog_batches]
    exact held
  rw [List.length_append] at word
  refine wp_scanOverlay_bind (batches.map Batch.record) deref
    (by rw [recordsLog_batches]; omega) (fun _ _ => id) ?_
  intro d1 table ops fuel issued decodes distinct same enough
  rw [recordsLog_batches] at decodes ⊢
  have finished : wp (do
      let validLen ← Prog.lift (orFail (checkedAdd logStart (logBytes batches).length)
        (.invalidBase "overlay length overflow"))
      return (⟨.mapped (some (.mapped logStart (logBytes batches ++ tail).length)) table [],
        chargeOf ops, validLen⟩ : OverlayScan))
      (fun scan d' => Disk.Issued [] d d' ∧ ∃ table ops, scan = ⟨.mapped (some (.mapped logStart (logBytes batches ++ tail).length)) table [],
          chargeOf ops, logStart + (logBytes batches).length⟩ ∧
        OverlayMap.RecordsDecode (logBytes batches) table ops ∧ Distinct ops ∧
        ∀ key, latest ops key = latest (logOps batches) key)
      (fun e d' => d.Failed e ∧ Disk.Issued [] d d') d1 := by
    rw [checkedAdd_some (by omega)]
    refine wp_bind (wp_lift_ok ?_)
    exact wp_pure ⟨issued, table, ops, rfl, decodes, distinct, fun key => by
      rw [same, latest_recordsOps]⟩
  obtain ⟨fuel, rfl⟩ : ∃ left, fuel = left + 1 := ⟨fuel - 1, by omega⟩
  rw [scanFrom]
  split
  · rw [readRecord_dead (logBytes batches) dead above (by omega)]
    refine wp_bind (wp_lift_ok ?_)
    exact wp_pure finished
  · exact wp_pure finished

end Scan

end Lkv
