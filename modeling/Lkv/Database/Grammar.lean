/-
# Lkv.Database.Grammar — the byte strings a scan of the log accepts

A log is a sequence of well-formed batch records (`WellFormed`) and a tail that the scan
leaves alone (`Tail`): too short for a header, a compaction marker, or a header whose
payload is not all there.  `wp_scanOverlay_any` says what a scan does to any bytes: it
returns on such a log, with the operations of its records in the index, and ends with an
error on everything else; it never panics.  `scanOverlay_accepts_iff` is the grammar.

A log that was cut at any byte is in the grammar (`take_recordsLog`), and what is left of it
is the records that are whole (`scanOverlay_written`).
-/
import Lkv.Database.Handle

namespace Lkv
open Lkv.Theory Lkv.Theory.Prog Dictionary

set_option autoImplicit false

/-! ## Records and tails -/

/-- A batch record of these operations, field by field. -/
structure WellFormed (record : Bytes) (ops : List Operation) : Prop where
  header : HeaderValid record
  marker : record.head? = some Marker.batch.toByte
  keyLen : leNat (window record 1 4) = 0
  valueLen : leNat (window record 5 4) = (payloadBytes ops).length
  payload : record.drop logHeaderSize = payloadBytes ops
  checksum : leNat (window record 9 4) =
    (recordChecksum .batch 0 (payloadBytes ops).length (payloadBytes ops)).toNat
  count : ops.length ≤ maxBatchOperations
  keys : ∀ op ∈ ops, op.1.length ≤ maxKeySize

/-- What a scan leaves alone at the end of the log. -/
inductive Tail (tail : Bytes) : Prop
  | short (few : tail.length < logHeaderSize)
  | marked (front : compactMarker <+: tail)
  | cut (header : HeaderValid tail) (long : logHeaderSize ≤ tail.length)
      (less : tail.length < logHeaderSize + declaredLen tail)

/-- The fields of a header are its bytes. -/
theorem header_of_fields {bytes : Bytes} {marker : Marker} (long : logHeaderSize ≤ bytes.length)
    (valid : HeaderValid bytes) (first : bytes.head?.bind Marker.fromByte = some marker)
    {checksum : BitVec 32} (stored : leNat (window bytes 9 4) = checksum.toNat) :
    bytes.take logHeaderSize =
      recordHeader marker (leNat (window bytes 1 4)) (leNat (window bytes 5 4)) checksum := by
  have size : ∀ start, start + 4 ≤ logHeaderSize → (window bytes start 4).length = 4 :=
    fun start inside => window_length _ _ _ (inside.trans long)
  have word : ∀ start, start + 4 ≤ logHeaderSize →
      leBytes 4 (leNat (window bytes start 4)) = window bytes start 4 := by
    intro start inside
    have := leBytes_leNat (window bytes start 4)
    rwa [size start inside] at this
  have markerByte : window bytes 0 1 = [marker.toByte] := by
    cases bytes with
    | nil => exact absurd long (by decide)
    | cons b bytes =>
        have found : Marker.fromByte b = some marker := first
        show [b] = _
        rw [Marker.toByte_of_fromByte found]
  have fields : headerFields marker (leNat (window bytes 1 4)) (leNat (window bytes 5 4)) checksum =
      window bytes 0 logHeaderChecksumOffset := by
    rw [headerFields, ← stored, word 1 (by decide), word 5 (by decide), word 9 (by decide),
      ← markerByte]
    rw [show logHeaderChecksumOffset = 1 + (4 + (4 + 4)) from rfl, window_add, window_add, window_add]
  have own : leBytes 4 (crc32c (window bytes 0 logHeaderChecksumOffset)).toNat =
      window bytes logHeaderChecksumOffset 4 := by
    rw [valid]
    exact word logHeaderChecksumOffset (by decide)
  have whole : bytes.take logHeaderSize = window bytes 0 (logHeaderChecksumOffset + 4) := rfl
  rw [recordHeader, fields, own, whole, window_add, Nat.zero_add]

/-- The well-formed records are those the encoder makes. -/
theorem wellFormed_iff {bytes : Bytes} {ops : List Operation} :
    WellFormed bytes ops ↔ ∃ record : Record, record.ops = ops ∧ record.bytes = bytes := by
  constructor
  · intro wellFormed
    have small : (payloadBytes ops).length < 2 ^ 32 := by
      rw [← wellFormed.valueLen]
      exact lt_of_lt_of_le (leNat_lt _)
        (Nat.pow_le_pow_right (n := 256) (by decide) (window_length_le ..))
    have long : logHeaderSize ≤ bytes.length := by
      have size := congrArg List.length wellFormed.payload
      rw [List.length_drop, payloadBytes_length] at size
      omega
    have header := header_of_fields long wellFormed.header
      (by rw [wellFormed.marker]; exact Marker.fromByte_toByte .batch) wellFormed.checksum
    rw [wellFormed.keyLen, wellFormed.valueLen] at header
    refine ⟨⟨ops, wellFormed.keys, wellFormed.count, Nat.le_of_lt_succ small⟩, rfl, ?_⟩
    rw [Record.bytes, encodeBatch, ← header, ← wellFormed.payload, List.take_append_drop]
  · rintro ⟨record, rfl, rfl⟩
    have small : (payloadBytes record.ops).length < 2 ^ 32 := lt_of_le_of_lt record.size (by decide)
    exact ⟨recordHeader_valid .., rfl, recordHeader_keyLen _ _ _ (by decide),
      recordHeader_valueLen _ _ _ small, List.drop_left' (recordHeader_length ..),
      recordHeader_checksum .., record.count, record.keys⟩

/-- A log as a sequence of records, with the operations of each, and a tail. -/
structure Overlay (bytes : Bytes) (records : List (Bytes × List Operation)) (tail : Bytes) : Prop where
  split : bytes = (records.map Prod.fst).flatten ++ tail
  records : ∀ record ∈ records, WellFormed record.1 record.2
  tail : Tail tail

theorem overlay_iff {bytes tail : Bytes} {pairs : List (Bytes × List Operation)} :
    Overlay bytes pairs tail ↔ ∃ records : List Record,
      pairs = records.map (fun record => (record.bytes, record.ops)) ∧
        bytes = recordsLog records ++ tail ∧ Tail tail := by
  constructor
  · rintro ⟨rfl, wellFormed, ends⟩
    suffices found : ∃ records : List Record,
        pairs = records.map (fun record => (record.bytes, record.ops)) by
      obtain ⟨records, rfl⟩ := found
      refine ⟨records, rfl, ?_, ends⟩
      rw [List.map_map]
      rfl
    induction pairs with
    | nil => exact ⟨[], rfl⟩
    | cons pair pairs ih =>
        obtain ⟨record, opsIs, bytesIs⟩ := wellFormed_iff.mp (wellFormed pair (List.mem_cons_self ..))
        obtain ⟨records, rest⟩ := ih fun later member => wellFormed later (.tail _ member)
        exact ⟨record :: records, by rw [List.map_cons, ← rest, opsIs, bytesIs]⟩
  · rintro ⟨records, rfl, rfl, ends⟩
    refine ⟨?_, ?_, ends⟩
    · rw [List.map_map]
      rfl
    · intro pair member
      obtain ⟨record, -, rfl⟩ := List.mem_map.mp member
      exact wellFormed_iff.mpr ⟨record, rfl, rfl⟩

/-! ## One record -/

section Step

variable {tail : Bytes} {mappingOffset : Nat}

/-- The record around a payload. -/
def payloadRecord (payload : Bytes) : Bytes :=
  recordHeader .batch 0 payload.length (recordChecksum .batch 0 payload.length payload) ++ payload

/-- What one step of the scan meets. -/
inductive StepMeets (tail : Bytes) (headerEnd : Nat) : Res LogStep → Prop
  | stop (ends : Tail tail) : StepMeets tail headerEnd (.ok .stop)
  | batch (payload rest : Bytes) (split : tail = payloadRecord payload ++ rest)
      (small : payload.length ≤ maxLogPayloadSize) :
      StepMeets tail headerEnd (.ok (.batch payload headerEnd (headerEnd + payload.length)))
  | refused (error : Error) : StepMeets tail headerEnd (.error (.err error))

theorem readRecord_meets (front : Bytes) (slice : front.length + tail.length < 2 ^ 63)
    (word : mappingOffset + front.length < 2 ^ 64) :
    StepMeets tail (front.length + logHeaderSize) (readRecord (front ++ tail) mappingOffset front.length) := by
  by_cases few : tail.length < logHeaderSize
  · rw [readRecord_short front few (by unfold logHeaderSize; omega)]
    exact .stop (.short few)
  have long := Nat.not_lt.mp few
  have declared := declaredLen_lt tail
  rcases readHeader_eq front long (by omega) word with ⟨valid, read⟩ | ⟨-, error, read⟩
  · by_cases less : tail.length < logHeaderSize + declaredLen tail
    · rw [readRecord_cut front valid long less (by unfold logHeaderSize; omega) word]
      exact .stop (.cut valid long less)
    -- The payload is there: the fields decide.
    have payload : getRange (front ++ tail) (front.length + logHeaderSize)
        (front.length + logHeaderSize + declaredLen tail) =
        some (window tail logHeaderSize (declaredLen tail)) := by
      rw [getRange_some (by omega) (by rw [List.length_append]; omega), Nat.add_sub_cancel_left,
        window_append_at]
    have size : (window tail logHeaderSize (declaredLen tail)).length = declaredLen tail :=
      window_length _ _ _ (by omega)
    have rebuild : tail = tail.take logHeaderSize ++ (window tail logHeaderSize (declaredLen tail) ++
        tail.drop (logHeaderSize + declaredLen tail)) := by
      rw [window, ← List.drop_drop, List.take_append_drop, List.take_append_drop]
    rw [readRecord, read, ok_bind]
    simp only [checkedAdd_declared, orFail_some, ok_bind,
      checkedAdd_some (show front.length + logHeaderSize + declaredLen tail < 2 ^ 64 by
        unfold logHeaderSize; omega), payload]
    cases first : tail.head?.bind Marker.fromByte with
    | none => exact .refused _
    | some marker =>
        dsimp only
        by_cases compact : marker = .compact ∧ leNat (window tail 1 4) = 0 ∧ leNat (window tail 5 4) = 0
        · rw [if_pos compact]
          obtain ⟨rfl, noKey, noValue⟩ := compact
          by_cases stored : leNat (window tail 9 4) = (recordChecksum .compact 0 0 []).toNat
          · rw [if_pos stored]
            have header := header_of_fields long valid first stored
            rw [noKey, noValue] at header
            exact .stop (.marked ⟨tail.drop logHeaderSize, by
              rw [compactMarker, ← header, List.take_append_drop]⟩)
          · rw [if_neg stored]
            exact .refused _
        rw [if_neg compact]
        by_cases unexpected : marker ≠ .batch ∨ leNat (window tail 1 4) ≠ 0
        · rw [if_pos unexpected]
          exact .refused _
        rw [if_neg unexpected]
        obtain ⟨rfl, noKey⟩ : marker = .batch ∧ leNat (window tail 1 4) = 0 := by
          simpa only [not_or, not_not, ne_eq] using unexpected
        have valueIs : leNat (window tail 5 4) = declaredLen tail := by
          rw [declaredLen, noKey, Nat.zero_add]
        by_cases large : declaredLen tail > maxLogPayloadSize
        · rw [if_pos large]
          exact .refused _
        rw [if_neg large, noKey, valueIs]
        by_cases stored : (recordChecksum .batch 0 (declaredLen tail)
            (window tail logHeaderSize (declaredLen tail))).toNat = leNat (window tail 9 4)
        · have header := header_of_fields long valid first stored.symm
          rw [noKey, valueIs] at header
          have batch : StepMeets tail (front.length + logHeaderSize) (.ok (.batch
              (window tail logHeaderSize (declaredLen tail)) (front.length + logHeaderSize)
              (front.length + logHeaderSize + (window tail logHeaderSize (declaredLen tail)).length))) := by
            refine .batch _ (tail.drop (logHeaderSize + declaredLen tail)) ?_
              (size.trans_le (Nat.not_lt.mp large))
            rw [payloadRecord, size, List.append_assoc, ← header]
            exact rebuild
          rw [size] at batch
          exact (if_neg (not_not_intro stored)).symm ▸ batch
        · exact (if_pos stored).symm ▸ .refused _
  · rw [readRecord, read]
    exact .refused error

theorem readRecord_tail (front : Bytes) (ends : Tail tail)
    (slice : front.length + tail.length < 2 ^ 63) (word : mappingOffset + front.length < 2 ^ 64) :
    readRecord (front ++ tail) mappingOffset front.length = .ok .stop := by
  have declared := declaredLen_lt tail
  have header : logHeaderSize = 17 := rfl
  cases ends with
  | short few => exact readRecord_short front few (by omega)
  | marked isFront => exact readRecord_marked front isFront (by omega) word
  | cut valid long less => exact readRecord_cut front valid long less (by omega) word

end Step

/-! ## Operations -/

section Operations

variable {file : File} {mapping : BaseBytes}

/-- The operation whose fields these are. -/
theorem operation_of_fields {tail : Bytes} {marker : Marker}
    (first : tail.head?.bind Marker.fromByte = some marker)
    (kind : marker = .put ∨ marker = .delete ∧ leNat (window tail 5 4) = 0)
    (inside : operationHeaderSize + leNat (window tail 1 4) + leNat (window tail 5 4) ≤ tail.length) :
    ∃ op rest, tail = encodeOperation op ++ rest ∧ op.1.length = leNat (window tail 1 4) ∧
      (operationParts op.2).2.length = leNat (window tail 5 4) := by
  generalize keyLen : leNat (window tail 1 4) = k at inside ⊢
  generalize valueLen : leNat (window tail 5 4) = v at inside kind ⊢
  have long : operationHeaderSize ≤ tail.length := by omega
  have keySize : (window tail operationHeaderSize k).length = k := window_length _ _ _ (by omega)
  have valueSize : (window tail (operationHeaderSize + k) v).length = v := window_length _ _ _ inside
  have word : ∀ start, start + 4 ≤ operationHeaderSize →
      leBytes 4 (leNat (window tail start 4)) = window tail start 4 := by
    intro start below
    have := leBytes_leNat (window tail start 4)
    rwa [window_length _ _ _ (below.trans long)] at this
  have markerByte : window tail 0 1 = [marker.toByte] := by
    cases tail with
    | nil => exact absurd long (by decide)
    | cons b tail =>
        have found : Marker.fromByte b = some marker := first
        show [b] = _
        rw [Marker.toByte_of_fromByte found]
  obtain ⟨value, parts⟩ : ∃ value, operationParts value =
      (marker, window tail (operationHeaderSize + k) v) := by
    rcases kind with rfl | ⟨rfl, rfl⟩
    · exact ⟨some _, rfl⟩
    · exact ⟨none, by rw [window_zero_count]; rfl⟩
  refine ⟨(window tail operationHeaderSize k, value), tail.drop (operationHeaderSize + k + v), ?_,
    keySize, by rw [parts, valueSize]⟩
  have header : operationHeader (window tail operationHeaderSize k, value) =
      window tail 0 operationHeaderSize := by
    rw [operationHeader, parts, keySize, valueSize, ← keyLen, ← valueLen, word 1 (by decide),
      word 5 (by decide), ← markerByte, show operationHeaderSize = 1 + (4 + 4) from rfl, window_add,
      window_add]
  have whole : tail.take (operationHeaderSize + k + v) =
      window tail 0 (operationHeaderSize + k + v) := rfl
  have joined : encodeOperation (window tail operationHeaderSize k, value) =
      tail.take (operationHeaderSize + k + v) := by
    rw [encodeOperation, header, parts, whole, window_add, window_add, Nat.zero_add, Nat.zero_add,
      List.append_assoc]
  rw [joined, List.take_append_drop]

/-- What is read as an operation is an encoded one. -/
theorem readOperation_cases (front tail : Bytes) {payloadOffset : Nat}
    (slice : payloadOffset + front.length + tail.length < 2 ^ 63) :
    (∃ op rest, tail = encodeOperation op ++ rest ∧ op.1.length ≤ maxKeySize ∧
      (operationParts op.2).2.length ≤ maxValueSize) ∨
    ∃ error, readOperation (front ++ tail) payloadOffset front.length = .error (.err error) := by
  have size : operationHeaderSize = 9 := rfl
  rw [readOperation]
  simp only [checkedAdd_some (show payloadOffset + front.length < 2 ^ 64 by omega), orFail_some,
    ok_bind, checkedAdd_some (show front.length + operationHeaderSize < 2 ^ 64 by omega)]
  by_cases few : tail.length < operationHeaderSize
  · rw [getRange_none (by rw [List.length_append]; omega)]
    exact .inr ⟨_, rfl⟩
  have long := Nat.not_lt.mp few
  have header : getRange (front ++ tail) front.length (front.length + operationHeaderSize) =
      some (tail.take operationHeaderSize) := by
    rw [getRange_some (by omega) (by rw [List.length_append]; omega), Nat.add_sub_cancel_left,
      ← Nat.add_zero front.length, window_append_at]
    rfl
  have inHeader : ∀ start, start + 4 ≤ operationHeaderSize →
      window (tail.take operationHeaderSize) start 4 = window tail start 4 := by
    intro start below
    have := window_window tail 0 operationHeaderSize start 4 below
    rwa [Nat.zero_add] at this
  have first : (tail.take operationHeaderSize).head? = tail.head? := by
    cases tail with
    | nil => rfl
    | cons b tail => rfl
  have small : ∀ start, leNat (window tail start 4) < 2 ^ 32 := fun start =>
    lt_of_lt_of_le (leNat_lt _) (Nat.pow_le_pow_right (n := 256) (by decide) (window_length_le ..))
  have key32 := small 1
  have value32 := small 5
  simp only [header, orFail_some, ok_bind, first, inHeader 1 (by decide), inHeader 5 (by decide)]
  by_cases invalid : ¬(tail.head?.bind Marker.fromByte = some .put ∨
        tail.head?.bind Marker.fromByte = some .delete) ∨
      (tail.head?.bind Marker.fromByte = some .delete ∧ leNat (window tail 5 4) ≠ 0) ∨
      leNat (window tail 1 4) > maxKeySize ∨ leNat (window tail 5 4) > maxValueSize
  · rw [if_pos invalid]
    exact .inr ⟨_, rfl⟩
  rw [if_neg invalid]
  simp only [not_or, not_and, not_not, Nat.not_lt, gt_iff_lt] at invalid
  obtain ⟨known, deletes, shortKey, shortValue⟩ := invalid
  simp only [checkedAdd_some (show front.length + operationHeaderSize + leNat (window tail 1 4) <
    2 ^ 64 by omega), orFail_some, ok_bind, checkedAdd_some (show front.length + operationHeaderSize +
    leNat (window tail 1 4) + leNat (window tail 5 4) < 2 ^ 64 by omega)]
  by_cases inside : operationHeaderSize + leNat (window tail 1 4) + leNat (window tail 5 4) ≤ tail.length
  · left
    obtain ⟨marker, isMarker, kind⟩ : ∃ marker, tail.head?.bind Marker.fromByte = some marker ∧
        (marker = .put ∨ marker = .delete ∧ leNat (window tail 5 4) = 0) := by
      by_cases put : tail.head?.bind Marker.fromByte = some .put
      · exact ⟨.put, put, .inl rfl⟩
      · exact ⟨.delete, known put, .inr ⟨rfl, deletes (known put)⟩⟩
    obtain ⟨op, rest, split, keyIs, valueIs⟩ := operation_of_fields isMarker kind inside
    exact ⟨op, rest, split, keyIs.trans_le shortKey, valueIs.trans_le shortValue⟩
  · right
    have value : getRange (front ++ tail) (front.length + operationHeaderSize + leNat (window tail 1 4))
        (front.length + operationHeaderSize + leNat (window tail 1 4) + leNat (window tail 5 4)) = none :=
      getRange_none (by rw [List.length_append]; omega)
    cases getRange (front ++ tail) (front.length + operationHeaderSize)
        (front.length + operationHeaderSize + leNat (window tail 1 4)) with
    | none => exact ⟨_, rfl⟩
    | some key =>
        rw [value]
        exact ⟨_, rfl⟩

variable {table : List MappedRecord} {ops : List Operation}

/-- A payload holds the operations that its count announces, or applying it is refused. -/
theorem applyOperations_cases (before done tail : Bytes) (count : Nat)
    (front : before ++ (done ++ tail) <+: mapping.deref file)
    (decodes : OverlayMap.RecordsDecode (before ++ (done ++ tail)) table ops)
    (slice : before.length + done.length + tail.length < 2 ^ 63) (memory : Nat) :
    (∃ added rest, added.length = count ∧ tail = operationsBytes added ++ rest ∧
      (∀ op ∈ added, op.1.length ≤ maxKeySize) ∧
      ∀ op ∈ added, (operationParts op.2).2.length ≤ maxValueSize) ∨
    ∃ error, applyOperations file (done ++ tail) before.length count done.length
      ⟨.mapped (some mapping) table [], memory⟩ = .error (.err error) := by
  induction count generalizing done tail table ops memory with
  | zero => exact .inl ⟨[], tail, rfl, rfl, nofun, nofun⟩
  | succ count ih =>
      rw [applyOperations]
      rcases readOperation_cases done tail slice with ⟨op, tail, rfl, key, value⟩ | ⟨error, refused⟩
      · have size : (encodeOperation op).length = operationSize op := encodeOperation_length op
        rw [List.length_append, size] at slice
        rw [readOperation_encoded done tail key value (by omega), ok_bind]
        have place : MappedRecord.slices ⟨before.length + done.length⟩
            (before ++ (done ++ (encodeOperation op ++ tail))) = .ok op := by
          have at_ := slices_encoded (before ++ done) tail
            (lt_of_le_of_lt key (by decide)) (lt_of_le_of_lt value (by decide))
            (by rw [List.length_append]; omega)
          rw [List.length_append] at at_
          simpa only [List.append_assoc] using at_
        obtain ⟨table1, old, ops1, installed, decodes1, -⟩ :=
          installRecovered_spec front decodes place
        dsimp only
        rw [installed, ok_bind]
        have next : (done ++ encodeOperation op).length = done.length + operationSize op := by
          rw [List.length_append, size]
        rw [← List.append_assoc done] at front decodes1 ⊢
        have later := ih (done ++ encodeOperation op) tail front decodes1 (by rw [next]; omega)
          (saturatingAdd (memory - chargeOf old) (MappedRecord.charge op))
        rw [next] at later
        rcases later with ⟨added, rest, few, rfl, keys, values⟩ | refused
        · refine .inl ⟨op :: added, rest, by rw [List.length_cons, few], ?_, ?_, ?_⟩
          · rw [operationsBytes_cons, List.append_assoc]
          · exact List.forall_mem_cons.mpr ⟨key, keys⟩
          · exact List.forall_mem_cons.mpr ⟨value, values⟩
        · exact .inr refused
      · right
        rw [refused]
        exact ⟨error, rfl⟩

end Operations

/-! ## Scanning any bytes -/

section Scan

variable {d : Disk} {mapping : BaseBytes} {table : List MappedRecord} {ops : List Operation}

/-- Applying any payload: it is the payload of a record, or it is refused. -/
theorem wp_applyBatchPayload_any (before payload : Bytes)
    (front : before ++ payload <+: mapping.deref d.file)
    (decodes : OverlayMap.RecordsDecode (before ++ payload) table ops)
    (slice : before.length + payload.length < 2 ^ 63) (small : payload.length ≤ maxLogPayloadSize)
    (light : chargeOf ops ≤ before.length) :
    wp (applyBatchPayload payload before.length ⟨.mapped (some mapping) table [], chargeOf ops⟩)
      (fun scan d' => Disk.Issued [] d d' ∧ ∃ (record : Record) (table' : List MappedRecord)
          (ops' : List Operation), payload = payloadBytes record.ops ∧
        scan = ⟨.mapped (some mapping) table' [], chargeOf ops'⟩ ∧
        OverlayMap.RecordsDecode (before ++ payload) table' ops' ∧
        (Distinct ops → Distinct ops') ∧
        (∀ key, latest ops' key = latest (record.ops.reverse ++ ops) key) ∧
        chargeOf ops' ≤ before.length + payload.length)
      (fun e d' => (∃ error, e = .err error) ∧ Disk.Issued [] d d') d := by
  by_cases known : ∃ record : Record, payload = payloadBytes record.ops
  · obtain ⟨record, rfl⟩ := known
    refine wp_mono (wp_applyBatchPayload before record front decodes (by omega) light) ?_
      fun _ _ stopped => ⟨stopped.1.2, stopped.2⟩
    rintro scan d' ⟨issued, table', ops', found⟩
    exact ⟨issued, record, table', ops', rfl, found⟩
  unfold applyBatchPayload
  by_cases few : payload.length < 4
  · rw [getRange_none few]
    refine wp_bind (wp_lift nofun ?_)
    rintro _ ⟨⟩
    exact ⟨⟨_, rfl⟩, Disk.Issued.refl d⟩
  have countIs : getRange payload 0 4 = some (payload.take 4) :=
    getRange_some (by decide) (Nat.not_lt.mp few)
  have split : payload.take 4 ++ payload.drop 4 = payload := List.take_append_drop 4 payload
  have four : (payload.take 4).length = 4 := List.length_take_of_le (Nat.not_lt.mp few)
  rw [countIs]
  refine wp_bind (wp_lift ?_ nofun)
  rintro _ ⟨⟩
  dsimp only
  by_cases many : leNat (payload.take 4) > maxBatchOperations
  · rw [if_pos many]
    exact wp_stop ⟨⟨_, rfl⟩, Disk.Issued.refl d⟩
  rw [if_neg many]
  refine wp_bind (Io.wp_reserve ?_ fun _ => ⟨⟨_, rfl⟩, Disk.issued_tick d⟩)
  refine wp_bind (wp_state (wp_bind ?_))
  rw [← split] at front decodes
  have slice' : before.length + (payload.take 4).length + (payload.drop 4).length < 2 ^ 63 := by
    rw [Nat.add_assoc, ← List.length_append, split]
    exact slice
  have cases := @applyOperations_cases d.tick.file mapping table ops before (payload.take 4)
    (payload.drop 4) (leNat (payload.take 4)) front decodes slice' (chargeOf ops)
  rw [four, split] at cases
  rcases cases with ⟨added, rest, count, dropIs, keys, values⟩ | ⟨error, refused⟩
  · -- The count is right, so bytes are left over.
    have countBytes : leBytes 4 added.length = payload.take 4 := by
      have := leBytes_leNat (payload.take 4)
      rwa [four, ← count] at this
    have whole : leBytes 4 added.length ++ (operationsBytes added ++ rest) = payload := by
      rw [countBytes, ← dropIs, split]
    have more : rest ≠ [] := by
      rintro rfl
      rw [List.append_nil] at whole
      refine known ⟨⟨added, keys, ?_, ?_⟩, whole.symm⟩
      · rw [count]
        exact Nat.not_lt.mp many
      · exact (congrArg List.length whole).trans_le small
    have size := congrArg List.length whole
    rw [List.length_append, List.length_append, leBytes_length] at size
    rw [split, ← whole] at front decodes
    obtain ⟨table', ops', ran, -⟩ := @applyOperations_spec d.tick.file mapping table ops before
      (leBytes 4 added.length) added rest front decodes keys values
      (by rw [leBytes_length]; omega) (by omega)
    rw [whole, leBytes_length] at ran
    rw [← count, ran]
    refine wp_lift ?_ nofun
    rintro _ ⟨⟩
    dsimp only
    have some := List.length_pos_iff.mpr more
    rw [if_pos (by omega)]
    exact wp_stop ⟨⟨_, rfl⟩, Disk.issued_tick d⟩
  · rw [refused]
    refine wp_lift nofun ?_
    rintro _ ⟨⟩
    exact ⟨⟨error, rfl⟩, Disk.issued_tick d⟩

/-- What the loop makes of the bytes `tail` behind those it has read: it takes the records of a
longest run of them. -/
structure ScansFrom (mapping : BaseBytes) (front tail : Bytes) (ops : List Operation)
    (r : Nat × ScanState) (records : List Record) (rest : Bytes) (table' : List MappedRecord)
    (ops' : List Operation) : Prop where
  split : tail = recordsLog records ++ rest
  ends : Tail rest
  scan : r = (front.length + (recordsLog records).length,
    ⟨.mapped (some mapping) table' [], chargeOf ops'⟩)
  decodes : OverlayMap.RecordsDecode (front ++ recordsLog records) table' ops'
  distinct : Distinct ops → Distinct ops'
  latest : ∀ key, latest ops' key = Dictionary.latest (recordsOps records ++ ops) key

/-- The loop over any bytes. -/
theorem wp_scanFrom_any {mappingOffset : Nat} (front tail : Bytes)
    (deref : mapping.deref d.file = front ++ tail)
    (decodes : OverlayMap.RecordsDecode front table ops)
    (slice : front.length + tail.length < 2 ^ 63)
    (word : mappingOffset + front.length + tail.length < 2 ^ 64)
    (light : chargeOf ops ≤ front.length) {fuel : Nat} (enough : tail.length < fuel) :
    wp (scanFrom (mapping.deref d.file) mappingOffset fuel front.length
        ⟨.mapped (some mapping) table [], chargeOf ops⟩)
      (fun r d' => Disk.Issued [] d d' ∧
        ∃ records rest table' ops', ScansFrom mapping front tail ops r records rest table' ops')
      (fun e d' => (∃ error, e = .err error) ∧ Disk.Issued [] d d') d := by
  induction fuel generalizing d front tail table ops with
  | zero => exact absurd enough (Nat.not_lt_zero _)
  | succ fuel ih =>
      have stopped : Tail tail → wp (pure (front.length,
          (⟨.mapped (some mapping) table [], chargeOf ops⟩ : ScanState)) : Io (Nat × ScanState))
          (fun r d' => Disk.Issued [] d d' ∧
            ∃ records rest table' ops', ScansFrom mapping front tail ops r records rest table' ops')
          (fun e d' => (∃ error, e = .err error) ∧ Disk.Issued [] d d') d := fun ends =>
        wp_pure ⟨Disk.Issued.refl d, [], tail, table, ops, rfl, ends, rfl,
          (List.append_nil front).symm ▸ decodes, id, fun _ => rfl⟩
      rw [scanFrom]
      by_cases more : front.length < (mapping.deref d.file).length
      · rw [if_pos more]
        have meets := readRecord_meets front slice
          (show mappingOffset + front.length < 2 ^ 64 by omega)
        rw [← deref] at meets
        generalize stepIs : readRecord (mapping.deref d.file) mappingOffset front.length = step at meets
        cases meets with
        | stop ends =>
            refine wp_bind (wp_lift_ok ?_)
            exact stopped ends
        | refused error =>
            refine wp_bind (wp_lift_error ?_)
            exact ⟨⟨error, rfl⟩, Disk.Issued.refl d⟩
        | batch payload rest split small =>
            subst split
            have size : (payloadRecord payload).length = logHeaderSize + payload.length := by
              rw [payloadRecord, List.length_append, recordHeader_length]
            have some : 0 < logHeaderSize := by decide
            rw [List.length_append, size] at slice word enough
            refine wp_bind (wp_lift_ok ?_)
            have around : (front ++ recordHeader .batch 0 payload.length
                (recordChecksum .batch 0 payload.length payload)) ++ payload =
                front ++ payloadRecord payload := by
              rw [payloadRecord, List.append_assoc]
            have headerEnd : (front ++ recordHeader .batch 0 payload.length
                (recordChecksum .batch 0 payload.length payload)).length =
                front.length + logHeaderSize := by
              rw [List.length_append, recordHeader_length]
            have applied := @wp_applyBatchPayload_any d mapping table ops
              (front ++ recordHeader .batch 0 payload.length
                (recordChecksum .batch 0 payload.length payload)) payload
              (by rw [around, deref, ← List.append_assoc]; exact List.prefix_append _ _)
              (by rw [around]; exact decodes.extend (List.prefix_append _ _))
              (by rw [headerEnd]; omega) small (by rw [headerEnd]; omega)
            rw [around, headerEnd] at applied
            refine wp_bind (wp_mono applied ?_ fun _ _ => id)
            rintro _ d1 ⟨issued1, record, table1, ops1, rfl, rfl, decodes1, distinct1, same1, light1⟩
            have deref1 : mapping.deref d1.file = mapping.deref d.file := by rw [issued1.kept]
            have recordIs : payloadRecord (payloadBytes record.ops) = record.bytes := rfl
            have ahead : (front ++ record.bytes).length =
                front.length + logHeaderSize + (payloadBytes record.ops).length := by
              rw [List.length_append, ← recordIs, size, Nat.add_assoc]
            rw [recordIs] at deref decodes1 ⊢
            have later := @ih d1 table1 ops1 (front ++ record.bytes) rest
              (by rw [deref1, deref, List.append_assoc]) decodes1 (by omega) (by omega)
              (by omega) (by omega)
            rw [deref1, ahead] at later
            refine wp_mono later ?_ fun e d' stopped => ⟨stopped.1, issued1.trans stopped.2⟩
            rintro _ d2 ⟨issued2, records, left, table2, ops2, rfl, ends, rfl, decodes2, distinct2, same2⟩
            have grown : recordsLog (record :: records) = record.bytes ++ recordsLog records := rfl
            refine ⟨issued1.trans issued2, record :: records, left, table2, ops2, ?_, ends, ?_, ?_,
              distinct2 ∘ distinct1, fun key => ?_⟩
            · rw [grown, List.append_assoc]
            · rw [grown, List.length_append, List.length_append, Nat.add_assoc]
            · rw [grown, ← List.append_assoc]
              exact decodes2
            · rw [same2, latest_append, same1, ← latest_append, ← List.append_assoc, recordsOps_cons]
      · rw [if_neg more]
        have nothing : tail = [] := by
          rw [deref, List.length_append] at more
          exact List.length_eq_zero_iff.mp (by omega)
        exact stopped (.short (by rw [nothing]; decide))

/-- What a scan of any bytes does. -/
structure Scans (d : Disk) (mapping : BaseBytes) (mappingOffset : Nat) (scan : OverlayScan)
    (records : List Record) (rest : Bytes) (table : List MappedRecord) (ops : List Operation) :
    Prop where
  bytes : mapping.deref d.file = recordsLog records ++ rest
  tail : Tail rest
  scan : scan = ⟨.mapped (some mapping) table [], chargeOf ops, mappingOffset + (recordsLog records).length⟩
  decodes : OverlayMap.RecordsDecode (recordsLog records) table ops
  distinct : Distinct ops
  latest : ∀ key, latest ops key = Dictionary.latest (recordsOps records) key

theorem wp_scanOverlay_any {mappingOffset : Nat} (slice : (mapping.deref d.file).length < 2 ^ 63)
    (word : mappingOffset + (mapping.deref d.file).length < 2 ^ 64) :
    wp (scanOverlay mapping mappingOffset)
      (fun scan d' => Disk.Issued [] d d' ∧
        ∃ records rest table ops, Scans d mapping mappingOffset scan records rest table ops)
      (fun e d' => (∃ error, e = .err error) ∧ Disk.Issued [] d d') d := by
  unfold scanOverlay
  refine wp_bind (wp_state (wp_bind ?_))
  refine wp_mono (@wp_scanFrom_any d mapping [] [] mappingOffset [] (mapping.deref d.file) rfl .nil
    (by simpa using slice) (by simpa using word) (by simp) _ (Nat.lt_succ_self _)) ?_ fun _ _ => id
  rintro _ d1 ⟨issued, records, rest, table, ops, bytes, ends, rfl, decodes, distinct, same⟩
  have inside : (recordsLog records).length ≤ (mapping.deref d.file).length := by
    rw [bytes, List.length_append]
    omega
  dsimp only
  rw [List.length_nil, Nat.zero_add, checkedAdd_some (by omega)]
  refine wp_bind (wp_lift ?_ nofun)
  rintro _ ⟨⟩
  refine wp_pure ⟨issued, records, rest, table, ops, bytes, ends, rfl, decodes,
    distinct distinct_nil, fun key => ?_⟩
  rw [same, List.append_nil]

/-- A log in the grammar is taken. -/
theorem scanOverlay_of_records {mappingOffset : Nat} (quiet : d.Quiet) {records : List Record}
    {rest : Bytes} (bytes : mapping.deref d.file = recordsLog records ++ rest) (ends : Tail rest)
    (slice : (mapping.deref d.file).length < 2 ^ 63)
    (word : mappingOffset + (mapping.deref d.file).length < 2 ^ 64) :
    ∃ scan d' table ops, scanOverlay mapping mappingOffset d = (.ok scan, d') ∧
      Disk.Issued [] d d' ∧ Scans d mapping mappingOffset scan records rest table ops := by
  have size : (mapping.deref d.file).length = (recordsLog records).length + rest.length := by
    rw [bytes, List.length_append]
  suffices spec : wp (scanOverlay mapping mappingOffset)
      (fun scan d' => Disk.Issued [] d d' ∧
        ∃ table ops, Scans d mapping mappingOffset scan records rest table ops)
      (fun _ _ => False) d by
    obtain ⟨scan, d', ran, issued, table, ops, scans⟩ := wp_returns spec fun _ _ => id
    exact ⟨scan, d', table, ops, ran, issued, scans⟩
  refine wp_scanOverlay_bind records bytes (by omega) (fun _ _ stopped => stopped.1.1 quiet) ?_
  intro d1 table ops fuel issued decodes distinct same enough
  have finished : wp (do
      let validLen ← Prog.lift (orFail (checkedAdd mappingOffset (recordsLog records).length)
        (.invalidBase "overlay length overflow"))
      return (⟨.mapped (some mapping) table [], chargeOf ops, validLen⟩ : OverlayScan))
      (fun scan d' => Disk.Issued [] d d' ∧
        ∃ table ops, Scans d mapping mappingOffset scan records rest table ops)
      (fun _ _ => False) d1 := by
    rw [checkedAdd_some (by omega)]
    refine wp_bind (wp_lift_ok ?_)
    exact wp_pure ⟨issued, table, ops, bytes, ends, rfl, decodes, distinct, same⟩
  obtain ⟨fuel, rfl⟩ : ∃ left, fuel = left + 1 := ⟨fuel - 1, by omega⟩
  rw [scanFrom]
  split
  · rw [readRecord_tail _ ends (by omega) (by omega)]
    refine wp_bind (wp_lift_ok ?_)
    exact wp_pure finished
  · exact wp_pure finished

/-- The index that a scan built answers with the last operation on a key. -/
theorem Scans.getHashed {mappingOffset : Nat} {scan : OverlayScan} {records : List Record}
    {rest : Bytes} (scans : Scans d mapping mappingOffset scan records rest table ops) (key : Bytes) :
    scan.index.getHashed d.file key = .ok (Dictionary.latest (recordsOps records) key) := by
  have decodes : scan.index.Decodes d.file ops := by
    rw [scans.scan]
    refine ⟨ops, ?_, rfl⟩
    show OverlayMap.RecordsDecode (mapping.deref d.file) table ops
    rw [scans.bytes]
    exact scans.decodes.extend (List.prefix_append _ _)
  rw [OverlayMap.getHashed_eq decodes, ← scans.latest]

end Scan

/-! ## The grammar -/

/-- A scan returns on the logs of the grammar, with the last operation on every key in the
index, and ends with an error on every other byte string. -/
theorem scanOverlay_accepts_iff {d : Disk} {mapping : BaseBytes} {mappingOffset : Nat}
    (quiet : d.Quiet) (small : mappingOffset + (mapping.deref d.file).length < 2 ^ 63) :
    ((∃ scan, (scanOverlay mapping mappingOffset d).1 = .ok scan) ↔
      ∃ records tail, Overlay (mapping.deref d.file) records tail) ∧
    (∀ records tail, Overlay (mapping.deref d.file) records tail →
      ∃ scan, (scanOverlay mapping mappingOffset d).1 = .ok scan ∧
        scan.validLen = mappingOffset + (records.map Prod.fst).flatten.length ∧
        ∀ key, scan.index.getHashed d.file key =
          .ok (latest (records.flatMap Prod.snd).reverse key)) ∧
    ((¬∃ records tail, Overlay (mapping.deref d.file) records tail) →
      ∃ error, (scanOverlay mapping mappingOffset d).1 = .error (.err error)) := by
  have slice : (mapping.deref d.file).length < 2 ^ 63 := by omega
  have word : mappingOffset + (mapping.deref d.file).length < 2 ^ 64 := by omega
  have accepted : ∀ records tail, Overlay (mapping.deref d.file) records tail →
      ∃ scan, (scanOverlay mapping mappingOffset d).1 = .ok scan ∧
        scan.validLen = mappingOffset + (records.map Prod.fst).flatten.length ∧
        ∀ key, scan.index.getHashed d.file key =
          .ok (latest (records.flatMap Prod.snd).reverse key) := by
    intro pairs tail overlay
    obtain ⟨records, rfl, bytes, ends⟩ := overlay_iff.mp overlay
    obtain ⟨scan, d', table, ops, ran, -, scans⟩ :=
      scanOverlay_of_records quiet bytes ends slice word
    refine ⟨scan, by rw [ran], ?_, fun key => ?_⟩
    · rw [scans.scan, List.map_map]
      rfl
    · rw [scans.getHashed, List.flatMap_map, recordsOps]
  have spec := @wp_scanOverlay_any d mapping mappingOffset slice word
  unfold wp at spec
  split at spec
  · rename_i scan d' ran
    obtain ⟨-, records, rest, table, ops, scans⟩ := spec
    have overlay : ∃ records tail, Overlay (mapping.deref d.file) records tail :=
      ⟨_, rest, overlay_iff.mpr ⟨records, rfl, scans.bytes, scans.tail⟩⟩
    exact ⟨⟨fun _ => overlay, fun _ => ⟨scan, by rw [ran]⟩⟩, accepted, fun none => absurd overlay none⟩
  · rename_i e d' ran
    obtain ⟨⟨error, rfl⟩, -⟩ := spec
    refine ⟨⟨?_, ?_⟩, accepted, fun _ => ⟨error, by rw [ran]⟩⟩
    · rintro ⟨scan, returned⟩
      rw [ran] at returned
      cases returned
    · rintro ⟨records, tail, overlay⟩
      obtain ⟨scan, returned, -⟩ := accepted records tail overlay
      exact ⟨scan, returned⟩

/-- A put of two keys, and a delete of one of them. -/
def twoRecords : List Record :=
  [⟨[([1], some [2]), ([7], some [8])], by decide, by decide, by decide⟩,
    ⟨[([7], none)], by decide, by decide, by decide⟩]

theorem recordsLog_length_eq (records : List Record) : (recordsLog records).length =
    (records.map fun record => logHeaderSize + (payloadBytes record.ops).length).sum := by
  rw [recordsLog, List.length_flatMap]
  exact congrArg List.sum (List.map_congr_left fun record _ => encodeBatch_length record.ops)

theorem twoRecords_length : (recordsLog twoRecords).length = 74 := by
  rw [recordsLog_length_eq]
  decide

/-- The two records, and a compaction marker with something behind it. -/
theorem scanOverlay_accepts_marked :
    ∃ scan, (scanOverlay (.memory (recordsLog twoRecords ++ (compactMarker ++ [9]))) 8192
        (Disk.ofFile File.empty [])).1 = .ok scan ∧
      scan.validLen = 8192 + 74 ∧ scan.index.getHashed File.empty [1] = .ok (some (some [2])) ∧
      scan.index.getHashed File.empty [7] = .ok (some none) := by
  have overlay : Overlay (recordsLog twoRecords ++ (compactMarker ++ [9]))
      (twoRecords.map fun record => (record.bytes, record.ops)) (compactMarker ++ [9]) :=
    overlay_iff.mpr ⟨twoRecords, rfl, rfl, .marked (List.prefix_append _ _)⟩
  have small : 8192 + (recordsLog twoRecords ++ (compactMarker ++ [9])).length < 2 ^ 63 := by
    rw [List.length_append, List.length_append, twoRecords_length, compactMarker_length]
    decide
  generalize bytesIs : recordsLog twoRecords ++ (compactMarker ++ [9]) = bytes at *
  obtain ⟨scan, ran, valid, shows⟩ := (@scanOverlay_accepts_iff (Disk.ofFile File.empty [])
    (.memory bytes) 8192 (Disk.quiet_ofFile File.empty) small).2.1 _ _ overlay
  refine ⟨scan, ran, ?_, shows [1], shows [7]⟩
  rw [valid, List.map_map, ← twoRecords_length]
  rfl

/-! ## A log cut at any byte -/

/-- A part of a record that is not all of it is a tail. -/
theorem tail_of_part (record : Record) {part : Bytes} (front : part <+: record.bytes)
    (less : part.length < record.bytes.length) : Tail part := by
  by_cases few : part.length < logHeaderSize
  · exact .short few
  have long := Nat.not_lt.mp few
  have small : (payloadBytes record.ops).length < 2 ^ 32 := lt_of_le_of_lt record.size (by decide)
  have size : record.bytes.length = logHeaderSize + (payloadBytes record.ops).length :=
    encodeBatch_length record.ops
  have header : ∀ start count, start + count ≤ logHeaderSize →
      window part start count = window record.bytes start count := by
    obtain ⟨rest, whole⟩ := front
    intro start count inside
    rw [← whole, window_append_left _ _ _ _ (inside.trans long)]
  have declared : declaredLen part = (payloadBytes record.ops).length := by
    rw [declaredLen, header 1 4 (by decide), header 5 4 (by decide), Record.bytes, encodeBatch,
      recordHeader_keyLen _ _ _ (by decide), recordHeader_valueLen _ _ _ small, Nat.zero_add]
  refine .cut ?_ long (by rw [declared]; omega)
  unfold HeaderValid
  rw [header _ _ (by decide), header _ _ (by decide)]
  exact recordHeader_valid ..

/-- The first bytes of a log are its whole records and a tail. -/
theorem take_recordsLog (records : List Record) {c : Nat} (inside : c ≤ (recordsLog records).length) :
    ∃ n rest, (recordsLog records).take c = recordsLog (records.take n) ++ rest ∧ Tail rest ∧
      n ≤ records.length ∧ (recordsLog (records.take n)).length ≤ c ∧
      ∀ m ≤ records.length, (recordsLog (records.take m)).length ≤ c → m ≤ n := by
  induction records generalizing c with
  | nil =>
      refine ⟨0, [], ?_, .short (by decide), le_rfl, Nat.zero_le _, fun m below _ => below⟩
      rw [List.take_nil]
      exact List.take_nil
  | cons record records ih =>
      have grown : ∀ more : List Record, recordsLog (record :: more) = record.bytes ++ recordsLog more :=
        fun _ => rfl
      by_cases whole : record.bytes.length ≤ c
      · rw [grown, List.length_append] at inside
        obtain ⟨n, rest, split, ends, few, within, most⟩ := @ih (c - record.bytes.length) (by omega)
        refine ⟨n + 1, rest, ?_, ends, Nat.succ_le_succ few, ?_, ?_⟩
        · rw [grown, List.take_append, List.take_of_length_le whole, split, List.take_succ_cons, grown,
            List.append_assoc]
        · rw [List.take_succ_cons, grown, List.length_append]
          omega
        · intro m below fits
          cases m with
          | zero => exact Nat.zero_le _
          | succ m =>
              rw [List.take_succ_cons, grown, List.length_append] at fits
              exact Nat.succ_le_succ (most m (Nat.le_of_succ_le_succ below) (by omega))
      · have part : (recordsLog (record :: records)).take c = record.bytes.take c := by
          rw [grown, List.take_append_of_le_length (by omega)]
        refine ⟨0, record.bytes.take c, part, ?_, Nat.zero_le _, Nat.zero_le _, ?_⟩
        · exact tail_of_part record (List.take_prefix _ _) (by rw [List.length_take]; omega)
        · intro m below fits
          cases m with
          | zero => exact le_rfl
          | succ m =>
              rw [List.take_succ_cons, grown, List.length_append] at fits
              omega

/-- A batch as the writer gets it: the entries of a staged map in their order, within the
limits, and the checksums of values that the transaction has kept. -/
structure StagedBatch where
  entries : List StagedEntry
  valueChecksums : Option (KeyMap (BitVec 32))
  distinct : (entries.map Prod.fst).Nodup
  keys : ∀ entry ∈ entries, entry.1.length ≤ maxKeySize
  accepted : ∃ n, batchPayloadLen entries = .ok n
  matching : ∀ values, valueChecksums = some values → ChecksumsMatch values entries

namespace StagedBatch

def ops (batch : StagedBatch) : List Operation := batch.entries.map stagedOp

def batch (batch : StagedBatch) : Batch where
  ops := batch.ops
  distinct := by
    rw [ops, List.map_map]
    exact batch.distinct
  keys op member := by
    obtain ⟨entry, inside, rfl⟩ := List.mem_map.mp member
    exact batch.keys entry inside
  count := by
    obtain ⟨n, accepted⟩ := batch.accepted
    rw [ops, List.length_map]
    exact (batchPayloadLen_eq_ok.mp accepted).1
  size := by
    obtain ⟨n, accepted⟩ := batch.accepted
    obtain ⟨-, rfl, small⟩ := batchPayloadLen_eq_ok.mp accepted
    exact small

def record (batch : StagedBatch) : Record := batch.batch.record

end StagedBatch

/-- The records of the batches, one after the other, through a buffered writer. -/
def writeBatches : List StagedBatch → Io Unit
  | [] => pure ()
  | batch :: batches => do
      writeBatchRecordInner (Io.bufWrite logWriteBufferSize) batch.entries batch.valueChecksums
      writeBatches batches

/-- The bytes that an empty file then holds. -/
def writtenLog (batches : List StagedBatch) : Bytes :=
  let d := (Io.withBufWriter (do writeBatches batches; Io.flushBuf) (Disk.ofFile File.empty [])).2
  d.file.slice 0 d.file.len

theorem wp_writeBatches (batches : List StagedBatch) {d₀ d : Disk} {start : Nat} {done : Bytes}
    (streaming : Io.Streaming d₀ start done d) :
    wp (writeBatches batches)
      (fun _ d' => Io.Streaming d₀ start (done ++ recordsLog (batches.map StagedBatch.record)) d')
      (fun e _ => d₀.Failed e) d := by
  induction batches generalizing done d with
  | nil => exact wp_pure ((List.append_nil done).symm ▸ streaming)
  | cons batch batches ih =>
      obtain ⟨n, accepted⟩ := batch.accepted
      refine wp_bind (wp_mono (wp_writeBatchRecordInner (by decide) streaming accepted batch.matching)
        ?_ fun _ _ broken => broken.1)
      intro _ d1 streaming1
      have later := ih streaming1
      rw [List.append_assoc] at later
      exact later

/-- What is written for the batches is their records. -/
theorem writtenLog_eq (batches : List StagedBatch) :
    writtenLog batches = recordsLog (batches.map StagedBatch.record) :=
  Io.slice_withBufWriter (wp_writeBatches batches (Io.streaming_start _))

/-- A log of written batches, cut at any byte, gives the batches that are whole. -/
theorem scanOverlay_written (batches : List StagedBatch) {c : Nat}
    (inside : c ≤ (writtenLog batches).length) {d : Disk} {mapping : BaseBytes} {mappingOffset : Nat}
    (quiet : d.Quiet) (bytes : mapping.deref d.file = (writtenLog batches).take c)
    (slice : c < 2 ^ 63) (word : mappingOffset + c < 2 ^ 64) :
    ∃ n ≤ batches.length, (writtenLog (batches.take n)).length ≤ c ∧
      (∀ m ≤ batches.length, (writtenLog (batches.take m)).length ≤ c → m ≤ n) ∧
      ∃ scan, (scanOverlay mapping mappingOffset d).1 = .ok scan ∧
        scan.validLen = mappingOffset + (writtenLog (batches.take n)).length ∧
        ∀ key, scan.index.getHashed d.file key =
          .ok (latest ((batches.take n).reverse.flatMap StagedBatch.ops) key) := by
  have size : (mapping.deref d.file).length = c := by
    rw [bytes, List.length_take]
    omega
  simp only [writtenLog_eq, List.map_take] at inside bytes ⊢
  obtain ⟨n, rest, split, ends, few, within, most⟩ :=
    take_recordsLog (batches.map StagedBatch.record) inside
  rw [List.length_map] at few most
  obtain ⟨scan, d', table, ops, ran, -, scans⟩ := scanOverlay_of_records quiet
    (bytes.trans split) ends (by omega)
    (show mappingOffset + (mapping.deref d.file).length < 2 ^ 64 by omega)
  refine ⟨n, few, within, most, scan, by rw [ran], by rw [scans.scan], fun key => ?_⟩
  have opsIs : (batches.take n).reverse.flatMap StagedBatch.ops =
      logOps ((batches.take n).map StagedBatch.batch) := by
    rw [logOps, ← List.map_reverse, List.flatMap_map]
    rfl
  rw [scans.getHashed, opsIs, ← latest_recordsOps, List.map_map, List.map_take]
  rfl

def putBatch : StagedBatch where
  entries := [([1], .put (.owned [2]))]
  valueChecksums := none
  distinct := by decide
  keys := by decide
  accepted := ⟨15, by decide⟩
  matching := nofun

def deleteBatch : StagedBatch where
  entries := [([7], .delete)]
  valueChecksums := none
  distinct := by decide
  keys := by decide
  accepted := ⟨14, by decide⟩
  matching := nofun

theorem writtenLog_length (batches : List StagedBatch) : (writtenLog batches).length =
    (batches.map fun batch => logHeaderSize + (payloadBytes batch.ops).length).sum := by
  rw [writtenLog_eq, recordsLog_length_eq, List.map_map]
  rfl

/-- The log is cut inside its second record, so the first batch is left. -/
theorem scanOverlay_written_first :
    ∃ scan, (scanOverlay (.memory ((writtenLog [putBatch, deleteBatch]).take 40)) 8192
        (Disk.ofFile File.empty [])).1 = .ok scan ∧
      scan.validLen = 8192 + (writtenLog [putBatch]).length ∧
      scan.index.getHashed File.empty [1] = .ok (some (some [2])) ∧
      scan.index.getHashed File.empty [7] = .ok none := by
  have one : (writtenLog [putBatch]).length = 32 := by
    rw [writtenLog_length]
    decide
  have both : (writtenLog [putBatch, deleteBatch]).length = 63 := by
    rw [writtenLog_length]
    decide
  generalize bytesIs : (writtenLog [putBatch, deleteBatch]).take 40 = bytes
  obtain ⟨n, few, within, most, scan, ran, valid, shows⟩ := @scanOverlay_written [putBatch, deleteBatch] 40
    (by omega) (Disk.ofFile File.empty []) (.memory bytes) 8192 (Disk.quiet_ofFile File.empty) bytesIs.symm
    (by decide) (by decide)
  have first : 1 ≤ n := most 1 (by decide) (by rw [List.take_succ_cons, List.take_zero, one]; decide)
  obtain rfl : n = 1 := by
    refine le_antisymm (Nat.le_of_lt_succ (lt_of_le_of_ne few ?_)) first
    rintro rfl
    have within : (writtenLog [putBatch, deleteBatch]).length ≤ 40 := within
    omega
  exact ⟨scan, ran, valid, shows [1], shows [7]⟩

end Lkv
