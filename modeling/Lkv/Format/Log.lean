/-
# Lkv.Format.Log — the records of the Overlay log

`format/log.rs`.  A record is a 17-byte header and a payload.  The header holds
the marker, two lengths, the checksum of the record and a checksum of its own;
the payload of a batch is the number of its operations followed by them.  A
compaction marker is a header with no payload.

`encodeBatch` is the record of a list of operations as one byte string; the
writer, which streams it in pieces and may take the checksum of a large value
from the transaction, writes exactly that (`wp_writeBatchRecord`).
-/
import Lkv.Database.Overlay
import Lkv.BufWriter

namespace Lkv

open Lkv.Theory Lkv.Theory.Prog

set_option autoImplicit false

def maxBatchOperations : Nat := 1000000
def logHeaderSize : Nat := 17
def logHeaderChecksumOffset : Nat := 13

/-- An entry of the staged map, as its iteration gives it. -/
abbrev StagedEntry := Bytes × OverlayEntry

namespace OverlayEntry

def valueLen : OverlayEntry → Nat
  | .put value => value.len
  | .delete => 0

/-- The marker and the value bytes an entry is written with. -/
def written : OverlayEntry → Marker × Bytes
  | .put value => (.put, value.asSlice)
  | .delete => (.delete, [])

end OverlayEntry

/-- `u32::try_from`. -/
def toU32 (n : Nat) : Option Nat := if n < 2 ^ 32 then some n else none

/-! ## Sizes -/

/-- A cursor moved past one operation. -/
def pastOperation (cursor : Nat) (entry : StagedEntry) : Option Nat :=
  ((checkedAdd cursor operationHeaderSize).bind fun cursor => checkedAdd cursor entry.1.length).bind
    fun cursor => checkedAdd cursor entry.2.valueLen

/-- The loop of `batch_payload_len`. -/
def payloadLenFrom : Nat → List StagedEntry → Res Nat
  | len, [] => .ok len
  | len, entry :: rest => do
      let len ← orFail (pastOperation len entry) (.fromIo .invalidInput "batch is too large")
      payloadLenFrom len rest

def batchPayloadLen (staged : List StagedEntry) : Res Nat := do
  if staged.length > maxBatchOperations then
    fail (.fromIo .invalidInput s!"transaction exceeds the {maxBatchOperations} operation limit")
  else
    let len ← payloadLenFrom 4 staged
    if len > maxLogPayloadSize then
      fail (.fromIo .invalidInput "transaction payload exceeds the log record limit")
    else orFail (toU32 len) (.fromIo .invalidInput "batch is too large")

/-! ## Checksums -/

def checksumParts (marker : Marker) (keyLen valueLen : Nat) (first second : Bytes) : BitVec 32 :=
  let checksum := crc32cAppend 0 [marker.toByte]
  let checksum := crc32cAppend checksum (leBytes 4 keyLen)
  let checksum := crc32cAppend checksum (leBytes 4 valueLen)
  let checksum := crc32cAppend checksum first
  crc32cAppend checksum second

def recordChecksumStart (marker : Marker) (keyLen valueLen : Nat) : BitVec 32 :=
  checksumParts marker keyLen valueLen [] []

def recordChecksum (marker : Marker) (keyLen valueLen : Nat) (payload : Bytes) : BitVec 32 :=
  crc32cAppend (recordChecksumStart marker keyLen valueLen) payload

/-- One turn of `batch_record_checksum`: a value whose checksum is known is not read again. -/
def operationChecksum (valueChecksums : Option (KeyMap (BitVec 32))) (checksum : BitVec 32)
    (staged : StagedEntry) : BitVec 32 :=
  let (marker, value) := staged.2.written
  let checksum := crc32cAppend checksum [marker.toByte]
  let checksum := crc32cAppend checksum (leBytes 4 staged.1.length)
  let checksum := crc32cAppend checksum (leBytes 4 value.length)
  let checksum := crc32cAppend checksum staged.1
  match staged.2 with
  | .put value =>
      match valueChecksums.bind fun values => values.lookup staged.1 with
      | some valueChecksum => crc32cCombine checksum valueChecksum value.len
      | none => crc32cAppend checksum value.asSlice
  | .delete => checksum

def batchRecordChecksum (staged : List StagedEntry)
    (valueChecksums : Option (KeyMap (BitVec 32))) (payloadLen : Nat) : Res (BitVec 32) := do
  let count ← orFail (toU32 staged.length) (.fromIo .invalidInput "too many batch operations")
  let checksum := checksumParts .batch 0 payloadLen [] []
  let checksum := crc32cAppend checksum (leBytes 4 count)
  return staged.foldl (operationChecksum valueChecksums) checksum

/-! ## Writing -/

/-- The header up to its own checksum. -/
def headerFields (marker : Marker) (keyLen valueLen : Nat) (recordChecksum : BitVec 32) : Bytes :=
  [marker.toByte] ++ (leBytes 4 keyLen ++ (leBytes 4 valueLen ++ leBytes 4 recordChecksum.toNat))

def recordHeader (marker : Marker) (keyLen valueLen : Nat) (recordChecksum : BitVec 32) : Bytes :=
  headerFields marker keyLen valueLen recordChecksum ++
    leBytes 4 (crc32c (headerFields marker keyLen valueLen recordChecksum)).toNat

/-- `write_record_header` on any writer. -/
def writeRecordHeader (write : Bytes → Io Unit) (marker : Marker) (keyLen valueLen : Nat)
    (recordChecksum : BitVec 32) : Io Unit :=
  write (recordHeader marker keyLen valueLen recordChecksum)

def writeCompactMarker (write : Bytes → Io Unit) : Io Unit :=
  writeRecordHeader write .compact 0 0 (checksumParts .compact 0 0 [] [])

/-- The loop over the operations of a batch. -/
def writeOperations (write : Bytes → Io Unit) : List StagedEntry → Io Unit
  | [] => pure ()
  | (key, entry) :: rest => do
      write [entry.written.1.toByte]
      write (leBytes 4 key.length)
      write (leBytes 4 entry.written.2.length)
      write key
      write entry.written.2
      writeOperations write rest

def writeBatchRecordInner (write : Bytes → Io Unit) (staged : List StagedEntry)
    (valueChecksums : Option (KeyMap (BitVec 32))) : Io Unit := do
  let payloadLen ← Prog.lift (batchPayloadLen staged)
  let count ← Prog.lift (orFail (toU32 staged.length)
    (.fromIo .invalidInput "too many batch operations"))
  let checksum ← Prog.lift (batchRecordChecksum staged valueChecksums payloadLen)
  writeRecordHeader write .batch 0 payloadLen checksum
  write (leBytes 4 count)
  writeOperations write staged

def writeBatchRecordWithChecksums (write : Bytes → Io Unit) (staged : List StagedEntry)
    (valueChecksums : KeyMap (BitVec 32)) : Io Unit :=
  writeBatchRecordInner write staged
    (if valueChecksums.entries.isEmpty then none else some valueChecksums)

/-! ## The bytes of a record -/

/-- The marker and value bytes of an operation. -/
def operationParts : Option Bytes → Marker × Bytes
  | some value => (.put, value)
  | none => (.delete, [])

def operationHeader (op : Operation) : Bytes :=
  [(operationParts op.2).1.toByte] ++ (leBytes 4 op.1.length ++
    leBytes 4 (operationParts op.2).2.length)

def encodeOperation (op : Operation) : Bytes :=
  operationHeader op ++ (op.1 ++ (operationParts op.2).2)

def operationSize (op : Operation) : Nat :=
  operationHeaderSize + op.1.length + (operationParts op.2).2.length

def operationsBytes (ops : List Operation) : Bytes := ops.flatMap encodeOperation

def payloadBytes (ops : List Operation) : Bytes := leBytes 4 ops.length ++ operationsBytes ops

def encodeBatch (ops : List Operation) : Bytes :=
  recordHeader .batch 0 (payloadBytes ops).length
    (recordChecksum .batch 0 (payloadBytes ops).length (payloadBytes ops)) ++ payloadBytes ops

def compactMarker : Bytes := recordHeader .compact 0 0 (recordChecksum .compact 0 0 [])

theorem writeCompactMarker_eq (write : Bytes → Io Unit) :
    writeCompactMarker write = write compactMarker := by
  rw [compactMarker, recordChecksum, crc32cAppend_nil]
  rfl

/-- The operation that a staged entry is. -/
def stagedOp (entry : StagedEntry) : Operation := (entry.1, entry.2.seen)

-- A batch of no operations has the header that the source pins in its tests.
example : (encodeBatch []).take logHeaderSize =
    [0x04, 0x00, 0x00, 0x00, 0x00, 0x04, 0x00, 0x00, 0x00, 0x1d, 0xc6, 0x0e, 0x5e, 0x7e, 0x79,
      0x3c, 0x73] := by
  decide +kernel

/-- A batch that the writer and the reader agree to take. -/
structure Batch where
  ops : List Operation
  distinct : (ops.map Prod.fst).Nodup
  keys : ∀ op ∈ ops, op.1.length ≤ maxKeySize
  count : ops.length ≤ maxBatchOperations
  size : (payloadBytes ops).length ≤ maxLogPayloadSize

namespace Batch

def bytes (batch : Batch) : Bytes := encodeBatch batch.ops

end Batch

/-- The records of the batches, in order. -/
def logBytes (batches : List Batch) : Bytes := batches.flatMap Batch.bytes

section Sizes

@[simp] theorem headerFields_length (marker : Marker) (keyLen valueLen : Nat)
    (checksum : BitVec 32) : (headerFields marker keyLen valueLen checksum).length =
      logHeaderChecksumOffset := by
  simp [headerFields, logHeaderChecksumOffset]

@[simp] theorem recordHeader_length (marker : Marker) (keyLen valueLen : Nat)
    (checksum : BitVec 32) : (recordHeader marker keyLen valueLen checksum).length =
      logHeaderSize := by
  simp [recordHeader, logHeaderSize, logHeaderChecksumOffset]

@[simp] theorem compactMarker_length : compactMarker.length = logHeaderSize :=
  recordHeader_length ..

@[simp] theorem operationHeader_length (op : Operation) :
    (operationHeader op).length = operationHeaderSize := by
  simp [operationHeader, operationHeaderSize]

@[simp] theorem encodeOperation_length (op : Operation) :
    (encodeOperation op).length = operationSize op := by
  simp only [encodeOperation, operationSize, List.length_append, operationHeader_length]
  omega

theorem payloadBytes_length (ops : List Operation) :
    (payloadBytes ops).length = 4 + (operationsBytes ops).length := by
  rw [payloadBytes, List.length_append, leBytes_length]

theorem encodeBatch_length (ops : List Operation) :
    (encodeBatch ops).length = logHeaderSize + (payloadBytes ops).length := by
  rw [encodeBatch, List.length_append, recordHeader_length]

theorem Batch.bytes_ne_nil (batch : Batch) : batch.bytes ≠ [] := by
  refine List.ne_nil_of_length_pos ?_
  rw [Batch.bytes, encodeBatch_length]
  exact Nat.add_pos_left (by decide) _

theorem operationsBytes_cons (op : Operation) (ops : List Operation) :
    operationsBytes (op :: ops) = encodeOperation op ++ operationsBytes ops := List.flatMap_cons

theorem logBytes_append (one two : List Batch) : logBytes (one ++ two) = logBytes one ++ logBytes two :=
  List.flatMap_append

theorem logBytes_singleton (batch : Batch) : logBytes [batch] = batch.bytes := by
  simp [logBytes]

theorem written_eq (entry : OverlayEntry) : entry.written = operationParts entry.seen := by
  cases entry <;> rfl

theorem valueLen_eq (entry : OverlayEntry) :
    entry.valueLen = (operationParts entry.seen).2.length := by
  cases entry <;> rfl

theorem pastOperation_eq_some {cursor next : Nat} {entry : StagedEntry} :
    pastOperation cursor entry = some next ↔
      next = cursor + operationSize (stagedOp entry) ∧ next < 2 ^ 64 := by
  unfold pastOperation operationSize stagedOp
  simp only [Option.bind_eq_some_iff, checkedAdd_eq_some_iff, valueLen_eq]
  constructor
  · rintro ⟨_, ⟨_, ⟨rfl, _⟩, rfl, _⟩, rfl, fits⟩
    exact ⟨by omega, fits⟩
  · rintro ⟨rfl, fits⟩
    exact ⟨_, ⟨_, ⟨rfl, by omega⟩, rfl, by omega⟩, by omega, by omega⟩

theorem payloadLenFrom_eq_ok {len total : Nat} {staged : List StagedEntry} (word : len < 2 ^ 64) :
    payloadLenFrom len staged = .ok total ↔
      total = len + (operationsBytes (staged.map stagedOp)).length ∧ total < 2 ^ 64 := by
  induction staged generalizing len with
  | nil =>
      simp only [payloadLenFrom, Except.ok.injEq, operationsBytes, List.map_nil, List.flatMap_nil,
        List.length_nil, Nat.add_zero]
      constructor
      · rintro rfl
        exact ⟨rfl, word⟩
      · rintro ⟨rfl, _⟩
        rfl
  | cons entry staged ih =>
      simp only [payloadLenFrom, bind_eq_ok, orFail_eq_ok, pastOperation_eq_some, List.map_cons,
        operationsBytes_cons, List.length_append, encodeOperation_length]
      constructor
      · rintro ⟨next, ⟨rfl, fits⟩, later⟩
        obtain ⟨rfl, small⟩ := (ih fits).mp later
        exact ⟨by omega, small⟩
      · rintro ⟨rfl, fits⟩
        refine ⟨_, ⟨rfl, by omega⟩, ?_⟩
        exact (ih (by omega)).mpr ⟨by omega, fits⟩

theorem toU32_eq_some {n m : Nat} : toU32 n = some m ↔ m = n ∧ n < 2 ^ 32 := by
  unfold toU32
  split
  · rename_i fits
    rw [Option.some.injEq, eq_comm]
    exact (and_iff_left fits).symm
  · rename_i large
    exact ⟨nofun, fun found => absurd found.2 large⟩

/-- What `batch_payload_len` accepts, and that it is the size of what is then written. -/
theorem batchPayloadLen_eq_ok {staged : List StagedEntry} {n : Nat} :
    batchPayloadLen staged = .ok n ↔ staged.length ≤ maxBatchOperations ∧
      n = (payloadBytes (staged.map stagedOp)).length ∧ n ≤ maxLogPayloadSize := by
  unfold batchPayloadLen
  rw [payloadBytes_length]
  split
  · rename_i many
    simp only [fail_eq_ok, false_iff]
    omega
  · rename_i few
    simp only [bind_eq_ok, payloadLenFrom_eq_ok (show 4 < 2 ^ 64 by decide)]
    constructor
    · rintro ⟨total, ⟨rfl, _⟩, accepted⟩
      split at accepted
      · simp at accepted
      · simp only [orFail_eq_ok, toU32_eq_some] at accepted
        omega
    · rintro ⟨_, rfl, small⟩
      have word : 4 + (operationsBytes (staged.map stagedOp)).length < 2 ^ 32 := by
        unfold maxLogPayloadSize at small
        omega
      refine ⟨_, ⟨rfl, by omega⟩, ?_⟩
      rw [if_neg (by omega)]
      simpa [toU32_eq_some] using word

theorem batchPayloadLen_noPanic (staged : List StagedEntry) : NoPanic (batchPayloadLen staged) := by
  have loop : ∀ (staged : List StagedEntry) (len : Nat), NoPanic (payloadLenFrom len staged) := by
    intro staged
    induction staged with
    | nil => exact fun _ => noPanic_ok
    | cons entry staged ih => exact fun _ => (noPanic_orFail _).bind fun next _ => ih next
  unfold batchPayloadLen
  split
  · exact noPanic_fail
  · refine (loop staged 4).bind fun len _ => ?_
    split
    · exact noPanic_fail
    · exact noPanic_orFail _

end Sizes

/-! ## What the writer writes -/

/-- The checksums a transaction kept are those of its values. -/
def ChecksumsMatch (valueChecksums : KeyMap (BitVec 32)) (staged : List StagedEntry) : Prop :=
  ∀ entry ∈ staged, ∀ value checksum, entry.2 = .put value →
    valueChecksums.lookup entry.1 = some checksum → checksum = crc32c value.asSlice

section Write

variable {staged : List StagedEntry} {valueChecksums : KeyMap (BitVec 32)} {known : Option (KeyMap (BitVec 32))}

theorem operationChecksum_eq (matching : ∀ values, known = some values → ChecksumsMatch values staged)
    {entry : StagedEntry} (member : entry ∈ staged) (checksum : BitVec 32) :
    operationChecksum known checksum entry = crc32cAppend checksum (encodeOperation (stagedOp entry)) := by
  obtain ⟨key, entry⟩ := entry
  cases entry with
  | delete =>
      simp only [operationChecksum, OverlayEntry.written, stagedOp, OverlayEntry.seen, encodeOperation,
        operationHeader, operationParts, crc32cAppend_append, List.append_nil, List.append_assoc]
  | put value =>
      simp only [operationChecksum, OverlayEntry.written, stagedOp, OverlayEntry.seen, encodeOperation,
        operationHeader, operationParts, crc32cAppend_append, List.append_assoc]
      cases found : known.bind fun values => values.lookup key with
      | none => rfl
      | some valueChecksum =>
          obtain ⟨values, rfl, looked⟩ := Option.bind_eq_some_iff.mp found
          have same := matching values rfl (key, .put value) member value valueChecksum rfl looked
          show crc32cCombine _ valueChecksum value.asSlice.length = _
          rw [same, crc32cCombine_eq, crc32cAppend_append]
          simp only [List.append_assoc]

theorem foldl_operationChecksum
    (matching : ∀ values, known = some values → ChecksumsMatch values staged) (checksum : BitVec 32) :
    staged.foldl (operationChecksum known) checksum =
      crc32cAppend checksum (operationsBytes (staged.map stagedOp)) := by
  have along : ∀ rest : List StagedEntry, (∀ entry ∈ rest, entry ∈ staged) → ∀ checksum,
      rest.foldl (operationChecksum known) checksum =
        crc32cAppend checksum (operationsBytes (rest.map stagedOp)) := by
    intro rest
    induction rest with
    | nil => exact fun _ checksum => (crc32cAppend_nil checksum).symm
    | cons entry rest ih =>
        intro inside checksum
        rw [List.foldl_cons, operationChecksum_eq matching (inside entry (List.mem_cons_self ..)),
          ih fun later member => inside later (List.mem_cons_of_mem _ member), crc32cAppend_append,
          List.map_cons, operationsBytes_cons]
  exact along staged (fun _ => id) checksum

/-- A kept checksum changes nothing: the record carries the checksum of its payload. -/
theorem batchRecordChecksum_eq (few : staged.length ≤ maxBatchOperations)
    (matching : ∀ values, known = some values → ChecksumsMatch values staged) (payloadLen : Nat) :
    batchRecordChecksum staged known payloadLen =
      .ok (recordChecksum .batch 0 payloadLen (payloadBytes (staged.map stagedOp))) := by
  have count : toU32 staged.length = some staged.length := by
    rw [toU32_eq_some]
    exact ⟨rfl, lt_of_le_of_lt few (by decide)⟩
  rw [batchRecordChecksum, count, orFail_some, ok_bind, recordChecksum, recordChecksumStart,
    payloadBytes, ← crc32cAppend_append, ← foldl_operationChecksum matching, List.length_map]
  rfl

variable {d₀ d : Disk} {start capacity : Nat} {done : Bytes}

theorem wp_writeOperations (room : 0 < capacity) (streaming : Io.Streaming d₀ start done d) :
    wp (writeOperations (Io.bufWrite capacity) staged)
      (fun _ d' => Io.Streaming d₀ start (done ++ operationsBytes (staged.map stagedOp)) d')
      (Io.Broken d₀ start (done ++ operationsBytes (staged.map stagedOp))) d := by
  induction staged generalizing done d with
  | nil =>
      rw [List.map_nil, operationsBytes, List.flatMap_nil, List.append_nil]
      exact wp_pure streaming
  | cons entry staged ih =>
      obtain ⟨key, entry⟩ := entry
      have whole : done ++ operationsBytes (((key, entry) :: staged).map stagedOp) =
          done ++ [entry.written.1.toByte] ++ leBytes 4 key.length ++
            leBytes 4 entry.written.2.length ++ key ++ entry.written.2 ++
            operationsBytes (staged.map stagedOp) := by
        rw [List.map_cons, operationsBytes_cons, encodeOperation, operationHeader, stagedOp, written_eq]
        simp only [List.append_assoc]
      rw [whole]
      refine Io.wp_bufWrite_bind streaming room (fun e d' stopped => stopped.mono
        ⟨leBytes 4 key.length ++ leBytes 4 entry.written.2.length ++ key ++ entry.written.2 ++
          operationsBytes (staged.map stagedOp), by simp⟩) fun d1 streaming1 => ?_
      refine Io.wp_bufWrite_bind streaming1 room (fun e d' stopped => stopped.mono
        ⟨leBytes 4 entry.written.2.length ++ key ++ entry.written.2 ++
          operationsBytes (staged.map stagedOp), by simp⟩) fun d2 streaming2 => ?_
      refine Io.wp_bufWrite_bind streaming2 room (fun e d' stopped => stopped.mono
        ⟨key ++ entry.written.2 ++ operationsBytes (staged.map stagedOp), by simp⟩)
        fun d3 streaming3 => ?_
      refine Io.wp_bufWrite_bind streaming3 room (fun e d' stopped => stopped.mono
        ⟨entry.written.2 ++ operationsBytes (staged.map stagedOp), by simp⟩) fun d4 streaming4 => ?_
      exact Io.wp_bufWrite_bind streaming4 room (fun e d' stopped => stopped.mono
        ⟨operationsBytes (staged.map stagedOp), rfl⟩) fun d5 streaming5 => ih streaming5

/-- The writer streams the record of its operations. -/
theorem wp_writeBatchRecordInner {payloadLen : Nat} (room : 0 < capacity)
    (streaming : Io.Streaming d₀ start done d) (accepted : batchPayloadLen staged = .ok payloadLen)
    (matching : ∀ values, known = some values → ChecksumsMatch values staged) :
    wp (writeBatchRecordInner (Io.bufWrite capacity) staged known)
      (fun _ d' => Io.Streaming d₀ start (done ++ encodeBatch (staged.map stagedOp)) d')
      (Io.Broken d₀ start (done ++ encodeBatch (staged.map stagedOp))) d := by
  obtain ⟨few, rfl, _⟩ := batchPayloadLen_eq_ok.mp accepted
  have count : toU32 staged.length = some staged.length := by
    rw [toU32_eq_some]
    exact ⟨rfl, lt_of_le_of_lt few (by decide)⟩
  unfold writeBatchRecordInner
  rw [accepted, count]
  refine wp_bind (wp_lift ?_ nofun)
  rintro _ ⟨⟩
  refine wp_bind (wp_lift ?_ nofun)
  rintro _ ⟨⟩
  rw [batchRecordChecksum_eq few matching]
  refine wp_bind (wp_lift ?_ nofun)
  rintro _ ⟨⟩
  have whole : done ++ encodeBatch (staged.map stagedOp) =
      done ++ recordHeader .batch 0 (payloadBytes (staged.map stagedOp)).length
        (recordChecksum .batch 0 (payloadBytes (staged.map stagedOp)).length
          (payloadBytes (staged.map stagedOp))) ++ leBytes 4 staged.length ++
        operationsBytes (staged.map stagedOp) := by
    simp [encodeBatch, payloadBytes]
  rw [whole]
  refine Io.wp_bufWrite_bind streaming room (fun e d' stopped => stopped.mono
    ⟨leBytes 4 staged.length ++ operationsBytes (staged.map stagedOp), by simp⟩)
    fun d1 streaming1 => ?_
  exact Io.wp_bufWrite_bind streaming1 room (fun e d' stopped => stopped.mono
    ⟨operationsBytes (staged.map stagedOp), rfl⟩) fun d2 streaming2 =>
      wp_writeOperations room streaming2

theorem wp_writeBatchRecord {payloadLen : Nat} (room : 0 < capacity)
    (streaming : Io.Streaming d₀ start done d) (accepted : batchPayloadLen staged = .ok payloadLen)
    (matching : ChecksumsMatch valueChecksums staged) :
    wp (writeBatchRecordWithChecksums (Io.bufWrite capacity) staged valueChecksums)
      (fun _ d' => Io.Streaming d₀ start (done ++ encodeBatch (staged.map stagedOp)) d')
      (Io.Broken d₀ start (done ++ encodeBatch (staged.map stagedOp))) d := by
  refine wp_writeBatchRecordInner room streaming accepted fun values same => ?_
  split at same
  · cases same
  · cases same
    exact matching

end Write

/-! ## The pieces of a record -/

section Pieces

variable {staged : List StagedEntry}

/-- The pieces in which the operations of a batch are written. -/
def operationChunks : List StagedEntry → List Bytes
  | [] => []
  | (key, entry) :: rest =>
      [entry.written.1.toByte] :: leBytes 4 key.length :: leBytes 4 entry.written.2.length :: key ::
        entry.written.2 :: operationChunks rest

theorem writeOperations_chunks (write : Bytes → Io Unit) (staged : List StagedEntry) :
    writeOperations write staged = (operationChunks staged).forM write := by
  induction staged with
  | nil => rfl
  | cons entry staged ih =>
      obtain ⟨key, entry⟩ := entry
      rw [writeOperations, ih]
      rfl

theorem operationChunks_flatten (staged : List StagedEntry) :
    (operationChunks staged).flatten = operationsBytes (staged.map stagedOp) := by
  induction staged with
  | nil => rfl
  | cons entry staged ih =>
      obtain ⟨key, entry⟩ := entry
      rw [operationChunks, List.map_cons, operationsBytes_cons, encodeOperation, operationHeader, stagedOp,
        ← written_eq, ← ih]
      simp only [List.flatten_cons, List.append_assoc]

/-- Whatever checksums are passed along, a record is written in these pieces. -/
theorem writeBatchRecordInner_pieces (known : Option (KeyMap (BitVec 32))) {payloadLen : Nat}
    (accepted : batchPayloadLen staged = .ok payloadLen) :
    ∃ checksum, ∀ write, writeBatchRecordInner write staged known =
      (recordHeader .batch 0 payloadLen checksum :: leBytes 4 staged.length ::
        operationChunks staged).forM write := by
  obtain ⟨few, -, -⟩ := batchPayloadLen_eq_ok.mp accepted
  have count : toU32 staged.length = some staged.length := by
    rw [toU32_eq_some]
    exact ⟨rfl, lt_of_le_of_lt few (by decide)⟩
  obtain ⟨checksum, computed⟩ : ∃ checksum, batchRecordChecksum staged known payloadLen = .ok checksum := by
    rw [batchRecordChecksum, count]
    exact ⟨_, rfl⟩
  refine ⟨checksum, fun write => ?_⟩
  rw [writeBatchRecordInner, accepted, count]
  show (Prog.lift (batchRecordChecksum staged known payloadLen) >>= _) = _
  rw [computed]
  show (writeRecordHeader write .batch 0 payloadLen checksum >>= fun _ =>
    write (leBytes 4 staged.length) >>= fun _ => writeOperations write staged) = _
  rw [writeOperations_chunks]
  rfl

/-- The pieces behind the header make up the payload whose length was predicted. -/
theorem payloadPieces_length {payloadLen : Nat} (accepted : batchPayloadLen staged = .ok payloadLen) :
    (leBytes 4 staged.length :: operationChunks staged).flatten.length = payloadLen := by
  obtain ⟨-, payload, -⟩ := batchPayloadLen_eq_ok.mp accepted
  rw [List.flatten_cons, operationChunks_flatten, List.length_append, leBytes_length, payload,
    payloadBytes_length]

theorem writeBatchRecordInner_chunks (known : Option (KeyMap (BitVec 32))) {payloadLen : Nat}
    (accepted : batchPayloadLen staged = .ok payloadLen) :
    ∃ chunks : List Bytes, chunks.flatten.length = logHeaderSize + payloadLen ∧
      ∀ write, writeBatchRecordInner write staged known = chunks.forM write := by
  obtain ⟨checksum, writes⟩ := writeBatchRecordInner_pieces known accepted
  refine ⟨_, ?_, writes⟩
  rw [List.flatten_cons, List.length_append, payloadPieces_length accepted, recordHeader_length]

/-- A record that fits into the buffer stays there until it is flushed. -/
theorem wp_writeBatchRecord_buffered {capacity payloadLen : Nat} {valueChecksums : KeyMap (BitVec 32)}
    {d : Disk} (accepted : batchPayloadLen staged = .ok payloadLen)
    (fits : logHeaderSize + payloadLen ≤ capacity) (empty : d.buffer = []) :
    wp (writeBatchRecordWithChecksums (Io.bufWrite capacity) staged valueChecksums)
      (fun _ d' => ∃ bytes ≠ [], d' = { d with buffer := bytes }) (fun _ _ => False) d := by
  obtain ⟨checksum, writes⟩ := writeBatchRecordInner_pieces
    (if valueChecksums.entries.isEmpty then none else some valueChecksums) accepted
  have size := payloadPieces_length accepted
  have count : 4 ≤ payloadLen := by
    rw [← size, List.flatten_cons, List.length_append, leBytes_length]
    exact Nat.le_add_right _ _
  generalize leBytes 4 staged.length :: operationChunks staged = pieces at writes size
  unfold writeBatchRecordWithChecksums
  rw [writes]
  refine wp_mono (Io.wp_forM_bufWrite _ (fun chunk member => ?_) ?_) ?_ fun _ _ => id
  · rcases List.mem_cons.mp member with rfl | later
    · rw [recordHeader_length]
      unfold logHeaderSize at fits ⊢
      omega
    · have part := (List.sublist_flatten_of_mem later).length_le
      unfold logHeaderSize at fits
      omega
  · rw [empty, List.flatten_cons, List.length_append, recordHeader_length, size, List.length_nil]
    omega
  · rintro _ _ rfl
    refine ⟨_, List.ne_nil_of_length_pos ?_, rfl⟩
    rw [empty, List.nil_append, List.flatten_cons, List.length_append, recordHeader_length]
    unfold logHeaderSize
    omega

end Pieces

end Lkv
