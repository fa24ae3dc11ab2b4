/-
# Lkv.Database.Charging — the memory charge of the overlay

`OverlayState.memory` is kept up to date operation by operation, by four routines that take
the charge of a replaced entry off and put that of the new one on.  `memory_charge` is the sum
over the index that it stands for.

For an index of a log the two agree (`IndexOf.memoryCharge`), and for owned entries they do
after each `set` (`set_spec`).  The subtractions saturate, but none of them ever has to: what
is taken off is the charge of an entry that was in the index.  For the loop of the recovery
this is `ScanVisits.within`, over any bytes; `ScanVisits` are the states in which that loop
begins a record.
-/
import Lkv.Database.Grammar
import Lkv.Database.MemoryDatabase

namespace Lkv
open Lkv.Theory Lkv.Theory.Prog Dictionary

set_option autoImplicit false

/-! ## The index of a log -/

namespace OverlayMap

variable {logStart : Nat} {log : Bytes} {ops : List Operation} {overlay : OverlayMap} {file : File}

theorem recordsCharge_eq {table : List MappedRecord} (decodes : RecordsDecode log table ops) :
    recordsCharge log table = .ok (chargeOf ops) := by
  induction decodes with
  | nil => rfl
  | cons here _ ih =>
      rw [recordsCharge, memoryCharge_ok here, ok_bind, ih]
      rfl

theorem tail_charge {tail : List TailOverlayEntry}
    (charged : ∀ entry ∈ tail, overlayEntryMemory entry.key entry.value =
      MappedRecord.charge entry.operation) :
    (tail.map fun entry => overlayEntryMemory entry.key entry.value).sum =
      chargeOf (tail.map TailOverlayEntry.operation) := by
  rw [chargeOf, List.map_map]
  exact congrArg List.sum (List.map_congr_left charged)

/-- The index of a log is charged for the operations in it. -/
theorem IndexOf.memoryCharge (index : IndexOf logStart log ops overlay)
    (held : file.Holds logStart log) : overlay.memoryCharge file = .ok (chargeOf ops) := by
  obtain ⟨bytes, mapping, table, tail, records, rfl, maps, indexed, rfl⟩ := index.shape
  unfold OverlayMap.memoryCharge
  dsimp only
  rw [maps.deref held, recordsCharge_eq indexed.decoded, tail_charge indexed.charged, ok_bind,
    indexOps, chargeOf_append, Nat.add_comm]
  rfl

end OverlayMap

/-! ## Owned entries -/

/-- What owned entries are charged. -/
def ownedCharge (table : List StagedEntry) : Nat :=
  (table.map fun entry => overlayEntryMemory entry.1 entry.2).sum

section Owned

variable {table before after : List StagedEntry} {entry : StagedEntry} {key : Bytes}

@[simp] theorem ownedCharge_nil : ownedCharge [] = 0 := rfl

@[simp] theorem ownedCharge_cons (entry : StagedEntry) (table : List StagedEntry) :
    ownedCharge (entry :: table) = overlayEntryMemory entry.1 entry.2 + ownedCharge table := rfl

theorem ownedCharge_append (one two : List StagedEntry) :
    ownedCharge (one ++ two) = ownedCharge one + ownedCharge two := by
  rw [ownedCharge, List.map_append, List.sum_append]
  rfl

/-- The charge of an entry that is replaced. -/
def previousCharge (key : Bytes) : Option OverlayEntry → Nat
  | some previous => key.length + previous.memory
  | none => 0

/-- `set_memory` on owned entries: the entry is in, the others are as they were, and an entry
that is replaced was charged for. -/
structure SetsOwned (table : List StagedEntry) (entry : StagedEntry) (previous : Option OverlayEntry)
    (table' : List StagedEntry) : Prop where
  latest : ∀ key, latest (table'.map stagedOp) key =
    if entry.1 = key then some entry.2.seen else Dictionary.latest (table.map stagedOp) key
  distinct : Distinct (table'.map stagedOp)
  balance : ownedCharge table' + previousCharge entry.1 previous =
    ownedCharge table + overlayEntryMemory entry.1 entry.2
  within : previousCharge entry.1 previous ≤ ownedCharge table

theorem setMemory_spec (distinct : Distinct (table.map stagedOp)) (entry : StagedEntry) :
    ∃ table' previous, OverlayMap.setMemory entry.1 entry.2 (.memory table) =
      .ok (.memory table', previous) ∧ SetsOwned table entry previous table' := by
  have reads : ∀ (old : StagedEntry) (op : Operation), stagedOp old = op →
      (.ok (decide (old.1 = entry.1)) : Res Bool) = .ok (decide (op.1 = entry.1)) := by
    rintro old _ rfl
    rfl
  have all : List.Forall₂ (fun old op => stagedOp old = op) table (table.map stagedOp) := by
    rw [List.forall₂_map_right_iff, List.forall₂_same]
    exact fun _ _ => rfl
  have operations : ∀ {entries : List StagedEntry} {ops : List Operation},
      List.Forall₂ (fun old op => stagedOp old = op) entries ops → entries.map stagedOp = ops := by
    intro entries ops each
    rw [← List.forall₂_eq_eq_eq, List.forall₂_map_left_iff]
    exact each
  unfold OverlayMap.setMemory
  rcases tableExchange_spec reads all [entry] with
    ⟨absent, ran⟩ | ⟨before, old, after, opsBefore, value, opsAfter, found, ran⟩
  · dsimp only
    rw [show [(entry.1, entry.2)] = [entry] from rfl, ran, ok_bind]
    refine ⟨entry :: table, none, rfl, ?_, ?_, ?_, Nat.zero_le _⟩
    · intro key
      rw [List.map_cons, latest_cons]
      rfl
    · rw [List.map_cons]
      exact List.nodup_cons.mpr ⟨latest_eq_none_iff.mp absent, distinct⟩
    · rw [ownedCharge_cons, previousCharge]
      omega
  · dsimp only
    rw [show [(entry.1, entry.2)] = [entry] from rfl, ran, ok_bind]
    obtain ⟨rfl, opsIs, front, oldIs, rest, first⟩ := found
    have frontIs := operations front
    have restIs := operations rest
    subst frontIs restIs
    have sets := @sets_replace (before.map stagedOp) (stagedOp entry) value (after.map stagedOp) first
    have newIs : (before ++ ([entry] ++ after)).map stagedOp =
        before.map stagedOp ++ stagedOp entry :: after.map stagedOp := by
      simp
    refine ⟨before ++ ([entry] ++ after), some old.2, rfl, ?_, ?_, ?_, ?_⟩
    · intro key
      rw [newIs, opsIs]
      exact sets.latest key
    · rw [newIs]
      rw [opsIs] at distinct
      exact sets.distinct distinct
    all_goals
      have same : (stagedOp old).1 = entry.1 := by rw [oldIs]
      change old.1 = entry.1 at same
      simp only [ownedCharge_append, ownedCharge_cons, ownedCharge_nil, previousCharge,
        overlayEntryMemory, same]
      omega

/-- `OverlayState::set` keeps the charge exact. -/
theorem set_spec (distinct : Distinct (table.map stagedOp)) (entry : StagedEntry)
    (word : ownedCharge table + overlayEntryMemory entry.1 entry.2 < 2 ^ 64) :
    ∃ table' previous, OverlayState.set ⟨.memory table, ownedCharge table⟩ entry.1 entry.2 =
      .ok ⟨.memory table', ownedCharge table'⟩ ∧ SetsOwned table entry previous table' := by
  obtain ⟨table', previous, ran, sets⟩ := setMemory_spec distinct entry
  refine ⟨table', previous, ?_, sets⟩
  have balance := sets.balance
  have within := sets.within
  unfold OverlayState.set
  dsimp only
  rw [ran, ok_bind]
  cases previous with
  | none =>
      dsimp only [previousCharge] at balance within ⊢
      rw [OverlayMap.saturatingAdd_eq word, ← balance]
      rfl
  | some previous =>
      dsimp only [previousCharge] at balance within ⊢
      rw [OverlayMap.saturatingAdd_eq (by omega),
        show ownedCharge table - (entry.1.length + previous.memory) +
          overlayEntryMemory entry.1 entry.2 = ownedCharge table' by omega]
      rfl

end Owned

/-! ## The recovery -/

/-- The loop of `scan_overlay` comes to a record at this offset with this state. -/
inductive ScanVisits (file : File) (mapping : BaseBytes) (mappingOffset : Nat) :
    Nat → ScanState → Prop
  | start : ScanVisits file mapping mappingOffset 0 ⟨.mapped (some mapping) [] [], 0⟩
  | batch {offset headerEnd recordEnd : Nat} {scan scan' : ScanState} {payload count : Bytes}
      (before : ScanVisits file mapping mappingOffset offset scan)
      (read : readRecord (mapping.deref file) mappingOffset offset =
        .ok (.batch payload headerEnd recordEnd))
      (counted : getRange payload 0 4 = some count)
      (applied : applyOperations file payload headerEnd (leNat count) 4 scan =
        .ok (payload.length, scan')) :
      ScanVisits file mapping mappingOffset recordEnd scan'

section Scan

variable {file : File} {mapping : BaseBytes} {mappingOffset offset : Nat} {scan : ScanState}

/-- What the loop has read so far, and what of it is in the index. -/
structure ScanHolds (file : File) (mapping : BaseBytes) (front tail : Bytes) (scan : ScanState)
    (table : List MappedRecord) (ops : List Operation) : Prop where
  bytes : mapping.deref file = front ++ tail
  scan : scan = ⟨.mapped (some mapping) table [], chargeOf ops⟩
  decodes : OverlayMap.RecordsDecode front table ops
  light : chargeOf ops ≤ front.length

/-- The first `n` operations of the record at hand. -/
theorem ScanHolds.operations {front tail payload count : Bytes} {table : List MappedRecord}
    {ops : List Operation} {headerEnd recordEnd n cursor : Nat} {scan' : ScanState}
    (scanned : ScanHolds file mapping front tail scan table ops)
    (slice : (mapping.deref file).length < 2 ^ 63)
    (word : mappingOffset + (mapping.deref file).length < 2 ^ 64)
    (read : readRecord (mapping.deref file) mappingOffset front.length =
      .ok (.batch payload headerEnd recordEnd))
    (counted : getRange payload 0 4 = some count)
    (applied : applyOperations file payload headerEnd n 4 scan = .ok (cursor, scan')) :
    ∃ header more left table' ops', tail = header ++ (payload ++ more) ∧
      headerEnd = (front ++ header).length ∧ recordEnd = headerEnd + payload.length ∧
      payload = payload.take cursor ++ left ∧ cursor ≤ payload.length ∧
      scan' = ⟨.mapped (some mapping) table' [], chargeOf ops'⟩ ∧
      OverlayMap.RecordsDecode (front ++ header ++ payload) table' ops' ∧
      chargeOf ops' ≤ headerEnd + cursor := by
  obtain ⟨bytes, rfl, decodes, light⟩ := scanned
  rw [bytes, List.length_append] at slice word
  have meets := readRecord_meets front slice (show mappingOffset + front.length < 2 ^ 64 by omega)
  rw [← bytes, read] at meets
  cases meets with
  | batch payload more split small =>
      subst split
      have four : 4 ≤ payload.length := by
        by_contra short
        rw [getRange_none (by omega)] at counted
        cases counted
      generalize headerIs : recordHeader .batch 0 payload.length
        (recordChecksum .batch 0 payload.length payload) = header
      have size : header.length = logHeaderSize := by
        rw [← headerIs, recordHeader_length]
      have around : payloadRecord payload = header ++ payload := by rw [payloadRecord, headerIs]
      rw [around] at bytes slice word
      have headerEnd : front.length + logHeaderSize = (front ++ header).length := by
        rw [List.length_append, size]
      have countIs : (payload.take 4).length = 4 := List.length_take_of_le four
      have whole : payload.take 4 ++ payload.drop 4 = payload := List.take_append_drop 4 payload
      have inside : (front ++ header) ++ (payload.take 4 ++ payload.drop 4) <+: mapping.deref file := by
        rw [whole, bytes]
        simp only [List.append_assoc]
        exact ⟨more, by simp⟩
      have decodes' : OverlayMap.RecordsDecode ((front ++ header) ++ (payload.take 4 ++ payload.drop 4))
          table ops := by
        refine decodes.extend ?_
        rw [List.append_assoc]
        exact List.prefix_append _ _
      have room : (front ++ header).length + (payload.take 4).length + (payload.drop 4).length < 2 ^ 63 := by
        simp only [List.length_append, List.length_take, List.length_drop] at slice ⊢
        omega
      rw [headerEnd] at applied
      have cases := @applyOperations_cases file mapping table ops (front ++ header) (payload.take 4)
        (payload.drop 4) n inside decodes' room (chargeOf ops)
      rw [countIs, whole] at cases
      rcases cases with ⟨added, left, few, dropIs, keys, values⟩ | ⟨error, refused⟩
      · rw [dropIs] at whole inside decodes' room
        have opsSize : (operationsBytes added ++ left).length =
            (operationsBytes added).length + left.length := List.length_append
        obtain ⟨table', ops', ran, decodes'', -, -, light'⟩ :=
          @applyOperations_spec file mapping table ops (front ++ header) (payload.take 4) added left
            inside decodes' keys values (by omega) (by rw [List.length_append]; omega)
        rw [whole, countIs, few] at ran
        cases ran.symm.trans applied
        have sizes := congrArg List.length whole
        simp only [List.length_append, countIs] at sizes
        refine ⟨header, more, left, table', ops', by rw [around, List.append_assoc], headerEnd, rfl, ?_,
          by omega, rfl, ?_, ?_⟩
        · conv_lhs => rw [← whole, ← List.append_assoc]
          refine congrArg (· ++ left) ?_
          have cut : payload.take (4 + (operationsBytes added).length) =
              (payload.take 4 ++ (operationsBytes added ++ left)).take
                (4 + (operationsBytes added).length) := by rw [whole]
          rw [cut, ← List.append_assoc]
          exact (List.take_left' (by rw [List.length_append, countIs])).symm
        · rw [whole] at decodes''
          exact decodes''
        · rw [headerEnd]
          simp only [countIs] at light'
          omega
      · rw [refused] at applied
        cases applied

theorem ScanVisits.holds (visits : ScanVisits file mapping mappingOffset offset scan)
    (slice : (mapping.deref file).length < 2 ^ 63)
    (word : mappingOffset + (mapping.deref file).length < 2 ^ 64) :
    ∃ front tail table ops, offset = front.length ∧ ScanHolds file mapping front tail scan table ops := by
  induction visits with
  | start => exact ⟨[], mapping.deref file, [], [], rfl, rfl, rfl, .nil, le_rfl⟩
  | @batch offset headerEnd recordEnd scan scan' payload count _ read counted applied ih =>
      obtain ⟨front, tail, table, ops, rfl, scanned⟩ := ih
      obtain ⟨header, more, left, table', ops', rfl, headerEndIs, recordEndIs, -, -, scanIs, decodes,
        light⟩ := scanned.operations slice word read counted applied
      refine ⟨front ++ header ++ payload, more, table', ops', ?_, ?_, scanIs, decodes, ?_⟩
      · rw [recordEndIs, headerEndIs, @List.length_append _ (front ++ header)]
      · rw [scanned.bytes]
        simp only [List.append_assoc]
      · rw [List.length_append, ← headerEndIs]
        exact light

/-- The recovery takes no more off the charge than there is: at the operation behind any `n`
operations of a record, wherever that record is in the log. -/
theorem ScanVisits.within {payload count : Bytes} {headerEnd recordEnd n cursor next removed added : Nat}
    {scan' : ScanState} {record : MappedRecord} {index : OverlayMap}
    (visits : ScanVisits file mapping mappingOffset offset scan)
    (slice : (mapping.deref file).length < 2 ^ 63)
    (word : mappingOffset + (mapping.deref file).length < 2 ^ 64)
    (read : readRecord (mapping.deref file) mappingOffset offset =
      .ok (.batch payload headerEnd recordEnd))
    (counted : getRange payload 0 4 = some count)
    (applied : applyOperations file payload headerEnd n 4 scan = .ok (cursor, scan'))
    (here : readOperation payload headerEnd cursor = .ok (record, next))
    (installed : scan'.index.installRecovered file record = .ok (index, removed, added)) :
    removed ≤ scan'.memory := by
  obtain ⟨front, tail, table, ops, rfl, scanned⟩ := visits.holds slice word
  obtain ⟨header, more, left, table', ops', tailIs, headerEndIs, -, payloadIs, inside, rfl, decodes, -⟩ :=
    scanned.operations slice word read counted applied
  have bytes := scanned.bytes
  rw [tailIs] at bytes
  rw [bytes] at slice
  simp only [List.length_append] at slice
  have cut : (payload.take cursor).length = cursor := List.length_take_of_le inside
  have total : cursor + left.length = payload.length := by
    have := congrArg List.length payloadIs
    rw [List.length_append, cut] at this
    omega
  rw [List.length_append] at headerEndIs
  have cases := @readOperation_cases (payload.take cursor) left headerEnd (by omega)
  rw [cut, ← payloadIs] at cases
  rcases cases with ⟨op, rest, leftIs, key, value⟩ | ⟨error, refused⟩
  · have size := encodeOperation_length op
    have opSize : operationSize op + rest.length = left.length := by
      rw [leftIs, List.length_append, size]
    have encoded := @readOperation_encoded (payload.take cursor) rest op headerEnd key value (by omega)
    rw [cut, ← leftIs, ← payloadIs, here] at encoded
    cases encoded
    have place : MappedRecord.slices ⟨headerEnd + cursor⟩ (front ++ header ++ payload) = .ok op := by
      have at_ := slices_encoded (front ++ header ++ payload.take cursor) rest
        (lt_of_le_of_lt key (by decide)) (lt_of_le_of_lt value (by decide))
        (by simp only [List.length_append, cut]; omega)
      rw [← leftIs, List.append_assoc (front ++ header), ← payloadIs, List.length_append, cut,
        List.length_append, ← headerEndIs] at at_
      exact at_
    obtain ⟨table2, old, ops2, ran, -, sets⟩ := @installRecovered_spec file mapping table' ops' _ _ op
      (by rw [bytes]; simp only [List.append_assoc]; exact ⟨more, by simp⟩) decodes place
    cases ran.symm.trans installed
    exact sets.within
  · rw [refused] at here
    cases here

end Scan

end Lkv
