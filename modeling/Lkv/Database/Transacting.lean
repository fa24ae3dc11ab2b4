/-
# Lkv.Database.Transacting — the calls of a transaction, one field after another

`WriteTransaction::put`, `put_reserved` and `delete` as programs on the transaction they
change.  The two maps are separate fields and are updated one after the other; what can fail
(the length checks, an allocation, an anonymous mapping, the callback) comes before, so a call
that fails leaves both as they were (`Tx.wp_put` and the like).  A call that succeeds is the
call of `Staging`, whose result is one transaction.

`transaction_coherent` puts this together over every sequence of calls: the staged map holds
the last successful operation on each key, every remembered checksum is that of a value staged
under its key, and the record that a commit writes with them is the record without them, which
a scan of the log accepts.
-/
import Lkv.Database.Grammar
import Lkv.Database.Integrity
import Lkv.Database.Staging

namespace Lkv
open Lkv.Theory Lkv.Theory.Prog Dictionary

set_option autoImplicit false

/-! ## Calls -/

/-- A transaction, and what will come of the next allocations and mappings. -/
structure Transaction where
  txn : WriteTransaction
  faults : List Fault

abbrev Tx (α : Type) := Prog Transaction Stop α

namespace Tx

/-- A call of the system, whose failure is reported as `error` says. -/
def system (error : IoError → Error) : Tx Unit := do
  let m ← Prog.state
  Prog.modify fun m => { m with faults := m.faults.tail }
  match m.faults with
  | .fail _ failure :: _ => Prog.stop (.err (error failure))
  | _ => pure ()

def reserve (message : String) : Tx Unit := system fun _ => .fromIo .outOfMemory message

def mapAnon : Tx Unit := system .io

def makeReadOnly : Tx Unit := system .io

def setChecksum (key : Bytes) (checksum : Option (BitVec 32)) : Tx Unit :=
  Prog.modify fun m => { m with txn := { m.txn with
    valueChecksums := match checksum with
      | some checksum => m.txn.valueChecksums.insert key checksum
      | none => m.txn.valueChecksums.erase key } }

def setStaged (key : Bytes) (entry : OverlayEntry) : Tx Unit :=
  Prog.modify fun m => { m with txn := { m.txn with staged := m.txn.staged.insert key entry } }

def put (memory : Bool) (key value : Bytes) : Tx Unit := do
  Prog.lift (checkLengths key value)
  Prog.lift (checkSinglePutSize key.length value.length)
  if value.length ≥ mappedValueThreshold ∧ ¬memory then
    reserve "could not copy value bytes"
    let (copied, checksum) := copyValue value
    setChecksum key (some checksum)
    setStaged key (.put copied)
  else
    setChecksum key none
    setStaged key (.put (.owned value))

/-- The callback, and the check that it filled the value. -/
def fill (write : ReservedValue.Callback) (value : ReservedValue) : Tx ReservedValue := do
  let (result, reserved) := ReservedValue.run write value
  match result with
  | .error error => Prog.stop (.err error)
  | .ok () =>
      match reserved.requireComplete with
      | .error error => Prog.stop (.err error)
      | .ok () => return reserved

def putReserved (memory : Bool) (key : Bytes) (valueLen : Nat) (write : ReservedValue.Callback) :
    Tx Unit := do
  Prog.lift (checkLengthsLen key valueLen)
  if valueLen ≥ mappedValueThreshold ∧ ¬memory then
    mapAnon
    let reserved ← fill write (.new (List.replicate valueLen 0) true)
    makeReadOnly
    setChecksum key reserved.checksum
    setStaged key (.put (.mapped reserved.bytes))
  else
    reserve "could not reserve value bytes"
    let reserved ← fill write (.new (List.replicate valueLen 0)
      (decide (valueLen ≥ mappedValueThreshold ∧ ¬memory)))
    setChecksum key reserved.checksum
    setStaged key (.put (.owned reserved.bytes))

def delete (key : Bytes) : Tx Unit := do
  Prog.lift (checkLengths key [])
  setChecksum key none
  setStaged key .delete

end Tx

inductive TxCall where
  | put (key value : Bytes)
  | putReserved (key : Bytes) (valueLen : Nat) (write : ReservedValue.Callback)
  | delete (key : Bytes)

namespace ReservedValue

/-- The inputs of those writes that succeed. -/
def successful : List Bytes → ReservedValue → List Bytes
  | [], _ => []
  | input :: rest, value =>
      match value.write input with
      | (.ok (), value) => input :: successful rest value
      | (.error _, value) => successful rest value

end ReservedValue

namespace TxCall

def run (memory : Bool) : TxCall → Tx Unit
  | .put key value => Tx.put memory key value
  | .putReserved key valueLen write => Tx.putReserved memory key valueLen write
  | .delete key => Tx.delete key

/-- What a reserved value gets: the successful writes of its callback, one after another. -/
def reservedContent (memory : Bool) (valueLen : Nat) (write : ReservedValue.Callback) : Bytes :=
  (ReservedValue.successful write.writes (.new (List.replicate valueLen 0)
    (decide (valueLen ≥ mappedValueThreshold ∧ ¬memory)))).flatten

/-- The operation that a successful call stages. -/
def operation (memory : Bool) : TxCall → Operation
  | .put key value => (key, some value)
  | .putReserved key valueLen write => (key, some (reservedContent memory valueLen write))
  | .delete key => (key, none)

end TxCall

/-- Any calls, of which some succeed and some fail: the transaction, and the operations of the
successful calls, the latest first. -/
inductive Transacts (memory : Bool) : WriteTransaction → List Operation → Prop
  | new : Transacts memory .new []
  | succeeded {txn : WriteTransaction} {ops : List Operation} {m : Transaction}
      (before : Transacts memory txn ops) (call : TxCall) (faults : List Fault)
      (ran : call.run memory ⟨txn, faults⟩ = (.ok (), m)) :
      Transacts memory m.txn (call.operation memory :: ops)
  | failed {txn : WriteTransaction} {ops : List Operation} {m : Transaction} {e : Stop}
      (before : Transacts memory txn ops) (call : TxCall) (faults : List Fault)
      (ran : call.run memory ⟨txn, faults⟩ = (.error e, m)) : Transacts memory m.txn ops

/-! ## What a call does -/

namespace ReservedValue

variable {size : Nat} {large : Bool} {content : Bytes} {value : ReservedValue}

/-- A write succeeds iff its input still fits. -/
theorem Filled.write_result (filled : Filled size large content value) (input : Bytes) :
    (∃ value', value.write input = (.ok (), value')) ∧ content.length + input.length ≤ size ∨
      (∃ error value', value.write input = (.error error, value')) ∧
        ¬content.length + input.length ≤ size := by
  have inside := filled.inside
  have room : value.bytes.length = size := by
    rw [filled.bytes, List.length_append, List.length_replicate]
    omega
  unfold ReservedValue.write
  by_cases nothing : input = []
  · rw [if_pos nothing, nothing]
    exact .inl ⟨⟨_, rfl⟩, inside⟩
  · rw [if_neg nothing, room, filled.position]
    by_cases fits : content.length + input.length ≤ size
    · rw [if_neg (by omega)]
      exact .inl ⟨⟨_, rfl⟩, fits⟩
    · rw [if_pos (by omega)]
      exact .inr ⟨⟨_, _, rfl⟩, fits⟩

/-- The successful writes are the ones that the content is made of. -/
theorem Filled.successful (filled : Filled size large content value) (inputs : List Bytes) :
    inputs.foldl (extend size) content = content ++ (ReservedValue.successful inputs value).flatten := by
  induction inputs generalizing content value with
  | nil => simp [ReservedValue.successful]
  | cons input rest ih =>
      have later := ih (filled.write input)
      rw [List.foldl_cons, later, ReservedValue.successful, extend]
      rcases filled.write_result input with ⟨⟨value', wrote⟩, fits⟩ | ⟨⟨error, value', wrote⟩, full⟩
      · rw [wrote, if_pos fits, List.flatten_cons, List.append_assoc]
      · rw [wrote, if_neg full]

end ReservedValue

theorem reservedContent_eq (memory : Bool) (valueLen : Nat) (write : ReservedValue.Callback) :
    TxCall.reservedContent memory valueLen write = write.content valueLen :=
  ((ReservedValue.filled_new valueLen _).successful write.writes).symm

namespace Tx

variable {m : Transaction} {memory : Bool} {key value : Bytes}

theorem wp_system {error : IoError → Error} {Q : Unit → Transaction → Prop}
    {E : Stop → Transaction → Prop} (ok : ∀ faults, Q () { m with faults := faults })
    (failed : ∀ error faults, E (.err error) { m with faults := faults }) : wp (system error) Q E m := by
  refine wp_bind (wp_state (wp_bind (wp_modify ?_)))
  split
  · exact wp_stop (failed _ _)
  · exact wp_pure (ok _)

/-- Both maps get what `WriteTransaction.stage` gives them. -/
theorem wp_stage {bytes : ValueBytes} {checksum : Option (BitVec 32)} {Q : Unit → Transaction → Prop}
    {E : Stop → Transaction → Prop} (post : Q () ⟨m.txn.stage key bytes checksum, m.faults⟩) :
    wp (do setChecksum key checksum; setStaged key (.put bytes)) Q E m :=
  wp_bind (wp_modify (wp_modify post))

theorem wp_put : wp (put memory key value) (fun _ m' => m.txn.put memory key value = .ok m'.txn)
    (fun _ m' => m'.txn = m.txn) m := by
  refine wp_bind (wp_lift (fun _ lengths => ?_) fun _ _ => rfl)
  refine wp_bind (wp_lift (fun _ size => ?_) fun _ _ => rfl)
  have result : m.txn.put memory key value =
      if value.length ≥ mappedValueThreshold ∧ ¬memory then
        .ok (m.txn.stage key (copyValue value).1 (some (copyValue value).2))
      else .ok (m.txn.stage key (.owned value) none) := by
    rw [WriteTransaction.put, lengths, ok_bind, size, ok_bind]
    rfl
  by_cases large : value.length ≥ mappedValueThreshold ∧ ¬memory
  · rw [if_pos large] at result ⊢
    exact wp_bind (wp_system (fun faults => wp_stage result) fun _ _ => rfl)
  · rw [if_neg large] at result ⊢
    exact wp_stage result

/-- The callback touches nothing but the value. -/
theorem wp_fill {write : ReservedValue.Callback} {reserved : ReservedValue} {Q : ReservedValue → Transaction → Prop}
    {E : Stop → Transaction → Prop}
    (ok : ∀ filled, ReservedValue.run write reserved = (.ok (), filled) →
      filled.requireComplete = .ok () → Q filled m)
    (failed : ∀ error, E (.err error) m) : wp (fill write reserved) Q E m := by
  unfold fill
  rcases ran : ReservedValue.run write reserved with ⟨error | _, filled⟩
  · exact wp_stop (failed error)
  · dsimp only
    cases complete : filled.requireComplete with
    | error error => exact wp_stop (failed error)
    | ok _ => exact wp_pure (ok filled ran complete)

theorem wp_putReserved {valueLen : Nat} {write : ReservedValue.Callback} :
    wp (putReserved memory key valueLen write)
      (fun _ m' => m.txn.putReserved memory key valueLen write = .ok m'.txn)
      (fun _ m' => m'.txn = m.txn) m := by
  refine wp_bind (wp_lift (fun _ lengths => ?_) fun _ _ => rfl)
  have result : ∀ reserved, ReservedValue.run write (.new (List.replicate valueLen 0)
        (decide (valueLen ≥ mappedValueThreshold ∧ ¬memory))) = (.ok (), reserved) →
      reserved.requireComplete = .ok () → m.txn.putReserved memory key valueLen write =
        .ok (m.txn.stage key (if decide (valueLen ≥ mappedValueThreshold ∧ ¬memory) then
          .mapped reserved.bytes else .owned reserved.bytes) reserved.checksum) := by
    intro reserved ran complete
    rw [WriteTransaction.putReserved, lengths, ok_bind]
    dsimp only
    rw [ran]
    dsimp only
    rw [complete]
    rfl
  by_cases large : valueLen ≥ mappedValueThreshold ∧ ¬memory
  · rw [decide_eq_true large] at result
    rw [if_pos large]
    refine wp_bind (wp_system (fun faults => wp_bind (wp_fill (fun reserved ran complete => ?_) ?_)) ?_)
    · exact wp_bind (wp_system (fun faults => wp_stage (result reserved ran complete)) fun _ _ => rfl)
    · exact fun _ => rfl
    · exact fun _ _ => rfl
  · rw [if_neg large]
    refine wp_bind (wp_system (fun faults => wp_bind (wp_fill (fun reserved ran complete => ?_) ?_)) ?_)
    · have staged := result reserved ran complete
      rw [decide_eq_false large] at staged
      exact wp_stage staged
    · exact fun _ => rfl
    · exact fun _ _ => rfl

theorem wp_delete : wp (delete key) (fun _ m' => m.txn.delete key = .ok m'.txn)
    (fun _ m' => m'.txn = m.txn) m := by
  refine wp_bind (wp_lift (fun _ lengths => ?_) fun _ _ => rfl)
  refine wp_bind (wp_modify (wp_modify ?_))
  show m.txn.delete key = _
  rw [WriteTransaction.delete, lengths]
  rfl

/-- A large value copied into the transaction of a file has its checksum remembered. -/
theorem put_large (txn : WriteTransaction) (lengths : checkLengths key value = .ok ())
    (size : checkSinglePutSize key.length value.length = .ok ())
    (large : mappedValueThreshold ≤ value.length) :
    put false key value ⟨txn, []⟩ =
      (.ok (), ⟨txn.stage key (.owned value) (some (crc32c value)), []⟩) := by
  unfold put
  rw [lengths, size, if_pos ⟨large, Bool.false_ne_true⟩, copyValue,
    copyChecksum_eq _ _ _ (Nat.lt_succ_self _)]
  rfl

/-- So has one that is streamed into an anonymous mapping, here in one write. -/
theorem putReserved_large (txn : WriteTransaction)
    (checked : checkLengthsLen key value.length = .ok ()) (large : mappedValueThreshold ≤ value.length) :
    putReserved false key value.length ⟨[value], .ok ()⟩ ⟨txn, []⟩ =
      (.ok (), ⟨txn.stage key (.mapped value) (some (crc32c value)), []⟩) := by
  have some_bytes : value ≠ [] := by
    rintro rfl
    exact absurd large (by decide)
  have written : ReservedValue.run ⟨[value], .ok ()⟩ (.new (List.replicate value.length 0) true) =
      (.ok (), ⟨value, value.length, some (crc32c value)⟩) := by
    simp [ReservedValue.run, ReservedValue.write, ReservedValue.new, some_bytes, crc32c]
  unfold putReserved fill
  rw [checked, if_pos ⟨large, Bool.false_ne_true⟩, written]
  simp only [ReservedValue.requireComplete, if_pos]
  rfl

end Tx

/-! ## Runs -/

section Runs

variable {memory : Bool} {m : Transaction} {txn txn' : WriteTransaction} {ops : List Operation}
variable {key value : Bytes}

/-- A call that succeeds stages its operation, one that fails stages nothing. -/
theorem TxCall.wp_run (call : TxCall) (staging : Staging memory m.txn ops) :
    wp (call.run memory) (fun _ m' => Staging memory m'.txn (call.operation memory :: ops))
      (fun _ m' => m'.txn = m.txn) m := by
  cases call with
  | put key value => exact wp_mono Tx.wp_put (fun _ _ ran => .put staging ran) fun _ _ kept => kept
  | putReserved key valueLen write =>
      refine wp_mono Tx.wp_putReserved (fun _ m' ran => ?_) fun _ _ kept => kept
      rw [operation, reservedContent_eq]
      exact .putReserved staging ran
  | delete key => exact wp_mono Tx.wp_delete (fun _ _ ran => .delete staging ran) fun _ _ kept => kept

theorem Transacts.staging (transacts : Transacts memory txn ops) : Staging memory txn ops := by
  induction transacts with
  | new => exact .new
  | succeeded _ call faults ran ih =>
      have staged := wp_ok (call.wp_run (m := ⟨_, faults⟩) ih) ran
      exact staged
  | failed _ call faults ran ih =>
      rw [wp_error (call.wp_run (m := ⟨_, faults⟩) ih) ran]
      exact ih

/-- A checksum is only remembered for a value. -/
def Cached (txn : WriteTransaction) : Prop :=
  ∀ key checksum, txn.valueChecksums.lookup key = some checksum →
    ∃ value, txn.staged.lookup key = some (.put value)

theorem Cached.stage (cached : Cached txn) (key : Bytes) (value : ValueBytes)
    (checksum : Option (BitVec 32)) : Cached (txn.stage key value checksum) := by
  intro key' known here
  by_cases same : key = key'
  · subst same
    exact ⟨value, AList.lookup_insert _⟩
  · have other : key' ≠ key := fun equal => same equal.symm
    have before : txn.valueChecksums.lookup key' = some known := by
      cases checksum with
      | none => exact (AList.lookup_erase_ne other).symm.trans here
      | some _ => exact (AList.lookup_insert_ne other).symm.trans here
    obtain ⟨value', staged⟩ := cached key' known before
    exact ⟨value', (AList.lookup_insert_ne other).trans staged⟩

theorem put_stage (ran : txn.put memory key value = .ok txn') :
    ∃ bytes checksum, txn' = txn.stage key bytes checksum := by
  unfold WriteTransaction.put at ran
  simp only [bind_eq_ok] at ran
  obtain ⟨_, -, _, -, ran⟩ := ran
  split at ran <;> cases ran
  · exact ⟨_, _, rfl⟩
  · exact ⟨_, _, rfl⟩

theorem putReserved_stage {valueLen : Nat} {write : ReservedValue.Callback}
    (ran : txn.putReserved memory key valueLen write = .ok txn') :
    ∃ bytes checksum, txn' = txn.stage key bytes checksum := by
  unfold WriteTransaction.putReserved at ran
  simp only [bind_eq_ok] at ran
  obtain ⟨_, -, ran⟩ := ran
  split at ran
  · cases ran
  · split at ran <;> cases ran
    exact ⟨_, _, rfl⟩

theorem Staging.cached (staging : Staging memory txn ops) : Cached txn := by
  induction staging with
  | new => exact nofun
  | put _ ran ih =>
      obtain ⟨_, _, rfl⟩ := put_stage ran
      exact ih.stage _ _ _
  | putReserved _ ran ih =>
      obtain ⟨_, _, rfl⟩ := putReserved_stage ran
      exact ih.stage _ _ _
  | @delete txn txn' ops key _ ran ih =>
      unfold WriteTransaction.delete at ran
      simp only [bind_eq_ok] at ran
      obtain ⟨_, -, ran⟩ := ran
      cases ran
      intro key' known here
      have other : key' ≠ key := by
        rintro rfl
        rw [show (txn.valueChecksums.erase key').lookup key' = none from AList.lookup_erase ..] at here
        cases here
      obtain ⟨value, staged⟩ := ih key' known ((AList.lookup_erase_ne other).symm.trans here)
      exact ⟨value, (AList.lookup_insert_ne other).trans staged⟩

/-- A value that passed the check has the length that was reserved. -/
theorem putReserved_length {valueLen : Nat} {write : ReservedValue.Callback}
    (ran : txn.putReserved memory key valueLen write = .ok txn') :
    (TxCall.reservedContent memory valueLen write).length = valueLen := by
  unfold WriteTransaction.putReserved at ran
  simp only [bind_eq_ok] at ran
  obtain ⟨_, -, ran⟩ := ran
  have filled := (ReservedValue.filled_new valueLen
    (decide (valueLen ≥ mappedValueThreshold ∧ ¬memory = true))).writes write.writes
  dsimp only [ReservedValue.run] at ran
  split at ran
  · cases ran
  · split at ran
    · cases ran
    · rename_i complete
      rw [reservedContent_eq]
      exact (filled.complete complete).2

end Runs

/-! ## The record of a commit -/

section Record

variable {staged : List StagedEntry} {valueChecksums : KeyMap (BitVec 32)}

/-- Right checksums do not change the record. -/
theorem writeBatchRecordInner_congr {known : Option (KeyMap (BitVec 32))}
    (matching : ∀ values, known = some values → ChecksumsMatch values staged) (write : Bytes → Io Unit) :
    writeBatchRecordInner write staged known = writeBatchRecordInner write staged none := by
  unfold writeBatchRecordInner
  cases len : batchPayloadLen staged with
  | error e => rfl
  | ok payloadLen =>
      have few := (batchPayloadLen_eq_ok.mp len).1
      simp only [batchRecordChecksum_eq few matching, batchRecordChecksum_eq few
        (show ∀ values, none = some values → ChecksumsMatch values staged from nofun)]

theorem writeBatchRecordWithChecksums_eq (matching : ChecksumsMatch valueChecksums staged)
    (write : Bytes → Io Unit) :
    writeBatchRecordWithChecksums write staged valueChecksums = writeBatchRecordInner write staged none := by
  refine writeBatchRecordInner_congr (fun values is => ?_) write
  split at is
  · cases is
  · cases is
    exact matching

/-- The bytes that the writer of a commit writes. -/
def writtenRecord (staged : List StagedEntry) (valueChecksums : KeyMap (BitVec 32)) : Bytes :=
  let d := (Io.withBufWriter (do
    writeBatchRecordWithChecksums (Io.bufWrite logWriteBufferSize) staged valueChecksums
    Io.flushBuf) (Disk.ofFile File.empty [])).2
  d.file.slice 0 d.file.len

theorem writtenRecord_eq {payloadLen : Nat} (accepted : batchPayloadLen staged = .ok payloadLen)
    (matching : ChecksumsMatch valueChecksums staged) :
    writtenRecord staged valueChecksums = encodeBatch (staged.map stagedOp) :=
  Io.slice_withBufWriter (wp_mono (wp_writeBatchRecord (by decide) (Io.streaming_start _) accepted matching)
    (fun _ _ => id) fun _ _ broken => broken.1)

/-- A scan accepts the record behind any log that it accepts, and finds its operations last. -/
theorem scan_writtenRecord {C : Crates} {txn : WriteTransaction} {ops : List Operation}
    {payloadLen : Nat} (coherent : Coherent txn ops)
    (accepted : batchPayloadLen (stagedEntries C txn.staged) = .ok payloadLen) (records : List Record)
    {d : Disk} (quiet : d.Quiet) {mapping : BaseBytes} {offset : Nat}
    (bytes : mapping.deref d.file =
      recordsLog records ++ writtenRecord (stagedEntries C txn.staged) txn.valueChecksums)
    (small : offset + (mapping.deref d.file).length < 2 ^ 63) :
    ∃ scan d', scanOverlay mapping offset d = (.ok scan, d') ∧
      scan.validLen = offset + (mapping.deref d.file).length ∧
      ∀ key, scan.index.getHashed d.file key = .ok (latest (ops ++ recordsOps records) key) := by
  let batch := batchOf C txn ⟨ops, coherent⟩ accepted
  have log : mapping.deref d.file = recordsLog (records ++ [batch.record]) ++ [] := by
    rw [bytes, writtenRecord_eq accepted (coherent.checksumsMatch C), recordsLog, recordsLog,
      List.flatMap_append, List.flatMap_singleton, List.append_nil]
    rfl
  obtain ⟨scan, d', table, found, ran, -, scans⟩ := scanOverlay_of_records quiet log
    (.short (by decide)) (by omega) (by omega : offset + (mapping.deref d.file).length < 2 ^ 64)
  refine ⟨scan, d', ran, ?_, fun key => ?_⟩
  · rw [scans.scan, log, List.append_nil]
  · have split : recordsOps (records ++ [batch.record]) = batch.ops.reverse ++ recordsOps records := by
      simp [recordsOps, Batch.record]
    have last : latest batch.ops.reverse key = latest ops key := by
      have distinct : Distinct batch.ops.reverse :=
        (show Distinct batch.ops from batch.distinct).perm (List.reverse_perm _).symm
      rw [latest_perm (List.reverse_perm _) distinct key]
      exact coherent.latest_staged C key
    rw [scans.getHashed, split, latest_append, latest_append, last]

end Record

/-- Over every sequence of calls, failing ones among them: a call that fails leaves both maps
as they were; the staged map holds the last successful operation on each key, where a reserved
value is what the successful writes of its callback gave, of the length that was reserved; a
remembered checksum is that of the value staged under its key.  So the record is the same with
the remembered checksums and without, and a scan accepts it. -/
theorem transaction_coherent (C : Crates) (memory : Bool) {txn : WriteTransaction}
    {ops : List Operation} (transacts : Transacts memory txn ops) :
    (∀ call faults e m, TxCall.run memory call ⟨txn, faults⟩ = (.error e, m) → m.txn = txn) ∧
    (∀ key, (txn.staged.lookup key).map OverlayEntry.seen = latest ops key) ∧
    (∀ key valueLen write faults m,
      TxCall.run memory (.putReserved key valueLen write) ⟨txn, faults⟩ = (.ok (), m) →
        (TxCall.reservedContent memory valueLen write).length = valueLen ∧
        (m.txn.staged.lookup key).map OverlayEntry.seen =
          some (some (TxCall.reservedContent memory valueLen write))) ∧
    (∀ key checksum, txn.valueChecksums.lookup key = some checksum →
      ∃ value, txn.staged.lookup key = some (.put value) ∧ crc32c value.asSlice = checksum) ∧
    (∀ write, writeBatchRecordWithChecksums write (stagedEntries C txn.staged) txn.valueChecksums =
      writeBatchRecordInner write (stagedEntries C txn.staged) none) ∧
    ∀ payloadLen, batchPayloadLen (stagedEntries C txn.staged) = .ok payloadLen →
      ∀ (records : List Record) (d : Disk) (mapping : BaseBytes) (offset : Nat), d.Quiet →
        mapping.deref d.file =
          recordsLog records ++ writtenRecord (stagedEntries C txn.staged) txn.valueChecksums →
        offset + (mapping.deref d.file).length < 2 ^ 63 →
        ∃ scan d', scanOverlay mapping offset d = (.ok scan, d') ∧
          scan.validLen = offset + (mapping.deref d.file).length ∧
          ∀ key, scan.index.getHashed d.file key = .ok (latest (ops ++ recordsOps records) key) := by
  have staging := transacts.staging
  have coherent := staging.coherent
  refine ⟨fun call faults e m ran => ?_, coherent.seen, fun key valueLen write faults m ran => ?_, fun key checksum known => ?_,
    fun write => writeBatchRecordWithChecksums_eq (coherent.checksumsMatch C) write,
    fun payloadLen accepted records d mapping offset quiet bytes small =>
      scan_writtenRecord coherent accepted records quiet bytes small⟩
  · have kept := wp_error (call.wp_run (m := ⟨txn, faults⟩) staging) ran
    exact kept
  · have put := wp_ok (Tx.wp_putReserved (m := ⟨txn, faults⟩)) ran
    have after := wp_ok (TxCall.wp_run (m := ⟨txn, faults⟩) (.putReserved key valueLen write) staging) ran
    refine ⟨putReserved_length put, ?_⟩
    rw [after.coherent.seen, TxCall.operation, latest_cons, if_pos rfl]
  · obtain ⟨value, staged⟩ := staging.cached key checksum known
    exact ⟨value, staged, (coherent.checksums key value checksum staged known).symm⟩

/-- One large value put and one streamed in, both with their checksums, and a callback that
leaves its value incomplete. -/
theorem transaction_coherent_large : ∃ (txn : WriteTransaction) (value : Bytes),
    Transacts false txn [([2], some value), ([1], some value)] ∧
    txn.valueChecksums.lookup [1] = some (crc32c value) ∧
    txn.valueChecksums.lookup [2] = some (crc32c value) ∧
    (∀ key, (txn.staged.lookup key).map OverlayEntry.seen =
      latest [([2], some value), ([1], some value)] key) ∧
    (∀ call faults e m, TxCall.run false call ⟨txn, faults⟩ = (.error e, m) → m.txn = txn) ∧
    ∀ write, writeBatchRecordWithChecksums write (stagedEntries zeroHash txn.staged)
      txn.valueChecksums = writeBatchRecordInner write (stagedEntries zeroHash txn.staged) none := by
  obtain ⟨value, length⟩ : ∃ value : Bytes, value.length = mappedValueThreshold :=
    ⟨List.replicate mappedValueThreshold 7, List.length_replicate⟩
  have put : (TxCall.put [1] value).run false ⟨.new, []⟩ = _ :=
    Tx.put_large .new (by rw [checkLengths, length]; rfl) (by rw [length]; rfl) length.ge
  have streamed : Tx.putReserved false [2] value.length ⟨[value], .ok ()⟩
      ⟨WriteTransaction.new.stage [1] (.owned value) (some (crc32c value)), []⟩ = _ :=
    Tx.putReserved_large _ (by rw [length]; rfl) length.ge
  have content : TxCall.reservedContent false value.length ⟨[value], .ok ()⟩ = value := by
    simp [reservedContent_eq, ReservedValue.Callback.content, ReservedValue.extend]
  have transacts := ((Transacts.new.succeeded (.put [1] value) [] put).succeeded
    (.putReserved [2] value.length ⟨[value], .ok ()⟩) [] streamed).failed
    (.putReserved [1] 2 ⟨[[3]], .ok ()⟩) [] rfl
  rw [TxCall.operation, TxCall.operation, content] at transacts
  obtain ⟨keeps, seen, -, -, record, -⟩ := transaction_coherent zeroHash false transacts
  exact ⟨_, value, transacts, rfl, rfl, seen, keeps, record⟩

end Lkv
