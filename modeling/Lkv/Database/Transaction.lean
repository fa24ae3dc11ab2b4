/-
# Lkv.Database.Transaction — iteration, snapshots and staged writes

`database/transaction.rs`.  `RawEntries` walks the Base records that the overlay
does not shadow and then the live overlay entries; it reads its mappings at
each `next`.  `Entries` is the same walk with each Base pair verified.

A `put_reserved` callback is given by the writes it attempts and the result it
ends with.  What it does on a failed write is its own affair, and shows in these.
-/
import Lkv.Database.View

namespace Lkv

open Lkv.Theory

set_option autoImplicit false

/-! ## Iteration -/

/-- An entry an overlay iterator still has to give. -/
inductive OverlayItem where
  | record (position : MappedRecord)
  | entry (key : Bytes) (value : OverlayEntry)
  deriving DecidableEq

namespace OverlayMap

/-- `OverlayMap::iter`: the mapped records, then the tail. -/
def iter (C : Crates) : OverlayMap → List OverlayItem
  | .memory table => (C.order table).map fun entry => .entry entry.1 entry.2
  | .mapped _ table tail =>
      (C.order table).map .record ++ (C.order tail).map fun entry => .entry entry.key entry.value

/-- The log that mapped records point into. -/
def log (file : File) : OverlayMap → Bytes
  | .memory _ => []
  | .mapped bytes _ _ => derefOr file bytes

end OverlayMap

namespace OverlayItem

def operation (log : Bytes) : OverlayItem → Res (Bytes × Option Bytes)
  | .record position => position.slices log
  | .entry key value => .ok (key, value.seen)

end OverlayItem

/-- The next overlay entry that carries a value. -/
def nextLive (log : Bytes) : List OverlayItem → Res (Option (Bytes × Bytes) × List OverlayItem)
  | [] => .ok (none, [])
  | item :: rest => do
      match ← item.operation log with
      | (key, some value) => return (some (key, value), rest)
      | (_, none) => nextLive log rest

/-- A pair, and where it lies in the Base mapping if it does. -/
structure Item where
  key : Bytes
  value : Bytes
  range : Option (Nat × Nat)
  deriving DecidableEq

structure RawEntries where
  base : BaseView
  overlay : OverlayMap
  baseOffset : Nat
  baseRemaining : Nat
  baseTrusted : Bool
  pendingError : Option Error
  finished : Bool
  rest : List OverlayItem
  deriving DecidableEq

/-- Where the walk over the Base records stops. -/
inductive BaseStep where
  | item (found : Item) (offset remaining : Nat)
  | failed (error : Error) (offset remaining : Nat)
  | exhausted (offset : Nat)

namespace RawEntries

def new (C : Crates) (view : ReadView) (semanticallyVerified : Bool) (baseRemaining : Nat) :
    RawEntries :=
  { base := view.base
    overlay := view.overlay
    baseOffset := baseHeader + view.base.slots * slotSize
    baseRemaining := baseRemaining
    baseTrusted := semanticallyVerified
    pendingError := none
    finished := false
    rest := view.overlay.iter C }

/-- The loop over the Base records: the first that the overlay does not shadow. -/
def nextBase (file : File) (base : BaseView) (overlay : OverlayMap) (trusted : Bool) :
    Nat → Nat → Res BaseStep
  | 0, offset => .ok (.exhausted offset)
  | remaining + 1, offset =>
      let mapping := base.mapping.deref file
      let record := if trusted then trustedRecordAt mapping offset
        else recordAt mapping offset base.dataSize
      match record with
      | .error (.err error) => .ok (.failed error offset (remaining + 1))
      | .error stop => .error stop
      | .ok (key, value, stop) => do
          if ← overlay.containsKey file key then
            nextBase file base overlay trusted remaining stop
          else return .item ⟨key, value, some (offset + 8, stop)⟩ stop remaining

def seek (entries : RawEntries) (offset remaining : Nat) : RawEntries :=
  { entries with baseOffset := offset, baseRemaining := remaining }

def stopWith (entries : RawEntries) (error : Error) : RawEntries :=
  { entries with pendingError := some error, finished := true }

/-- The loop over the overlay, entered once every Base record is read. -/
def nextOverlay (file : File) (entries : RawEntries) : Res (Option Item × RawEntries) := do
  let (found, rest) ← nextLive (entries.overlay.log file) entries.rest
  match found with
  | some (key, value) => return (some ⟨key, value, none⟩, { entries with rest := rest })
  | none => return (none, { entries with rest := rest, finished := true })

def next (file : File) (entries : RawEntries) : Res (Option Item × RawEntries) :=
  if entries.finished then .ok (none, entries)
  else do
    match ← nextBase file entries.base entries.overlay entries.baseTrusted entries.baseRemaining
        entries.baseOffset with
    | .item found offset remaining => return (some found, entries.seek offset remaining)
    | .failed error offset remaining =>
        return (none, (entries.seek offset remaining).stopWith error)
    | .exhausted offset =>
        if offset ≠ entries.base.dataSize then
          return (none, (entries.seek offset 0).stopWith
            (.invalidBase "base record count does not match data size"))
        else nextOverlay file (entries.seek offset 0)

def sizeHint (entries : RawEntries) : Res (Nat × Option Nat) := do
  return (0, some (← addOrPanic entries.baseRemaining entries.rest.length))

/-- More calls of `next` than any iteration takes. -/
def bound (entries : RawEntries) : Nat := entries.baseRemaining + entries.rest.length + 2

/-- The iterator as the source of a Base. -/
def feed : Feed RawEntries where
  next file entries := do
    let (found, entries) ← entries.next file
    return (found.map fun item => (item.key, item.value), entries)
  bound := bound

/-- `entries.by_ref().count()`, with the iterator it leaves. -/
def count (file : File) : Nat → RawEntries → Nat → Res (Nat × RawEntries)
  | 0, _, _ => .error .diverge
  | fuel + 1, entries, n => do
      match ← entries.next file with
      | (none, entries) => return (n, entries)
      | (some _, entries) => count file fuel entries (n + 1)

/-- `Database::raw_len`. -/
def rawLen (file : File) (entries : RawEntries) : Res Nat := do
  let (n, entries) ← count file entries.bound entries 0
  match entries.pendingError with
  | some error => fail error
  | none => return n

end RawEntries

namespace Entries

/-- `Entries::next`. -/
def next (file : File) (view : ReadView) (entries : RawEntries) :
    Prog SegmentVerifier Stop (Option (Except Error (Bytes × Bytes)) × RawEntries) := do
  match ← Prog.lift (entries.next file) with
  | (some item, entries) =>
      match ← Prog.attempt Stop.error? (view.verifyPair file item.range) with
      | .ok () => return (some (.ok (item.key, item.value)), entries)
      | .error error => return (some (.error error), entries)
  | (none, entries) =>
      match entries.pendingError with
      | some error => return (some (.error error), { entries with pendingError := none })
      | none => return (none, entries)

/-- Every item up to the end of the iteration. -/
def drain (file : File) (view : ReadView) :
    Nat → RawEntries → Prog SegmentVerifier Stop (List (Except Error (Bytes × Bytes)))
  | 0, _ => Prog.stop .diverge
  | fuel + 1, entries => do
      match ← next file view entries with
      | (none, _) => return []
      | (some item, entries) => return item :: (← drain file view fuel entries)

/-- `Snapshot::len` from where the iterator stands: it stops at the first error. -/
def tryCount (file : File) (view : ReadView) :
    Nat → RawEntries → Nat → Prog SegmentVerifier Stop Nat
  | 0, _, _ => Prog.stop .diverge
  | fuel + 1, entries, len => do
      match ← next file view entries with
      | (none, _) => return len
      | (some (.error error), _) => Prog.stop (.err error)
      | (some (.ok _), entries) =>
          let len ← Prog.lift (orFail (checkedAdd len 1) (.other "snapshot entry count overflow"))
          tryCount file view fuel entries len

end Entries

namespace ReadView

/-- A complete iteration over the view. -/
def iterAll (C : Crates) (file : File) (view : ReadView) (baseLen : Nat) :
    Prog SegmentVerifier Stop (List (Except Error (Bytes × Bytes))) := do
  let entries := RawEntries.new C view (← Prog.state).semanticallyVerified baseLen
  Entries.drain file view entries.bound entries

end ReadView

/-! ## Staged writes -/

structure ReservedValue where
  bytes : Bytes
  position : Nat
  checksum : Option (BitVec 32)

namespace ReservedValue

def new (bytes : Bytes) (checksum : Bool) : ReservedValue :=
  ⟨bytes, 0, if checksum then some 0 else none⟩

/-- `Write::write`: all of the input, or an error that leaves the value alone. -/
def write (value : ReservedValue) (input : Bytes) : Except Error Unit × ReservedValue :=
  if input = [] then (.ok (), value)
  else if input.length > value.bytes.length - value.position then
    (.error (.fromIo .invalidInput "reserved value length exceeded"), value)
  else
    (.ok (), ⟨value.bytes.take value.position ++ input ++
        value.bytes.drop (value.position + input.length),
      value.position + input.length, value.checksum.map fun checksum => crc32cAppend checksum input⟩)

/-- A callback: what it tries to write and what it returns. -/
structure Callback where
  writes : List Bytes
  result : Except Error Unit

def run (callback : Callback) (value : ReservedValue) : Except Error Unit × ReservedValue :=
  (callback.result, callback.writes.foldl (fun value input => (value.write input).2) value)

def requireComplete (value : ReservedValue) : Except Error Unit :=
  if value.position = value.bytes.length then .ok ()
  else .error (.fromIo .invalidInput (s!"reserved value is incomplete: wrote {value.position} of " ++
    s!"{value.bytes.length} bytes"))

end ReservedValue

def maxLogPayloadSize : Nat := 2 ^ 32 - 1

def checkSinglePutSize (keyLen valueLen : Nat) : Res Unit := do
  let serialized ← orFail
    ((checkedAdd 13 keyLen).bind fun len => checkedAdd len valueLen)
    (.fromIo .invalidInput "value is too large")
  if serialized ≤ maxLogPayloadSize then .ok ()
  else fail (.fromIo .invalidInput "value cannot fit in a transaction record")

def checkLengthsLen (key : Bytes) (valueLen : Nat) : Res Unit := do
  if valueLen > maxValueSize then fail (.fromIo .invalidInput "value exceeds the format limit")
  else
    checkLengths key []
    checkSinglePutSize key.length valueLen

def valueCopyChunkSize : Nat := 256 * 1024

/-- The checksum of a copied value, taken chunk by chunk. -/
def copyChecksum : Nat → Bytes → BitVec 32 → BitVec 32
  | 0, _, checksum => checksum
  | fuel + 1, bytes, checksum =>
      if bytes = [] then checksum
      else copyChecksum fuel (bytes.drop valueCopyChunkSize)
        (crc32cAppend checksum (bytes.take valueCopyChunkSize))

/-- `copy_value`: the owned copy and its checksum. -/
def copyValue (value : Bytes) : ValueBytes × BitVec 32 :=
  (.owned value, copyChecksum (value.length + 1) value 0)

structure WriteTransaction where
  staged : KeyMap OverlayEntry
  valueChecksums : KeyMap (BitVec 32)

namespace WriteTransaction

def new : WriteTransaction := ⟨∅, ∅⟩

/-- Stage a value with its checksum, if one was taken. -/
def stage (txn : WriteTransaction) (key : Bytes) (value : ValueBytes)
    (checksum : Option (BitVec 32)) : WriteTransaction where
  staged := txn.staged.insert key (.put value)
  valueChecksums := match checksum with
    | some checksum => txn.valueChecksums.insert key checksum
    | none => txn.valueChecksums.erase key

/-- `put` on a file database (`memory = false`) or a memory one. -/
def put (memory : Bool) (txn : WriteTransaction) (key value : Bytes) : Res WriteTransaction := do
  checkLengths key value
  checkSinglePutSize key.length value.length
  if value.length ≥ mappedValueThreshold ∧ ¬memory then
    let (copied, checksum) := copyValue value
    return txn.stage key copied (some checksum)
  else return txn.stage key (.owned value) none

/-- `put_reserved`. -/
def putReserved (memory : Bool) (txn : WriteTransaction) (key : Bytes) (valueLen : Nat)
    (write : ReservedValue.Callback) : Res WriteTransaction := do
  checkLengthsLen key valueLen
  let large : Bool := valueLen ≥ mappedValueThreshold ∧ ¬memory
  let (result, reserved) := ReservedValue.run write
    (.new (List.replicate valueLen 0) large)
  match result with
  | .error error => fail error
  | .ok () =>
      match reserved.requireComplete with
      | .error error => fail error
      | .ok () =>
          let value := if large then ValueBytes.mapped reserved.bytes else .owned reserved.bytes
          return txn.stage key value reserved.checksum

def delete (txn : WriteTransaction) (key : Bytes) : Res WriteTransaction := do
  checkLengths key []
  return ⟨txn.staged.insert key .delete, txn.valueChecksums.erase key⟩

end WriteTransaction

end Lkv
