/-
# Lkv.Database.State — the installed Base, its verifier and the overlay index

`database/state.rs`.  The overlay of a file database keeps the latest operation
per key in one of two places: a table of offsets into the mapped log, or a tail
of owned entries that have not been mapped yet.  A tail entry also records where
its operation lies in the log, for the day the log is mapped again.

`record.slices` panics on an offset that does not decode, so the operations of
the index return a `Res`.  A hashbrown table is the list of its entries: an
entry is found by its key, and iteration follows `Crates.order`.
-/
import Lkv.Format.Superblock
import Mathlib.Data.List.AList

namespace Lkv

open Lkv.Theory

set_option autoImplicit false

/-- `FxHashMap<Vec<u8>, V>`. -/
abbrev KeyMap (V : Type) := AList fun _ : Bytes => V

def mappedValueThreshold : Nat := 1024 * 1024
def overlayMappingThreshold : Nat := 1024 * 1024

/-- `saturating_add` on `usize`. -/
def saturatingAdd (a b : Nat) : Nat := min (a + b) (2 ^ 64 - 1)

/-! ## The verifier -/

structure SegmentVerifier where
  offset : Nat
  dataSize : Nat
  checksums : List Nat
  /-- The bits of the source's words, lowest first. -/
  verified : List Bool
  remaining : Nat
  fullyVerified : Bool
  semanticallyVerified : Bool
  deriving DecidableEq

namespace SegmentVerifier

/-- The `chunks_exact(4)` of the table as numbers. -/
def checksumWords (table : Bytes) : List Nat :=
  (List.range (table.length / 4)).map fun i => leNat (window table (4 * i) 4)

def new (offset : Nat) (layout : SegmentLayout) (fullyVerified : Bool) : SegmentVerifier :=
  let checksums := checksumWords layout.checksums
  { offset := offset
    dataSize := layout.data.length
    checksums := checksums
    verified := List.replicate (divCeil checksums.length 64 * 64) fullyVerified
    remaining := if fullyVerified then 0 else layout.checksums.length / 4
    fullyVerified := fullyVerified
    semanticallyVerified := fullyVerified }

/-- Set the bit of a block that was clear; the last one makes the segment verified. -/
def mark (v : SegmentVerifier) (block : Nat) : SegmentVerifier :=
  { v with
    verified := v.verified.set block true
    remaining := if v.remaining = 0 then 2 ^ 64 - 1 else v.remaining - 1
    fullyVerified := v.fullyVerified || v.remaining == 1 }

def verifyBlock (mapping : Bytes) (block : Nat) : Prog SegmentVerifier Stop Unit := do
  let v ← Prog.state
  match v.verified[block]? with
  | none => Prog.lift (panic "index out of bounds")
  | some true => pure ()
  | some false =>
      let blockStart := block * checksumBlockSize
      let blockEnd := min (blockStart + checksumBlockSize) v.dataSize
      let bytes ← Prog.lift (sliceAt mapping blockStart blockEnd)
      match v.checksums[block]? with
      | none => Prog.lift (panic "index out of bounds")
      | some expected =>
          if (crc32c bytes).toNat ≠ expected then
            Prog.stop (.err (.corruptedBlock v.offset block))
          else Prog.modify fun v => v.mark block

/-- The loop over `count` blocks from `block` on. -/
def verifyBlocks (mapping : Bytes) : Nat → Nat → Prog SegmentVerifier Stop Unit
  | _, 0 => pure ()
  | block, count + 1 => do
      verifyBlock mapping block
      verifyBlocks mapping (block + 1) count

def verifyRange (mapping : Bytes) (start stop : Nat) : Prog SegmentVerifier Stop Unit := do
  let v ← Prog.state
  if v.fullyVerified then pure ()
  else if start > stop then Prog.stop (.err (.invalidBase "read range lies outside segment"))
  else if stop > v.dataSize then
    Prog.stop (.err (.invalidBase "read range lies outside segment data"))
  else if start = stop then pure ()
  else
    let first := start / checksumBlockSize
    let last := (stop - 1) / checksumBlockSize
    verifyBlocks mapping first (last + 1 - first)

end SegmentVerifier

/-! ## The Base -/

structure ActiveBase where
  mapping : BaseBytes
  verifier : SegmentVerifier
  offset : Nat
  checksum : Nat
  slots : Nat
  len : Nat
  generation : Nat
  logStart : Nat
  deriving DecidableEq

namespace ActiveBase

def new (mapping : BaseBytes) (verifier : SegmentVerifier) (superblock : Superblock)
    (slots len : Nat) : ActiveBase :=
  { mapping := mapping
    verifier := verifier
    offset := superblock.baseOffset
    checksum := superblock.baseChecksum
    slots := slots
    len := len
    generation := superblock.generation
    logStart := superblock.logStart }

/-- `ActiveBase::open`. -/
def «open» (C : Crates) (file : File) (mapping : BaseBytes) (superblock : Superblock)
    (verification : VerificationMode) : Res ActiveBase := do
  let bytes := mapping.deref file
  let layout ← segmentLayout bytes
  if (← segmentMetadataChecksum bytes) ≠ superblock.baseChecksum then
    fail (.fromIo .invalidData "base checksum metadata mismatch")
  else
    if verification = .full then verifySegmentBlocks layout superblock.baseOffset else .ok ()
    let verifier := SegmentVerifier.new superblock.baseOffset layout (verification = .full)
    let (slots, len) ← readBaseHeader layout.data
    if slots ≠ superblock.baseSlots ∨ len ≠ superblock.baseLen then
      fail (.fromIo .invalidData "superblock and base header disagree")
    else
      match verification with
      | .full => validateBase C layout.data superblock.baseOffset slots len
      | .onRead => .ok ()
      return new mapping verifier superblock slots len

def install (file : File) (mapping : BaseBytes) (superblock : Superblock) : Res ActiveBase := do
  let layout ← segmentLayout (mapping.deref file)
  let (slots, len) ← readBaseHeader layout.data
  if slots ≠ superblock.baseSlots ∨ len ≠ superblock.baseLen then
    fail (.fromIo .invalidData "installed superblock and base header disagree")
  else
    let verifier := SegmentVerifier.new superblock.baseOffset layout true
    return new mapping verifier superblock slots len

/-- `ActiveBase::verify`, on the verifier that the handle shares. -/
def verify (C : Crates) (file : File) (base : ActiveBase) : Prog SegmentVerifier Stop Unit := do
  let bytes := base.mapping.deref file
  let layout ← Prog.lift (segmentLayout bytes)
  if (← Prog.lift (segmentMetadataChecksum bytes)) ≠ base.checksum then
    Prog.stop (.err (.fromIo .invalidData "base content checksum mismatch"))
  else
    SegmentVerifier.verifyRange bytes 0 layout.data.length
    if (← Prog.state).semanticallyVerified then pure ()
    else
      Prog.lift (validateBase C layout.data base.offset base.slots base.len)
      Prog.modify fun v => { v with semanticallyVerified := true }

end ActiveBase

/-! ## Values and log operations -/

/-- A staged or installed value: on the heap or in a mapping of its own. -/
inductive ValueBytes where
  | owned (bytes : Bytes)
  | mapped (bytes : Bytes)
  deriving DecidableEq

namespace ValueBytes

def asSlice : ValueBytes → Bytes
  | .owned bytes => bytes
  | .mapped bytes => bytes

def len (value : ValueBytes) : Nat := value.asSlice.length

def overlayMemoryCharge : ValueBytes → Nat
  | .owned bytes => bytes.length
  | .mapped bytes => if bytes.length < mappedValueThreshold then bytes.length else 0

end ValueBytes

inductive OverlayEntry where
  | put (value : ValueBytes)
  | delete
  deriving DecidableEq

namespace OverlayEntry

/-- What a reader sees: the value, or nothing for a deletion. -/
def seen : OverlayEntry → Option Bytes
  | .put value => some value.asSlice
  | .delete => none

def memory : OverlayEntry → Nat
  | .put value => value.overlayMemoryCharge
  | .delete => 0

end OverlayEntry

/-- `overlay_entry_memory`. -/
def overlayEntryMemory (key : Bytes) (entry : OverlayEntry) : Nat := key.length + entry.memory

inductive Marker where
  | put
  | delete
  | compact
  | batch
  deriving DecidableEq

namespace Marker

def toByte : Marker → UInt8
  | .put => 1
  | .delete => 2
  | .compact => 3
  | .batch => 4

def fromByte (byte : UInt8) : Option Marker :=
  if byte = 1 then some .put
  else if byte = 2 then some .delete
  else if byte = 3 then some .compact
  else if byte = 4 then some .batch
  else none

@[simp] theorem fromByte_toByte (marker : Marker) : fromByte marker.toByte = some marker := by
  cases marker <;> decide

theorem toByte_of_fromByte {byte : UInt8} {marker : Marker} (found : fromByte byte = some marker) :
    byte = marker.toByte := by
  unfold fromByte at found
  split_ifs at found with one two three four
  all_goals cases found
  · exact one
  · exact two
  · exact three
  · exact four

end Marker

def operationHeaderSize : Nat := 9

/-- `MappedRecord`: the offset of an operation in the mapped log. -/
structure MappedRecord where
  offset : Nat
  deriving DecidableEq

namespace MappedRecord

def checkedSlices (record : MappedRecord) (bytes : Bytes) : Option (Bytes × Option Bytes) := do
  let headerEnd ← checkedAdd record.offset operationHeaderSize
  let header ← getRange bytes record.offset headerEnd
  let marker ← Marker.fromByte (← header.head?)
  if marker ≠ .put ∧ marker ≠ .delete then none
  else
    let keyLen := leNat (window header 1 4)
    let valueLen := leNat (window header 5 4)
    if marker = .delete ∧ valueLen ≠ 0 then none
    else
      let keyEnd ← checkedAdd headerEnd keyLen
      let valueEnd ← checkedAdd keyEnd valueLen
      let key ← getRange bytes headerEnd keyEnd
      match marker with
      | .put => return (key, some (← getRange bytes keyEnd valueEnd))
      | _ => return (key, none)

def slices (record : MappedRecord) (bytes : Bytes) : Res (Bytes × Option Bytes) :=
  match record.checkedSlices bytes with
  | some found => .ok found
  | none => panic "installed Overlay record must remain valid"

/-- The charge of a record that decodes to this operation. -/
def charge (operation : Bytes × Option Bytes) : Nat :=
  operation.1.length + match operation.2 with
    | some value => if value.length < mappedValueThreshold then value.length else 0
    | none => 0

def memoryCharge (record : MappedRecord) (bytes : Bytes) : Res Nat :=
  (record.slices bytes).map charge

/-- The closure `|record| record.slices(bytes).0 == key`. -/
def hasKey (bytes key : Bytes) (record : MappedRecord) : Res Bool := do
  return (← record.slices bytes).1 = key

end MappedRecord

structure TailOverlayEntry where
  key : Bytes
  value : OverlayEntry
  mapped : MappedRecord
  deriving DecidableEq

/-! ## Hash tables -/

section Table

variable {α : Type}

/-- The entry that `found` picks, `HashTable::find`. -/
def tableFind (found : α → Res Bool) : List α → Res (Option α)
  | [] => .ok none
  | entry :: rest => do
      if ← found entry then return some entry else tableFind found rest

/-- The table with the entry that `found` picks exchanged for `replacement`, and
that entry: `find_mut` with `replace`, or `find_entry` with `remove`. -/
def tableExchange (found : α → Res Bool) (replacement : List α) :
    List α → Res (Option α × List α)
  | [] => .ok (none, [])
  | entry :: rest => do
      if ← found entry then return (some entry, replacement ++ rest)
      else
        let (previous, rest) ← tableExchange found replacement rest
        return (previous, entry :: rest)

end Table

/-! ## The overlay index -/

inductive OverlayMap where
  | memory (table : List (Bytes × OverlayEntry))
  | mapped (bytes : Option BaseBytes) (table : List MappedRecord) (tail : List TailOverlayEntry)
  deriving DecidableEq

namespace OverlayMap

/-- `bytes.as_deref().unwrap_or(&[])`. -/
def derefOr (file : File) (bytes : Option BaseBytes) : Bytes :=
  match bytes with
  | some bytes => bytes.deref file
  | none => []

/-- The latest operation on a key, if any. -/
def getHashed (file : File) (key : Bytes) : OverlayMap → Res (Option (Option Bytes))
  | .memory table => do
      return (← tableFind (fun entry => .ok (entry.1 = key)) table).map fun entry => entry.2.seen
  | .mapped bytes table tail => do
      match ← tableFind (fun entry => .ok (entry.key = key)) tail with
      | some entry => return some entry.value.seen
      | none =>
          match bytes with
          | none => return none
          | some bytes =>
              let log := bytes.deref file
              match ← tableFind (MappedRecord.hasKey log key) table with
              | none => return none
              | some record => return some (← record.slices log).2

def containsKey (file : File) (overlay : OverlayMap) (key : Bytes) : Res Bool := do
  return (← overlay.getHashed file key).isSome

def len : OverlayMap → Nat
  | .memory table => table.length
  | .mapped _ table tail => table.length + tail.length

def isEmpty (overlay : OverlayMap) : Bool := overlay.len = 0

def mappedBytesLen (file : File) : OverlayMap → Nat
  | .memory _ => 0
  | .mapped bytes _ _ => (derefOr file bytes).length

def recordsCharge (log : Bytes) : List MappedRecord → Res Nat
  | [] => .ok 0
  | record :: rest => do return (← record.memoryCharge log) + (← recordsCharge log rest)

/-- `memory_charge`: the charges of all entries. -/
def memoryCharge (file : File) : OverlayMap → Res Nat
  | .memory table => .ok (table.map fun entry => overlayEntryMemory entry.1 entry.2).sum
  | .mapped bytes table tail => do
      return (← recordsCharge (derefOr file bytes) table) +
        (tail.map fun entry => overlayEntryMemory entry.key entry.value).sum

/-- `set_memory`: the new index and the entry that was replaced. -/
def setMemory (key : Bytes) (value : OverlayEntry) :
    OverlayMap → Res (OverlayMap × Option OverlayEntry)
  | .mapped _ _ _ => panic "file Overlay cannot install owned entries"
  | .memory table => do
      let (previous, exchanged) ← tableExchange (fun entry => .ok (entry.1 = key)) [(key, value)] table
      match previous with
      | some previous => return (.memory exchanged, some previous.2)
      | none => return (.memory ((key, value) :: table), none)

/-- `insert_mapped_record`: replace the record of the same key, or add one. -/
def insertMappedRecord (table : List MappedRecord) (log : Bytes) (record : MappedRecord) :
    Res (Option MappedRecord × List MappedRecord) := do
  let (key, _) ← record.slices log
  let (previous, exchanged) ← tableExchange (MappedRecord.hasKey log key) [record] table
  match previous with
  | some previous => return (some previous, exchanged)
  | none => return (none, record :: table)

/-- Install the records one by one; the charges removed and added. -/
def installRecords (log : Bytes) : List MappedRecord → List MappedRecord → Nat → Nat →
    Res (List MappedRecord × Nat × Nat)
  | [], table, removed, added => .ok (table, removed, added)
  | record :: rest, table, removed, added => do
      let added := saturatingAdd added (← record.memoryCharge log)
      let (previous, table) ← insertMappedRecord table log record
      let removed ← match previous with
        | some previous => do pure (saturatingAdd removed (← previous.memoryCharge log))
        | none => pure removed
      installRecords log rest table removed added

/-- Move the tail into the table. -/
def promoteTail (log : Bytes) : List TailOverlayEntry → List MappedRecord →
    Res (List MappedRecord)
  | [], table => .ok table
  | entry :: rest, table => do
      let (_, table) ← insertMappedRecord table log entry.mapped
      promoteTail log rest table

/-- `install_mapped`: the new index and the charges removed and added. -/
def installMapped (C : Crates) (file : File) (bytes : BaseBytes)
    (mutations : List MappedRecord) : OverlayMap → Res (OverlayMap × Nat × Nat)
  | .memory _ => panic "memory Overlay cannot install mapped entries"
  | .mapped _ table tail => do
      let log := bytes.deref file
      let table ← promoteTail log (C.order tail) table
      let (table, removed, added) ← installRecords log mutations table 0 0
      return (.mapped (some bytes) table [], removed, added)

/-- One turn of `install_tail`: the table, the tail and the charge removed. -/
def installTailEntry (file : File) (bytes : Option BaseBytes) (key : Bytes)
    (value : OverlayEntry) (record : MappedRecord) (table : List MappedRecord)
    (tail : List TailOverlayEntry) :
    Res (List MappedRecord × List TailOverlayEntry × Nat) := do
  let (previous, exchanged) ← tableExchange (fun entry => .ok (entry.key = key))
    [⟨key, value, record⟩] tail
  match previous with
  | some entry => return (table, exchanged, overlayEntryMemory entry.key entry.value)
  | none =>
      let (table, charge) ← match bytes with
        | none => pure (table, 0)
        | some bytes => do
            let log := bytes.deref file
            let (previous, rest) ← tableExchange (MappedRecord.hasKey log key) [] table
            match previous with
            | some old => pure (rest, ← old.memoryCharge log)
            | none => pure (table, 0)
      return (table, ⟨key, value, record⟩ :: tail, charge)

def installTailEntries (file : File) (bytes : Option BaseBytes) :
    List ((Bytes × OverlayEntry) × MappedRecord) → List MappedRecord → List TailOverlayEntry →
      Nat → Nat → Res (List MappedRecord × List TailOverlayEntry × Nat × Nat)
  | [], table, tail, removed, added => .ok (table, tail, removed, added)
  | ((key, value), record) :: rest, table, tail, removed, added => do
      let (table, tail, charge) ← installTailEntry file bytes key value record table tail
      installTailEntries file bytes rest table tail (saturatingAdd removed charge)
        (saturatingAdd added (overlayEntryMemory key value))

/-- `install_tail`: staged entries in their iteration order, with their log offsets. -/
def installTail (file : File) (staged : List (Bytes × OverlayEntry))
    (mutations : List MappedRecord) : OverlayMap → Res (OverlayMap × Nat × Nat)
  | .memory _ => panic "memory Overlay cannot install a file tail"
  | .mapped bytes table tail => do
      let (table, tail, removed, added) ←
        installTailEntries file bytes (staged.zip mutations) table tail 0 0
      return (.mapped bytes table tail, removed, added)

/-- `install_recovered`. -/
def installRecovered (file : File) (record : MappedRecord) :
    OverlayMap → Res (OverlayMap × Nat × Nat)
  | .memory _ => panic "memory Overlay cannot install recovered entries"
  | .mapped bytes table tail =>
      match bytes with
      | none => panic "called Option::unwrap() on a None value"
      | some bytes => do
          let log := bytes.deref file
          let added ← record.memoryCharge log
          let (previous, table) ← insertMappedRecord table log record
          let removed ← match previous with
            | some previous => previous.memoryCharge log
            | none => pure 0
          return (.mapped (some bytes) table tail, removed, added)

def replaceMappedBytes (bytes : Option BaseBytes) : OverlayMap → Res OverlayMap
  | .memory _ => panic "memory Overlay cannot replace mapped bytes"
  | .mapped _ table tail => .ok (.mapped bytes table tail)

def clear : OverlayMap → OverlayMap
  | .memory _ => .memory []
  | .mapped _ _ _ => .mapped none [] []

end OverlayMap

/-! ## The overlay with its memory charge -/

structure OverlayState where
  index : OverlayMap
  memory : Nat
  deriving DecidableEq

namespace OverlayState

def new (file : File) (index : OverlayMap) : Res OverlayState := do
  return ⟨index, ← index.memoryCharge file⟩

/-- `OverlayState::set`, for the owned entries of a memory database. -/
def set (overlay : OverlayState) (key : Bytes) (entry : OverlayEntry) : Res OverlayState := do
  let (index, previous) ← overlay.index.setMemory key entry
  let memory := match previous with
    | some previous => overlay.memory - (key.length + previous.memory)
    | none => overlay.memory
  return ⟨index, saturatingAdd memory (overlayEntryMemory key entry)⟩

/-- Bring the charge up to date with an index operation. -/
def charged (memory : Nat) (installed : OverlayMap × Nat × Nat) : OverlayState :=
  ⟨installed.1, saturatingAdd (memory - installed.2.1) installed.2.2⟩

def installMapped (C : Crates) (file : File) (overlay : OverlayState) (bytes : BaseBytes)
    (mutations : List MappedRecord) : Res OverlayState :=
  (overlay.index.installMapped C file bytes mutations).map (charged overlay.memory)

def needsMapping (file : File) (overlay : OverlayState) (overlaySize : Nat) : Bool :=
  overlaySize - overlay.index.mappedBytesLen file ≥ overlayMappingThreshold

def installTail (file : File) (overlay : OverlayState) (staged : List (Bytes × OverlayEntry))
    (mutations : List MappedRecord) : Res OverlayState :=
  (overlay.index.installTail file staged mutations).map (charged overlay.memory)

def clear (overlay : OverlayState) : OverlayState := ⟨overlay.index.clear, 0⟩

end OverlayState

end Lkv
