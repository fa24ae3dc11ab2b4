/-
# Lkv.Database.MemoryDatabase — a database in memory

`database/mod.rs` and `database/maintenance.rs` on `Storage::Memory`.  What a handle does
without writing to its storage is written once in the source for both storages, and is run
here as it is there (`shared`).  The rest differs: a commit only lengthens the log, whose
bytes are never written, and keeps the staged entries themselves; a compaction builds the new
Base in a vector and installs it in one step.

Every call on the storage notes the length it leaves (`Ram.lengths`).
-/
import Lkv.Database.Maintenance
import Lkv.Database.MemoryStorage

namespace Lkv
open Lkv.Theory

set_option autoImplicit false

/-- A memory storage with the lengths it has had, one for each call. -/
structure Ram where
  memory : Memory
  lengths : List Nat

abbrev Volatile (α : Type) := Prog Ram Stop α

namespace Volatile

variable {α : Type}

-- Irreducible, or the elaborator runs the call where it looks for a function type.
@[irreducible] def call (act : Mem α) : Volatile α :=
  Prog.zoom Ram.memory (fun memory ram => ⟨memory, ram.lengths ++ [memory.storage.len]⟩) act

def writeAll (bytes : Bytes) : Volatile Unit := do
  let _ ← call (Mem.write bytes)

def readExact (count : Nat) : Volatile Bytes := call (Mem.readExact (count + 1) count)

def seekStart (position : Nat) : Volatile Unit := do
  let _ ← call (Mem.seek (.start position))

def seekEnd : Volatile Nat := call (Mem.seek (.«end» 0))

/-! ## Creating -/

/-- `append_block_checksums` of data that is one block. -/
def appendBlockChecksum (start dataSize : Nat) : Volatile Nat := do
  seekStart start
  let block ← readExact dataSize
  call (Mem.reserve (.fromIo .invalidInput "checksum table is too large"))
  let metadata := checksumMetadata dataSize [(crc32c block).toNat]
  seekStart (start + dataSize)
  writeAll metadata
  return dataSize + metadata.length

/-- `write_base_at(storage, start, 0, iter::empty())`.  There are no slots and no records: the
writer that was to buffer the records has nothing to flush, and the second one flushes the
header in one write. -/
def writeEmptyBaseAt (start : Nat) : Volatile Nat := do
  let recordsStart := start + baseHeader
  seekStart recordsStart
  seekStart start
  writeAll (hashSectionId ++ (leBytes 4 baseHeader ++ (leBytes 8 0 ++ leBytes 8 0)))
  appendBlockChecksum start (recordsStart - start)

/-- `superblock::write`. -/
def writeRoot (superblock : Superblock) : Volatile Unit := do
  seekStart (Superblock.pageOffset superblock.generation)
  writeAll superblock.encodePage

def initializeStorage : Volatile Unit := do
  call (Mem.setLen dataStart)
  let baseSize ← writeEmptyBaseAt dataStart
  let mapping ← call (Mem.loadImmutable dataStart baseSize)
  let checksum ← Prog.lift
    (segmentMetadataChecksum (mapping.deref (← Prog.state).memory.storage.file))
  writeRoot (Superblock.new 1 dataStart baseSize 0 0 (dataStart + baseSize) checksum)

def readPage (fileLen offset : Nat) : Volatile PageKind := do
  seekStart offset
  match ← Prog.attempt Stop.error? (readExact superblockSize) with
  | .ok page => return classifyPage fileLen page
  | .error (.io error) =>
      if error.kind = .unexpectedEof then return .skipped else Prog.stop (.err (.io error))
  | .error error => Prog.stop (.err error)

def readLatestFrom (fileLen : Nat) : Volatile Superblock := do
  let scan := RootScan.start.consider (← readPage fileLen 0)
  let scan := scan.consider (← readPage fileLen superblockSize)
  Prog.lift scan.finish

/-- `load_storage_state` of a memory storage.  A log behind the Base is refused, and without
one there is no tail to discard. -/
def loadStorageState (C : Crates) (options : DatabaseOptions) :
    Volatile (ActiveBase × OverlayState) := do
  let storageLen := (← Prog.state).memory.storage.len
  let superblock ← readLatestFrom storageLen
  let mapping ← call (Mem.loadImmutable superblock.baseOffset superblock.baseSize)
  let file := (← Prog.state).memory.storage.file
  let base ← Prog.lift (ActiveBase.open C file mapping superblock options.verification)
  let initialOverlaySize ← Prog.lift (orFail (checkedSub storageLen base.logStart)
    (.invalidBase "overlay range precedes active Base"))
  if initialOverlaySize ≠ 0 then
    Prog.stop (.err (.invalidBase "in-memory database cannot contain a persisted Overlay"))
  else
    let overlay ← Prog.lift (OverlayState.new file (.memory []))
    let _ ← seekEnd
    return (base, overlay)

def fromStorage (C : Crates) (options : DatabaseOptions) : Volatile Database := do
  let storageLen := (← Prog.state).memory.storage.len
  if storageLen > options.maxDatabaseBytes.toNat then
    Prog.stop (.err (.databaseFullFor options.maxDatabaseBytes.toNat storageLen))
  else
    let (base, overlay) ← loadStorageState C options
    return ⟨base, overlay, options, 1, .healthy⟩

end Volatile

def memoryWithOptions (C : Crates) (options : DatabaseOptions) : Volatile Database := do
  Prog.lift (validateOptions options)
  Volatile.initializeStorage
  Volatile.fromStorage C options

/-! ## The handle -/

structure MemoryDatabase where
  db : Database
  ram : Ram

abbrev Mdb (α : Type) := Prog MemoryDatabase Stop α

namespace MemoryDatabase

def storage (m : MemoryDatabase) : MemoryStorage := m.ram.memory.storage

/-- The database before its next operation, in which these allocations will fail. -/
def afresh (faults : List Fault) (m : MemoryDatabase) : MemoryDatabase :=
  { m with ram := { m.ram with memory := { m.ram.memory with faults := faults } } }

/-- The handle over the bytes of the storage. -/
def handle (m : MemoryDatabase) : Handle := ⟨m.db, Disk.ofFile m.storage.file []⟩

end MemoryDatabase

namespace Mdb

variable {α : Type}

/-- What is written once for both storages and writes to neither: of the storage it asks at
most the length, and that of a memory storage is always known. -/
def shared (act : Db α) : Mdb α :=
  Prog.zoom MemoryDatabase.handle (fun h m => { m with db := h.db }) act

def volatile (act : Volatile α) : Mdb α :=
  Prog.zoom MemoryDatabase.ram (fun ram m => { m with ram := ram }) act

/-- What needs no more than memory of its own. -/
def allocating (act : Io α) : Mdb α :=
  Prog.zoom (fun m => Disk.ofFile File.empty m.ram.memory.faults) (fun d m => m.afresh d.faults) act

def orPoison (act : Mdb α) : Mdb α := do
  match ← Prog.attempt Stop.error? act with
  | .ok a => return a
  | .error error =>
      shared (Db.setState .writePoisoned)
      Prog.stop (.err error)

end Mdb

namespace MemoryDatabase
open Mdb

/-- The loop of `commit_staged_memory`, which calls `set_overlay_entry`. -/
def setOverlayEntries : List StagedEntry → Mdb Unit
  | [] => pure ()
  | (key, entry) :: rest => do
      let overlay ← Prog.lift ((← Prog.state).db.overlay.set key entry)
      shared (Db.setOverlay overlay)
      setOverlayEntries rest

def commitStagedMemory (C : Crates) (staged : KeyMap OverlayEntry) : Mdb Unit := do
  shared Database.ensureWritable
  let staged := stagedEntries C staged
  if staged = [] then pure ()
  else
    let payloadLen ← Prog.lift (batchPayloadLen staged)
    let batchRecordLen ← Prog.lift (orFail (checkedAdd logHeaderSize payloadLen)
      (.fromIo .invalidInput "batch record size overflow"))
    shared (Database.ensureCapacity batchRecordLen)
    volatile (Volatile.call (Mem.extendLog batchRecordLen))
    setOverlayEntries staged

/-- `finish_superblock_install(Ok(installed))`. -/
def finishInstall (installed : ActiveBase) : Mdb Unit := do
  let _ ← orPoison (volatile Volatile.seekEnd)
  shared (Db.setBase installed)

def installMemoryBase (baseOffset : Nat) (bytes : Bytes) (liveLen : Nat) : Mdb Unit := do
  let mapping := BaseBytes.memory bytes
  let layout ← Prog.lift (segmentLayout bytes)
  let (baseSlots, baseLen) ← Prog.lift (readBaseHeader layout.data)
  if baseLen ≠ liveLen then
    Prog.stop (.err (.other "in-memory Base entry count changed"))
  else
    let baseChecksum ← Prog.lift (segmentMetadataChecksum bytes)
    let logStart ← Prog.lift (orFail (checkedAdd baseOffset bytes.length)
      (.fromIo .invalidInput "Base range overflow"))
    let generation ← Prog.lift (addOrPanic (← Prog.state).db.base.generation 1)
    let superblock := Superblock.new generation baseOffset bytes.length baseSlots baseLen logStart
      baseChecksum
    let installed ← Prog.lift (ActiveBase.install (← Prog.state).storage.file mapping superblock)
    orPoison (volatile (Volatile.writeRoot superblock))
    orPoison (volatile (Volatile.call (Mem.replaceBase baseOffset bytes)))
    finishInstall installed
    shared (do Db.setOverlay (← Prog.state).db.overlay.clear)

def compactMemory (C : Crates) (liveLen expectedBaseSize : Nat) : Mdb Unit := do
  let required ← Prog.lift (orFail (checkedAdd dataStart expectedBaseSize)
    (.fromIo .invalidInput "compact size overflow"))
  let m ← Prog.state
  if required > m.db.options.maxDatabaseBytes.toNat then
    Prog.stop (.err (.databaseFullFor m.db.options.maxDatabaseBytes.toNat required))
  else
    let bytes ← allocating
      (buildMemoryBase C RawEntries.feed dataStart liveLen (m.db.iterRaw C))
    if bytes.length ≠ expectedBaseSize then
      Prog.stop (.err (.other "base size changed while compacting"))
    else installMemoryBase dataStart bytes liveLen

def compact (C : Crates) : Mdb Unit := do
  shared Database.ensureWritable
  if (← Prog.state).db.snapshotGuard ≠ 1 then
    Prog.stop (.err (.fromIo .wouldBlock "compact requires all snapshots to be dropped"))
  else
    shared (Database.verify C)
    if ← shared Database.alreadyCompact then pure ()
    else
      let m ← Prog.state
      let (liveLen, expectedBaseSize) ← Prog.lift
        (measureBaseIter RawEntries.feed m.storage.file (m.db.iterRaw C))
      compactMemory C liveLen expectedBaseSize

end MemoryDatabase

end Lkv
