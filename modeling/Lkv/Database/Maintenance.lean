/-
# Lkv.Database.Maintenance — compaction

`database/maintenance.rs`.  `compactFile` writes the live entries twice: to a
staging Base past the end of the file, which is published first, and from there to
the front of the file.  Its phases are the definitions below, in the order in which
they run; what happens to the handle when a call of a phase fails differs from phase
to phase.
-/
import Lkv.Database.Handle

namespace Lkv
open Lkv.Theory

set_option autoImplicit false

/-- Running a writer against an `OffsetBuffer`: a vector that stands for the file
from `origin` on. -/
def inOffsetBuffer {α : Type} (origin : Nat) (act : Io α) : Res (α × Bytes) :=
  match act (Disk.ofFile File.empty []) with
  | (.ok a, d) => .ok (a, d.file.slice origin (d.file.len - origin))
  | (.error e, _) => .error e

/-- `build_memory_base`.  Of the calls on a vector only the allocations can fail: that
of the buffer, and that of the checksum table inside the writer. -/
def buildMemoryBase {ι : Type} (C : Crates) (feed : Feed ι) (offset len : Nat) (entries : ι) :
    Io Bytes := do
  Io.reserve (.fromIo .outOfMemory "could not reserve Base bytes")
  Io.reserve (.fromIo .invalidInput "checksum table is too large")
  let (size, buffer) ← Prog.lift (inOffsetBuffer offset (writeBaseAt C feed offset len entries))
  if buffer.length ≠ size then
    Prog.stop (.err (.other "in-memory Base size does not match its buffer"))
  else return buffer

def detachedBase (C : Crates) (generation : Nat) : Io ActiveBase := do
  let bytes ← buildMemoryBase C Feed.none dataStart 0 ()
  let checksum ← Prog.lift (segmentMetadataChecksum bytes)
  Prog.lift (ActiveBase.install (← Prog.state).file (.memory bytes)
    (Superblock.new generation dataStart emptySegmentSize 0 0 (dataStart + emptySegmentSize)
      checksum))

/-- Where everything goes. -/
structure CompactPlan where
  rollbackOffset : Nat
  destinationEnd : Nat
  sourceOffset : Nat
  sourceEnd : Nat

/-- The staging Base lies beyond the current file and its marker, and beyond the
final Base and its marker. -/
def compactPlan (rollbackOffset expectedBaseSize : Nat) : Res CompactPlan := do
  let destinationEnd ← orFail (checkedAdd dataStart expectedBaseSize)
    (.fromIo .invalidInput "compact size overflow")
  let markerEnd ← orFail (checkedAdd rollbackOffset logHeaderSize)
    (.fromIo .invalidInput "compact marker overflow")
  let gapEnd ← orFail (checkedAdd destinationEnd logHeaderSize)
    (.fromIo .invalidInput "compact gap overflow")
  let sourceOffset := max markerEnd gapEnd
  let sourceEnd ← orFail (checkedAdd sourceOffset expectedBaseSize)
    (.fromIo .invalidInput "compact size overflow")
  return ⟨rollbackOffset, destinationEnd, sourceOffset, sourceEnd⟩

namespace Database

/-- The marker and the staging Base; any failure is rolled back. -/
def stageBase (C : Crates) (plan : CompactPlan) (liveLen expectedBaseSize : Nat) :
    Db WrittenBase := do
  orRollback plan.rollbackOffset (Db.io (writeCompactMarker Io.writeAll))
  orRollback plan.rollbackOffset (Db.io (Io.seekStart plan.sourceOffset))
  let entries := (← Prog.state).db.iterRaw C
  let written ← orRollback plan.rollbackOffset
    (Db.io (writeBaseWithMetadataAt C RawEntries.feed plan.sourceOffset liveLen entries))
  if written.size ≠ expectedBaseSize then
    rollbackOrPoison plan.rollbackOffset (.other "base size changed while compacting")
  else
    orRollback plan.rollbackOffset (Db.io Io.syncData)
    return written

/-- A root goes to its page; a failure leaves a handle that no longer writes. -/
def publish (superblock : Superblock) : Db Unit := do
  orPoison (Db.io superblock.write)
  orPoison (Db.io Io.syncAll)

def publishRedundant (superblock : Superblock) : Db Unit := do
  orPoison (Db.io superblock.writeRedundant)
  orPoison (Db.io Io.syncAll)

/-- The final Base and its marker, written while the handle reads the staging Base.
A failure here leaves the handle as it is. -/
def relocateBase (C : Crates) (destinationEnd destinationGeneration liveLen
    expectedBaseSize : Nat) : Db (ActiveBase × WrittenBase) := do
  let detached ← Db.io (detachedBase C destinationGeneration)
  let entries := (← Prog.state).db.iterRaw C
  let written ← Db.io (writeBaseWithMetadataAt C RawEntries.feed dataStart liveLen entries)
  if written.size ≠ expectedBaseSize then
    Prog.stop (.err (.other "base size changed while relocating compaction output"))
  else
    Db.io (Io.seekStart destinationEnd)
    Db.io (writeCompactMarker Io.writeAll)
    Db.io Io.syncData
    return (detached, written)

/-- The file is cut behind the final Base.  Until that Base is mapped again the handle
has none, and a failure leaves it unavailable. -/
def truncateTo (detached : ActiveBase) (destinationEnd : Nat) (superblock : Superblock) :
    Db Unit := do
  Db.setState .unavailable
  Db.setBase detached
  Db.io (Io.setLen destinationEnd)
  Db.io Io.syncAll
  Db.orElse (installSuperblock superblock) fun error => do
    Db.setState .unavailable
    Prog.stop (.err error)
  Db.setState .healthy

/-- `Superblock::new(generation, base_offset, written.size, .., written.metadata_checksum)`. -/
def rootOf (generation baseOffset : Nat) (written : WrittenBase) (logStart : Nat) : Superblock :=
  .new generation baseOffset written.size written.slots written.len logStart
    written.metadataChecksum

def compactFile (C : Crates) (liveLen expectedBaseSize : Nat) : Db Unit := do
  let rollbackOffset ← Db.io Io.seekEnd
  let plan ← Prog.lift (compactPlan rollbackOffset expectedBaseSize)
  ensureCapacity (plan.sourceEnd - rollbackOffset)
  let written ← stageBase C plan liveLen expectedBaseSize
  let generation ← Prog.lift (addOrPanic (← Prog.state).db.base.generation 1)
  let sourceSuperblock := rootOf generation plan.sourceOffset written plan.sourceEnd
  publish sourceSuperblock
  installSuperblock sourceSuperblock
  Db.setOverlay (← Prog.state).db.overlay.clear
  let destinationGeneration ← Prog.lift (addOrPanic sourceSuperblock.generation 1)
  let (detached, destinationWritten) ← relocateBase C plan.destinationEnd destinationGeneration
    liveLen expectedBaseSize
  let destinationSuperblock := rootOf destinationGeneration dataStart destinationWritten
    plan.destinationEnd
  publish destinationSuperblock
  publishRedundant destinationSuperblock
  truncateTo detached plan.destinationEnd destinationSuperblock

/-- The test for a database that has nothing to compact. -/
def alreadyCompact : Db Bool := do
  let db := (← Prog.state).db
  if db.base.offset = dataStart ∧ db.overlay.index.isEmpty then
    return (← Db.io Io.len) = db.base.logStart
  else return false

def compact (C : Crates) : Db Unit := do
  ensureWritable
  if (← Prog.state).db.snapshotGuard ≠ 1 then
    Prog.stop (.err (.fromIo .wouldBlock "compact requires all snapshots to be dropped"))
  else
    verify C
    if ← alreadyCompact then pure ()
    else
      let h ← Prog.state
      let (liveLen, expectedBaseSize) ← Prog.lift
        (measureBaseIter RawEntries.feed h.disk.file (h.db.iterRaw C))
      compactFile C liveLen expectedBaseSize

end Database

end Lkv
