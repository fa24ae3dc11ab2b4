/-
# Lkv.Database.Handle — the database handle on a file

`database/mod.rs`.  A `Database` is what a handle keeps in memory, a `Handle` is
that together with the file it works on.  Opening is a program on the file, every
later operation a program on the handle.

Two combinators carry the error handling of the source: `orRollback` is
`if let Err(error) = .. { return self.rollback_or_poison(offset, error) }`, and
`orPoison` is the same with `self.state = WritePoisoned; return Err(error)`.
`Arc::strong_count(&self.snapshot_guard)` is the number `snapshotGuard`.

The rules at the end say what is left of a handle when such a program fails
(`RolledBack`, `Poisoned`).
-/
import Lkv.Database.Recovery

namespace Lkv
open Lkv.Theory

set_option autoImplicit false

/-- `LOG_WRITE_BUFFER_SIZE`. -/
def logWriteBufferSize : Nat := 64 * 1024

/-- `MIN_DATABASE_BYTES`. -/
def minDatabaseBytes : Nat := dataStart + emptySegmentSize

def validateOptions (options : DatabaseOptions) : Res Unit :=
  if options.maxDatabaseBytes.toNat < minDatabaseBytes then
    fail (.fromIo .invalidInput s!"max_database_bytes must be at least {minDatabaseBytes} bytes")
  else .ok ()

inductive HandleState where
  | healthy
  | writePoisoned
  | unavailable
  deriving DecidableEq, Repr

structure Database where
  base : ActiveBase
  overlay : OverlayState
  options : DatabaseOptions
  /-- How many own the guard: the handle itself and its live snapshots. -/
  snapshotGuard : Nat
  state : HandleState

structure Handle where
  db : Database
  disk : Disk

abbrev Db (α : Type) := Prog Handle Stop α

/-- The handle before its next operation, in which these calls will fail. -/
def Handle.afresh (faults : List Fault) (h : Handle) : Handle := { h with disk := h.disk.afresh faults }

/-! ## Opening and creating -/

def lockDatabaseFile : Io Unit := do
  match ← Io.nextFault with
  | some (_, error) =>
      Prog.stop (.err (.fromIo .wouldBlock
        s!"database is already open for writing: {error.message}"))
  | none => pure ()

def openDatabaseFile : Io Unit := do
  Io.call (pure ())
  lockDatabaseFile

/-- The scan that `load_storage_state` makes of the log behind the Base. -/
def scanLog (logStart size : Nat) : Io OverlayScan := do
  if size = 0 then return .empty logStart
  else
    let mapping ← Io.map logStart size
    scanOverlay mapping logStart

/-- The mapping that replaces the scanned one, if any log is left. -/
def mapLog (logStart size : Nat) : Io (Option BaseBytes) := do
  if size = 0 then return none
  else return some (← Io.map logStart size)

def mapBase (C : Crates) (superblock : Superblock) (verification : VerificationMode) :
    Io ActiveBase := do
  let mapping ← Io.map superblock.baseOffset superblock.baseSize
  Prog.lift (ActiveBase.open C (← Prog.state).file mapping superblock verification)

/-- The part of `load_storage_state` that discards an incomplete tail. -/
def discardTail (C : Crates) (superblock : Superblock) (verification : VerificationMode)
    (scan : OverlayScan) : Io (ActiveBase × OverlayScan) := do
  let scan ← Prog.lift (scan.replaceMapping none)
  Io.setLen scan.validLen
  Io.syncData
  let base ← mapBase C superblock verification
  let overlaySize ← Prog.lift (orFail (checkedSub scan.validLen base.logStart)
    (.invalidBase "overlay range precedes active Base"))
  let mapping ← mapLog base.logStart overlaySize
  let scan ← Prog.lift (scan.replaceMapping mapping)
  return (base, scan)

def keepTail (base : ActiveBase) (scan : OverlayScan) : Io (ActiveBase × OverlayScan) :=
  return (base, scan)

def loadStorageState (C : Crates) (options : DatabaseOptions) :
    Io (ActiveBase × OverlayState) := do
  let storageLen ← Io.len
  let superblock ← readLatestFrom storageLen
  let base ← mapBase C superblock options.verification
  let initialOverlaySize ← Prog.lift (orFail (checkedSub storageLen base.logStart)
    (.invalidBase "overlay range precedes active Base"))
  let scan ← scanLog base.logStart initialOverlaySize
  let (base, scan) ←
    if scan.validLen < storageLen then discardTail C superblock options.verification scan
    else keepTail base scan
  let _ ← Io.seekEnd
  return (base, ⟨scan.index, scan.memory⟩)

def fromStorage (C : Crates) (options : DatabaseOptions) : Io Database := do
  let storageLen ← Io.len
  if storageLen > options.maxDatabaseBytes.toNat then
    Prog.stop (.err (.databaseFullFor options.maxDatabaseBytes.toNat storageLen))
  else
    let (base, overlay) ← loadStorageState C options
    return ⟨base, overlay, options, 1, .healthy⟩

def openWithOptions (C : Crates) (options : DatabaseOptions) : Io Database := do
  Prog.lift (validateOptions options)
  openDatabaseFile
  let initialLen ← Io.len
  if initialLen > options.maxDatabaseBytes.toNat then
    Prog.stop (.err (.databaseFullFor options.maxDatabaseBytes.toNat initialLen))
  else fromStorage C options

/-- `Superblock::new`, whose fields are machine words. -/
def Superblock.new (generation baseOffset baseSize baseSlots baseLen logStart
    baseChecksum : Nat) : Superblock where
  generation := generation % 2 ^ 64
  baseOffset := baseOffset % 2 ^ 64
  baseSize := baseSize % 2 ^ 64
  baseSlots := baseSlots % 2 ^ 64
  baseLen := baseLen % 2 ^ 64
  logStart := logStart % 2 ^ 64
  baseChecksum := baseChecksum % 2 ^ 32
  words := by
    have word : ∀ n : Nat, n % 2 ^ 64 < 256 ^ 8 := fun n => Nat.mod_lt n (by decide)
    exact ⟨word _, word _, word _, word _, word _, word _⟩
  checksumWord := Nat.mod_lt _ (by decide)

def initializeFile (C : Crates) : Io Unit := do
  Io.setLen dataStart
  let baseSize ← writeBaseAt C Feed.none dataStart 0 ()
  let mapping ← Io.map dataStart baseSize
  let checksum ← Prog.lift (segmentMetadataChecksum (mapping.deref (← Prog.state).file))
  (Superblock.new 1 dataStart baseSize 0 0 (dataStart + baseSize) checksum).write
  Io.syncAll

/-- The calls of `create_database_file` that concern names of the file are
calls that may fail and leave its contents alone. -/
def createDatabaseFile (C : Crates) : Io Unit := do
  Io.call (pure ())
  lockDatabaseFile
  initializeFile C
  Io.call (pure ())
  Io.call (pure ())
  Io.call (pure ())
  Io.call (pure ())

def createWithOptions (C : Crates) (options : DatabaseOptions) : Io Database := do
  Prog.lift (validateOptions options)
  createDatabaseFile C
  fromStorage C options

/-! ## Programs on a handle -/

namespace Db

variable {α : Type}

def io (act : Io α) : Db α := Prog.zoom Handle.disk (fun disk h => { h with disk := disk }) act

def verifying (act : Prog SegmentVerifier Stop α) : Db α :=
  Prog.zoom (fun h => h.db.base.verifier)
    (fun v h => { h with db := { h.db with base := { h.db.base with verifier := v } } }) act

def setState (state : HandleState) : Db Unit :=
  Prog.modify fun h => { h with db := { h.db with state := state } }

def setBase (base : ActiveBase) : Db Unit :=
  Prog.modify fun h => { h with db := { h.db with base := base } }

def setOverlay (overlay : OverlayState) : Db Unit :=
  Prog.modify fun h => { h with db := { h.db with overlay := overlay } }

/-- `match act { Ok(value) => value, Err(error) => return handle(error) }`. -/
def orElse (act : Db α) (handle : Error → Db α) : Db α := do
  match ← Prog.attempt Stop.error? act with
  | .ok a => return a
  | .error error => handle error

/-- `let _ = act;` -/
def ignore (act : Db α) : Db Unit := orElse (do let _ ← act; return ()) fun _ => return ()

end Db

namespace Database

variable {α : Type}

def readView (db : Database) : ReadView :=
  db.base.readView db.overlay.index db.options.verification

def ensureWritable : Db Unit := do
  if (← Prog.state).db.state ≠ .healthy then Prog.stop (.err .poisoned) else pure ()

def ensureAvailable : Db Unit := do
  if (← Prog.state).db.state = .unavailable then Prog.stop (.err .poisoned) else pure ()

def ensureCapacity (additional : Nat) : Db Unit := do
  let current ← Db.io Io.len
  let limit := (← Prog.state).db.options.maxDatabaseBytes.toNat
  let required ← Prog.lift (orFail (checkedAdd current additional)
    (.databaseFullFor limit (2 ^ 64 - 1)))
  if required > limit then Prog.stop (.err (.databaseFullFor limit required)) else pure ()

def rollbackOrPoison (offset : Nat) (error : Error) : Db α := do
  Db.setState .writePoisoned
  Db.orElse
    (do
      Db.io (Io.setLen offset)
      Db.ignore (Db.io Io.syncData))
    fun _ => return ()
  Db.ignore (Db.io Io.seekEnd)
  Prog.stop (.err error)

def orRollback (offset : Nat) (act : Db α) : Db α := Db.orElse act (rollbackOrPoison offset)

def orPoison (act : Db α) : Db α :=
  Db.orElse act fun error => do
    Db.setState .writePoisoned
    Prog.stop (.err error)

/-! ### Reading -/

def get (C : Crates) (key : Bytes) : Db (Option Bytes) := do
  ensureAvailable
  let h ← Prog.state
  Db.verifying (h.db.readView.get C h.disk.file key)

def containsKey (C : Crates) (key : Bytes) : Db Bool := do
  return (← get C key).isSome

/-- Every item that `iter()` yields. -/
def iter (C : Crates) : Db (List (Except Error (Bytes × Bytes))) := do
  ensureAvailable
  let h ← Prog.state
  Db.verifying (h.db.readView.iterAll C h.disk.file h.db.base.len)

def iterRaw (C : Crates) (db : Database) : RawEntries :=
  RawEntries.new C db.readView db.base.verifier.semanticallyVerified db.base.len

def len (C : Crates) : Db Nat := do
  ensureAvailable
  let h ← Prog.state
  Prog.lift ((h.db.iterRaw C).rawLen h.disk.file)

def isEmpty (C : Crates) : Db Bool := do
  return (← len C) = 0

def verify (C : Crates) : Db Unit := do
  ensureAvailable
  let h ← Prog.state
  Db.verifying (h.db.base.verify C h.disk.file)

end Database

structure DatabaseStats where
  storageBytes : Nat
  baseBytes : Nat
  baseEntries : Nat
  overlayEntries : Nat
  overlayLogBytes : Nat
  overlayMemoryBytes : Nat
  staleBytes : Nat
  generation : Nat
  deriving DecidableEq

namespace Database

def stats : Db DatabaseStats := do
  ensureAvailable
  let storageBytes ← Db.io Io.len
  let h ← Prog.state
  return {
    storageBytes := storageBytes
    baseBytes := (h.db.base.mapping.deref h.disk.file).length
    baseEntries := h.db.base.len
    overlayEntries := h.db.overlay.index.len
    overlayLogBytes := storageBytes - h.db.base.logStart
    overlayMemoryBytes := h.db.overlay.memory
    staleBytes := h.db.base.offset - dataStart
    generation := h.db.base.generation }

def sync : Db Unit := do
  ensureAvailable
  Db.io Io.syncData

end Database

/-- `Snapshot`: a copy of what reading needs.  Its share of the guard is counted
in the handle. -/
structure Snapshot where
  base : BaseBytes
  verification : VerificationMode
  baseVerifier : SegmentVerifier
  overlayIndex : OverlayMap
  baseOffset : Nat
  baseSlots : Nat
  baseLen : Nat

namespace Snapshot

def readView (snapshot : Snapshot) : ReadView :=
  ⟨⟨snapshot.base, snapshot.baseOffset, snapshot.baseSlots, snapshot.baseVerifier.dataSize⟩,
    snapshot.overlayIndex, snapshot.verification⟩

def get (C : Crates) (file : File) (snapshot : Snapshot) (key : Bytes) :
    Prog SegmentVerifier Stop (Option Bytes) :=
  snapshot.readView.get C file key

def iter (C : Crates) (file : File) (snapshot : Snapshot) :
    Prog SegmentVerifier Stop (List (Except Error (Bytes × Bytes))) :=
  snapshot.readView.iterAll C file snapshot.baseLen

def containsKey (C : Crates) (file : File) (snapshot : Snapshot) (key : Bytes) :
    Prog SegmentVerifier Stop Bool := do
  return (← snapshot.get C file key).isSome

/-- The iterator that `iter` begins with. -/
def entries (C : Crates) (snapshot : Snapshot) (verifier : SegmentVerifier) : RawEntries :=
  RawEntries.new C snapshot.readView verifier.semanticallyVerified snapshot.baseLen

def len (C : Crates) (file : File) (snapshot : Snapshot) : Prog SegmentVerifier Stop Nat := do
  let entries := snapshot.entries C (← Prog.state)
  Entries.tryCount file snapshot.readView entries.bound entries 0

def isEmpty (C : Crates) (file : File) (snapshot : Snapshot) :
    Prog SegmentVerifier Stop Bool := do
  match ← Entries.next file snapshot.readView (snapshot.entries C (← Prog.state)) with
  | (some (.ok _), _) => return false
  | (some (.error error), _) => Prog.stop (.err error)
  | (none, _) => return true

end Snapshot

namespace Database

def snapshot : Db Snapshot := do
  ensureAvailable
  let h ← Prog.state
  Prog.modify fun h => { h with db := { h.db with snapshotGuard := h.db.snapshotGuard + 1 } }
  return ⟨h.db.base.mapping, h.db.options.verification, h.db.base.verifier, h.db.overlay.index,
    h.db.base.offset, h.db.base.slots, h.db.base.len⟩

/-! ### Writing -/

def beginWrite : Db WriteTransaction := do
  ensureWritable
  let db := (← Prog.state).db
  if db.overlay.memory > db.options.overlayMemoryLimit.toNat then
    Prog.stop (.err (.maintenanceRequired db.options.overlayMemoryLimit.toNat db.overlay.memory))
  else return WriteTransaction.new

end Database

/-- The entries of a staged map in the order in which it is iterated, by
reference and by value alike. -/
def stagedEntries (C : Crates) (staged : KeyMap OverlayEntry) : List StagedEntry :=
  C.order (staged.entries.map fun entry => (entry.1, entry.2))

def placeMutations : Nat → List StagedEntry → Res (List MappedRecord)
  | _, [] => .ok []
  | cursor, entry :: rest => do
      let next ← orFail (pastOperation cursor entry) (.other "Overlay operation range overflow")
      return ⟨cursor⟩ :: (← placeMutations next rest)

def mappedMutations (staged : List StagedEntry) (batchOffset : Nat) : Io (List MappedRecord) := do
  let cursor ← Prog.lift (orFail (checkedAdd batchOffset (logHeaderSize + 4))
    (.other "Overlay batch layout overflow"))
  Io.reserve (.fromIo .outOfMemory "could not reserve Overlay entries")
  Prog.lift (placeMutations cursor staged)

def appendBatch (staged : List StagedEntry) (valueChecksums : KeyMap (BitVec 32)) : Io Unit :=
  Io.withBufWriter do
    writeBatchRecordWithChecksums (Io.bufWrite logWriteBufferSize) staged valueChecksums
    Io.flushBuf

namespace Database

def overlaySize : Db Nat := do
  let len ← Db.io Io.len
  Prog.lift (orFail (checkedSub len (← Prog.state).db.base.logStart)
    (.other "Overlay range precedes the active Base"))

/-- The last part of `commit_staged_with`: the batch is durable and enters the
index. -/
def publishBatch (C : Crates) (rollbackOffset : Nat) (staged : List StagedEntry)
    (mutations : List MappedRecord) (overlaySize : Nat) : Db Unit := do
  let h ← Prog.state
  if h.db.overlay.needsMapping h.disk.file overlaySize then
    let mapping ← orRollback rollbackOffset (Db.io (Io.map h.db.base.logStart overlaySize))
    let overlay ← Prog.lift (h.db.overlay.installMapped C h.disk.file mapping mutations)
    Db.setOverlay overlay
  else
    let overlay ← Prog.lift (h.db.overlay.installTail h.disk.file staged mutations)
    Db.setOverlay overlay

/-- `commit_staged_with` with `append_batch`, which is `commit_staged` of a file. -/
def commitStagedWith (C : Crates) (staged : KeyMap OverlayEntry)
    (valueChecksums : KeyMap (BitVec 32)) : Db Unit := do
  ensureWritable
  let staged := stagedEntries C staged
  if staged = [] then pure ()
  else
    let payloadLen ← Prog.lift (batchPayloadLen staged)
    let batchRecordLen ← Prog.lift (orFail (checkedAdd logHeaderSize payloadLen)
      (.fromIo .invalidInput "batch record size overflow"))
    ensureCapacity batchRecordLen
    let rollbackOffset ← Db.io Io.seekEnd
    let batchOffset ← Prog.lift (orFail
      (checkedSub rollbackOffset (← Prog.state).db.base.logStart)
      (.other "Overlay batch offset overflow"))
    let mutations ← Db.io (mappedMutations staged batchOffset)
    orRollback rollbackOffset (Db.io (appendBatch staged valueChecksums))
    orRollback rollbackOffset (Db.io Io.syncData)
    let overlaySize ← orRollback rollbackOffset overlaySize
    publishBatch C rollbackOffset staged mutations overlaySize

/-! ### Installing a published Base -/

def finishSuperblockInstall (installed : Except Error ActiveBase) : Db Unit := do
  match installed with
  | .error error =>
      Db.setState .writePoisoned
      Prog.stop (.err error)
  | .ok base =>
      let _ ← orPoison (Db.io Io.seekEnd)
      Db.setBase base

def installSuperblock (superblock : Superblock) : Db Unit := do
  let installed ← Prog.attempt Stop.error? (Db.io do
    let mapping ← Io.map superblock.baseOffset superblock.baseSize
    Prog.lift (ActiveBase.install (← Prog.state).file mapping superblock))
  finishSuperblockInstall installed

end Database

namespace WriteTransaction

def get (C : Crates) (txn : WriteTransaction) (key : Bytes) : Db (Option Bytes) :=
  match txn.staged.lookup key with
  | some entry => return entry.seen
  | none => Database.get C key

def commit (C : Crates) (txn : WriteTransaction) : Db Unit :=
  Database.commitStagedWith C txn.staged txn.valueChecksums

end WriteTransaction

/-! ## Rules -/

section Rules

open Lkv.Theory.Prog

variable {α : Type} {h h' : Handle} {Q : α → Handle → Prop} {E F : Stop → Handle → Prop}

theorem Db.wp_io {act : Io α} (runs : wp act (fun a d => Q a { h with disk := d })
    (fun e d => E e { h with disk := d }) h.disk) : wp (Db.io act) Q E h :=
  wp_zoom runs

/-- A call on the file and what follows it. -/
theorem Db.wp_io_bind {β : Type} {act : Io α} {k : α → Db β} {R : β → Handle → Prop}
    {A : α → Disk → Prop} {B : Stop → Disk → Prop} (runs : wp act A B h.disk)
    (next : ∀ a d, A a d → wp (k a) R E { h with disk := d })
    (stopped : ∀ e d, B e d → E e { h with disk := d }) : wp (Db.io act >>= k) R E h :=
  wp_bind (Db.wp_io (wp_mono runs next stopped))

theorem Db.wp_orElse {act : Db α} {handle : Error → Db α}
    (runs : wp act Q (fun e h' => match e.error? with
      | some error => wp (handle error) Q E h'
      | none => E e h') h) : wp (Db.orElse act handle) Q E h := by
  unfold Db.orElse
  refine wp_bind (wp_attempt (wp_mono runs (fun a h' post => wp_pure post) fun e h' post => ?_))
  cases select : e.error? with
  | none =>
      rw [select] at post
      exact post
  | some error =>
      rw [select] at post
      exact post

/-- An ignored call: whatever it does to the handle, it goes on. -/
theorem Db.wp_ignore {act : Db α} {R : Handle → Prop} {Q : Unit → Handle → Prop}
    (runs : wp act (fun _ h' => R h') (fun e h' => R h' ∧ ∃ error, e = .err error) h)
    (next : ∀ h', R h' → Q () h') : wp (Db.ignore act) Q E h := by
  refine Db.wp_orElse (wp_bind (wp_mono runs (fun _ h' post => wp_pure (next h' post)) ?_))
  rintro _ h' ⟨post, error, rfl⟩
  exact wp_pure (next h' post)

namespace Database

/-- What `rollback_or_poison` leaves. -/
structure RolledBack (offset : Nat) (h h' : Handle) : Prop where
  db : h'.db = { h.db with state := .writePoisoned }
  issued : ∃ effects, Disk.Issued effects h.disk h'.disk ∧
    (effects = [] ∨ effects = [.setLen offset] ∨ effects = [.setLen offset, .sync])

theorem wp_rollbackOrPoison (offset : Nat) (error : Error) (h : Handle) :
    wp (rollbackOrPoison offset error : Db α) (fun _ _ => False)
      (fun e h' => e = .err error ∧ RolledBack offset h h') h := by
  have rest : ∀ h₁ : Handle, RolledBack offset h h₁ →
      wp (do Db.ignore (Db.io Io.seekEnd); Prog.stop (.err error) : Db α) (fun _ _ => False)
        (fun e h' => e = .err error ∧ RolledBack offset h h') h₁ := by
    rintro h₁ ⟨db, effects, issued, which⟩
    refine wp_bind (@Db.wp_ignore _ _ _ _ (RolledBack offset h) _ ?_ fun h₂ left => ?_)
    · refine Db.wp_io (Io.wp_seekEnd ⟨db, effects, ?_, which⟩ fun failure _ =>
        ⟨⟨db, effects, ?_, which⟩, failure, rfl⟩)
      · simpa using issued.trans (Disk.issued_seek h₁.disk h₁.disk.file.len)
      · simpa using issued.trans (Disk.issued_tick h₁.disk)
    · exact wp_stop ⟨rfl, left⟩
  have cut := Disk.issued_issue h.disk (.setLen offset)
  unfold rollbackOrPoison
  refine wp_bind (wp_modify (wp_bind (Db.wp_orElse (wp_bind (Db.wp_io (Io.wp_setLen ?_ ?_))))))
  · refine @Db.wp_ignore _ _ _ _ (RolledBack offset h) _ ?_ rest
    refine Db.wp_io (Io.wp_syncData ?_ fun failure _ => ⟨?_, failure, rfl⟩)
    · exact ⟨rfl, _, cut.trans (Disk.issued_issue _ .sync), .inr (.inr rfl)⟩
    · exact ⟨rfl, _, cut.trans (Disk.issued_tick _), .inr (.inl rfl)⟩
  · intro failure _
    exact wp_pure (rest _ ⟨rfl, [], Disk.issued_tick h.disk, .inl rfl⟩)

/-- A call that is rolled back when it fails, and what follows it. -/
theorem wp_rollback_bind {β : Type} {offset : Nat} {act : Db α} {k : α → Db β}
    {R : β → Handle → Prop} {A : α → Handle → Prop} {B : Stop → Handle → Prop}
    (runs : wp act A B h) (errs : ∀ e h₁, B e h₁ → ∃ error, e = .err error)
    (next : ∀ a h₁, A a h₁ → wp (k a) R E h₁)
    (broken : ∀ e h₁ h', B e h₁ → RolledBack offset h₁ h' → E e h') :
    wp (orRollback offset act >>= k) R E h := by
  refine wp_bind (Db.wp_orElse (wp_mono runs next fun e h₁ failed => ?_))
  obtain ⟨error, rfl⟩ := errs e h₁ failed
  refine wp_mono (wp_rollbackOrPoison offset error h₁) (fun _ _ => False.elim) ?_
  rintro e h' ⟨rfl, rolled⟩
  exact broken _ h₁ h' failed rolled

theorem wp_rollback_io_bind {β : Type} {offset : Nat} {act : Io α} {k : α → Db β}
    {R : β → Handle → Prop} {A : α → Disk → Prop} {B : Stop → Disk → Prop}
    (runs : wp act A B h.disk) (errs : ∀ e d, B e d → ∃ error, e = .err error)
    (next : ∀ a d, A a d → wp (k a) R E { h with disk := d })
    (broken : ∀ e d h', B e d → RolledBack offset { h with disk := d } h' → E e h') :
    wp (orRollback offset (Db.io act) >>= k) R E h := by
  refine @wp_rollback_bind α h E β offset _ k R (fun a h₁ => ∃ d, A a d ∧ h₁ = { h with disk := d })
    (fun e h₁ => ∃ d, B e d ∧ h₁ = { h with disk := d }) (Db.wp_io (wp_mono runs ?_ ?_)) ?_ ?_ ?_
  · exact fun a d post => ⟨d, post, rfl⟩
  · exact fun e d failed => ⟨d, failed, rfl⟩
  · rintro e _ ⟨d, failed, rfl⟩
    exact errs e d failed
  · rintro a _ ⟨d, post, rfl⟩
    exact next a d post
  · rintro e _ h' ⟨d, failed, rfl⟩ rolled
    exact broken e d h' failed rolled

/-- What is left when a failure only poisons the handle. -/
structure Poisoned (h h' : Handle) : Prop where
  db : h'.db = { h.db with state := .writePoisoned }
  disk : h'.disk = h.disk

theorem wp_poison {act : Io α} {A : α → Disk → Prop} {B : Stop → Disk → Prop}
    (runs : wp act A B h.disk) (errs : ∀ e d, B e d → ∃ error, e = .err error)
    (next : ∀ a d, A a d → Q a { h with disk := d })
    (broken : ∀ e d h', B e d → Poisoned { h with disk := d } h' → E e h') :
    wp (orPoison (Db.io act)) Q E h := by
  refine Db.wp_orElse (Db.wp_io (wp_mono runs next fun e d failed => ?_))
  obtain ⟨error, rfl⟩ := errs e d failed
  exact wp_bind (wp_modify (wp_stop (broken _ d _ failed ⟨rfl, rfl⟩)))

theorem wp_poison_bind {β : Type} {act : Io α} {k : α → Db β} {R : β → Handle → Prop}
    {A : α → Disk → Prop} {B : Stop → Disk → Prop} (runs : wp act A B h.disk)
    (errs : ∀ e d, B e d → ∃ error, e = .err error)
    (next : ∀ a d, A a d → wp (k a) R E { h with disk := d })
    (broken : ∀ e d h', B e d → Poisoned { h with disk := d } h' → E e h') :
    wp (orPoison (Db.io act) >>= k) R E h :=
  wp_bind (wp_poison runs errs next broken)

theorem wp_ensureWritable {Q : Unit → Handle → Prop} (healthy : h.db.state = .healthy → Q () h)
    (refused : h.db.state ≠ .healthy → E (.err .poisoned) h) : wp ensureWritable Q E h := by
  refine wp_bind (wp_state ?_)
  by_cases state : h.db.state = .healthy
  · rw [if_neg (not_not.mpr state)]
    exact wp_pure (healthy state)
  · rw [if_pos state]
    exact wp_stop (refused state)

theorem ensureWritable_run (healthy : h.db.state = .healthy) : ensureWritable h = (.ok (), h) := by
  unfold ensureWritable
  rw [bind_run, state_run]
  exact congrFun (if_neg (not_not_intro healthy)) h

/-- `begin_write` changes nothing and stages nothing. -/
theorem wp_beginWrite (h : Handle) :
    wp beginWrite (fun txn h' => txn = .new ∧ h' = h)
      (fun e h' => (∃ error, e = .err error) ∧ h' = h) h := by
  refine wp_bind (wp_ensureWritable (fun _ => wp_bind (wp_state ?_)) fun _ => ⟨⟨_, rfl⟩, rfl⟩)
  dsimp only
  split
  · exact wp_stop ⟨⟨_, rfl⟩, rfl⟩
  · exact wp_pure ⟨rfl, rfl⟩

theorem beginWrite_run (healthy : h.db.state = .healthy) :
    beginWrite h = (if h.db.overlay.memory > h.db.options.overlayMemoryLimit.toNat then
      .error (.err (.maintenanceRequired h.db.options.overlayMemoryLimit.toNat h.db.overlay.memory))
    else .ok WriteTransaction.new, h) := by
  unfold beginWrite
  rw [bind_ok (ensureWritable_run healthy), bind_run, state_run]
  dsimp only
  split
  · rfl
  · rfl

theorem wp_ensureAvailable {Q : Unit → Handle → Prop}
    (available : h.db.state ≠ .unavailable → Q () h)
    (refused : h.db.state = .unavailable → E (.err .poisoned) h) : wp ensureAvailable Q E h := by
  refine wp_bind (wp_state ?_)
  by_cases state : h.db.state = .unavailable
  · rw [if_pos state]
    exact wp_stop (refused state)
  · rw [if_neg state]
    exact wp_pure (available state)

/-- The checks of `ensure_capacity`, given the length of the storage. -/
def capacity (limit len additional : Nat) : Res Unit := do
  let required ← orFail (checkedAdd len additional) (.databaseFullFor limit (2 ^ 64 - 1))
  if required > limit then fail (.databaseFullFor limit required) else return ()

theorem capacity_eq_ok {limit len additional : Nat} (word : limit < 2 ^ 64) :
    capacity limit len additional = .ok () ↔ len + additional ≤ limit := by
  unfold capacity
  by_cases fits : len + additional < 2 ^ 64
  · rw [checkedAdd_some fits]
    show (if len + additional > limit then _ else _) = _ ↔ _
    split
    · rename_i excess
      exact ⟨nofun, fun room => absurd room (by omega)⟩
    · exact ⟨fun _ => by omega, fun _ => rfl⟩
  · rw [show checkedAdd len additional = none from if_neg fits]
    exact ⟨nofun, fun room => absurd room (by omega)⟩

/-- Capacity is refused with an error. -/
theorem capacity_cases (limit len additional : Nat) : capacity limit len additional = .ok () ∨
    ∃ error, capacity limit len additional = fail error ∧ error.TooLarge := by
  unfold capacity
  cases checkedAdd len additional with
  | none => exact .inr ⟨_, rfl, trivial⟩
  | some required =>
      show (if required > limit then _ else _) = _ ∨
        ∃ error, (if required > limit then _ else _) = _ ∧ _
      split
      · exact .inr ⟨_, rfl, trivial⟩
      · exact .inl rfl

/-- Capacity is granted up to the limit, and refused with an error beyond it or when a
call fails. -/
theorem wp_ensureCapacity {Q : Unit → Handle → Prop} {additional : Nat}
    (granted : h.disk.file.len + additional ≤ h.db.options.maxDatabaseBytes.toNat →
      Q () { h with disk := h.disk.tick })
    (refused : ∀ error, ¬h.disk.Quiet ∨
      capacity h.db.options.maxDatabaseBytes.toNat h.disk.file.len additional = fail error →
      E (.err error) { h with disk := h.disk.tick }) :
    wp (ensureCapacity additional) Q E h := by
  have word := h.db.options.maxDatabaseBytes.toNat_lt
  refine wp_bind (Db.wp_io (Io.wp_len ?_ fun error due => refused error (.inl due)))
  refine wp_bind (wp_state ?_)
  have rest : (do
      let required ← Prog.lift (orFail (checkedAdd h.disk.file.len additional)
        (.databaseFullFor h.db.options.maxDatabaseBytes.toNat (2 ^ 64 - 1)))
      if required > h.db.options.maxDatabaseBytes.toNat then
        Prog.stop (.err (.databaseFullFor h.db.options.maxDatabaseBytes.toNat required))
      else pure () : Db Unit) =
      Prog.lift (capacity h.db.options.maxDatabaseBytes.toNat h.disk.file.len additional) := by
    funext g
    unfold capacity
    cases checkedAdd h.disk.file.len additional with
    | none => rfl
    | some required =>
        show (if required > _ then _ else _ : Db Unit) g =
          Prog.lift (if required > _ then _ else _ : Res Unit) g
        split <;> rfl
  dsimp only at rest ⊢
  rw [rest]
  rcases capacity_cases h.db.options.maxDatabaseBytes.toNat h.disk.file.len additional with
    room | ⟨error, full, -⟩
  · exact wp_lift (fun _ _ => granted ((capacity_eq_ok word).mp room)) fun _ stopped =>
      absurd (room.symm.trans stopped) nofun
  · refine wp_lift (fun _ ran => absurd (full.symm.trans ran) nofun) fun _ stopped => ?_
    cases full.symm.trans stopped
    exact refused error (.inr full)

end Database

end Rules

end Lkv
