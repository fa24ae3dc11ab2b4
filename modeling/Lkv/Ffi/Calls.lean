/-
# Lkv.Ffi.Calls — the functions of the C interface

The second part of `ffi.rs`.  A database behind the interface is a `RwLock<Database>`: a panic
while it is held for writing poisons the lock, and from then on no call gets through to the
database.

The functions are the same for a file and for a memory database; what they use of it is an
`Engine`.  Reading goes through the code that both storages share, staging a value may fail for
want of memory, and committing and compacting are each storage's own.

A callback that is handed the entries may itself call the interface.  What it does to the memory
of its caller is its own affair, and `LAST_ERROR` is what those calls leave; calls back on the
database that is being visited are left out.
-/
import Lkv.Database.MemoryDatabase
import Lkv.Database.Transacting
import Lkv.Ffi.Boundary

namespace Lkv.Ffi
open Lkv.Theory

set_option autoImplicit false

/-! ## Databases -/

/-- What the functions of the interface use of a database. -/
structure Engine (σ : Type) where
  /-- The part that is written once for both storages, as a handle. -/
  handle : σ → Handle
  setHandle : Handle → σ → σ
  /-- What will come of the next calls of the system and allocations. -/
  faults : σ → List Fault
  setFaults : List Fault → σ → σ
  memory : Bool
  commit : WriteTransaction → Prog σ Stop Unit
  compact : Prog σ Stop Unit

inductive Backend where
  | file
  | memory
  deriving DecidableEq, Repr

def Backend.Database : Backend → Type
  | .file => Handle
  | .memory => MemoryDatabase

def fileEngine (C : Crates) : Engine Handle where
  handle := id
  setHandle h _ := h
  faults h := h.disk.faults
  setFaults faults h := { h with disk := { h.disk with faults := faults } }
  memory := false
  commit txn := txn.commit C
  compact := Database.compact C

def memoryEngine (C : Crates) : Engine MemoryDatabase where
  handle := MemoryDatabase.handle
  setHandle h m := { m with db := h.db }
  faults m := m.ram.memory.faults
  setFaults faults m := m.afresh faults
  memory := true
  commit txn := MemoryDatabase.commitStagedMemory C txn.staged
  compact := MemoryDatabase.compact C

def engine (C : Crates) : (backend : Backend) → Engine backend.Database
  | .file => fileEngine C
  | .memory => memoryEngine C

namespace Engine

variable {σ α : Type} (E : Engine σ)

def shared (act : Db α) : Prog σ Stop α := Prog.zoom E.handle E.setHandle act

/-- A call on a transaction of this database. -/
def stage (call : TxCall) (txn : WriteTransaction) : Prog σ Stop WriteTransaction := fun s =>
  match call.run E.memory ⟨txn, E.faults s⟩ with
  | (.ok (), t) => (.ok t.txn, E.setFaults t.faults s)
  | (.error e, t) => (.error e, E.setFaults t.faults s)

/-- Calls on a transaction, up to the first that fails. -/
def stageAll : List TxCall → WriteTransaction → Prog σ Stop WriteTransaction
  | [], txn => pure txn
  | call :: rest, txn => do stageAll rest (← E.stage call txn)

/-- `begin_write`, these calls, and `commit`. -/
def transact (calls : List TxCall) : Prog σ Stop Unit := do
  let txn ← E.shared Database.beginWrite
  E.commit (← E.stageAll calls txn)

end Engine

/-- `lkv_database`: a lock around the database. -/
structure LkvDatabase (σ : Type) where
  inner : σ
  poisoned : Bool

section Bodies

variable {σ δ ω α : Type}

def onOut (act : Prog ω FfiStop α) : Body δ ω α :=
  Prog.zoom Frame.out (fun out frame => { frame with out := out }) act

/-- A call of the library, whose errors are passed on. -/
def onObject (act : Prog δ Stop α) : Body δ ω α :=
  Prog.zoom Frame.object (fun object frame => { frame with object := object })
    (Prog.recast FfiStop.ofStop act)

def onDatabase (act : Prog σ Stop α) : Body (LkvDatabase σ) ω α :=
  onObject (Prog.zoom LkvDatabase.inner (fun inner database => { database with inner := inner }) act)

def lock : Body (LkvDatabase σ) ω Unit := do
  if (← Prog.state).object.poisoned then
    Prog.stop (.error (.new .panic "database lock was poisoned by a previous panic"))
  else pure ()

def readDatabase : Body (LkvDatabase σ) ω Unit := lock

/-- `write_database` and what is done while its guard is held: a panic in there poisons the
lock. -/
def writeDatabase (body : Body (LkvDatabase σ) ω Unit) : Body (LkvDatabase σ) ω Unit := do
  lock
  match ← Prog.attempt FfiStop.panic? body with
  | .ok () => pure ()
  | .error message =>
      Prog.modify fun frame => { frame with object := { frame.object with poisoned := true } }
      Prog.stop (.panic message)

end Bodies

/-! ## Opening -/

section Opening

variable {δ σ : Type}

/-- Open with these options and hand the database out. -/
def handOut (options : Option LkvOptions) (make : DatabaseOptions → Prog δ Stop σ) :
    Body δ (Option (LkvDatabase σ)) Unit := do
  let options ← Prog.lift (decodeOptions options)
  assign (some ⟨← onObject (make options), false⟩)

def clearOutput (output : Pointer) : Body δ (Option (LkvDatabase σ)) Unit := do
  Prog.lift (requiredMut output "output")
  assign none

/-- The handle of a database that was opened on this disk. -/
def asHandle (act : Io Database) : Io Handle := do
  let db ← act
  return ⟨db, ← Prog.state⟩

def lkvDatabaseOpen (C : Crates) (path : Option Bytes) (options : Option LkvOptions)
    (output : Pointer) : CFunction Disk (Option (LkvDatabase Handle)) := ffiCall do
  clearOutput output
  Prog.lift (requiredPath path)
  handOut options fun options => asHandle (openWithOptions C options)

def lkvDatabaseCreate (C : Crates) (path : Option Bytes) (options : Option LkvOptions)
    (output : Pointer) : CFunction Disk (Option (LkvDatabase Handle)) := ffiCall do
  clearOutput output
  Prog.lift (requiredPath path)
  handOut options fun options => asHandle (createWithOptions C options)

def lkvDatabaseOpenMemory (C : Crates) (options : Option LkvOptions) (output : Pointer) :
    CFunction Ram (Option (LkvDatabase MemoryDatabase)) := ffiCall do
  clearOutput output
  handOut options fun options => do
    let db ← memoryWithOptions C options
    return ⟨db, ← Prog.state⟩

end Opening

/-! ## Reading and maintenance -/

/-- What a callback works on: the memory that `context` points to, and `LAST_ERROR`. -/
structure Context (ω : Type) where
  memory : ω
  lastError : Bytes

/-- A callback of the caller.  The calls of the interface that it makes leave one C string in
`LAST_ERROR`. -/
structure Visitor (ω : Type) where
  run : Bytes → Bytes → Context ω → Int × Context ω
  string : ∀ key value context, IsCString context.lastError →
    IsCString (run key value context).2.lastError

def requiredVisitor {ω : Type} (visitor : Option (Visitor ω)) : FfiResult (Visitor ω) :=
  match visitor with
  | none => invalid "visitor must not be NULL"
  | some visitor => .ok visitor

def callBack {δ ω : Type} (visitor : Visitor ω) (key value : Bytes) : Body δ ω Int := fun frame =>
  match visitor.run key value ⟨frame.out, frame.lastError⟩ with
  | (answer, context) => (.ok answer, ⟨frame.object, context.memory, context.lastError⟩)

/-- The loop of the two `visit` functions: it ends with the entries, with the first error, or
when the callback answers zero. -/
def visitEntries {δ ω : Type} (visitor : Visitor ω)
    (next : RawEntries → Body δ ω (Option (Except Error Entry) × RawEntries)) :
    Nat → RawEntries → Body δ ω Unit
  | 0, _ => Prog.stop .diverge
  | fuel + 1, entries => do
      match ← next entries with
      | (none, _) => pure ()
      | (some (.error error), _) => Prog.stop (.error (.ofError error))
      | (some (.ok (key, value)), entries) =>
          if (← callBack visitor key value) = 0 then pure ()
          else visitEntries visitor next fuel entries

/-- `iter()`: the view and the iterator over it, before the first `next`. -/
def iterDatabase (C : Crates) : Db (ReadView × RawEntries) := do
  Database.ensureAvailable
  let db := (← Prog.state).db
  return (db.readView, db.iterRaw C)

def nextEntry (view : ReadView) (entries : RawEntries) :
    Db (Option (Except Error Entry) × RawEntries) := do
  Db.verifying (Entries.next (← Prog.state).disk.file view entries)

section Database

variable {σ ω : Type} (C : Crates) (E : Engine σ)

def lkvDatabaseGet (database : Pointer) (key : Option Bytes) (keyLen valueCapacity : Nat)
    (valueLen : Pointer) : CFunction (LkvDatabase σ) Copied := ffiCall do
  Prog.lift (requiredRef database "database")
  let key ← Prog.lift (inputBytes key keyLen "key")
  Prog.lift (requiredMut valueLen "value_len")
  readDatabase
  onOut (copyValue (← onDatabase (E.shared (Database.get C key))) valueCapacity)

def lkvDatabaseGetRef (database : Pointer) (key : Option Bytes) (keyLen : Nat)
    (value valueLen : Pointer) : CFunction (LkvDatabase σ) Borrowed := ffiCall do
  Prog.lift (requiredRef database "database")
  let key ← Prog.lift (inputBytes key keyLen "key")
  Prog.lift (requiredMut value "value")
  Prog.lift (requiredMut valueLen "value_len")
  readDatabase
  onOut (borrowValue (← onDatabase (E.shared (Database.get C key))))

def lkvDatabaseLen (database output : Pointer) : CFunction (LkvDatabase σ) Nat := ffiCall do
  Prog.lift (requiredRef database "database")
  Prog.lift (requiredMut output "output")
  readDatabase
  assign (← onDatabase (E.shared (Database.len C)))

/-- The C record of the statistics has the same fields. -/
def lkvDatabaseGetStats (database output : Pointer) :
    CFunction (LkvDatabase σ) DatabaseStats := ffiCall do
  Prog.lift (requiredRef database "database")
  Prog.lift (requiredMut output "output")
  readDatabase
  assign (← onDatabase (E.shared Database.stats))

def lkvDatabaseSync (database : Pointer) : CFunction (LkvDatabase σ) Unit := ffiCall do
  Prog.lift (requiredRef database "database")
  readDatabase
  onDatabase (E.shared Database.sync)

def lkvDatabaseVerify (database : Pointer) : CFunction (LkvDatabase σ) Unit := ffiCall do
  Prog.lift (requiredRef database "database")
  readDatabase
  onDatabase (E.shared (Database.verify C))

def lkvDatabaseCompact (database : Pointer) : CFunction (LkvDatabase σ) Unit := ffiCall do
  Prog.lift (requiredRef database "database")
  writeDatabase (onDatabase E.compact)

def lkvDatabaseVisit (database : Pointer) (visitor : Option (Visitor ω)) :
    CFunction (LkvDatabase σ) ω := ffiCall do
  Prog.lift (requiredRef database "database")
  let visitor ← Prog.lift (requiredVisitor visitor)
  readDatabase
  let (view, entries) ← onDatabase (E.shared (iterDatabase C))
  visitEntries visitor (fun entries => onDatabase (E.shared (nextEntry view entries))) entries.bound
    entries

end Database

/-! ## Snapshots -/

section Snapshot

variable {σ ω : Type} (C : Crates) (E : Engine σ)

def lkvSnapshotCreate (database output : Pointer) :
    CFunction (LkvDatabase σ) (Option Snapshot) := ffiCall do
  Prog.lift (requiredRef database "database")
  Prog.lift (requiredMut output "output")
  assign none
  readDatabase
  assign (some (← onDatabase (E.shared Database.snapshot)))

/-- A snapshot that is dropped gives its share of the guard back. -/
def lkvSnapshotClose (snapshot : Pointer) : CFunction (LkvDatabase σ) Unit := ffiCall do
  match snapshot with
  | .null => pure ()
  | .valid => onDatabase (E.shared (Prog.modify fun h =>
      { h with db := { h.db with snapshotGuard := h.db.snapshotGuard - 1 } }))

def requiredSnapshot (snapshot : Option Snapshot) : FfiResult Snapshot :=
  match snapshot with
  | none => invalid "snapshot must not be NULL"
  | some snapshot => .ok snapshot

def lkvSnapshotGet (file : File) (snapshot : Option Snapshot) (key : Option Bytes)
    (keyLen valueCapacity : Nat) (valueLen : Pointer) : CFunction SegmentVerifier Copied :=
  ffiCall do
    let snapshot ← Prog.lift (requiredSnapshot snapshot)
    let key ← Prog.lift (inputBytes key keyLen "key")
    Prog.lift (requiredMut valueLen "value_len")
    onOut (copyValue (← onObject (snapshot.get C file key)) valueCapacity)

def lkvSnapshotGetRef (file : File) (snapshot : Option Snapshot) (key : Option Bytes) (keyLen : Nat)
    (value valueLen : Pointer) : CFunction SegmentVerifier Borrowed := ffiCall do
  let snapshot ← Prog.lift (requiredSnapshot snapshot)
  let key ← Prog.lift (inputBytes key keyLen "key")
  Prog.lift (requiredMut value "value")
  Prog.lift (requiredMut valueLen "value_len")
  onOut (borrowValue (← onObject (snapshot.get C file key)))

def lkvSnapshotVisit (file : File) (snapshot : Option Snapshot) (visitor : Option (Visitor ω)) :
    CFunction SegmentVerifier ω := ffiCall do
  let snapshot ← Prog.lift (requiredSnapshot snapshot)
  let visitor ← Prog.lift (requiredVisitor visitor)
  let entries := snapshot.entries C (← Prog.state).object
  visitEntries visitor (fun entries => onObject (Entries.next file snapshot.readView entries))
    entries.bound entries

end Snapshot

/-! ## Writing -/

/-- `lkv_write_batch`: the operation to come on each key. -/
structure LkvWriteBatch where
  entries : KeyMap (Option Bytes)

namespace LkvWriteBatch

def new : LkvWriteBatch := ⟨∅⟩

/-- The calls by which a batch is staged, in the order in which its table is iterated. -/
def calls (C : Crates) (batch : LkvWriteBatch) : List TxCall :=
  (C.order (batch.entries.entries.map fun entry => (entry.1, entry.2))).map fun entry =>
    match entry.2 with
    | some value => .put entry.1 value
    | none => .delete entry.1

end LkvWriteBatch

section Write

variable {σ : Type} (C : Crates) (E : Engine σ)

def onBatch (change : LkvWriteBatch → LkvWriteBatch) : Body LkvWriteBatch Unit Unit :=
  Prog.modify fun frame => { frame with object := change frame.object }

def lkvDatabasePut (database : Pointer) (key : Option Bytes) (keyLen : Nat) (value : Option Bytes)
    (valueLen : Nat) : CFunction (LkvDatabase σ) Unit := ffiCall do
  Prog.lift (requiredRef database "database")
  let key ← Prog.lift (inputBytes key keyLen "key")
  let value ← Prog.lift (inputBytes value valueLen "value")
  writeDatabase (onDatabase (E.transact [.put key value]))

def lkvDatabaseDelete (database : Pointer) (key : Option Bytes) (keyLen : Nat) :
    CFunction (LkvDatabase σ) Unit := ffiCall do
  Prog.lift (requiredRef database "database")
  let key ← Prog.lift (inputBytes key keyLen "key")
  writeDatabase (onDatabase (E.transact [.delete key]))

def lkvWriteBatchCreate (output : Pointer) : CFunction LkvWriteBatch Unit := ffiCall do
  Prog.lift (requiredMut output "output")
  onBatch fun _ => .new

def lkvWriteBatchClear (batch : Pointer) : CFunction LkvWriteBatch Unit := ffiCall do
  Prog.lift (requiredMut batch "batch")
  onBatch fun _ => .new

def lkvWriteBatchLen (batch output : Pointer) : CFunction LkvWriteBatch Nat := ffiCall do
  Prog.lift (requiredRef batch "batch")
  Prog.lift (requiredMut output "output")
  assign (← Prog.state).object.entries.entries.length

def lkvWriteBatchPut (batch : Pointer) (key : Option Bytes) (keyLen : Nat) (value : Option Bytes)
    (valueLen : Nat) : CFunction LkvWriteBatch Unit := ffiCall do
  Prog.lift (requiredMut batch "batch")
  let key ← Prog.lift (inputBytes key keyLen "key")
  let value ← Prog.lift (inputBytes value valueLen "value")
  onBatch fun batch => ⟨batch.entries.insert key (some value)⟩

def lkvWriteBatchDelete (batch : Pointer) (key : Option Bytes) (keyLen : Nat) :
    CFunction LkvWriteBatch Unit := ffiCall do
  Prog.lift (requiredMut batch "batch")
  let key ← Prog.lift (inputBytes key keyLen "key")
  onBatch fun batch => ⟨batch.entries.insert key none⟩

/-- The batch is emptied only after its commit. -/
def lkvDatabaseCommitWriteBatch (database batch : Pointer) :
    CFunction (LkvDatabase σ) LkvWriteBatch := ffiCall do
  Prog.lift (requiredRef database "database")
  Prog.lift (requiredMut batch "batch")
  writeDatabase do
    onDatabase (E.transact ((← Prog.state).out.calls C))
    assign .new

end Write

end Lkv.Ffi
