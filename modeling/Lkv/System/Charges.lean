/-
# Lkv.System.Charges — the memory charge along whole runs

`begin_write` asks for maintenance when the charge of the overlay is above a limit, so the charge
must be what it stands for in every state that a run can reach.  It is (`Reach.charge`,
`MemoryRun.charge`), and no subtraction on the way there saturates: not where a commit installs
its batch (`Installs`), not where the recovery replaces an operation (`ScanVisits.within`), not
where an owned entry is set.

The charge of a file database is a function of its log, so closing and opening it again does not
change the answer of `begin_write` (`Healthy.reopen_charge`).
-/
import Lkv.System.Indexing
import Lkv.System.MemoryLifecycle

namespace Lkv
open Lkv.Theory Lkv.Theory.Prog Dictionary

set_option autoImplicit false

/-- `begin_write` returns `MaintenanceRequired`. -/
def Handle.NeedsMaintenance (h : Handle) : Prop :=
  ∃ limit size, (Database.beginWrite h).1 = .error (.err (.maintenanceRequired limit size))

theorem Handle.needsMaintenance_iff {h : Handle} (healthy : h.db.state = .healthy) :
    h.NeedsMaintenance ↔ h.db.options.overlayMemoryLimit.toNat < h.db.overlay.memory := by
  unfold Handle.NeedsMaintenance
  rw [Database.beginWrite_run healthy]
  dsimp only
  split
  · rename_i heavy
    exact ⟨fun _ => heavy, fun _ => ⟨_, _, rfl⟩⟩
  · rename_i light
    refine ⟨?_, fun heavy => absurd heavy light⟩
    rintro ⟨limit, size, refused⟩
    cases refused

/-! ## Files -/

section File

variable {C : Crates} {c : Contents C} {limit : UInt64} {h : Handle} {m : Bytes → Option Bytes}
variable {maps : List (Bytes → Option Bytes)}

/-- The charge of a handle is the sum that `memory_charge` computes, and that of the operations
which the index shows: the length of the key, and that of a value below the threshold. -/
theorem Reach.charge (reach : Reach C limit (.opened h m maps)) :
    h.db.overlay.index.memoryCharge h.disk.file = .ok h.db.overlay.memory ∧
      ∃ ops, h.db.overlay.index.Decodes h.disk.file ops ∧ Distinct ops ∧
        h.db.overlay.memory = (ops.map MappedRecord.charge).sum := by
  obtain ⟨log, ops, index, front, charged⟩ := Handle.Indexes.overlay reach.indexes
  have held : h.disk.file.Holds h.db.base.logStart log := by
    obtain ⟨rest, whole⟩ := front
    have all := h.disk.file.holds_slice h.db.base.logStart (h.disk.file.len - h.db.base.logStart)
    rw [← Handle.log, ← whole] at all
    exact (File.holds_append.mp all).1
  refine ⟨?_, ops, index.decodes held, index.distinct, charged⟩
  rw [index.memoryCharge held, charged]

/-- Opening the file of a healthy handle again gives the same charge. -/
theorem Contents.Healthy.reopen_charge (healthy : c.Healthy h) {options : DatabaseOptions}
    {db : Database} {d : Disk} (same : options.maxDatabaseBytes = h.db.options.maxDatabaseBytes)
    (enough : minDatabaseBytes ≤ options.maxDatabaseBytes.toNat)
    (ran : openWithOptions C options (Disk.ofFile h.disk.file []) = (.ok db, d)) :
    db.overlay.memory = h.db.overlay.memory ∧ db.options = options ∧ db.state = .healthy := by
  obtain ⟨db', d', opened, reopened, optionsIs, -⟩ :=
    open_image healthy.image enough (same ▸ healthy.room)
  cases ran.symm.trans opened
  obtain ⟨ops, index, latestIs, charge⟩ := healthy.serves.overlay
  obtain ⟨ops', index', latestIs', charge'⟩ := reopened.serves.overlay
  refine ⟨?_, optionsIs, reopened.state⟩
  show (Handle.mk db d).db.overlay.memory = _
  rw [charge, charge']
  exact OverlayMap.chargeOf_latest index'.distinct index.distinct fun key => (latestIs' key).trans (latestIs key).symm

/-- A commit that returns installs its batch, and takes off no more than is charged. -/
theorem Reach.installs (reach : Reach C limit (.opened h m maps)) {txn : WriteTransaction}
    {ops : List Operation} {faults : List Fault} {h' : Handle} (staging : Staging false txn ops)
    (something : stagedEntries C txn.staged ≠ [])
    (ran : Database.commitStagedWith C txn.staged txn.valueChecksums (h.afresh faults) = (.ok (), h')) :
    Installs C (stagedEntries C txn.staged) h h'.disk.file h'.db.overlay := by
  rcases (reach.holds.1.afresh faults).cases with ⟨c, -, -, healthy⟩ | poisoned
  · obtain ⟨nothing, -⟩ | ⟨batch, -, ⟨-, installs⟩, -⟩ :=
      wp_ok (wp_commitStagedWith healthy ⟨ops, staging.coherent⟩) ran
    · exact absurd nothing something
    · exact installs
  · rw [commit_poisoned poisoned] at ran
    cases ran

end File

/-! ## Memory -/

section Memory

variable {C : Crates} {c : Contents C} {options : DatabaseOptions} {m : MemoryDatabase}
variable {map : Bytes → Option Bytes}

theorem MemoryRun.charge (run : MemoryRun C options m map) :
    m.db.overlay.index.memoryCharge m.storage.file = .ok m.db.overlay.memory := by
  obtain ⟨-, c, resides, -⟩ := run.resides
  obtain ⟨table, owns⟩ := resides.overlay
  rw [owns.is]
  rfl

/-- Each entry of a commit that is admitted replaces one that was charged for. -/
theorem Contents.Resides.replaces (resides : c.Resides m) {txn : WriteTransaction} {n : Nat}
    {done rest : List StagedEntry} {entry : StagedEntry} {m₁ m₂ : MemoryDatabase}
    (admits : admitted m.db.options.maxDatabaseBytes.toNat m.storage.len (stagedEntries C txn.staged) =
      .ok n)
    (split : stagedEntries C txn.staged = done ++ entry :: rest) (db : m₁.db = m.db)
    (ran : MemoryDatabase.setOverlayEntries done m₁ = (.ok (), m₂)) :
    ∃ index previous, m₂.db.overlay.index.setMemory entry.1 entry.2 = .ok (index, previous) ∧
      previousCharge entry.1 previous ≤ m₂.db.overlay.memory := by
  obtain ⟨table, owns⟩ := resides.overlay
  -- The batch and the log fit into the storage, and both are at least as long as they are charged.
  have light : ownedCharge (stagedEntries C txn.staged) ≤ n ∧
      m.storage.len + n ≤ m.db.options.maxDatabaseBytes.toNat := by
    unfold admitted at admits
    simp only [bind_eq_ok] at admits
    obtain ⟨payloadLen, accepted, batchLen, sum, _, room, nIs⟩ := admits
    cases nIs
    have := (Database.capacity_eq_ok m.db.options.maxDatabaseBytes.toNat_lt).mp room
    obtain ⟨rfl, -⟩ := checkedAdd_eq_some_iff.mp (orFail_eq_ok.mp sum)
    have bytes := ownedCharge_le (stagedEntries C txn.staged)
    rw [encodeBatch_length, ← (batchPayloadLen_eq_ok.mp accepted).2.1] at bytes
    exact ⟨bytes, this⟩
  have inside : ownedCharge table ≤ m.storage.len := by
    rw [resides.len]
    exact owns.light.trans (Nat.le_add_left _ _)
  have word := m.db.options.maxDatabaseBytes.toNat_lt
  have parts : ownedCharge done ≤ ownedCharge (stagedEntries C txn.staged) := by
    rw [split, ownedCharge_append]
    exact Nat.le_add_right _ _
  obtain ⟨table', ran', distinct', -, -⟩ := @MemoryDatabase.setOverlayEntries_run m₁ done table
    (by rw [db]; exact owns.is) owns.distinct (by omega)
  cases ran.symm.trans ran'
  obtain ⟨table2, previous, set, sets⟩ := setMemory_spec distinct' entry
  exact ⟨_, previous, set, sets.within⟩

end Memory

/-! ## The charge is exact and stable -/

/-- In every run of a file database and of a memory database the charge of the overlay is the sum
over the entries of the index, for a file that of the key lengths and of the value lengths below
the threshold.  Where a commit or the recovery or a `set` takes a replaced entry off the charge, it
takes off no more than there is.  A file database that is closed healthy and opened again has the
charge it had, so with the same limit `begin_write` asks for maintenance afterwards iff it did
before. -/
theorem overlay_charge_exact_and_stable (C : Crates) :
    (∀ (limit : UInt64) (h : Handle) (m : Bytes → Option Bytes) (maps : List (Bytes → Option Bytes)),
      Reach C limit (.opened h m maps) →
      (h.db.overlay.index.memoryCharge h.disk.file = .ok h.db.overlay.memory ∧
        ∃ ops, h.db.overlay.index.Decodes h.disk.file ops ∧ Distinct ops ∧
          h.db.overlay.memory = (ops.map MappedRecord.charge).sum) ∧
      (∀ txn ops faults h', Staging false txn ops → stagedEntries C txn.staged ≠ [] →
        Database.commitStagedWith C txn.staged txn.valueChecksums (h.afresh faults) = (.ok (), h') →
        Installs C (stagedEntries C txn.staged) h h'.disk.file h'.db.overlay) ∧
      (h.db.state = .healthy → ∀ options db d, options.maxDatabaseBytes = limit →
        openWithOptions C options (Disk.ofFile h.disk.file []) = (.ok db, d) →
        db.overlay.memory = h.db.overlay.memory ∧
          (options.overlayMemoryLimit = h.db.options.overlayMemoryLimit →
            (Handle.NeedsMaintenance ⟨db, d⟩ ↔ h.NeedsMaintenance)))) ∧
    (∀ (file : File) (mapping : BaseBytes) (mappingOffset offset headerEnd recordEnd n cursor next removed
          added : Nat) (scan scan' : ScanState) (payload count : Bytes) (record : MappedRecord)
        (index : OverlayMap),
      (mapping.deref file).length < 2 ^ 63 → mappingOffset + (mapping.deref file).length < 2 ^ 64 →
      ScanVisits file mapping mappingOffset offset scan →
      readRecord (mapping.deref file) mappingOffset offset = .ok (.batch payload headerEnd recordEnd) →
      getRange payload 0 4 = some count →
      applyOperations file payload headerEnd n 4 scan = .ok (cursor, scan') →
      readOperation payload headerEnd cursor = .ok (record, next) →
      scan'.index.installRecovered file record = .ok (index, removed, added) →
      removed ≤ scan'.memory) ∧
    ∀ (options : DatabaseOptions) (m : MemoryDatabase) (map : Bytes → Option Bytes),
      MemoryRun C options m map →
      m.db.overlay.index.memoryCharge m.storage.file = .ok m.db.overlay.memory ∧
      ∀ (txn : WriteTransaction) (n : Nat) (done : List StagedEntry) (entry : StagedEntry)
        (rest : List StagedEntry) (m₁ m₂ : MemoryDatabase),
        admitted options.maxDatabaseBytes.toNat m.storage.len (stagedEntries C txn.staged) = .ok n →
        stagedEntries C txn.staged = done ++ entry :: rest → m₁.db = m.db →
        MemoryDatabase.setOverlayEntries done m₁ = (.ok (), m₂) →
        ∃ index previous, m₂.db.overlay.index.setMemory entry.1 entry.2 = .ok (index, previous) ∧
          previousCharge entry.1 previous ≤ m₂.db.overlay.memory := by
  refine ⟨fun limit h m maps reach => ⟨reach.charge, ?_, ?_⟩, ?_, fun options m map run => ⟨run.charge, ?_⟩⟩
  · intro txn ops faults h' staging something ran
    exact reach.installs staging something ran
  · intro state options db d same ran
    obtain ⟨holding, limitIs⟩ := reach.holds
    obtain ⟨c, -, -, healthy⟩ := holding.cases.resolve_right (not_not_intro state)
    obtain ⟨charge, optionsIs, reopened⟩ := healthy.reopen_charge (same.trans limitIs.symm)
      (same ▸ reach.enough) ran
    refine ⟨charge, fun sameLimit => ?_⟩
    rw [Handle.needsMaintenance_iff state, Handle.needsMaintenance_iff reopened, charge, optionsIs,
      sameLimit]
  · intro file mapping mappingOffset offset headerEnd recordEnd n cursor next removed added scan scan'
      payload count record index slice word visits read counted applied here installed
    exact visits.within slice word read counted applied here installed
  · intro txn n done entry rest m₁ m₂ admits split db ran
    obtain ⟨optionsIs, c, resides, -⟩ := run.resides
    rw [← optionsIs] at admits
    exact resides.replaces admits split db ran

/-- After a first commit: the charge is two, also after opening again. -/
theorem overlay_charge_exact_and_stable_put :
    ∃ h m db d, Reach zeroHash DatabaseOptions.default.maxDatabaseBytes (.opened h m [m]) ∧
      openWithOptions zeroHash .default (Disk.ofFile h.disk.file []) = (.ok db, d) ∧
      h.db.overlay.index.memoryCharge h.disk.file = .ok 2 ∧ db.overlay.memory = 2 := by
  obtain ⟨h, batch, opsIs, healthy, -, optionsIs, reach, -⟩ := reach_put
  obtain ⟨db, d, ran, -⟩ := @open_image zeroHash _ _ .default _ healthy.image (by decide)
    (optionsIs ▸ healthy.room)
  obtain ⟨⟨charge, -⟩, -, stable⟩ := (overlay_charge_exact_and_stable zeroHash).1 _ h _ _ reach
  obtain ⟨same, -⟩ := stable healthy.state .default db d rfl ran
  obtain ⟨ops, index, latestIs, memory⟩ := healthy.serves.overlay
  have two : h.db.overlay.memory = 2 := by
    have batches : logOps ((emptyContents zeroHash).commit batch).batches = batch.ops :=
      List.append_nil _
    rw [memory, OverlayMap.chargeOf_latest index.distinct batch.distinct
      fun key => (latestIs key).trans (by rw [batches]), opsIs]
    rfl
  rw [two] at charge same
  exact ⟨h, _, db, d, reach, ran, charge, same⟩

end Lkv
