/-
# Lkv.System.Commit — a commit on a healthy handle

A commit that returns has appended one batch and synced it; the handle is healthy on
the contents with that batch (`Committed`).  A commit that fails was either refused
before it wrote anything (`Refused`), or it was rolled back (`CommitBroken`): then what
the handle keeps in memory is as before, it no longer writes, and behind the log there
is nothing or a front part of the record (`wp_commitStagedWith`).
-/
import Lkv.Database.Staging
import Lkv.System.Lifecycle

namespace Lkv
open Lkv.Theory Lkv.Theory.Prog Dictionary

set_option autoImplicit false

/-! ## Placing the operations of a batch -/

/-- Each operation gets the offset at which it will lie in the log. -/
theorem placeMutations_spec (front rest : Bytes) {staged : List StagedEntry}
    (keys : ∀ entry ∈ staged, entry.1.length ≤ maxKeySize)
    (values : ∀ entry ∈ staged, (operationParts entry.2.seen).2.length ≤ maxValueSize)
    (word : front.length + (operationsBytes (staged.map stagedOp)).length < 2 ^ 64) :
    ∃ records, placeMutations front.length staged = .ok records ∧
      List.Forall₂ (fun entry record => MappedRecord.slices record
        (front ++ (operationsBytes (staged.map stagedOp) ++ rest)) = .ok (stagedOp entry))
        staged records := by
  induction staged generalizing front with
  | nil => exact ⟨[], rfl, .nil⟩
  | cons entry staged ih =>
      have short : entry.1.length < 2 ^ 32 :=
        lt_of_le_of_lt (keys entry (by simp)) (by decide)
      have small : (operationParts entry.2.seen).2.length < 2 ^ 32 :=
        lt_of_le_of_lt (values entry (by simp)) (by decide)
      rw [List.map_cons, operationsBytes_cons, List.length_append, encodeOperation_length] at word
      have moved : (front ++ encodeOperation (stagedOp entry)).length =
          front.length + operationSize (stagedOp entry) := by
        rw [List.length_append, encodeOperation_length]
      obtain ⟨records, ran, placed⟩ := ih (front ++ encodeOperation (stagedOp entry))
        (fun entry member => keys entry (.tail _ member))
        (fun entry member => values entry (.tail _ member)) (by rw [moved]; omega)
      refine ⟨⟨front.length⟩ :: records, ?_, ?_⟩
      · have past : pastOperation front.length entry =
            some (front.length + operationSize (stagedOp entry)) :=
          pastOperation_eq_some.mpr ⟨rfl, by omega⟩
        unfold placeMutations
        rw [past, orFail_some, ok_bind, ← moved, ran]
        rfl
      · rw [List.map_cons, operationsBytes_cons, List.append_assoc]
        refine .cons ?_ ?_
        · exact slices_encoded front _ short small
            (show front.length + operationSize (stagedOp entry) < 2 ^ 64 by omega)
        · rwa [List.append_assoc] at placed

/-! ## The parts of a commit -/

section Parts

variable {C : Crates} {c : Contents C} {txn : WriteTransaction} {batch : Batch} {d : Disk}
variable {staged : List StagedEntry}

/-- The places that `mapped_mutations` gives out behind any log are those at which the record of
the batch has its operations. -/
theorem wp_mappedMutations_behind (log : Bytes)
    (keys : ∀ entry ∈ staged, entry.1.length ≤ maxKeySize)
    (values : ∀ entry ∈ staged, (operationParts entry.2.seen).2.length ≤ maxValueSize)
    (word : log.length + (encodeBatch (staged.map stagedOp)).length < 2 ^ 64) :
    wp (mappedMutations staged log.length)
      (fun mutations d' => Disk.Issued [] d d' ∧ d'.position = d.position ∧
        List.Forall₂ (fun entry record => MappedRecord.slices record
          (log ++ encodeBatch (staged.map stagedOp)) = .ok (stagedOp entry)) staged mutations)
      (fun e d' => ¬d.Quiet ∧ (∃ error, e = .err error) ∧ Disk.Issued [] d d') d := by
  rw [encodeBatch_length, payloadBytes_length] at word
  have split : log ++ encodeBatch (staged.map stagedOp) =
      (log ++ (recordHeader .batch 0 (payloadBytes (staged.map stagedOp)).length
        (recordChecksum .batch 0 (payloadBytes (staged.map stagedOp)).length
          (payloadBytes (staged.map stagedOp))) ++ leBytes 4 (staged.map stagedOp).length)) ++
        (operationsBytes (staged.map stagedOp) ++ []) := by
    rw [encodeBatch, payloadBytes, List.append_nil]
    simp only [List.append_assoc]
  generalize frontIs : log ++ (recordHeader .batch 0 (payloadBytes (staged.map stagedOp)).length
      (recordChecksum .batch 0 (payloadBytes (staged.map stagedOp)).length
        (payloadBytes (staged.map stagedOp))) ++ leBytes 4 (staged.map stagedOp).length) = front at split
  have long : front.length = log.length + (logHeaderSize + 4) := by
    rw [← frontIs, List.length_append, List.length_append, recordHeader_length, leBytes_length]
  obtain ⟨records, ran, placed⟩ := placeMutations_spec front [] keys values (by omega)
  unfold mappedMutations
  rw [checkedAdd_some (by omega), ← long]
  refine wp_bind (wp_lift_ok ?_)
  refine wp_bind (Io.wp_reserve ?_ fun due => ⟨due, ⟨_, rfl⟩, Disk.issued_tick d⟩)
  rw [ran]
  refine wp_lift_ok ?_
  rw [split]
  exact ⟨Disk.issued_tick d, rfl, placed⟩

theorem wp_mappedMutations (opsIs : batch.ops = staged.map stagedOp)
    (word : c.logEnd + batch.bytes.length < 2 ^ 64) :
    wp (mappedMutations staged c.log.length)
      (fun mutations d' => Disk.Issued [] d d' ∧ d'.position = d.position ∧
        List.Forall₂ (fun entry record => MappedRecord.slices record (c.commit batch).log =
          .ok (stagedOp entry)) staged mutations)
      (fun e d' => ¬d.Quiet ∧ (∃ error, e = .err error) ∧ Disk.Issued [] d d') d := by
  have inLog : c.log.length ≤ c.logEnd := Nat.le_add_left _ _
  have bytes : encodeBatch (staged.map stagedOp) = batch.bytes := by rw [Batch.bytes, opsIs]
  have log : (c.commit batch).log = c.log ++ encodeBatch (staged.map stagedOp) := by
    rw [Contents.commit_log, bytes]
  rw [log]
  exact wp_mono (wp_mappedMutations_behind c.log
      (fun entry member => batch.keys (stagedOp entry) (opsIs ▸ List.mem_map_of_mem member))
      (fun entry member => batch.values (stagedOp entry) (opsIs ▸ List.mem_map_of_mem member))
      (by rw [bytes]; omega))
    (fun _ _ post => post) fun _ _ stopped => stopped

theorem wp_appendBatch {payloadLen : Nat} {valueChecksums : KeyMap (BitVec 32)}
    (accepted : batchPayloadLen staged = .ok payloadLen)
    (matching : ChecksumsMatch valueChecksums staged) :
    wp (appendBatch staged valueChecksums)
      (fun _ d' => Io.Written d d.position (encodeBatch (staged.map stagedOp)) d')
      (Io.Stranded d d.position (encodeBatch (staged.map stagedOp))) d := by
  unfold appendBatch
  refine Io.wp_withBufWriter (wp_bind (wp_mono (wp_writeBatchRecord (by decide)
    (Io.streaming_start d) accepted matching) ?_ fun _ _ broken => broken.stranded))
  intro _ d1 streaming
  refine wp_mono (Io.wp_flushBuf streaming) ?_ ?_
  · rintro _ d2 ⟨streaming, empty⟩
    exact ⟨empty, streaming.written empty⟩
  · exact fun e d2 broken => broken.stranded

/-- A small value is charged alike on the heap and in the log. -/
theorem overlayEntryMemory_small {entry : StagedEntry}
    (small : (operationParts entry.2.seen).2.length < mappedValueThreshold) :
    overlayEntryMemory entry.1 entry.2 = MappedRecord.charge (stagedOp entry) := by
  obtain ⟨key, value⟩ := entry
  cases value with
  | delete => rfl
  | put value =>
      cases value with
      | owned bytes =>
          have small : bytes.length < mappedValueThreshold := small
          exact congrArg (key.length + ·) (if_pos small).symm
      | mapped bytes => rfl

/-- The values of a batch that needs no mapping are small. -/
theorem overlayEntryMemory_light {overlay : OverlayState} {ops : List Operation} {f : File}
    (index : OverlayMap.IndexOf c.root.logStart c.log ops overlay.index) (held : c.Held f)
    (opsIs : batch.ops = staged.map stagedOp)
    (unmapped : ¬overlay.needsMapping f (c.commit batch).log.length = true) :
    ∀ entry ∈ staged, overlayEntryMemory entry.1 entry.2 = MappedRecord.charge (stagedOp entry) := by
  intro entry member
  apply overlayEntryMemory_small
  obtain ⟨bytes, mapping, table, tail, records, shape, maps, indexed, -⟩ := index.shape
  have mapped : overlay.index.mappedBytesLen f ≤ c.log.length := by
    rw [shape]
    exact (congrArg List.length (maps.deref held.log)).trans_le indexed.front.length_le
  have few : (c.commit batch).log.length - overlay.index.mappedBytesLen f < overlayMappingThreshold := by
    simpa [OverlayState.needsMapping] using unmapped
  rw [c.commit_log, List.length_append, Batch.bytes, encodeBatch_length, payloadBytes_length,
    opsIs] at few
  have inside : (encodeOperation (stagedOp entry)).length ≤
      (operationsBytes (staged.map stagedOp)).length :=
    List.Sublist.length_le (List.sublist_flatten_of_mem
      (List.mem_map_of_mem (List.mem_map_of_mem member)))
  rw [encodeOperation_length, operationSize] at inside
  have parts : (operationParts (stagedOp entry).2) = operationParts entry.2.seen := rfl
  rw [parts] at inside
  unfold overlayMappingThreshold at few
  unfold mappedValueThreshold
  omega

/-- How a batch entered the overlay of `h`: by the installation that `needs_mapping` selects on
the file it is in.  What that takes off the charge is part of it. -/
def Installs (C : Crates) (staged : List StagedEntry) (h : Handle) (f : File)
    (overlay : OverlayState) : Prop :=
  ∃ mutations installed,
    (if h.db.overlay.needsMapping f (f.len - h.db.base.logStart) then
      h.db.overlay.index.installMapped C f
        (.mapped h.db.base.logStart (f.len - h.db.base.logStart)) mutations = .ok installed
    else h.db.overlay.index.installTail f staged mutations = .ok installed) ∧
    overlay = .charged h.db.overlay.memory installed ∧ installed.2.1 ≤ h.db.overlay.memory

/-- The batch enters the index: the handle serves the longer contents. -/
theorem wp_publishBatch {h : Handle} {mutations : List MappedRecord} (offset : Nat)
    (serves : c.Serves h) (opsIs : batch.ops = staged.map stagedOp)
    (distinct : Distinct (staged.map stagedOp))
    (held : (c.commit batch).Held h.disk.file)
    (ends : h.disk.file.len = (c.commit batch).logEnd) (word : h.disk.file.len < 2 ^ 64)
    (placed : List.Forall₂ (fun entry record => MappedRecord.slices record (c.commit batch).log =
      .ok (stagedOp entry)) staged mutations) :
    wp (Database.publishBatch C offset staged mutations (c.commit batch).log.length)
      (fun _ h' => (c.commit batch).Serves h' ∧ Disk.Issued [] h.disk h'.disk ∧
        ∃ overlay, Installs C staged h h.disk.file overlay ∧
          h'.db = { h.db with overlay := overlay })
      (fun e h' => ∃ h₁ : Handle, (h.disk.Failed e ∧ h₁.db = h.db ∧ Disk.Issued [] h.disk h₁.disk) ∧
        Database.RolledBack offset h₁ h') h := by
  obtain ⟨ops, index, same, charged⟩ := serves.overlay
  have overlayIs : h.db.overlay = ⟨h.db.overlay.index, chargeOf ops⟩ := by rw [← charged]
  have few : chargeOf ops + chargeOf (staged.map stagedOp) < 2 ^ 64 := by
    have old : chargeOf ops ≤ c.log.length := chargeOf_le_log index.distinct same
    have new := batch.chargeOf_le
    have grown : (c.commit batch).log.length = c.log.length + batch.bytes.length := by
      rw [c.commit_log, List.length_append]
    have inside : (c.commit batch).log.length ≤ (c.commit batch).logEnd := Nat.le_add_left _ _
    rw [opsIs] at new
    omega
  have front : c.log <+: (c.commit batch).log := by
    rw [c.commit_log]
    exact List.prefix_append _ _
  have logStart : h.db.base.logStart = c.root.logStart := by
    rw [serves.base]
    rfl
  have some : (c.commit batch).log.length ≠ 0 := by
    rw [c.commit_log, List.length_append, Batch.bytes, encodeBatch_length]
    unfold logHeaderSize
    omega
  have size : h.disk.file.len - h.db.base.logStart = (c.commit batch).log.length := by
    rw [ends, logStart]
    exact Nat.add_sub_cancel_left ..
  -- However it entered, the index now holds the latest operations of the longer log.
  have enter : ∀ (d : Disk) (overlay : OverlayState) (ops' : List Operation),
      d.file = h.disk.file →
      OverlayMap.IndexOf c.root.logStart (c.commit batch).log ops' overlay.index →
      (∀ key, latest ops' key = latest (staged.map stagedOp ++ ops) key) →
      overlay.memory = chargeOf ops' →
      (c.commit batch).Serves ⟨{ h.db with overlay := overlay }, d⟩ := by
    intro d overlay ops' file index' latest' charged'
    refine ⟨serves.base, ⟨serves.checks.size, serves.checks.table, serves.checks.sound⟩,
      file ▸ held, ops', index', fun key => ?_, charged'⟩
    show _ = latest (logOps (c.batches ++ [batch])) key
    rw [latest', logOps_append, latest_append, latest_append, same, opsIs]
  refine wp_bind (wp_state ?_)
  dsimp only
  split
  · rename_i mapped
    rw [logStart]
    refine Database.wp_rollback_io_bind (Io.wp_map h.disk some (ends.ge.trans_lt word) ends.ge)
      (fun _ _ stopped => stopped.1.2) ?_ fun e d h' stopped rolled =>
        ⟨{ h with disk := d }, ⟨stopped.1, rfl, stopped.2⟩, rolled⟩
    rintro _ d ⟨rfl, issued⟩
    obtain ⟨installed, ops', ran, enters⟩ := index.enterMapped C held.log front distinct placed few
    have charged' := enters.charged few
    rw [← charged] at charged'
    rw [OverlayState.installMapped, ran]
    refine wp_bind (wp_lift_ok (wp_modify ⟨?_, issued, _, ⟨mutations, installed, ?_, rfl, ?_⟩, rfl⟩))
    · rw [charged']
      exact enter _ _ _ issued.kept enters.index enters.latest rfl
    · rw [size, if_pos mapped, logStart]
      exact ran
    · rw [charged]
      exact enters.within
  · rename_i unmapped
    obtain ⟨installed, ops', ran, enters⟩ :=
      index.enterTail serves.held.log front distinct placed
        (overlayEntryMemory_light index serves.held opsIs unmapped) few
    have charged' := enters.charged few
    rw [← charged] at charged'
    rw [OverlayState.installTail, ran]
    refine wp_bind (wp_lift_ok (wp_modify
      ⟨?_, Disk.Issued.refl _, _, ⟨mutations, installed, ?_, rfl, ?_⟩, rfl⟩))
    · rw [charged']
      exact enter _ _ _ rfl enters.index enters.latest rfl
    · rw [size, if_neg unmapped]
      exact ran
    · rw [charged]
      exact enters.within

end Parts

/-! ## The whole commit -/

/-- What a commit that returned has done. -/
structure Committed {C : Crates} (c : Contents C) (batch : Batch) (h h' : Handle) : Prop where
  healthy : (c.commit batch).Healthy h'
  wrote : ∃ chunks : List Bytes, chunks.flatten = batch.bytes ∧
    Disk.Issued (Effect.chunked c.logEnd chunks ++ [.sync]) h.disk h'.disk
  options : h'.db.options = h.db.options
  guard : h'.db.snapshotGuard = h.db.snapshotGuard

/-- A call that failed before it did anything. -/
structure Refused (h h' : Handle) : Prop where
  db : h'.db = h.db
  disk : Disk.Issued [] h.disk h'.disk

/-- A commit that failed while or after it wrote. -/
structure CommitBroken {C : Crates} (c : Contents C) (batch : Batch) (h h' : Handle) : Prop where
  failing : ¬h.disk.Quiet
  room : c.logEnd + batch.bytes.length ≤ h.db.options.maxDatabaseBytes.toNat
  begun : h.disk.trace.length < h'.disk.trace.length
  db : h'.db = { h.db with state := .writePoisoned }
  wrote : ∃ (chunks : List Bytes) (rest : List Effect), chunks.flatten <+: batch.bytes ∧
    Disk.Issued (Effect.chunked c.logEnd chunks ++ rest) h.disk h'.disk ∧
    ∀ e ∈ rest, e = .sync ∨ e = .setLen c.logEnd

section Commit

variable {C : Crates} {c : Contents C} {txn : WriteTransaction} {h : Handle}

/-- A rollback while the record is being written, or later. -/
theorem commitBroken {batch : Batch} {d : Disk} {h₁ h' : Handle} {e : Stop} {chunks : List Bytes}
    (room : c.logEnd + batch.bytes.length ≤ h.db.options.maxDatabaseBytes.toNat)
    (rolled : Database.RolledBack c.logEnd h₁ h') (same : h₁.db = h.db)
    (issued : Disk.Issued [] h.disk d) (failed : d.Failed e) (part : chunks.flatten <+: batch.bytes)
    (synced : List Effect) (sync : ∀ e ∈ synced, e = .sync)
    (wrote : Disk.Issued (Effect.chunked c.logEnd chunks ++ synced) d h₁.disk)
    (begun : d.trace.length < h₁.disk.trace.length) :
    CommitBroken c batch h h' where
  failing := (issued.failed failed).1
  room := room
  begun := by
    obtain ⟨effects, undone, -⟩ := rolled.issued
    rw [undone.trace, List.length_append]
    rw [issued.trace, List.append_nil] at begun
    exact lt_of_lt_of_le begun (Nat.le_add_right _ _)
  db := by rw [rolled.db, same]
  wrote := by
    obtain ⟨effects, undone, which⟩ := rolled.issued
    refine ⟨chunks, synced ++ effects, part, ?_, fun e member => ?_⟩
    · have := (issued.trans wrote).trans undone
      rwa [List.nil_append, List.append_assoc] at this
    · rcases List.mem_append.mp member with member | member
      · exact .inl (sync e member)
      · rcases which with rfl | rfl | rfl
        · cases member
        · exact .inr (List.mem_singleton.mp member)
        · exact (List.mem_pair.mp member).symm

/-- What of a commit follows the checks. -/
theorem wp_writeCommit {staged : List StagedEntry} {batch : Batch} {payloadLen : Nat}
    {valueChecksums : KeyMap (BitVec 32)} {d : Disk} (healthy : c.Healthy h)
    (opsIs : batch.ops = staged.map stagedOp) (matching : ChecksumsMatch valueChecksums staged)
    (accepted : batchPayloadLen staged = .ok payloadLen)
    (room : c.logEnd + batch.bytes.length ≤ h.db.options.maxDatabaseBytes.toNat)
    (issued : Disk.Issued [] h.disk d) :
    wp (do
        let rollbackOffset ← Db.io Io.seekEnd
        let batchOffset ← Prog.lift (orFail
          (checkedSub rollbackOffset (← Prog.state).db.base.logStart)
          (.other "Overlay batch offset overflow"))
        let mutations ← Db.io (mappedMutations staged batchOffset)
        Database.orRollback rollbackOffset (Db.io (appendBatch staged valueChecksums))
        Database.orRollback rollbackOffset (Db.io Io.syncData)
        let overlaySize ← Database.orRollback rollbackOffset Database.overlaySize
        Database.publishBatch C rollbackOffset staged mutations overlaySize)
      (fun _ h' => Installs C staged h h'.disk.file h'.db.overlay ∧ Committed c batch h h')
      (fun e h' => (∃ error, e = .err error) ∧
        (Refused h h' ∧ ¬h.disk.Quiet ∨ CommitBroken c batch h h')) { h with disk := d } := by
  have word : c.logEnd + batch.bytes.length < 2 ^ 64 :=
    lt_of_le_of_lt room h.db.options.maxDatabaseBytes.toNat_lt
  have len : h.disk.file.len = c.logEnd := healthy.image.len
  have logStart : h.db.base.logStart = c.root.logStart := by
    rw [healthy.serves.base]
    rfl
  have bytesIs : encodeBatch (staged.map stagedOp) = batch.bytes := by rw [Batch.bytes, opsIs]
  have ends : d.file.len = c.logEnd := by rw [issued.kept, len]
  refine wp_bind (Db.wp_io (Io.wp_seekEnd ?_ fun error due =>
    ⟨⟨error, rfl⟩, .inl ⟨⟨rfl, issued.trans (Disk.issued_tick d)⟩, fun quiet => due (issued.quiet quiet)⟩⟩))
  rw [ends]
  have issued1 := issued.trans (Disk.issued_seek d c.logEnd)
  generalize d1Is : ({ d.tick with position := c.logEnd } : Disk) = d1 at issued1
  have position1 : d1.position = c.logEnd := by rw [← d1Is]
  refine wp_bind (wp_state ?_)
  dsimp only
  rw [logStart, checkedSub_some (show c.root.logStart ≤ c.logEnd from Nat.le_add_right _ _),
    show c.logEnd - c.root.logStart = c.log.length from Nat.add_sub_cancel_left _ _]
  refine wp_bind (wp_lift_ok ?_)
  refine Db.wp_io_bind (wp_mappedMutations opsIs word) ?_ fun e d2 stopped =>
    ⟨stopped.2.1, .inl ⟨⟨rfl, issued1.trans stopped.2.2⟩, fun quiet => stopped.1 (issued1.quiet quiet)⟩⟩
  rintro mutations d2 ⟨issued2, position2, placed⟩
  have issued2 := issued1.trans issued2
  have position2 : d2.position = c.logEnd := position2.trans position1
  refine Database.wp_rollback_io_bind (wp_appendBatch accepted matching)
    (fun _ _ stranded => stranded.failed.2) ?_ ?_
  · rintro _ d3 written
    rw [position2, bytesIs] at written
    have file3 : d3.file = h.disk.file.write c.logEnd batch.bytes := by
      rw [written.file, issued2.kept]
    obtain ⟨chunks, whole, issued3, -⟩ := written
    have all : chunks.flatten <+: batch.bytes := by rw [whole]
    have wrote : 0 < (Effect.chunked c.logEnd chunks).length := by
      cases chunks with
      | nil => exact absurd whole.symm batch.bytes_ne_nil
      | cons chunk rest => exact Nat.succ_pos _
    have begun : ∀ {effects : List Effect} {d' : Disk}, Disk.Issued effects d2 d' →
        (Effect.chunked c.logEnd chunks).length ≤ effects.length →
        d2.trace.length < d'.trace.length := by
      intro effects d' issued more
      rw [issued.trace, List.length_append]
      omega
    have image3 := healthy.image.commit batch word
    rw [← file3] at image3
    refine Database.wp_rollback_io_bind (A := fun _ d4 => Disk.Issued [.sync] d3 d4)
      (B := fun e d4 => d3.Failed e ∧ Disk.Issued [] d3 d4)
      (Io.wp_syncData (Disk.issued_issue d3 .sync) fun error due =>
        ⟨⟨due, error, rfl⟩, Disk.issued_tick d3⟩) (fun _ _ stopped => stopped.1.2) ?_ ?_
    · intro _ d4 issued4
      have file4 : d4.file = d3.file := issued4.file
      have issued4 := issued3.trans issued4
      refine Database.wp_rollback_bind
        (A := fun n h₁ => n = (c.commit batch).log.length ∧ h₁.db = h.db ∧
          Disk.Issued [] d4 h₁.disk)
        (B := fun e h₁ => d4.Failed e ∧ h₁.db = h.db ∧ Disk.Issued [] d4 h₁.disk)
        ?_ (fun _ _ stopped => stopped.1.2) ?_ ?_
      · refine wp_bind (Db.wp_io (Io.wp_len ?_ fun error due =>
          ⟨⟨due, error, rfl⟩, rfl, Disk.issued_tick d4⟩))
        refine wp_bind (wp_state ?_)
        have size : d4.file.len = c.root.logStart + (c.commit batch).log.length := by
          rw [file4, image3.len]
          rfl
        dsimp only
        rw [logStart, size, checkedSub_some (Nat.le_add_right _ _), Nat.add_sub_cancel_left]
        refine wp_lift_ok ?_
        exact ⟨rfl, rfl, Disk.issued_tick d4⟩
      · rintro _ ⟨db5, d5⟩ ⟨rfl, rfl, issued5⟩
        have file5 : d5.file = d3.file := issued5.kept.trans file4
        have image5 : (c.commit batch).Image d5.file [] := file5 ▸ image3
        have serves : c.Serves ⟨h.db, d5⟩ := by
          refine healthy.serves.congr rfl rfl ⟨image5.held.base, ?_⟩
          have := image5.held.log
          rw [c.commit_log] at this
          exact (File.holds_append.mp this).1
        refine wp_mono (wp_publishBatch c.logEnd serves opsIs (opsIs ▸ batch.distinct) image5.held
          image5.len image5.word placed) ?_ ?_
        · rintro _ h6 ⟨serves6, issued6, overlay, installs, db6⟩
          have file6 : h6.disk.file = d3.file := issued6.kept.trans file5
          refine ⟨?_, ⟨serves6, ?_, file6 ▸ image3, ?_⟩, ⟨chunks, whole, ?_⟩, ?_, ?_⟩
          · rw [issued6.kept, db6]
            exact installs
          · rw [db6]
            exact healthy.state
          · rw [file6, image3.len, c.commit_logEnd, db6]
            exact room
          · have := ((issued2.trans issued4).trans issued5).trans issued6
            simpa using this
          · rw [db6]
          · rw [db6]
        · rintro e h6 ⟨h5, ⟨failed, same, issued6⟩, rolled⟩
          have issued6 := (issued4.trans issued5).trans issued6
          refine ⟨failed.2, .inr (commitBroken room rolled same issued2
            (issued4.failed (issued5.failed failed)) all [.sync] (fun e => List.mem_singleton.mp) ?_
            (begun issued6 (by simp)))⟩
          simpa using issued6
      · rintro e h5 h' ⟨failed, same, issued5⟩ rolled
        have issued5 := issued4.trans issued5
        refine ⟨failed.2, .inr (commitBroken room rolled same issued2 (issued4.failed failed) all [.sync]
          (fun e => List.mem_singleton.mp) ?_ (begun issued5 (by simp)))⟩
        simpa using issued5
    · rintro e d4 h' ⟨failed, issued4⟩ rolled
      have issued4 := issued3.trans issued4
      exact ⟨failed.2, .inr (commitBroken room rolled rfl issued2 (issued3.failed failed) all []
        (List.forall_mem_nil _) issued4 (begun issued4 (by simp)))⟩
  · rintro e d3 h' stranded rolled
    rw [position2, bytesIs] at stranded
    obtain ⟨failed, begun, flushed, part, chunks, rfl, issued3, -⟩ := stranded
    refine ⟨failed.2, .inr (commitBroken room rolled rfl issued2 failed part [] (List.forall_mem_nil _) ?_ begun)⟩
    simpa using issued3

/-- The checks that a commit makes before it writes: the length of its record, or why it is
refused. -/
def admitted (limit len : Nat) (staged : List StagedEntry) : Res Nat := do
  let payloadLen ← batchPayloadLen staged
  let batchRecordLen ← orFail (checkedAdd logHeaderSize payloadLen)
    (.fromIo .invalidInput "batch record size overflow")
  Database.capacity limit len batchRecordLen
  return batchRecordLen

/-- The batch of a record whose length is accepted: only the capacity is left to be checked. -/
theorem admitted_batch (coherent : ∃ ops, Coherent txn ops) {payloadLen : Nat}
    (accepted : batchPayloadLen (stagedEntries C txn.staged) = .ok payloadLen) :
    ∃ batch : Batch, batch.ops = (stagedEntries C txn.staged).map stagedOp ∧
      checkedAdd logHeaderSize payloadLen = some batch.bytes.length ∧
      ∀ limit len, admitted limit len (stagedEntries C txn.staged) = (do
        Database.capacity limit len batch.bytes.length
        return batch.bytes.length) := by
  have batchIs : (batchOf C txn coherent accepted).ops =
      (stagedEntries C txn.staged).map stagedOp := rfl
  obtain ⟨-, payloadIs, small⟩ := batchPayloadLen_eq_ok.mp accepted
  have fits : logHeaderSize + payloadLen < 2 ^ 64 :=
    lt_of_le_of_lt (Nat.add_le_add_left small _) (by decide)
  have size : (batchOf C txn coherent accepted).bytes.length = logHeaderSize + payloadLen := by
    rw [Batch.bytes, encodeBatch_length, batchIs, payloadIs]
  refine ⟨batchOf C txn coherent accepted, batchIs, ?_, fun limit len => ?_⟩
  · rw [checkedAdd_some fits, size]
  · rw [admitted, accepted, ok_bind, checkedAdd_some fits, size]
    rfl

theorem wp_commitStagedWith (healthy : c.Healthy h) (coherent : ∃ ops, Coherent txn ops) :
    wp (Database.commitStagedWith C txn.staged txn.valueChecksums)
      (fun _ h' => (stagedEntries C txn.staged = [] ∧ h' = h) ∨
        ∃ batch : Batch, batch.ops = (stagedEntries C txn.staged).map stagedOp ∧
          (admitted h.db.options.maxDatabaseBytes.toNat h.disk.file.len (stagedEntries C txn.staged) =
            .ok batch.bytes.length ∧ Installs C (stagedEntries C txn.staged) h h'.disk.file h'.db.overlay) ∧
          Committed c batch h h')
      (fun e h' => (∃ error, e = .err error) ∧ (Refused h h' ∧ (¬h.disk.Quiet ∨
          stagedEntries C txn.staged ≠ [] ∧ admitted h.db.options.maxDatabaseBytes.toNat
            h.disk.file.len (stagedEntries C txn.staged) = .error e) ∨
        ∃ batch : Batch, batch.ops = (stagedEntries C txn.staged).map stagedOp ∧
          CommitBroken c batch h h')) h := by
  have len : h.disk.file.len = c.logEnd := healthy.image.len
  unfold Database.commitStagedWith
  refine wp_bind (Database.wp_ensureWritable (fun _ => ?_) fun poisoned => absurd healthy.state poisoned)
  dsimp only
  split
  · rename_i nothing
    exact wp_pure (.inl ⟨nothing, rfl⟩)
  · rename_i something
    cases accepted : batchPayloadLen (stagedEntries C txn.staged) with
    | error e =>
        refine wp_bind (wp_lift_error ?_)
        refine ⟨batchPayloadLen_noPanic _ e accepted, .inl ⟨⟨rfl, Disk.Issued.refl _⟩,
          .inr ⟨something, ?_⟩⟩⟩
        rw [admitted, accepted]
        rfl
    | ok payloadLen =>
        refine wp_bind (wp_lift_ok ?_)
        obtain ⟨batch, batchIs, size, checks⟩ := admitted_batch coherent accepted
        rw [checks, size]
        refine wp_bind (wp_lift_ok ?_)
        refine wp_bind (Database.wp_ensureCapacity (fun room => ?_) fun error why =>
          ⟨⟨error, rfl⟩, .inl ⟨⟨rfl, Disk.issued_tick _⟩, why.imp id fun full => ⟨something, ?_⟩⟩⟩)
        · have word := h.db.options.maxDatabaseBytes.toNat_lt
          rw [(Database.capacity_eq_ok word).mpr room]
          rw [len] at room
          exact wp_mono (wp_writeCommit healthy batchIs (coherent.choose_spec.checksumsMatch C)
            accepted room (Disk.issued_tick _)) (fun _ _ done => .inr ⟨batch, batchIs, ⟨rfl, done.1⟩, done.2⟩)
            fun _ _ broken => ⟨broken.1, broken.2.imp (fun refused => ⟨refused.1, .inl refused.2⟩)
              fun broken => ⟨batch, batchIs, broken⟩⟩
        · rw [full]
          rfl

/-- Without failing calls a commit that is admitted succeeds. -/
theorem commit_returns (healthy : c.Healthy h) (quiet : h.disk.Quiet) (coherent : ∃ ops, Coherent txn ops)
    {n : Nat} (something : stagedEntries C txn.staged ≠ [])
    (admits : admitted h.db.options.maxDatabaseBytes.toNat h.disk.file.len (stagedEntries C txn.staged) =
      .ok n) :
    ∃ h' batch, Database.commitStagedWith C txn.staged txn.valueChecksums h = (.ok (), h') ∧
      batch.ops = (stagedEntries C txn.staged).map stagedOp ∧ Committed c batch h h' := by
  obtain ⟨_, h', ran, post⟩ := wp_returns (wp_commitStagedWith healthy coherent) (by
    rintro e h' ⟨-, ⟨-, loud | ⟨-, refused⟩⟩ | ⟨batch, -, broken⟩⟩
    · exact loud quiet
    · cases admits.symm.trans refused
    · exact broken.failing quiet)
  obtain ⟨nothing, -⟩ | ⟨batch, staged, -, committed⟩ := post
  · exact absurd nothing something
  · exact ⟨h', batch, ran, staged, committed⟩

end Commit

/-! ## What a commit leaves in the file -/

section Aftermath

variable {C : Crates} {c : Contents C} {batch : Batch} {f : File} {h h' : Handle} {limit : Nat}

/-- The record, as far as it was written. -/
theorem Contents.Image.record (image : c.Image f []) (word : c.logEnd + batch.bytes.length < 2 ^ 64)
    {front : Bytes} (part : front <+: batch.bytes) :
    c.Image (f.write c.logEnd front) front ∨
      front = batch.bytes ∧ (c.commit batch).Image (f.write c.logEnd front) [] := by
  by_cases less : front.length < batch.bytes.length
  · exact .inl (image.append (.cut batch part less word) (by omega))
  · have whole : front = batch.bytes := part.eq_of_length (by have := part.length_le; omega)
    exact .inr ⟨whole, whole ▸ image.commit batch word⟩

theorem Contents.Image.stored_record (image : c.Image f [])
    (room : c.logEnd + batch.bytes.length ≤ limit) (small : limit < 2 ^ 64) {front : Bytes}
    (part : front <+: batch.bytes) :
    Stored C limit [c.map, (c.commit batch).map] (f.write c.logEnd front) := by
  refine ⟨?_, ?_⟩
  · have := f.write_len_le c.logEnd front
    have := part.length_le
    have len : f.len = c.logEnd := image.len
    omega
  · rcases image.record (lt_of_le_of_lt room small) part with old | ⟨-, new⟩
    · exact ⟨c.map, by simp, old.recovers⟩
    · exact ⟨(c.commit batch).map, by simp, new.recovers⟩

theorem Contents.Image.survives_record (image : c.Image f [])
    (room : c.logEnd + batch.bytes.length ≤ limit) (small : limit < 2 ^ 64) {chunks : List Bytes}
    (part : chunks.flatten <+: batch.bytes) :
    Effect.Survives (Stored C limit [c.map, (c.commit batch).map]) f
      (Effect.chunked c.logEnd chunks) := by
  intro k n
  obtain ⟨flushed, front, torn⟩ := Effect.crashImage_chunked f c.logEnd chunks k n
  rw [torn]
  exact image.stored_record room small (front.trans part)

/-- A rollback leaves what was written or cuts it off. -/
theorem rollback_files {effects : List Effect} {front : Bytes}
    (which : ∀ e ∈ effects, e = .sync ∨ e = .setLen f.len) :
    (.setLen f.len ∉ effects ∧ Effect.applyAll (f.write f.len front) effects = f.write f.len front) ∨
      .setLen f.len ∈ effects ∧ Effect.applyAll (f.write f.len front) effects = f := by
  induction effects generalizing front with
  | nil => exact .inl ⟨nofun, rfl⟩
  | cons e effects ih =>
      rcases which e List.mem_cons_self with rfl | rfl
      · rcases ih fun e member => which e (List.mem_cons_of_mem _ member) with ⟨uncut, same⟩ | ⟨cut, same⟩
        · exact .inl ⟨by simpa using uncut, same⟩
        · exact .inr ⟨List.mem_cons_of_mem _ cut, same⟩
      · refine .inr ⟨List.mem_cons_self, ?_⟩
        rw [Effect.applyAll_cons, Effect.apply, File.setLen_write_end]
        have again := @ih [] fun e member => which e (List.mem_cons_of_mem _ member)
        rw [File.write_nil] at again
        rcases again with ⟨-, same⟩ | ⟨-, same⟩ <;> exact same

theorem Committed.keeps (healthy : c.Healthy h) (committed : Committed c batch h h') :
    Disk.Keeps (Stored C h.db.options.maxDatabaseBytes.toNat [c.map, (c.commit batch).map])
      h.disk h'.disk := by
  have small := h.db.options.maxDatabaseBytes.toNat_lt
  have len : h'.disk.file.len = (c.commit batch).logEnd := committed.healthy.image.len
  have room := committed.healthy.room
  rw [committed.options, len, c.commit_logEnd] at room
  obtain ⟨chunks, whole, issued⟩ := committed.wrote
  have record := healthy.image.survives_record room small
    (show chunks.flatten <+: batch.bytes by rw [whole])
  exact ⟨_, issued, record.append (Effect.survives_sync record.final (Effect.survives_nil record.final))⟩

theorem CommitBroken.keeps (healthy : c.Healthy h) (broken : CommitBroken c batch h h') :
    Disk.Keeps (Stored C h.db.options.maxDatabaseBytes.toNat [c.map, (c.commit batch).map])
      h.disk h'.disk := by
  have small := h.db.options.maxDatabaseBytes.toNat_lt
  have len : h.disk.file.len = c.logEnd := healthy.image.len
  obtain ⟨chunks, rest, part, issued, which⟩ := broken.wrote
  have record := healthy.image.survives_record broken.room small part
  have before := healthy.image.stored_record broken.room small List.nil_prefix
  have after := healthy.image.stored_record broken.room small part
  rw [File.write_nil] at before
  refine ⟨_, issued, record.append fun k n => ?_⟩
  rw [Effect.applyAll_chunked]
  rw [← len] at which after ⊢
  have undone := @rollback_files h.disk.file
    (rest.take k ++ ((rest.drop k).take 1).map (Effect.cut n)) chunks.flatten ?_
  · rcases undone with ⟨-, same⟩ | ⟨-, same⟩ <;> rw [Effect.crashImage, same] <;> assumption
  · intro e member
    rcases List.mem_append.mp member with member | member
    · exact which e (List.mem_of_mem_take member)
    · obtain ⟨whole, next, rfl⟩ := List.mem_map.mp member
      rcases which whole (List.mem_of_mem_drop (List.mem_of_mem_take next)) with rfl | rfl <;>
        exact .inl rfl

/-- The file after a failed commit is as before if it could be cut, and holds a front part
of the record otherwise. -/
theorem CommitBroken.file (healthy : c.Healthy h) (broken : CommitBroken c batch h h') :
    ∃ effects, Disk.Issued effects h.disk h'.disk ∧
      (.setLen c.logEnd ∈ effects ∧ h'.disk.file = h.disk.file ∨
        (∀ n, .setLen n ∉ effects) ∧ ∃ front, front <+: batch.bytes ∧
          h'.disk.file = h.disk.file.write c.logEnd front) := by
  have len : h.disk.file.len = c.logEnd := healthy.image.len
  obtain ⟨chunks, rest, part, issued, which⟩ := broken.wrote
  refine ⟨_, issued, ?_⟩
  rw [issued.file, Effect.applyAll_append, Effect.applyAll_chunked]
  rw [← len] at which ⊢
  rcases rollback_files which with ⟨uncut, same⟩ | ⟨cut, same⟩
  · refine .inr ⟨fun n member => ?_, chunks.flatten, part, same⟩
    rcases List.mem_append.mp member with member | member
    · exact Effect.chunked_within _ _ _ member
    · rcases which _ member with other | this
      · cases other
      · exact uncut (this ▸ member)
  · exact .inl ⟨List.mem_append_right _ cut, same⟩

/-- What the handle showed before, it still shows. -/
theorem CommitBroken.serves (healthy : c.Healthy h) (broken : CommitBroken c batch h h') : c.Serves h' := by
  refine healthy.serves.congr (by rw [broken.db]) (by rw [broken.db]) ?_
  obtain ⟨-, -, ⟨-, same⟩ | ⟨-, front, -, same⟩⟩ := broken.file healthy
  · exact same ▸ healthy.serves.held
  · exact same ▸ healthy.serves.held.write_end front

end Aftermath

end Lkv
