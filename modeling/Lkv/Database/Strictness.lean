/-
# Lkv.Database.Strictness — what returns has not seen a failure

Every call of a commit or a compaction that fails makes it fail: what is done about the
failure, a rollback or a change of the handle's state, always ends in the error.  So if a part
of it returns, each of the calls it made went through (`Disk.Passed`).  The one call whose
failure nobody sees is the flush of a dropped `BufWriter`, and none is dropped before it
was flushed.
-/
import Lkv.Database.Maintenance

namespace Lkv
open Lkv.Theory Lkv.Theory.Prog

set_option autoImplicit false

namespace Disk

instance : Std.Refl Passed where
  refl _ := ⟨0, rfl, nofun⟩

instance : IsTrans Disk Passed where
  trans d₀ d₁ d₂ := by
    rintro ⟨n, first, passed⟩ ⟨k, second, passed'⟩
    refine ⟨n + k, by rw [second, first, List.drop_drop], fun fault member => ?_⟩
    rw [List.take_add, List.mem_append] at member
    rcases member with before | after
    · exact passed fault before
    · rw [← first] at after
      exact passed' fault after

theorem Passed.of_faults {d d' : Disk} (same : d'.faults = d.faults) : Passed d d' :=
  ⟨0, same, nofun⟩

end Disk

namespace Io

open Disk

variable {α : Type}

/-- A call that goes through was not to fail. -/
theorem wp_nextFault_passed (d : Disk) :
    wp nextFault (fun fault d' => fault = none → Passed d d') (fun _ _ => False) d := by
  unfold wp nextFault
  cases faults : d.faults with
  | nil => exact fun _ => ⟨0, by simp [tick, faults], List.forall_mem_nil _⟩
  | cons fault rest =>
      cases fault with
      | fail applied error =>
          intro passed
          cases passed
      | pass =>
          refine fun _ => ⟨1, by simp [tick, faults], ?_⟩
          rw [faults]
          exact fun _ member => List.mem_singleton.mp member

/-- A program that asks for a failure and stops if there is one. -/
theorem along_nextFault_bind {k : Option (Nat × IoError) → Io α} (failed : ∀ f, Stops (k (some f)))
    (none : Along Passed (k none)) : Along Passed (nextFault >>= k) := by
  intro d
  refine wp_bind (wp_mono (wp_nextFault_passed d) (fun fault d₁ passed => ?_) fun _ _ => False.elim)
  cases fault with
  | none => exact wp_mono (none d₁) (fun _ _ two => trans_of Passed (passed rfl) two) fun _ _ => id
  | some f => exact wp_mono (failed f d₁) (fun _ _ => False.elim) fun _ _ => id

theorem along_call {act : Io α} (along : Along Passed act) : Along Passed (call act) :=
  along_nextFault_bind (fun _ => along_stop _) along

theorem along_quiet_modify {f : Disk → Disk} (same : ∀ d, (f d).faults = d.faults) :
    Along Passed (modify f : Io Unit) :=
  along_modify fun d => Passed.of_faults (same d)

theorem along_seekStart (position : Nat) : Along Passed (seekStart position) :=
  along_call (along_quiet_modify fun _ => rfl)

theorem along_seekEnd : Along Passed seekEnd :=
  along_call (along_bind (along_quiet_modify fun _ => rfl) fun _ => along_bind along_state fun _ => along_pure _)

theorem along_writeAll (bytes : Bytes) : Along Passed (writeAll bytes) := by
  unfold writeAll
  split
  · exact along_pure _
  · exact along_nextFault_bind (fun _ => along_bind_last fun _ => along_stop _)
      (along_quiet_modify fun _ => rfl)

theorem along_readExact (count : Nat) : Along Passed (readExact count) := by
  refine along_call (along_bind along_state fun d => ?_)
  split
  · exact along_bind (along_quiet_modify fun _ => rfl) fun _ => along_pure _
  · exact along_stop _

theorem along_len : Along Passed len := along_call (along_bind along_state fun _ => along_pure _)

theorem along_setLen (n : Nat) : Along Passed (setLen n) := along_call (along_quiet_modify fun _ => rfl)

theorem along_syncData : Along Passed syncData := along_call (along_quiet_modify fun _ => rfl)

theorem along_syncAll : Along Passed syncAll := along_call (along_quiet_modify fun _ => rfl)

theorem along_reserve (error : Error) : Along Passed (reserve error) :=
  along_nextFault_bind (fun _ => along_stop _) (along_pure _)

theorem along_map (offset size : Nat) : Along Passed (map offset size) := by
  unfold map
  split
  · exact along_stop _
  · refine along_bind (along_lift _) fun stop => along_bind along_len fun _ => ?_
    split
    · exact along_stop _
    · exact along_call (along_pure _)

theorem along_flushBuf : Along Passed flushBuf := by
  refine along_bind along_state fun d => ?_
  split
  · exact along_pure _
  · exact along_nextFault_bind (fun _ => along_bind_last fun _ => along_stop _)
      (along_quiet_modify fun _ => rfl)

theorem along_bufWrite (capacity : Nat) (bytes : Bytes) : Along Passed (bufWrite capacity bytes) := by
  refine along_bind along_state fun d => ?_
  dsimp only
  split
  · exact along_quiet_modify fun _ => rfl
  · refine along_bind (along_onlyIf along_flushBuf) fun _ => ?_
    split
    · exact along_writeAll bytes
    · exact along_quiet_modify fun _ => rfl

/-- A flush that returns has emptied the buffer. -/
theorem flushed_flushBuf : Along (fun _ d => d.buffer = []) flushBuf := by
  intro d
  refine wp_bind (wp_state ?_)
  split
  · rename_i empty
    exact wp_pure empty
  · exact wp_bind (wp_nextFault (wp_modify rfl) fun _ _ _ => wp_bind (wp_modify trivial))

/-- A writer that was flushed before it is dropped hides no failure. -/
theorem along_withBufWriter {body : Io α} (along : Along Passed body)
    (flushed : Along (fun _ d => d.buffer = []) body) : Along Passed (withBufWriter body) := by
  intro d
  have passed := along { d with buffer := [] }
  have empty := flushed { d with buffer := [] }
  unfold wp withBufWriter at *
  generalize body { d with buffer := [] } = ran at passed empty
  obtain ⟨result, d'⟩ := ran
  cases result with
  | error e => trivial
  | ok a =>
      have dropped : (dropWriter d').faults = d'.faults := by
        unfold dropWriter flushBuf
        rw [bind_run, state_run]
        dsimp only at empty ⊢
        rw [if_pos empty]
        rfl
      exact trans_of Passed passed (Passed.of_faults dropped)

end Io

section Write

open Disk Io

variable {ι : Type} (C : Crates) (feed : Feed ι)

theorem along_writeRecords (slots fuel : Nat) (entries : ι) (written : RecordsWritten) :
    Along Passed (writeRecords C feed slots fuel entries written) := by
  induction fuel generalizing entries written with
  | zero => exact along_stop _
  | succ fuel ih =>
      refine along_bind along_state fun d => along_bind (along_lift _) fun found => ?_
      obtain ⟨_ | ⟨key, value⟩, entries⟩ := found
      · exact along_pure _
      · exact along_bind (along_lift _) fun _ => along_bind (along_bufWrite _ _) fun _ =>
          along_bind (along_bufWrite _ _) fun _ => along_bind (along_bufWrite _ _) fun _ =>
          along_bind (along_bufWrite _ _) fun _ => along_bind (along_lift _) fun _ =>
          along_bind (along_lift _) fun _ => ih _ _

theorem along_writeSlots (index : List (Nat × Nat)) : Along Passed (writeSlots index) := by
  induction index with
  | nil => exact along_pure _
  | cons slot rest ih =>
      exact along_bind (along_bufWrite _ _) fun _ => along_bind (along_bufWrite _ _) fun _ => ih

theorem along_readBlockChecksums (fuel remaining : Nat) (checksums : List Nat) :
    Along Passed (readBlockChecksums fuel remaining checksums) := by
  induction fuel generalizing remaining checksums with
  | zero => exact along_stop _
  | succ fuel ih =>
      unfold readBlockChecksums
      split
      · exact along_pure _
      · exact along_bind (along_readExact _) fun _ => ih _ _

theorem along_appendBlockChecksums (start dataSize : Nat) :
    Along Passed (appendBlockChecksums start dataSize) :=
  along_bind (along_seekStart _) fun _ => along_bind (along_readBlockChecksums _ _ _) fun _ =>
    along_bind (along_lift _) fun _ => along_bind (along_lift _) fun _ =>
    along_bind (along_reserve _) fun _ => along_bind (along_seekStart _) fun _ =>
    along_bind (along_writeAll _) fun _ => along_bind (along_lift _) fun _ => along_pure _

theorem along_writeBaseWithMetadataAt (start len : Nat) (entries : ι) :
    Along Passed (writeBaseWithMetadataAt C feed start len entries) := by
  refine along_bind (along_lift _) fun slots => along_bind (along_lift _) fun _ =>
    along_bind (along_lift _) fun recordsStart => along_bind (along_seekStart _) fun _ =>
    along_bind (along_withBufWriter ?_ ?_) fun written => ?_
  · exact along_bind (along_writeRecords C feed _ _ _ _) fun _ => along_bind along_flushBuf fun _ =>
      along_pure _
  · exact along_bind_last fun _ d => wp_bind (wp_mono (flushed_flushBuf d) (fun _ _ empty => empty)
      fun _ _ => id)
  split
  · exact along_stop _
  refine along_bind (along_seekStart _) fun _ => along_bind (along_withBufWriter ?_ ?_) fun _ =>
    along_bind (along_appendBlockChecksums _ _) fun _ => along_pure _
  · exact along_bind (along_bufWrite _ _) fun _ => along_bind (along_bufWrite _ _) fun _ =>
      along_bind (along_bufWrite _ _) fun _ => along_bind (along_bufWrite _ _) fun _ =>
      along_bind (along_onlyIf (along_writeSlots _)) fun _ => along_flushBuf
  · exact along_bind_last fun _ => along_bind_last fun _ => along_bind_last fun _ =>
      along_bind_last fun _ => along_bind_last fun _ => flushed_flushBuf

theorem along_writeCompactMarker : Along Passed (writeCompactMarker writeAll) := by
  unfold writeCompactMarker writeRecordHeader
  exact along_writeAll _

theorem along_detachedBase (generation : Nat) : Along Passed (detachedBase C generation) := by
  refine along_bind ?_ fun _ => along_bind (along_lift _) fun _ => along_bind along_state fun _ =>
    along_lift _
  refine along_bind (along_reserve _) fun _ => along_bind (along_reserve _) fun _ =>
    along_bind (along_lift _) fun _ => ?_
  split
  split
  · exact along_stop _
  · exact along_pure _

end Write

/-! ## On a handle -/

namespace Handle

def Passed (h h' : Handle) : Prop := h.disk.Passed h'.disk

instance : Std.Refl Passed where
  refl h := refl_of Disk.Passed h.disk

instance : IsTrans Handle Passed where
  trans _ _ _ := trans_of Disk.Passed

end Handle

namespace Database

open Handle

variable {α : Type} (C : Crates)

theorem along_io {act : Io α} (along : Along Disk.Passed act) : Along Passed (Db.io act) :=
  along_zoom along fun _ _ => id

theorem along_set {f : Handle → Handle} (same : ∀ h, (f h).disk = h.disk) :
    Along Passed (modify f : Db Unit) :=
  along_modify fun h => .of_faults (congrArg Disk.faults (same h))

theorem along_verifying (act : Prog SegmentVerifier Stop α) : Along Passed (Db.verifying act) := by
  refine along_zoom (S := fun _ _ => True) (fun v => ?_) fun h _ _ => refl_of Disk.Passed h.disk
  unfold wp
  split <;> trivial

theorem along_orElse {act : Db α} {handle : Error → Db α} (along : Along Passed act)
    (stops : ∀ error, Stops (handle error)) : Along Passed (Db.orElse act handle) :=
  along_attempt_bind along (fun _ => along_pure _) stops

theorem stops_rollbackOrPoison (offset : Nat) (error : Error) :
    Stops (rollbackOrPoison offset error : Db α) :=
  along_bind_last fun _ => along_bind_last fun _ => along_bind_last fun _ => along_stop _

theorem along_orRollback {act : Db α} (offset : Nat) (along : Along Passed act) :
    Along Passed (orRollback offset act) :=
  along_orElse along (stops_rollbackOrPoison offset)

theorem along_orPoison {act : Db α} (along : Along Passed act) : Along Passed (orPoison act) :=
  along_orElse along fun _ => along_bind_last fun _ => along_stop _

theorem along_ensureCapacity (additional : Nat) : Along Passed (ensureCapacity additional) := by
  refine along_bind (along_io Io.along_len) fun _ => along_bind along_state fun _ =>
    along_bind (along_lift _) fun _ => ?_
  split
  · exact along_stop _
  · exact along_pure _

theorem along_ensureWritable : Along Passed ensureWritable := by
  refine along_bind along_state fun h => ?_
  split
  · exact along_stop _
  · exact along_pure _

/-! ### Commits -/

theorem along_stageBase (plan : CompactPlan) (liveLen expectedBaseSize : Nat) :
    Along Passed (stageBase C plan liveLen expectedBaseSize) := by
  refine along_bind (along_orRollback _ (along_io along_writeCompactMarker)) fun _ =>
    along_bind (along_orRollback _ (along_io (Io.along_seekStart _))) fun _ =>
    along_bind along_state fun _ =>
    along_bind (along_orRollback _ (along_io (along_writeBaseWithMetadataAt C _ _ _ _))) fun _ => ?_
  split
  · exact fun h => wp_mono (stops_rollbackOrPoison _ _ h) (fun _ _ => False.elim) fun _ _ => id
  · exact along_bind (along_orRollback _ (along_io Io.along_syncData)) fun _ => along_pure _

theorem along_publish (superblock : Superblock) : Along Passed (publish superblock) :=
  along_bind (along_orPoison (along_io (along_bind (Io.along_seekStart _) fun _ => Io.along_writeAll _)))
    fun _ => along_orPoison (along_io Io.along_syncAll)

theorem along_publishRedundant (superblock : Superblock) : Along Passed (publishRedundant superblock) :=
  along_bind (along_orPoison (along_io (along_bind (along_lift _) fun _ =>
    along_bind (Io.along_seekStart _) fun _ => Io.along_writeAll _)))
    fun _ => along_orPoison (along_io Io.along_syncAll)

theorem along_installSuperblock (superblock : Superblock) : Along Passed (installSuperblock superblock) := by
  refine along_attempt_bind (along_io (along_bind (Io.along_map _ _) fun _ =>
    along_bind along_state fun _ => along_lift _)) (fun base => ?_) fun _ => ?_
  · exact along_bind (along_orPoison (along_io Io.along_seekEnd)) fun _ => along_set fun _ => rfl
  · exact along_bind_last fun _ => along_stop _

theorem along_relocateBase (destinationEnd destinationGeneration liveLen expectedBaseSize : Nat) :
    Along Passed (relocateBase C destinationEnd destinationGeneration liveLen expectedBaseSize) := by
  refine along_bind (along_io (along_detachedBase C _)) fun _ => along_bind along_state fun _ =>
    along_bind (along_io (along_writeBaseWithMetadataAt C _ _ _ _)) fun _ => ?_
  split
  · exact along_stop _
  · exact along_bind (along_io (Io.along_seekStart _)) fun _ =>
      along_bind (along_io along_writeCompactMarker) fun _ =>
      along_bind (along_io Io.along_syncData) fun _ => along_pure _

theorem along_truncateTo (detached : ActiveBase) (destinationEnd : Nat) (superblock : Superblock) :
    Along Passed (truncateTo detached destinationEnd superblock) :=
  along_bind (along_set fun _ => rfl) fun _ => along_bind (along_set fun _ => rfl) fun _ =>
    along_bind (along_io (Io.along_setLen _)) fun _ => along_bind (along_io Io.along_syncAll) fun _ =>
    along_bind (along_orElse (along_installSuperblock _) fun _ => along_bind_last fun _ => along_stop _)
      fun _ => along_set fun _ => rfl

theorem along_compactFile (liveLen expectedBaseSize : Nat) :
    Along Passed (compactFile C liveLen expectedBaseSize) :=
  along_bind (along_io Io.along_seekEnd) fun _ => along_bind (along_lift _) fun _ =>
    along_bind (along_ensureCapacity _) fun _ => along_bind (along_stageBase C _ _ _) fun _ =>
    along_bind along_state fun _ => along_bind (along_lift _) fun _ =>
    along_bind (along_publish _) fun _ => along_bind (along_installSuperblock _) fun _ =>
    along_bind along_state fun _ => along_bind (along_set fun _ => rfl) fun _ => along_bind (along_lift _) fun _ =>
    along_bind (along_relocateBase C _ _ _ _) fun _ => along_bind (along_publish _) fun _ =>
    along_bind (along_publishRedundant _) fun _ => along_truncateTo _ _ _

theorem along_alreadyCompact : Along Passed alreadyCompact := by
  refine along_bind along_state fun h => ?_
  dsimp only
  split
  · exact along_bind (along_io Io.along_len) fun _ => along_pure _
  · exact along_pure _

/-- A compaction that returns has seen no call fail. -/
theorem along_compact : Along Passed (compact C) := by
  refine along_bind along_ensureWritable fun _ => along_bind along_state fun h => ?_
  split
  · exact along_stop _
  refine along_bind ?_ fun _ => along_bind along_alreadyCompact fun done => ?_
  · refine along_bind ?_ fun _ => along_bind along_state fun h => ?_
    · refine along_bind along_state fun h => ?_
      split
      · exact along_stop _
      · exact along_pure _
    · exact along_verifying _
  split
  · exact along_pure _
  · exact along_bind along_state fun _ => along_bind (along_lift _) fun _ => along_compactFile C _ _

end Database

end Lkv
