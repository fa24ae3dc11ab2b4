/-
# Lkv.System.Indexing — the overlay index along whole runs

A file database keeps the latest operation on a key either as an offset into the mapped log
or as an owned entry of the tail, with the offset that the entry will have once the log is
mapped again.  `OverlayMap.Represented` is what makes this work: the mapping is a front part
of the log, every offset decodes where it will be read, and no key is held twice.

Every handle of a run has such an index (`Reach.indexes`), also one that no longer writes or
that lost its Base.  Promoting the tail (`install_mapped`) therefore changes no answer
(`Represented.installMapped`).  With the index goes its memory charge, which is that of the
operations in it.
-/
import Lkv.Database.Transacting
import Lkv.System.Runs

namespace Lkv
open Lkv.Theory Lkv.Theory.Prog Dictionary

set_option autoImplicit false

/-! ## The representation -/

namespace OverlayMap

/-- The index with this mapping, table and tail over the bytes `log` of the log. -/
structure Represented (file : File) (log : Bytes) (bytes : Option BaseBytes)
    (table : List MappedRecord) (tail : List TailOverlayEntry) : Prop where
  front : derefOr file bytes <+: log
  absent : bytes = none → table = []
  decodes : ∀ record ∈ table, (record.checkedSlices (derefOr file bytes)).isSome
  tableKeys : (table.map fun record => (record.checkedSlices (derefOr file bytes)).map Prod.fst).Nodup
  tailKeys : (tail.map TailOverlayEntry.key).Nodup
  disjoint : ∀ record ∈ table, ∀ entry ∈ tail,
    (record.checkedSlices (derefOr file bytes)).map Prod.fst ≠ some entry.key
  placed : ∀ entry ∈ tail, entry.mapped.checkedSlices log = some entry.operation

section Represented

variable {file : File} {log longer mapping : Bytes} {bytes : Option BaseBytes} {logStart n : Nat}
variable {table : List MappedRecord} {tail : List TailOverlayEntry} {ops records : List Operation}

theorem RecordsDecode.checked (decodes : RecordsDecode log table ops) :
    table.map (fun record => record.checkedSlices log) = ops.map some := by
  induction decodes with
  | nil => rfl
  | cons here _ ih => rw [List.map_cons, List.map_cons, ih, slices_eq_ok.mp here]

theorem RecordsDecode.keys (decodes : RecordsDecode log table ops) :
    table.map (fun record => (record.checkedSlices log).map Prod.fst) = (ops.map Prod.fst).map some := by
  have all := congrArg (List.map (Option.map Prod.fst)) decodes.checked
  rw [List.map_map, List.map_map] at all
  rw [List.map_map]
  exact all

theorem recordsDecode_of_isSome (all : ∀ record ∈ table, (record.checkedSlices log).isSome) :
    ∃ ops, RecordsDecode log table ops := by
  induction table with
  | nil => exact ⟨[], .nil⟩
  | cons record table ih =>
      obtain ⟨ops, rest⟩ := ih fun other member => all other (List.mem_cons_of_mem _ member)
      obtain ⟨op, here⟩ := Option.isSome_iff_exists.mp (all record List.mem_cons_self)
      exact ⟨op :: ops, .cons (slices_eq_ok.mpr here) rest⟩

theorem tail_keys (tail : List TailOverlayEntry) :
    (tail.map TailOverlayEntry.operation).map Prod.fst = tail.map TailOverlayEntry.key := by
  rw [List.map_map]
  rfl

/-- A mapped front part of the log reads as that wherever the log is. -/
theorem MapsLog.deref_front (maps : MapsLog logStart log bytes mapping)
    (front : log <+: file.slice logStart n) : derefOr file bytes = mapping := by
  refine maps.deref ?_
  obtain ⟨rest, whole⟩ := front
  have held := file.holds_slice logStart n
  rw [← whole] at held
  exact (File.holds_append.mp held).1

/-- Indexing a front part of the log is enough. -/
theorem Indexed.represented (indexed : Indexed mapping log table tail records)
    (maps : MapsLog logStart log bytes mapping) (deref : derefOr file bytes = mapping)
    (front : log <+: longer) : Represented file longer bytes table tail := by
  have distinct := indexed.distinct
  rw [Distinct, indexOps, List.map_append, tail_keys] at distinct
  obtain ⟨tailKeys, recordKeys, apart⟩ := List.nodup_append.mp distinct
  have keys := indexed.decoded.keys
  refine ⟨?_, ?_, ?_, ?_, tailKeys, ?_, ?_⟩
  · rw [deref]
    exact indexed.front.trans front
  · rintro rfl
    cases maps
    have nothing := indexed.decoded.nil_of_nil
    subst nothing
    exact List.forall₂_nil_right_iff.mp indexed.decoded
  · intro record member
    rw [deref]
    have found := List.mem_map_of_mem (f := fun record => record.checkedSlices mapping) member
    rw [indexed.decoded.checked] at found
    obtain ⟨op, -, same⟩ := List.mem_map.mp found
    rw [← same]
    rfl
  · rw [deref, keys]
    exact recordKeys.map (Option.some_injective _)
  · intro record member entry inTail same
    rw [deref] at same
    have found := List.mem_map_of_mem
      (f := fun record => (record.checkedSlices mapping).map Prod.fst) member
    rw [keys, same] at found
    obtain ⟨key, inRecords, is⟩ := List.mem_map.mp found
    cases is
    exact apart _ (List.mem_map_of_mem inTail) _ inRecords rfl
  · intro entry member
    exact slices_eq_ok.mp (slices_extend (indexed.placed entry member) front)

/-- The operations of the table. -/
theorem Represented.decoded (represented : Represented file log bytes table tail) :
    ∃ records, RecordsDecode (derefOr file bytes) table records ∧
      Distinct (indexOps tail records) := by
  obtain ⟨records, decodes⟩ := recordsDecode_of_isSome represented.decodes
  have keys := decodes.keys
  have tableKeys := represented.tableKeys
  rw [keys] at tableKeys
  refine ⟨records, decodes, ?_⟩
  rw [Distinct, indexOps, List.map_append, tail_keys]
  refine List.nodup_append.mpr ⟨represented.tailKeys, tableKeys.of_map, ?_⟩
  rintro _ inTail _ inRecords rfl
  obtain ⟨entry, member, rfl⟩ := List.mem_map.mp inTail
  have found := List.mem_map_of_mem (f := some) inRecords
  rw [← keys] at found
  obtain ⟨record, inTable, same⟩ := List.mem_map.mp found
  exact represented.disjoint record inTable entry member same

/-- Promoting the tail and installing records changes no answer on other keys. -/
theorem Represented.installMapped (C : Crates) (represented : Represented file log bytes table tail)
    (new : BaseBytes) (front : log <+: new.deref file) {mutations : List MappedRecord}
    (decodes : ∀ record ∈ mutations, (record.checkedSlices (new.deref file)).isSome) :
    ∃ overlay' removed added,
      OverlayMap.installMapped C file new mutations (.mapped bytes table tail) =
        .ok (overlay', removed, added) ∧
      ∀ key, (∀ record ∈ mutations,
          (record.checkedSlices (new.deref file)).map Prod.fst ≠ some key) →
        overlay'.getHashed file key = (OverlayMap.mapped bytes table tail).getHashed file key := by
  obtain ⟨records, decoded, distinct⟩ := represented.decoded
  obtain ⟨added, enter⟩ := recordsDecode_of_isSome decodes
  obtain ⟨table', removed, charge, ops', ran, decodes', -, same, -⟩ :=
    installMapped_spec C bytes rfl (decoded.extend (represented.front.trans front))
      (fun entry member => slices_extend (slices_eq_ok.mpr (represented.placed entry member)) front)
      distinct enter
  refine ⟨_, removed, charge, ran, fun key outside => ?_⟩
  have before : (OverlayMap.mapped bytes table tail).Decodes file (indexOps tail records) :=
    ⟨records, decoded, rfl⟩
  have after : (OverlayMap.mapped (some new) table' []).Decodes file ops' := ⟨ops', decodes', rfl⟩
  rw [getHashed_eq before, getHashed_eq after]
  refine congrArg Except.ok ((same key).trans ?_)
  have absent : latest added.reverse key = none := by
    rw [latest_eq_none_iff, List.map_reverse, List.mem_reverse]
    intro member
    have found := List.mem_map_of_mem (f := some) member
    rw [← enter.keys] at found
    obtain ⟨record, inMutations, is⟩ := List.mem_map.mp found
    exact outside record inMutations is
  rw [latest_append, absent]
  rfl

end Represented

end OverlayMap

/-! ## Along a run -/

/-- The bytes of the log: what is in the file behind the Base. -/
def Handle.log (h : Handle) : Bytes :=
  h.disk.file.slice h.db.base.logStart (h.disk.file.len - h.db.base.logStart)

/-- The overlay of a handle indexes a front part of the log, and is charged for what it holds. -/
structure Handle.Indexes (h : Handle) : Prop where
  overlay : ∃ log ops, OverlayMap.IndexOf h.db.base.logStart log ops h.db.overlay.index ∧
    log <+: h.log ∧ h.db.overlay.memory = chargeOf ops

section Indexes

variable {C : Crates} {c : Contents C} {h h' : Handle}

theorem Contents.Serves.logStart (serves : c.Serves h) : h.db.base.logStart = c.root.logStart := by
  rw [serves.base]
  rfl

/-- The log of the contents is in the file, which reaches behind it. -/
theorem Contents.Serves.indexes (serves : c.Serves h) (inside : c.logEnd ≤ h.disk.file.len) :
    h.Indexes := by
  obtain ⟨ops, index, -, memory⟩ := serves.overlay
  have logStart := serves.logStart
  have ends : c.logEnd = c.root.logStart + c.log.length := rfl
  refine ⟨c.log, ops, logStart.symm ▸ index, ?_, memory⟩
  have held := serves.held.log
  rw [Handle.log, logStart,
    show h.disk.file.len - c.root.logStart = c.log.length + (h.disk.file.len - c.logEnd) by omega,
    File.slice_add, held]
  exact List.prefix_append _ _

theorem Contents.Healthy.indexes (healthy : c.Healthy h) : h.Indexes := by
  refine healthy.serves.indexes ?_
  rw [healthy.image.len]
  exact Nat.le_add_right _ _

/-- An overlay that was cleared. -/
theorem indexes_cleared {overlay : OverlayState} (index : ∃ bytes table tail, overlay.index = .mapped bytes table tail)
    (cleared : h.db.overlay = overlay.clear) : h.Indexes := by
  obtain ⟨bytes, table, tail, index⟩ := index
  refine ⟨[], [], ?_, List.nil_prefix, ?_⟩
  · rw [cleared, OverlayState.clear, index]
    exact OverlayMap.indexOf_empty _
  · rw [cleared]
    rfl

theorem Handle.Indexes.congr (indexes : h.Indexes) (file : h'.disk.file = h.disk.file)
    (base : h'.db.base.logStart = h.db.base.logStart) (overlay : h'.db.overlay = h.db.overlay) :
    h'.Indexes := by
  obtain ⟨log, ops, index, front, memory⟩ := indexes
  refine ⟨log, ops, ?_, ?_, ?_⟩
  · rw [base, overlay]
    exact index
  · rw [Handle.log, file, base]
    exact front
  · rw [overlay]
    exact memory

/-- A failed commit leaves the log where it is. -/
theorem CommitBroken.indexes {batch : Batch} (healthy : c.Healthy h)
    (broken : CommitBroken c batch h h') : h'.Indexes := by
  refine (broken.serves healthy).indexes ?_
  have len : h.disk.file.len = c.logEnd := healthy.image.len
  obtain ⟨effects, -, ⟨-, same⟩ | ⟨-, front, -, file⟩⟩ := broken.file healthy
  · rw [same, len]
  · rw [file, ← len]
    exact h.disk.file.le_write_len _ front

/-- A staging that was rolled back did not cut into the log. -/
theorem StageBroken.le_len {oldEnd source sourceEnd : Nat} {d d' : Disk}
    (broken : StageBroken oldEnd source sourceEnd d d') (long : oldEnd ≤ d.file.len) :
    oldEnd ≤ d'.file.len := by
  obtain ⟨done, undo, issued, which, how⟩ := broken
  rw [issued.file]
  refine Effect.le_applyAll_len (fun n member => ?_) long
  rcases List.mem_append.mp member with written | undone
  · rcases which with (rfl | ⟨m, rfl⟩) | ⟨staging, rfl, within⟩
    · cases written
    · simp at written
    · rcases List.mem_cons.mp written with is | inStaging
      · cases is
      · exact (within _ inStaging).elim
  · rcases how with rfl | rfl | rfl
    · cases undone
    · simp at undone
      exact undone.ge
    · simp at undone
      exact undone.ge

/-- Wherever a compaction stopped, the handle indexes the log of its Base. -/
theorem Rewrite.halted_indexes {r : Rewrite c} {e : Stop} (healthy : c.Healthy h)
    (halted : r.move.Halted r.staging.entries r.staging.slots h e h') : h'.Indexes := by
  have image := healthy.image
  have long : c.logEnd ≤ h.disk.file.len := image.len.ge
  -- Until the staging Base is installed the handle reads the old contents.
  have old : h'.db.base = h.db.base → h'.db.overlay = h.db.overlay → c.Held h'.disk.file →
      c.logEnd ≤ h'.disk.file.len → h'.Indexes :=
    fun base overlay held inside => (healthy.serves.congr base overlay held).indexes inside
  have new : h'.db.overlay = h.db.overlay.clear → h'.Indexes := by
    intro cleared
    obtain ⟨ops, index, -⟩ := healthy.serves.overlay
    obtain ⟨bytes, mapping, table, tail, records, is, -⟩ := index.shape
    exact indexes_cleared ⟨bytes, table, tail, is⟩ cleared
  have stagedLong : c.logEnd ≤ (r.move.staged h.disk.file).len := by
    have behind := r.behind
    have ends := r.staging_end
    rw [r.staged_len image]
    omega
  cases halted with
  | staging failed db broken =>
      refine old (by rw [db]; rfl) (by rw [db]; rfl) ?_ (broken.le_len long)
      exact (stageBroken_keeps image le_rfl broken).2
  | staged staging writes panicked overflow passed db issued =>
      have file : h'.disk.file = r.move.staged h.disk.file := by
        rw [issued.file, Move.uptoStaged_apply writes]
      refine old (by rw [db]) (by rw [db]) ?_ (file.symm ▸ stagedLong)
      rw [file]
      exact (r.staged_marked image).held
  | switching staging effects writes failed next db part issued =>
      have agrees : File.AgreesOutside 0 dataStart (r.move.staged h.disk.file) h'.disk.file := by
        rw [issued.file, Effect.applyAll_append, Move.uptoStaged_apply writes]
        rcases part with torn | rfl
        · exact torn_page_agrees torn _
        · exact page_agrees _ _ r.staging.root.encodePage_length.le
      exact old (by rw [db]; rfl) (by rw [db]; rfl) ((r.staged_marked image).held.page agrees)
        (stagedLong.trans agrees.le_len)
  | moving staging part writes stopped next db => exact new (by rw [db]; rfl)
  | settling staging final effects wrote failed next last db => exact new (by rw [db]; rfl)
  | doubling staging final effects wrote failed next last small db => exact new (by rw [db]; rfl)
  | settled staging final wrote panicked overflow passed next last db => exact new (by rw [db]; rfl)
  | cutting staging final effects wrote failed next last small db =>
      obtain ⟨detached, db⟩ := db
      exact new (by rw [db]; rfl)

end Indexes

section Run

variable {C : Crates} {limit : UInt64} {w w' : World}

/-- What a run keeps of the handle. -/
def World.Indexes : World → Prop
  | .opened h _ _ => h.Indexes
  | .closed _ _ => True

theorem Step.indexes (enough : minDatabaseBytes ≤ limit.toNat) (step : Step C limit w w')
    (holds : w.Holds C limit) (before : w.Indexes) : w'.Indexes := by
  cases step with
  | @commit h h' m maps txn ops faults staging ran =>
      rcases (holds.1.afresh faults).cases with ⟨c, rfl, rfl, healthy⟩ | poisoned
      · obtain ⟨-, c', healthy', -⟩ := wp_ok (wp_commit healthy staging.coherent) ran
        exact healthy'.indexes
      · rw [commit_poisoned poisoned] at ran
        cases ran
  | @commitFails h h' m maps txn ops error faults staging ran =>
      rcases (holds.1.afresh faults).cases with ⟨c, rfl, rfl, healthy⟩ | poisoned
      · obtain ⟨-, refused | ⟨batch, -, -, broken⟩⟩ := wp_error (wp_commit healthy staging.coherent) ran
        · exact Handle.Indexes.congr before refused.disk.kept (by rw [refused.db]; rfl)
            (by rw [refused.db]; rfl)
        · exact broken.indexes healthy
      · rw [commit_poisoned poisoned] at ran
        cases ran
        exact Handle.Indexes.congr before rfl rfl rfl
  | @compact h h' m maps faults ran =>
      rcases (holds.1.afresh faults).cases with ⟨c, rfl, rfl, healthy⟩ | poisoned
      · obtain ⟨-, c', healthy', -⟩ := wp_ok (wp_compact_holding healthy) ran
        exact healthy'.indexes
      · rw [compact_poisoned poisoned] at ran
        cases ran
  | @compactFails h h' m maps error faults honest ran =>
      rcases (holds.1.afresh faults).cases with ⟨c, rfl, rfl, healthy⟩ | poisoned
      · obtain ⟨-, unchanged⟩ | ⟨-, -, r, -, halted⟩ := wp_error (wp_compact healthy) ran
        · exact unchanged.healthy.indexes
        · exact Rewrite.halted_indexes healthy.unchanged_verified.healthy halted
      · rw [compact_poisoned poisoned] at ran
        cases ran
        exact Handle.Indexes.congr before rfl rfl rfl
  | @read h m maps query =>
      by_cases unavailable : h.db.state = .unavailable
      · rw [query.after_unavailable unavailable]
        exact before
      · obtain ⟨c, serves⟩ : ∃ c : Contents C, c.Serves h := by
          cases holds.1 with
          | healthy c map only healthy => exact ⟨c, healthy.serves⟩
          | readOnly c map state serves => exact ⟨c, serves⟩
          | lost state => exact absurd state unavailable
        obtain ⟨v, same, -⟩ := query.after_serves serves unavailable
        rw [same]
        exact Handle.Indexes.congr before rfl rfl rfl
  | @snapshot h m maps =>
      rcases snapshot_after h with same | same <;> rw [same]
      · exact before
      · exact Handle.Indexes.congr before rfl rfl rfl
  | dropSnapshot live => exact Handle.Indexes.congr before rfl rfl rfl
  | close => trivial
  | crashInCommit => trivial
  | crashInCompact => trivial
  | reopen same ran =>
      subst same
      obtain ⟨c, db, d, -, opened, healthy, -⟩ := Stored.open enough holds
      cases ran.symm.trans opened
      exact healthy.indexes
  | crashInOpen => trivial

theorem Reach.indexes (reach : Reach C limit w) : w.Indexes := by
  induction reach with
  | create same ran =>
      subst same
      have enough := (Reach.create rfl ran).enough
      obtain ⟨db, d, created, healthy, -⟩ := create_ok C enough
      cases ran.symm.trans created
      exact healthy.indexes
  | step before step ih => exact step.indexes before.enough before.holds ih

end Run

/-! ## The invariant -/

section Invariant

variable {C : Crates} {limit : UInt64} {h : Handle} {m : Bytes → Option Bytes}
variable {maps : List (Bytes → Option Bytes)}

theorem Handle.Indexes.represented (indexes : h.Indexes) {f : File} {n : Nat}
    (front : h.log <+: f.slice h.db.base.logStart n) :
    ∃ bytes table tail, h.db.overlay.index = .mapped bytes table tail ∧
      OverlayMap.Represented f (f.slice h.db.base.logStart n) bytes table tail ∧
      (OverlayMap.mapped bytes table tail).log f = (OverlayMap.mapped bytes table tail).log h.disk.file := by
  obtain ⟨log, ops, index, inLog, -⟩ := indexes
  obtain ⟨bytes, mapping, table, tail, records, is, maps, indexed, -⟩ := index.shape
  have there := maps.deref_front (inLog.trans front)
  have here : OverlayMap.derefOr h.disk.file bytes = mapping := maps.deref_front inLog
  exact ⟨bytes, table, tail, is, indexed.represented maps there (inLog.trans front),
    there.trans here.symm⟩

/-- The index of every handle in a run, with the log bytes `h.log` behind its Base.  The
mapping is a front part of the log, and absent only when the table is empty; every offset of the
table decodes in the mapping; the keys of the table and of the tail are distinct; an entry of the
tail is what its offset decodes to in the log.  That is so because `mapped_mutations` places the
operations of a batch behind the log where the record that is appended has them.  So
`install_mapped` changes no answer outside the new batch. -/
theorem overlay_index_invariant (reach : Reach C limit (.opened h m maps)) :
    (∃ bytes table tail, h.db.overlay.index = .mapped bytes table tail ∧
      OverlayMap.Represented h.disk.file h.log bytes table tail) ∧
    (∀ txn ops payloadLen, Staging false txn ops →
      batchPayloadLen (stagedEntries C txn.staged) = .ok payloadLen →
      h.log.length + (writtenRecord (stagedEntries C txn.staged) txn.valueChecksums).length < 2 ^ 64 →
      ∀ d : Disk, d.Quiet → ∃ mutations d',
        mappedMutations (stagedEntries C txn.staged) h.log.length d = (.ok mutations, d') ∧
        List.Forall₂ (fun entry record => MappedRecord.checkedSlices record
            (h.log ++ writtenRecord (stagedEntries C txn.staged) txn.valueChecksums) =
          some (stagedOp entry)) (stagedEntries C txn.staged) mutations) ∧
    ∀ (f : File) (n : Nat) (mutations : List MappedRecord),
      h.log <+: f.slice h.db.base.logStart n →
      (∀ record ∈ mutations, (record.checkedSlices (f.slice h.db.base.logStart n)).isSome) →
      ∃ overlay' removed added,
        h.db.overlay.index.installMapped C f (.mapped h.db.base.logStart n) mutations =
          .ok (overlay', removed, added) ∧
        ∀ key, (∀ record ∈ mutations,
            (record.checkedSlices (f.slice h.db.base.logStart n)).map Prod.fst ≠ some key) →
          overlay'.getHashed f key = h.db.overlay.index.getHashed h.disk.file key := by
  have indexes : h.Indexes := reach.indexes
  refine ⟨?_, ?_, ?_⟩
  · obtain ⟨bytes, table, tail, is, represented, -⟩ := indexes.represented List.prefix_rfl
    exact ⟨bytes, table, tail, is, represented⟩
  · intro txn ops payloadLen staging accepted word d quiet
    have written := writtenRecord_eq accepted (staging.coherent.checksumsMatch C)
    let batch := batchOf C txn ⟨ops, staging.coherent⟩ accepted
    rw [written] at word ⊢
    obtain ⟨mutations, d', ran, -, -, placed⟩ := wp_returns
      (wp_mappedMutations_behind h.log
        (fun entry member => batch.keys (stagedOp entry) (List.mem_map_of_mem member))
        (fun entry member => batch.values (stagedOp entry) (List.mem_map_of_mem member)) word)
      fun _ _ stopped => stopped.1 quiet
    exact ⟨mutations, d', ran, placed.imp fun _ _ => slices_eq_ok.mp⟩
  · intro f n mutations front decodes
    obtain ⟨bytes, table, tail, is, represented, same⟩ := indexes.represented front
    obtain ⟨overlay', removed, added, ran, others⟩ :=
      represented.installMapped C (.mapped h.db.base.logStart n) List.prefix_rfl decodes
    rw [is]
    refine ⟨overlay', removed, added, ran, fun key outside => ?_⟩
    rw [others key outside]
    exact OverlayMap.getHashed_congr same key

/-- After a first commit. -/
theorem overlay_index_invariant_put :
    ∃ h m, Reach zeroHash DatabaseOptions.default.maxDatabaseBytes (.opened h m [m]) ∧
      m [1] = some [2] ∧ ∃ bytes table tail, h.db.overlay.index = .mapped bytes table tail ∧
        OverlayMap.Represented h.disk.file h.log bytes table tail := by
  obtain ⟨h, -, -, -, -, -, reach, -⟩ := reach_put
  exact ⟨h, _, reach, by decide, (overlay_index_invariant reach).1⟩

end Invariant

end Lkv
