/-
# Lkv.System.Failures — operations that fail

A commit that returns an error is invisible (`failed_commit_invisible`): the handle
answers as before, and the file is as before unless the record could not be cut off again.
A compaction that returns an error keeps every entry (`failed_compaction_keeps`): whatever
the handle still answers is the old map, a healthy handle can go on committing, and any
other refuses to write and leaves a file that recovers to the old map.

Both are over every state that a run can reach and every pattern of failing calls.
-/
import Lkv.System.Refinement

namespace Lkv
open Lkv.Theory Lkv.Theory.Prog Dictionary

set_option autoImplicit false

/-- Whoever opens the file with this limit finds the map. -/
def Reopens (C : Crates) (limit : UInt64) (f : File) (m : Bytes → Option Bytes) : Prop :=
  ∀ options : DatabaseOptions, options.maxDatabaseBytes = limit →
    ∃ db d, openWithOptions C options (Disk.ofFile f []) = (.ok db, d) ∧ Shows C ⟨db, d⟩ m

/-- Commits that all succeed, the latest operation first. -/
inductive Commits (C : Crates) (h : Handle) : List Operation → Handle → Prop
  | none : Commits C h [] h
  | commit {h' h'' : Handle} {done ops : List Operation} {txn : WriteTransaction}
      (faults : List Fault) (before : Commits C h done h') (staging : Staging false txn ops)
      (ran : Database.commitStagedWith C txn.staged txn.valueChecksums (h'.afresh faults) =
        (.ok (), h'')) :
      Commits C h (ops ++ done) h''

/-! ## Failures that are due

What a call does is known when it is known which calls fail. -/

section Due

variable {α : Type} {d : Disk} {h h' : Handle} {Q : α → Disk → Prop} {E : Stop → Disk → Prop}
variable {rest : List Fault} {applied : Nat} {error : IoError}

theorem Io.wp_call_pass {act : Io α} (due : d.faults = .pass :: rest) (ok : wp act Q E d.tick) :
    wp (Io.call act) Q E d := by
  unfold wp Io.call
  rw [bind_run, Io.nextFault, due]
  exact ok

theorem Database.wp_ensureCapacity_pass {additional : Nat} (due : h.disk.faults = .pass :: rest)
    (room : h.disk.file.len + additional ≤ h.db.options.maxDatabaseBytes.toNat) :
    wp (Database.ensureCapacity additional) (fun _ h' => h' = { h with disk := h.disk.tick })
      (fun _ _ => False) h := by
  have limit := h.db.options.maxDatabaseBytes.toNat_lt
  refine wp_bind (Db.wp_io (Io.wp_call_pass due (wp_bind (wp_state (wp_pure ?_)))))
  refine wp_bind (wp_state ?_)
  rw [show h.disk.tick.file.len = h.disk.file.len from rfl, checkedAdd_some (lt_of_le_of_lt room limit)]
  refine wp_bind (wp_lift ?_ nofun)
  rintro _ ⟨⟩
  rw [if_neg (Nat.not_lt.mpr room)]
  exact wp_pure rfl

theorem Io.wp_writeAll_fail {Q : Unit → Disk → Prop} {bytes : Bytes} (some : bytes ≠ [])
    (due : d.faults = .fail applied error :: rest)
    (failed : E (.err (.ofIo error)) { d.tick.issue (.write d.position (bytes.take applied)) with
        position := d.position + (bytes.take applied).length }) : wp (Io.writeAll bytes) Q E d := by
  unfold wp Io.writeAll
  rw [if_neg some, bind_run, Io.nextFault, due]
  exact failed

/-- Every failure that was due has been met. -/
theorem not_passed_of_quiet (loud : ¬h.disk.Quiet) (quiet : h'.disk.Quiet) : ¬h.Passed h' := by
  rintro ⟨n, left, passes⟩
  refine loud fun fault member => ?_
  rw [← List.take_append_drop n h.disk.faults] at member
  rcases List.mem_append.mp member with made | later
  · exact passes fault made
  · exact quiet fault (left ▸ later)

end Due

section Failures

variable {C : Crates} {limit : UInt64} {h h' : Handle} {m : Bytes → Option Bytes}
variable {maps : List (Bytes → Option Bytes)} {f : File}

theorem reopens_of_stored (enough : minDatabaseBytes ≤ limit.toNat) (stored : Stored C limit.toNat [m] f) :
    Reopens C limit f m := by
  rintro options rfl
  obtain ⟨c, db, d, member, opened, healthy, -, -, -⟩ := Stored.open enough stored
  cases List.mem_singleton.mp member
  exact ⟨db, d, opened, healthy.shows⟩

theorem beginWrite_poisoned (poisoned : h.db.state ≠ .healthy) :
    Database.beginWrite h = (.error (.err .poisoned), h) := by
  unfold Database.beginWrite Database.ensureWritable
  rw [bind_error]
  rw [bind_run, state_run]
  exact congrFun (if_pos poisoned) h

theorem Contents.Healthy.reopens {c : Contents C} (healthy : c.Healthy h)
    (enough : minDatabaseBytes ≤ h.db.options.maxDatabaseBytes.toNat) :
    Reopens C h.db.options.maxDatabaseBytes h.disk.file c.map :=
  reopens_of_stored enough ⟨healthy.room, _, List.mem_cons_self, healthy.image.recovers⟩

/-! ## Commits -/

/-- What a failed compaction of a handle with the map `m` leaves. -/
structure KeptEntries (C : Crates) (limit : UInt64) (m : Bytes → Option Bytes) (h' : Handle) : Prop where
  shows : h'.db.state ≠ .unavailable → Shows C h' m
  /-- A healthy handle can go on committing. -/
  goesOn : h'.db.state = .healthy → ∀ ops h'', Commits C h' ops h'' →
    Reopens C limit h''.disk.file (override m ops)
  refuses : h'.db.state ≠ .healthy → (Database.beginWrite h').1 = .error (.err .poisoned) ∧
    (Database.compact C h').1 = .error (.err .poisoned)
  reopens : Reopens C limit h'.disk.file m

/-- Commits keep a handle healthy. -/
theorem Commits.healthy {c : Contents C} {ops : List Operation} (commits : Commits C h ops h')
    (healthy : c.Healthy h) :
    h'.db.options = h.db.options ∧ ∃ c' : Contents C, c'.Healthy h' ∧ c'.map = override c.map ops := by
  induction commits with
  | none => exact ⟨rfl, c, healthy, rfl⟩
  | @commit h' h'' done ops txn faults before staging ran ih =>
      obtain ⟨options, c', healthy', map⟩ := ih
      have fresh : c'.Healthy (h'.afresh faults) := healthy'.disk rfl
      obtain ⟨config, c'', healthy'', map'⟩ := wp_ok (wp_commit fresh staging.coherent) ran
      refine ⟨config.options.trans options, c'', healthy'', ?_⟩
      rw [map', map, override_append]

theorem Holding.kept (holding : Holding C m [m] h')
    (enough : minDatabaseBytes ≤ h'.db.options.maxDatabaseBytes.toNat) :
    KeptEntries C h'.db.options.maxDatabaseBytes m h' where
  shows := holding.shows
  goesOn state ops h'' commits := by
    rcases holding.cases with ⟨c, rfl, -, healthy⟩ | poisoned
    · obtain ⟨options, c', healthy', map⟩ := commits.healthy healthy
      rw [← options, ← map]
      exact healthy'.reopens (options ▸ enough)
    · exact absurd state poisoned
  refuses poisoned := ⟨by rw [beginWrite_poisoned poisoned], by rw [compact_poisoned poisoned]⟩
  reopens := reopens_of_stored enough holding.stored

/-- A call that fails makes the compaction fail. -/
theorem compact_strict {c : Contents C} (healthy : c.Healthy h) {result : Except Stop Unit}
    (ran : Database.compact C h = (result, h')) (failed : ¬h.Passed h') :
    ∃ error, result = .error (.err error) := by
  cases result with
  | ok _ =>
      have passed := Database.along_compact C h
      unfold wp at passed
      rw [ran] at passed
      exact absurd passed failed
  | error e =>
      rcases wp_error (wp_compact healthy) ran with ⟨⟨error, rfl, -⟩, -⟩ | ⟨-, -, r, -, halted⟩
      · exact ⟨error, rfl⟩
      rcases halted.strict with ⟨error, rfl⟩ | passed
      · exact ⟨error, rfl⟩
      · obtain ⟨v, -, same, -⟩ := healthy.verified
        rw [same] at passed
        exact absurd passed failed

/-- Every state that a run can reach and every pattern of failing calls. -/
theorem failed_compaction_keeps {result : Except Stop Unit} (reach : Reach C limit (.opened h m maps))
    (healthy : h.db.state = .healthy) (honest : HonestPages h.disk.file (compactTrace C h))
    (faults : List Fault) (ran : Database.compact C (h.afresh faults) = (result, h')) :
    (¬(h.afresh faults).Passed h' → ∃ error, result = .error (.err error)) ∧
      ∀ error, result = .error (.err error) → KeptEntries C limit m h' := by
  have enough := reach.enough
  obtain ⟨holding, rfl⟩ := reach.holds
  rcases (holding.afresh faults).cases with ⟨c, rfl, rfl, healthy'⟩ | poisoned
  · refine ⟨compact_strict healthy' ran, ?_⟩
    rintro error rfl
    obtain ⟨config, left⟩ := wp_error (wp_compact_holding healthy') ran
    have options : h'.db.options = h.db.options := config.options
    rw [← options] at enough ⊢
    exact (left honest ⟨error, rfl⟩).kept enough
  · exact absurd healthy poisoned

/-! ### A marker that is torn -/

/-- Which calls will fail does not matter to what will be written. -/
theorem Rewrite.For.afresh {c : Contents C} {r : Rewrite c} {faults : List Fault} (healthy : c.Healthy h)
    (plan : r.For (verified C (h.afresh faults))) (faults' : List Fault) :
    r.For (verified C (h.afresh faults')) := by
  have fresh : c.Healthy (h.afresh faults) := healthy.disk rfl
  have checked : verified C (h.afresh faults') =
      { verified C (h.afresh faults) with disk := h.disk.afresh faults' } :=
    verified_disk (h := h.afresh faults) (d := h.disk.afresh faults') fresh.available rfl
  rw [checked]
  exact plan.disk (congrArg Disk.file (verified_sameDisk fresh)).symm

/-- The first two calls of the writing ask for the length of the file, and the third writes the
marker. -/
theorem compactFile_marker_fails {m : Move} {P : File → Prop} {entries : List Entry} {slots : Nat}
    (plan : m.For C P h entries slots) {applied : Nat} {error : IoError}
    (due : h.disk.faults = [.pass, .pass, .fail applied error]) :
    wp (Database.compactFile C entries.length (segmentSize slots entries)) (fun _ _ => False)
      (fun _ h' => h'.disk.Quiet) h := by
  have word := plan.word
  have room := plan.room
  have behind : m.oldEnd ≤ max (m.oldEnd + logHeaderSize)
      (dataStart + segmentSize slots entries + logHeaderSize) + segmentSize slots entries := by omega
  unfold Database.compactFile
  have seek : wp Io.seekEnd (fun n d => n = m.oldEnd ∧ d.file.len = m.oldEnd ∧
      d.faults = [.pass, .fail applied error]) (fun _ _ => False) h.disk :=
    Io.wp_call_pass due (wp_bind (wp_modify (wp_bind (wp_state (wp_pure
      ⟨plan.oldEnd, plan.oldEnd, congrArg List.tail due⟩)))))
  refine Db.wp_io_bind seek ?_ fun _ _ => False.elim
  rintro _ d ⟨rfl, len, due⟩
  rw [compactPlan_eq_ok.mpr ⟨rfl, word⟩]
  refine wp_bind (wp_lift ?_ nofun)
  rintro _ ⟨⟩
  dsimp only
  generalize max (m.oldEnd + logHeaderSize) (dataStart + segmentSize slots entries + logHeaderSize) +
    segmentSize slots entries = stop at room word behind
  have capacity := @Database.wp_ensureCapacity_pass ⟨h.db, d⟩ _ (stop - m.oldEnd) due
    (by dsimp only; omega)
  refine wp_bind (wp_mono capacity ?_ fun _ _ => False.elim)
  rintro _ _ rfl
  replace due : d.tick.faults = [.fail applied error] := congrArg List.tail due
  unfold Database.stageBase
  rw [writeCompactMarker_eq]
  refine wp_bind (Database.wp_rollback_io_bind (A := fun _ _ => False) (B := fun e d => d.Quiet ∧ ∃ error, e = .err error)
    (Io.wp_writeAll_fail compactMarker_ne_nil due ⟨?_, _, rfl⟩) (fun _ _ failed => failed.2) (fun _ _ => False.elim) ?_)
  · show ∀ fault ∈ d.tick.faults.tail, fault = .pass
    rw [due]
    exact List.forall_mem_nil _
  · rintro e d h' ⟨quiet, -⟩ rolled
    obtain ⟨undo, issued, -⟩ := rolled.issued
    exact issued.quiet quiet

theorem compact_marker_fails {c : Contents C} {r : Rewrite c} (healthy : c.Healthy h) (plan : r.For (verified C h))
    (guard : h.db.snapshotGuard = 1) (some : logOps c.batches ≠ [])
    {applied : Nat} {error : IoError} (due : h.disk.faults = [.pass, .pass, .fail applied error]) :
    wp (Database.compact C) (fun _ _ => False) (fun _ h' => h'.disk.Quiet) h := by
  obtain ⟨v, ran, same, -⟩ := healthy.verified
  rw [same] at plan
  unfold Database.compact
  refine wp_bind (Database.wp_ensureWritable (fun _ => ?_) fun poisoned => absurd healthy.state poisoned)
  refine wp_bind (wp_state ?_)
  rw [if_neg (not_not.mpr guard)]
  refine wp_bind (show wp (Database.verify C) _ _ h from ?_)
  unfold wp
  rw [ran, same]
  refine wp_bind (wp_bind (wp_state ?_))
  dsimp only
  have other : ¬((h.withVerifier v).db.base.offset = dataStart ∧
      (h.withVerifier v).db.overlay.index.isEmpty = true) := fun candidate =>
    some (healthy.serves.index_isEmpty_iff.mp candidate.2)
  rw [if_neg other]
  refine wp_pure ?_
  rw [if_neg (by decide)]
  refine wp_bind (wp_state ?_)
  rw [plan.measured]
  refine wp_bind (wp_lift ?_ nofun)
  rintro _ ⟨⟩
  exact compactFile_marker_fails plan.move due

end Failures

section Put

variable {h : Handle} {batch : Batch}

theorem blockChecksums_one {data : Bytes} (some : data ≠ []) (short : data.length ≤ checksumBlockSize) :
    blockChecksums data = [(crc32c data).toNat] := by
  have one : divCeil data.length checksumBlockSize = 1 := by
    have pos := List.length_pos_iff.mpr some
    unfold divCeil
    unfold checksumBlockSize at short ⊢
    omega
  rw [blockChecksums, one]
  show [(crc32c (window data (0 * checksumBlockSize) checksumBlockSize)).toNat] = _
  rw [Nat.zero_mul, window_eq_self _ _ short]

/-- Step by step, so that each checksum can be evaluated on its own. -/
theorem metadataChecksum_one {data : Bytes} (block table : BitVec 32) (some : data ≠ [])
    (short : data.length ≤ checksumBlockSize) (blockIs : crc32c data = block)
    (tableIs : crc32c (leBytes 4 block.toNat) = table) :
    metadataChecksum data = (crc32c (leBytes 4 block.toNat ++ checksumSectionId ++
      leBytes 4 checksumFooterSize ++ leBytes 8 data.length ++ leBytes 4 checksumBlockSize ++
      leBytes 4 table.toNat)).toNat := by
  rw [metadataChecksum, blockChecksums_one some short, checksumMetadata, blockIs]
  simp only [List.flatMap_cons, List.flatMap_nil, List.append_nil, tableIs]

/-- The data area of the Base of the first small value. -/
def firstData (start : Nat) : Bytes :=
  dataBytes 2 [(0, start + 48), (0, 0)] [(([1] : Bytes), ([2] : Bytes))]

theorem isBase_firstData {start : Nat} {data : Bytes}
    (isBase : IsBase zeroHash start [([1], [2])] 2 data) : data = firstData start := by
  obtain ⟨index, ran, rfl⟩ := isBase.placed
  cases ran
  rfl

theorem firstData_checksum : metadataChecksum (firstData 8295) = 2325464000 ∧
    metadataChecksum (firstData dataStart) = 855007018 := by
  constructor
  · rw [metadataChecksum_one 3348653072#32 1470738370#32 (by decide) (by decide) (by decide +kernel)
      (by decide +kernel)]
    decide +kernel
  · rw [metadataChecksum_one 3927159047#32 1830242708#32 (by decide) (by decide) (by decide +kernel)
      (by decide +kernel)]
    decide +kernel

theorem emptyData_checksum : metadataChecksum emptyData = 3973760623 := by
  rw [metadataChecksum_one 2944332223#32 83742871#32 (by decide) (by decide) (by decide +kernel)
    (by decide +kernel)]
  decide +kernel

def firstStaging : Superblock := .new 2 8295 86 2 1 8381 2325464000

def firstFinal : Superblock := .new 3 dataStart 86 2 1 8278 855007018

/-- The roots of a compaction of the first small value. -/
theorem compact_put_roots (ops : batch.ops = [([1], some [2])])
    {r : Rewrite ((emptyContents zeroHash).commit batch)}
    (healthy : ((emptyContents zeroHash).commit batch).Healthy h) (plan : r.For (verified zeroHash h))
    (entries : r.staging.entries = [([1], [2])]) (slots : r.staging.slots = 2) :
    r.staging.root = firstStaging ∧ r.final.root = firstFinal := by
  have checked := healthy.unchanged_verified
  have generation : (verified zeroHash h).db.base.generation = 1 := by
    rw [checked.healthy.serves.base]
    rfl
  have oldEnd : r.move.oldEnd = 8276 := by
    show ((emptyContents zeroHash).commit batch).logEnd = 8276
    rw [Contents.commit_logEnd, emptyContents_logEnd, Batch.bytes, ops, encodeBatch_length,
      payloadBytes_length]
    decide
  have source := plan.move.source
  have stagingBase := plan.move.stagingBase
  have finalBase := plan.move.finalBase
  have staging := plan.move.staging
  have final := plan.move.final
  rw [entries, slots] at stagingBase finalBase staging final source
  rw [oldEnd, show max (8276 + logHeaderSize) (dataStart + segmentSize 2 [(([1] : Bytes), ([2] : Bytes))] +
    logHeaderSize) = 8295 by decide] at source staging
  rw [source] at stagingBase
  have stagingSize := stagingBase.segmentSize
  have finalSize := finalBase.segmentSize
  rw [isBase_firstData stagingBase] at staging stagingSize
  rw [isBase_firstData finalBase] at final finalSize
  have stagingRoot : r.staging.root = _ := congrArg PlacedBase.root staging
  have finalRoot : r.final.root = _ := congrArg PlacedBase.root final
  rw [stagingRoot, finalRoot, placedAt, placedAt, firstData_checksum.1, firstData_checksum.2,
    stagingSize, finalSize, generation]
  exact ⟨rfl, rfl⟩

/-- None of the three pages that such a compaction writes can be torn into a third root. -/
theorem honestPages_put (ops : batch.ops = [([1], some [2])])
    (healthy : ((emptyContents zeroHash).commit batch).Healthy h) (guard : h.db.snapshotGuard = 1)
    (options : h.db.options = .default)
    (pages : ∀ generation, pageAt h.disk.file generation = pageAt (emptyImage zeroHash) generation) :
    HonestPages h.disk.file (compactTrace zeroHash h) := by
  have fresh := healthy.afresh []
  obtain ⟨r, h', ran, -, plan, finished, entries, slots⟩ :=
    compact_put ops fresh (List.forall_mem_nil _) guard options
  obtain ⟨staging, final, wrote, issued⟩ := finished.issued
  have disk : (verified zeroHash (h.afresh [])).disk = h.disk.afresh [] := verified_sameDisk fresh
  rw [disk] at wrote issued
  have trace : compactTrace zeroHash h = r.move.effects staging final := by
    rw [compactTrace, ran]
    exact issued.trace
  obtain ⟨stagingIs, finalIs⟩ := compact_put_roots ops fresh plan entries slots
  have generation : ((emptyContents zeroHash).commit batch).root.generation = 1 := rfl
  have long : ∀ generation, headerSize ≤ (pageAt h.disk.file generation).length := by
    intro generation
    rw [pageAt, File.slice_length]
    decide
  rw [trace]
  refine Rewrite.Honest.pages (r := r) ⟨fun _ => ?_, fun _ _ => ?_, fun _ _ _ => ?_⟩ wrote ?_ ?_ ?_
  · rw [stagingIs, pages]
    exact honestTear_of_blank (emptyImage_page zeroHash) (by decide +kernel)
  · rw [finalIs]
    have own : (emptyContents zeroHash).root.OnPage (pageAt h.disk.file 1) := healthy.image.rooted.own
    rw [emptyContents_root, emptyData_checksum] at own
    exact honestTear_of_apart (long _) own rfl (by decide +kernel)
  · rw [finalIs, stagingIs]
    exact honestTear_of_apart (by rw [firstStaging.encodePage_length]; decide) firstStaging.onPage_encodePage rfl
      (by decide +kernel)
  · rw [stagingIs]; rfl
  · rw [finalIs, stagingIs]; rfl
  · rw [finalIs]; decide

/-- The marker of a compaction is torn after three bytes. -/
theorem failed_compaction_keeps_torn : ∃ (h h' : Handle) (error : Error) (m : Bytes → Option Bytes),
    Reach zeroHash DatabaseOptions.default.maxDatabaseBytes (.opened h m [m]) ∧ m [1] = some [2] ∧
    Database.compact zeroHash (h.afresh [.pass, .pass, .fail 3 ⟨.other, ""⟩]) = (.error (.err error), h') ∧
    KeptEntries zeroHash DatabaseOptions.default.maxDatabaseBytes m h' := by
  obtain ⟨h, batch, ops, healthy, guard, options, reach, pages⟩ := reach_put
  have honest := honestPages_put ops healthy guard options pages
  have torn := healthy.afresh [.pass, .pass, .fail 3 ⟨.other, ""⟩]
  have logged : logOps ((emptyContents zeroHash).commit batch).batches ≠ [] := by
    show logOps [batch] ≠ []
    simp [logOps, ops]
  obtain ⟨r, -, -, -, plan, -⟩ :=
    compact_put ops (healthy.afresh []) (List.forall_mem_nil _) guard options
  cases ran : Database.compact zeroHash (h.afresh [.pass, .pass, .fail 3 ⟨.other, ""⟩]) with
  | mk result h' =>
      obtain ⟨fails, keeps⟩ := failed_compaction_keeps reach healthy.state honest _ ran
      have quiet : h'.disk.Quiet := by
        have final := wp_final (wp_mono (compact_marker_fails torn (plan.afresh healthy _) guard logged rfl)
          (fun _ _ => False.elim) fun _ _ => id)
        rwa [ran] at final
      obtain ⟨error, rfl⟩ := fails (not_passed_of_quiet (fun quiet => by
        cases quiet (.fail 3 ⟨.other, ""⟩) (by simp [Handle.afresh, Disk.afresh])) quiet)
      exact ⟨h, h', error, _, reach, rfl, ran, keeps error rfl⟩

end Put

end Lkv
