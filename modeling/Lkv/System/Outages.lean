/-
# Lkv.System.Outages — runs in which power may be lost

A run without failing calls, in which power may be lost during a commit, a compaction or an
open.  At the end of every call the file is synced, so a loss takes away only what the
interrupted call had issued (`Effect.Remains`).

The next open finds the map of before or, if a commit was interrupted, the new one
(`outage_atomicity`), as long as two things are left out that the order of the writes does
not rule out: a compaction whose marker is lost (`MarkerLost`), and a record that did not go to
the file in one write.  A record that fits into the buffer of the writer
does (`wp_appendBatch_once`).
-/
import Lkv.System.Limits
import Lkv.System.PowerLoss
import Lkv.System.Refinement

namespace Lkv
open Lkv.Theory Lkv.Theory.Prog Dictionary

set_option autoImplicit false

/-! ## A record in one write -/

section OneWrite

variable {C : Crates} {d : Disk} {staged : List StagedEntry}

/-- A record that fits into the buffer is appended by one write. -/
theorem wp_appendBatch_once {payloadLen : Nat} {valueChecksums : KeyMap (BitVec 32)}
    (accepted : batchPayloadLen staged = .ok payloadLen)
    (fits : logHeaderSize + payloadLen ≤ logWriteBufferSize) :
    wp (appendBatch staged valueChecksums)
      (fun _ d' => ∃ bytes, Disk.Issued [.write d.position bytes] d d')
      (fun e _ => ∃ error, e = .err error) d := by
  refine Io.wp_withBufWriter (wp_bind (wp_mono (wp_writeBatchRecord_buffered accepted fits rfl) ?_
    fun _ _ => False.elim))
  rintro _ _ ⟨bytes, some, rfl⟩
  refine wp_bind (wp_state ?_)
  rw [if_neg some]
  refine wp_bind (Io.wp_nextFault (wp_modify ⟨rfl, bytes, ?_⟩) fun _ _ _ => ?_)
  · exact ⟨rfl, rfl, fun quiet => (Disk.issued_tick d).quiet quiet⟩
  · exact wp_bind (wp_modify (wp_stop ⟨_, rfl⟩))

/-- What a commit issues that returns. -/
theorem wp_commitStagedWith_once {txn : WriteTransaction} {h : Handle}
    (fits : (encodeBatch ((stagedEntries C txn.staged).map stagedOp)).length ≤ logWriteBufferSize) :
    wp (Database.commitStagedWith C txn.staged txn.valueChecksums)
      (fun _ h' => Disk.Issued [] h.disk h'.disk ∨
        ∃ offset bytes, Disk.Issued [.write offset bytes, .sync] h.disk h'.disk) (fun _ _ => True) h := by
  have same := Disk.Issued.refl h.disk
  unfold Database.commitStagedWith
  refine wp_bind (Database.wp_ensureWritable (fun healthy => ?_) fun _ => trivial)
  dsimp only
  split
  · exact wp_pure (.inl same)
  refine wp_bind (wp_lift (fun payloadLen accepted => ?_) fun _ _ => trivial)
  have size : (encodeBatch ((stagedEntries C txn.staged).map stagedOp)).length =
      logHeaderSize + payloadLen := by
    rw [encodeBatch_length, ← (batchPayloadLen_eq_ok.mp accepted).2.1]
  refine wp_bind (wp_lift (fun recordLen summed => ?_) fun _ _ => trivial)
  have once := Disk.issued_tick h.disk
  refine wp_bind (Database.wp_ensureCapacity (fun room => ?_) fun _ _ => trivial)
  refine wp_bind (Db.wp_io (Io.wp_seekEnd ?_ fun _ _ => trivial))
  have issued1 := once.trans (Disk.issued_seek h.disk.tick h.disk.file.len)
  refine wp_bind (wp_state (wp_bind (wp_lift (fun batchOffset _ => ?_) fun _ _ => trivial)))
  refine Db.wp_io_bind (wp_mappedMutations_kept _ _) ?_ fun _ _ _ => trivial
  rintro mutations d2 ⟨issued2, -⟩
  have issued2 := issued1.trans issued2
  refine Database.wp_rollback_io_bind (wp_appendBatch_once accepted (size ▸ fits)) (fun _ _ => id) ?_
    fun _ _ _ _ _ => trivial
  rintro _ d3 ⟨bytes, issued3⟩
  have issued3 := issued2.trans issued3
  refine Database.wp_rollback_io_bind (A := fun _ d => Disk.Issued [.sync] d3 d)
    (B := fun e _ => ∃ error, e = .err error)
    (Io.wp_syncData (Disk.issued_issue _ .sync) fun error _ => ⟨error, rfl⟩) (fun _ _ => id) ?_
    fun _ _ _ _ _ => trivial
  intro _ d4 issued4
  have issued4 := issued3.trans issued4
  -- What is left only reads: the length, and the mapping of the log.
  refine Database.wp_rollback_bind (A := fun _ h₅ => Disk.Issued [] d4 h₅.disk)
    (B := fun e _ => ∃ error, e = .err error) ?_ (fun _ _ => id) ?_ fun _ _ _ _ _ => trivial
  · refine wp_bind (Db.wp_io (Io.wp_len ?_ fun error _ => ⟨error, rfl⟩))
    refine wp_bind (wp_state (wp_lift (fun _ _ => Disk.issued_tick d4) fun e failed => ?_))
    obtain ⟨error, rfl, -⟩ := failsWith_orFail (P := fun _ => True) _ trivial e failed
    exact ⟨error, rfl⟩
  intro _ h₅ issued5
  have issued5 := issued4.trans issued5
  have done : ∀ {d : Disk}, Disk.Issued [] h₅.disk d → Disk.Issued [] h.disk d ∨
      ∃ offset bytes, Disk.Issued [.write offset bytes, .sync] h.disk d :=
    fun issued => .inr ⟨_, _, issued5.trans issued⟩
  refine wp_bind (wp_state ?_)
  split
  · refine Database.wp_rollback_io_bind (Io.wp_map_inside h₅.disk _ _) (fun _ _ => And.left) ?_
      fun _ _ _ _ _ => trivial
    rintro mapping d ⟨-, issued⟩
    exact wp_bind (wp_lift (fun overlay _ => wp_modify (done issued)) fun _ _ => trivial)
  · exact wp_bind (wp_lift (fun overlay _ => wp_modify (done (Disk.Issued.refl _))) fun _ _ => trivial)

variable {c : Contents C} {h h' : Handle} {batch : Batch} {txn : WriteTransaction} {ops : List Operation}

theorem Committed.once (committed : Committed c batch h h')
    (wrote : Disk.Issued [] h.disk h'.disk ∨
      ∃ offset bytes, Disk.Issued [.write offset bytes, .sync] h.disk h'.disk) :
    Disk.Issued [.write c.logEnd batch.bytes, .sync] h.disk h'.disk := by
  obtain ⟨chunks, whole, issued⟩ := committed.wrote
  rcases wrote with nothing | ⟨offset, bytes, one⟩
  · have same := List.append_cancel_left (issued.trace.symm.trans nothing.trace)
    exact absurd same (List.append_ne_nil_of_right_ne_nil _ (List.cons_ne_nil _ _))
  · have same : Effect.chunked c.logEnd chunks ++ [.sync] = [.write offset bytes] ++ [.sync] :=
      List.append_cancel_left (issued.trace.symm.trans one.trace)
    have single := List.append_cancel_right same
    cases chunks with
    | nil => cases single
    | cons chunk rest =>
        cases rest with
        | nil =>
            rw [List.flatten_singleton] at whole
            subst whole
            exact issued
        | cons => cases single

/-- Losing power during a commit of a record that fits into the buffer. -/
theorem commit_endures (healthy : c.Healthy h) (quiet : h.disk.Quiet) (fresh : h.disk.trace = [])
    (coherent : Coherent txn ops)
    (fits : (encodeBatch ((stagedEntries C txn.staged).map stagedOp)).length ≤ logWriteBufferSize) :
    Effect.Endures (Stored C h.db.options.maxDatabaseBytes.toNat [c.map, override c.map ops])
      h.disk.file (Database.commitStagedWith C txn.staged txn.valueChecksums h).2.disk.trace := by
  have before : Stored C h.db.options.maxDatabaseBytes.toNat [c.map, override c.map ops] h.disk.file :=
    ⟨healthy.room, c.map, List.mem_cons_self, healthy.image.recovers⟩
  have still : ∀ {h' : Handle}, Disk.Issued [] h.disk h'.disk → h'.disk.trace = [] := by
    intro h' issued
    rw [issued.trace, fresh]
    rfl
  cases ran : Database.commitStagedWith C txn.staged txn.valueChecksums h with
  | mk result h' =>
      cases result with
      | ok _ =>
          obtain ⟨-, rfl⟩ | ⟨batch, staged, -, committed⟩ :=
            wp_ok (wp_commitStagedWith healthy ⟨ops, coherent⟩) ran
          · show Effect.Endures _ _ h'.disk.trace
            rw [fresh]
            exact Effect.endures_nil before
          · have wrote := wp_ok (wp_commitStagedWith_once fits) ran
            have issued := committed.once wrote
            have trace : h'.disk.trace = [.write c.logEnd batch.bytes] ++ .sync :: [] := by
              rw [issued.trace, fresh]
              rfl
            have len : h'.disk.file.len = (c.commit batch).logEnd := committed.healthy.image.len
            have room := committed.healthy.room
            rw [committed.options, len, c.commit_logEnd] at room
            have after := healthy.image.stored_record room h.db.options.maxDatabaseBytes.toNat_lt
              (List.prefix_refl batch.bytes)
            rw [coherent.commit_map staged] at after
            show Effect.Endures _ _ h'.disk.trace
            rw [trace]
            exact Effect.endures_single Effect.noConfusion before (Effect.endures_nil after) after
      | error e =>
          obtain ⟨-, ⟨refused, -⟩ | ⟨batch, -, broken⟩⟩ :=
            wp_error (wp_commitStagedWith healthy ⟨ops, coherent⟩) ran
          · show Effect.Endures _ _ h'.disk.trace
            rw [still refused.disk]
            exact Effect.endures_nil before
          · exact absurd quiet broken.failing

end OneWrite

/-! ## Runs -/

section Runs

variable (C : Crates) (limit : UInt64)

/-- A call in which nothing failed. -/
inductive Undisturbed : World → World → Prop
  | commit {h h' : Handle} {m : Bytes → Option Bytes} {maps : List (Bytes → Option Bytes)}
      {txn : WriteTransaction} {ops : List Operation} (staging : Staging false txn ops)
      (ran : Database.commitStagedWith C txn.staged txn.valueChecksums (h.afresh []) = (.ok (), h')) :
      Undisturbed (.opened h m maps) (.opened h' (override m ops) [override m ops])
  | commitRefused {h h' : Handle} {m : Bytes → Option Bytes} {maps : List (Bytes → Option Bytes)}
      {txn : WriteTransaction} {ops : List Operation} {error : Error} (staging : Staging false txn ops)
      (ran : Database.commitStagedWith C txn.staged txn.valueChecksums (h.afresh []) =
        (.error (.err error), h')) :
      Undisturbed (.opened h m maps) (.opened h' m maps)
  | compact {h h' : Handle} {m : Bytes → Option Bytes} {maps : List (Bytes → Option Bytes)}
      (ran : Database.compact C (h.afresh []) = (.ok (), h')) :
      Undisturbed (.opened h m maps) (.opened h' m maps)
  | compactRefused {h h' : Handle} {m : Bytes → Option Bytes} {maps : List (Bytes → Option Bytes)}
      {error : Error} (ran : Database.compact C (h.afresh []) = (.error (.err error), h')) :
      Undisturbed (.opened h m maps) (.opened h' m maps)
  | read {h : Handle} {m : Bytes → Option Bytes} {maps : List (Bytes → Option Bytes)} (query : Query) :
      Undisturbed (.opened h m maps) (.opened (query.after C h) m maps)
  | snapshot {h : Handle} {m : Bytes → Option Bytes} {maps : List (Bytes → Option Bytes)} :
      Undisturbed (.opened h m maps) (.opened (Database.snapshot h).2 m maps)
  | dropSnapshot {h : Handle} {m : Bytes → Option Bytes} {maps : List (Bytes → Option Bytes)}
      (live : 1 < h.db.snapshotGuard) :
      Undisturbed (.opened h m maps)
        (.opened { h with db := { h.db with snapshotGuard := h.db.snapshotGuard - 1 } } m maps)
  | close {h : Handle} {m : Bytes → Option Bytes} {maps : List (Bytes → Option Bytes)} :
      Undisturbed (.opened h m maps) (.closed h.disk.file maps)
  | reopen {f : File} {maps : List (Bytes → Option Bytes)} {options : DatabaseOptions} {db : Database}
      {d : Disk} (same : options.maxDatabaseBytes = limit)
      (ran : openWithOptions C options (Disk.ofFile f []) = (.ok db, d)) :
      Undisturbed (.closed f maps) (.opened ⟨db, d⟩ (shown C ⟨db, d⟩) [shown C ⟨db, d⟩])

/-- Power is lost during a call. -/
inductive Outage : World → World → Prop
  | commit {h : Handle} {m : Bytes → Option Bytes} {maps : List (Bytes → Option Bytes)}
      {txn : WriteTransaction} {ops : List Operation} {durable kept : List Effect}
      (staging : Staging false txn ops)
      (fits : (encodeBatch ((stagedEntries C txn.staged).map stagedOp)).length ≤ logWriteBufferSize)
      (remains : Effect.Remains (Database.commitStagedWith C txn.staged txn.valueChecksums
        (h.afresh [])).2.disk.trace durable kept) :
      Outage (.opened h m maps)
        (.closed (Effect.applyAll h.disk.file (durable ++ kept)) [m, override m ops])
  | compact {h : Handle} {m : Bytes → Option Bytes} {maps : List (Bytes → Option Bytes)}
      {durable kept : List Effect} (remains : Effect.Remains (compactTrace C h) durable kept)
      (marked : ¬MarkerLost h.disk.file.len durable kept) :
      Outage (.opened h m maps) (.closed (Effect.applyAll h.disk.file (durable ++ kept)) maps)
  | reopen {f : File} {maps : List (Bytes → Option Bytes)} {options : DatabaseOptions}
      {durable kept : List Effect} (same : options.maxDatabaseBytes = limit)
      (remains : Effect.Remains (openWithOptions C options (Disk.ofFile f [])).2.trace durable kept) :
      Outage (.closed f maps) (.closed (Effect.applyAll f (durable ++ kept)) maps)

/-- What a run can reach that starts with a creation and in which power may be lost. -/
inductive Powered : World → Prop
  | create {options : DatabaseOptions} {db : Database} {d : Disk}
      (same : options.maxDatabaseBytes = limit)
      (ran : createWithOptions C options (Disk.ofFile File.empty []) = (.ok db, d)) :
      Powered (.opened ⟨db, d⟩ (fun _ => none) [fun _ => none])
  | call {w w' : World} (before : Powered w) (call : Undisturbed C limit w w') : Powered w'
  | outage {w w' : World} (before : Powered w) (outage : Outage C limit w w') : Powered w'

end Runs

section Invariant

variable {C : Crates} {limit : UInt64} {w w' : World}

/-- With no failing call every handle stays healthy, so that the file is what it holds. -/
def World.Sound (C : Crates) (limit : UInt64) : World → Prop
  | .opened h m maps => maps = [m] ∧ h.db.options.maxDatabaseBytes = limit ∧
      ∃ c : Contents C, c.map = m ∧ c.Healthy h
  | .closed f maps => Stored C limit.toNat maps f

theorem Contents.Healthy.guard {c : Contents C} {h : Handle} (healthy : c.Healthy h) (guard : Nat) :
    c.Healthy { h with db := { h.db with snapshotGuard := guard } } :=
  ⟨healthy.serves.congr rfl rfl healthy.serves.held, healthy.state, healthy.image, healthy.room⟩

theorem Undisturbed.sound (enough : minDatabaseBytes ≤ limit.toNat) (call : Undisturbed C limit w w')
    (before : w.Sound C limit) : w'.Sound C limit := by
  cases call with
  | @commit h h' m maps txn ops staging ran =>
      obtain ⟨rfl, rfl, c, rfl, healthy⟩ := before
      obtain ⟨config, c', healthy', map⟩ := wp_ok (wp_commit (healthy.afresh []) staging.coherent) ran
      exact ⟨rfl, congrArg _ config.options, c', map, healthy'⟩
  | @commitRefused h h' m maps txn ops error staging ran =>
      obtain ⟨rfl, rfl, c, rfl, healthy⟩ := before
      obtain ⟨-, refused | ⟨batch, -, -, broken⟩⟩ :=
        wp_error (wp_commit (healthy.afresh []) staging.coherent) ran
      · obtain ⟨db, d⟩ := h'
        cases refused.db
        exact ⟨rfl, rfl, c, rfl, healthy.disk refused.disk.kept⟩
      · exact absurd (List.forall_mem_nil _) broken.failing
  | @compact h h' m maps ran =>
      obtain ⟨rfl, rfl, c, rfl, healthy⟩ := before
      obtain ⟨config, c', healthy', map⟩ := wp_ok (wp_compact_holding (healthy.afresh [])) ran
      exact ⟨rfl, congrArg _ config.options, c', map, healthy'⟩
  | @compactRefused h h' m maps error ran =>
      obtain ⟨rfl, rfl, c, rfl, healthy⟩ := before
      have fresh := healthy.afresh []
      have config := (wp_error (wp_compact_holding fresh) ran).1
      exact ⟨rfl, congrArg _ config.options, c, rfl, compact_refused fresh (List.forall_mem_nil _) ran⟩
  | read query =>
      obtain ⟨rfl, rfl, c, rfl, healthy⟩ := before
      obtain ⟨v, same, checks⟩ := query.after_serves healthy.serves healthy.available
      rw [same]
      exact ⟨rfl, rfl, c, rfl, healthy.withVerifier checks⟩
  | @snapshot h m maps =>
      obtain ⟨rfl, rfl, c, rfl, healthy⟩ := before
      rcases snapshot_after h with same | same <;> rw [same]
      · exact ⟨rfl, rfl, c, rfl, healthy⟩
      · exact ⟨rfl, rfl, c, rfl, healthy.guard _⟩
  | dropSnapshot live =>
      obtain ⟨rfl, rfl, c, rfl, healthy⟩ := before
      exact ⟨rfl, rfl, c, rfl, healthy.guard _⟩
  | close =>
      obtain ⟨rfl, rfl, c, rfl, healthy⟩ := before
      exact Rewrite.stored_one healthy.room healthy.image.recovers
  | reopen same ran =>
      subst same
      obtain ⟨c, db, d, -, opened, healthy, optionsIs, -, -⟩ := Stored.open enough before
      cases ran.symm.trans opened
      rw [shown_eq healthy.shows]
      exact ⟨rfl, congrArg _ optionsIs, c, rfl, healthy⟩

/-- Losing power during an open, which at most cuts off a dead tail. -/
theorem open_endures {f : File} {maps : List (Bytes → Option Bytes)} {options : DatabaseOptions}
    (enough : minDatabaseBytes ≤ options.maxDatabaseBytes.toNat)
    (stored : Stored C options.maxDatabaseBytes.toNat maps f) :
    Effect.Endures (Stored C options.maxDatabaseBytes.toNat maps) f
      (openWithOptions C options (Disk.ofFile f [])).2.trace := by
  have now := stored
  obtain ⟨room, m, member, c, tail, image, rfl⟩ := stored
  obtain ⟨db, d, ran, -, -, -, traced, -⟩ := open_image image enough room
  have cut : Stored C options.maxDatabaseBytes.toNat maps (f.setLen c.logEnd) :=
    ⟨image.long.trans room, _, member, image.truncate.recovers⟩
  rw [ran]
  show Effect.Endures _ _ d.trace
  rw [traced, OpenEffects]
  split
  · exact Effect.endures_nil now
  · exact Effect.endures_single Effect.noConfusion now (Effect.endures_nil cut) cut

theorem Outage.sound (enough : minDatabaseBytes ≤ limit.toNat) (outage : Outage C limit w w')
    (before : w.Sound C limit) : w'.Sound C limit := by
  cases outage with
  | commit staging fits remains =>
      obtain ⟨rfl, rfl, c, rfl, healthy⟩ := before
      exact commit_endures (healthy.afresh []) (List.forall_mem_nil _) rfl staging.coherent fits _ _ remains
  | @compact h m maps durable kept remains marked =>
      obtain ⟨rfl, rfl, c, rfl, healthy⟩ := before
      have image := healthy.image
      have len : h.disk.file.len = c.logEnd := image.len
      rw [len] at marked
      rcases Rewrite.compactTrace_guarded healthy with ⟨nothing, -⟩ | guarded
      · rw [nothing] at remains
        obtain ⟨rfl, rfl⟩ := Effect.remains_nil remains
        exact Rewrite.stored_one healthy.room image.recovers
      · exact guarded.stored image remains marked
  | reopen same remains =>
      subst same
      exact open_endures enough before _ _ remains

theorem Powered.sound (powered : Powered C limit w) :
    minDatabaseBytes ≤ limit.toNat ∧ w.Sound C limit := by
  induction powered with
  | create same ran =>
      have reach := Reach.create same ran
      have enough := reach.enough
      subst same
      obtain ⟨db, d, created, healthy, optionsIs, -, -⟩ := create_ok C enough
      cases ran.symm.trans created
      exact ⟨enough, rfl, congrArg _ optionsIs, _, emptyContents_map C, healthy⟩
  | call before call ih => exact ⟨ih.1, call.sound ih.1 ih.2⟩
  | outage before outage ih => exact ⟨ih.1, outage.sound ih.1 ih.2⟩

end Invariant

end Lkv
