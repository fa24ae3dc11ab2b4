/-
# Lkv.System.Refinement — a database is a map

What a client of one file database sees when no call fails: it creates the database, begins
transactions, stages operations in them, commits, aborts or drops them, compacts, reads, closes
and reopens, in any order (`Run`).  Alongside goes a reference map, which only a successful
commit changes; the last staged operation on a key wins.

`run_refines_map`: after every step the database answers as the map, and inside a transaction
reading shows the map overridden by what is staged.
-/
import Lkv.Database.Transacting
import Lkv.System.Runs

namespace Lkv
open Lkv.Theory Lkv.Theory.Prog Dictionary

set_option autoImplicit false

/-- Where a client is. -/
inductive Session where
  | idle (h : Handle)
  | writing (h : Handle) (txn : WriteTransaction) (ops : List Operation)
  | closed (f : File)

/-- Runs without failing calls and without a crash, with the reference map.  A refused call
leaves the map as it is. -/
inductive Run (C : Crates) : Session → (Bytes → Option Bytes) → Prop
  | create {options : DatabaseOptions} {db : Database} {d : Disk}
      (ran : createWithOptions C options (Disk.ofFile File.empty []) = (.ok db, d)) :
      Run C (.idle ⟨db, d⟩) fun _ => none
  | begin {h h' : Handle} {m : Bytes → Option Bytes} {txn : WriteTransaction}
      (before : Run C (.idle h) m) (ran : Database.beginWrite (h.afresh []) = (.ok txn, h')) :
      Run C (.writing h' txn []) m
  | stage {h : Handle} {m : Bytes → Option Bytes} {txn : WriteTransaction} {ops : List Operation}
      {t : Transaction} (before : Run C (.writing h txn ops) m) (call : TxCall) (faults : List Fault)
      (ran : call.run false ⟨txn, faults⟩ = (.ok (), t)) :
      Run C (.writing h t.txn (call.operation false :: ops)) m
  | stageFails {h : Handle} {m : Bytes → Option Bytes} {txn : WriteTransaction} {ops : List Operation}
      {t : Transaction} {e : Stop} (before : Run C (.writing h txn ops) m) (call : TxCall)
      (faults : List Fault) (ran : call.run false ⟨txn, faults⟩ = (.error e, t)) :
      Run C (.writing h t.txn ops) m
  | commit {h h' : Handle} {m : Bytes → Option Bytes} {txn : WriteTransaction} {ops : List Operation}
      (before : Run C (.writing h txn ops) m) (ran : txn.commit C (h.afresh []) = (.ok (), h')) :
      Run C (.idle h') (override m ops)
  | commitFails {h h' : Handle} {m : Bytes → Option Bytes} {txn : WriteTransaction}
      {ops : List Operation} {e : Stop} (before : Run C (.writing h txn ops) m)
      (ran : txn.commit C (h.afresh []) = (.error e, h')) : Run C (.idle h') m
  /-- `abort`, or the transaction is dropped. -/
  | abort {h : Handle} {m : Bytes → Option Bytes} {txn : WriteTransaction} {ops : List Operation}
      (before : Run C (.writing h txn ops) m) : Run C (.idle h) m
  | compact {h h' : Handle} {m : Bytes → Option Bytes} (before : Run C (.idle h) m)
      (ran : Database.compact C (h.afresh []) = (.ok (), h')) : Run C (.idle h') m
  | compactFails {h h' : Handle} {m : Bytes → Option Bytes} {error : Error}
      (before : Run C (.idle h) m)
      (ran : Database.compact C (h.afresh []) = (.error (.err error), h')) : Run C (.idle h') m
  | read {h : Handle} {m : Bytes → Option Bytes} (before : Run C (.idle h) m) (query : Query) :
      Run C (.idle (query.after C h)) m
  | close {h : Handle} {m : Bytes → Option Bytes} (before : Run C (.idle h) m) :
      Run C (.closed h.disk.file) m
  | reopen {f : File} {m : Bytes → Option Bytes} {options : DatabaseOptions} {db : Database} {d : Disk}
      (before : Run C (.closed f) m)
      (ran : openWithOptions C options (Disk.ofFile f []) = (.ok db, d)) : Run C (.idle ⟨db, d⟩) m

/-! ## The invariant -/

/-- The contents behind a session, with the reference map. -/
def Session.Holds (C : Crates) (m : Bytes → Option Bytes) : Session → Prop
  | .idle h => ∃ c : Contents C, c.Healthy h ∧ c.map = m
  | .writing h txn ops => (∃ c : Contents C, c.Healthy h ∧ c.map = m) ∧ Staging false txn ops
  | .closed f => ∃ c : Contents C, c.Image f [] ∧ c.map = m

section Steps

variable {C : Crates} {c : Contents C} {h h' : Handle} {e : Stop}

/-- Without failing calls a compaction does not stop with an error half way. -/
theorem Move.Halted.loud {m : Move} {entries : List Entry} {slots : Nat}
    (halted : m.Halted entries slots h e h') (fails : ∃ error, e = .err error) : ¬h.disk.Quiet := by
  have panics : ¬∃ message, e = .panic message := by
    rintro ⟨message, rfl⟩
    obtain ⟨error, ⟨⟩⟩ := fails
  cases halted with
  | staging failed => exact failed.1
  | staged staging writes panicked => exact absurd panicked panics
  | switching staging effects writes failed => exact failed.1
  | moving staging part writes stopped =>
      rcases stopped with failed | ⟨-, -, panicked⟩
      · exact failed.1
      · exact absurd panicked panics
  | settling staging final effects wrote failed => exact failed.1
  | doubling staging final effects wrote failed => exact failed.1
  | settled staging final wrote panicked => exact absurd panicked panics
  | cutting staging final effects wrote failed => exact failed.1

/-- Without failing calls only a generation that overflows stops it. -/
theorem Move.Halted.overflow {m : Move} {entries : List Entry} {slots : Nat}
    (halted : m.Halted entries slots h e h') (quiet : h.disk.Quiet) :
    2 ^ 64 ≤ h.db.base.generation + 3 := by
  cases halted with
  | staging failed => exact absurd quiet failed.1
  | staged staging writes panicked overflow => omega
  | switching staging effects writes failed => exact absurd quiet failed.1
  | moving staging part writes stopped =>
      rcases stopped with failed | ⟨overflow, -⟩
      · exact absurd quiet failed.1
      · omega
  | settling staging final effects wrote failed => exact absurd quiet failed.1
  | doubling staging final effects wrote failed => exact absurd quiet failed.1
  | settled staging final wrote panicked overflow => exact overflow
  | cutting staging final effects wrote failed => exact absurd quiet failed.1

theorem verified_sameDisk (healthy : c.Healthy h) : (verified C h).disk = h.disk := by
  obtain ⟨v, -, same, -⟩ := healthy.verified
  rw [same]
  rfl

/-- So a refused compaction leaves the handle healthy on the same contents. -/
theorem compact_refused (healthy : c.Healthy h) (quiet : h.disk.Quiet) {error : Error}
    (ran : Database.compact C h = (.error (.err error), h')) : c.Healthy h' := by
  obtain ⟨-, unchanged⟩ | ⟨-, -, r, -, halted⟩ := wp_error (wp_compact healthy) ran
  · exact unchanged.healthy
  · exact absurd ((verified_sameDisk healthy).symm ▸ quiet) (halted.loud ⟨error, rfl⟩)

/-- Without failing calls a compaction of entries that fit returns. -/
theorem compact_returns (healthy : c.Healthy h) (quiet : h.disk.Quiet) (guard : h.db.snapshotGuard = 1)
    (young : c.root.generation + 3 < 2 ^ 64) (unsettled : ¬c.Settled) {entries : List Entry} {slots : Nat}
    (lists : Lists c.map entries) (count : baseSlotCount entries.length = .ok slots)
    (room : max (c.logEnd + logHeaderSize) (dataStart + segmentSize slots entries + logHeaderSize) +
      segmentSize slots entries ≤ h.db.options.maxDatabaseBytes.toNat) :
    ∃ (r : Rewrite c) (h' : Handle), Database.compact C h = (.ok (), h') ∧ r.final.Healthy h' ∧
      r.For (verified C h) ∧ r.move.Finished r.staging.entries r.staging.slots (verified C h) h' ∧
      r.staging.entries.Perm entries := by
  have limit := h.db.options.maxDatabaseBytes.toNat_lt
  have checked := healthy.unchanged_verified
  have same := verified_sameDisk healthy
  have generation : (verified C h).db.base.generation = c.root.generation := by
    rw [checked.healthy.serves.base]
    rfl
  -- What is measured is a permutation of the entries, so it has their number and their size.
  have listed : ∀ {others : List Entry}, Lists c.map others → others.Perm entries := fun other =>
    perm_of_latest other.distinct lists.distinct fun key =>
      congrFun (other.eq_latest.symm.trans lists.eq_latest) key
  have sized : ∀ {others : List Entry}, others.Perm entries →
      segmentSize slots others = segmentSize slots entries := fun perm => by
    rw [segmentSize, segmentSize, totalSize_perm perm]
  obtain ⟨r, plan⟩ : ∃ r : Rewrite c, r.For (verified C h) := by
    rcases Rewrite.measure_cases checked.healthy with
      ⟨error, others, -, -, other, excess⟩ | ⟨others, slots', other, -, -, -, count', -, ran⟩
    · have perm := listed other
      have long := excess slots (perm.length_eq ▸ count)
      rw [sized perm] at long
      omega
    · have perm := listed other
      rw [perm.length_eq, count] at count'
      obtain rfl := Except.ok.inj count'
      obtain ⟨r, plan, -⟩ := Rewrite.exists_for checked.healthy ran
        (by rw [sized perm, checked.config.options]; exact room)
      exact ⟨r, plan⟩
  obtain ⟨_, h', ran, finished⟩ := wp_returns (wp_compact_for healthy guard unsettled plan) (by
    rintro e h' (failed | halted)
    · exact failed.1 quiet
    · have overflow := halted.overflow (same ▸ quiet)
      omega)
  have final := Rewrite.finished_healthy checked.healthy plan finished
  refine ⟨r, h', ran, final, plan, finished, listed ?_⟩
  have lists := lists_latest r.staging.distinct
  have fresh : latest r.staging.entries = c.map := by
    rw [← r.stagingMap, Contents.map, r.stagingFresh]
    rfl
  exact fresh ▸ lists

/-- Compacting the first small value. -/
theorem compact_put {batch : Batch} (ops : batch.ops = [([1], some [2])])
    (healthy : ((emptyContents zeroHash).commit batch).Healthy h) (quiet : h.disk.Quiet)
    (guard : h.db.snapshotGuard = 1) (options : h.db.options = .default) :
    ∃ (r : Rewrite ((emptyContents zeroHash).commit batch)) (h' : Handle),
      Database.compact zeroHash h = (.ok (), h') ∧ r.final.Healthy h' ∧ r.For (verified zeroHash h) ∧
      r.move.Finished r.staging.entries r.staging.slots (verified zeroHash h) h' ∧
      r.staging.entries = [([1], [2])] ∧ r.staging.slots = 2 := by
  have lists : Lists ((emptyContents zeroHash).commit batch).map [(([1] : Bytes), ([2] : Bytes))] := by
    rw [Contents.commit_map, ops, emptyContents_map]
    exact (lists_latest distinct_nil).override (List.nodup_singleton _)
  have small : ((emptyContents zeroHash).commit batch).logEnd ≤ 10000 := by
    rw [Contents.commit_logEnd, emptyContents_logEnd, Batch.bytes, ops, encodeBatch_length,
      payloadBytes_length]
    decide
  have unsettled : ¬((emptyContents zeroHash).commit batch).Settled := fun settled =>
    absurd settled.fresh (List.append_ne_nil_of_right_ne_nil _ (List.cons_ne_nil _ _))
  obtain ⟨r, h', ran, healthy', plan, finished, perm⟩ := compact_returns healthy quiet guard
    (show (emptyContents zeroHash).root.generation + 3 < 2 ^ 64 by rw [emptyContents_root]; decide) unsettled
    lists (show baseSlotCount 1 = .ok 2 by decide) (by
      have size : segmentSize 2 [(([1] : Bytes), ([2] : Bytes))] ≤ 100 := by decide
      have start : dataStart ≤ 10000 := by decide
      have header : logHeaderSize ≤ 100 := by decide
      have limit : 40000 ≤ DatabaseOptions.default.maxDatabaseBytes.toNat := by decide
      rw [options]
      omega)
  have entries := perm.eq_singleton
  refine ⟨r, h', ran, healthy', plan, finished, entries, ?_⟩
  have count := r.staging.isBase.count
  rw [entries] at count
  exact (Except.ok.inj count).symm

theorem commit_refused (healthy : c.Healthy h) (quiet : h.disk.Quiet) {txn : WriteTransaction}
    (coherent : ∃ ops, Coherent txn ops) (ran : txn.commit C h = (.error e, h')) : c.Healthy h' := by
  obtain ⟨-, ⟨refused, -⟩ | ⟨batch, -, broken⟩⟩ := wp_error (wp_commitStagedWith healthy coherent) ran
  · obtain ⟨db', d'⟩ := h'
    obtain ⟨rfl, issued⟩ := refused
    exact healthy.disk issued.kept
  · exact absurd quiet broken.failing

/-- An open that succeeds had options that allow the file. -/
theorem wp_open_allowed (options : DatabaseOptions) (d : Disk) :
    wp (openWithOptions C options)
      (fun _ _ => minDatabaseBytes ≤ options.maxDatabaseBytes.toNat ∧
        d.file.len ≤ options.maxDatabaseBytes.toNat) (fun _ _ => True) d := by
  refine wp_bind (wp_lift (fun _ valid => ?_) fun _ _ => trivial)
  have enough : minDatabaseBytes ≤ options.maxDatabaseBytes.toNat := by
    unfold validateOptions at valid
    split at valid
    · cases valid
    · rename_i few
      exact Nat.not_lt.mp few
  refine wp_bind (wp_bind (Io.wp_call (wp_pure ?_) fun _ _ => trivial))
  refine wp_bind (Io.wp_nextFault (wp_pure (wp_bind (Io.wp_len ?_ fun _ _ => trivial)))
    fun _ _ _ => wp_stop trivial)
  show wp (if d.file.len > options.maxDatabaseBytes.toNat then _ else _) _ _ _
  split
  · exact wp_stop trivial
  · rename_i room
    have fits : d.file.len ≤ options.maxDatabaseBytes.toNat := Nat.not_lt.mp room
    unfold wp
    split
    · exact ⟨enough, fits⟩
    · trivial

end Steps

section Run

variable {C : Crates} {s : Session} {m : Bytes → Option Bytes}

theorem Run.holds (run : Run C s m) : s.Holds C m := by
  have quiet : ∀ h : Handle, (h.afresh []).disk.Quiet := fun _ => List.forall_mem_nil _
  induction run with
  | @create options db d ran =>
      have enough : minDatabaseBytes ≤ options.maxDatabaseBytes.toNat :=
        (Reach.create rfl ran).enough
      obtain ⟨db', d', created, healthy, -⟩ := create_ok C enough
      cases ran.symm.trans created
      exact ⟨_, healthy, emptyContents_map C⟩
  | @begin h h' m txn before ran ih =>
      obtain ⟨c, healthy, map⟩ := ih
      obtain ⟨rfl, rfl⟩ := wp_ok (Database.wp_beginWrite _) ran
      exact ⟨⟨c, healthy.afresh [], map⟩, .new⟩
  | stage before call faults ran ih =>
      have staging := wp_ok (call.wp_run (m := ⟨_, faults⟩) ih.2) ran
      exact ⟨ih.1, staging⟩
  | stageFails before call faults ran ih =>
      have same := wp_error (call.wp_run (m := ⟨_, faults⟩) ih.2) ran
      refine ⟨ih.1, ?_⟩
      rw [same]
      exact ih.2
  | commit before ran ih =>
      obtain ⟨⟨c, healthy, rfl⟩, staging⟩ := ih
      obtain ⟨-, c', healthy', map⟩ := wp_ok (wp_commit (healthy.afresh []) staging.coherent) ran
      exact ⟨c', healthy', map⟩
  | @commitFails h h' m txn ops e before ran ih =>
      obtain ⟨⟨c, healthy, map⟩, staging⟩ := ih
      exact ⟨c, commit_refused (healthy.afresh []) (quiet h) ⟨_, staging.coherent⟩ ran, map⟩
  | abort before ih => exact ih.1
  | compact before ran ih =>
      obtain ⟨c, healthy, rfl⟩ := ih
      obtain ⟨-, c', healthy', map⟩ := wp_ok (wp_compact_holding (healthy.afresh [])) ran
      exact ⟨c', healthy', map⟩
  | @compactFails h h' m error before ran ih =>
      obtain ⟨c, healthy, map⟩ := ih
      exact ⟨c, compact_refused (healthy.afresh []) (quiet h) ran, map⟩
  | read before query ih =>
      obtain ⟨c, healthy, map⟩ := ih
      obtain ⟨v, same, checks⟩ := query.after_serves healthy.serves healthy.available
      rw [same]
      exact ⟨c, healthy.withVerifier checks, map⟩
  | close before ih =>
      obtain ⟨c, healthy, map⟩ := ih
      exact ⟨c, healthy.image, map⟩
  | @reopen f m options db d before ran ih =>
      obtain ⟨c, image, map⟩ := ih
      obtain ⟨enough, room⟩ := wp_ok (wp_open_allowed options (Disk.ofFile f [])) ran
      obtain ⟨db', d', opened, healthy, -⟩ := open_image image enough room
      cases ran.symm.trans opened
      exact ⟨c, healthy, map⟩

/-- What a client sees of the reference map `m`. -/
def Session.Refines (C : Crates) (m : Bytes → Option Bytes) : Session → Prop
  | .idle h => Shows C h m
  | .writing h txn ops => Shows C h m ∧ ∀ key, (txn.get C key h).1 = .ok (override m ops key)
  | .closed f => ∀ options : DatabaseOptions, minDatabaseBytes ≤ options.maxDatabaseBytes.toNat →
      f.len ≤ options.maxDatabaseBytes.toNat →
      ∃ db d, openWithOptions C options (Disk.ofFile f []) = (.ok db, d) ∧ Shows C ⟨db, d⟩ m

/-- A transaction reads its own operations first. -/
theorem Shows.get_staged {h : Handle} {txn : WriteTransaction} {ops : List Operation}
    (shows : Shows C h m) (coherent : Coherent txn ops) (key : Bytes) :
    (txn.get C key h).1 = .ok (override m ops key) := by
  have seen := coherent.seen key
  unfold WriteTransaction.get override
  cases staged : txn.staged.lookup key with
  | some entry =>
      rw [staged] at seen
      rw [← seen]
      rfl
  | none =>
      rw [staged] at seen
      rw [← seen]
      exact shows.get key

/-- After every step of a run the database is the reference map: point reads, iteration and
counting show it, a transaction shows it overridden by the operations staged so far, and a closed
file opens as it. -/
theorem run_refines_map (run : Run C s m) : s.Refines C m := by
  have holds := run.holds
  cases s with
  | idle h =>
      obtain ⟨c, healthy, rfl⟩ := holds
      exact healthy.shows
  | writing h txn ops =>
      obtain ⟨⟨c, healthy, rfl⟩, staging⟩ := holds
      exact ⟨healthy.shows, fun key => healthy.shows.get_staged staging.coherent key⟩
  | closed f =>
      obtain ⟨c, image, rfl⟩ := holds
      intro options enough room
      obtain ⟨db, d, ran, healthy, -⟩ := open_image image enough room
      exact ⟨db, d, ran, healthy.shows⟩

/-- A put is committed, the database is compacted, closed and opened again. -/
theorem run_refines_map_reopened : ∃ (h h' : Handle) (db : Database) (d : Disk),
    Run zeroHash (.idle h) (override (fun _ => none) [([1], some [2])]) ∧
    Database.compact zeroHash (h.afresh []) = (.ok (), h') ∧
    openWithOptions zeroHash .default (Disk.ofFile h'.disk.file []) = (.ok db, d) ∧
    Run zeroHash (.idle ⟨db, d⟩) (override (fun _ => none) [([1], some [2])]) ∧
    (Database.get zeroHash [1] ⟨db, d⟩).1 = .ok (some [2]) := by
  obtain ⟨db, d, created, healthy, options, guard, -⟩ := @create_ok .default zeroHash (by decide)
  obtain ⟨h, batch, committed, ops, done⟩ := commit_put (healthy.afresh []) (List.forall_mem_nil _) options
  have staged : TxCall.run false (.put [1] [2]) ⟨.new, []⟩ = (.ok (), ⟨firstPut, []⟩) := rfl
  have wrote : Run zeroHash (.idle h) (override (fun _ => none) [([1], some [2])]) :=
    (((Run.create created).begin (healthy.afresh []).beginWrite_new).stage _ [] staged).commit committed
  obtain ⟨-, h', compacted, -⟩ := compact_put ops (done.healthy.afresh []) (List.forall_mem_nil _)
    (done.guard.trans guard) (done.options.trans options)
  have reach := (((Reach.create rfl created).step (.commit [] firstPut_staging committed)).step
    (.compact [] compacted)).step .close
  obtain ⟨-, db', d', -, opened, -⟩ := Stored.open reach.enough reach.holds
  have run := ((wrote.compact compacted).close).reopen opened
  exact ⟨h, h', db', d', wrote, compacted, opened, run, (run_refines_map run).get [1]⟩

end Run

end Lkv
