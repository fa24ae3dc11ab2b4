/-
# Lkv.System.Backends — a memory database behaves as a file database

The two backends differ in what they keep: a file holds the log, a memory storage only its
length; a file is compacted through a staging Base, a memory database in one step.  What a client
can see is the same (`backends_behave_alike`): the same transactions and compactions, run on
both with the same options, succeed and fail alike and leave the same map and the same figures.

The two are compared through the contents they stand for (`Contents.Alike`): the same entries,
which may be in another order, and the same batches.  Only the generation differs, since
publishing a staging Base takes one of its own.
-/
import Lkv.System.Limits
import Lkv.System.Refinement

namespace Lkv
open Lkv.Theory Lkv.Theory.Prog Dictionary

set_option autoImplicit false

/-! ## The same calls stage the same -/

/-- The call stages no value that a file database would map. -/
def TxCall.Small : TxCall → Prop
  | .put _ value => value.length < mappedValueThreshold
  | .putReserved _ valueLen _ => valueLen < mappedValueThreshold
  | .delete _ => True

/-- No operation has a large value. -/
def SmallValues (ops : List Operation) : Prop :=
  ∀ op ∈ ops, ∀ value, op.2 = some value → value.length < mappedValueThreshold

/-- What these calls stage, one after another; a call that fails leaves the transaction as it is. -/
def transact (memory : Bool) (calls : List TxCall) : WriteTransaction :=
  calls.foldl (fun txn call => (call.run memory ⟨txn, []⟩).2.txn) .new

section Staging

variable {call : TxCall} {calls : List TxCall}

/-- A small call is the same call on both. -/
theorem TxCall.Small.run_eq (small : call.Small) : call.run true = call.run false := by
  cases call with
  | put key value =>
      have below : ∀ memory : Bool, ¬(value.length ≥ mappedValueThreshold ∧ ¬memory = true) :=
        fun _ large => absurd small (Nat.not_lt.mpr large.1)
      show Tx.put true key value = Tx.put false key value
      rw [Tx.put, Tx.put, if_neg (below true), if_neg (below false)]
  | putReserved key valueLen write =>
      have below : ∀ memory : Bool, ¬(valueLen ≥ mappedValueThreshold ∧ ¬memory = true) :=
        fun _ large => absurd small (Nat.not_lt.mpr large.1)
      show Tx.putReserved true key valueLen write = Tx.putReserved false key valueLen write
      rw [Tx.putReserved, Tx.putReserved, if_neg (below true), if_neg (below false),
        decide_eq_false (below true), decide_eq_false (below false)]
  | delete key => rfl

theorem transact_alike (small : ∀ call ∈ calls, call.Small) :
    transact true calls = transact false calls := by
  unfold transact
  generalize WriteTransaction.new = txn
  induction calls generalizing txn with
  | nil => rfl
  | cons call calls ih =>
      rw [List.foldl_cons, List.foldl_cons, (small call List.mem_cons_self).run_eq]
      exact ih (fun later member => small later (List.mem_cons_of_mem _ member)) _

/-- A small call stages a small value. -/
theorem TxCall.Small.operation {t t' : Transaction} (small : call.Small)
    (ran : call.run false t = (.ok (), t')) :
    ∀ value, (call.operation false).2 = some value → value.length < mappedValueThreshold := by
  rintro value staged
  cases call with
  | put key value' =>
      cases staged
      exact small
  | putReserved key valueLen write =>
      cases staged
      have put := wp_ok (Tx.wp_putReserved (m := t)) ran
      rw [putReserved_length put]
      exact small
  | delete key => cases staged

theorem transact_staging (small : ∀ call ∈ calls, call.Small) :
    ∃ ops, Transacts false (transact false calls) ops ∧ SmallValues ops := by
  have along : ∀ (calls : List TxCall) (txn : WriteTransaction) (ops : List Operation),
      (∀ call ∈ calls, call.Small) → Transacts false txn ops → SmallValues ops →
      ∃ ops', Transacts false (calls.foldl (fun txn call => (call.run false ⟨txn, []⟩).2.txn) txn) ops' ∧
        SmallValues ops' := by
    intro calls
    induction calls with
    | nil => exact fun txn ops _ transacts light => ⟨ops, transacts, light⟩
    | cons call calls ih =>
        intro txn ops small transacts light
        have first := small call List.mem_cons_self
        have later : ∀ call ∈ calls, call.Small := fun later member =>
          small later (List.mem_cons_of_mem _ member)
        rw [List.foldl_cons]
        cases ran : call.run false ⟨txn, []⟩ with
        | mk result t =>
            cases result with
            | ok _ =>
                exact ih t.txn _ later (transacts.succeeded call [] ran)
                  (List.forall_mem_cons.mpr ⟨first.operation ran, light⟩)
            | error e => exact ih t.txn ops later (transacts.failed call [] ran) light
  exact along calls .new [] small .new (List.forall_mem_nil _)

end Staging

/-! ## Contents that are alike -/

/-- What stands behind two databases that a client cannot tell apart. -/
structure Contents.Alike {C : Crates} (c c' : Contents C) : Prop where
  entries : c.entries.Perm c'.entries
  batches : c'.batches = c.batches
  front : c.root.baseOffset = dataStart
  front' : c'.root.baseOffset = dataStart
  small : SmallValues (logOps c.batches)

namespace Contents.Alike

variable {C : Crates} {c c' : Contents C} {batch : Batch}

theorem map_eq (alike : c.Alike c') : c'.map = c.map := by
  unfold Contents.map
  rw [alike.batches]
  congr 1
  funext key
  apply Option.ext
  intro value
  rw [latest_eq_some_iff c'.distinct, latest_eq_some_iff c.distinct, alike.entries.mem_iff]

/-- Bases of the same entries are of the same size. -/
theorem size_eq (alike : c.Alike c') : (segmentBytes c'.data).length = (segmentBytes c.data).length := by
  have count := c'.isBase.count
  rw [← alike.entries.length_eq, c.isBase.count] at count
  rw [c.isBase.segmentSize, c'.isBase.segmentSize, segmentSize, segmentSize,
    totalSize_perm alike.entries, Except.ok.inj count]

theorem logStart_eq (alike : c.Alike c') : c'.root.logStart = c.root.logStart := by
  rw [← c.base_end, ← c'.base_end, alike.size_eq, alike.front, alike.front']

theorem log_eq (alike : c.Alike c') : c'.log = c.log := by
  rw [Contents.log, Contents.log, alike.batches]

theorem logEnd_eq (alike : c.Alike c') : c'.logEnd = c.logEnd := by
  rw [Contents.logEnd, Contents.logEnd, alike.logStart_eq, alike.log_eq]

theorem commit (alike : c.Alike c') (small : SmallValues batch.ops) :
    (c.commit batch).Alike (c'.commit batch) where
  entries := alike.entries
  batches := congrArg (· ++ [batch]) alike.batches
  front := alike.front
  front' := alike.front'
  small := by
    show SmallValues (logOps (c.batches ++ [batch]))
    rw [logOps_append]
    exact List.forall_mem_append.mpr ⟨small, alike.small⟩

/-- Two compacted databases with the same map. -/
theorem of_lists {m : Bytes → Option Bytes} (lists : Lists m c.entries) (lists' : Lists m c'.entries)
    (fresh : c.batches = []) (fresh' : c'.batches = []) (front : c.root.baseOffset = dataStart)
    (front' : c'.root.baseOffset = dataStart) : c.Alike c' where
  entries := perm_of_latest lists.distinct lists'.distinct fun key => by
    rw [← lists.eq_latest, ← lists'.eq_latest]
  batches := by rw [fresh, fresh']
  front := front
  front' := front'
  small := by
    rw [fresh]
    exact List.forall_mem_nil _

end Contents.Alike

theorem Batch.eq_of_ops {one two : Batch} (same : one.ops = two.ops) : one = two := by
  cases one
  cases two
  cases same
  rfl

/-! ## What the figures say -/

section Figures

variable {C : Crates} {c c' : Contents C} {h : Handle} {m : MemoryDatabase}

theorem OverlayMap.IndexOf.len_eq {logStart : Nat} {log : Bytes} {ops : List Operation}
    {overlay : OverlayMap} (index : OverlayMap.IndexOf logStart log ops overlay) :
    overlay.len = ops.length := by
  obtain ⟨bytes, mapping, table, tail, records, rfl, -, indexed, rfl⟩ := index.shape
  rw [indexOps, List.length_append, List.length_map, Nat.add_comm, OverlayMap.len,
    List.Forall₂.length_eq indexed.decoded]

/-- The figures that `stats` returns. -/
def Handle.figures (h : Handle) : DatabaseStats where
  storageBytes := h.disk.file.len
  baseBytes := (h.db.base.mapping.deref h.disk.file).length
  baseEntries := h.db.base.len
  overlayEntries := h.db.overlay.index.len
  overlayLogBytes := h.disk.file.len - h.db.base.logStart
  overlayMemoryBytes := h.db.overlay.memory
  staleBytes := h.db.base.offset - dataStart
  generation := h.db.base.generation

theorem stats_run (available : h.db.state ≠ .unavailable) (quiet : h.disk.Quiet) :
    (Database.stats h).1 = .ok h.figures := by
  have spec : wp Database.stats (fun stats _ => stats = h.figures) (fun _ _ => False) h := by
    refine wp_bind (Database.wp_ensureAvailable (fun _ => ?_) fun lost => absurd lost available)
    refine wp_bind (Db.wp_io (Io.wp_len ?_ fun _ due => absurd quiet due))
    exact wp_bind (wp_state (wp_pure rfl))
  obtain ⟨_, _, ran, rfl⟩ := wp_returns spec fun _ _ => id
  rw [ran]

/-- Small values are charged alike, owned or mapped. -/
theorem ownedCharge_small {table : List StagedEntry} (small : SmallValues (table.map stagedOp)) :
    ownedCharge table = chargeOf (table.map stagedOp) := by
  rw [ownedCharge, chargeOf, List.map_map]
  congr 1
  refine List.map_congr_left fun entry member => ?_
  refine overlayEntryMemory_small ?_
  have light := small (stagedOp entry) (List.mem_map_of_mem member)
  cases seen : entry.2.seen with
  | none => exact (by decide : 0 < mappedValueThreshold)
  | some value => exact light value seen

/-- The overlays of both hold the same operations and are charged the same for them. -/
theorem Contents.Alike.overlay_eq (alike : c.Alike c') (serves : c.Serves h) (resides : c'.Resides m) :
    m.db.overlay.index.len = h.db.overlay.index.len ∧ m.db.overlay.memory = h.db.overlay.memory := by
  obtain ⟨ops, index, same, charged⟩ := serves.overlay
  obtain ⟨table, owns⟩ := resides.overlay
  have perm : (table.map stagedOp).Perm ops :=
    perm_of_latest owns.distinct index.distinct fun key => by rw [owns.latest, alike.batches, same]
  have small : SmallValues (table.map stagedOp) := by
    rintro ⟨key, value⟩ member
    have found := (latest_eq_some_iff index.distinct).mpr (perm.mem_iff.mp member)
    rw [same] at found
    exact alike.small (key, value) (mem_of_latest found)
  rw [owns.is, charged, index.len_eq, ownedCharge_small small]
  refine ⟨?_, chargeOf_perm perm⟩
  rw [← perm.length_eq, List.length_map]
  rfl

theorem Contents.Alike.figures_eq (alike : c.Alike c') (healthy : c.Healthy h) (resides : c'.Resides m) :
    { m.handle.figures with generation := h.figures.generation } = h.figures := by
  have len : h.disk.file.len = c.logEnd := healthy.image.len
  have len' : m.handle.disk.file.len = h.disk.file.len := by
    rw [len, ← alike.logEnd_eq, ← resides.len]
    rfl
  have base : h.db.base = c.activeBase h.db.base.verifier := healthy.serves.base
  have base' : m.handle.db.base = c'.residentBase m.db.base.verifier := resides.base
  have bytes : h.db.base.mapping.deref h.disk.file = segmentBytes c.data :=
    healthy.serves.answers.displays.deref
  have bytes' : m.handle.db.base.mapping.deref m.handle.disk.file = segmentBytes c'.data :=
    resides.answers.displays.deref
  have logStart : m.handle.db.base.logStart = h.db.base.logStart := by
    rw [base, base']
    exact alike.logStart_eq
  obtain ⟨count, memory⟩ := alike.overlay_eq healthy.serves resides
  simp only [Handle.figures, DatabaseStats.mk.injEq]
  refine ⟨len', ?_, ?_, count, by rw [len', logStart], memory, ?_, trivial⟩
  · rw [bytes, bytes', alike.size_eq]
  · rw [base, base']
    exact alike.entries.length_eq.symm
  · rw [base, base']
    show c'.root.baseOffset - dataStart = c.root.baseOffset - dataStart
    rw [alike.front, alike.front']

end Figures

/-! ## Runs on both -/

/-- A file database and a memory database after the same calls, none of which met a failure of the
system.  A compaction is part of the run if it returns on both; reads come anywhere. -/
inductive Paired (C : Crates) (options : DatabaseOptions) : Handle → MemoryDatabase → Prop
  | create {db db' : Database} {d : Disk} {ram : Ram}
      (file : createWithOptions C options (Disk.ofFile File.empty []) = (.ok db, d))
      (memory : memoryWithOptions C options ⟨⟨.new, []⟩, []⟩ = (.ok db', ram)) :
      Paired C options ⟨db, d⟩ ⟨db', ram⟩
  | commit {h : Handle} {m : MemoryDatabase} (before : Paired C options h m) (calls : List TxCall)
      (small : ∀ call ∈ calls, call.Small) :
      Paired C options ((transact false calls).commit C (h.afresh [])).2
        (MemoryDatabase.commitStagedMemory C (transact true calls).staged (m.afresh [])).2
  | compact {h h' : Handle} {m m' : MemoryDatabase} (before : Paired C options h m)
      (file : Database.compact C (h.afresh []) = (.ok (), h'))
      (memory : MemoryDatabase.compact C (m.afresh []) = (.ok (), m')) : Paired C options h' m'
  | read {h : Handle} {m : MemoryDatabase} (before : Paired C options h m) (query : Query) :
      Paired C options (query.after C h) { m with db := (query.after C m.handle).db }

/-- Two databases behind which alike contents stand. -/
structure Contents.Pair {C : Crates} (c c' : Contents C) (options : DatabaseOptions) (h : Handle)
    (m : MemoryDatabase) : Prop where
  alike : c.Alike c'
  healthy : c.Healthy h
  resides : c'.Resides m
  state : m.db.state = .healthy
  fileOptions : h.db.options = options
  memoryOptions : m.db.options = options
  fileGuard : h.db.snapshotGuard = 1
  memoryGuard : m.db.snapshotGuard = 1

section Steps

variable {C : Crates} {c c' : Contents C} {options : DatabaseOptions} {h h' : Handle}
variable {m m' : MemoryDatabase} {txn : WriteTransaction} {ops : List Operation} {calls : List TxCall}

/-- A transaction without operations is committed by doing nothing. -/
theorem commit_nothing (healthy : h.db.state = .healthy) (nothing : stagedEntries C txn.staged = []) :
    txn.commit C h = (.ok (), h) := by
  unfold WriteTransaction.commit Database.commitStagedWith
  rw [bind_ok (Database.ensureWritable_run healthy)]
  exact congrFun (if_pos nothing) h

theorem commitMemory_nothing (healthy : m.db.state = .healthy)
    (nothing : stagedEntries C txn.staged = []) :
    MemoryDatabase.commitStagedMemory C txn.staged m = (.ok (), m) := by
  have writable : Mdb.shared Database.ensureWritable m = (.ok (), m) := by
    unfold Mdb.shared zoom
    rw [Database.ensureWritable_run (h := m.handle) healthy]
    rfl
  unfold MemoryDatabase.commitStagedMemory
  rw [bind_ok writable]
  exact congrFun (if_pos nothing) m

/-- What comes of a commit, on both. -/
inductive CommitsAlike (C : Crates) (c c' : Contents C) (txn : WriteTransaction) (h : Handle)
    (m : MemoryDatabase) : Prop
  | nothing (file : txn.commit C h = (.ok (), h))
      (memory : MemoryDatabase.commitStagedMemory C txn.staged m = (.ok (), m))
  | refused (e : Stop) (h' : Handle) (file : txn.commit C h = (.error e, h')) (kept : Refused h h')
      (memory : MemoryDatabase.commitStagedMemory C txn.staged m = (.error e, m))
      (returned : ∃ error, e = .err error)
  | committed (batch : Batch) (h' : Handle) (m' : MemoryDatabase)
      (ops : batch.ops = (stagedEntries C txn.staged).map stagedOp)
      (file : txn.commit C h = (.ok (), h')) (done : Committed c batch h h')
      (memory : MemoryDatabase.commitStagedMemory C txn.staged m = (.ok (), m'))
      (done' : MemoryDatabase.Committed c' batch m m')

theorem Contents.Pair.commits (pair : c.Pair c' options h m) (quiet : h.disk.Quiet)
    (coherent : Coherent txn ops) : CommitsAlike C c c' txn h m := by
  have len : m.storage.len = h.disk.file.len := by
    rw [pair.resides.len, pair.alike.logEnd_eq, pair.healthy.image.len, List.length_nil, Nat.add_zero]
  have fileSpec := wp_commitStagedWith pair.healthy ⟨ops, coherent⟩
  have memorySpec := MemoryDatabase.wp_commitStagedMemory pair.resides ⟨ops, coherent⟩
  rw [pair.fileOptions] at fileSpec
  rw [pair.memoryOptions, len] at memorySpec
  by_cases nothing : stagedEntries C txn.staged = []
  · exact .nothing (commit_nothing pair.healthy.state nothing) (commitMemory_nothing pair.state nothing)
  -- Both ask for the same room, with the same answer.
  cases admits : admitted options.maxDatabaseBytes.toNat h.disk.file.len (stagedEntries C txn.staged) with
  | error e =>
      have file : ∃ h', txn.commit C h = (.error e, h') ∧ Refused h h' ∧ ∃ error, e = .err error := by
        cases ran : txn.commit C h with
        | mk result h' =>
            cases result with
            | ok _ =>
                obtain ⟨none, -⟩ | ⟨batch, -, ⟨granted, -⟩, -⟩ := wp_ok fileSpec ran
                · exact absurd none nothing
                · cases admits.symm.trans granted
            | error e' =>
                obtain ⟨returned, ⟨kept, loud | ⟨-, refused⟩⟩ | ⟨batch, -, broken⟩⟩ := wp_error fileSpec ran
                · exact absurd quiet loud
                · cases admits.symm.trans refused
                  exact ⟨h', rfl, kept, returned⟩
                · exact absurd quiet broken.failing
      have memory : MemoryDatabase.commitStagedMemory C txn.staged m = (.error e, m) := by
        cases ran : MemoryDatabase.commitStagedMemory C txn.staged m with
        | mk result m' =>
            cases result with
            | ok _ =>
                obtain ⟨-, ⟨none, -⟩ | ⟨batch, -, granted, -⟩⟩ := wp_ok memorySpec ran
                · exact absurd none nothing
                · cases admits.symm.trans granted
            | error e' =>
                obtain ⟨rfl, ⟨poisoned, -⟩ | ⟨-, -, refused⟩⟩ := wp_error memorySpec ran
                · exact absurd pair.state poisoned
                · cases admits.symm.trans refused
                  rfl
      obtain ⟨h', ran, kept, returned⟩ := file
      exact .refused e h' ran kept memory returned
  | ok n =>
      obtain ⟨h', batch, ran, opsIs, done⟩ := commit_returns pair.healthy quiet ⟨ops, coherent⟩ nothing
        (by rw [pair.fileOptions]; exact admits)
      cases memory : MemoryDatabase.commitStagedMemory C txn.staged m with
      | mk result m' =>
          cases result with
          | ok _ =>
              obtain ⟨-, ⟨none, -⟩ | ⟨batch', opsIs', -, done'⟩⟩ := wp_ok memorySpec memory
              · exact absurd none nothing
              · cases Batch.eq_of_ops (opsIs.trans opsIs'.symm)
                exact .committed batch h' m' opsIs ran done memory done'
          | error e =>
              obtain ⟨rfl, ⟨poisoned, -⟩ | ⟨-, -, refused⟩⟩ := wp_error memorySpec memory
              · exact absurd pair.state poisoned
              · cases admits.symm.trans refused

theorem Contents.Pair.afresh (pair : c.Pair c' options h m) :
    c.Pair c' options (h.afresh []) (m.afresh []) :=
  ⟨pair.alike, pair.healthy.afresh [], pair.resides.afresh [], pair.state, pair.fileOptions,
    pair.memoryOptions, pair.fileGuard, pair.memoryGuard⟩

/-- The batch of small operations has small values. -/
theorem smallValues_batch {batch : Batch} (coherent : Coherent txn ops) (small : SmallValues ops)
    (opsIs : batch.ops = (stagedEntries C txn.staged).map stagedOp) : SmallValues batch.ops := by
  rintro ⟨key, value⟩ member
  have found := (latest_eq_some_iff batch.distinct).mpr member
  rw [opsIs, coherent.latest_staged C] at found
  exact small (key, value) (mem_of_latest found)

theorem Contents.Pair.commit (pair : c.Pair c' options h m) (quiet : h.disk.Quiet)
    (coherent : Coherent txn ops) (small : SmallValues ops) :
    ∃ c₁ c₁' : Contents C, c₁.Pair c₁' options (txn.commit C h).2
      (MemoryDatabase.commitStagedMemory C txn.staged m).2 := by
  cases pair.commits quiet coherent with
  | nothing file memory =>
      rw [file, memory]
      exact ⟨c, c', pair⟩
  | refused e h' file kept memory returned =>
      rw [file, memory]
      refine ⟨c, c', pair.alike, ?_, pair.resides, pair.state, ?_, pair.memoryOptions, ?_, pair.memoryGuard⟩
      · obtain ⟨db, d⟩ := h'
        cases kept.db
        exact pair.healthy.disk kept.disk.kept
      · rw [kept.db]
        exact pair.fileOptions
      · rw [kept.db]
        exact pair.fileGuard
  | committed batch h' m' opsIs file done memory done' =>
      rw [file, memory]
      exact ⟨c.commit batch, c'.commit batch, pair.alike.commit (smallValues_batch coherent small opsIs),
        done.healthy, done'.resides, done'.state.trans pair.state, done.options.trans pair.fileOptions,
        done'.config.options.trans pair.memoryOptions, done.guard.trans pair.fileGuard,
        done'.config.guard.trans pair.memoryGuard⟩

/-- What a compaction that returned leaves in a file. -/
theorem compact_lists (healthy : c.Healthy h) (ran : Database.compact C h = (.ok (), h')) :
    ∃ c₁ : Contents C, c₁.Healthy h' ∧ Lists c.map c₁.entries ∧ c₁.Settled ∧ SameConfig h.db h'.db := by
  obtain ⟨settled, unchanged⟩ | ⟨-, -, r, plan, finished⟩ := wp_ok (wp_compact healthy) ran
  · refine ⟨c, unchanged.healthy, ?_, settled, unchanged.config⟩
    have map : c.map = latest c.entries := by
      unfold Contents.map
      rw [settled.fresh]
      exact override_nil _
    rw [map]
    exact lists_latest c.distinct
  · have checked := healthy.unchanged_verified
    refine ⟨r.final, Rewrite.finished_healthy checked.healthy plan finished, ?_, ⟨r.front, r.finalFresh⟩, ?_⟩
    · have map : r.final.map = latest r.final.entries := by
        unfold Contents.map
        rw [r.finalFresh]
        exact override_nil _
      rw [← r.finalMap, map]
      exact lists_latest r.final.distinct
    · rw [finished.db]
      exact ⟨checked.config.options, checked.config.guard⟩

theorem Contents.Pair.compact (pair : c.Pair c' options h m)
    (file : Database.compact C h = (.ok (), h'))
    (memory : MemoryDatabase.compact C m = (.ok (), m')) :
    ∃ c₁ c₁' : Contents C, c₁.Pair c₁' options h' m' := by
  obtain ⟨c₁, healthy, lists, settled, config⟩ := compact_lists pair.healthy file
  obtain ⟨-, -, c₁', done⟩ := wp_ok (MemoryDatabase.wp_compactInMemory pair.resides) memory
  have lists' := done.lists
  rw [pair.alike.map_eq] at lists'
  exact ⟨c₁, c₁', .of_lists lists lists' settled.fresh done.fresh settled.front done.resides.front,
    healthy, done.resides, done.state.trans pair.state, config.options.trans pair.fileOptions,
    done.config.options.trans pair.memoryOptions, config.guard.trans pair.fileGuard,
    done.config.guard.trans pair.memoryGuard⟩

theorem Contents.Pair.read (pair : c.Pair c' options h m) (query : Query) :
    c.Pair c' options (query.after C h) { m with db := (query.after C m.handle).db } := by
  obtain ⟨v, is, checks⟩ := query.after_answers pair.healthy.serves.answers pair.healthy.available
  obtain ⟨v', is', checks'⟩ := query.after_answers pair.resides.answers pair.resides.available
  rw [is, is']
  exact ⟨pair.alike, pair.healthy.withVerifier checks, pair.resides.withVerifier checks', pair.state,
    pair.fileOptions, pair.memoryOptions, pair.fileGuard, pair.memoryGuard⟩

end Steps

theorem emptyContents_alike (C : Crates) : (emptyContents C).Alike (emptyContents C) where
  entries := List.Perm.refl _
  batches := rfl
  front := congrArg Superblock.baseOffset (emptyContents_root C)
  front' := congrArg Superblock.baseOffset (emptyContents_root C)
  small := List.forall_mem_nil _

theorem Paired.pair {C : Crates} {options : DatabaseOptions} {h : Handle} {m : MemoryDatabase}
    (paired : Paired C options h m) : ∃ c c' : Contents C, c.Pair c' options h m := by
  induction paired with
  | @create db db' d ram file memory =>
      obtain ⟨resides, memoryOptions, memoryGuard, state⟩ :=
        wp_ok (wp_memoryWithOptions C options []) memory
      have enough : minDatabaseBytes ≤ options.maxDatabaseBytes.toNat := by
        rw [← emptyContents_logEnd C, ← resides.len, ← memoryOptions]
        exact resides.room
      obtain ⟨db₁, d₁, ran, healthy, fileOptions, fileGuard, -⟩ := create_ok C enough
      cases ran.symm.trans file
      exact ⟨_, _, emptyContents_alike C, healthy, resides, state, fileOptions, memoryOptions, fileGuard,
        memoryGuard⟩
  | commit before calls small ih =>
      obtain ⟨c, c', pair⟩ := ih
      obtain ⟨ops, transacts, light⟩ := transact_staging small
      rw [transact_alike small]
      exact pair.afresh.commit (List.forall_mem_nil _) transacts.staging.coherent light
  | compact before file memory ih =>
      obtain ⟨c, c', pair⟩ := ih
      exact pair.afresh.compact file memory
  | read before query ih =>
      obtain ⟨c, c', pair⟩ := ih
      exact ⟨c, c', pair.read query⟩

/-! ## What a client sees -/

/-- A compaction in which no call of the system fails returns, or is refused as too large, or
runs out of generations. -/
def CompactEnds (result : Except Stop Unit) (generation : Nat) : Prop :=
  result = .ok () ∨ (∃ error, result = .error (.err error) ∧ error.TooLarge) ∨ 2 ^ 64 ≤ generation

/-- What a client sees of a file database and of a memory database that behave alike. -/
structure BehaveAlike (C : Crates) (h : Handle) (m : MemoryDatabase) : Prop where
  beginWrite : (Mdb.shared Database.beginWrite m).1 = (Database.beginWrite h).1
  commit : ∀ calls : List TxCall, (∀ call ∈ calls, call.Small) →
    (MemoryDatabase.commitStagedMemory C (transact true calls).staged (m.afresh [])).1 =
      ((transact false calls).commit C (h.afresh [])).1
  get : ∀ key, (Mdb.shared (Database.get C key) m).1 = (Database.get C key h).1
  containsKey : ∀ key, (Mdb.shared (Database.containsKey C key) m).1 = (Database.containsKey C key h).1
  len : (Mdb.shared (Database.len C) m).1 = (Database.len C h).1
  iter : ∃ pairs pairs' : List (Bytes × Bytes), (Database.iter C h).1 = .ok (pairs.map .ok) ∧
    (Mdb.shared (Database.iter C) m).1 = .ok (pairs'.map .ok) ∧ pairs'.Perm pairs
  stats : ∃ s s' : DatabaseStats, (Database.stats (h.afresh [])).1 = .ok s ∧
    (Mdb.shared Database.stats m).1 = .ok s' ∧ { s' with generation := s.generation } = s
  compactFile : CompactEnds (Database.compact C (h.afresh [])).1 (h.db.base.generation + 3)
  compactMemory : CompactEnds (MemoryDatabase.compact C (m.afresh [])).1 (m.db.base.generation + 1)

section Clients

variable {C : Crates} {c c' : Contents C} {options : DatabaseOptions} {h : Handle} {m : MemoryDatabase}

theorem containsKey_run {map : Bytes → Option Bytes} (shows : Shows C h map) (key : Bytes) :
    (Database.containsKey C key h).1 = .ok (map key).isSome := by
  have got := shows.get key
  unfold Database.containsKey
  cases ran : Database.get C key h with
  | mk result h' =>
      rw [ran] at got
      cases got
      rw [bind_ok ran]
      rfl

/-- A file is refused a compaction only for what it would need. -/
theorem compact_ends (healthy : c.Healthy h) (quiet : h.disk.Quiet) (guard : h.db.snapshotGuard = 1) :
    CompactEnds (Database.compact C h).1 (h.db.base.generation + 3) := by
  cases ran : Database.compact C h with
  | mk result h' =>
      cases result with
      | ok _ => exact .inl rfl
      | error e =>
          obtain ⟨⟨error, rfl, loud | other | large⟩, -⟩ | ⟨-, -, r, -, halted⟩ :=
            wp_error (wp_compact healthy) ran
          · exact absurd quiet loud
          · exact absurd guard other
          · exact .inr (.inl ⟨error, rfl, large⟩)
          · have overflow := halted.overflow ((verified_sameDisk healthy).symm ▸ quiet)
            obtain ⟨v, -, same, -⟩ := healthy.verified
            rw [same] at overflow
            exact .inr (.inr overflow)

theorem compactMemory_ends (resides : c.Resides m) (state : m.db.state = .healthy)
    (quiet : m.ram.memory.Quiet) (guard : m.db.snapshotGuard = 1) :
    CompactEnds (MemoryDatabase.compact C m).1 (m.db.base.generation + 1) := by
  cases ran : MemoryDatabase.compact C m with
  | mk result m' =>
      cases result with
      | ok _ => exact .inl rfl
      | error e =>
          have halted := wp_error (MemoryDatabase.wp_compactInMemory resides) ran
          obtain ⟨error, rfl, ⟨poisoned, -⟩ | loud | other | large⟩ | ⟨-, overflow⟩ := halted.why
          · exact absurd state poisoned
          · exact absurd quiet loud
          · exact absurd guard other
          · exact .inr (.inl ⟨error, rfl, large⟩)
          · exact .inr (.inr overflow)

theorem Contents.Pair.behaveAlike (pair : c.Pair c' options h m) : BehaveAlike C h m := by
  have shows := pair.healthy.shows
  have shows' := pair.resides.shows
  rw [pair.alike.map_eq] at shows'
  have afresh := pair.afresh
  refine ⟨?_, fun calls small => ?_, fun key => ?_, fun key => ?_, ?_, ?_, ?_, ?_, ?_⟩
  · have charged : m.handle.db.overlay.memory = h.db.overlay.memory :=
      (pair.alike.overlay_eq pair.healthy.serves pair.resides).2
    have configured : m.handle.db.options = options := pair.memoryOptions
    show (Database.beginWrite m.handle).1 = _
    rw [Database.beginWrite_run pair.state, Database.beginWrite_run pair.healthy.state, charged, configured,
      pair.fileOptions]
  · obtain ⟨ops, transacts, -⟩ := transact_staging small
    rw [transact_alike small]
    cases afresh.commits (List.forall_mem_nil _) transacts.staging.coherent with
    | nothing file memory => rw [file, memory]
    | refused e h' file kept memory returned => rw [file, memory]
    | committed batch h' m' ops file done memory done' => rw [file, memory]
  · exact (shows'.get key).trans (shows.get key).symm
  · exact (containsKey_run shows' key).trans (containsKey_run shows key).symm
  · exact shows'.len.trans shows.len.symm
  · obtain ⟨pairs, ran, lists⟩ := shows.iter
    obtain ⟨pairs', ran', lists'⟩ := shows'.iter
    refine ⟨pairs, pairs', ran, ran', perm_of_latest lists'.distinct lists.distinct fun key => ?_⟩
    rw [← lists.eq_latest, ← lists'.eq_latest]
  · exact ⟨_, _, stats_run afresh.healthy.available (List.forall_mem_nil _),
      stats_run (h := m.handle) pair.resides.available (List.forall_mem_nil _),
      pair.alike.figures_eq afresh.healthy pair.resides⟩
  · exact compact_ends afresh.healthy (List.forall_mem_nil _) pair.fileGuard
  · exact compactMemory_ends afresh.resides pair.state (List.forall_mem_nil _) pair.memoryGuard

end Clients

/-- Whatever transactions of small values and compactions are run on a file database and on a
memory database with the same options, the client sees the same of both. -/
theorem backends_behave_alike {C : Crates} {options : DatabaseOptions} {h : Handle} {m : MemoryDatabase}
    (paired : Paired C options h m) : BehaveAlike C h m := by
  obtain ⟨c, c', pair⟩ := paired.pair
  exact pair.behaveAlike

/-- After a first entry was put on both, the memory database gives it back. -/
theorem backends_behave_alike_put :
    ∃ h m, Paired zeroHash .default h m ∧
      (Mdb.shared (Database.get zeroHash [1]) m).1 = .ok (some [2]) := by
  obtain ⟨db, d, file, healthy, optionsIs, -⟩ := @create_ok .default zeroHash (by decide)
  obtain ⟨db', ram, memory, -⟩ := wp_returns (wp_memoryWithOptions zeroHash .default []) (by
    rintro e ram ⟨-, -, refused | ⟨fault, member, -⟩⟩
    · cases refused
    · cases member)
  have new : Paired zeroHash .default ⟨db, d⟩ ⟨db', ram⟩ := .create file memory
  have small : ∀ call ∈ [TxCall.put [1] [2]], call.Small :=
    List.forall_mem_singleton.mpr (by decide : 1 < mappedValueThreshold)
  have put := new.commit [.put [1] [2]] small
  refine ⟨_, _, put, ((backends_behave_alike put).get [1]).trans ?_⟩
  -- The file database shows what was put.
  obtain ⟨ops, transacts, -⟩ := transact_staging small
  have entries : stagedEntries zeroHash (transact false [.put [1] [2]]).staged =
      [([1], .put (.owned [2]))] := (zeroHash.order_perm _).eq_singleton
  have len : d.file.len = minDatabaseBytes := healthy.image.len.trans (emptyContents_logEnd zeroHash)
  have admits : ∃ n, admitted db.options.maxDatabaseBytes.toNat d.file.len
      (stagedEntries zeroHash (transact false [.put [1] [2]]).staged) = .ok n := by
    rw [entries, optionsIs, len]
    exact ⟨_, rfl⟩
  obtain ⟨n, admits⟩ := admits
  obtain ⟨h', batch, ran, opsIs, done⟩ := commit_returns (healthy.afresh []) (List.forall_mem_nil _)
    ⟨ops, transacts.staging.coherent⟩ (by rw [entries]; exact List.cons_ne_nil _ _) admits
  rw [entries] at opsIs
  rw [WriteTransaction.commit, ran, done.healthy.shows.get [1], Contents.commit_map, opsIs]
  rfl

end Lkv
