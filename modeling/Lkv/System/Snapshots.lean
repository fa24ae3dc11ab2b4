/-
# Lkv.System.Snapshots — how long a snapshot stays what it was

A snapshot keeps the mappings of the handle it was taken from, and a mapping reads the file
as it is now.  So a snapshot is a view of one point in time only as long as nobody writes
over its ranges or cuts them off.  Commits append, and opening cuts off only what is behind
the log.  A compaction rewrites the front of the file; it is kept from doing so by the guard,
which counts the snapshots of the handle.

The guard belongs to the handle: a snapshot that outlives its handle is not counted by the
next one.  `snapshot_overwritten` is a run in which such a snapshot loses its Base.  If a
compaction starts only when no snapshot at all is alive, and no snapshot is taken of a handle
that a failed compaction left half way (`Careful`), every snapshot stays as it was
(`snapshots_point_in_time`).
-/
import Lkv.System.Refinement

namespace Lkv

open Lkv.Theory Lkv.Theory.Prog Dictionary

set_option autoImplicit false

/-! ## Live snapshots -/

/-- The mapped range is inside the file and reads as it did. -/
def BaseBytes.Intact (taken now : File) : BaseBytes → Prop
  | .mapped offset size => offset + size ≤ now.len ∧ now.slice offset size = taken.slice offset size
  | .memory _ => True

/-- Where the mapped range ends. -/
def BaseBytes.stop : BaseBytes → Nat
  | .mapped offset size => offset + size
  | .memory _ => 0

def OverlayMap.mapping : OverlayMap → Option BaseBytes
  | .memory _ => none
  | .mapped bytes _ _ => bytes

/-- A snapshot that has not been dropped, and the file when it was taken. -/
structure LiveSnapshot where
  snapshot : Snapshot
  taken : File
  /-- It was taken of the handle that is open now. -/
  ours : Bool

/-- A state that the verifier of the snapshot, which others share, may have come to. -/
structure LiveSnapshot.Verifies (live : LiveSnapshot) (v : SegmentVerifier) : Prop where
  size : v.dataSize = live.snapshot.baseVerifier.dataSize
  table : v.checksums = live.snapshot.baseVerifier.checksums
  sound : v.Sound (live.snapshot.base.deref live.taken)

/-- The snapshot is still a view of the moment at which it was taken. -/
structure LiveSnapshot.PointInTime (C : Crates) (live : LiveSnapshot) (now : File) : Prop where
  base : live.snapshot.base.Intact live.taken now
  overlay : ∀ bytes, live.snapshot.overlayIndex.mapping = some bytes → bytes.Intact live.taken now
  get : ∀ v, live.Verifies v → ∀ key, (live.snapshot.get C now key v).1 =
    (live.snapshot.get C live.taken key live.snapshot.baseVerifier).1
  iter : ∀ v, live.Verifies v → (live.snapshot.iter C now v).1 =
    (live.snapshot.iter C live.taken live.snapshot.baseVerifier).1

/-! ## Runs -/

/-- The handle on the file and the snapshots that are alive.  `halted`: a compaction of this
handle failed half way. -/
inductive Scene where
  | opened (h : Handle) (halted : Bool) (lives : List LiveSnapshot)
  | closed (f : File) (lives : List LiveSnapshot)

def Scene.file : Scene → File
  | .opened h _ _ => h.disk.file
  | .closed f _ => f

def Scene.lives : Scene → List LiveSnapshot
  | .opened _ _ lives => lives
  | .closed _ lives => lives

inductive Call where
  | commit
  | compact
  | compactFails
  | read
  | snapshot
  | drop
  | close
  | reopen

section Run

variable (C : Crates)

inductive Scene.Step : Call → Scene → Scene → Prop
  | commit {h h' : Handle} {halted : Bool} {lives : List LiveSnapshot} {txn : WriteTransaction}
      {ops : List Operation} (faults : List Fault) (staging : Staging false txn ops)
      (ran : Database.commitStagedWith C txn.staged txn.valueChecksums (h.afresh faults) = (.ok (), h')) :
      Scene.Step .commit (.opened h halted lives) (.opened h' halted lives)
  | commitFails {h h' : Handle} {halted : Bool} {lives : List LiveSnapshot} {txn : WriteTransaction}
      {ops : List Operation} {error : Error} (faults : List Fault) (staging : Staging false txn ops)
      (ran : Database.commitStagedWith C txn.staged txn.valueChecksums (h.afresh faults) =
        (.error (.err error), h')) :
      Scene.Step .commit (.opened h halted lives) (.opened h' halted lives)
  | compact {h h' : Handle} {halted : Bool} {lives : List LiveSnapshot} (faults : List Fault)
      (ran : Database.compact C (h.afresh faults) = (.ok (), h')) :
      Scene.Step .compact (.opened h halted lives) (.opened h' halted lives)
  | compactFails {h h' : Handle} {halted : Bool} {lives : List LiveSnapshot} {error : Error} (faults : List Fault)
      (ran : Database.compact C (h.afresh faults) = (.error (.err error), h')) :
      Scene.Step .compactFails (.opened h halted lives)
        (.opened h' (halted || decide (h'.db.state ≠ h.db.state)) lives)
  | read {h : Handle} {halted : Bool} {lives : List LiveSnapshot} (query : Query) :
      Scene.Step .read (.opened h halted lives) (.opened (query.after C h) halted lives)
  | snapshot {h h' : Handle} {halted : Bool} {lives : List LiveSnapshot} {snapshot : Snapshot}
      (ran : Database.snapshot h = (.ok snapshot, h')) :
      Scene.Step .snapshot (.opened h halted lives)
        (.opened h' halted (⟨snapshot, h.disk.file, true⟩ :: lives))
  /-- A snapshot of this handle gives its share of the guard back. -/
  | dropOurs {h : Handle} {halted : Bool} {before after : List LiveSnapshot} {live : LiveSnapshot}
      (ours : live.ours = true) :
      Scene.Step .drop (.opened h halted (before ++ live :: after))
        (.opened { h with db := { h.db with snapshotGuard := h.db.snapshotGuard - 1 } } halted
          (before ++ after))
  | dropOther {h : Handle} {halted : Bool} {before after : List LiveSnapshot} {live : LiveSnapshot}
      (other : live.ours = false) :
      Scene.Step .drop (.opened h halted (before ++ live :: after)) (.opened h halted (before ++ after))
  | dropClosed {f : File} {before after : List LiveSnapshot} {live : LiveSnapshot} :
      Scene.Step .drop (.closed f (before ++ live :: after)) (.closed f (before ++ after))
  /-- The handle is dropped; its snapshots stay alive. -/
  | close {h : Handle} {halted : Bool} {lives : List LiveSnapshot} :
      Scene.Step .close (.opened h halted lives)
        (.closed h.disk.file (lives.map fun live => { live with ours := false }))
  | reopen {f : File} {lives : List LiveSnapshot} {options : DatabaseOptions} {db : Database} {d : Disk}
      (ran : openWithOptions C options (Disk.ofFile f []) = (.ok db, d)) :
      Scene.Step .reopen (.closed f lives) (.opened ⟨db, d⟩ false lives)

/-- The runs in which every call is made in a scene that allows it.  A run begins with a new
database, or with a file that an earlier one left. -/
inductive Watch (allowed : Call → Scene → Prop) : Scene → Prop
  | create {options : DatabaseOptions} {db : Database} {d : Disk}
      (ran : createWithOptions C options (Disk.ofFile File.empty []) = (.ok db, d)) :
      Watch allowed (.opened ⟨db, d⟩ false [])
  | found {limit : UInt64} {f : File} {maps : List (Bytes → Option Bytes)}
      (reach : Reach C limit (.closed f maps)) : Watch allowed (.closed f [])
  | step {call : Call} {s s' : Scene} (before : Watch allowed s) (may : allowed call s)
      (step : Scene.Step C call s s') : Watch allowed s'

/-- A compaction that the guard admits starts only when no snapshot is alive, also none of an
earlier handle; if it fails, the root pages it writes could not be torn into a third.  No
snapshot is taken after a compaction failed half way. -/
def Careful : Call → Scene → Prop
  | .compact, .opened h _ lives => h.db.snapshotGuard = 1 → lives = []
  | .compactFails, .opened h _ lives =>
      (h.db.snapshotGuard = 1 → lives = []) ∧ HonestPages h.disk.file (compactTrace C h)
  | .snapshot, .opened _ halted _ => halted = false
  | _, _ => True

end Run

/-! ## What keeps a snapshot -/

section Floor

variable {C : Crates} {c : Contents C} {f g : File} {n : Nat} {h h' : Handle} {live : LiveSnapshot}

/-- Opening the file does not cut it below `n`. -/
def Floor (C : Crates) (n : Nat) (f : File) : Prop :=
  ∃ (c : Contents C) (tail : Bytes), c.Image f tail ∧ n ≤ c.logEnd

theorem Floor.le_len (floor : Floor C n f) : n ≤ f.len := by
  obtain ⟨c, tail, image, below⟩ := floor
  exact below.trans image.long

/-- Whatever a file is sure to keep is in the next one too. -/
def Grows (C : Crates) (f g : File) : Prop :=
  ∀ n, Floor C n f → Floor C n g ∧ File.SameFront n f g

theorem grows_of_eq (same : g = f) : Grows C f g := by
  subst same
  exact fun n floor => ⟨floor, .refl floor.le_len⟩

/-- A step that leaves a clean log alone and writes behind it. -/
theorem Contents.Image.grows {c' : Contents C} {tail : Bytes} (image : c.Image f [])
    (image' : c'.Image g tail) (longer : c.logEnd ≤ c'.logEnd) (front : File.SameFront c.logEnd f g) :
    Grows C f g := by
  intro n floor
  have below : n ≤ c.logEnd := floor.le_len.trans image.len.le
  exact ⟨⟨c', tail, image', below.trans longer⟩, front.mono below⟩

theorem Committed.grows {batch : Batch} (healthy : c.Healthy h) (committed : Committed c batch h h') :
    Grows C h.disk.file h'.disk.file := by
  obtain ⟨chunks, flat, issued⟩ := committed.wrote
  have file : h'.disk.file = h.disk.file.write c.logEnd batch.bytes := by
    rw [issued.file, Effect.applyAll_append, Effect.applyAll_chunked, flat]
    rfl
  refine healthy.image.grows committed.healthy.image ?_ ?_
  · rw [Contents.commit_logEnd]
    exact Nat.le_add_right _ _
  · rw [file]
    exact .write healthy.image.long le_rfl

theorem CommitBroken.grows {batch : Batch} (healthy : c.Healthy h) (broken : CommitBroken c batch h h') :
    Grows C h.disk.file h'.disk.file := by
  have limit64 := h.db.options.maxDatabaseBytes.toNat_lt
  obtain ⟨effects, -, ⟨-, same⟩ | ⟨-, front, part, file⟩⟩ := broken.file healthy
  · exact grows_of_eq same
  · have written : File.SameFront c.logEnd h.disk.file (h.disk.file.write c.logEnd front) :=
      .write healthy.image.long le_rfl
    rw [file]
    rcases healthy.image.record (lt_of_le_of_lt broken.room limit64) part with old | ⟨-, new⟩
    · exact healthy.image.grows old le_rfl written
    · refine healthy.image.grows new ?_ written
      rw [Contents.commit_logEnd]
      exact Nat.le_add_right _ _

/-- The snapshot shows contents that were there when it was taken, its ranges read as they did
then, and they are in front of what the next open may cut off. -/
structure LiveSnapshot.Kept (C : Crates) (live : LiveSnapshot) (now : File) : Prop where
  shows : ∃ c : Contents C, c.Views live.snapshot.readView live.taken ∧
    c.Checks live.snapshot.baseVerifier ∧ live.snapshot.baseLen = c.entries.length
  front : ∃ n, Floor C n now ∧ File.SameFront n live.taken now ∧ live.snapshot.base.stop ≤ n ∧
    ∀ bytes, live.snapshot.overlayIndex.mapping = some bytes → bytes.stop ≤ n

theorem LiveSnapshot.Kept.grows (kept : live.Kept C f) (grows : Grows C f g) : live.Kept C g := by
  obtain ⟨n, floor, same, base, overlay⟩ := kept.front
  obtain ⟨floor', more⟩ := grows n floor
  exact ⟨kept.shows, n, floor', same.trans more, base, overlay⟩

theorem BaseBytes.intact {bytes : BaseBytes} (same : File.SameFront n f g) (below : bytes.stop ≤ n) :
    bytes.Intact f g := by
  cases bytes with
  | mapped offset size => exact ⟨Nat.le_trans below same.long, same.slice below⟩
  | memory bytes => trivial

theorem BaseBytes.Intact.deref {bytes : BaseBytes} (intact : bytes.Intact f g) :
    bytes.deref g = bytes.deref f := by
  cases bytes with
  | mapped offset size => exact intact.2
  | memory bytes => rfl

theorem OverlayMap.log_intact {overlay : OverlayMap}
    (intact : ∀ bytes, overlay.mapping = some bytes → bytes.Intact f g) : overlay.log g = overlay.log f := by
  cases overlay with
  | memory table => rfl
  | mapped bytes table tail =>
      cases bytes with
      | none => rfl
      | some bytes => exact (intact bytes rfl).deref

/-- A snapshot that is kept is a view of the moment at which it was taken. -/
theorem LiveSnapshot.Kept.pointInTime (kept : live.Kept C f) : live.PointInTime C f := by
  obtain ⟨c, views, checks, len⟩ := kept.shows
  obtain ⟨n, -, same, below, below'⟩ := kept.front
  have base := BaseBytes.intact same below
  have overlay : ∀ bytes, live.snapshot.overlayIndex.mapping = some bytes → bytes.Intact live.taken f :=
    fun bytes mapped => BaseBytes.intact same (below' bytes mapped)
  have sameBase : live.snapshot.readView.base.mapping.deref f =
      live.snapshot.readView.base.mapping.deref live.taken := base.deref
  have sameLog : live.snapshot.readView.overlay.log f = live.snapshot.readView.overlay.log live.taken :=
    OverlayMap.log_intact overlay
  have checked : ∀ v, live.Verifies v → c.Checks v := fun v verifies =>
    ⟨verifies.size.trans checks.size, verifies.table.trans checks.table, views.deref ▸ verifies.sound⟩
  refine ⟨base, overlay, fun v verifies key => ?_, fun v verifies => ?_⟩
  · obtain ⟨_, now, -⟩ := views.displays.get (checked v verifies) key
    obtain ⟨_, before, -⟩ := views.displays.get checks key
    rw [Snapshot.get, get_congr sameBase sameLog, now, Snapshot.get, before]
  · obtain ⟨pairs, -, all⟩ := views.displays.pairs
    obtain ⟨_, now, -⟩ := all v (checked v verifies)
    obtain ⟨_, before, -⟩ := all _ checks
    rw [Snapshot.iter, iterAll_congr sameBase sameLog, len, now, Snapshot.iter, len, before]

/-! ## What a handle maps -/

theorem MapsLog.stop_le {logStart : Nat} {log mapping : Bytes} {bytes : Option BaseBytes}
    (maps : OverlayMap.MapsLog logStart log bytes mapping) :
    ∀ found, bytes = some found → found.stop ≤ logStart + log.length := by
  cases maps with
  | nothing => nofun
  | front n inside =>
      rintro _ ⟨⟩
      exact Nat.add_le_add_left inside _

theorem Contents.Serves.stops (serves : c.Serves h) : h.db.base.mapping.stop ≤ c.logEnd ∧
    ∀ bytes, h.db.overlay.index.mapping = some bytes → bytes.stop ≤ c.logEnd := by
  constructor
  · rw [serves.base]
    show c.root.baseOffset + c.root.baseSize ≤ c.logEnd
    rw [← c.logStart]
    exact Nat.le_add_right _ _
  · obtain ⟨ops, index, -⟩ := serves.overlay
    obtain ⟨bytes, mapping, table, tail, records, shape, maps, -⟩ := index.shape
    rw [shape]
    exact MapsLog.stop_le maps

/-- A snapshot of a handle whose contents are sure to stay. -/
theorem Contents.Serves.kept {snapshot : Snapshot} (serves : c.Serves h)
    (floor : Floor C c.logEnd h.disk.file) (ran : Database.snapshot h = (.ok snapshot, h')) :
    LiveSnapshot.Kept C ⟨snapshot, h.disk.file, true⟩ h.disk.file ∧
      h' = { h with db := { h.db with snapshotGuard := h.db.snapshotGuard + 1 } } := by
  have available : h.db.state ≠ .unavailable := by
    intro lost
    unfold Database.snapshot at ran
    rw [bind_error (ensureAvailable_refused lost)] at ran
    cases ran
  unfold Database.snapshot at ran
  rw [bind_ok (Contents.ensureAvailable_run available)] at ran
  cases ran
  exact ⟨⟨⟨c, serves.views, serves.checks, serves.baseLen⟩, c.logEnd, floor, .refl floor.le_len,
    serves.stops⟩, rfl⟩

end Floor

/-! ## The invariant -/

def Scene.Holds (C : Crates) : Scene → Prop
  | .opened h halted lives =>
      (∃ m maps, Holding C m maps h) ∧ lives.countP LiveSnapshot.ours + 1 = h.db.snapshotGuard ∧
        (∀ live ∈ lives, live.Kept C h.disk.file) ∧
        (halted = false → ∃ c : Contents C, c.Serves h ∧ Floor C c.logEnd h.disk.file)
  | .closed f lives => Floor C 0 f ∧ ∀ live ∈ lives, live.ours = false ∧ live.Kept C f

section Invariant

variable {C : Crates} {c : Contents C} {f : File} {h h' : Handle} {halted : Bool} {lives : List LiveSnapshot}
variable {m : Bytes → Option Bytes} {maps : List (Bytes → Option Bytes)}

theorem Stored.floor {limit : Nat} (stored : Stored C limit maps f) : Floor C 0 f := by
  obtain ⟨-, m, -, c, tail, image, -⟩ := stored
  exact ⟨c, tail, image, Nat.zero_le _⟩

theorem Contents.Healthy.floor (healthy : c.Healthy h) : Floor C c.logEnd h.disk.file :=
  ⟨c, [], healthy.image, le_rfl⟩

/-- A healthy handle, with the snapshots that were kept. -/
theorem Contents.Healthy.scene (healthy : c.Healthy h) (counted : lives.countP LiveSnapshot.ours + 1 = h.db.snapshotGuard)
    (kept : ∀ live ∈ lives, live.Kept C h.disk.file) : (Scene.opened h halted lives).Holds C :=
  ⟨⟨c.map, [c.map], .healthy c rfl rfl healthy⟩, counted, kept, fun _ => ⟨c, healthy.serves, healthy.floor⟩⟩

/-- A call that does nothing to the file and to what the handle keeps. -/
theorem Scene.Holds.congr (holds : (Scene.opened h halted lives).Holds C)
    (db : h'.db = h.db) (file : h'.disk.file = h.disk.file) : (Scene.opened h' halted lives).Holds C := by
  obtain ⟨⟨m, maps, holding⟩, counted, kept, serves⟩ := holds
  refine ⟨⟨m, maps, holding.congr file (by rw [db]) (by rw [db]) (by rw [db]) (by rw [db])⟩,
    by rw [db]; exact counted, by rw [file]; exact kept, fun sound => ?_⟩
  obtain ⟨c, serves, floor⟩ := serves sound
  exact ⟨c, serves.congr (by rw [db]) (by rw [db]) (file ▸ serves.held), file ▸ floor⟩

theorem Scene.Holds.commit {txn : WriteTransaction} {ops : List Operation} {faults : List Fault}
    (holds : (Scene.opened h halted lives).Holds C) (staging : Staging false txn ops)
    (ran : Database.commitStagedWith C txn.staged txn.valueChecksums (h.afresh faults) = (.ok (), h')) :
    (Scene.opened h' halted lives).Holds C := by
  obtain ⟨⟨m, maps, holding⟩, counted, kept, -⟩ := id holds
  rcases (holding.afresh faults).cases with ⟨c, -, -, healthy⟩ | poisoned
  · rcases wp_ok (wp_commitStagedWith healthy ⟨_, staging.coherent⟩) ran with ⟨-, rfl⟩ | ⟨batch, -, -, committed⟩
    · exact holds.congr rfl rfl
    · have grows : Grows C (h.afresh faults).disk.file h'.disk.file := committed.grows healthy
      have guard : h'.db.snapshotGuard = h.db.snapshotGuard := committed.guard
      exact committed.healthy.scene (guard ▸ counted) fun live member => (kept live member).grows grows
  · rw [commit_poisoned poisoned] at ran
    cases ran

theorem Scene.Holds.commitFails {txn : WriteTransaction} {ops : List Operation} {faults : List Fault}
    {error : Error} (holds : (Scene.opened h halted lives).Holds C) (staging : Staging false txn ops)
    (ran : Database.commitStagedWith C txn.staged txn.valueChecksums (h.afresh faults) =
      (.error (.err error), h')) : (Scene.opened h' halted lives).Holds C := by
  obtain ⟨⟨m, maps, holding⟩, counted, kept, serves⟩ := id holds
  rcases (holding.afresh faults).cases with ⟨c, -, -, healthy⟩ | poisoned
  · obtain ⟨-, refused | ⟨batch, -, -, broken⟩⟩ := wp_error (wp_commit healthy staging.coherent) ran
    · exact holds.congr refused.db refused.disk.kept
    · have grows : Grows C (h.afresh faults).disk.file h'.disk.file := broken.grows healthy
      have state : h'.db.state = .writePoisoned := by rw [broken.db]
      have floor : Floor C c.logEnd h.disk.file := healthy.floor
      refine ⟨⟨c.map, [c.map, (c.commit batch).map], .readOnly c rfl state (broken.serves healthy) ?_⟩, ?_,
        fun live member => (kept live member).grows grows, fun _ => ⟨c, broken.serves healthy, (grows _ floor).1⟩⟩
      · rw [broken.db]
        exact (broken.keeps healthy).now
      · rw [broken.db]
        exact counted
  · rw [commit_poisoned poisoned] at ran
    cases ran
    exact holds.congr rfl rfl

/-- A compaction that wrote had the guard for itself, so there was no snapshot. -/
theorem Scene.Holds.compact {faults : List Fault} (holds : (Scene.opened h halted lives).Holds C)
    (careful : h.db.snapshotGuard = 1 → lives = [])
    (ran : Database.compact C (h.afresh faults) = (.ok (), h')) :
    (Scene.opened h' halted lives).Holds C := by
  obtain ⟨⟨m, maps, holding⟩, counted, kept, -⟩ := id holds
  rcases (holding.afresh faults).cases with ⟨c, -, -, healthy⟩ | poisoned
  · obtain ⟨config, c', healthy', -⟩ := wp_ok (wp_compact_holding healthy) ran
    have guard : h'.db.snapshotGuard = h.db.snapshotGuard := config.guard
    refine healthy'.scene (guard ▸ counted) ?_
    rcases wp_ok (wp_compact healthy) ran with ⟨-, same⟩ | ⟨alone, -⟩
    · have file : h'.disk.file = h.disk.file := same.disk.kept
      rw [file]
      exact kept
    · rw [careful alone]
      exact List.forall_mem_nil _
  · rw [compact_poisoned poisoned] at ran
    cases ran

theorem Scene.Holds.compactFails {faults : List Fault} {error : Error}
    (holds : (Scene.opened h halted lives).Holds C) (careful : h.db.snapshotGuard = 1 → lives = [])
    (honest : HonestPages h.disk.file (compactTrace C h))
    (ran : Database.compact C (h.afresh faults) = (.error (.err error), h')) :
    (Scene.opened h' (halted || decide (h'.db.state ≠ h.db.state)) lives).Holds C := by
  obtain ⟨⟨m, maps, holding⟩, counted, kept, -⟩ := id holds
  rcases (holding.afresh faults).cases with ⟨c, -, -, healthy⟩ | poisoned
  · obtain ⟨config, left⟩ := wp_error (wp_compact_holding healthy) ran
    have guard : h'.db.snapshotGuard = h.db.snapshotGuard := config.guard
    have holding' := left honest ⟨error, rfl⟩
    refine ⟨⟨_, _, holding'⟩, guard ▸ counted, ?_, fun sound => ?_⟩
    · rcases wp_error (wp_compact healthy) ran with ⟨-, same⟩ | ⟨alone, -⟩
      · have file : h'.disk.file = h.disk.file := same.disk.kept
        rw [file]
        exact kept
      · rw [careful alone]
        exact List.forall_mem_nil _
    · -- The state is as it was, so the handle is healthy.
      have same : h'.db.state = h.db.state :=
        not_not.mp (of_decide_eq_false (Bool.or_eq_false_iff.mp sound).2)
      rcases holding'.cases with ⟨c', -, -, healthy'⟩ | poisoned
      · exact ⟨c', healthy'.serves, healthy'.floor⟩
      · exact absurd (same.trans healthy.state) poisoned
  · rw [compact_poisoned poisoned] at ran
    cases ran
    rw [show decide ((h.afresh faults).db.state ≠ h.db.state) = false from decide_eq_false (not_not.mpr rfl),
      Bool.or_false]
    exact holds.congr rfl rfl

/-- Reading changes at most what the verifier remembers. -/
theorem Scene.Holds.read (holds : (Scene.opened h halted lives).Holds C) (query : Query) :
    (Scene.opened (query.after C h) halted lives).Holds C := by
  obtain ⟨⟨m, maps, holding⟩, counted, kept, serves⟩ := holds
  refine ⟨⟨m, maps, (holding.read query).1⟩, ?_⟩
  by_cases lost : h.db.state = .unavailable
  · rw [Query.after_unavailable lost]
    exact ⟨counted, kept, serves⟩
  · have shown : ∀ {c : Contents C}, c.Serves h → ∃ v, query.after C h = h.withVerifier v ∧ c.Checks v :=
      fun serves => Query.after_serves serves lost query
    obtain ⟨v, after⟩ : ∃ v, query.after C h = h.withVerifier v := by
      cases holding with
      | healthy c map only healthy => exact (shown healthy.serves).imp fun _ => And.left
      | readOnly c map state serves => exact (shown serves).imp fun _ => And.left
      | lost state => exact absurd state lost
    refine ⟨after ▸ counted, after ▸ kept, fun sound => ?_⟩
    obtain ⟨c, serves, floor⟩ := serves sound
    obtain ⟨v', after', checks⟩ := shown serves
    rw [after']
    exact ⟨c, serves.withVerifier checks, floor⟩

theorem Scene.Holds.snapshot {snapshot : Snapshot} (holds : (Scene.opened h halted lives).Holds C)
    (careful : halted = false) (ran : Database.snapshot h = (.ok snapshot, h')) :
    (Scene.opened h' halted (⟨snapshot, h.disk.file, true⟩ :: lives)).Holds C := by
  obtain ⟨⟨m, maps, holding⟩, counted, kept, serves⟩ := holds
  obtain ⟨c, serves, floor⟩ := serves careful
  obtain ⟨new, rfl⟩ := serves.kept floor ran
  refine ⟨⟨m, maps, holding.congr rfl rfl rfl rfl rfl⟩, ?_, List.forall_mem_cons.mpr ⟨new, kept⟩,
    fun _ => ⟨c, serves.congr rfl rfl serves.held, floor⟩⟩
  rw [List.countP_cons_of_pos rfl]
  exact congrArg (· + 1) counted

theorem Floor.reopen {n : Nat} {options : DatabaseOptions} {db : Database} {d : Disk} (floor : Floor C n f)
    (ran : openWithOptions C options (Disk.ofFile f []) = (.ok db, d)) :
    (∃ c : Contents C, c.Healthy ⟨db, d⟩) ∧ db.snapshotGuard = 1 ∧ Floor C n d.file ∧
      File.SameFront n f d.file := by
  obtain ⟨c, tail, image, below⟩ := floor
  obtain ⟨enough, room⟩ := wp_ok (wp_open_allowed options (Disk.ofFile f [])) ran
  obtain ⟨issued, opened⟩ := wp_ok (wp_openLegible
    (show (Disk.ofFile f []).Quiet from List.forall_mem_nil _) image.legible enough room) ran
  have healthy := opened.healthy image room issued
  refine ⟨⟨c, healthy⟩, opened.guard, ⟨c, [], healthy.image, below⟩, ?_⟩
  rw [issued.file, OpenEffects]
  split
  · exact .refl (below.trans image.long)
  · exact .setLen below

theorem Scene.Holds.reopen {options : DatabaseOptions} {db : Database} {d : Disk}
    (holds : (Scene.closed f lives).Holds C)
    (ran : openWithOptions C options (Disk.ofFile f []) = (.ok db, d)) :
    (Scene.opened ⟨db, d⟩ false lives).Holds C := by
  obtain ⟨floor, kept⟩ := holds
  obtain ⟨⟨c, healthy⟩, guard, -⟩ := floor.reopen ran
  refine healthy.scene ?_ fun live member => (kept live member).2.grows fun n floor => (floor.reopen ran).2.2
  have none : lives.countP LiveSnapshot.ours = 0 :=
    List.countP_eq_zero.mpr fun live member => by simp [(kept live member).1]
  rw [none]
  exact guard.symm

theorem snapshot_ok (healthy : c.Healthy h) :
    ∃ snapshot h', Database.snapshot h = (.ok snapshot, h') ∧ snapshot.base = h.db.base.mapping ∧
      h'.disk.file = h.disk.file ∧ h'.db.options = h.db.options ∧ c.Healthy h' := by
  unfold Database.snapshot
  rw [bind_ok (Contents.ensureAvailable_run healthy.available)]
  exact ⟨_, _, rfl, rfl, rfl, rfl, healthy.serves.congr rfl rfl healthy.serves.held, healthy.state,
    healthy.image, healthy.room⟩

theorem kept_without {P : LiveSnapshot → Prop} {before after : List LiveSnapshot} {dropped : LiveSnapshot}
    (all : ∀ live ∈ before ++ dropped :: after, P live) : ∀ live ∈ before ++ after, P live := fun other member =>
  all other (List.mem_append.mpr ((List.mem_append.mp member).imp_right (List.mem_cons_of_mem _)))

theorem Scene.Step.holds {call : Call} {s s' : Scene} (step : Scene.Step C call s s')
    (careful : Careful C call s) (holds : s.Holds C) : s'.Holds C := by
  cases step with
  | commit faults staging ran => exact holds.commit staging ran
  | commitFails faults staging ran => exact holds.commitFails staging ran
  | compact faults ran => exact holds.compact careful ran
  | compactFails faults ran => exact holds.compactFails careful.1 careful.2 ran
  | read query => exact holds.read query
  | snapshot ran => exact holds.snapshot careful ran
  | @dropOurs h halted before after live ours =>
      obtain ⟨⟨m, maps, holding⟩, counted, kept, serves⟩ := holds
      refine ⟨⟨m, maps, holding.congr rfl rfl rfl rfl rfl⟩, ?_,
        kept_without (P := fun live => live.Kept C h.disk.file) kept, fun sound => ?_⟩
      · rw [List.countP_append, List.countP_cons_of_pos ours] at counted
        rw [List.countP_append]
        dsimp only
        omega
      · obtain ⟨c, serves, floor⟩ := serves sound
        exact ⟨c, serves.congr rfl rfl serves.held, floor⟩
  | @dropOther h halted before after live other =>
      obtain ⟨holding, counted, kept, serves⟩ := holds
      refine ⟨holding, ?_, kept_without kept, serves⟩
      rw [List.countP_append, List.countP_cons_of_neg (by simp [other])] at counted
      rw [List.countP_append]
      exact counted
  | dropClosed => exact ⟨holds.1, kept_without holds.2⟩
  | close =>
      obtain ⟨⟨m, maps, holding⟩, -, kept, -⟩ := holds
      refine ⟨holding.stored.floor, fun live member => ?_⟩
      obtain ⟨old, there, rfl⟩ := List.mem_map.mp member
      exact ⟨rfl, (kept old there).shows, (kept old there).front⟩
  | reopen ran => exact holds.reopen ran

theorem Watch.holds {s : Scene} (run : Watch C (Careful C) s) : s.Holds C := by
  induction run with
  | @create options db d ran =>
      have enough : minDatabaseBytes ≤ options.maxDatabaseBytes.toNat := (Reach.create rfl ran).enough
      obtain ⟨_, _, created, healthy, -, guard, -⟩ := create_ok C enough
      cases ran.symm.trans created
      exact healthy.scene guard.symm (List.forall_mem_nil _)
  | found reach => exact ⟨Stored.floor reach.holds, List.forall_mem_nil _⟩
  | step _ may step ih => exact step.holds may ih

/-- In every run that is careful about compactions, every snapshot is at every step a view of
the moment at which it was taken. -/
theorem snapshots_point_in_time {s : Scene} (run : Watch C (Careful C) s) :
    ∀ live ∈ s.lives, live.PointInTime C s.file := by
  intro live member
  have holds := run.holds
  cases s with
  | opened h halted lives => exact (holds.2.2.1 live member).pointInTime
  | closed f lives => exact (holds.2 live member).2.pointInTime

/-- A snapshot of a new database, and a commit. -/
theorem snapshots_point_in_time_put : ∃ (s : Scene) (live : LiveSnapshot), Watch zeroHash (Careful zeroHash) s ∧
    live ∈ s.lives ∧ live.PointInTime zeroHash s.file := by
  obtain ⟨db, d, created, healthy, optionsIs, -⟩ := @create_ok .default zeroHash (by decide)
  obtain ⟨snapshot, h', taken, -, -, options, healthy'⟩ := snapshot_ok healthy
  obtain ⟨h₂, batch, committed, -, -⟩ :=
    commit_put (healthy'.afresh []) (List.forall_mem_nil _) (options.trans optionsIs)
  have run : Watch zeroHash (Careful zeroHash) (.opened h₂ false [⟨snapshot, d.file, true⟩]) := by
    refine .step (.step (.create created) ?_ (.snapshot taken)) ?_ (.commit [] firstPut_staging committed)
    · rfl
    · trivial
  exact ⟨_, _, run, List.mem_singleton_self _, snapshots_point_in_time run _ (List.mem_singleton_self _)⟩

/-! ## A snapshot that outlives its handle -/

/-- The header of a Base has the number of its slots. -/
theorem Contents.Held.slots_read (held : c.Held f) :
    f.slice (c.root.baseOffset + 8) 8 = leBytes 8 c.slots := by
  obtain ⟨index, laid, data⟩ := c.isBase.laid
  have long : 8 + 8 ≤ c.data.length := by
    have header : 8 + 8 ≤ baseHeader := by decide
    rw [c.isBase.length]
    omega
  have longer : 8 + 8 ≤ (segmentBytes c.data).length := by
    rw [segmentBytes_length]
    omega
  rw [held.base.window longer, segmentBytes, window_append_left _ _ _ _ long, data, dataBytes,
    window_append_left _ _ _ _ (by rw [headerBytes_length]; decide)]
  simp [headerBytes, window_append_left, window_append_right, window_eq_self]

/-- Another number of slots at the same place is another Base. -/
theorem Contents.Held.overwritten {c' : Contents C} {now : File} {size : Nat} (held : c.Held f)
    (held' : c'.Held now) (place : c'.root.baseOffset = c.root.baseOffset) (long : 8 + 8 ≤ size)
    (differ : leBytes 8 c'.slots ≠ leBytes 8 c.slots) :
    ¬(BaseBytes.mapped c.root.baseOffset size).Intact f now := by
  rintro ⟨-, same⟩
  refine differ ?_
  rw [← held'.slots_read, ← held.slots_read, place]
  rw [← File.window_slice _ _ _ _ _ long, ← File.window_slice _ _ _ _ _ long, same]

end Invariant

/-- A snapshot of a new database is alive; the handle is closed and another one opened, which
commits and compacts.  The compaction returns, and the Base that the snapshot maps is gone. -/
theorem snapshot_overwritten : ∃ (s : Scene) (live : LiveSnapshot), Watch zeroHash (fun _ _ => True) s ∧
    live ∈ s.lives ∧ ¬live.snapshot.base.Intact live.taken s.file := by
  obtain ⟨db, d, created, healthy, optionsIs, -⟩ := @create_ok .default zeroHash (by decide)
  obtain ⟨snapshot, h₁, taken, base, file, -, -⟩ := snapshot_ok healthy
  obtain ⟨db₂, d₂, opened, healthy₂, options₂, guard₂, -⟩ :=
    @open_image _ _ _ .default _ healthy.image (by decide) (optionsIs ▸ healthy.room)
  obtain ⟨h₃, batch, committed, ops, done⟩ :=
    commit_put (healthy₂.afresh []) (List.forall_mem_nil _) options₂
  obtain ⟨r, h₄, compacted, healthy₄, plan, -, -, slots⟩ := compact_put ops (done.healthy.afresh [])
    (List.forall_mem_nil _) (done.guard.trans guard₂) (done.options.trans options₂)
  have run : Watch zeroHash (fun _ _ => True) (.opened h₄ false [⟨snapshot, d.file, false⟩]) := by
    have one : Watch zeroHash (fun _ _ => True) _ := (Watch.create created).step trivial (.snapshot taken)
    have two := one.step trivial .close
    rw [file] at two
    exact ((two.step trivial (.reopen opened)).step trivial (.commit [] firstPut_staging committed)).step trivial
      (.compact [] compacted)
  refine ⟨_, _, run, List.mem_singleton_self _, ?_⟩
  show ¬snapshot.base.Intact d.file h₄.disk.file
  have place₀ : (emptyContents zeroHash).root.baseOffset = dataStart := Contents.ofBase_baseOffset ..
  rw [base, healthy.serves.base]
  refine healthy.serves.held.overwritten healthy₄.serves.held (r.front.trans place₀.symm) ?_ ?_
  · rw [emptyContents_root]
    decide
  · rw [plan.slots, slots]
    decide

end Lkv
