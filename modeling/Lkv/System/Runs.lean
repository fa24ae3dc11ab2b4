/-
# Lkv.System.Runs — whole runs of a database on one file

A run creates a database and goes on with commits, compactions, reads, snapshots,
closing, reopening and crashes, in any order (`Step`, `Reach`).  Calls may fail in commits
and compactions.  A run carries along what a client knows: the map that the handle shows,
and the maps that the file may be read as by the next open.  There is more than one only
after a commit that was cut short or that failed, and then there are two: with the batch
and without it.

The invariant is `World.Holds`; each step keeps it (`Step.holds`), so every run does
(`Reach.holds`).
-/
import Lkv.System.Commit
import Lkv.System.Compact

namespace Lkv
open Lkv.Theory Lkv.Theory.Prog Dictionary

set_option autoImplicit false

/-! ## One commit -/

section Commit

variable {C : Crates} {c : Contents C} {h h' : Handle} {memory : Bool} {txn : WriteTransaction}
variable {ops : List Operation} {batch : Batch} {m : Bytes → Option Bytes}
variable {maps : List (Bytes → Option Bytes)}

theorem Coherent.commit_map (coherent : Coherent txn ops)
    (staged : batch.ops = (stagedEntries C txn.staged).map stagedOp) :
    (c.commit batch).map = override c.map ops := by
  rw [Contents.commit_map, staged]
  exact override_congr (coherent.latest_staged C)

theorem Coherent.commit_nothing (coherent : Coherent txn ops)
    (nothing : stagedEntries C txn.staged = []) : override c.map ops = c.map := by
  have same := coherent.latest_staged C
  rw [nothing] at same
  exact (override_congr same).symm

/-- A commit of `ops` on a healthy handle. -/
theorem wp_commit (healthy : c.Healthy h) (coherent : Coherent txn ops) :
    wp (Database.commitStagedWith C txn.staged txn.valueChecksums)
      (fun _ h' => SameConfig h.db h'.db ∧
        ∃ c' : Contents C, c'.Healthy h' ∧ c'.map = override c.map ops)
      (fun e h' => (∃ error, e = .err error) ∧ (Refused h h' ∨
        ∃ batch : Batch, batch.ops = (stagedEntries C txn.staged).map stagedOp ∧
          (c.commit batch).map = override c.map ops ∧ CommitBroken c batch h h')) h := by
  refine wp_mono (wp_commitStagedWith healthy ⟨ops, coherent⟩) ?_ ?_
  · rintro _ h' (⟨nothing, rfl⟩ | ⟨batch, staged, -, committed⟩)
    · exact ⟨⟨rfl, rfl⟩, c, healthy, (coherent.commit_nothing nothing).symm⟩
    · exact ⟨⟨committed.options, committed.guard⟩, c.commit batch, committed.healthy,
        coherent.commit_map staged⟩
  · rintro e h' ⟨returned, ⟨refused, -⟩ | ⟨batch, staged, broken⟩⟩
    · exact ⟨returned, .inl refused⟩
    · exact ⟨returned, .inr ⟨batch, staged, coherent.commit_map staged, broken⟩⟩

/-- Cut short anywhere, it leaves the old map or the new one. -/
theorem commit_keeps (healthy : c.Healthy h) (coherent : Coherent txn ops) :
    Disk.Keeps (Stored C h.db.options.maxDatabaseBytes.toNat [c.map, override c.map ops]) h.disk
      (Database.commitStagedWith C txn.staged txn.valueChecksums h).2.disk := by
  have nothing : ∀ {h' : Handle}, Disk.Issued [] h.disk h'.disk →
      Disk.Keeps (Stored C h.db.options.maxDatabaseBytes.toNat [c.map, override c.map ops])
        h.disk h'.disk := fun issued =>
    issued.keeps ⟨healthy.room, c.map, List.mem_cons_self, healthy.image.recovers⟩
  refine @wp_final _ _ _ _ _ (fun h' => Disk.Keeps _ h.disk h'.disk)
    (wp_mono (wp_commitStagedWith healthy ⟨ops, coherent⟩) ?_ ?_)
  · rintro _ h' (⟨-, rfl⟩ | ⟨batch, staged, -, committed⟩)
    · exact nothing (Disk.Issued.refl _)
    · exact coherent.commit_map staged ▸ committed.keeps healthy
  · rintro e h' ⟨-, ⟨refused, -⟩ | ⟨batch, staged, broken⟩⟩
    · exact nothing refused.disk
    · exact coherent.commit_map staged ▸ broken.keeps healthy

end Commit

/-! ## One compaction -/

section Compact

variable {C : Crates} {c : Contents C} {h : Handle}

theorem honest_verified {r : Rewrite c} (healthy : c.Healthy h) (guard : h.db.snapshotGuard = 1)
    (unsettled : ¬c.Settled) (plan : r.For (verified C h))
    (honest : HonestPages h.disk.file (compactTrace C h)) : r.Honest (verified C h).disk.file := by
  rw [healthy.unchanged_verified.disk.kept]
  exact r.honest_of_trace healthy guard unsettled plan honest

/-- A compaction of a healthy handle leaves a healthy handle or one that still has the map. -/
theorem wp_compact_holding (healthy : c.Healthy h) :
    wp (Database.compact C)
      (fun _ h' => SameConfig h.db h'.db ∧ ∃ c' : Contents C, c'.Healthy h' ∧ c'.map = c.map)
      (fun e h' => SameConfig h.db h'.db ∧ (HonestPages h.disk.file (compactTrace C h) →
        (∃ error, e = .err error) → Holding C c.map [c.map] h')) h := by
  have checked := healthy.unchanged_verified
  refine wp_mono (wp_compact healthy) ?_ ?_
  · rintro _ h' (⟨-, same⟩ | ⟨guard, unsettled, r, plan, finished⟩)
    · exact ⟨same.config, c, same.healthy, rfl⟩
    · have config : SameConfig (verified C h).db h'.db := by
        rw [finished.db]
        exact ⟨rfl, rfl⟩
      exact ⟨⟨config.options.trans checked.config.options, config.guard.trans checked.config.guard⟩,
        r.final, r.finished_healthy checked.healthy plan finished, r.finalMap⟩
  · rintro e h' (⟨-, same⟩ | ⟨guard, unsettled, r, plan, halted⟩)
    · exact ⟨same.config, fun _ _ => .healthy c rfl rfl same.healthy⟩
    · have config := halted.config
      exact ⟨⟨config.options.trans checked.config.options, config.guard.trans checked.config.guard⟩,
        fun honest => r.halted_holding checked.healthy plan
          (honest_verified healthy guard unsettled plan honest) halted⟩

/-- Cut short anywhere, it leaves the map alone. -/
theorem compact_keeps (healthy : c.Healthy h) (honest : HonestPages h.disk.file (compactTrace C h)) :
    Disk.Keeps (Stored C h.db.options.maxDatabaseBytes.toNat [c.map]) h.disk
      (Database.compact C h).2.disk := by
  have checked := healthy.unchanged_verified
  have nothing : ∀ {h' : Handle}, Unchanged c h h' →
      Disk.Keeps (Stored C h.db.options.maxDatabaseBytes.toNat [c.map]) h.disk h'.disk := fun same =>
    same.disk.keeps ⟨healthy.room, c.map, List.mem_cons_self, healthy.image.recovers⟩
  refine @wp_final _ _ _ _ _ (fun h' => Disk.Keeps _ h.disk h'.disk) (wp_mono (wp_compact healthy) ?_ ?_)
  · rintro _ h' (⟨-, same⟩ | ⟨guard, unsettled, r, plan, finished⟩)
    · exact nothing same
    · have keeps := r.finished_keeps checked.healthy plan
        (honest_verified healthy guard unsettled plan honest) finished
      rw [checked.config.options] at keeps
      exact (nothing checked).trans keeps
  · rintro e h' (⟨-, same⟩ | ⟨guard, unsettled, r, plan, halted⟩)
    · exact nothing same
    · have keeps := r.halted_keeps checked.healthy plan
        (honest_verified healthy guard unsettled plan honest) halted
      rw [checked.config.options] at keeps
      exact (nothing checked).trans keeps

end Compact

/-! ## Reads -/

/-- The operations that only read. -/
inductive Query where
  | get (key : Bytes)
  | containsKey (key : Bytes)
  | iter
  | len
  | isEmpty
  | verify

/-- The handle after a read. -/
def Query.after (C : Crates) (h : Handle) : Query → Handle
  | .get key => (Database.get C key h).2
  | .containsKey key => (Database.containsKey C key h).2
  | .iter => (Database.iter C h).2
  | .len => (Database.len C h).2
  | .isEmpty => (Database.isEmpty C h).2
  | .verify => (Database.verify C h).2

section Query

variable {C : Crates} {c : Contents C} {h : Handle}

theorem Query.after_answers (answers : c.Answers h) (available : h.db.state ≠ .unavailable)
    (query : Query) : ∃ v, query.after C h = h.withVerifier v ∧ c.Checks v := by
  cases query with
  | get key =>
      obtain ⟨v, ran, checks⟩ := answers.get available key
      exact ⟨v, congrArg Prod.snd ran, checks⟩
  | containsKey key =>
      obtain ⟨v, ran, checks⟩ := answers.get available key
      exact ⟨v, congrArg Prod.snd (bind_ok ran), checks⟩
  | iter =>
      obtain ⟨pairs, v, ran, -, checks⟩ := answers.iter available
      exact ⟨v, congrArg Prod.snd ran, checks⟩
  | len => exact ⟨_, congrArg Prod.snd (answers.count available), answers.checks⟩
  | isEmpty => exact ⟨_, congrArg Prod.snd (bind_ok (answers.count available)), answers.checks⟩
  | verify =>
      obtain ⟨v, ran, checks⟩ := answers.verify available
      exact ⟨v, congrArg Prod.snd ran, checks⟩

theorem Query.after_serves (serves : c.Serves h) (available : h.db.state ≠ .unavailable)
    (query : Query) : ∃ v, query.after C h = h.withVerifier v ∧ c.Checks v :=
  query.after_answers serves.answers available

theorem ensureAvailable_refused (unavailable : h.db.state = .unavailable) :
    Database.ensureAvailable h = (.error (.err .poisoned), h) := by
  unfold Database.ensureAvailable
  rw [bind_run, state_run]
  exact congrFun (if_pos unavailable) h

theorem Query.after_unavailable (unavailable : h.db.state = .unavailable) (query : Query) :
    query.after C h = h := by
  have refused := ensureAvailable_refused unavailable
  cases query with
  | get key => exact congrArg Prod.snd (bind_error refused)
  | containsKey key => exact congrArg Prod.snd (bind_error (bind_error refused))
  | iter => exact congrArg Prod.snd (bind_error refused)
  | len => exact congrArg Prod.snd (bind_error refused)
  | isEmpty => exact congrArg Prod.snd (bind_error (bind_error refused))
  | verify => exact congrArg Prod.snd (bind_error refused)

end Query

/-! ## Runs -/

/-- What a client knows of a database: of an open handle the map it shows, and of the file
the maps that the next open may find. -/
inductive World where
  | opened (h : Handle) (m : Bytes → Option Bytes) (maps : List (Bytes → Option Bytes))
  | closed (f : File) (maps : List (Bytes → Option Bytes))

/-- The map that a handle shows. -/
def shown (C : Crates) (h : Handle) : Bytes → Option Bytes := fun key =>
  match (Database.get C key h).1 with
  | .ok value => value
  | .error _ => none

section Step

variable (C : Crates) (limit : UInt64)

/-- One step of a run in which every open has the limit `limit`. -/
inductive Step : World → World → Prop
  | commit {h h' : Handle} {m : Bytes → Option Bytes} {maps : List (Bytes → Option Bytes)}
      {txn : WriteTransaction} {ops : List Operation} (faults : List Fault)
      (staging : Staging false txn ops)
      (ran : Database.commitStagedWith C txn.staged txn.valueChecksums (h.afresh faults) =
        (.ok (), h')) :
      Step (.opened h m maps) (.opened h' (override m ops) [override m ops])
  | commitFails {h h' : Handle} {m : Bytes → Option Bytes} {maps : List (Bytes → Option Bytes)}
      {txn : WriteTransaction} {ops : List Operation} {error : Error} (faults : List Fault)
      (staging : Staging false txn ops)
      (ran : Database.commitStagedWith C txn.staged txn.valueChecksums (h.afresh faults) =
        (.error (.err error), h')) :
      Step (.opened h m maps)
        (.opened h' m (if h'.db.state = h.db.state then maps else [m, override m ops]))
  | compact {h h' : Handle} {m : Bytes → Option Bytes} {maps : List (Bytes → Option Bytes)}
      (faults : List Fault) (ran : Database.compact C (h.afresh faults) = (.ok (), h')) :
      Step (.opened h m maps) (.opened h' m maps)
  | compactFails {h h' : Handle} {m : Bytes → Option Bytes} {maps : List (Bytes → Option Bytes)}
      {error : Error} (faults : List Fault) (honest : HonestPages h.disk.file (compactTrace C h))
      (ran : Database.compact C (h.afresh faults) = (.error (.err error), h')) :
      Step (.opened h m maps) (.opened h' m maps)
  | read {h : Handle} {m : Bytes → Option Bytes} {maps : List (Bytes → Option Bytes)} (query : Query) :
      Step (.opened h m maps) (.opened (query.after C h) m maps)
  | snapshot {h : Handle} {m : Bytes → Option Bytes} {maps : List (Bytes → Option Bytes)} :
      Step (.opened h m maps) (.opened (Database.snapshot h).2 m maps)
  | dropSnapshot {h : Handle} {m : Bytes → Option Bytes} {maps : List (Bytes → Option Bytes)}
      (live : 1 < h.db.snapshotGuard) :
      Step (.opened h m maps)
        (.opened { h with db := { h.db with snapshotGuard := h.db.snapshotGuard - 1 } } m maps)
  | close {h : Handle} {m : Bytes → Option Bytes} {maps : List (Bytes → Option Bytes)} :
      Step (.opened h m maps) (.closed h.disk.file maps)
  | crashInCommit {h : Handle} {m : Bytes → Option Bytes} {maps : List (Bytes → Option Bytes)}
      {txn : WriteTransaction} {ops : List Operation} (faults : List Fault) (k n : Nat)
      (staging : Staging false txn ops) :
      Step (.opened h m maps) (.closed
        (Effect.crashImage h.disk.file
          (Database.commitStagedWith C txn.staged txn.valueChecksums (h.afresh faults)).2.disk.trace k n)
        (if h.db.state = .healthy then [m, override m ops] else maps))
  | crashInCompact {h : Handle} {m : Bytes → Option Bytes} {maps : List (Bytes → Option Bytes)}
      (faults : List Fault) (k n : Nat) (honest : HonestPages h.disk.file (compactTrace C h)) :
      Step (.opened h m maps) (.closed
        (Effect.crashImage h.disk.file (Database.compact C (h.afresh faults)).2.disk.trace k n) maps)
  | reopen {f : File} {maps : List (Bytes → Option Bytes)} {options : DatabaseOptions} {db : Database}
      {d : Disk} (same : options.maxDatabaseBytes = limit)
      (ran : openWithOptions C options (Disk.ofFile f []) = (.ok db, d)) :
      Step (.closed f maps) (.opened ⟨db, d⟩ (shown C ⟨db, d⟩) [shown C ⟨db, d⟩])
  | crashInOpen {f : File} {maps : List (Bytes → Option Bytes)} {options : DatabaseOptions}
      (same : options.maxDatabaseBytes = limit) (k n : Nat) :
      Step (.closed f maps) (.closed
        (Effect.crashImage f (openWithOptions C options (Disk.ofFile f [])).2.trace k n) maps)

/-- What a run that starts with a creation can reach. -/
inductive Reach : World → Prop
  | create {options : DatabaseOptions} {db : Database} {d : Disk}
      (same : options.maxDatabaseBytes = limit)
      (ran : createWithOptions C options (Disk.ofFile File.empty []) = (.ok db, d)) :
      Reach (.opened ⟨db, d⟩ (fun _ => none) [fun _ => none])
  | step {w w' : World} (before : Reach w) (step : Step C limit w w') : Reach w'

end Step

/-! ## The invariant -/

def World.Holds (C : Crates) (limit : UInt64) : World → Prop
  | .opened h m maps => Holding C m maps h ∧ h.db.options.maxDatabaseBytes = limit
  | .closed f maps => Stored C limit.toNat maps f

section Holding

variable {C : Crates} {h h' : Handle} {m : Bytes → Option Bytes} {maps : List (Bytes → Option Bytes)}
variable {limit : UInt64}

theorem Holding.stored (holding : Holding C m maps h) :
    Stored C h.db.options.maxDatabaseBytes.toNat maps h.disk.file := by
  cases holding with
  | healthy c map only healthy =>
      subst map only
      exact ⟨healthy.room, _, List.mem_cons_self, healthy.image.recovers⟩
  | readOnly c map state serves stored => exact stored
  | lost state stored => exact stored

/-- What a failure would leave out of account: only the file matters of the disk, and of the
handle not the guard. -/
theorem Holding.congr (holding : Holding C m maps h) (file : h'.disk.file = h.disk.file)
    (base : h'.db.base = h.db.base) (overlay : h'.db.overlay = h.db.overlay)
    (options : h'.db.options = h.db.options) (state : h'.db.state = h.db.state) :
    Holding C m maps h' := by
  cases holding with
  | healthy c map only healthy =>
      exact .healthy c map only ⟨healthy.serves.congr base overlay (file ▸ healthy.serves.held),
        state.trans healthy.state, file ▸ healthy.image, by rw [file, options]; exact healthy.room⟩
  | readOnly c map poisoned serves stored =>
      exact .readOnly c map (state.trans poisoned)
        (serves.congr base overlay (file ▸ serves.held)) (by rw [file, options]; exact stored)
  | lost unavailable stored =>
      exact .lost (state.trans unavailable) (by rw [file, options]; exact stored)

theorem Holding.afresh (holding : Holding C m maps h) (faults : List Fault) :
    Holding C m maps (h.afresh faults) :=
  holding.congr rfl rfl rfl rfl rfl

/-- Reading changes nothing but what the verifier remembers. -/
theorem Holding.read (holding : Holding C m maps h) (query : Query) :
    Holding C m maps (query.after C h) ∧ (query.after C h).db.options = h.db.options := by
  cases holding with
  | healthy c map only healthy =>
      obtain ⟨v, same, checks⟩ := query.after_serves healthy.serves healthy.available
      rw [same]
      exact ⟨.healthy c map only (healthy.withVerifier checks), rfl⟩
  | readOnly c map state serves stored =>
      obtain ⟨v, same, checks⟩ := query.after_serves serves (state ▸ by decide)
      rw [same]
      exact ⟨.readOnly c map state (serves.withVerifier checks) stored, rfl⟩
  | lost state stored =>
      rw [query.after_unavailable state]
      exact ⟨.lost state stored, rfl⟩

theorem commit_poisoned (poisoned : h.db.state ≠ .healthy) (staged : KeyMap OverlayEntry)
    (checksums : KeyMap (BitVec 32)) :
    Database.commitStagedWith C staged checksums h = (.error (.err .poisoned), h) := by
  unfold Database.commitStagedWith Database.ensureWritable
  rw [bind_error]
  rw [bind_run, state_run]
  exact congrFun (if_pos poisoned) h

theorem compact_poisoned (poisoned : h.db.state ≠ .healthy) :
    Database.compact C h = (.error (.err .poisoned), h) := by
  unfold Database.compact Database.ensureWritable
  rw [bind_error]
  rw [bind_run, state_run]
  exact congrFun (if_pos poisoned) h

theorem snapshot_after (h : Handle) : (Database.snapshot h).2 = h ∨
    (Database.snapshot h).2 = { h with db := { h.db with snapshotGuard := h.db.snapshotGuard + 1 } } := by
  by_cases unavailable : h.db.state = .unavailable
  · exact .inl (congrArg Prod.snd (bind_error (ensureAvailable_refused unavailable)))
  · exact .inr (congrArg Prod.snd (bind_ok (Contents.ensureAvailable_run unavailable)))

/-- A handle shows its map for as long as it is available. -/
theorem Holding.shows (holding : Holding C m maps h) (available : h.db.state ≠ .unavailable) :
    Shows C h m := by
  cases holding with
  | healthy c map only healthy => exact map ▸ healthy.shows
  | readOnly c map state serves stored => exact map ▸ serves.answers.shows available
  | lost state stored => exact absurd state available

/-- A handle that is not healthy refuses to write. -/
theorem Holding.cases (holding : Holding C m maps h) :
    (∃ c : Contents C, c.map = m ∧ maps = [m] ∧ c.Healthy h) ∨ h.db.state ≠ .healthy := by
  cases holding with
  | healthy c map only healthy => exact .inl ⟨c, map, only, healthy⟩
  | readOnly c map state => exact .inr (state ▸ by decide)
  | lost state => exact .inr (state ▸ by decide)

end Holding

section Invariant

variable {C : Crates} {limit : UInt64} {w w' : World}

theorem shown_eq {h : Handle} {m : Bytes → Option Bytes} (shows : Shows C h m) : shown C h = m := by
  funext key
  rw [shown, shows.get key]

/-- What opening an image does: it cuts off the tail, and a crash meanwhile changes nothing. -/
theorem Stored.open {f : File} {maps : List (Bytes → Option Bytes)} {options : DatabaseOptions}
    (enough : minDatabaseBytes ≤ options.maxDatabaseBytes.toNat)
    (stored : Stored C options.maxDatabaseBytes.toNat maps f) :
    ∃ (c : Contents C) (db : Database) (d : Disk), c.map ∈ maps ∧
      openWithOptions C options (Disk.ofFile f []) = (.ok db, d) ∧ c.Healthy ⟨db, d⟩ ∧
      db.options = options ∧ db.snapshotGuard = 1 ∧
      ∀ k n, Stored C options.maxDatabaseBytes.toNat maps (Effect.crashImage f d.trace k n) := by
  obtain ⟨room, m, member, c, tail, image, rfl⟩ := stored
  obtain ⟨db, d, ran, healthy, optionsIs, guard, traced, -⟩ := open_image image enough room
  refine ⟨c, db, d, member, ran, healthy, optionsIs, guard, ?_⟩
  rw [traced]
  have now : Stored C options.maxDatabaseBytes.toNat maps f := ⟨room, _, member, image.recovers⟩
  have cut : Stored C options.maxDatabaseBytes.toNat maps (f.setLen c.logEnd) :=
    ⟨image.long.trans room, _, member, image.truncate.recovers⟩
  unfold OpenEffects
  split
  · exact Effect.survives_nil now
  · exact Effect.survives_cons (fun _ => now) (Effect.survives_sync cut (Effect.survives_nil cut))

theorem Step.holds (enough : minDatabaseBytes ≤ limit.toNat) (step : Step C limit w w')
    (before : w.Holds C limit) : w'.Holds C limit := by
  cases step with
  | @commit h h' m maps txn ops faults staging ran =>
      obtain ⟨holding, rfl⟩ := before
      rcases (holding.afresh faults).cases with ⟨c, rfl, rfl, healthy⟩ | poisoned
      · obtain ⟨config, c', healthy', map⟩ := wp_ok (wp_commit healthy staging.coherent) ran
        exact ⟨.healthy c' map rfl healthy', congrArg _ config.options⟩
      · rw [commit_poisoned poisoned] at ran
        cases ran
  | @commitFails h h' m maps txn ops error faults staging ran =>
      obtain ⟨holding, rfl⟩ := before
      rcases (holding.afresh faults).cases with ⟨c, rfl, rfl, healthy⟩ | poisoned
      · have keeps := commit_keeps healthy staging.coherent
        obtain ⟨-, refused | ⟨batch, staged, map, broken⟩⟩ :=
          wp_error (wp_commit healthy staging.coherent) ran
        · rw [if_pos (by rw [refused.db]; rfl)]
          exact ⟨holding.congr refused.disk.kept (by rw [refused.db]; rfl) (by rw [refused.db]; rfl)
            (by rw [refused.db]; rfl) (by rw [refused.db]; rfl), by rw [refused.db]; rfl⟩
        · have state : h.db.state = .healthy := healthy.state
          have poisoned : h'.db.state = .writePoisoned := by rw [broken.db]
          rw [if_neg (by rw [poisoned, state]; decide)]
          rw [ran] at keeps
          refine ⟨.readOnly c rfl poisoned (broken.serves healthy) ?_, by rw [broken.db]; rfl⟩
          rw [broken.db]
          exact keeps.now
      · rw [commit_poisoned poisoned] at ran
        cases ran
        rw [if_pos (show (h.afresh faults).db.state = h.db.state from rfl)]
        exact ⟨holding.afresh faults, rfl⟩
  | @compact h h' m maps faults ran =>
      obtain ⟨holding, rfl⟩ := before
      rcases (holding.afresh faults).cases with ⟨c, rfl, rfl, healthy⟩ | poisoned
      · obtain ⟨config, c', healthy', map⟩ := wp_ok (wp_compact_holding healthy) ran
        exact ⟨.healthy c' map rfl healthy', congrArg _ config.options⟩
      · rw [compact_poisoned poisoned] at ran
        cases ran
  | @compactFails h h' m maps error faults honest ran =>
      obtain ⟨holding, rfl⟩ := before
      rcases (holding.afresh faults).cases with ⟨c, rfl, rfl, healthy⟩ | poisoned
      · obtain ⟨config, left⟩ := wp_error (wp_compact_holding healthy) ran
        exact ⟨left honest ⟨error, rfl⟩, congrArg _ config.options⟩
      · rw [compact_poisoned poisoned] at ran
        cases ran
        exact ⟨holding.afresh faults, rfl⟩
  | read query =>
      obtain ⟨holding, rfl⟩ := before
      obtain ⟨after, options⟩ := holding.read query
      exact ⟨after, congrArg _ options⟩
  | @snapshot h m maps =>
      obtain ⟨holding, rfl⟩ := before
      rcases snapshot_after h with same | same <;> rw [same]
      · exact ⟨holding, rfl⟩
      · exact ⟨holding.congr rfl rfl rfl rfl rfl, rfl⟩
  | dropSnapshot live => exact ⟨before.1.congr rfl rfl rfl rfl rfl, before.2⟩
  | close =>
      obtain ⟨holding, rfl⟩ := before
      exact holding.stored
  | @crashInCommit h m maps txn ops faults k n staging =>
      obtain ⟨holding, rfl⟩ := before
      rcases (holding.afresh faults).cases with ⟨c, rfl, rfl, healthy⟩ | poisoned
      · rw [if_pos (show h.db.state = .healthy from healthy.state)]
        exact (commit_keeps healthy staging.coherent).crash k n
      · rw [if_neg (show h.db.state ≠ .healthy from poisoned), commit_poisoned poisoned]
        exact Effect.survives_nil holding.stored k n
  | @crashInCompact h m maps faults k n honest =>
      obtain ⟨holding, rfl⟩ := before
      rcases (holding.afresh faults).cases with ⟨c, rfl, rfl, healthy⟩ | poisoned
      · exact (compact_keeps healthy honest).crash k n
      · rw [compact_poisoned poisoned]
        exact Effect.survives_nil holding.stored k n
  | reopen same ran =>
      subst same
      obtain ⟨c, db, d, -, opened, healthy, optionsIs, -, -⟩ := Stored.open enough before
      cases ran.symm.trans opened
      rw [shown_eq healthy.shows]
      exact ⟨.healthy c rfl rfl healthy, congrArg _ optionsIs⟩
  | crashInOpen same k n =>
      subst same
      obtain ⟨c, db, d, -, opened, -, -, -, survives⟩ := Stored.open enough before
      rw [opened]
      exact survives k n

theorem Reach.enough (reach : Reach C limit w) : minDatabaseBytes ≤ limit.toNat := by
  induction reach with
  | create same ran =>
      subst same
      by_contra short
      unfold createWithOptions at ran
      rw [bind_error (show Prog.lift (validateOptions _) _ = _ from
        Prod.ext (if_pos (Nat.lt_of_not_le short)) rfl)] at ran
      cases ran
  | step _ _ ih => exact ih

theorem Reach.holds (reach : Reach C limit w) : w.Holds C limit := by
  have enough := reach.enough
  induction reach with
  | create same ran =>
      subst same
      obtain ⟨db, d, created, healthy, optionsIs, -, -⟩ := create_ok C enough
      cases ran.symm.trans created
      exact ⟨.healthy _ (emptyContents_map C) rfl healthy, congrArg _ optionsIs⟩
  | step _ step ih => exact step.holds enough ih

end Invariant

/-- A new database has nothing in its overlay, so it can be written to. -/
theorem Contents.Healthy.beginWrite_new {C : Crates} {h : Handle} (healthy : (emptyContents C).Healthy h) :
    Database.beginWrite h = (.ok .new, h) := by
  obtain ⟨ops, index, same, memory⟩ := healthy.serves.overlay
  have nothing : ops = [] := List.eq_nil_iff_forall_not_mem.mpr fun op member => by
    have found := (latest_eq_some_iff index.distinct).mpr member
    rw [same] at found
    cases found
  have free : h.db.overlay.memory = 0 := by
    rw [memory, nothing]
    rfl
  rw [Database.beginWrite_run healthy.state, if_neg (by omega)]

/-- A transaction with one small value. -/
def firstPut : WriteTransaction := WriteTransaction.new.stage [1] (.owned [2]) none

theorem firstPut_staging : Staging false firstPut [([1], some [2])] := .put .new rfl

theorem firstPut_entries : stagedEntries zeroHash firstPut.staged = [([1], .put (.owned [2]))] :=
  (zeroHash.order_perm _).eq_singleton

/-- Its commit to a new database. -/
theorem commit_put {h : Handle} (healthy : (emptyContents zeroHash).Healthy h) (quiet : h.disk.Quiet)
    (options : h.db.options = .default) : ∃ (h' : Handle) (batch : Batch),
      Database.commitStagedWith zeroHash firstPut.staged firstPut.valueChecksums h = (.ok (), h') ∧
      batch.ops = [([1], some [2])] ∧ Committed (emptyContents zeroHash) batch h h' := by
  have len : h.disk.file.len = minDatabaseBytes :=
    healthy.image.len.trans (emptyContents_logEnd zeroHash)
  have admits : ∃ n, admitted h.db.options.maxDatabaseBytes.toNat h.disk.file.len
      (stagedEntries zeroHash firstPut.staged) = .ok n := by
    rw [firstPut_entries, options, len]
    exact ⟨_, rfl⟩
  obtain ⟨n, admits⟩ := admits
  obtain ⟨h', batch, committed, ops, done⟩ := commit_returns healthy quiet
    ⟨_, firstPut_staging.coherent⟩ (by rw [firstPut_entries]; exact List.cons_ne_nil _ _) admits
  rw [firstPut_entries] at ops
  exact ⟨h', batch, committed, ops, done⟩

theorem reach_put : ∃ (h : Handle) (batch : Batch), batch.ops = [([1], some [2])] ∧
    ((emptyContents zeroHash).commit batch).Healthy h ∧ h.db.snapshotGuard = 1 ∧
    h.db.options = .default ∧ Reach zeroHash DatabaseOptions.default.maxDatabaseBytes
      (.opened h (override (fun _ => none) [([1], some [2])])
        [override (fun _ => none) [([1], some [2])]]) ∧
    ∀ generation, pageAt h.disk.file generation = pageAt (emptyImage zeroHash) generation := by
  obtain ⟨db, d, ran, healthy, optionsIs, guard, -, fileIs⟩ := @create_ok .default zeroHash (by decide)
  obtain ⟨h', batch, committed, ops, done⟩ :=
    commit_put (healthy.afresh []) (List.forall_mem_nil _) optionsIs
  refine ⟨h', batch, ops, done.healthy, ?_, ?_, (Reach.create rfl ran).step (.commit [] firstPut_staging committed),
    fun generation => ?_⟩
  · rw [done.guard]
    exact guard
  · rw [done.options]
    exact optionsIs
  · obtain ⟨chunks, -, issued⟩ := done.wrote
    rw [issued.file, Effect.applyAll_append, Effect.applyAll_chunked, ← fileIs]
    exact pageAt_congr (fun i below => File.write_byte_of_outside _
      (.inl (lt_of_lt_of_le below (emptyContents zeroHash).dataStart_le_logEnd))) generation

/-! ## Crash atomicity -/

section Crash

variable {C : Crates} {limit : UInt64} {f : File} {maps : List (Bytes → Option Bytes)}
variable {options : DatabaseOptions}

/-- Whatever a run has been through, the next open succeeds, with one of the maps that the
run allows; and the run goes on from there. -/
theorem crash_atomicity (reach : Reach C limit (.closed f maps))
    (same : options.maxDatabaseBytes = limit) :
    ∃ db d m, openWithOptions C options (Disk.ofFile f []) = (.ok db, d) ∧ m ∈ maps ∧
      Shows C ⟨db, d⟩ m ∧ Reach C limit (.opened ⟨db, d⟩ m [m]) := by
  have enough := reach.enough
  subst same
  obtain ⟨c, db, d, member, opened, healthy, -, -, -⟩ := Stored.open enough reach.holds
  have next := reach.step (.reopen rfl opened)
  rw [shown_eq healthy.shows] at next
  exact ⟨db, d, c.map, opened, member, healthy.shows, next⟩

/-- A crash after three bytes of a first commit. -/
theorem crash_atomicity_put :
    ∃ f, Reach zeroHash DatabaseOptions.default.maxDatabaseBytes
        (.closed f [fun _ => none, override (fun _ => none) [([1], some [2])]]) ∧
      ∃ db d m, openWithOptions zeroHash .default (Disk.ofFile f []) = (.ok db, d) ∧
        m ∈ [fun _ => none, override (fun _ => none) [([1], some [2])]] ∧
        Shows zeroHash ⟨db, d⟩ m ∧
        Reach zeroHash DatabaseOptions.default.maxDatabaseBytes (.opened ⟨db, d⟩ m [m]) := by
  obtain ⟨db, d, ran, healthy, -, -, -⟩ :=
    @create_ok .default zeroHash (by decide)
  have crashed := (Reach.create rfl ran).step (.crashInCommit [] 0 3 firstPut_staging)
  rw [if_pos healthy.state] at crashed
  exact ⟨_, crashed, crash_atomicity crashed rfl⟩

end Crash

end Lkv
