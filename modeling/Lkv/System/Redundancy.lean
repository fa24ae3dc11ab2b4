/-
# Lkv.System.Redundancy — what a compaction that returned leaves

The Base is at the front, the log is empty, the file ends with the Base and the map is the
old one.  Whether both pages hold the root is another matter: a compaction that had
something to do writes it to both, but one that finds nothing to do returns without looking
at the pages, so they are as it found them (`compacted_redundant_iff`).  A database that was
just created has its root on one page only, and compacting it does not change that
(`compacted_once_rooted`).

If both pages hold the root, either of them may be lost (`replaceable_of_redundant`).
-/
import Lkv.System.Failures

namespace Lkv
open Lkv.Theory Lkv.Theory.Prog Dictionary

set_option autoImplicit false

/-- Both pages hold the same superblock. -/
def Redundant (f : File) : Prop :=
  ∃ sb : Superblock, sb.OnPage (pageAt f 0) ∧ sb.OnPage (pageAt f 1)

/-- Whichever page is overwritten by something that is no envelope, the file opens to `m`. -/
def Replaceable (C : Crates) (limit : UInt64) (m : Bytes → Option Bytes) (f : File) : Prop :=
  ∀ generation page, page.length = superblockSize → readEnvelope page = none →
    Reopens C limit (f.write (Superblock.pageOffset generation) page) m

/-- The early return of `compact` applies. -/
def AlreadyCompact (h : Handle) : Prop := (Database.alreadyCompact (h.afresh [])).1 = .ok true

/-- What a compaction that returned leaves, apart from the pages. -/
structure Compacted (C : Crates) (m : Bytes → Option Bytes) (h : Handle) : Prop where
  shows : Shows C h m
  overlay : h.db.overlay.index.isEmpty = true
  front : h.db.base.offset = dataStart
  ends : h.disk.file.len = h.db.base.logStart
  base : ∃ size, h.db.base.mapping = .mapped dataStart size ∧ h.db.base.logStart = dataStart + size

section Pages

variable {C : Crates} {c : Contents C} {limit : UInt64} {h h' : Handle} {f : File}

theorem pageAt_cases (f : File) (generation : Nat) :
    pageAt f generation = pageAt f 0 ∧ pageAt f (generation + 1) = pageAt f 1 ∨
      pageAt f generation = pageAt f 1 ∧ pageAt f (generation + 1) = pageAt f 0 := by
  have zero : Superblock.pageOffset 0 = 0 := rfl
  have one : Superblock.pageOffset 1 = superblockSize := rfl
  unfold pageAt
  rw [zero, one]
  rcases pageOffset_cases generation with ⟨own, other⟩ | ⟨own, other⟩
  · exact .inl (by rw [own, other]; exact ⟨rfl, rfl⟩)
  · exact .inr (by rw [own, other]; exact ⟨rfl, rfl⟩)

theorem redundant_of_pages {sb : Superblock} {generation : Nat} (own : sb.OnPage (pageAt f generation))
    (copy : sb.OnPage (pageAt f (generation + 1))) : Redundant f := by
  rcases pageAt_cases f generation with ⟨first, second⟩ | ⟨first, second⟩
  · rw [first] at own
    rw [second] at copy
    exact ⟨sb, own, copy⟩
  · rw [first] at own
    rw [second] at copy
    exact ⟨sb, copy, own⟩

theorem redundant_iff {sb : Superblock} (rooted : Rooted f sb) :
    Redundant f ↔ ∀ generation, sb.OnPage (pageAt f generation) := by
  constructor
  · rintro ⟨sb', zero, one⟩ generation
    have both : ∀ generation, sb'.OnPage (pageAt f generation) := by
      intro generation
      rcases pageAt_cases f generation with ⟨same, -⟩ | ⟨same, -⟩ <;> rw [same]
      · exact zero
      · exact one
    have same : sb = sb' := rooted.own.decode.symm.trans (both sb.generation).decode
    exact same ▸ both generation
  · intro both
    exact ⟨sb, both 0, both 1⟩

theorem pageAt_write_page {page : Bytes} (generation : Nat) (size : page.length = superblockSize) :
    pageAt (f.write (Superblock.pageOffset generation) page) generation = page := by
  rw [pageAt_write_own f generation size.le, size,
    List.drop_eq_nil_of_le (pageAt_length f generation).le, List.append_nil]

/-- A file none of whose pages is an envelope cannot be opened. -/
theorem open_rootless (long : dataStart ≤ f.len) (small : f.len < 2 ^ 63) {generation : Nat}
    (own : readEnvelope (pageAt f generation) = none)
    (other : readEnvelope (pageAt f (generation + 1)) = none) (options : DatabaseOptions)
    (db : Database) (d : Disk) : openWithOptions C options (Disk.ofFile f []) ≠ (.ok db, d) := by
  intro opened
  obtain ⟨sb, base, records, rest, recovered⟩ := open_recovered small opened
  have root : selectRoot f f.len = .ok sb := recovered.openable.root
  rcases selectRoot_cases root generation with ⟨kind, -⟩ | ⟨kind, -⟩ <;>
    rw [pageKind_pageAt long, classifyPage] at kind
  · rw [own] at kind
    cases kind
  · rw [other] at kind
    cases kind

/-- With the root on both pages, one page is enough. -/
theorem replaceable_of_redundant (image : c.Image f [])
    (enough : minDatabaseBytes ≤ limit.toNat) (room : f.len ≤ limit.toNat) (redundant : Redundant f) :
    Replaceable C limit c.map f := by
  intro generation page size invalid options same
  subst same
  have both := (redundant_iff image.rooted).mp redundant
  have agrees := page_agrees f generation size.le
  have start := c.dataStart_le_logEnd
  have len := Contents.page_len image.rooted.long agrees
  have own := @pageAt_write_page f page generation size
  have other := @pageAt_write_other page f generation size.le
  have legible : c.Legible (f.write (Superblock.pageOffset generation) page) [] := by
    refine ⟨?_, image.held.page agrees, rfl, len.trans image.len, image.dead, len ▸ image.word⟩
    refine @selectRoot_of_page _ c.root _ (generation + 1) ?_ ?_ ?_ <;>
      rw [pageKind_pageAt (image.rooted.long.trans agrees.le_len)]
    · rw [other, len]
      exact (both _).classify image.fits
    · rw [pageAt_add_two, own]
      exact (yielding_invalid c.root invalid _).1
    · rw [pageAt_add_two, own]
      exact (yielding_invalid c.root invalid _).2
  obtain ⟨db, d, ran, issued, opened⟩ := wp_returns
    (@wp_openLegible C c (Disk.ofFile _ []) [] options (Disk.quiet_ofFile _) legible enough
      (len.le.trans room)) fun _ _ => id
  have state : db.state ≠ .unavailable := opened.state ▸ by decide
  exact ⟨db, d, ran, (opened.serves legible.held issued).answers.shows state⟩

theorem Contents.Healthy.alreadyCompact_iff (healthy : c.Healthy h) : AlreadyCompact h ↔ c.Settled := by
  have fresh : c.Healthy (h.afresh []) := healthy.disk rfl
  obtain ⟨done, h', ran, already, -, -⟩ := wp_returns
    (wp_mono (Contents.wp_alreadyCompact fresh) (fun _ _ => id)
      fun _ _ stopped => stopped.1.1 (Disk.quiet_afresh h.disk)) fun _ _ => id
  rw [AlreadyCompact, ran]
  constructor
  · intro same
    exact already.mp (Except.ok.inj same)
  · intro settled
    rw [already.mpr settled]

/-- A healthy handle on contents that need no compaction. -/
theorem Contents.Healthy.compacted (healthy : c.Healthy h) (settled : c.Settled) :
    Compacted C c.map h where
  shows := healthy.shows
  overlay := healthy.serves.index_isEmpty settled.fresh
  front := by
    rw [healthy.serves.base]
    exact settled.front
  ends := by
    rw [healthy.serves.base]
    have len : h.disk.file.len = c.logEnd := healthy.image.len
    exact len.trans (Contents.logEnd_of_fresh settled.fresh)
  base := by
    refine ⟨c.root.baseSize, ?_, ?_⟩
    · rw [healthy.serves.base, ← settled.front]
      rfl
    · rw [healthy.serves.base, ← settled.front]
      exact c.logStart

/-- A compaction that wrote anything wrote the root to both pages. -/
theorem Rewrite.finished_redundant {r : Rewrite c}
    (finished : r.move.Finished r.staging.entries r.staging.slots h h') : Redundant h'.disk.file := by
  obtain ⟨staging, final, wrote, issued⟩ := finished.issued
  have file : h'.disk.file = r.move.cut h.disk.file := by
    rw [issued.file, Move.effects_apply wrote]
  obtain ⟨own, copy⟩ := r.doubled_pages (f := h.disk.file)
  rw [← r.cut_pages, ← file] at own copy
  exact redundant_of_pages own copy

end Pages

section Compact

variable {C : Crates} {limit : UInt64} {h h' : Handle} {m : Bytes → Option Bytes}
variable {maps : List (Bytes → Option Bytes)}

/-- Every state that a run can reach. -/
theorem compacted_redundant_iff (reach : Reach C limit (.opened h m maps)) (faults : List Fault)
    (ran : Database.compact C (h.afresh faults) = (.ok (), h')) :
    Compacted C m h' ∧
      (Redundant h'.disk.file ∧ Replaceable C limit m h'.disk.file ↔
        ¬AlreadyCompact h ∨ Redundant h.disk.file) := by
  have enough := reach.enough
  obtain ⟨holding, rfl⟩ := reach.holds
  rcases (holding.afresh faults).cases with ⟨c, rfl, rfl, healthy⟩ | poisoned
  · have already : AlreadyCompact h ↔ c.Settled := by
      exact healthy.alreadyCompact_iff
    rcases wp_ok (wp_compact healthy) ran with
      ⟨settled, same⟩ | ⟨guard, unsettled, r, plan, finished⟩
    · have file : h'.disk.file = h.disk.file := same.disk.kept
      have options : h'.db.options = h.db.options := same.config.options
      refine ⟨same.healthy.compacted settled, fun both => .inr (file ▸ both.1), ?_⟩
      rintro (unsettled | redundant)
      · exact absurd (already.mpr settled) unsettled
      · rw [← file] at redundant
        exact ⟨redundant, replaceable_of_redundant same.healthy.image enough
          (options ▸ same.healthy.room) redundant⟩
    · have checked := healthy.unchanged_verified
      have healthy' := r.finished_healthy checked.healthy plan finished
      have redundant := r.finished_redundant finished
      have options : h'.db.options = h.db.options := by
        rw [finished.db]
        exact checked.config.options
      have compacted := healthy'.compacted ⟨r.front, r.finalFresh⟩
      rw [r.finalMap] at compacted
      refine ⟨compacted, fun _ => .inl fun compact => unsettled (already.mp compact), fun _ => ?_⟩
      refine ⟨redundant, ?_⟩
      rw [← r.finalMap]
      exact replaceable_of_redundant healthy'.image enough (options ▸ healthy'.room) redundant
  · rw [compact_poisoned poisoned] at ran
    cases ran

/-- A put, and a compaction that has something to do. -/
theorem compacted_redundant_iff_put : ∃ h h', Reach zeroHash DatabaseOptions.default.maxDatabaseBytes
    (.opened h (override (fun _ => none) [([1], some [2])]) [override (fun _ => none) [([1], some [2])]]) ∧
      Database.compact zeroHash (h.afresh []) = (.ok (), h') ∧
      Compacted zeroHash (override (fun _ => none) [([1], some [2])]) h' ∧ Redundant h'.disk.file ∧
      Replaceable zeroHash DatabaseOptions.default.maxDatabaseBytes
        (override (fun _ => none) [([1], some [2])]) h'.disk.file := by
  obtain ⟨h, batch, ops, healthy, guard, options, reach, -⟩ := reach_put
  obtain ⟨-, h', ran, -⟩ := compact_put ops (healthy.afresh []) (List.forall_mem_nil _) guard options
  have unsettled : ¬AlreadyCompact h := fun compact =>
    absurd (healthy.alreadyCompact_iff.mp compact).fresh
      (List.append_ne_nil_of_right_ne_nil _ (List.cons_ne_nil _ _))
  obtain ⟨compacted, redundant⟩ := compacted_redundant_iff reach [] ran
  exact ⟨h, h', reach, ran, compacted, redundant.mpr (.inl unsettled)⟩

/-- A database that was just created has nothing to compact. -/
theorem compact_created (C : Crates) :
    ∃ h h', Reach C DatabaseOptions.default.maxDatabaseBytes
        (.opened h (fun _ => none) [fun _ => none]) ∧
      Database.compact C (h.afresh []) = (.ok (), h') ∧ h'.disk.file = emptyImage C := by
  obtain ⟨db, d, created, healthy, -, guard, -, file⟩ := @create_ok .default C (by decide)
  have fresh : (emptyContents C).Healthy ((⟨db, d⟩ : Handle).afresh []) := healthy.disk rfl
  have settled : (emptyContents C).Settled := ⟨congrArg Superblock.baseOffset (emptyContents_root C), rfl⟩
  obtain ⟨_, h', ran, same⟩ := wp_returns
    (@wp_compact_start C (emptyContents C) _ (fun _ h' => Unchanged (emptyContents C) _ h')
      (fun _ _ => False) fresh (fun guarded => absurd guard guarded)
      (fun _ _ failed => absurd (Disk.quiet_afresh d) failed.1) (fun _ _ same => same)
      (fun unsettled => absurd settled unsettled) fun _ unsettled => absurd settled unsettled)
    fun _ _ => id
  exact ⟨_, h', .create rfl created, ran, same.disk.kept.trans file⟩

/-- The root of a new database is on one page, compacted or not: without that page nothing
can be opened. -/
theorem compacted_once_rooted : ∃ h h', Reach zeroHash DatabaseOptions.default.maxDatabaseBytes
    (.opened h (fun _ => none) [fun _ => none]) ∧
      Database.compact zeroHash (h.afresh []) = (.ok (), h') ∧ ¬Redundant h'.disk.file ∧
      ¬Replaceable zeroHash DatabaseOptions.default.maxDatabaseBytes (fun _ => none)
        h'.disk.file := by
  obtain ⟨h, h', reach, ran, file⟩ := compact_created zeroHash
  have blank := emptyImage_blank zeroHash
  have zero : pageAt (emptyImage zeroHash) 2 = pageAt (emptyImage zeroHash) 0 := pageAt_add_two _ 0
  refine ⟨h, h', reach, ran, ?_, ?_⟩ <;> rw [file]
  · rintro ⟨sb, own, -⟩
    rw [zero] at blank
    exact absurd (blank.symm.trans own.envelope) nofun
  · intro replaceable
    obtain ⟨db, d, opened, -⟩ := replaceable 1 (List.replicate superblockSize 0)
      List.length_replicate readEnvelope_zeros .default rfl
    have size : (List.replicate superblockSize (0 : UInt8)).length = superblockSize :=
      List.length_replicate
    have len := emptyImage_len zeroHash
    have long : dataStart ≤ (emptyImage zeroHash).len := len ▸ by decide
    have same : ((emptyImage zeroHash).write (Superblock.pageOffset 1)
        (List.replicate superblockSize 0)).len = minDatabaseBytes :=
      (write_pageOffset_len long size.le).trans len
    refine @open_rootless zeroHash _ ?_ ?_ 1 ?_ ?_ _ db d opened
    · rw [same]
      decide
    · rw [same]
      decide
    · rw [pageAt_write_page 1 size]
      exact readEnvelope_zeros
    · rw [pageAt_write_other _ 1 size.le]
      exact blank

end Compact

end Lkv
