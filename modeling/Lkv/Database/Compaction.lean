/-
# Lkv.Database.Compaction — what a compaction does, phase by phase

`Move` is what a compaction is about to write: the marker at the end of the file, the
staging Base and its root, the final Base at the front, its marker, its root on both
pages, and the cut.  `marked` … `cut` are the files between the phases, in order, and
`stageEffects` … `cutEffects` the writes of each phase.

Each phase has one rule.  `wp_compactFile` puts them together: where a compaction can
stop, what it has issued by then and what is left of the handle (`Halted`).  Of the
handle it only asks that its iterator yields the same entries as long as nothing is
written in front of the old end (`Move.For`); nothing is said here about roots and maps.
-/
import Lkv.Database.RoundTrip
import Lkv.Database.Strictness

namespace Lkv
open Lkv.Theory Lkv.Theory.Prog Dictionary

set_option autoImplicit false

/-! ## Feeding a writer -/

section Feeding

variable {f : File}

/-- The iterator yields the same pairs as long as what it reads stays. -/
theorem yields_of_iterates {it : RawEntries} {walked : List (Nat × Entry)} {ops visited : List Operation}
    {P : File → Prop} (iterates : Iterates f it walked none ops visited)
    (same : ∀ f', P f' → it.base.mapping.deref f' = it.base.mapping.deref f ∧
      it.overlay.log f' = it.overlay.log f) :
    Yields RawEntries.feed P it
      ((itemsOf walked none ops visited).map fun item => (item.key, item.value)) := by
  induction items : itemsOf walked none ops visited generalizing it walked visited with
  | nil =>
      have step := next_spec iterates
      rw [items] at step
      obtain ⟨it', read, -, -⟩ := step
      refine .done it fun f' reads => ⟨it', ?_⟩
      show (it.next f' >>= _) = _
      rw [next_congr (same f' reads).1 (same f' reads).2, read]
      rfl
  | cons item rest ih =>
      have step := next_spec iterates
      rw [items] at step
      obtain ⟨it', walked', visited', read, iterates', rest_eq, sameBase, sameOverlay, -⟩ := step
      refine .more it it' _ _ (fun f' reads => ?_) (ih iterates' ?_ rest_eq)
      · show (it.next f' >>= _) = _
        rw [next_congr (same f' reads).1 (same f' reads).2, read]
        rfl
      · rw [sameBase, sameOverlay]
        exact same

end Feeding

/-! ## Bases with their roots -/

/-- A Base and the root that describes it. -/
structure PlacedBase where
  root : Superblock
  data : Bytes

namespace PlacedBase

/-- The Base of these entries, where its root says. -/
structure Of (C : Crates) (p : PlacedBase) (entries : List Entry) (slots : Nat) : Prop where
  isBase : IsBase C p.root.baseOffset entries slots p.data
  describes : Describes p.root p.root.baseOffset slots entries p.data
  size : p.root.baseSize = (segmentBytes p.data).length
  ends : p.root.logStart = p.root.baseOffset + (segmentBytes p.data).length

/-- What a handle keeps of the Base once it is installed. -/
def installed (p : PlacedBase) (entries : List Entry) (slots : Nat) : ActiveBase :=
  .new (.mapped p.root.baseOffset p.root.baseSize) (verifierOf p.root.baseOffset p.data p.data true)
    p.root slots entries.length

end PlacedBase

/-- The Base that a writer left at `start`, under a root of this generation. -/
def placedAt (generation start : Nat) (entries : List Entry) (slots : Nat) (data : Bytes) :
    PlacedBase :=
  ⟨Database.rootOf generation start
    ⟨(segmentBytes data).length, slots, entries.length, metadataChecksum data⟩
    (start + (segmentBytes data).length), data⟩

section PlacedAt

variable {C : Crates} {generation start slots : Nat} {entries : List Entry} {data : Bytes}

theorem placedAt_baseOffset (word : start < 2 ^ 64) :
    (placedAt generation start entries slots data).root.baseOffset = start :=
  Nat.mod_eq_of_lt word

theorem placedAt_logStart (word : start + (segmentBytes data).length < 2 ^ 64) :
    (placedAt generation start entries slots data).root.logStart =
      start + (segmentBytes data).length :=
  Nat.mod_eq_of_lt word

theorem placedAt_of (isBase : IsBase C start entries slots data)
    (word : start + (segmentBytes data).length < 2 ^ 64) :
    (placedAt generation start entries slots data).Of C entries slots := by
  have offset : (placedAt generation start entries slots data).root.baseOffset = start :=
    placedAt_baseOffset (by omega)
  have small : slots < 2 ^ 64 ∧ entries.length < 2 ^ 64 := by
    obtain ⟨few, power⟩ := baseSlotCount_eq_ok isBase.count
    have slotsWord : slots < 2 ^ 64 := by
      by_cases none : slots = 0
      · omega
      · obtain ⟨k, small, rfl⟩ := power none
        exact Nat.pow_lt_pow_right (by decide) (by omega)
    exact ⟨slotsWord, by omega⟩
  refine ⟨offset.symm ▸ isBase, ⟨rfl, Nat.mod_eq_of_lt small.1, Nat.mod_eq_of_lt small.2,
    Nat.mod_eq_of_lt (crc32c_lt _)⟩, Nat.mod_eq_of_lt ?_, ?_⟩
  · show (segmentBytes data).length < 2 ^ 64
    omega
  · rw [offset]
    exact placedAt_logStart word

end PlacedAt

/-! ## What is written -/

/-- What a compaction is about to write. -/
structure Move where
  oldEnd : Nat
  staging : PlacedBase
  final : PlacedBase

/-- These effects write the Base over `f`, and no write is empty unless a call fails. -/
structure Writes (quiet : Prop) (f : File) (p : PlacedBase) (effects : List Effect) : Prop where
  within : ∀ e ∈ effects, e.WritesWithin p.root.baseOffset p.root.logStart
  whole : Effect.applyAll f effects = f.write p.root.baseOffset (segmentBytes p.data)
  solid : quiet → ∀ e ∈ effects, e.Solid

namespace Move

variable (m : Move) (f : File)

/-! ### The files on the way -/

def marked : File := f.write m.oldEnd compactMarker

def staged : File := (m.marked f).write m.staging.root.baseOffset (segmentBytes m.staging.data)

def switched : File :=
  (m.staged f).write (Superblock.pageOffset m.staging.root.generation) m.staging.root.encodePage

def moved : File := (m.switched f).write m.final.root.baseOffset (segmentBytes m.final.data)

def fenced : File := (m.moved f).write m.final.root.logStart compactMarker

def settled : File :=
  (m.fenced f).write (Superblock.pageOffset m.final.root.generation) m.final.root.encodePage

def doubled : File :=
  (m.settled f).write (Superblock.pageOffset (m.final.root.generation + 1)) m.final.root.encodePage

def cut : File := (m.doubled f).setLen m.final.root.logStart

/-! ### The writes of the phases

`staging` and `final` are the writes of the two Bases. -/

def stageEffects (staging : List Effect) : List Effect := .write m.oldEnd compactMarker :: staging

def switchEffects : List Effect :=
  [.write (Superblock.pageOffset m.staging.root.generation) m.staging.root.encodePage]

def moveEffects (final : List Effect) : List Effect :=
  final ++ [.write m.final.root.logStart compactMarker]

def settleEffects : List Effect :=
  [.write (Superblock.pageOffset m.final.root.generation) m.final.root.encodePage]

def doubleEffects : List Effect :=
  [.write (Superblock.pageOffset (m.final.root.generation + 1)) m.final.root.encodePage]

def cutEffects : List Effect := [.setLen m.final.root.logStart]

def uptoStaged (staging : List Effect) : List Effect := m.stageEffects staging ++ [.sync]

def uptoSwitched (staging : List Effect) : List Effect :=
  m.uptoStaged staging ++ (m.switchEffects ++ [.sync])

def uptoMoved (staging final : List Effect) : List Effect :=
  m.uptoSwitched staging ++ (m.moveEffects final ++ [.sync])

def uptoSettled (staging final : List Effect) : List Effect :=
  m.uptoMoved staging final ++ (m.settleEffects ++ [.sync])

def uptoDoubled (staging final : List Effect) : List Effect :=
  m.uptoSettled staging final ++ (m.doubleEffects ++ [.sync])

/-- Everything, in order. -/
def effects (staging final : List Effect) : List Effect :=
  m.uptoDoubled staging final ++ (m.cutEffects ++ [.sync])

/-- The writes of the two Bases do what they should. -/
structure Wrote (quiet : Prop) (staging final : List Effect) : Prop where
  staging : Writes quiet (m.marked f) m.staging staging
  final : Writes quiet (m.switched f) m.final final

section Files

variable {m f} {quiet : Prop} {staging final : List Effect}

theorem uptoStaged_apply (writes : Writes quiet (m.marked f) m.staging staging) :
    Effect.applyAll f (m.uptoStaged staging) = m.staged f := by
  rw [uptoStaged, Effect.applyAll_append]
  exact writes.whole

theorem uptoSwitched_apply (writes : Writes quiet (m.marked f) m.staging staging) :
    Effect.applyAll f (m.uptoSwitched staging) = m.switched f := by
  rw [uptoSwitched, Effect.applyAll_append, uptoStaged_apply writes]
  rfl

theorem uptoMoved_apply (wrote : m.Wrote f quiet staging final) :
    Effect.applyAll f (m.uptoMoved staging final) = m.fenced f := by
  rw [uptoMoved, Effect.applyAll_append, uptoSwitched_apply wrote.staging, moveEffects,
    Effect.applyAll_append, Effect.applyAll_append, wrote.final.whole]
  rfl

theorem uptoSettled_apply (wrote : m.Wrote f quiet staging final) :
    Effect.applyAll f (m.uptoSettled staging final) = m.settled f := by
  rw [uptoSettled, Effect.applyAll_append, uptoMoved_apply wrote]
  rfl

theorem uptoDoubled_apply (wrote : m.Wrote f quiet staging final) :
    Effect.applyAll f (m.uptoDoubled staging final) = m.doubled f := by
  rw [uptoDoubled, Effect.applyAll_append, uptoSettled_apply wrote]
  rfl

theorem effects_apply (wrote : m.Wrote f quiet staging final) :
    Effect.applyAll f (m.effects staging final) = m.cut f := by
  rw [effects, Effect.applyAll_append, uptoDoubled_apply wrote]
  rfl

end Files

end Move

/-- Writing over a page leaves everything behind the pages alone. -/
theorem page_agrees (f : File) (generation : Nat) {page : Bytes}
    (small : page.length ≤ superblockSize) :
    File.AgreesOutside 0 dataStart f (f.write (Superblock.pageOffset generation) page) :=
  File.AgreesOutside.write f (Nat.zero_le _)
    ((Nat.add_le_add_left small _).trans (pageOffset_end_le generation))

/-! ## The phases -/

section Phases

variable {C : Crates} {h : Handle} {entries : List Entry} {slots : Nat} {P : File → Prop}
variable {p : PlacedBase} {sb : Superblock}

/-- A handle that no longer writes. -/
def Database.poisoned (db : Database) : Database := { db with state := .writePoisoned }

theorem compactPlan_eq_ok {oldEnd size : Nat} {plan : CompactPlan} :
    compactPlan oldEnd size = .ok plan ↔
      plan = ⟨oldEnd, dataStart + size, max (oldEnd + logHeaderSize) (dataStart + size + logHeaderSize),
        max (oldEnd + logHeaderSize) (dataStart + size + logHeaderSize) + size⟩ ∧
      max (oldEnd + logHeaderSize) (dataStart + size + logHeaderSize) + size < 2 ^ 64 := by
  simp only [compactPlan, bind_eq_ok, orFail_eq_ok, checkedAdd_eq_some_iff]
  constructor
  · rintro ⟨_, ⟨rfl, -⟩, _, ⟨rfl, -⟩, _, ⟨rfl, -⟩, _, ⟨rfl, word⟩, ⟨⟩⟩
    exact ⟨rfl, word⟩
  · rintro ⟨rfl, word⟩
    exact ⟨_, ⟨rfl, by omega⟩, _, ⟨rfl, by omega⟩, _, ⟨rfl, by omega⟩, _, ⟨rfl, by omega⟩, rfl⟩

theorem compactPlan_failsWith (oldEnd size : Nat) : FailsWith Error.TooLarge (compactPlan oldEnd size) :=
  (failsWith_orFail _ trivial).bind fun _ _ => (failsWith_orFail _ trivial).bind fun _ _ =>
    (failsWith_orFail _ trivial).bind fun _ _ => (failsWith_orFail _ trivial).bind fun _ _ => failsWith_ok

/-- How far a staging that was rolled back had come. -/
structure StageBroken (oldEnd source sourceEnd : Nat) (d d' : Disk) : Prop where
  issued : ∃ done undo, Disk.Issued (done ++ undo) d d' ∧
    (Io.Torn oldEnd compactMarker done ∨ ∃ staging, done = .write oldEnd compactMarker :: staging ∧
      ∀ e ∈ staging, e.WritesWithin source sourceEnd) ∧
    (undo = [] ∨ undo = [.setLen oldEnd] ∨ undo = [.setLen oldEnd, .sync])

theorem compactMarker_ne_nil : compactMarker ≠ [] :=
  List.ne_nil_of_length_pos (by rw [compactMarker_length]; decide)

theorem stageBroken {oldEnd source sourceEnd : Nat} {d : Disk} {h₁ h' : Handle} {done : List Effect}
    (rolled : Database.RolledBack oldEnd h₁ h') (issued : Disk.Issued done d h₁.disk)
    (which : Io.Torn oldEnd compactMarker done ∨ ∃ staging,
      done = .write oldEnd compactMarker :: staging ∧
        ∀ e ∈ staging, e.WritesWithin source sourceEnd) :
    StageBroken oldEnd source sourceEnd d h'.disk := by
  obtain ⟨undo, undone, how⟩ := rolled.issued
  exact ⟨done, undo, issued.trans undone, which, how⟩

/-- The marker and the staging Base are written and synced, or rolled back. -/
theorem wp_stageBase {plan : CompactPlan} (position : h.disk.position = plan.rollbackOffset)
    (behind : plan.rollbackOffset + logHeaderSize ≤ plan.sourceOffset)
    (ends : plan.sourceEnd = plan.sourceOffset + segmentSize slots entries)
    (word : plan.sourceEnd < 2 ^ 64)
    (yields : Yields RawEntries.feed P (h.db.iterRaw C) entries)
    (enough : entries.length < RawEntries.feed.bound (h.db.iterRaw C))
    (count : baseSlotCount entries.length = .ok slots)
    (stable : ∀ g, h.disk.file.AgreesOutside plan.rollbackOffset plan.sourceEnd g → P g) :
    wp (Database.stageBase C plan entries.length (segmentSize slots entries))
      (fun written h' => ∃ data staging, IsBase C plan.sourceOffset entries slots data ∧
        written = ⟨(segmentBytes data).length, slots, entries.length, metadataChecksum data⟩ ∧
        h'.db = h.db ∧
        Disk.Issued (.write plan.rollbackOffset compactMarker :: staging ++ [.sync]) h.disk h'.disk ∧
        (∀ e ∈ staging, e.WritesWithin plan.sourceOffset plan.sourceEnd) ∧
        Effect.applyAll (h.disk.file.write plan.rollbackOffset compactMarker) staging =
          (h.disk.file.write plan.rollbackOffset compactMarker).write plan.sourceOffset
            (segmentBytes data) ∧
        (h.disk.Quiet → ∀ e ∈ staging, e.Solid))
      (fun e h' => Stopped h.disk entries e ∧ h'.db = h.db.poisoned ∧
        StageBroken plan.rollbackOffset plan.sourceOffset plan.sourceEnd h.disk h'.disk) h := by
  have small : baseHeader + slots * slotSize + totalSize entries ≤ segmentSize slots entries := by
    unfold segmentSize
    omega
  unfold Database.stageBase
  rw [writeCompactMarker_eq]
  -- The marker.
  refine Database.wp_rollback_io_bind
    (A := fun _ d => Disk.Issued [.write plan.rollbackOffset compactMarker] h.disk d)
    (B := fun e d => h.disk.Failed e ∧
      ∃ n, Disk.Issued [.write plan.rollbackOffset (compactMarker.take n)] h.disk d)
    (Io.wp_writeAll compactMarker_ne_nil (position ▸ Disk.issued_write _ _ _ _)
      fun error n due => ⟨⟨due, error, rfl⟩, n, position ▸ Disk.issued_write _ _ _ _⟩)
    (fun _ _ stopped => stopped.1.2) ?_ ?_
  swap
  · rintro e d h' ⟨failed, n, issued⟩ rolled
    exact ⟨stopped_of_failed failed, rolled.db, stageBroken rolled issued (.inl (.inr ⟨n, rfl⟩))⟩
  rintro _ d1 issued1
  have file1 : d1.file = h.disk.file.write plan.rollbackOffset compactMarker := issued1.file
  have marked : File.AgreesOutside plan.rollbackOffset plan.sourceEnd h.disk.file d1.file := by
    rw [file1]
    refine File.AgreesOutside.write _ le_rfl ?_
    rw [compactMarker_length]
    omega
  have begun : ∀ {staging : List Effect},
      (∀ e ∈ staging, e.WritesWithin plan.sourceOffset plan.sourceEnd) →
      Io.Torn plan.rollbackOffset compactMarker (.write plan.rollbackOffset compactMarker :: staging) ∨
        ∃ staging', Effect.write plan.rollbackOffset compactMarker :: staging =
          .write plan.rollbackOffset compactMarker :: staging' ∧
          ∀ e ∈ staging', e.WritesWithin plan.sourceOffset plan.sourceEnd :=
    fun within => .inr ⟨_, rfl, within⟩
  refine Database.wp_rollback_io_bind (A := fun _ d => Disk.Issued [] d1 d)
    (B := fun e d => d1.Failed e ∧ Disk.Issued [] d1 d)
    (Io.wp_seekStart (Disk.issued_seek _ _) fun error due => ⟨⟨due, error, rfl⟩, Disk.issued_tick _⟩)
    (fun _ _ stopped => stopped.1.2) ?_ ?_
  swap
  · rintro e d h' ⟨failed, issued⟩ rolled
    exact ⟨stopped_of_failed (issued1.failed failed), rolled.db,
      stageBroken rolled (issued1.trans issued) (begun nofun)⟩
  rintro _ d2 issued2
  have issued2 := issued1.trans issued2
  have file2 : d2.file = d1.file := issued2.file.trans issued1.file.symm
  refine wp_bind (wp_state ?_)
  -- The staging Base: what is written does not disturb the iterator.
  have ready : Ready RawEntries.feed P d2 plan.sourceOffset entries.length (h.db.iterRaw C) entries
      slots := by
    refine ⟨yields, rfl, count, by omega, by omega, enough, fun g agrees => stable g ?_⟩
    rw [file2] at agrees
    exact marked.trans (agrees.mono (by omega) (by omega))
  refine Database.wp_rollback_io_bind (wp_writeBaseWithMetadataAt (P := P) d2)
    (fun _ _ stopped => (stopped _ _ ready).1.error) ?_ ?_
  swap
  · intro e d h' stopped rolled
    obtain ⟨⟨error, due⟩, staging, issued, within, -⟩ := stopped _ _ ready
    rw [← ends] at within
    exact ⟨⟨error, fun valid quiet => due valid (issued2.quiet quiet)⟩, rolled.db,
      stageBroken rolled (issued2.trans issued) (begun within)⟩
  rintro written d3 ⟨entries', slots', data, isBase, -, rfl, file3, ⟨staging, issued3, within, solid⟩, only⟩
  cases only _ _ ready
  cases Except.ok.inj (count.symm.trans isBase.count)
  rw [isBase.segmentSize, ← ends] at within
  rw [if_neg (fun different => different isBase.segmentSize)]
  have issued3' := issued2.trans issued3
  refine Database.wp_rollback_io_bind (A := fun _ d => Disk.Issued [.sync] d3 d)
    (B := fun e d => d3.Failed e ∧ Disk.Issued [] d3 d)
    (Io.wp_syncData (Disk.issued_issue _ .sync) fun error due => ⟨⟨due, error, rfl⟩, Disk.issued_tick _⟩)
    (fun _ _ stopped => stopped.1.2) ?_ ?_
  swap
  · rintro e d h' ⟨failed, issued⟩ rolled
    have all := issued3'.trans issued
    rw [List.append_nil] at all
    exact ⟨stopped_of_failed (issued3'.failed failed), rolled.db, stageBroken rolled all (begun within)⟩
  rintro _ d4 issued4
  refine wp_pure ⟨data, staging, isBase, rfl, rfl, issued3'.trans issued4, within, ?_, fun quiet =>
    solid (issued2.quiet quiet)⟩
  rw [← file1, ← file2, ← file3]
  exact issued3.file.symm

/-- A root and its sync, or a part of the page. -/
theorem wp_publishPage {act : Io Unit} {offset : Nat} {page : Bytes}
    (writes : ∀ d, wp act (fun _ d' => Disk.Issued [.write offset page] d d')
      (fun e d' => d.Failed e ∧ ∃ effects, Io.Torn offset page effects ∧ Disk.Issued effects d d') d) :
    wp (do Database.orPoison (Db.io act); Database.orPoison (Db.io Io.syncAll))
      (fun _ h' => h'.db = h.db ∧ Disk.Issued [.write offset page, .sync] h.disk h'.disk)
      (fun e h' => h.disk.Failed e ∧ h'.db = h.db.poisoned ∧
        ∃ effects, Io.Torn offset page effects ∧ Disk.Issued effects h.disk h'.disk) h := by
  refine Database.wp_poison_bind (writes h.disk) (fun _ _ stopped => stopped.1.2) ?_ ?_
  · intro _ d issued
    refine Database.wp_poison (A := fun _ d' => Disk.Issued [.sync] d d')
      (B := fun e d' => d.Failed e ∧ Disk.Issued [] d d')
      (Io.wp_syncAll (Disk.issued_issue _ .sync) fun error due => ⟨⟨due, error, rfl⟩, Disk.issued_tick _⟩)
      (fun _ _ stopped => stopped.1.2) (fun _ d' synced => ⟨rfl, issued.trans synced⟩) ?_
    rintro e d' h' ⟨failed, kept⟩ poisoned
    refine ⟨issued.failed failed, poisoned.db, _, .inr ⟨page.length, rfl⟩, ?_⟩
    rw [List.take_length, poisoned.disk]
    exact issued.trans kept
  · rintro e d h' ⟨failed, effects, torn, issued⟩ poisoned
    exact ⟨failed, poisoned.db, effects, torn, poisoned.disk ▸ issued⟩

theorem wp_publish (sb : Superblock) (h : Handle) :
    wp (Database.publish sb)
      (fun _ h' => h'.db = h.db ∧ Disk.Issued
        [.write (Superblock.pageOffset sb.generation) sb.encodePage, .sync] h.disk h'.disk)
      (fun e h' => h.disk.Failed e ∧ h'.db = h.db.poisoned ∧ ∃ effects,
        Io.Torn (Superblock.pageOffset sb.generation) sb.encodePage effects ∧
          Disk.Issued effects h.disk h'.disk) h :=
  wp_publishPage (wp_write sb)

theorem wp_publishRedundant (sb : Superblock) (h : Handle) :
    wp (Database.publishRedundant sb)
      (fun _ h' => sb.generation + 1 < 2 ^ 64 ∧ h'.db = h.db ∧ Disk.Issued
        [.write (Superblock.pageOffset (sb.generation + 1)) sb.encodePage, .sync] h.disk h'.disk)
      (fun e h' => sb.generation + 1 < 2 ^ 64 ∧ (h.disk.Failed e ∧ h'.db = h.db.poisoned ∧ ∃ effects,
        Io.Torn (Superblock.pageOffset (sb.generation + 1)) sb.encodePage effects ∧
          Disk.Issued effects h.disk h'.disk) ∨
        2 ^ 64 ≤ sb.generation + 1 ∧ (∃ message, e = .panic message) ∧ h' = h) h := by
  by_cases small : sb.generation + 1 < 2 ^ 64
  · exact wp_mono (wp_publishPage fun d => wp_writeRedundant sb d small)
      (fun _ _ done => ⟨small, done⟩) fun _ _ broken => .inl ⟨small, broken⟩
  · -- The page is picked by a sum that overflows.
    have overflows : addOrPanic sb.generation 1 = panic "attempt to add with overflow" := by
      rw [addOrPanic, checkedAdd, if_neg small]
    refine wp_bind (Db.wp_orElse (Db.wp_io ?_))
    unfold Superblock.writeRedundant
    rw [overflows]
    exact .inr ⟨Nat.not_lt.mp small, ⟨_, rfl⟩, rfl⟩

/-- A published Base is mapped, or the handle stops writing. -/
theorem wp_installSuperblock (of : p.Of C entries slots)
    (held : h.disk.file.Holds p.root.baseOffset (segmentBytes p.data))
    (inside : p.root.logStart ≤ h.disk.file.len) :
    wp (Database.installSuperblock p.root)
      (fun _ h' => h'.db = { h.db with base := p.installed entries slots } ∧
        Disk.Issued [] h.disk h'.disk)
      (fun e h' => h.disk.Failed e ∧ h'.db = h.db.poisoned ∧ Disk.Issued [] h.disk h'.disk) h := by
  have ends : p.root.baseOffset + p.root.baseSize = p.root.logStart := by rw [of.size, of.ends]
  have some : p.root.baseSize ≠ 0 := by
    rw [of.size, segmentBytes_length]
    unfold checksumFooterSize
    omega
  unfold Database.installSuperblock
  refine wp_bind (wp_attempt (Db.wp_io (wp_bind (wp_mono (Io.wp_map h.disk some ?_ ?_) ?_ ?_))))
  · rw [ends]
    exact p.root.words.2.2.2.2.2
  · rw [ends]
    exact inside
  · rintro _ d ⟨rfl, issued⟩
    have deref : (BaseBytes.mapped p.root.baseOffset p.root.baseSize).deref d.file =
        segmentBytes p.data := by
      rw [issued.kept, of.size]
      exact held
    refine wp_bind (wp_state ?_)
    rw [install_written of.isBase deref of.describes]
    refine wp_lift ?_ nofun
    rintro _ ⟨⟩
    refine Database.wp_poison_bind (A := fun _ d' => Disk.Issued [] d d')
      (B := fun e d' => d.Failed e ∧ Disk.Issued [] d d')
      (Io.wp_seekEnd (Disk.issued_seek _ _) fun error due => ⟨⟨due, error, rfl⟩, Disk.issued_tick _⟩)
      (fun _ _ stopped => stopped.1.2)
      (fun _ d' kept => wp_modify ⟨rfl, issued.trans kept⟩) ?_
    rintro e d' h' ⟨failed, kept⟩ poisoned
    refine ⟨issued.failed failed, poisoned.db, ?_⟩
    rw [poisoned.disk]
    exact issued.trans kept
  · rintro _ d ⟨⟨due, error, rfl⟩, issued⟩
    exact wp_bind (wp_modify (wp_stop ⟨⟨due, error, rfl⟩, rfl, issued⟩))

/-- The writer of an empty Base, run against a vector. -/
theorem inOffsetBuffer_empty (C : Crates) :
    inOffsetBuffer dataStart (writeBaseAt C Feed.none dataStart 0 ()) =
      .ok (emptySegmentSize, segmentBytes emptyData) := by
  have spec := @wp_writeEmptyBase C (Disk.ofFile File.empty []) dataStart (by decide)
  obtain ⟨size, d, ran, rfl, file, -⟩ := wp_returns spec
    fun _ _ stopped => stopped.1.1 (Disk.quiet_ofFile File.empty)
  have some : segmentBytes emptyData ≠ [] :=
    List.ne_nil_of_length_pos (by rw [emptyData_segment]; decide)
  have len : d.file.len = dataStart + emptySegmentSize := by
    rw [file, File.write_len _ _ some, emptyData_segment]
    rfl
  have held : d.file.slice dataStart emptySegmentSize = segmentBytes emptyData := by
    rw [file, ← emptyData_segment]
    exact File.holds_write _ _ _
  unfold inOffsetBuffer
  rw [ran]
  dsimp only
  rw [len, Nat.add_sub_cancel_left, held]

/-- The Base that stands in while the file is cut only needs memory. -/
theorem wp_detachedBase (C : Crates) (generation : Nat) (d : Disk) :
    wp (detachedBase C generation) (fun _ d' => Disk.Issued [] d d')
      (fun e d' => d.Failed e ∧ Disk.Issued [] d d') d := by
  have isBase := emptyData_isBase C dataStart (by decide)
  have ran := inOffsetBuffer_empty C
  have size := emptyData_segment
  have metadata := segmentMetadataChecksum_written isBase
  have install : ∀ f, ActiveBase.install f (.memory (segmentBytes emptyData))
      (.new generation dataStart emptySegmentSize 0 0 (dataStart + emptySegmentSize)
        (metadataChecksum emptyData)) = .ok _ := fun f => install_written isBase rfl
      ⟨Nat.mod_eq_of_lt (by decide), rfl, rfl, Nat.mod_eq_of_lt (crc32c_lt _)⟩
  generalize segmentBytes emptyData = bytes at ran size metadata install
  unfold detachedBase buildMemoryBase
  rw [ran]
  refine wp_bind (wp_bind (Io.wp_reserve ?_ fun due => ⟨⟨due, _, rfl⟩, Disk.issued_tick d⟩))
  have once := Disk.issued_tick d
  have twice := once.trans (Disk.issued_tick d.tick)
  refine wp_bind (Io.wp_reserve ?_ fun due => ⟨once.failed ⟨due, _, rfl⟩, twice⟩)
  refine wp_bind (wp_lift ?_ nofun)
  rintro _ ⟨⟩
  dsimp only
  rw [if_neg (fun different => different size)]
  refine wp_pure ?_
  rw [metadata]
  refine wp_bind (wp_lift ?_ nofun)
  rintro _ ⟨⟩
  refine wp_bind (wp_state ?_)
  rw [install]
  refine wp_lift ?_ nofun
  rintro _ ⟨⟩
  exact twice

/-- The final Base and its marker.  What stops this leaves the handle as it is. -/
theorem wp_relocateBase {destinationEnd generation : Nat}
    (ends : destinationEnd = dataStart + segmentSize slots entries) (word : destinationEnd < 2 ^ 64)
    (yields : Yields RawEntries.feed P (h.db.iterRaw C) entries)
    (enough : entries.length < RawEntries.feed.bound (h.db.iterRaw C))
    (count : baseSlotCount entries.length = .ok slots) (valid : ∀ entry ∈ entries, ValidEntry entry)
    (stable : ∀ g, h.disk.file.AgreesOutside dataStart destinationEnd g → P g) :
    wp (Database.relocateBase C destinationEnd generation entries.length (segmentSize slots entries))
      (fun r h' => ∃ data final, IsBase C dataStart entries slots data ∧
        r.2 = ⟨(segmentBytes data).length, slots, entries.length, metadataChecksum data⟩ ∧
        h'.db = h.db ∧
        Disk.Issued (final ++ [.write destinationEnd compactMarker] ++ [.sync]) h.disk h'.disk ∧
        (∀ e ∈ final, e.WritesWithin dataStart destinationEnd) ∧
        Effect.applyAll h.disk.file final = h.disk.file.write dataStart (segmentBytes data) ∧
        (h.disk.Quiet → ∀ e ∈ final, e.Solid))
      (fun e h' => h.disk.Failed e ∧ h'.db = h.db ∧ ∃ part, Disk.Issued part h.disk h'.disk ∧
        ∀ e ∈ part, e.WritesWithin dataStart (destinationEnd + logHeaderSize)) h := by
  have small : baseHeader + slots * slotSize + totalSize entries ≤ segmentSize slots entries := by
    unfold segmentSize
    omega
  unfold Database.relocateBase
  rw [writeCompactMarker_eq]
  refine Db.wp_io_bind (wp_detachedBase C generation h.disk) ?_ fun e d stopped =>
    ⟨stopped.1, rfl, [], stopped.2, nofun⟩
  intro detached d1 issued1
  refine wp_bind (wp_state ?_)
  have ready : Ready RawEntries.feed P d1 dataStart entries.length (h.db.iterRaw C) entries slots := by
    refine ⟨yields, rfl, count, by omega, by omega, enough, fun g agrees => stable g ?_⟩
    rw [issued1.kept] at agrees
    exact agrees.mono le_rfl (by omega)
  have inside : ∀ {effects : List Effect}, (∀ e ∈ effects, e.WritesWithin dataStart destinationEnd) →
      ∀ e ∈ effects, e.WritesWithin dataStart (destinationEnd + logHeaderSize) :=
    fun within e member => (within e member).mono le_rfl (Nat.le_add_right _ _)
  refine Db.wp_io_bind (wp_writeBaseWithMetadataAt (P := P) d1) ?_ ?_
  swap
  · intro e d stopped
    obtain ⟨why, part, issued, within, -⟩ := stopped _ _ ready
    rw [← ends] at within
    exact ⟨issued1.failed (why.failed valid), rfl, part, issued1.trans issued, inside within⟩
  rintro written d2 ⟨entries', slots', data, isBase, -, rfl, file2, ⟨final, issued2, within, solid⟩, only⟩
  cases only _ _ ready
  cases Except.ok.inj (count.symm.trans isBase.count)
  rw [isBase.segmentSize, ← ends] at within
  rw [if_neg (fun different => different isBase.segmentSize)]
  have issued2' := issued1.trans issued2
  refine Db.wp_io_bind (A := fun _ d => Disk.Issued [] d2 d ∧ d.position = destinationEnd)
    (B := fun e d => d2.Failed e ∧ Disk.Issued [] d2 d)
    (Io.wp_seekStart ⟨Disk.issued_seek _ _, rfl⟩ fun error due => ⟨⟨due, error, rfl⟩, Disk.issued_tick _⟩)
    ?_ ?_
  swap
  · rintro e d ⟨failed, issued⟩
    refine ⟨issued2'.failed failed, rfl, _, issued2'.trans issued, ?_⟩
    rw [List.append_nil]
    exact inside within
  rintro _ d3 ⟨issued3, position⟩
  have issued3' := issued2'.trans issued3
  rw [List.append_nil, List.nil_append] at issued3'
  have fence : ∀ n, (Effect.write destinationEnd (compactMarker.take n)).WritesWithin dataStart
      (destinationEnd + logHeaderSize) := by
    intro n
    have short := List.length_take_le' n compactMarker
    rw [compactMarker_length] at short
    exact ⟨by omega, Nat.add_le_add_left short _⟩
  have whole := fence logHeaderSize
  rw [← compactMarker_length, List.take_length, compactMarker_length] at whole
  refine Db.wp_io_bind
    (A := fun _ d => Disk.Issued [.write destinationEnd compactMarker] d3 d)
    (B := fun e d => d3.Failed e ∧ ∃ n, Disk.Issued [.write destinationEnd (compactMarker.take n)] d3 d)
    (Io.wp_writeAll compactMarker_ne_nil (position ▸ Disk.issued_write _ _ _ _)
      fun error n due => ⟨⟨due, error, rfl⟩, n, position ▸ Disk.issued_write _ _ _ _⟩) ?_ ?_
  swap
  · rintro e d ⟨failed, n, issued⟩
    refine ⟨issued3'.failed failed, rfl, _, issued3'.trans issued, ?_⟩
    exact List.forall_mem_append.mpr ⟨inside within, List.forall_mem_singleton.mpr (fence n)⟩
  rintro _ d4 issued4
  have issued4' := issued3'.trans issued4
  refine Db.wp_io_bind (A := fun _ d => Disk.Issued [.sync] d4 d)
    (B := fun e d => d4.Failed e ∧ Disk.Issued [] d4 d)
    (Io.wp_syncData (Disk.issued_issue _ .sync) fun error due => ⟨⟨due, error, rfl⟩, Disk.issued_tick _⟩)
    ?_ ?_
  swap
  · rintro e d ⟨failed, issued⟩
    refine ⟨issued4'.failed failed, rfl, _, issued4'.trans issued, ?_⟩
    rw [List.append_nil]
    exact List.forall_mem_append.mpr ⟨inside within, List.forall_mem_singleton.mpr whole⟩
  rintro _ d5 issued5
  refine wp_pure ⟨data, final, isBase, rfl, rfl, issued4'.trans issued5, within, ?_, fun quiet =>
    solid (issued1.quiet quiet)⟩
  rw [← issued1.kept, ← file2]
  exact issued2.file.symm

/-- Cutting the file off behind the final Base. -/
theorem wp_truncateTo {detached : ActiveBase} (of : p.Of C entries slots)
    (held : h.disk.file.Holds p.root.baseOffset (segmentBytes p.data)) :
    wp (Database.truncateTo detached p.root.logStart p.root)
      (fun _ h' => h'.db = { h.db with base := p.installed entries slots, state := .healthy } ∧
        Disk.Issued [.setLen p.root.logStart, .sync] h.disk h'.disk)
      (fun e h' => h.disk.Failed e ∧ h'.db = { h.db with base := detached, state := .unavailable } ∧
        ∃ effects, Disk.Issued effects h.disk h'.disk ∧ (effects = [] ∨ effects = [.setLen p.root.logStart] ∨
          effects = [.setLen p.root.logStart, .sync])) h := by
  unfold Database.truncateTo
  refine wp_bind (wp_modify (wp_bind (wp_modify ?_)))
  refine Db.wp_io_bind (A := fun _ d => Disk.Issued [.setLen p.root.logStart] h.disk d)
    (B := fun e d => h.disk.Failed e ∧ Disk.Issued [] h.disk d)
    (Io.wp_setLen (Disk.issued_issue _ _) fun error due => ⟨⟨due, error, rfl⟩, Disk.issued_tick _⟩)
    ?_ fun e d stopped => ⟨stopped.1, rfl, [], stopped.2, .inl rfl⟩
  intro _ d1 issued1
  refine Db.wp_io_bind (A := fun _ d => Disk.Issued [.sync] d1 d)
    (B := fun e d => d1.Failed e ∧ Disk.Issued [] d1 d)
    (Io.wp_syncAll (Disk.issued_issue _ .sync) fun error due => ⟨⟨due, error, rfl⟩, Disk.issued_tick _⟩)
    ?_ fun e d stopped => ⟨issued1.failed stopped.1, rfl, _, issued1.trans stopped.2, .inr (.inl rfl)⟩
  intro _ d2 issued2
  have issued2' := issued1.trans issued2
  have file2 : d2.file = h.disk.file.setLen p.root.logStart := issued2'.file
  refine wp_bind (Db.wp_orElse (wp_mono (wp_installSuperblock (h := ⟨_, d2⟩) of ?_ ?_) ?_ ?_))
  · rw [file2]
    exact held.setLen of.ends.ge
  · rw [file2]
    exact le_rfl
  · rintro _ h3 ⟨db3, issued3⟩
    refine wp_modify ⟨?_, ?_⟩
    · show ({ h3.db with state := .healthy } : Database) = _
      rw [db3]
    · have := issued2'.trans issued3
      rwa [List.append_nil] at this
  · rintro _ h3 ⟨⟨due, error, rfl⟩, db3, issued3⟩
    refine wp_bind (wp_modify (wp_stop ⟨issued2'.failed ⟨due, error, rfl⟩, ?_, _,
      issued2'.trans issued3, .inr (.inr rfl)⟩))
    show ({ h3.db with state := .unavailable } : Database) = _
    rw [db3]
    rfl

end Phases

/-! ## The whole compaction -/

section Compaction

variable {C : Crates} {h : Handle} {entries : List Entry} {slots : Nat} {P : File → Prop} {m : Move}

/-- What no operation on a handle changes. -/
structure SameConfig (db db' : Database) : Prop where
  options : db'.options = db.options
  guard : db'.snapshotGuard = db.snapshotGuard

/-- A handle on the staging Base. -/
def Move.onStaging (m : Move) (entries : List Entry) (slots : Nat) (db : Database) : Database :=
  { db with base := m.staging.installed entries slots, overlay := db.overlay.clear }

/-- A handle that just installed a Base and has no overlay iterates over its entries. -/
theorem yields_installed {p : PlacedBase} {db : Database} (of : p.Of C entries slots)
    (base : db.base = p.installed entries slots) {overlay : OverlayMap}
    (cleared : db.overlay.index = overlay.clear) {f : File}
    (held : f.Holds p.root.baseOffset (segmentBytes p.data)) :
    Yields RawEntries.feed (fun g => g.Holds p.root.baseOffset (segmentBytes p.data)) (db.iterRaw C)
      entries ∧ entries.length < RawEntries.feed.bound (db.iterRaw C) := by
  have deref : ∀ g : File, g.Holds p.root.baseOffset (segmentBytes p.data) →
      db.readView.base.mapping.deref g = segmentBytes p.data := by
    intro g holds
    show db.base.mapping.deref g = _
    rw [base]
    show g.slice p.root.baseOffset p.root.baseSize = _
    rw [of.size]
    exact holds
  have overlayIs : db.readView.overlay = overlay.clear := cleared
  have decodes : db.readView.overlay.Decodes f [] := by
    rw [overlayIs]
    cases overlay with
    | memory table => rfl
    | mapped bytes table tail => exact ⟨[], .nil, rfl⟩
  obtain ⟨visited, perm, visits⟩ := OverlayMap.iter_decodes C decodes
  cases perm.eq_nil
  have slotsIs : db.readView.base.slots = slots := by
    show db.base.slots = _
    rw [base]
    rfl
  have size : db.readView.base.dataSize = p.data.length := by
    show db.base.verifier.dataSize = _
    rw [base]
    rfl
  have len : db.base.len = entries.length := by
    rw [base]
    rfl
  have iterates : Iterates f (db.iterRaw C) (placed (baseHeader + slots * slotSize) entries) none []
      [] := by
    refine iterates_new C ?_ ?_ ?_ (fun _ => rfl) decodes visits
    · rw [size, deref f held, segmentBytes_length]
      omega
    · rw [size]
      exact of.isBase.roomy.1
    · rw [size, slotsIs, deref f held, len]
      exact of.isBase.walk_eq
  have pairs : (itemsOf (placed (baseHeader + slots * slotSize) entries) none [] []).map
      (fun item => (item.key, item.value)) = entries := by
    rw [items_pairs, pairsOf, placed_map_snd]
    simp [shadows, liveOps, latest]
  have yields := yields_of_iterates (P := fun g => g.Holds p.root.baseOffset (segmentBytes p.data))
    iterates fun g holds => ⟨(deref g holds).trans (deref f held).symm, by
      show db.readView.overlay.log g = db.readView.overlay.log f
      rw [overlayIs]
      cases overlay <;> rfl⟩
  have enough := iterates.length_le
  rw [pairs] at yields
  refine ⟨yields, ?_⟩
  rw [← pairs, List.length_map]
  exact lt_of_lt_of_le (by omega) enough

/-- What the compaction of a handle is about to write. -/
structure Move.For (C : Crates) (P : File → Prop) (m : Move) (h : Handle) (entries : List Entry)
    (slots : Nat) : Prop where
  oldEnd : h.disk.file.len = m.oldEnd
  yields : Yields RawEntries.feed P (h.db.iterRaw C) entries
  enough : entries.length < RawEntries.feed.bound (h.db.iterRaw C)
  count : baseSlotCount entries.length = .ok slots
  stagingBase : IsBase C m.staging.root.baseOffset entries slots m.staging.data
  finalBase : IsBase C dataStart entries slots m.final.data
  staging : m.staging = placedAt (h.db.base.generation + 1) (max (m.oldEnd + logHeaderSize)
    (dataStart + segmentSize slots entries + logHeaderSize)) entries slots m.staging.data
  final : m.final = placedAt (h.db.base.generation + 1 + 1) dataStart entries slots m.final.data
  room : max (m.oldEnd + logHeaderSize) (dataStart + segmentSize slots entries + logHeaderSize) +
    segmentSize slots entries ≤ h.db.options.maxDatabaseBytes.toNat
  /-- Nothing in front of the old end is written before the staging Base is installed. -/
  stable : ∀ g, h.disk.file.AgreesOutside m.oldEnd m.staging.root.logStart g → P g

namespace Move.For

variable (plan : m.For C P h entries slots)
include plan

theorem word : max (m.oldEnd + logHeaderSize) (dataStart + segmentSize slots entries + logHeaderSize) +
    segmentSize slots entries < 2 ^ 64 :=
  lt_of_le_of_lt plan.room h.db.options.maxDatabaseBytes.toNat_lt

theorem source : m.staging.root.baseOffset =
    max (m.oldEnd + logHeaderSize) (dataStart + segmentSize slots entries + logHeaderSize) := by
  have := plan.word
  rw [plan.staging]
  exact placedAt_baseOffset (by omega)

theorem stagingOf : m.staging.Of C entries slots := by
  have isBase := plan.stagingBase
  rw [plan.source] at isBase
  rw [plan.staging]
  refine placedAt_of isBase ?_
  rw [isBase.segmentSize]
  exact plan.word

theorem sourceEnd : m.staging.root.logStart =
    max (m.oldEnd + logHeaderSize) (dataStart + segmentSize slots entries + logHeaderSize) +
      segmentSize slots entries := by
  rw [plan.stagingOf.ends, plan.source, plan.stagingOf.isBase.segmentSize]

theorem front : m.final.root.baseOffset = dataStart := by
  rw [plan.final]
  exact placedAt_baseOffset (by decide)

theorem finalOf : m.final.Of C entries slots := by
  rw [plan.final]
  refine placedAt_of plan.finalBase ?_
  have := plan.word
  rw [plan.finalBase.segmentSize]
  omega

theorem destinationEnd : m.final.root.logStart = dataStart + segmentSize slots entries := by
  rw [plan.finalOf.ends, plan.front, plan.finalBase.segmentSize]

/-- The roots that the program builds. -/
theorem stagingRoot : Database.rootOf (h.db.base.generation + 1) (max (m.oldEnd + logHeaderSize)
    (dataStart + segmentSize slots entries + logHeaderSize))
    ⟨(segmentBytes m.staging.data).length, slots, entries.length, metadataChecksum m.staging.data⟩
    (max (m.oldEnd + logHeaderSize) (dataStart + segmentSize slots entries + logHeaderSize) +
      segmentSize slots entries) = m.staging.root := by
  have root := congrArg PlacedBase.root plan.staging
  rw [root, placedAt, plan.stagingOf.isBase.segmentSize]

theorem finalRoot : Database.rootOf (h.db.base.generation + 1 + 1) dataStart
    ⟨(segmentBytes m.final.data).length, slots, entries.length, metadataChecksum m.final.data⟩
    (dataStart + segmentSize slots entries) = m.final.root := by
  have root := congrArg PlacedBase.root plan.final
  rw [root, placedAt, plan.finalOf.isBase.segmentSize]

end Move.For


/-- Where a compaction stopped, what it had issued by then and what is left of the
handle.  Besides a failing call, a generation that overflows stops it. -/
inductive Move.Halted (m : Move) (entries : List Entry) (slots : Nat) (h : Handle) (e : Stop)
    (h' : Handle) : Prop
  | staging (failed : h.disk.Failed e) (db : h'.db = h.db.poisoned)
      (broken : StageBroken m.oldEnd m.staging.root.baseOffset m.staging.root.logStart h.disk h'.disk)
  | staged (staging : List Effect)
      (writes : Writes h.disk.Quiet (m.marked h.disk.file) m.staging staging)
      (panicked : ∃ message, e = .panic message) (overflow : 2 ^ 64 ≤ h.db.base.generation + 1)
      (passed : h.Passed h') (db : h'.db = h.db) (issued : Disk.Issued (m.uptoStaged staging) h.disk h'.disk)
  | switching (staging effects : List Effect)
      (writes : Writes h.disk.Quiet (m.marked h.disk.file) m.staging staging)
      (failed : h.disk.Failed e) (next : m.staging.root.generation = h.db.base.generation + 1)
      (db : h'.db = h.db.poisoned)
      (part : Io.Torn (Superblock.pageOffset m.staging.root.generation) m.staging.root.encodePage effects ∨
        effects = m.switchEffects ++ [.sync])
      (issued : Disk.Issued (m.uptoStaged staging ++ effects) h.disk h'.disk)
  | moving (staging part : List Effect)
      (writes : Writes h.disk.Quiet (m.marked h.disk.file) m.staging staging)
      (stopped : h.disk.Failed e ∨
        2 ^ 64 ≤ h.db.base.generation + 2 ∧ h.Passed h' ∧ ∃ message, e = .panic message)
      (next : m.staging.root.generation = h.db.base.generation + 1)
      (db : h'.db = m.onStaging entries slots h.db)
      (within : ∀ e ∈ part, e.WritesWithin dataStart (m.final.root.logStart + logHeaderSize))
      (issued : Disk.Issued (m.uptoSwitched staging ++ part) h.disk h'.disk)
  | settling (staging final effects : List Effect)
      (wrote : m.Wrote h.disk.file h.disk.Quiet staging final) (failed : h.disk.Failed e)
      (next : m.staging.root.generation = h.db.base.generation + 1)
      (last : m.final.root.generation = m.staging.root.generation + 1)
      (db : h'.db = (m.onStaging entries slots h.db).poisoned)
      (part : Io.Torn (Superblock.pageOffset m.final.root.generation) m.final.root.encodePage effects)
      (issued : Disk.Issued (m.uptoMoved staging final ++ effects) h.disk h'.disk)
  | doubling (staging final effects : List Effect)
      (wrote : m.Wrote h.disk.file h.disk.Quiet staging final) (failed : h.disk.Failed e)
      (next : m.staging.root.generation = h.db.base.generation + 1)
      (last : m.final.root.generation = m.staging.root.generation + 1)
      (small : m.final.root.generation + 1 < 2 ^ 64)
      (db : h'.db = (m.onStaging entries slots h.db).poisoned)
      (part : Io.Torn (Superblock.pageOffset (m.final.root.generation + 1)) m.final.root.encodePage
        effects)
      (issued : Disk.Issued (m.uptoSettled staging final ++ effects) h.disk h'.disk)
  | settled (staging final : List Effect)
      (wrote : m.Wrote h.disk.file h.disk.Quiet staging final)
      (panicked : ∃ message, e = .panic message) (overflow : 2 ^ 64 ≤ h.db.base.generation + 3)
      (passed : h.Passed h') (next : m.staging.root.generation = h.db.base.generation + 1)
      (last : m.final.root.generation = m.staging.root.generation + 1)
      (db : h'.db = m.onStaging entries slots h.db)
      (issued : Disk.Issued (m.uptoSettled staging final) h.disk h'.disk)
  | cutting (staging final effects : List Effect)
      (wrote : m.Wrote h.disk.file h.disk.Quiet staging final) (failed : h.disk.Failed e)
      (next : m.staging.root.generation = h.db.base.generation + 1)
      (last : m.final.root.generation = m.staging.root.generation + 1)
      (small : m.final.root.generation + 1 < 2 ^ 64)
      (db : ∃ detached, h'.db = { m.onStaging entries slots h.db with
        base := detached, state := .unavailable })
      (part : effects = [] ∨ effects = m.cutEffects ∨ effects = m.cutEffects ++ [.sync])
      (issued : Disk.Issued (m.uptoDoubled staging final ++ effects) h.disk h'.disk)

theorem Move.Halted.config {e : Stop} {h' : Handle} (halted : m.Halted entries slots h e h') :
    SameConfig h.db h'.db := by
  cases halted with
  | staging failed db => exact db ▸ ⟨rfl, rfl⟩
  | staged staging writes panicked overflow passed db => exact db ▸ ⟨rfl, rfl⟩
  | switching staging effects writes failed next db => exact db ▸ ⟨rfl, rfl⟩
  | moving staging part writes stopped next db => exact db ▸ ⟨rfl, rfl⟩
  | settling staging final effects wrote failed next last db => exact db ▸ ⟨rfl, rfl⟩
  | doubling staging final effects wrote failed next last small db => exact db ▸ ⟨rfl, rfl⟩
  | settled staging final wrote panicked overflow passed next last db => exact db ▸ ⟨rfl, rfl⟩
  | cutting staging final effects wrote failed next last small db =>
      obtain ⟨detached, db⟩ := db
      exact db ▸ ⟨rfl, rfl⟩

/-- A compaction stops with an error, or because the generation overflows: that is found
out when all calls so far went through. -/
theorem Move.Halted.strict {e : Stop} {h' : Handle} (halted : m.Halted entries slots h e h') :
    (∃ error, e = .err error) ∨ h.Passed h' := by
  cases halted with
  | staging failed => exact .inl failed.2
  | staged staging writes panicked overflow passed => exact .inr passed
  | switching staging effects writes failed => exact .inl failed.2
  | moving staging part writes stopped =>
      rcases stopped with failed | ⟨-, passed, -⟩
      · exact .inl failed.2
      · exact .inr passed
  | settling staging final effects wrote failed => exact .inl failed.2
  | doubling staging final effects wrote failed => exact .inl failed.2
  | settled staging final wrote panicked overflow passed => exact .inr passed
  | cutting staging final effects wrote failed => exact .inl failed.2

/-- What a compaction that returned has done. -/
structure Move.Finished (m : Move) (entries : List Entry) (slots : Nat) (h h' : Handle) : Prop where
  next : m.staging.root.generation = h.db.base.generation + 1
  last : m.final.root.generation = m.staging.root.generation + 1
  small : m.final.root.generation + 1 < 2 ^ 64
  db : h'.db = { h.db with
    base := m.final.installed entries slots
    overlay := h.db.overlay.clear
    state := .healthy }
  issued : ∃ staging final, m.Wrote h.disk.file h.disk.Quiet staging final ∧
    Disk.Issued (m.effects staging final) h.disk h'.disk

/-- The staging Base is in place once its root is published. -/
theorem Move.For.switched_holds (plan : m.For C P h entries slots) :
    (m.switched h.disk.file).Holds m.staging.root.baseOffset (segmentBytes m.staging.data) ∧
      m.staging.root.logStart ≤ (m.switched h.disk.file).len := by
  have above : dataStart ≤ m.staging.root.baseOffset := by
    rw [plan.source]
    omega
  have agrees := page_agrees (m.staged h.disk.file) m.staging.root.generation
    m.staging.root.encodePage_length.le
  have some : segmentBytes m.staging.data ≠ [] := by
    intro nothing
    have := plan.stagingOf.isBase.segmentSize
    rw [nothing, segmentSize, List.length_nil] at this
    unfold baseHeader at this
    omega
  refine ⟨agrees.holds (File.holds_write _ _ _) (.inr above), ?_⟩
  refine le_trans ?_ agrees.le_len
  rw [Move.staged, File.write_len _ _ some, plan.stagingOf.ends]
  exact le_max_right _ _

/-- The final Base is in place as soon as it is written. -/
theorem Move.For.doubled_holds (plan : m.For C P h entries slots) :
    (m.doubled h.disk.file).Holds m.final.root.baseOffset (segmentBytes m.final.data) := by
  have front : dataStart ≤ m.final.root.baseOffset := plan.front.ge
  have fenced : (m.fenced h.disk.file).Holds m.final.root.baseOffset (segmentBytes m.final.data) :=
    (File.AgreesOutside.write _ le_rfl le_rfl).holds (File.holds_write _ _ _) (.inl plan.finalOf.ends.ge)
  have settled := (page_agrees (m.fenced h.disk.file) m.final.root.generation
    m.final.root.encodePage_length.le).holds fenced (.inr front)
  exact (page_agrees (m.settled h.disk.file) (m.final.root.generation + 1)
    m.final.root.encodePage_length.le).holds settled (.inr front)

/-- The last phases: the final root, its copy, and the cut. -/
theorem wp_settle (plan : m.For C P h entries slots) {staging final : List Effect} {h₁ : Handle}
    {detached : ActiveBase} (wrote : m.Wrote h.disk.file h.disk.Quiet staging final)
    (next : m.staging.root.generation = h.db.base.generation + 1)
    (last : m.final.root.generation = m.staging.root.generation + 1)
    (db : h₁.db = m.onStaging entries slots h.db) (passed : h.Passed h₁)
    (issued : Disk.Issued (m.uptoMoved staging final) h.disk h₁.disk) :
    wp (do
        Database.publish m.final.root
        Database.publishRedundant m.final.root
        Database.truncateTo detached m.final.root.logStart m.final.root)
      (fun _ h' => m.Finished entries slots h h') (fun e h' => m.Halted entries slots h e h') h₁ := by
  refine wp_bind (wp_mono (wp_along (Database.along_publish _) (wp_publish m.final.root h₁)) ?_ ?_)
  swap
  · rintro e h' ⟨failed, db', effects, torn, issued'⟩
    exact .settling staging final effects wrote (issued.failed failed) next last (by rw [db', db]) torn
      (issued.trans issued')
  rintro _ h2 ⟨passed2, db2, issued2⟩
  have issued2 := issued.trans issued2
  refine wp_bind (wp_mono (wp_publishRedundant m.final.root h2) ?_ ?_)
  swap
  · rintro e h' (⟨small, failed, db', effects, torn, issued'⟩ | ⟨overflow, panicked, rfl⟩)
    · exact .doubling staging final effects wrote (issued2.failed failed) next last small
        (by rw [db', db2, db]) torn (issued2.trans issued')
    · exact .settled staging final wrote panicked (by omega) (trans_of Handle.Passed passed passed2)
        next last (by rw [db2, db]) issued2
  rintro _ h3 ⟨small, db3, issued3⟩
  have issued3 := issued2.trans issued3
  have file3 : h3.disk.file = m.doubled h.disk.file := by
    rw [issued3.file]
    exact Move.uptoDoubled_apply wrote
  refine wp_mono (wp_truncateTo plan.finalOf ?_) ?_ ?_
  · rw [file3]
    exact plan.doubled_holds
  · rintro _ h4 ⟨db4, issued4⟩
    refine ⟨next, last, small, ?_, staging, final, wrote, issued3.trans issued4⟩
    rw [db4, db3, db2, db]
    rfl
  · rintro e h4 ⟨failed, db4, effects, issued4, part⟩
    exact .cutting staging final effects wrote (issued3.failed failed) next last small
      ⟨detached, by rw [db4, db3, db2, db]⟩ part
      (issued3.trans issued4)

/-- The relocation and what follows it, on a handle that reads the staging Base. -/
theorem wp_relocate (plan : m.For C P h entries slots) {staging : List Effect} {h₁ : Handle}
    (writes : Writes h.disk.Quiet (m.marked h.disk.file) m.staging staging)
    (next : m.staging.root.generation = h.db.base.generation + 1)
    (db : h₁.db = m.onStaging entries slots h.db) (passed : h.Passed h₁)
    (issued : Disk.Issued (m.uptoSwitched staging) h.disk h₁.disk) :
    wp (do
        let destinationGeneration ← Prog.lift (addOrPanic m.staging.root.generation 1)
        let (detached, destinationWritten) ← Database.relocateBase C
          (dataStart + segmentSize slots entries) destinationGeneration entries.length
          (segmentSize slots entries)
        let destinationSuperblock := Database.rootOf destinationGeneration dataStart
          destinationWritten (dataStart + segmentSize slots entries)
        Database.publish destinationSuperblock
        Database.publishRedundant destinationSuperblock
        Database.truncateTo detached (dataStart + segmentSize slots entries) destinationSuperblock)
      (fun _ h' => m.Finished entries slots h h') (fun e h' => m.Halted entries slots h e h') h₁ := by
  have word := plan.word
  have destinationEnd := plan.destinationEnd
  have file1 : h₁.disk.file = m.switched h.disk.file := by
    rw [issued.file]
    exact Move.uptoSwitched_apply writes
  have held := plan.switched_holds.1
  rw [← file1] at held
  refine wp_bind (wp_lift ?_ ?_)
  swap
  · intro e stopped
    obtain ⟨overflow, panicked⟩ := addOrPanic_eq_error stopped
    rw [next] at overflow
    exact .moving staging [] writes (.inr ⟨overflow, passed, panicked⟩) next db nofun
      (by simpa using issued)
  intro generation summed
  obtain ⟨rfl, below⟩ := addOrPanic_eq_ok.mp summed
  have base : h₁.db.base = m.staging.installed entries slots := by rw [db, Move.onStaging]
  have cleared : h₁.db.overlay.index = h.db.overlay.index.clear := by
    rw [db]
    rfl
  obtain ⟨yields, enough⟩ := yields_installed plan.stagingOf base cleared held
  refine wp_bind (wp_mono (wp_along (Database.along_relocateBase C _ _ _ _) (wp_relocateBase rfl
    (by omega) yields enough plan.count plan.finalBase.valid fun g agrees =>
      agrees.holds held (.inr ?_))) ?_ ?_)
  · rw [plan.source]
    omega
  swap
  · rintro e h2 ⟨failed, db2, part, issued2, within⟩
    rw [← destinationEnd] at within
    exact .moving staging part writes (.inl (issued.failed failed)) next (db2.trans db) within
      (issued.trans issued2)
  rintro ⟨detached, written⟩ h2
    ⟨passed2, data, final, isBase, writtenIs, db2, issued2, within, whole, solid⟩
  obtain ⟨-, rfl⟩ := isBase.unique plan.finalBase
  dsimp only at writtenIs ⊢
  rw [writtenIs, next, plan.finalRoot, ← destinationEnd]
  rw [← destinationEnd] at issued2 within
  refine wp_settle plan ⟨writes, ?_, ?_, ?_⟩ next ?_ (db2.trans db)
    (trans_of Handle.Passed passed passed2) (issued.trans issued2)
  · rw [plan.front]
    exact within
  · rw [plan.front, ← file1]
    exact whole
  · exact fun quiet => solid (issued.quiet quiet)
  · rw [next] at below ⊢
    rw [← plan.finalRoot]
    exact Nat.mod_eq_of_lt below

/-- A compaction that has no room is refused before it writes. -/
theorem wp_compactFile_refused {liveLen size : Nat} (full : h.db.options.maxDatabaseBytes.toNat <
      max (h.disk.file.len + logHeaderSize) (dataStart + size + logHeaderSize) + size)
    {d : Disk} (before : Disk.Issued [] h.disk d) :
    wp (Database.compactFile C liveLen size) (fun _ _ => False)
      (fun e h' => (∃ error, e = .err error ∧ (¬h.disk.Quiet ∨ error.TooLarge)) ∧ h'.db = h.db ∧
        Disk.Issued [] h.disk h'.disk)
      { h with disk := d } := by
  unfold Database.compactFile
  refine wp_bind (Db.wp_io (Io.wp_seekEnd ?_ fun error due =>
    ⟨⟨error, rfl, .inl (mt before.quiet due)⟩, rfl, before.trans (Disk.issued_tick _)⟩))
  have seeked := before.trans (Disk.issued_seek d d.file.len)
  refine wp_bind (wp_lift (fun plan planned => ?_) fun e stopped => ?_)
  swap
  · obtain ⟨error, rfl, large⟩ := compactPlan_failsWith _ _ e stopped
    exact ⟨⟨error, rfl, .inr large⟩, rfl, seeked⟩
  obtain ⟨rfl, word⟩ := compactPlan_eq_ok.mp planned
  refine wp_bind (Database.wp_ensureCapacity (fun room => ?_) fun error why =>
    ⟨⟨error, rfl, ?_⟩, rfl, seeked.trans (Disk.issued_tick _)⟩)
  swap
  · refine why.imp (mt seeked.quiet) fun full => ?_
    rcases Database.capacity_cases _ _ _ with room | ⟨_, refused, large⟩
    · cases full.symm.trans room
    · cases full.symm.trans refused
      exact large
  have len : d.file.len = h.disk.file.len := by rw [before.kept]
  dsimp only at room
  rw [show ({ d.tick with position := d.file.len } : Disk).file = d.file from rfl] at room
  omega

/-- Where a compaction can stop once it is known what it will write.  The calls made
before, up to `d`, have only read. -/
theorem wp_compactFile (plan : m.For C P h entries slots) {d : Disk} (before : Disk.Issued [] h.disk d)
    (passed : h.disk.Passed d) :
    wp (Database.compactFile C entries.length (segmentSize slots entries))
      (fun _ h' => m.Finished entries slots h h')
      (fun e h' => h.disk.Failed e ∧ h'.db = h.db ∧ Disk.Issued [] h.disk h'.disk ∨
        m.Halted entries slots h e h') { h with disk := d } := by
  have word := plan.word
  have source := plan.source
  have sourceEnd := plan.sourceEnd
  have len : d.file.len = m.oldEnd := by rw [before.kept, plan.oldEnd]
  unfold Database.compactFile
  have seek : wp Io.seekEnd (fun n d => n = m.oldEnd ∧ Disk.Issued [] h.disk d ∧ d.position = m.oldEnd)
      (fun e d => h.disk.Failed e ∧ Disk.Issued [] h.disk d) d :=
    Io.wp_seekEnd ⟨len, before.trans (Disk.issued_seek _ _), len⟩ fun error due =>
      ⟨before.failed ⟨due, error, rfl⟩, before.trans (Disk.issued_tick _)⟩
  refine Db.wp_io_bind (wp_along Io.along_seekEnd seek) ?_ fun e d stopped =>
    .inl ⟨stopped.1, rfl, stopped.2⟩
  rintro _ d1 ⟨passed1, rfl, issued1, position⟩
  rw [compactPlan_eq_ok.mpr ⟨rfl, word⟩]
  refine wp_bind (wp_lift ?_ nofun)
  rintro _ ⟨⟩
  dsimp only
  have len1 : d1.file.len = m.oldEnd := by rw [issued1.kept, plan.oldEnd]
  have issued1' := issued1.trans (Disk.issued_tick d1)
  have capacity : wp (Database.ensureCapacity (max (m.oldEnd + logHeaderSize)
        (dataStart + segmentSize slots entries + logHeaderSize) + segmentSize slots entries - m.oldEnd))
      (fun _ h' => h' = ⟨h.db, d1.tick⟩)
      (fun e h' => h.disk.Failed e ∧ h'.db = h.db ∧ Disk.Issued [] h.disk h'.disk) ⟨h.db, d1⟩ := by
    refine Database.wp_ensureCapacity (fun _ => rfl) fun error why =>
      ⟨⟨fun quiet => ?_, error, rfl⟩, rfl, issued1'⟩
    rcases why with due | full
    · exact due (issued1.quiet quiet)
    · have room := plan.room
      dsimp only at full
      rw [(Database.capacity_eq_ok h.db.options.maxDatabaseBytes.toNat_lt).mpr
        (by rw [len1]; omega)] at full
      cases full
  refine wp_bind (wp_mono (wp_along (Database.along_ensureCapacity _) capacity) ?_ fun _ _ => .inl)
  rintro _ _ ⟨passed2, rfl⟩
  have passed2 : h.Passed ⟨h.db, d1.tick⟩ :=
    trans_of Disk.Passed passed (trans_of Disk.Passed passed1 passed2)
  -- Staging; everything it writes is behind the old end.
  have file1 : d1.tick.file = h.disk.file := issued1.kept
  refine wp_bind (wp_mono (wp_along (Database.along_stageBase C _ _ _)
    (wp_stageBase (C := C) (h := ⟨h.db, d1.tick⟩) (P := P) position (by dsimp only; omega) rfl word
      plan.yields plan.enough plan.count fun g agrees => ?_)) ?_ ?_)
  · rw [file1, ← sourceEnd] at agrees
    exact plan.stable g agrees
  swap
  · rintro e h' ⟨why, db, broken⟩
    dsimp only at broken
    rw [← sourceEnd, ← source] at broken
    obtain ⟨done, undo, issued, which, how⟩ := broken
    exact .inr (.staging (issued1'.failed (why.failed plan.stagingBase.valid)) db
      ⟨done, undo, issued1'.trans issued, which, how⟩)
  rintro _ h2 ⟨passed3, data, staging, isBase, rfl, db2, issued2, within, whole, solid⟩
  have passed3 := trans_of Handle.Passed passed2 passed3
  dsimp only at isBase within whole
  rw [← source] at isBase
  obtain ⟨-, rfl⟩ := isBase.unique plan.stagingBase
  have issued2 := issued1'.trans issued2
  have writes : Writes h.disk.Quiet (m.marked h.disk.file) m.staging staging := by
    rw [file1, ← source] at whole
    rw [← sourceEnd, ← source] at within
    exact ⟨within, whole, fun quiet => solid (issued1'.quiet quiet)⟩
  -- The staging root.
  have generation : h2.db.base.generation = h.db.base.generation := by rw [db2]
  refine wp_bind (wp_state (wp_bind (wp_lift ?_ ?_)))
  swap
  · intro e stopped
    obtain ⟨overflow, panicked⟩ := addOrPanic_eq_error stopped
    rw [generation] at overflow
    exact .inr (.staged staging writes panicked overflow passed3 db2 issued2)
  rw [generation]
  intro successor summed
  obtain ⟨rfl, below⟩ := addOrPanic_eq_ok.mp summed
  rw [plan.stagingRoot]
  have next : m.staging.root.generation = h.db.base.generation + 1 := by
    rw [← plan.stagingRoot]
    exact Nat.mod_eq_of_lt below
  refine wp_bind (wp_mono (wp_along (Database.along_publish _) (wp_publish m.staging.root h2)) ?_ ?_)
  swap
  · rintro e h3 ⟨failed, db3, effects, torn, issued3⟩
    exact .inr (.switching staging effects writes (issued2.failed failed) next (by rw [db3, db2])
      (.inl torn) (issued2.trans issued3))
  rintro _ h3 ⟨passed4, db3, issued3⟩
  have issued3 := issued2.trans issued3
  have file3 : h3.disk.file = m.switched h.disk.file := by
    rw [issued3.file]
    exact Move.uptoSwitched_apply writes
  obtain ⟨held, inside⟩ := plan.switched_holds
  rw [← file3] at held inside
  refine wp_bind (wp_mono (wp_along (Database.along_installSuperblock _)
    (wp_installSuperblock plan.stagingOf held inside)) ?_ ?_)
  swap
  · rintro e h4 ⟨failed, db4, issued4⟩
    have all := issued3.trans issued4
    rw [List.append_nil] at all
    exact .inr (.switching staging _ writes (issued3.failed failed) next (by rw [db4, db3, db2])
      (.inr rfl) all)
  rintro _ h4 ⟨passed5, db4, issued4⟩
  have all := issued3.trans issued4
  rw [List.append_nil] at all
  have passed5 := trans_of Handle.Passed passed3 (trans_of Handle.Passed passed4 passed5)
  refine wp_bind (wp_state (wp_bind (wp_modify ?_)))
  refine wp_mono (wp_relocate plan writes next ?_ passed5 all) (fun _ _ => id) fun _ _ => .inr
  show ({ h4.db with overlay := h4.db.overlay.clear } : Database) = _
  rw [db4, db3, db2]
  rfl

end Compaction

end Lkv
