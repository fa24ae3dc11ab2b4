/-
# Lkv.System.PowerLoss — compaction and losing power

A write that no completed sync covers may be lost while a later one is not.  What is left of a
compaction then (`Effect.Remains`): all of its effects up to a sync, and any of those issued
since.

From the first sync on this is harmless (`switch_endures` … `cut_endures`): each phase writes where the root
in force does not look, and publishes only what was synced.  The phase before it is not.  The
compact marker and the staging Base behind it are written without a sync between them.  If
some of the Base is kept and the marker lost, the log ends in zeros, which no open accepts
(`Contents.Zeroed.refused`).  `compact_power_loss` says that nothing else can go wrong.
-/
import Lkv.System.Snapshots

namespace Lkv
open Lkv.Theory Lkv.Theory.Prog Dictionary

set_option autoImplicit false

/-! ## From the first sync on -/

section Writes

variable {quiet : Prop} {f : File} {p : PlacedBase} {effects : List Effect}

theorem Writes.unsynced (writes : Writes quiet f p effects) (calm : quiet) : .sync ∉ effects :=
  fun member => writes.solid calm .sync member

theorem Writes.certain (writes : Writes quiet f p effects) (calm : quiet) : Writes True f p effects :=
  ⟨writes.within, writes.whole, fun _ => writes.solid calm⟩

end Writes

namespace Rewrite

section Phases

variable {C : Crates} {c : Contents C} {r : Rewrite c} {f : File} {limit : Nat} {quiet : Prop}
variable {final rest : List Effect} (image : c.Image f [])
variable (next : r.staging.root.generation = c.root.generation + 1) (room : r.staging.logEnd ≤ limit)
include image next room

theorem switch_endures (later : Effect.Endures (Stored C limit [c.map]) (r.move.switched f) rest) :
    Effect.Endures (Stored C limit [c.map]) (r.move.staged f) (r.move.switchEffects ++ .sync :: rest) :=
  Effect.endures_single Effect.noConfusion (r.stored_marked image room r.staged_agrees) later
    (r.stored_switched image next room (File.AgreesOutside.refl _ _ _))

/-- Writes of the relocation, whichever were kept. -/
theorem stored_relocating {effects : List Effect}
    (within : ∀ e ∈ effects, e.WritesWithin dataStart (r.final.root.logStart + logHeaderSize)) :
    Stored C limit [c.map] (Effect.applyAll (r.move.switched f) effects) := by
  have agrees := Effect.applyAll_agrees within (r.move.switched f)
  rw [r.final_logStart] at agrees
  exact r.stored_switched image next room (agrees.mono le_rfl r.gap)

theorem move_endures (writes : Writes quiet (r.move.switched f) r.move.final final) (calm : quiet)
    (later : Effect.Endures (Stored C limit [c.map]) (r.move.fenced f) rest) :
    Effect.Endures (Stored C limit [c.map]) (r.move.switched f)
      (r.move.moveEffects final ++ .sync :: rest) := by
  have within := r.moveEffects_within writes
  have unsynced : .sync ∉ r.move.moveEffects final := by
    intro member
    rcases List.mem_append.mp member with first | last
    · exact writes.unsynced calm first
    · cases List.mem_singleton.mp last
  refine Effect.Endures.sync unsynced (fun kept subset => ?_) ?_
  · exact stored_relocating image next room fun e member => within e (subset.subset member)
  · have whole : Effect.applyAll (r.move.switched f) (r.move.moveEffects final) = r.move.fenced f := by
      rw [Move.moveEffects, Effect.applyAll_append, writes.whole]
      rfl
    rw [whole]
    exact later

variable (last : r.final.root.generation = r.staging.root.generation + 1)
include last

theorem settle_endures (later : Effect.Endures (Stored C limit [c.map]) (r.move.settled f) rest) :
    Effect.Endures (Stored C limit [c.map]) (r.move.fenced f) (r.move.settleEffects ++ .sync :: rest) := by
  have settled := r.settled_marked next last image
  exact Effect.endures_single Effect.noConfusion (r.stored_switched image next room r.fenced_agrees) later
    (stored_one (r.settled_len image next room) (r.finalMap ▸ settled.recovers))

theorem double_endures (later : Effect.Endures (Stored C limit [c.map]) (r.move.doubled f) rest) :
    Effect.Endures (Stored C limit [c.map]) (r.move.settled f) (r.move.doubleEffects ++ .sync :: rest) := by
  have settled := r.settled_marked next last image
  exact Effect.endures_single Effect.noConfusion
    (stored_one (r.settled_len image next room) (r.finalMap ▸ settled.recovers)) later
    (r.stored_doubled image next last room)

theorem cut_endures :
    Effect.Endures (Stored C limit [c.map]) (r.move.doubled f) (r.move.cutEffects ++ [.sync]) :=
  have cut := r.stored_cut image next last room
  Effect.endures_single Effect.noConfusion (r.stored_doubled image next last room)
    (Effect.endures_nil cut) cut

end Phases

end Rewrite

/-! ## A log that ends in zeros -/

/-- What a header of zeros is taken for. -/
theorem readRecord_zeros (front rest : Bytes) {mappingOffset : Nat}
    (word : front.length + logHeaderSize < 2 ^ 64) (offset : mappingOffset + front.length < 2 ^ 64) :
    ∃ error, readRecord (front ++ (List.replicate logHeaderSize 0 ++ rest)) mappingOffset front.length =
      .error (.err error) := by
  have long : logHeaderSize ≤ (List.replicate logHeaderSize (0 : UInt8) ++ rest).length := by
    rw [List.length_append, List.length_replicate]
    exact Nat.le_add_right _ _
  rcases readHeader_eq front long word offset with ⟨-, read⟩ | ⟨-, error, read⟩
  · -- Should it pass its checksum, its first byte names no operation.
    refine ⟨.fromIo .invalidData
      s!"invalid overlay operation at offset {mappingOffset + front.length}", ?_⟩
    have payload : getRange (front ++ (List.replicate logHeaderSize 0 ++ rest))
        (front.length + logHeaderSize) (front.length + logHeaderSize) = some [] := by
      rw [getRange_some le_rfl (by rw [List.length_append]; omega), Nat.sub_self, window_zero_count]
    have same : checkedAdd (front.length + logHeaderSize) 0 = some (front.length + logHeaderSize) :=
      checkedAdd_some word
    rw [readRecord, read, ok_bind]
    show (orFail (checkedAdd (front.length + logHeaderSize) 0) _ >>= _) = _
    rw [same, orFail_some, ok_bind, payload]
    rfl
  · exact ⟨error, by rw [readRecord, read]; rfl⟩

/-- The scan of a log does not get past zeros behind its batches. -/
theorem scanFrom_stops (batches : List Batch) (front rest : Bytes) {mappingOffset : Nat} (fuel : Nat)
    (scan : ScanState)
    (word : mappingOffset + front.length + (logBytes batches).length + logHeaderSize < 2 ^ 64) :
    Stops (scanFrom
      (front ++ (logBytes batches ++ (List.replicate logHeaderSize 0 ++ rest))) mappingOffset fuel
      front.length scan) := by
  induction fuel generalizing batches front scan with
  | zero => exact along_stop _
  | succ fuel ih =>
      have inside : front.length <
          (front ++ (logBytes batches ++ (List.replicate logHeaderSize (0 : UInt8) ++ rest))).length := by
        simp only [List.length_append, List.length_replicate, logHeaderSize]
        omega
      rw [scanFrom, if_pos inside]
      cases batches with
      | nil =>
          have empty : logBytes [] = [] := rfl
          rw [empty, List.length_nil] at word
          obtain ⟨error, read⟩ := @readRecord_zeros front rest mappingOffset (by omega) (by omega)
          rw [empty, List.nil_append, read]
          exact fun _ => trivial
      | cons batch batches =>
          have split : logBytes (batch :: batches) = batch.bytes ++ logBytes batches := rfl
          rw [split, List.length_append] at word
          have read := @readRecord_batch mappingOffset front
            (logBytes batches ++ (List.replicate logHeaderSize 0 ++ rest)) batch.record (by
              show mappingOffset + front.length + batch.bytes.length < 2 ^ 64
              omega)
          rw [split, List.append_assoc]
          have later := fun scan => ih batches (front ++ batch.bytes) scan (by rw [List.length_append]; omega)
          rw [List.append_assoc, List.length_append] at later
          have step : readRecord (front ++ (batch.bytes ++ (logBytes batches ++
              (List.replicate logHeaderSize 0 ++ rest)))) mappingOffset front.length = _ := read
          rw [step]
          intro d
          refine wp_bind (wp_lift_ok ?_)
          exact along_bind_last later d

/-- A file that holds contents, and zeros where the next record would begin. -/
structure Contents.Zeroed {C : Crates} (c : Contents C) (f : File) : Prop where
  rooted : Rooted f c.root
  held : c.Held f
  zeros : f.Holds c.logEnd (List.replicate logHeaderSize 0)
  long : c.logEnd + logHeaderSize ≤ f.len
  word : f.len < 2 ^ 64

namespace Contents.Zeroed

variable {C : Crates} {c : Contents C} {f : File} {options : DatabaseOptions} {d : Disk}

/-- The log of such a file. -/
theorem log_eq (zeroed : c.Zeroed f) : ∃ rest, f.slice c.root.logStart (f.len - c.root.logStart) =
    c.log ++ (List.replicate logHeaderSize 0 ++ rest) := by
  have long := zeroed.long
  rw [Contents.logEnd] at long
  have size : f.len - c.root.logStart =
      c.log.length + (logHeaderSize + (f.len - c.logEnd - logHeaderSize)) := by
    rw [Contents.logEnd]
    omega
  refine ⟨f.slice (c.logEnd + logHeaderSize) (f.len - c.logEnd - logHeaderSize), ?_⟩
  rw [size, File.slice_add, File.slice_add, zeroed.held.log.slice_eq rfl]
  congr 2
  exact zeroed.zeros.slice_eq (List.length_replicate ..)

theorem wp_scanLog (zeroed : c.Zeroed f) (same : d.file = f) :
    wp (scanLog c.root.logStart (f.len - c.root.logStart)) (fun _ _ => False) (fun _ _ => True) d := by
  obtain ⟨rest, log⟩ := zeroed.log_eq
  have long := zeroed.long
  have word := zeroed.word
  rw [Contents.logEnd] at long
  have some : f.len - c.root.logStart ≠ 0 := by
    unfold logHeaderSize at long
    omega
  unfold scanLog
  rw [if_neg some]
  refine wp_bind (wp_mono (Io.wp_map d some (by omega) (by rw [same]; omega)) ?_ fun _ _ _ => trivial)
  rintro _ d1 ⟨rfl, issued⟩
  have deref : (BaseBytes.mapped c.root.logStart (f.len - c.root.logStart)).deref d1.file =
      [] ++ (logBytes c.batches ++ (List.replicate logHeaderSize 0 ++ rest)) := by
    rw [issued.kept, same]
    exact log
  refine wp_bind (wp_state ?_)
  dsimp only
  rw [deref]
  refine wp_bind (wp_mono (scanFrom_stops c.batches [] rest _ _ ?_ d1) (fun _ _ => False.elim) fun _ _ => id)
  show c.root.logStart + 0 + c.log.length + logHeaderSize < 2 ^ 64
  omega

theorem wp_loadStorageState (zeroed : c.Zeroed f) (same : d.file = f) (quiet : d.Quiet) :
    wp (loadStorageState C options) (fun _ _ => False) (fun _ _ => True) d := by
  have once := Disk.issued_tick d
  have long := zeroed.long
  have word := zeroed.word
  have fits := c.fits (show c.logEnd ≤ f.len by omega)
  have header := c.header_le
  have ends : c.root.logStart = c.root.baseOffset + c.root.baseSize := c.logStart
  rw [Contents.logEnd] at long
  unfold loadStorageState
  refine wp_bind (Io.wp_len ?_ fun _ _ => trivial)
  refine wp_bind (wp_mono (wp_readLatestFrom d.tick d.file.len) ?_ fun _ _ _ => trivial)
  rintro sb d1 ⟨issued1, selected⟩
  have selected : selectRoot d.file d.file.len = .ok sb := selected (once.quiet quiet)
  rw [same, zeroed.rooted.select fits] at selected
  cases selected
  have file1 : d1.file = f := (once.trans issued1).kept.trans same
  refine wp_bind (wp_mono (wp_mapBase d1 (by unfold baseHeader at header; omega) (by omega)
    (by rw [file1]; omega)) ?_ fun _ _ _ => trivial)
  rintro base d2 ⟨issued2, opened⟩
  rw [open_logStart opened, same, checkedSub_some (by omega)]
  refine wp_bind (wp_lift_ok (wp_bind (wp_mono (zeroed.wp_scanLog (issued2.kept.trans file1)) ?_
    fun _ _ => id)))
  exact fun _ _ => False.elim

/-- No open accepts it. -/
theorem refused (zeroed : c.Zeroed f) :
    ¬∃ db d, openWithOptions C options (Disk.ofFile f []) = (.ok db, d) := by
  have quiet := Disk.quiet_ofFile f
  have once := Disk.issued_tick (Disk.ofFile f [])
  have twice := once.trans (Disk.issued_tick _)
  have thrice := twice.trans (Disk.issued_tick _)
  have fourth := thrice.trans (Disk.issued_tick _)
  rintro ⟨db, d, opened⟩
  refine wp_ok (Q := fun _ _ => False) (E := fun _ _ => True) ?_ opened
  unfold openWithOptions
  refine wp_bind (wp_lift (fun _ _ => ?_) fun _ _ => trivial)
  refine wp_bind (wp_bind (Io.wp_call (wp_pure (wp_bind (Io.wp_nextFault ?_ ?_))) fun _ _ => trivial))
  · refine wp_pure (wp_bind (Io.wp_len ?_ fun _ _ => trivial))
    show wp (if f.len > options.maxDatabaseBytes.toNat then _ else _) _ _ _
    split
    · exact wp_stop trivial
    rename_i room
    refine wp_bind (Io.wp_len ?_ fun _ _ => trivial)
    show wp (if f.len > options.maxDatabaseBytes.toNat then _ else _) _ _ _
    rw [if_neg room]
    exact wp_bind (wp_mono (zeroed.wp_loadStorageState rfl (fourth.quiet quiet)) (fun _ _ => False.elim)
      fun _ _ => id)
  · exact fun _ _ _ => wp_stop trivial

end Contents.Zeroed

/-! ## Up to the first sync -/

/-- Of what was written behind the old end something was kept, but not the marker. -/
structure MarkerLost (oldEnd : Nat) (durable kept : List Effect) : Prop where
  unsynced : durable = []
  some : kept ≠ []
  lost : .write oldEnd compactMarker ∉ kept

namespace Rewrite

section Staging

variable {C : Crates} {c : Contents C} {r : Rewrite c} {f : File} {limit : Nat} {quiet : Prop}
variable {staging later durable kept : List Effect}

theorem staging_within (writes : Writes quiet (r.move.marked f) r.move.staging staging) :
    ∀ e ∈ staging, e.WritesWithin r.staging.root.baseOffset r.staging.logEnd := by
  rw [r.staging.logEnd_of_fresh r.stagingFresh]
  exact writes.within

/-- Some of the staging Base, without the marker in front of it. -/
theorem zeroed (image : c.Image f [])
    (within : ∀ e ∈ kept, e.WritesWithin r.staging.root.baseOffset r.staging.logEnd)
    (solid : ∀ e ∈ kept, e.Solid) (some : kept ≠ []) : c.Zeroed (Effect.applyAll f kept) := by
  have agrees := Effect.applyAll_agrees within f
  have behind := r.behind
  have len : f.len = c.logEnd := image.len
  have reaches : r.staging.root.baseOffset < (Effect.applyAll f kept).len :=
    Effect.lt_applyAll_len within solid some
  refine ⟨image.rooted.agrees agrees ?_, image.held.agrees agrees (.inl ?_), ?_, ?_, ?_⟩
  · exact c.dataStart_le_logEnd.trans (by omega)
  · omega
  · refine agrees.holds (File.holds_zeros len.le _) (.inl ?_)
    rwa [List.length_replicate]
  · omega
  · exact lt_of_le_of_lt agrees.len_le (max_lt image.word r.word)

theorem stageEffects_unsynced (writes : Writes quiet (r.move.marked f) r.move.staging staging)
    (calm : quiet) : .sync ∉ r.move.stageEffects staging := by
  intro member
  rcases List.mem_cons.mp member with marker | base
  · cases marker
  · exact writes.unsynced calm base

/-- The staging Base is behind the marker. -/
theorem marker_notMem (writes : Writes quiet (r.move.marked f) r.move.staging staging) :
    .write c.logEnd compactMarker ∉ staging := by
  intro member
  have above := (writes.within _ member).1
  have behind := r.behind
  have header : 0 < logHeaderSize := by decide
  change r.staging.root.baseOffset ≤ c.logEnd at above
  omega

section Remains

variable (image : c.Image f []) (writes : Writes quiet (r.move.marked f) r.move.staging staging)
variable (calm : quiet)
variable (remains : Effect.Remains (r.move.stageEffects staging ++ .sync :: later) durable kept)
include image writes calm remains

/-- What is left of a compaction has the same map, unless the marker was lost. -/
theorem remains_stored (room : r.staging.logEnd ≤ limit)
    (endures : Effect.Endures (Stored C limit [c.map]) (r.move.staged f) later)
    (held : ¬MarkerLost c.logEnd durable kept) :
    Stored C limit [c.map] (Effect.applyAll f (durable ++ kept)) := by
  rcases Effect.remains_sync (stageEffects_unsynced writes calm) remains with
    ⟨rfl, subset⟩ | ⟨behind, rfl, left⟩
  · cases subset with
    | cons _ base =>
        by_cases nothing : kept = []
        · subst nothing
          have short := image.len.le.trans ((Nat.le_of_add_right_le r.behind).trans r.staging_end)
          exact stored_one (short.trans room) image.recovers
        · exact absurd ⟨rfl, nothing, fun member => marker_notMem writes (base.subset member)⟩ held
    | cons_cons _ base =>
        exact r.stored_marked image room (Effect.applyAll_agrees
          (fun e member => staging_within writes e (base.subset member)) (r.move.marked f))
  · have whole : Effect.applyAll f (r.move.stageEffects staging) = r.move.staged f := writes.whole
    rw [List.append_assoc, List.cons_append, Effect.applyAll_append, whole]
    exact endures behind kept left

theorem remains_zeroed (lost : MarkerLost c.logEnd durable kept) :
    c.Zeroed (Effect.applyAll f (durable ++ kept)) := by
  obtain ⟨rfl, some, lost⟩ := lost
  rcases Effect.remains_sync (stageEffects_unsynced writes calm) remains with
    ⟨-, subset⟩ | ⟨behind, split, -⟩
  · cases subset with
    | cons _ base =>
        exact zeroed image (fun e member => staging_within writes e (base.subset member))
          (fun e member => writes.solid calm e (base.subset member)) some
    | cons_cons _ base => exact absurd List.mem_cons_self lost
  · cases split

end Remains

end Staging

/-! ## What a compaction issues -/

/-- First the marker and the staging Base, then what no loss of power harms. -/
inductive Guarded {C : Crates} (c : Contents C) (limit : Nat) (f : File) : List Effect → Prop
  | staged (r : Rewrite c) (staging later : List Effect) (room : r.staging.logEnd ≤ limit)
      (writes : Writes True (r.move.marked f) r.move.staging staging)
      (endures : Effect.Endures (Stored C limit [c.map]) (r.move.staged f) later) :
      Guarded c limit f (r.move.stageEffects staging ++ .sync :: later)

namespace Guarded

variable {C : Crates} {c : Contents C} {limit : Nat} {f : File} {effects durable kept : List Effect}

theorem stored (guarded : Guarded c limit f effects) (image : c.Image f [])
    (remains : Effect.Remains effects durable kept) (held : ¬MarkerLost c.logEnd durable kept) :
    Stored C limit [c.map] (Effect.applyAll f (durable ++ kept)) := by
  obtain ⟨r, staging, later, room, writes, endures⟩ := guarded
  exact remains_stored image writes trivial remains room endures held

theorem zeroed (guarded : Guarded c limit f effects) (image : c.Image f [])
    (remains : Effect.Remains effects durable kept) (lost : MarkerLost c.logEnd durable kept) :
    c.Zeroed (Effect.applyAll f (durable ++ kept)) := by
  obtain ⟨r, staging, later, room, writes, endures⟩ := guarded
  exact remains_zeroed image writes trivial remains lost

/-- Everything up to the first sync may be kept, and everything but the marker. -/
theorem unsynced (guarded : Guarded c limit f effects) (image : c.Image f []) :
    (∃ kept, .write c.logEnd compactMarker ∈ kept ∧ Effect.Remains effects [] kept) ∧
      ∃ kept, MarkerLost c.logEnd [] kept ∧ Effect.Remains effects [] kept := by
  obtain ⟨r, staging, later, room, writes, endures⟩ := guarded
  have unsynced := stageEffects_unsynced writes trivial
  have some : staging ≠ [] := by
    rintro rfl
    have len := congrArg File.len writes.whole
    have reaches := r.staged_len image
    have short : (r.move.marked f).len = (r.move.staged f).len := len
    have behind := r.behind
    have seg := r.staging.base_length r.stagingFresh
    have long := List.length_pos_iff.mpr r.staging_some
    rw [r.marked_len image, reaches] at short
    omega
  exact ⟨⟨_, List.mem_cons_self, rfl, .inl rfl, unsynced, List.Sublist.refl _⟩,
    _, ⟨rfl, some, marker_notMem writes⟩, rfl, .inl rfl, unsynced, List.sublist_cons_self _ _⟩

end Guarded

section Outcome

variable {C : Crates} {c : Contents C} {r : Rewrite c} {h h' : Handle} {e : Stop}
variable (healthy : c.Healthy h) (plan : r.For h) (quiet : h.disk.Quiet)
include healthy plan quiet

theorem finished_guarded (finished : r.move.Finished r.staging.entries r.staging.slots h h') :
    ∃ effects, Disk.Issued effects h.disk h'.disk ∧
      Guarded c h.db.options.maxDatabaseBytes.toNat h.disk.file effects := by
  obtain ⟨next, last, small, -, staging, final, wrote, issued⟩ := finished
  have generation : h.db.base.generation = c.root.generation := by
    rw [healthy.serves.base]
    rfl
  rw [generation] at next
  have image := healthy.image
  have room := plan.room
  have effects : r.move.effects staging final = r.move.stageEffects staging ++ .sync ::
      (r.move.switchEffects ++ .sync :: (r.move.moveEffects final ++ .sync :: (r.move.settleEffects ++
        .sync :: (r.move.doubleEffects ++ .sync :: (r.move.cutEffects ++ [.sync]))))) := by
    simp only [Move.effects, Move.uptoDoubled, Move.uptoSettled, Move.uptoMoved, Move.uptoSwitched,
      Move.uptoStaged, List.append_assoc, List.cons_append, List.nil_append]
  rw [effects] at issued
  refine ⟨_, issued, .staged r staging _ room (wrote.staging.certain quiet) ?_⟩
  exact switch_endures image next room (move_endures image next room wrote.final quiet
    (settle_endures image next room last (double_endures image next room last
      (cut_endures image next room last))))

theorem halted_guarded (halted : r.move.Halted r.staging.entries r.staging.slots h e h') :
    ∃ effects, Disk.Issued effects h.disk h'.disk ∧
      Guarded c h.db.options.maxDatabaseBytes.toNat h.disk.file effects := by
  have generation : h.db.base.generation = c.root.generation := by
    rw [healthy.serves.base]
    rfl
  have image := healthy.image
  have room := plan.room
  -- With no failing call only a generation that overflows stops it, right after a sync.
  cases halted with
  | staging failed => exact absurd quiet failed.1
  | staged staging writes panicked overflow passed db issued =>
      refine ⟨_, issued, .staged r staging [] room (writes.certain quiet) ?_⟩
      exact Effect.endures_nil (r.stored_marked image room r.staged_agrees)
  | switching staging effects writes failed => exact absurd quiet failed.1
  | moving staging part writes stopped next db within issued =>
      rw [generation] at next
      have effects : r.move.uptoSwitched staging ++ part = r.move.stageEffects staging ++ .sync ::
          (r.move.switchEffects ++ .sync :: part) := by
        simp only [Move.uptoSwitched, Move.uptoStaged, List.append_assoc, List.cons_append,
          List.nil_append]
      rw [effects] at issued
      refine ⟨_, issued, .staged r staging _ room (writes.certain quiet) ?_⟩
      refine switch_endures image next room fun durable kept remains => ?_
      exact stored_relocating image next room fun e member => within e (remains.mem member)
  | settling staging final effects wrote failed => exact absurd quiet failed.1
  | doubling staging final effects wrote failed => exact absurd quiet failed.1
  | settled staging final wrote panicked overflow passed next last db issued =>
      rw [generation] at next
      have effects : r.move.uptoSettled staging final = r.move.stageEffects staging ++ .sync ::
          (r.move.switchEffects ++ .sync :: (r.move.moveEffects final ++ .sync ::
            (r.move.settleEffects ++ [.sync]))) := by
        simp only [Move.uptoSettled, Move.uptoMoved, Move.uptoSwitched, Move.uptoStaged,
          List.append_assoc, List.cons_append, List.nil_append]
      have settled := r.settled_marked next last image
      rw [effects] at issued
      refine ⟨_, issued, .staged r staging _ room (wrote.staging.certain quiet) ?_⟩
      exact switch_endures image next room (move_endures image next room wrote.final quiet
        (settle_endures image next room last (Effect.endures_nil
          (stored_one (r.settled_len image next room) (r.finalMap ▸ settled.recovers)))))
  | cutting staging final effects wrote failed => exact absurd quiet failed.1

end Outcome

/-- A compaction in which no call fails is guarded, or issues nothing: there is nothing to
compact, or it is refused. -/
theorem compactTrace_guarded {C : Crates} {c : Contents C} {h : Handle} (healthy : c.Healthy h) :
    compactTrace C h = [] ∧ (c.Settled ∨ (Database.compact C (h.afresh [])).1 ≠ .ok ()) ∨
      Guarded c h.db.options.maxDatabaseBytes.toNat h.disk.file (compactTrace C h) := by
  have fresh := healthy.afresh []
  have checked := fresh.unchanged_verified
  have same := verified_sameDisk fresh
  have quiet : (verified C (h.afresh [])).disk.Quiet := same.symm ▸ List.forall_mem_nil _
  have options := checked.config.options
  unfold compactTrace
  cases ran : Database.compact C (h.afresh []) with
  | mk result h' =>
      have still : Unchanged c (h.afresh []) h' → h'.disk.trace = [] := fun unchanged => unchanged.disk.trace
      have guarded : (∃ effects, Disk.Issued effects (verified C (h.afresh [])).disk h'.disk ∧
          Guarded c (verified C (h.afresh [])).db.options.maxDatabaseBytes.toNat
            (verified C (h.afresh [])).disk.file effects) →
          Guarded c h.db.options.maxDatabaseBytes.toNat h.disk.file h'.disk.trace := by
        rintro ⟨effects, issued, guarded⟩
        rw [same, options] at guarded
        have trace : h'.disk.trace = effects := by
          rw [issued.trace, same]
          rfl
        rw [trace]
        exact guarded
      cases result with
      | ok _ =>
          obtain ⟨settled, unchanged⟩ | ⟨-, -, r, plan, finished⟩ := wp_ok (wp_compact fresh) ran
          · exact .inl ⟨still unchanged, .inl settled⟩
          · exact .inr (guarded (finished_guarded checked.healthy plan quiet finished))
      | error e =>
          obtain ⟨-, unchanged⟩ | ⟨-, -, r, plan, halted⟩ := wp_error (wp_compact fresh) ran
          · exact .inl ⟨still unchanged, .inr fun returned => by cases returned⟩
          · exact .inr (guarded (halted_guarded checked.healthy plan quiet halted))

end Rewrite

/-! ## Losing power during a compaction -/

section PowerLoss

variable {C : Crates} {limit : UInt64} {h : Handle} {m : Bytes → Option Bytes}
variable {maps : List (Bytes → Option Bytes)} {options : DatabaseOptions} {durable kept : List Effect}

/-- Whenever power is lost during a compaction, the next open finds the map as it was, unless
some of the staging Base was kept and the marker in front of it was not.  Then no open succeeds. -/
theorem compact_power_loss (reach : Reach C limit (.opened h m maps)) (healthy : h.db.state = .healthy)
    (same : options.maxDatabaseBytes = limit)
    (remains : Effect.Remains (compactTrace C h) durable kept) :
    (∃ db d, openWithOptions C options (Disk.ofFile (Effect.applyAll h.disk.file (durable ++ kept)) []) =
        (.ok db, d) ∧ Shows C ⟨db, d⟩ m) ↔
      ¬MarkerLost h.disk.file.len durable kept := by
  have enough := reach.enough
  obtain ⟨holding, limits⟩ := reach.holds
  subst same
  obtain ⟨c, rfl, -, healthy⟩ : ∃ c : Contents C, c.map = m ∧ maps = [m] ∧ c.Healthy h := by
    cases holding with
    | healthy c map only healthy => exact ⟨c, map, only, healthy⟩
    | readOnly c map state => cases healthy.symm.trans state
    | lost state => cases healthy.symm.trans state
  have image := healthy.image
  have len : h.disk.file.len = c.logEnd := image.len
  rw [len]
  have opens : Stored C h.db.options.maxDatabaseBytes.toNat [c.map]
      (Effect.applyAll h.disk.file (durable ++ kept)) → ∃ db d, openWithOptions C options (Disk.ofFile
        (Effect.applyAll h.disk.file (durable ++ kept)) []) = (.ok db, d) ∧ Shows C ⟨db, d⟩ c.map := by
    intro stored
    rw [limits] at stored
    obtain ⟨c', db, d, map, opened, healthy', -⟩ := stored.open enough
    rw [← List.mem_singleton.mp map]
    exact ⟨db, d, opened, healthy'.shows⟩
  rcases Rewrite.compactTrace_guarded healthy with ⟨nothing, -⟩ | guarded
  · rw [nothing] at remains
    obtain ⟨rfl, rfl⟩ := Effect.remains_nil remains
    exact ⟨fun _ lost => lost.some rfl, fun _ => opens (Rewrite.stored_one healthy.room image.recovers)⟩
  · constructor
    · rintro ⟨db, d, opened, -⟩ lost
      exact (guarded.zeroed image remains lost).refused ⟨db, d, opened⟩
    · intro held
      exact opens (guarded.stored image remains held)

end PowerLoss

/-! ### The first small value -/

theorem compactTrace_put : ∃ (h : Handle) (c : Contents zeroHash), c.Healthy h ∧
    Reach zeroHash DatabaseOptions.default.maxDatabaseBytes (.opened h c.map [c.map]) ∧
    Rewrite.Guarded c h.db.options.maxDatabaseBytes.toNat h.disk.file (compactTrace zeroHash h) := by
  obtain ⟨h, batch, ops, healthy, guard, options, reach, -⟩ := reach_put
  have map : ((emptyContents zeroHash).commit batch).map = override (fun _ => none) [([1], some [2])] := by
    rw [Contents.commit_map, ops, emptyContents_map]
  refine ⟨h, (emptyContents zeroHash).commit batch, healthy, map.symm ▸ reach, ?_⟩
  rcases Rewrite.compactTrace_guarded healthy with ⟨-, settled | refused⟩ | guarded
  · exact absurd settled.fresh (List.append_ne_nil_of_right_ne_nil _ (List.cons_ne_nil _ _))
  · obtain ⟨-, h', ran, -⟩ := compact_put ops (healthy.afresh []) (List.forall_mem_nil _) guard options
    exact absurd (congrArg Prod.fst ran) refused
  · exact guarded

/-- The marker and all of the staging Base were kept, although no sync was completed. -/
theorem compact_power_loss_put : ∃ (h : Handle) (m : Bytes → Option Bytes) (kept : List Effect),
    Reach zeroHash DatabaseOptions.default.maxDatabaseBytes (.opened h m [m]) ∧ kept ≠ [] ∧
    Effect.Remains (compactTrace zeroHash h) [] kept ∧
    ∃ db d, openWithOptions zeroHash .default (Disk.ofFile (Effect.applyAll h.disk.file kept) []) =
      (.ok db, d) ∧ Shows zeroHash ⟨db, d⟩ m := by
  obtain ⟨h, c, healthy, reach, guarded⟩ := compactTrace_put
  obtain ⟨⟨kept, marker, remains⟩, -⟩ := guarded.unsynced healthy.image
  refine ⟨h, c.map, kept, reach, List.ne_nil_of_mem marker, remains, ?_⟩
  refine (compact_power_loss reach healthy.state rfl remains).mpr fun lost => lost.lost ?_
  have len : h.disk.file.len = c.logEnd := healthy.image.len
  rwa [len]

/-- The staging Base was kept and the marker in front of it was not: the database cannot be
opened any more. -/
theorem marker_lost_unreadable : ∃ (h : Handle) (m : Bytes → Option Bytes) (kept : List Effect),
    Reach zeroHash DatabaseOptions.default.maxDatabaseBytes (.opened h m [m]) ∧
    h.db.state = .healthy ∧ Effect.Remains (compactTrace zeroHash h) [] kept ∧
    ¬∃ db d, openWithOptions zeroHash .default (Disk.ofFile (Effect.applyAll h.disk.file kept) []) =
      (.ok db, d) := by
  obtain ⟨h, c, healthy, reach, guarded⟩ := compactTrace_put
  obtain ⟨-, kept, lost, remains⟩ := guarded.unsynced healthy.image
  exact ⟨h, c.map, kept, reach, healthy.state, remains, (guarded.zeroed healthy.image remains lost).refused⟩

end Lkv
