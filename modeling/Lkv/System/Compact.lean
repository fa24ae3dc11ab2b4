/-
# Lkv.System.Compact — compacting a healthy handle

What a compaction of a healthy handle will write is planned from the handle (`Rewrite.For`).
If it returns, the handle is healthy on the final contents; if it stops, the handle still
shows the same map and the file recovers to it, whatever the phase (`Holding`).  Wherever it
is cut short, the file recovers to the same map (`halted_keeps`, `finished_keeps`), given that
the root pages it writes cannot be torn into a third root (`Rewrite.Honest`).
-/
import Lkv.System.Rewrite

namespace Lkv
open Lkv.Theory Lkv.Theory.Prog Dictionary

set_option autoImplicit false

/-- What a handle is after an operation: `m` is the map it shows, `maps` are those its
file may recover to. -/
inductive Holding (C : Crates) (m : Bytes → Option Bytes) (maps : List (Bytes → Option Bytes))
    (h : Handle) : Prop
  | healthy (c : Contents C) (map : c.map = m) (only : maps = [m]) (healthy : c.Healthy h)
  | readOnly (c : Contents C) (map : c.map = m) (state : h.db.state = .writePoisoned)
      (serves : c.Serves h) (stored : Stored C h.db.options.maxDatabaseBytes.toNat maps h.disk.file)
  | lost (state : h.db.state = .unavailable)
      (stored : Stored C h.db.options.maxDatabaseBytes.toNat maps h.disk.file)

/-! ## What will be written -/

namespace Rewrite

variable {C : Crates} {c : Contents C} {r : Rewrite c} {h : Handle}

/-- What the compaction of a handle will write over its contents. -/
structure For (r : Rewrite c) (h : Handle) : Prop where
  move : r.move.For C c.Held h r.staging.entries r.staging.slots
  entries : r.final.entries = r.staging.entries
  slots : r.final.slots = r.staging.slots
  measured : measureBaseIter RawEntries.feed h.disk.file (h.db.iterRaw C) =
    .ok (r.staging.entries.length, segmentSize r.staging.slots r.staging.entries)

/-- Nothing but the file matters of the disk. -/
theorem For.disk {d : Disk} (plan : r.For h) (same : d.file = h.disk.file) :
    r.For { h with disk := d } where
  move := by
    obtain ⟨oldEnd, yields, enough, count, stagingBase, finalBase, staging, final, room, stable⟩ := plan.move
    rw [← same] at oldEnd stable
    exact ⟨oldEnd, yields, enough, count, stagingBase, finalBase, staging, final, room, stable⟩
  entries := plan.entries
  slots := plan.slots
  measured := by
    show measureBaseIter _ d.file _ = _
    rw [same]
    exact plan.measured

/-- No root page that is written can be torn into a third root. -/
structure Honest (r : Rewrite c) (f : File) : Prop where
  staging : r.staging.root.generation = c.root.generation + 1 →
    HonestTear (pageAt f r.staging.root.generation) r.staging.root.encodePage
  final : r.staging.root.generation = c.root.generation + 1 →
    r.final.root.generation = r.staging.root.generation + 1 →
    HonestTear (pageAt f c.root.generation) r.final.root.encodePage
  copy : r.staging.root.generation = c.root.generation + 1 →
    r.final.root.generation = r.staging.root.generation + 1 → r.final.root.generation + 1 < 2 ^ 64 →
    HonestTear r.staging.root.encodePage r.final.root.encodePage

theorem measure_cases (healthy : c.Healthy h) :
    (∃ error entries, measureBaseIter RawEntries.feed h.disk.file (h.db.iterRaw C) = fail error ∧
        error.TooLarge ∧ Lists c.map entries ∧
        ∀ slots, baseSlotCount entries.length = .ok slots → 2 ^ 64 ≤ segmentSize slots entries) ∨
      ∃ entries slots, Lists c.map entries ∧ (∀ entry ∈ entries, ValidEntry entry) ∧
        Yields RawEntries.feed c.Held (h.db.iterRaw C) entries ∧
        entries.length < RawEntries.feed.bound (h.db.iterRaw C) ∧
        baseSlotCount entries.length = .ok slots ∧ segmentSize slots entries < 2 ^ 64 ∧
        measureBaseIter RawEntries.feed h.disk.file (h.db.iterRaw C) =
          .ok (entries.length, segmentSize slots entries) := by
  obtain ⟨entries, lists, valid, enough, yields⟩ :=
    healthy.serves.views.yields h.db.base.verifier.semanticallyVerified
  rw [← healthy.serves.baseLen] at enough yields
  rcases measureBaseIter_spec yields healthy.serves.held enough with
    ⟨error, refused, large, excess⟩ | ⟨slots, count, small, ran⟩
  · exact .inl ⟨error, entries, refused, large, lists, excess⟩
  · exact .inr ⟨entries, slots, lists, valid, yields, enough, count, small, ran⟩

/-- Entries that were measured and fit can be rewritten. -/
theorem exists_for (healthy : c.Healthy h) {liveLen size : Nat}
    (measured : measureBaseIter RawEntries.feed h.disk.file (h.db.iterRaw C) = .ok (liveLen, size))
    (room : max (c.logEnd + logHeaderSize) (dataStart + size + logHeaderSize) + size ≤
      h.db.options.maxDatabaseBytes.toNat) :
    ∃ r : Rewrite c, r.For h ∧ liveLen = r.staging.entries.length ∧
      size = segmentSize r.staging.slots r.staging.entries := by
  have limit := h.db.options.maxDatabaseBytes.toNat_lt
  have generation : h.db.base.generation = c.root.generation := by
    rw [healthy.serves.base]
    rfl
  rcases measure_cases healthy with
    ⟨error, _, refused, -⟩ | ⟨entries, slots, lists, valid, yields, enough, count, small, ran⟩
  · exact absurd (measured.symm.trans refused) nofun
  obtain ⟨rfl, rfl⟩ := Prod.mk.inj (Except.ok.inj (measured.symm.trans ran))
  have dataSize : baseHeader + slots * slotSize + totalSize entries ≤ segmentSize slots entries := by
    unfold segmentSize
    omega
  generalize sourceIs : max (c.logEnd + logHeaderSize)
    (dataStart + segmentSize slots entries + logHeaderSize) = source at room
  have above : dataStart ≤ source := by omega
  obtain ⟨data, isBase⟩ : ∃ data, IsBase C source entries slots data :=
    exists_isBase C count valid (by omega) small
  obtain ⟨data', isBase'⟩ : ∃ data, IsBase C dataStart entries slots data :=
    exists_isBase C count valid (by omega) small
  have word : source + (segmentBytes data).length < 2 ^ 64 := by
    rw [isBase.segmentSize]
    omega
  have word' : dataStart + (segmentBytes data').length < 2 ^ 64 := by
    rw [isBase'.segmentSize]
    omega
  have mapIs : latest entries = c.map := lists.eq_latest.symm
  let r : Rewrite c :=
    { staging := .ofBase (c.root.generation + 1) source isBase lists.distinct above word
      final := .ofBase (c.root.generation + 1 + 1) dataStart isBase' lists.distinct le_rfl word'
      stagingMap := (Contents.ofBase_map ..).trans mapIs
      finalMap := (Contents.ofBase_map ..).trans mapIs
      stagingFresh := rfl
      finalFresh := rfl
      front := Contents.ofBase_baseOffset ..
      behind := by
        rw [Contents.ofBase_baseOffset]
        omega
      gap := by
        rw [Contents.ofBase_baseOffset, Contents.ofBase_logEnd, isBase'.segmentSize]
        omega
      word := by
        rw [Contents.ofBase_logEnd]
        exact word }
  refine ⟨r, ⟨?_, rfl, rfl, ran⟩, rfl, rfl⟩
  exact
    { oldEnd := healthy.image.len
      yields := yields
      enough := enough
      count := count
      stagingBase := r.staging.isBase
      finalBase := isBase'
      staging := by
        rw [generation]
        show _ = placedAt _ (max (c.logEnd + logHeaderSize)
          (dataStart + segmentSize slots entries + logHeaderSize)) entries slots data
        rw [sourceIs]
        rfl
      final := by
        rw [generation]
        rfl
      room := by
        show max (c.logEnd + logHeaderSize)
          (dataStart + segmentSize slots entries + logHeaderSize) + segmentSize slots entries ≤ _
        rw [sourceIs]
        exact room
      stable := fun g agrees => healthy.image.held.agrees agrees (.inl le_rfl) }

/-! ## Where it stops -/

section Outcome

variable {h' : Handle} {e : Stop} {staging final : List Effect} {limit : Nat} {quiet : Prop} {f : File}

theorem For.room (plan : r.For h) : r.staging.logEnd ≤ h.db.options.maxDatabaseBytes.toNat := by
  have ends := plan.move.sourceEnd
  have room := plan.move.room
  rw [← ends] at room
  rw [r.staging.logEnd_of_fresh r.stagingFresh]
  exact room

section Survives

variable (image : c.Image f []) (room : r.staging.logEnd ≤ limit) (honest : r.Honest f)
variable (next : r.staging.root.generation = c.root.generation + 1)
include image room honest next

theorem uptoSwitched_survives (writes : Writes quiet (r.move.marked f) r.move.staging staging) :
    Effect.Survives (Stored C limit [c.map]) f (r.move.uptoSwitched staging) := by
  refine (r.stage_survives image room writes).append ?_
  rw [Move.uptoStaged_apply writes]
  exact r.switch_survives image next room (honest.staging next)

theorem uptoMoved_survives (wrote : r.move.Wrote f quiet staging final) :
    Effect.Survives (Stored C limit [c.map]) f (r.move.uptoMoved staging final) := by
  refine (uptoSwitched_survives image room honest next wrote.staging).append ?_
  rw [Move.uptoSwitched_apply wrote.staging]
  exact r.move_survives image next room wrote.final

variable (last : r.final.root.generation = r.staging.root.generation + 1)
include last

theorem uptoSettled_survives (wrote : r.move.Wrote f quiet staging final) :
    Effect.Survives (Stored C limit [c.map]) f (r.move.uptoSettled staging final) := by
  refine (uptoMoved_survives image room honest next wrote).append ?_
  rw [Move.uptoMoved_apply wrote]
  exact r.settle_survives image next last room (honest.final next last)

theorem uptoDoubled_survives (small : r.final.root.generation + 1 < 2 ^ 64)
    (wrote : r.move.Wrote f quiet staging final) :
    Effect.Survives (Stored C limit [c.map]) f (r.move.uptoDoubled staging final) := by
  refine (uptoSettled_survives image room honest next last wrote).append ?_
  rw [Move.uptoSettled_apply wrote]
  exact r.double_survives image next last room (honest.copy next last small)

end Survives

/-- Rolling back to the end of the log, as far as it came. -/
theorem undo_survives {g : File} {tail : Bytes} {undo : List Effect} (image : c.Image g tail)
    (room : g.len ≤ limit)
    (how : undo = [] ∨ undo = [.setLen c.logEnd] ∨ undo = [.setLen c.logEnd, .sync]) :
    Effect.Survives (Stored C limit [c.map]) g undo ∧ c.Held (Effect.applyAll g undo) := by
  have before := stored_one room image.recovers
  have after : Stored C limit [c.map] (g.setLen c.logEnd) :=
    stored_one (image.long.trans room) image.truncate.recovers
  rcases how with rfl | rfl | rfl
  · exact ⟨Effect.survives_nil before, image.held⟩
  · exact ⟨Effect.survives_cons (fun _ => before) (Effect.survives_nil after), image.truncate.held⟩
  · exact ⟨Effect.survives_cons (fun _ => before) (Effect.survives_sync after
      (Effect.survives_nil after)), image.truncate.held⟩

/-- A staging that was rolled back. -/
theorem stageBroken_keeps {d d' : Disk} (image : c.Image d.file []) (room : r.staging.logEnd ≤ limit)
    (broken : StageBroken c.logEnd r.staging.root.baseOffset r.staging.root.logStart d d') :
    Disk.Keeps (Stored C limit [c.map]) d d' ∧ c.Held d'.file := by
  obtain ⟨done, undo, issued, which, how⟩ := broken
  have begun : Effect.Survives (Stored C limit [c.map]) d.file done ∧
      ∃ tail, c.Image (Effect.applyAll d.file done) tail := by
    rcases which with torn | ⟨staging, rfl, within⟩
    · refine ⟨torn.survives (r.stored_marking image room), ?_⟩
      rcases torn with rfl | ⟨n, rfl⟩
      · exact ⟨[], image⟩
      · exact ⟨_, image.mark (List.take_prefix n compactMarker) r.marker_word⟩
    · rw [← r.staging.logEnd_of_fresh r.stagingFresh] at within
      have agrees := Effect.applyAll_agrees within (r.move.marked d.file)
      refine ⟨Effect.survives_cons (r.stored_marking image room) (Effect.survives_within within
        fun g agrees => r.stored_marked image room agrees), ?_⟩
      exact ((r.marked_marked image).agrees agrees r.behind r.word).image
  obtain ⟨survives, tail, image'⟩ := begun
  obtain ⟨undone, held⟩ := undo_survives image' survives.final.1 how
  refine ⟨⟨_, issued, survives.append undone⟩, ?_⟩
  rw [issued.file, Effect.applyAll_append]
  exact held

/-- Wherever a compaction stopped, and wherever it would have been cut short before, the
file recovers to the same map. -/
theorem halted_keeps (healthy : c.Healthy h) (plan : r.For h) (honest : r.Honest h.disk.file)
    (halted : r.move.Halted r.staging.entries r.staging.slots h e h') :
    Disk.Keeps (Stored C h.db.options.maxDatabaseBytes.toNat [c.map]) h.disk h'.disk := by
  have image := healthy.image
  have room := plan.room
  have generation : h.db.base.generation = c.root.generation := by
    rw [healthy.serves.base]
    rfl
  cases halted with
  | staging failed db broken => exact (stageBroken_keeps image room broken).1
  | staged staging writes panicked overflow passed db issued =>
      exact ⟨_, issued, r.stage_survives image room writes⟩
  | switching staging effects writes failed next db part issued =>
      rw [generation] at next
      refine ⟨_, issued, (r.stage_survives image room writes).append ?_⟩
      rw [Move.uptoStaged_apply writes]
      rcases part with torn | rfl
      · exact torn.survives (r.stored_switching image next room (honest.staging next))
      · exact r.switch_survives image next room (honest.staging next)
  | moving staging part writes stopped next db within issued =>
      rw [generation] at next
      refine ⟨_, issued, (uptoSwitched_survives image room honest next writes).append ?_⟩
      rw [Move.uptoSwitched_apply writes]
      exact r.relocation_survives image next room within
  | settling staging final effects wrote failed next last db part issued =>
      rw [generation] at next
      refine ⟨_, issued, (uptoMoved_survives image room honest next wrote).append ?_⟩
      rw [Move.uptoMoved_apply wrote]
      exact part.survives (r.stored_settling image next last room (honest.final next last))
  | doubling staging final effects wrote failed next last small db part issued =>
      rw [generation] at next
      refine ⟨_, issued, (uptoSettled_survives image room honest next last wrote).append ?_⟩
      rw [Move.uptoSettled_apply wrote]
      exact part.survives (r.stored_doubling image next last room (honest.copy next last small))
  | settled staging final wrote panicked overflow passed next last db issued =>
      rw [generation] at next
      exact ⟨_, issued, uptoSettled_survives image room honest next last wrote⟩
  | cutting staging final effects wrote failed next last small db part issued =>
      rw [generation] at next
      refine ⟨_, issued, (uptoDoubled_survives image room honest next last small wrote).append ?_⟩
      rw [Move.uptoDoubled_apply wrote]
      exact r.cut_survives image next last room part

theorem finished_keeps (healthy : c.Healthy h) (plan : r.For h) (honest : r.Honest h.disk.file)
    (finished : r.move.Finished r.staging.entries r.staging.slots h h') :
    Disk.Keeps (Stored C h.db.options.maxDatabaseBytes.toNat [c.map]) h.disk h'.disk := by
  obtain ⟨next, last, small, -, staging, final, wrote, issued⟩ := finished
  have generation : h.db.base.generation = c.root.generation := by
    rw [healthy.serves.base]
    rfl
  rw [generation] at next
  refine ⟨_, issued, (uptoDoubled_survives healthy.image plan.room honest next last small wrote).append ?_⟩
  rw [Move.uptoDoubled_apply wrote]
  exact r.cut_survives healthy.image next last plan.room (.inr (.inr rfl))

/-- A handle that installed a Base and dropped its overlay serves that Base. -/
theorem serves_installed {c' : Contents C} (fresh : c'.batches = []) (serves : c.Serves h)
    (base : h'.db.base = PlacedBase.installed ⟨c'.root, c'.data⟩ c'.entries c'.slots)
    (cleared : h'.db.overlay = h.db.overlay.clear) (held : c'.Held h'.disk.file) : c'.Serves h' where
  base := by
    rw [base]
    rfl
  checks := by
    rw [base]
    exact c'.checks_verifierOf true
  held := held
  overlay := by
    obtain ⟨ops, ⟨bytes, mapping, table, tail, records, shape, -⟩, -⟩ := serves.overlay
    have index : h'.db.overlay.index = .mapped none [] [] := by
      rw [cleared, OverlayState.clear, shape]
      rfl
    have memory : h'.db.overlay.memory = 0 := by rw [cleared, OverlayState.clear]
    refine ⟨[], ?_, ?_, memory⟩
    · rw [index, Contents.log_of_fresh fresh]
      exact OverlayMap.indexOf_empty _
    · rw [fresh]
      exact fun _ => rfl

theorem finished_healthy (healthy : c.Healthy h) (plan : r.For h)
    (finished : r.move.Finished r.staging.entries r.staging.slots h h') : r.final.Healthy h' := by
  obtain ⟨next, last, small, db, staging, final, wrote, issued⟩ := finished
  have generation : h.db.base.generation = c.root.generation := by
    rw [healthy.serves.base]
    rfl
  rw [generation] at next
  have file : h'.disk.file = r.move.cut h.disk.file := by rw [issued.file, Move.effects_apply wrote]
  have image := r.cut_image next last healthy.image
  rw [← file] at image
  refine ⟨serves_installed r.finalFresh healthy.serves ?_ ?_ image.held, ?_, image, ?_⟩
  · rw [db, plan.entries, plan.slots]
    rfl
  · rw [db]
  · rw [db]
  · have room := plan.room
    have below := r.final_below.trans r.staging_end
    rw [image.len, db]
    exact below.trans room

/-- A handle that reads the staging Base serves it wherever the file still holds it. -/
theorem onStaging_serves (healthy : c.Healthy h)
    (base : h'.db.base = (r.move.onStaging r.staging.entries r.staging.slots h.db).base)
    (overlay : h'.db.overlay = (r.move.onStaging r.staging.entries r.staging.slots h.db).overlay)
    (held : r.staging.Held h'.disk.file) : r.staging.Serves h' :=
  serves_installed r.stagingFresh healthy.serves base overlay held

theorem torn_page_agrees {effects : List Effect} {root : Superblock} {generation : Nat}
    (torn : Io.Torn (Superblock.pageOffset generation) root.encodePage effects) (g : File) :
    File.AgreesOutside 0 dataStart g (Effect.applyAll g effects) := by
  rcases torn with rfl | ⟨n, rfl⟩
  · exact File.AgreesOutside.refl _ _ _
  · exact page_agrees g generation
      ((List.length_take_le' n _).trans root.encodePage_length.le)

/-- A compaction that failed leaves a handle that still shows the map, and a file that
recovers to it. -/
theorem halted_holding (healthy : c.Healthy h) (plan : r.For h) (honest : r.Honest h.disk.file)
    (halted : r.move.Halted r.staging.entries r.staging.slots h e h') (fails : ∃ error, e = .err error) :
    Holding C c.map [c.map] h' := by
  have image := healthy.image
  have stored := (halted_keeps healthy plan honest halted).now
  rw [← halted.config.options] at stored
  have generation : h.db.base.generation = c.root.generation := by
    rw [healthy.serves.base]
    rfl
  have panics : ¬∃ message, e = .panic message := by
    rintro ⟨message, rfl⟩
    obtain ⟨error, ⟨⟩⟩ := fails
  -- Two handles that no longer write: one still reads the old contents, one the staging ones.
  have old : h'.db = h.db.poisoned → c.Held h'.disk.file → Holding C c.map [c.map] h' := by
    intro db held
    refine .readOnly c rfl ?_ (healthy.serves.congr ?_ ?_ held) stored <;> rw [db] <;> rfl
  have new : h'.db = (r.move.onStaging r.staging.entries r.staging.slots h.db).poisoned →
      r.staging.Held h'.disk.file → Holding C c.map [c.map] h' := by
    intro db held
    refine .readOnly r.staging r.stagingMap ?_ (onStaging_serves healthy ?_ ?_ held) stored <;>
      rw [db] <;> rfl
  cases halted with
  | staging failed db broken => exact old db (stageBroken_keeps image plan.room broken).2
  | staged staging writes panicked => exact absurd panicked panics
  | switching staging effects writes failed next db part issued =>
      refine old db ?_
      rw [issued.file, Effect.applyAll_append, Move.uptoStaged_apply writes]
      refine (r.staged_marked image).held.page ?_
      rcases part with torn | rfl
      · exact torn_page_agrees torn _
      · exact page_agrees _ _ r.staging.root.encodePage_length.le
  | moving staging part writes stopped next db within issued =>
      rw [generation] at next
      have agrees := Effect.applyAll_agrees within (r.move.switched h.disk.file)
      rw [show r.move.final.root.logStart = r.final.logEnd from r.final_logStart] at agrees
      have image' := r.switched_agrees image next (agrees.mono le_rfl r.gap)
      have file : h'.disk.file = Effect.applyAll (r.move.switched h.disk.file) part := by
        rw [issued.file, Effect.applyAll_append, Move.uptoSwitched_apply writes]
      rw [← file] at image'
      refine .healthy r.staging r.stagingMap rfl
        ⟨onStaging_serves healthy ?_ ?_ image'.held, ?_, image', ?_⟩
      · rw [db]
      · rw [db]
      · rw [db]
        exact healthy.state
      · rw [image'.len, db]
        exact plan.room
  | settling staging final effects wrote failed next last db part issued =>
      rw [generation] at next
      refine new db ?_
      rw [issued.file, Effect.applyAll_append, Move.uptoMoved_apply wrote]
      exact (r.fenced_image image next).held.page (torn_page_agrees part _)
  | doubling staging final effects wrote failed next last small db part issued =>
      rw [generation] at next
      refine new db ?_
      rw [issued.file, Effect.applyAll_append, Move.uptoSettled_apply wrote]
      exact ((r.fenced_image image next).held.page
        (page_agrees _ _ r.final.root.encodePage_length.le)).page (torn_page_agrees part _)
  | settled staging final wrote panicked => exact absurd panicked panics
  | cutting staging final effects wrote failed next last small db part issued =>
      obtain ⟨detached, db⟩ := db
      exact .lost (by rw [db]) stored

end Outcome

end Rewrite

/-! ## The whole call -/

/-- The handle after the check that every compaction begins with. -/
def verified (C : Crates) (h : Handle) : Handle := (Database.verify C h).2

/-- A call that left everything as it was, but for what the verifier remembers. -/
structure Unchanged {C : Crates} (c : Contents C) (h h' : Handle) : Prop where
  healthy : c.Healthy h'
  disk : Disk.Issued [] h.disk h'.disk
  config : SameConfig h.db h'.db

namespace Contents

variable {C : Crates} {c : Contents C} {h : Handle}

/-- There is nothing to compact. -/
structure Settled (c : Contents C) : Prop where
  front : c.root.baseOffset = dataStart
  fresh : c.batches = []

theorem Healthy.verified (healthy : c.Healthy h) :
    ∃ v, Database.verify C h = (.ok (), Lkv.verified C h) ∧ Lkv.verified C h = h.withVerifier v ∧
      c.Checks v := by
  obtain ⟨v, ran, checks⟩ := healthy.serves.answers.verify healthy.available
  have same : Lkv.verified C h = h.withVerifier v := by rw [Lkv.verified, ran]
  exact ⟨v, by rw [same, ran], same, checks⟩

theorem Healthy.unchanged_verified (healthy : c.Healthy h) : Unchanged c h (Lkv.verified C h) := by
  obtain ⟨v, -, same, checks⟩ := healthy.verified
  rw [same]
  exact ⟨healthy.withVerifier checks, Disk.Issued.refl _, ⟨rfl, rfl⟩⟩

theorem log_eq_nil : c.log = [] ↔ c.batches = [] := by
  constructor
  · intro nothing
    cases batches : c.batches with
    | nil => rfl
    | cons batch rest =>
        rw [log, batches] at nothing
        have size := encodeBatch_length batch.ops
        have none : encodeBatch batch.ops = [] := List.flatMap_eq_nil_iff.mp nothing batch (by simp)
        rw [none, List.length_nil] at size
        unfold logHeaderSize at size
        omega
  · exact log_of_fresh

/-- The index is empty exactly when nothing was logged. -/
theorem Serves.index_isEmpty_iff (serves : c.Serves h) :
    h.db.overlay.index.isEmpty = true ↔ logOps c.batches = [] := by
  have noOps : ∀ {ops : List Operation}, (∀ key, latest ops key = none) → ops = [] := by
    intro ops absent
    refine List.eq_nil_iff_forall_not_mem.mpr fun op member => ?_
    exact latest_eq_none_iff.mp (absent op.1) (List.mem_map_of_mem member)
  obtain ⟨ops, ⟨bytes, mapping, table, tail, records, shape, -, indexed, opsIs⟩, same, -⟩ := serves.overlay
  rw [shape]
  constructor
  · intro isEmpty
    have none : table.length + tail.length = 0 := of_decide_eq_true isEmpty
    obtain rfl : table = [] := List.length_eq_zero_iff.mp (by omega)
    obtain rfl : tail = [] := List.length_eq_zero_iff.mp (by omega)
    cases indexed.decoded
    refine noOps fun key => ?_
    rw [← same, opsIs]
    rfl
  · intro nothing
    have none : ops = [] := noOps fun key => by rw [same, nothing]; rfl
    rw [opsIs, OverlayMap.indexOps, List.append_eq_nil_iff, List.map_eq_nil_iff] at none
    obtain ⟨rfl, rfl⟩ := none
    cases indexed.decoded
    rfl

theorem Serves.index_isEmpty (serves : c.Serves h) (fresh : c.batches = []) :
    h.db.overlay.index.isEmpty = true :=
  serves.index_isEmpty_iff.mpr (by rw [fresh]; rfl)

theorem wp_alreadyCompact (healthy : c.Healthy h) :
    wp Database.alreadyCompact
      (fun done h' => (done = true ↔ c.Settled) ∧ h'.db = h.db ∧ Disk.Issued [] h.disk h'.disk)
      (fun e h' => h.disk.Failed e ∧ h'.db = h.db ∧ Disk.Issued [] h.disk h'.disk) h := by
  have offset : h.db.base.offset = c.root.baseOffset := by
    rw [healthy.serves.base]
    rfl
  have logStart : h.db.base.logStart = c.root.logStart := by
    rw [healthy.serves.base]
    rfl
  have len : h.disk.file.len = c.root.logStart + c.log.length := healthy.image.len
  refine wp_bind (wp_state ?_)
  dsimp only
  split
  · rename_i candidate
    refine wp_bind (Db.wp_io (Io.wp_len ?_ fun error due => ⟨⟨due, error, rfl⟩, rfl, Disk.issued_tick _⟩))
    refine wp_pure ⟨?_, rfl, Disk.issued_tick _⟩
    rw [decide_eq_true_iff, logStart, len]
    constructor
    · intro ends
      exact ⟨offset ▸ candidate.1, log_eq_nil.mp (List.length_eq_zero_iff.mp (by omega))⟩
    · intro settled
      rw [log_of_fresh settled.fresh]
      rfl
  · rename_i others
    refine wp_pure ⟨⟨nofun, fun settled => ?_⟩, rfl, Disk.Issued.refl _⟩
    exact absurd ⟨offset.trans settled.front, healthy.serves.index_isEmpty settled.fresh⟩ others

end Contents

section Compact

variable {C : Crates} {c : Contents C} {h : Handle}

/-- The handle a compaction works on differs from a healthy one only in its disk. -/
theorem Contents.Healthy.unchanged {h₁ h' : Handle} (healthy : c.Healthy h₁) (db : h'.db = h₁.db)
    (issued : Disk.Issued [] h₁.disk h'.disk) (config : SameConfig h.db h₁.db)
    (before : Disk.Issued [] h.disk h₁.disk) : Unchanged c h h' := by
  have same : h' = { h₁ with disk := h'.disk } := by
    cases h'
    cases db
    rfl
  refine ⟨?_, before.trans issued, db ▸ config⟩
  rw [same]
  exact healthy.disk issued.kept

/-- What precedes the writing. -/
theorem wp_compact_start {Q : Unit → Handle → Prop} {E : Stop → Handle → Prop} (healthy : c.Healthy h)
    (guarded : h.db.snapshotGuard ≠ 1 → ∀ error, E (.err error) h)
    (failed : ∀ e h', h.disk.Failed e → Unchanged c h h' → E e h')
    (settled : c.Settled → ∀ h', Unchanged c h h' → Q () h')
    (refused : ¬c.Settled → ∀ error h', measureBaseIter RawEntries.feed (verified C h).disk.file
      ((verified C h).db.iterRaw C) = fail error → Unchanged c h h' → E (.err error) h')
    (writes : h.db.snapshotGuard = 1 → ¬c.Settled → ∀ liveLen size d,
      measureBaseIter RawEntries.feed (verified C h).disk.file ((verified C h).db.iterRaw C) =
        .ok (liveLen, size) → Disk.Issued [] (verified C h).disk d → (verified C h).disk.Passed d →
      wp (Database.compactFile C liveLen size) Q E { verified C h with disk := d }) :
    wp (Database.compact C) Q E h := by
  obtain ⟨v, ran, same, checks⟩ := healthy.verified
  have checked := healthy.unchanged_verified
  unfold Database.compact
  refine wp_bind (Database.wp_ensureWritable (fun _ => ?_) fun poisoned => absurd healthy.state poisoned)
  refine wp_bind (wp_state ?_)
  by_cases guard : h.db.snapshotGuard = 1
  swap
  · rw [if_pos guard]
    exact wp_stop (guarded guard _)
  rw [if_neg (not_not.mpr guard)]
  refine wp_bind (show wp (Database.verify C) _ _ h from ?_)
  unfold wp
  rw [ran]
  generalize verified C h = h₁ at checked refused writes
  have keep : ∀ {h' : Handle}, h'.db = h₁.db → Disk.Issued [] h₁.disk h'.disk → Unchanged c h h' :=
    fun db issued => checked.healthy.unchanged db issued checked.config checked.disk
  show wp _ _ _ h₁
  refine wp_bind (wp_mono (wp_along Database.along_alreadyCompact
    (Contents.wp_alreadyCompact checked.healthy)) ?_ fun e h' stopped =>
      failed e h' (checked.disk.failed stopped.1) (keep stopped.2.1 stopped.2.2))
  rintro done ⟨db2, d2⟩ ⟨passed, already, rfl, issued2⟩
  cases done with
  | true => exact wp_pure (settled (already.mp rfl) _ (keep rfl issued2))
  | false =>
      have unsettled : ¬c.Settled := fun settled => absurd (already.mpr settled) Bool.false_ne_true
      refine wp_bind (wp_state ?_)
      dsimp only
      rw [issued2.kept]
      cases measured : measureBaseIter RawEntries.feed h₁.disk.file (h₁.db.iterRaw C) with
      | error e =>
          refine wp_bind (wp_lift nofun ?_)
          rintro _ ⟨⟩
          rcases Rewrite.measure_cases checked.healthy with
            ⟨error, _, stopped, -⟩ | ⟨_, _, _, _, _, _, _, _, ran⟩
          · cases measured.symm.trans stopped
            exact refused unsettled _ _ measured (keep rfl issued2)
          · cases measured.symm.trans ran
      | ok sizes =>
          obtain ⟨liveLen, size⟩ := sizes
          refine wp_bind (wp_lift ?_ nofun)
          rintro _ ⟨⟩
          exact writes guard unsettled liveLen size d2 measured issued2 passed

/-- A compaction either has nothing to do, or is refused, or it does what `Rewrite.For`
says, as far as it comes. -/
theorem wp_compact (healthy : c.Healthy h) :
    wp (Database.compact C)
      (fun _ h' => c.Settled ∧ Unchanged c h h' ∨ h.db.snapshotGuard = 1 ∧ ¬c.Settled ∧
        ∃ r : Rewrite c, r.For (verified C h) ∧
          r.move.Finished r.staging.entries r.staging.slots (verified C h) h')
      (fun e h' => (∃ error, e = .err error ∧
          (¬h.disk.Quiet ∨ h.db.snapshotGuard ≠ 1 ∨ error.TooLarge)) ∧ Unchanged c h h' ∨
        h.db.snapshotGuard = 1 ∧ ¬c.Settled ∧
        ∃ r : Rewrite c, r.For (verified C h) ∧
          r.move.Halted r.staging.entries r.staging.slots (verified C h) e h') h := by
  have checked := healthy.unchanged_verified
  have keep : ∀ {h' : Handle}, h'.db = (verified C h).db →
      Disk.Issued [] (verified C h).disk h'.disk → Unchanged c h h' :=
    fun db issued => checked.healthy.unchanged db issued checked.config checked.disk
  refine wp_compact_start healthy
    (fun other error => .inl ⟨⟨error, rfl, .inr (.inl other)⟩, healthy, Disk.Issued.refl _, ⟨rfl, rfl⟩⟩)
    ?_ (fun settled h' same => .inl ⟨settled, same⟩) ?_ ?_
  · rintro e h' ⟨loud, error, rfl⟩ same
    exact .inl ⟨⟨error, rfl, .inl loud⟩, same⟩
  · intro _ error h' refused same
    rcases Rewrite.measure_cases checked.healthy with ⟨_, _, ran, large, -⟩ | ⟨_, _, _, _, _, _, _, _, ran⟩
    · cases refused.symm.trans ran
      exact .inl ⟨⟨error, rfl, .inr (.inr large)⟩, same⟩
    · cases refused.symm.trans ran
  intro guard unsettled liveLen size d measured issued passed
  by_cases room : max (c.logEnd + logHeaderSize) (dataStart + size + logHeaderSize) + size ≤
      (verified C h).db.options.maxDatabaseBytes.toNat
  · obtain ⟨r, plan, rfl, rfl⟩ := Rewrite.exists_for checked.healthy measured room
    refine wp_mono (wp_compactFile plan.move issued passed)
      (fun _ h' finished => .inr ⟨guard, unsettled, r, plan, finished⟩) ?_
    rintro e h' (⟨failed, db, kept⟩ | halted)
    · obtain ⟨loud, error, rfl⟩ := checked.disk.failed failed
      exact .inl ⟨⟨error, rfl, .inl loud⟩, keep db kept⟩
    · exact .inr ⟨guard, unsettled, r, plan, halted⟩
  · have len : (verified C h).disk.file.len = c.logEnd := checked.healthy.image.len
    rw [← len, Nat.not_le] at room
    refine wp_mono (wp_compactFile_refused room issued) (fun _ _ => False.elim) ?_
    rintro e h' ⟨⟨error, rfl, why⟩, db, kept⟩
    exact .inl ⟨⟨error, rfl, why.imp (mt checked.disk.quiet) .inr⟩, keep db kept⟩

/-- The same when it is known that there is room: only a failing call or a generation that
overflows keeps it from finishing. -/
theorem wp_compact_for {r : Rewrite c} (healthy : c.Healthy h) (guard : h.db.snapshotGuard = 1)
    (unsettled : ¬c.Settled) (plan : r.For (verified C h)) :
    wp (Database.compact C)
      (fun _ h' => r.move.Finished r.staging.entries r.staging.slots (verified C h) h')
      (fun e h' => h.disk.Failed e ∨
        r.move.Halted r.staging.entries r.staging.slots (verified C h) e h') h := by
  have checked := healthy.unchanged_verified
  refine wp_compact_start healthy (fun other => absurd guard other) (fun e h' failed _ => .inl failed)
    (fun settled => absurd settled unsettled) (fun _ error h' refused _ => ?_) ?_
  · cases plan.measured.symm.trans refused
  · intro _ _ liveLen size d ran issued passed
    cases plan.measured.symm.trans ran
    refine wp_mono (wp_compactFile plan.move issued passed) (fun _ h' => id) ?_
    rintro e h' (⟨failed, -, -⟩ | halted)
    · exact .inl (checked.disk.failed failed)
    · exact .inr halted

end Compact

/-! ## Torn root pages -/

/-- No page that is written over one of the two root pages can be torn into a third. -/
def HonestPages (f : File) (effects : List Effect) : Prop :=
  ∀ before offset page after, effects = before ++ .write offset page :: after →
    page.length = superblockSize → offset + superblockSize ≤ dataStart →
      HonestTear ((Effect.applyAll f before).slice offset superblockSize) page

theorem HonestPages.page {f : File} {effects before after : List Effect} (honest : HonestPages f effects)
    (generation : Nat) (root : Superblock)
    (part : before ++ .write (Superblock.pageOffset generation) root.encodePage :: after <+: effects) :
    HonestTear (pageAt (Effect.applyAll f before) generation) root.encodePage := by
  obtain ⟨rest, whole⟩ := part
  refine honest before _ _ (after ++ rest) ?_ root.encodePage_length (pageOffset_end_le generation)
  rw [← whole, List.append_assoc, List.cons_append]

section Pages

variable {f : File} {effects first second : List Effect}

theorem HonestPages.append (one : HonestPages f first) (two : HonestPages (Effect.applyAll f first) second) :
    HonestPages f (first ++ second) := by
  intro before offset page after split length inside
  rcases List.append_eq_append_iff.mp split with ⟨more, rfl, later⟩ | ⟨more, split, later⟩
  · rw [Effect.applyAll_append]
    exact two more offset page after later length inside
  · cases more with
    | nil =>
        rw [List.append_nil] at split
        subst split
        exact two [] offset page after later.symm length inside
    | cons e more =>
        obtain ⟨rfl, -⟩ := List.cons.inj later
        exact one before offset page more split length inside

/-- What is written behind the pages touches none of them. -/
theorem honestPages_behind (behind : ∀ offset bytes, .write offset bytes ∈ effects → dataStart ≤ offset) :
    HonestPages f effects := by
  rintro before offset page after rfl length inside
  have := behind offset page (by simp)
  unfold superblockSize at inside
  omega

theorem honestPages_page {generation : Nat} {root : Superblock}
    (honest : HonestTear (pageAt f generation) root.encodePage) :
    HonestPages f [.write (Superblock.pageOffset generation) root.encodePage] := by
  intro before offset page after split length inside
  cases before with
  | nil =>
      obtain ⟨same, -⟩ := List.cons.inj split
      cases same
      exact honest
  | cons e before => simp at split

end Pages

/-- What a compaction issues if no call fails. -/
def compactTrace (C : Crates) (h : Handle) : List Effect :=
  (Database.compact C (h.afresh [])).2.disk.trace

section Honest

variable {C : Crates} {c : Contents C} {h : Handle} {r : Rewrite c}

theorem verified_eq (available : h.db.state ≠ .unavailable) :
    verified C h = h.withVerifier (h.db.base.verify C h.disk.file h.db.base.verifier).2 := by
  unfold verified Database.verify
  rw [bind_ok (Contents.ensureAvailable_run available), bind_run, state_run]
  rfl

theorem verified_disk (available : h.db.state ≠ .unavailable) {d : Disk} (same : d.file = h.disk.file) :
    verified C { h with disk := d } = { verified C h with disk := d } := by
  rw [verified_eq available]
  refine (verified_eq (show ({ h with disk := d } : Handle).db.state ≠ _ from available)).trans ?_
  rw [same]
  rfl

/-- What a fault-free compaction issues reaches as far as the generations do. -/
theorem compactTrace_cases (healthy : c.Healthy h) (guard : h.db.snapshotGuard = 1)
    (unsettled : ¬c.Settled) (plan : r.For (verified C h))
    (next : r.staging.root.generation = c.root.generation + 1) :
    (∃ staging, Writes True (r.move.marked h.disk.file) r.move.staging staging ∧
      r.move.uptoSwitched staging <+: compactTrace C h) ∧
    (r.final.root.generation = r.staging.root.generation + 1 →
      ∃ staging final, r.move.Wrote h.disk.file True staging final ∧
        r.move.uptoSettled staging final <+: compactTrace C h ∧
        (r.final.root.generation + 1 < 2 ^ 64 → r.move.uptoDoubled staging final <+: compactTrace C h)) := by
  obtain ⟨v, -, verifiedIs, -⟩ := healthy.verified
  have generation : (verified C h).db.base.generation = c.root.generation := by
    rw [verifiedIs, Handle.withVerifier, healthy.serves.base]
    rfl
  have stagingWord : r.staging.root.generation < 2 ^ 64 := r.staging.root.words.1
  have finalWord : r.final.root.generation < 2 ^ 64 := r.final.root.words.1
  have quiet := Disk.quiet_afresh h.disk
  have always : (h.disk.afresh []).Quiet = True := eq_true quiet
  have checked : verified C (h.afresh []) = { verified C h with disk := h.disk.afresh [] } :=
    verified_disk healthy.available rfl
  have onlyFile : (h.disk.afresh []).file = (verified C h).disk.file := by
    rw [verifiedIs]
    rfl
  have fresh : c.Healthy (h.afresh []) := healthy.disk rfl
  have ran := wp_compact_for fresh guard unsettled (checked ▸ plan.disk onlyFile)
  rw [checked] at ran
  unfold wp at ran
  unfold compactTrace
  generalize Database.compact C _ = outcome at ran
  obtain ⟨result, h'⟩ := outcome
  cases result with
  | ok _ =>
      obtain ⟨staging, final, wrote, issued⟩ := ran.issued
      have trace : h'.disk.trace = r.move.effects staging final := issued.trace
      have doubled : r.move.uptoDoubled staging final <+: h'.disk.trace :=
        trace ▸ List.prefix_append _ _
      have settled : r.move.uptoSettled staging final <+: h'.disk.trace :=
        (List.prefix_append _ _).trans doubled
      have moved : r.move.uptoMoved staging final <+: h'.disk.trace :=
        (List.prefix_append _ _).trans settled
      rw [always] at wrote
      exact ⟨⟨staging, wrote.staging, (List.prefix_append _ _).trans moved⟩,
        fun _ => ⟨staging, final, wrote, settled, fun _ => doubled⟩⟩
  | error e =>
      rcases ran with failed | halted
      · exact absurd quiet failed.1
      cases halted with
      | staging failed => exact absurd quiet failed.1
      | switching _ _ _ failed => exact absurd quiet failed.1
      | settling _ _ _ _ failed => exact absurd quiet failed.1
      | doubling _ _ _ _ failed => exact absurd quiet failed.1
      | cutting _ _ _ _ failed => exact absurd quiet failed.1
      | staged staging writes panicked overflow passed db issued =>
          replace overflow : 2 ^ 64 ≤ (verified C h).db.base.generation + 1 := overflow
          omega
      | moving staging part writes stopped _ db within issued =>
          have trace : h'.disk.trace = r.move.uptoSwitched staging ++ part := issued.trace
          rcases stopped with failed | ⟨overflow, -, -⟩
          · exact absurd quiet failed.1
          replace overflow : 2 ^ 64 ≤ (verified C h).db.base.generation + 2 := overflow
          rw [always] at writes
          exact ⟨⟨staging, writes, trace ▸ List.prefix_append _ _⟩, fun last => by omega⟩
      | settled staging final wrote panicked overflow passed _ last db issued =>
          have trace : h'.disk.trace = r.move.uptoSettled staging final := issued.trace
          replace overflow : 2 ^ 64 ≤ (verified C h).db.base.generation + 3 := overflow
          rw [always] at wrote
          have moved : r.move.uptoMoved staging final <+: h'.disk.trace := trace ▸ List.prefix_append _ _
          exact ⟨⟨staging, wrote.staging, (List.prefix_append _ _).trans moved⟩,
            fun last => ⟨staging, final, wrote, trace ▸ List.prefix_rfl, fun small => by omega⟩⟩

theorem Rewrite.honest_of_trace (healthy : c.Healthy h) (guard : h.db.snapshotGuard = 1)
    (unsettled : ¬c.Settled) (plan : r.For (verified C h))
    (honest : HonestPages h.disk.file (compactTrace C h)) : r.Honest h.disk.file := by
  have traced := compactTrace_cases healthy guard unsettled plan
  refine ⟨fun next => ?_, fun next last => ?_, fun next last small => ?_⟩
  · obtain ⟨staging, writes, switched⟩ := (traced next).1
    have page := honest.page _ r.staging.root switched
    rwa [Move.uptoStaged_apply writes, r.staged_page] at page
  · obtain ⟨staging, final, wrote, settled, -⟩ := (traced next).2 last
    have page := honest.page _ r.final.root settled
    rw [Move.uptoMoved_apply wrote, r.fenced_page] at page
    rw [← r.switched_other next, ← last]
    exact page
  · obtain ⟨staging, final, wrote, -, doubled⟩ := (traced next).2 last
    have page := honest.page _ r.final.root (doubled small)
    rw [Move.uptoSettled_apply wrote] at page
    rw [← r.settled_other last]
    exact page

/-- Three pages are written. -/
theorem Rewrite.Honest.pages {f : File} {quiet : Prop} {staging final : List Effect}
    (honest : r.Honest f) (wrote : r.move.Wrote f quiet staging final)
    (next : r.staging.root.generation = c.root.generation + 1)
    (last : r.final.root.generation = r.staging.root.generation + 1)
    (small : r.final.root.generation + 1 < 2 ^ 64) :
    HonestPages f (r.move.effects staging final) := by
  have above := c.dataStart_le_logEnd
  have base : dataStart ≤ r.staging.root.baseOffset := r.staging.above
  have front : dataStart ≤ r.final.root.logStart := r.final_logStart ▸ r.final.dataStart_le_logEnd
  have staged : HonestPages f (r.move.uptoStaged staging) := by
    refine honestPages_behind fun offset bytes member => ?_
    rcases List.mem_append.mp member with member | member
    · rcases List.mem_cons.mp member with same | member
      · cases same
        exact above
      · exact base.trans (wrote.staging.within _ member).1
    · simp at member
  have switched : HonestPages f (r.move.uptoSwitched staging) := by
    refine staged.append ((honestPages_page ?_).append (honestPages_behind (by simp)))
    rw [Move.uptoStaged_apply wrote.staging]
    exact (r.staged_page _).symm ▸ honest.staging next
  have moved : HonestPages f (r.move.uptoMoved staging final) := by
    refine switched.append (honestPages_behind fun offset bytes member => ?_)
    rcases List.mem_append.mp member with member | member
    · rcases List.mem_append.mp member with member | member
      · have within := (wrote.final.within _ member).1
        exact r.final.above.trans within
      · cases List.mem_singleton.mp member
        exact front
    · simp at member
  have settled : HonestPages f (r.move.uptoSettled staging final) := by
    refine moved.append ((honestPages_page ?_).append (honestPages_behind (by simp)))
    rw [Move.uptoMoved_apply wrote, r.fenced_page]
    have page := honest.final next last
    rw [← r.switched_other next, ← last] at page
    exact page
  have doubled : HonestPages f (r.move.uptoDoubled staging final) := by
    refine settled.append ((honestPages_page ?_).append (honestPages_behind (by simp)))
    rw [Move.uptoSettled_apply wrote]
    exact (r.settled_other last).symm ▸ honest.copy next last small
  exact doubled.append (honestPages_behind (by simp [Move.cutEffects]))

end Honest

end Lkv
