/-
# Lkv.System.Serving — a view that shows the contents

`Contents.Views c view f`: the view maps the Base of `c` and indexes its log, and the
file `f` still holds both.  Whatever its verifier remembers (`Contents.Checks`), such a
view answers with the map of `c`: point reads (`Displays.get`), iteration
(`Displays.iterAll`), counting (`Displays.rawLen`), and the iterator that feeds a compaction,
which must not be disturbed by what the compaction writes (`Views.yields`).  Reading takes no
more of a view than that it has the bytes of the Base and the operations of the log
(`Displays`), so the same holds where they are kept in memory.

`Serves c h` says this of a handle, and `Healthy c h` adds that its file is a clean image
of `c`, so that the handle and a reopened one agree.
-/
import Lkv.System.Image

namespace Lkv
open Lkv.Theory Lkv.Theory.Prog Dictionary SegmentVerifier

set_option autoImplicit false

namespace Contents

variable {C : Crates} {c : Contents C} {f : File} {view : ReadView} {v v' : SegmentVerifier}

/-- A verifier of the Base, in any state it can be in. -/
structure Checks (c : Contents C) (v : SegmentVerifier) : Prop where
  size : v.dataSize = c.data.length
  table : v.checksums = blockChecksums c.data
  sound : v.Sound (segmentBytes c.data)

structure Views (c : Contents C) (view : ReadView) (f : File) : Prop where
  base : view.base =
    ⟨.mapped c.root.baseOffset c.root.baseSize, c.root.baseOffset, c.slots, c.data.length⟩
  held : c.Held f
  overlay : ∃ ops, OverlayMap.IndexOf c.root.logStart c.log ops view.overlay ∧
    ∀ key, latest ops key = latest (logOps c.batches) key

theorem Held.deref (held : c.Held f) :
    (BaseBytes.mapped c.root.baseOffset c.root.baseSize).deref f = segmentBytes c.data := by
  rw [c.size]
  exact held.base

theorem Views.deref (views : c.Views view f) : view.base.mapping.deref f = segmentBytes c.data := by
  rw [views.base]
  exact views.held.deref

/-! ## The verifier -/

theorem checks_verifierOf (c : Contents C) (full : Bool) :
    c.Checks (verifierOf c.root.baseOffset c.data c.data full) :=
  ⟨rfl, verifierOf_checksums .., sound_verifierOf rfl fun _ _ _ => rfl⟩

theorem Checks.next (checks : c.Checks v) (same : Same v v')
    (sound : v'.Sound (segmentBytes c.data)) : c.Checks v' :=
  ⟨same.dataSize.trans checks.size, same.checksums.trans checks.table, sound⟩

theorem Checks.allMatch (checks : c.Checks v) : AllMatch (segmentBytes c.data) v :=
  allMatch_written checks.size checks.table

theorem Checks.semantic (checks : c.Checks v) : c.Checks { v with semanticallyVerified := true } :=
  ⟨checks.size, checks.table, checks.sound.1, checks.sound.2, checks.sound.3, checks.sound.4,
    checks.sound.5, checks.sound.6⟩

/-! ## Reading -/

theorem lookup_eq (c : Contents C) (checks : c.Checks v) (verification : VerificationMode)
    (key : Bytes) :
    ∃ v', lookupSegment (segmentBytes c.data) verification c.root.baseOffset c.slots key (C.hash key)
        v = (.ok (latest c.entries key), v') ∧ c.Checks v' := by
  obtain ⟨v', ran, same, sound⟩ := c.isBase.lookup c.distinct checks.size checks.table checks.sound
    verification key
  exact ⟨v', ran, checks.next same sound⟩

/-- The view shows the Base and the log of the contents, wherever it has their bytes from. -/
structure Displays (c : Contents C) (view : ReadView) (f : File) : Prop where
  deref : view.base.mapping.deref f = segmentBytes c.data
  offset : view.base.offset = c.root.baseOffset
  slots : view.base.slots = c.slots
  size : view.base.dataSize = c.data.length
  overlay : ∃ ops, view.overlay.Decodes f ops ∧ Distinct ops ∧
    ∀ key, latest ops key = latest (logOps c.batches) key

theorem Views.displays (views : c.Views view f) : c.Displays view f where
  deref := views.deref
  offset := by rw [views.base]
  slots := by rw [views.base]
  size := by rw [views.base]
  overlay := by
    obtain ⟨ops, index, same⟩ := views.overlay
    exact ⟨ops, index.decodes views.held.log, index.distinct, same⟩

/-- A point read answers with the map. -/
theorem Displays.get (displays : c.Displays view f) (checks : c.Checks v) (key : Bytes) :
    ∃ v', view.get C f key v = (.ok (c.map key), v') ∧ c.Checks v' := by
  obtain ⟨ops, decodes, -, same⟩ := displays.overlay
  have hashed : view.overlay.getHashed f key = .ok (latest (logOps c.batches) key) := by
    rw [OverlayMap.getHashed_eq decodes key, ← same key]
  have mapIs : c.map key = (latest (logOps c.batches) key).getD (latest c.entries key) := rfl
  unfold ReadView.get
  rw [bind_run, lift_run, hashed, mapIs]
  cases latest (logOps c.batches) key with
  | some value => exact ⟨v, rfl, checks⟩
  | none =>
      dsimp only
      rw [displays.deref, displays.offset, displays.slots]
      exact c.lookup_eq checks view.verification key

/-- The iterator of the view, and the pairs it will yield. -/
theorem Displays.iterates (displays : c.Displays view f) (trusted : Bool) :
    ∃ ops visited, view.overlay.Decodes f ops ∧ view.overlay.Visits C f visited ∧
      Iterates f (RawEntries.new C view trusted c.entries.length)
        (placed (baseHeader + c.slots * slotSize) c.entries) none ops visited ∧
      Lists c.map (pairsOf (placed (baseHeader + c.slots * slotSize) c.entries) ops visited) := by
  obtain ⟨ops, decodes, distinct, same⟩ := displays.overlay
  obtain ⟨visited, perm, visits⟩ := OverlayMap.iter_decodes C decodes
  have deref := displays.deref
  have size := displays.size
  refine ⟨ops, visited, decodes, visits, ?_, ?_⟩
  · refine iterates_new C ?_ ?_ ?_ (fun _ => rfl) decodes visits
    · rw [size, deref, segmentBytes_length]
      omega
    · rw [size]
      exact c.isBase.roomy.1
    · rw [size, displays.slots, deref]
      exact c.isBase.walk_eq
  · have lists := (lists_latest c.distinct).override distinct
    have mapIs : c.map = override (latest c.entries) ops :=
      (override_congr fun key => (same key)).symm
    rw [mapIs, pairsOf, placed_map_snd]
    exact lists.perm (List.Perm.append_left _ (perm.symm.filterMap _))

/-- A complete iteration yields every pair of the map once, whatever is verified already. -/
theorem Displays.pairs (displays : c.Displays view f) : ∃ pairs, Lists c.map pairs ∧
    ∀ v, c.Checks v →
      ∃ v', view.iterAll C f c.entries.length v = (.ok (pairs.map .ok), v') ∧ c.Checks v' := by
  obtain ⟨ops, visited, decodes, visits, iterates, lists⟩ := displays.iterates true
  have deref := displays.deref
  refine ⟨_, lists, fun v checks => ?_⟩
  obtain ⟨v', ran, sound, same⟩ := @iterAll_eq _ _ _ _ _ v C c.entries.length iterates.inside
    iterates.word iterates.walk decodes visits (checks.size.trans displays.size.symm)
    (fun _ => deref ▸ checks.sound) (fun _ => deref ▸ checks.allMatch)
  rw [deref] at sound
  refine ⟨v', ?_, checks.next same (sound checks.sound)⟩
  rw [ran, ← items_pairs, List.map_map]
  rfl

theorem Displays.iterAll (displays : c.Displays view f) (checks : c.Checks v) :
    ∃ pairs v', view.iterAll C f c.entries.length v = (.ok (pairs.map .ok), v') ∧
      Lists c.map pairs ∧ c.Checks v' := by
  obtain ⟨pairs, lists, all⟩ := displays.pairs
  obtain ⟨v', ran, checks'⟩ := all v checks
  exact ⟨pairs, v', ran, lists, checks'⟩

/-- Counting gives the size of the map. -/
theorem Displays.rawLen (displays : c.Displays view f) (trusted : Bool) :
    (RawEntries.new C view trusted c.entries.length).rawLen f =
      .ok {key | c.map key ≠ none}.ncard := by
  obtain ⟨ops, visited, -, -, iterates, lists⟩ := displays.iterates trusted
  rw [rawLen_eq iterates, lists.ncard, ← items_pairs, List.length_map]

/-! ## Feeding a writer -/

/-- What a client can find in the database can be written again. -/
theorem valid_of_map (c : Contents C) {key value : Bytes} (found : c.map key = some value) :
    ValidEntry (key, value) := by
  unfold Contents.map override at found
  cases logged : latest (logOps c.batches) key with
  | none =>
      rw [logged] at found
      exact c.isBase.valid _ (mem_of_latest found)
  | some set =>
      rw [logged] at found
      obtain ⟨batch, -, member⟩ := List.mem_flatMap.mp (mem_of_latest logged)
      have value := batch.values _ member
      cases found
      exact ⟨batch.keys _ member, value⟩

theorem Views.congr {f' : File} (views : c.Views view f) (held : c.Held f') :
    view.base.mapping.deref f' = view.base.mapping.deref f ∧
      view.overlay.log f' = view.overlay.log f := by
  constructor
  · rw [views.deref, views.base]
    exact held.deref
  · obtain ⟨ops, ⟨bytes, mapping, table, tail, records, shape, maps, -, -⟩, -⟩ := views.overlay
    rw [shape]
    exact (maps.deref held.log).trans (maps.deref views.held.log).symm

/-- The iterator yields the pairs of the map as long as the bytes that the view shows stay. -/
theorem Displays.yields (displays : c.Displays view f) {P : File → Prop} (trusted : Bool)
    (stays : ∀ f', P f' → view.base.mapping.deref f' = view.base.mapping.deref f ∧
      view.overlay.log f' = view.overlay.log f) :
    ∃ pairs, Lists c.map pairs ∧ (∀ pair ∈ pairs, ValidEntry pair) ∧
      pairs.length < RawEntries.feed.bound (RawEntries.new C view trusted c.entries.length) ∧
      Yields RawEntries.feed P (RawEntries.new C view trusted c.entries.length) pairs := by
  obtain ⟨ops, visited, -, -, iterates, lists⟩ := displays.iterates trusted
  have enough := iterates.length_le
  have yields := yields_of_iterates iterates stays
  rw [← items_pairs] at lists
  refine ⟨_, lists, ?_, ?_, yields⟩
  · rintro ⟨key, value⟩ member
    exact c.valid_of_map ((lists.mem key value).mp member)
  · rw [List.length_map]
    exact lt_of_lt_of_le (by omega) enough

theorem Views.yields (views : c.Views view f) (trusted : Bool) :
    ∃ pairs, Lists c.map pairs ∧ (∀ pair ∈ pairs, ValidEntry pair) ∧
      pairs.length < RawEntries.feed.bound (RawEntries.new C view trusted c.entries.length) ∧
      Yields RawEntries.feed c.Held (RawEntries.new C view trusted c.entries.length) pairs :=
  views.displays.yields trusted fun _ held => views.congr held

/-! ## Handles -/

/-- The Base a handle has installed. -/
def activeBase (c : Contents C) (v : SegmentVerifier) : ActiveBase :=
  .new (.mapped c.root.baseOffset c.root.baseSize) v c.root c.slots c.entries.length

/-- The handle reads the contents. -/
structure Serves (c : Contents C) (h : Handle) : Prop where
  base : h.db.base = c.activeBase h.db.base.verifier
  checks : c.Checks h.db.base.verifier
  held : c.Held h.disk.file
  overlay : ∃ ops, OverlayMap.IndexOf c.root.logStart c.log ops h.db.overlay.index ∧
    (∀ key, latest ops key = latest (logOps c.batches) key) ∧ h.db.overlay.memory = chargeOf ops

/-- The handle reads and writes the contents, and the file is a clean image of them. -/
structure Healthy (c : Contents C) (h : Handle) : Prop where
  serves : c.Serves h
  state : h.db.state = .healthy
  image : c.Image h.disk.file []
  room : h.disk.file.len ≤ h.db.options.maxDatabaseBytes.toNat

end Contents

/-- A handle whose verifier went on to `v`. -/
def Handle.withVerifier (h : Handle) (v : SegmentVerifier) : Handle :=
  { h with db := { h.db with base := { h.db.base with verifier := v } } }

/-- What the reads of a handle show. -/
structure Shows (C : Crates) (h : Handle) (m : Bytes → Option Bytes) : Prop where
  get : ∀ key, (Database.get C key h).1 = .ok (m key)
  iter : ∃ pairs, (Database.iter C h).1 = .ok (pairs.map .ok) ∧ Lists m pairs
  len : (Database.len C h).1 = .ok {key | m key ≠ none}.ncard

namespace Contents

variable {C : Crates} {c : Contents C} {h : Handle} {v : SegmentVerifier}

theorem Serves.views (serves : c.Serves h) : c.Views h.db.readView h.disk.file where
  base := by
    have size := serves.checks.size
    unfold Database.readView ActiveBase.readView
    rw [size, serves.base]
    rfl
  held := serves.held
  overlay := by
    obtain ⟨ops, index, same, -⟩ := serves.overlay
    exact ⟨ops, index, same⟩

theorem Serves.baseLen (serves : c.Serves h) : h.db.base.len = c.entries.length := by
  rw [serves.base]
  rfl

theorem Serves.withVerifier (serves : c.Serves h) (checks : c.Checks v) :
    c.Serves (h.withVerifier v) where
  base := by
    show { h.db.base with verifier := v } = _
    rw [serves.base]
    rfl
  checks := checks
  held := serves.held
  overlay := serves.overlay

/-- A handle is served by its database and the bytes of its file alone. -/
theorem Serves.congr {h' : Handle} (serves : c.Serves h) (base : h'.db.base = h.db.base)
    (overlay : h'.db.overlay = h.db.overlay) (held : c.Held h'.disk.file) : c.Serves h' where
  base := by
    rw [base]
    exact serves.base
  checks := by
    rw [base]
    exact serves.checks
  held := held
  overlay := by
    rw [overlay]
    exact serves.overlay

theorem ensureAvailable_run (available : h.db.state ≠ .unavailable) :
    Database.ensureAvailable h = (.ok (), h) := by
  unfold Database.ensureAvailable
  rw [bind_run, state_run]
  exact congrFun (if_neg available) h

/-- The handle answers from the bytes that its view displays. -/
structure Answers (c : Contents C) (h : Handle) : Prop where
  displays : c.Displays h.db.readView h.disk.file
  checks : c.Checks h.db.base.verifier
  len : h.db.base.len = c.entries.length
  checksum : h.db.base.checksum = c.root.baseChecksum

theorem Serves.answers (serves : c.Serves h) : c.Answers h where
  displays := serves.views.displays
  checks := serves.checks
  len := serves.baseLen
  checksum := by
    rw [serves.base]
    rfl

section Answers

variable (answers : c.Answers h) (available : h.db.state ≠ .unavailable)
include answers available

theorem Answers.get (key : Bytes) :
    ∃ v, Database.get C key h = (.ok (c.map key), h.withVerifier v) ∧ c.Checks v := by
  obtain ⟨v, ran, checks⟩ := answers.displays.get answers.checks key
  refine ⟨v, ?_, checks⟩
  unfold Database.get
  rw [bind_ok (ensureAvailable_run available), bind_run, state_run]
  show Db.verifying _ h = _
  unfold Db.verifying zoom
  rw [ran]
  rfl

theorem Answers.iter :
    ∃ pairs v, Database.iter C h = (.ok (pairs.map .ok), h.withVerifier v) ∧ Lists c.map pairs ∧
      c.Checks v := by
  obtain ⟨pairs, v, ran, lists, checks⟩ := answers.displays.iterAll answers.checks
  refine ⟨pairs, v, ?_, lists, checks⟩
  unfold Database.iter
  rw [bind_ok (ensureAvailable_run available), bind_run, state_run]
  show Db.verifying _ h = _
  unfold Db.verifying zoom
  rw [answers.len, ran]
  rfl

theorem Answers.count : Database.len C h = (.ok {key | c.map key ≠ none}.ncard, h) := by
  unfold Database.len
  rw [bind_ok (ensureAvailable_run available), bind_run, state_run]
  show (RawEntries.rawLen _ _, h) = _
  unfold Database.iterRaw
  rw [answers.len, answers.displays.rawLen]

/-- A handle that answers from the contents shows their map. -/
theorem Answers.shows : Shows C h c.map where
  get key := by
    obtain ⟨v, ran, -⟩ := answers.get available key
    rw [ran]
  iter := by
    obtain ⟨pairs, v, ran, lists, -⟩ := answers.iter available
    exact ⟨pairs, by rw [ran], lists⟩
  len := by rw [answers.count available]

/-- The full check passes and remembers that it did. -/
theorem Answers.verify : ∃ v, Database.verify C h = (.ok (), h.withVerifier v) ∧ c.Checks v := by
  obtain ⟨index, laid, dataIs⟩ := c.isBase.laid
  have layout := c.isBase.segmentLayout
  have metadata : segmentMetadataChecksum (segmentBytes c.data) = .ok c.root.baseChecksum := by
    rw [segmentMetadataChecksum, layout, ok_bind, c.describes.checksum]
    exact congrArg Except.ok (metadata_drop c.data)
  have valid : validateBase C c.data h.db.base.offset h.db.base.slots h.db.base.len = .ok () := by
    rw [show h.db.base.offset = c.root.baseOffset from answers.displays.offset,
      show h.db.base.slots = c.slots from answers.displays.slots, answers.len]
    exact validateBase_eq_ok.mpr ⟨c.entries, rfl, dataIs ▸ laid.shape c.distinct⟩
  have checks := answers.checks
  have spec : wp (h.db.base.verify C h.disk.file) (fun _ v' => c.Checks v') (fun _ _ => False)
      h.db.base.verifier := by
    have deref : h.db.base.mapping.deref h.disk.file = segmentBytes c.data := answers.displays.deref
    unfold ActiveBase.verify
    rw [deref]
    dsimp only
    rw [layout]
    refine wp_bind (wp_lift_ok ?_)
    rw [metadata, answers.checksum]
    refine wp_bind (wp_lift_ok ?_)
    rw [if_neg (fun different => different rfl)]
    refine wp_bind (wp_mono (wp_verifyRange checks.sound) ?_ ?_)
    · rintro _ v1 ⟨sound1, same1, -⟩
      have checks1 := checks.next same1 sound1
      refine wp_bind (wp_state ?_)
      split
      · exact wp_pure checks1
      · rw [valid]
        exact wp_bind (wp_lift_ok (wp_modify checks1.semantic))
    · rintro e v1 ⟨-, -, -, refused⟩
      refine refused ⟨Nat.zero_le _, checks.size.ge, fun b meets => ?_⟩
      refine checks.allMatch b ?_
      rw [checks.sound.table]
      refine lt_of_le_of_lt meets.2.2 (@block_lt h.db.base.verifier.dataSize c.data.length ?_ checks.size.ge)
      exact meets.1
  obtain ⟨_, v, ran, checks'⟩ := wp_returns spec fun _ _ => id
  refine ⟨v, ?_, checks'⟩
  unfold Database.verify
  rw [bind_ok (ensureAvailable_run available), bind_run, state_run]
  show Db.verifying _ h = _
  unfold Db.verifying zoom
  rw [ran]
  rfl

end Answers

theorem Healthy.available (healthy : c.Healthy h) : h.db.state ≠ .unavailable := by
  rw [healthy.state]
  decide

theorem Healthy.shows (healthy : c.Healthy h) : Shows C h c.map :=
  healthy.serves.answers.shows healthy.available

theorem Healthy.withVerifier (healthy : c.Healthy h) (checks : c.Checks v) :
    c.Healthy (h.withVerifier v) :=
  ⟨healthy.serves.withVerifier checks, healthy.state, healthy.image, healthy.room⟩

/-- A healthy handle depends on its disk only through the file. -/
theorem Healthy.disk {d : Disk} (healthy : c.Healthy h) (same : d.file = h.disk.file) :
    c.Healthy { h with disk := d } where
  serves := healthy.serves.congr rfl rfl (same ▸ healthy.serves.held)
  state := healthy.state
  image := same ▸ healthy.image
  room := same ▸ healthy.room

theorem Healthy.afresh (healthy : c.Healthy h) (faults : List Fault) : c.Healthy (h.afresh faults) :=
  healthy.disk rfl

end Contents

end Lkv
