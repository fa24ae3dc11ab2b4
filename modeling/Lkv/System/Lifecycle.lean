/-
# Lkv.System.Lifecycle — creating and opening

Opening an image gives a healthy handle on its contents (`open_image`): the root is
found, the Base is mapped, every batch of the log is indexed, and a dead tail is cut off.
Creating gives a healthy handle on the empty database (`create_ok`).

`Contents.ofBase` makes contents out of a Base that was just written; creation and both
publications of a compaction use it.
-/
import Lkv.Database.Loading
import Lkv.System.Serving

namespace Lkv
open Lkv.Theory Lkv.Theory.Prog Dictionary

set_option autoImplicit false

/-! ## Contents of a written Base -/

namespace Contents

variable {C : Crates}

/-- The contents that a written Base and a root for it make. -/
def ofBase (generation start : Nat) {entries : List Entry} {slots : Nat} {data : Bytes}
    (isBase : IsBase C start entries slots data) (distinct : Distinct entries)
    (above : dataStart ≤ start) (word : start + (segmentBytes data).length < 2 ^ 64) :
    Contents C where
  root := Database.rootOf generation start
    ⟨(segmentBytes data).length, slots, entries.length, metadataChecksum data⟩
    (start + (segmentBytes data).length)
  entries := entries
  slots := slots
  data := data
  batches := []
  isBase := (@placedAt_of C generation start slots entries data isBase word).isBase
  distinct := distinct
  describes := (placedAt_of isBase word).describes
  size := (@placedAt_of C generation start slots entries data isBase word).size
  logStart := by
    have of := @placedAt_of C generation start slots entries data isBase word
    exact of.ends.trans (congrArg (_ + ·) of.size.symm)
  above := by
    have offset := @placedAt_baseOffset generation start slots entries data (by omega)
    exact above.trans offset.ge

section OfBase

variable (generation : Nat) {start slots : Nat} {entries : List Entry} {data : Bytes}
variable (isBase : IsBase C start entries slots data) (distinct : Distinct entries)
variable (above : dataStart ≤ start) (word : start + (segmentBytes data).length < 2 ^ 64)

theorem ofBase_baseOffset : (ofBase generation start isBase distinct above word).root.baseOffset =
    start :=
  Nat.mod_eq_of_lt (by omega)

theorem ofBase_logStart : (ofBase generation start isBase distinct above word).root.logStart =
    start + (segmentBytes data).length :=
  Nat.mod_eq_of_lt word

theorem ofBase_logEnd : (ofBase generation start isBase distinct above word).logEnd =
    start + (segmentBytes data).length :=
  ofBase_logStart generation isBase distinct above word

theorem ofBase_map : (ofBase generation start isBase distinct above word).map = latest entries :=
  override_nil _

theorem ofBase_held {f : File} (held : f.Holds start (segmentBytes data)) :
    (ofBase generation start isBase distinct above word).Held f where
  base := by
    rw [ofBase_baseOffset generation isBase distinct above word]
    exact held
  log := rfl

end OfBase

end Contents

/-! ## Opening -/

section Open

variable {C : Crates} {c : Contents C} {d : Disk} {tail : Bytes} {options : DatabaseOptions}

/-- The Base of an image opens, in either mode. -/
theorem open_held {f : File} (held : c.Held f) (verification : VerificationMode) :
    ∃ v, ActiveBase.open C f c.root.baseBytes c.root verification = .ok (c.activeBase v) ∧
      c.Checks v :=
  ⟨_, open_written c.isBase c.distinct held.deref c.describes, c.checks_verifierOf _⟩

/-- An open chooses the root of `c`, and the Base, the log and a dead tail are in the file.
Unlike in an image, the root may stand on the wrong page. -/
structure Contents.Legible (c : Contents C) (f : File) (tail : Bytes) : Prop where
  select : selectRoot f f.len = .ok c.root
  held : c.Held f
  ends : f.Holds c.logEnd tail
  len : f.len = c.logEnd + tail.length
  dead : Dead c.logEnd tail
  word : f.len < 2 ^ 64

theorem Contents.Image.legible {f : File} (image : c.Image f tail) : c.Legible f tail :=
  ⟨image.rooted.select image.fits, image.held, image.ends, image.len, image.dead, image.word⟩

theorem Contents.Legible.spans (legible : c.Legible d.file tail) :
    c.root.Spans c.logEnd d.file.len where
  above := c.above
  header := c.header_le
  base := c.logStart.ge
  log := Nat.le_add_right _ _
  inside := by rw [legible.len]; exact Nat.le_add_right _ _
  word := legible.word

/-- A table that decodes in the log is an index of it once the log is mapped. -/
theorem indexOf_wholeLog (logStart : Nat) {log : Bytes} {table : List MappedRecord}
    {ops : List Operation} (decodes : OverlayMap.RecordsDecode log table ops)
    (distinct : Distinct ops) :
    OverlayMap.IndexOf logStart log ops (.mapped (wholeLog logStart log.length) table []) := by
  unfold wholeLog
  by_cases nothing : log.length = 0
  · obtain rfl := List.length_eq_zero_iff.mp nothing
    exact ⟨none, [], table, [], ops, rfl, .nothing, ⟨List.prefix_rfl, decodes, nofun, nofun, distinct⟩, rfl⟩
  · rw [if_neg nothing]
    refine ⟨_, _, table, [], ops, rfl, .front log.length le_rfl, ⟨?_, ?_, nofun, nofun, distinct⟩, rfl⟩
    · rw [List.take_length]
    · rwa [List.take_length]

/-- What a scan of the log of `c` found. -/
structure Scanned (c : Contents C) (scan : OverlayScan) (bytes : Option BaseBytes)
    (table : List MappedRecord) (ops : List Operation) : Prop where
  scan : scan = ⟨.mapped bytes table [], chargeOf ops, c.logEnd⟩
  decodes : OverlayMap.RecordsDecode c.log table ops
  distinct : Distinct ops
  latest : ∀ key, latest ops key = Dictionary.latest (logOps c.batches) key

theorem wp_scanImage (image : c.Legible d.file tail) :
    wp (scanLog c.root.logStart (c.log.length + tail.length))
      (fun scan d' => Disk.Issued [] d d' ∧ ∃ table ops,
        Scanned c scan (wholeLog c.root.logStart (c.log.length + tail.length)) table ops)
      (fun e d' => d.Failed e ∧ Disk.Issued [] d d') d := by
  have len := image.len
  have word := image.word
  unfold Contents.logEnd at len
  unfold scanLog wholeLog
  by_cases nothing : c.log.length + tail.length = 0
  · rw [if_pos nothing, if_pos nothing]
    have noBatches : c.batches = [] := by
      by_contra some
      obtain ⟨batch, batches, split⟩ := List.exists_cons_of_ne_nil some
      have size := encodeBatch_length batch.ops
      have : c.log = batch.bytes ++ logBytes batches := by
        rw [Contents.log, split]
        rfl
      rw [this, List.length_append, show batch.bytes.length = _ from size] at nothing
      unfold logHeaderSize at nothing
      omega
    have logEnd : c.logEnd = c.root.logStart := by
      unfold Contents.logEnd
      omega
    refine wp_pure ⟨Disk.Issued.refl d, [], [], ?_, .nil, List.nodup_nil, fun key => ?_⟩
    · rw [logEnd]
      rfl
    rw [noBatches]
    rfl
  · rw [if_neg nothing, if_neg nothing]
    refine wp_bind (wp_mono (Io.wp_map d nothing (by omega) (by omega)) ?_ fun _ _ => id)
    rintro _ d1 ⟨rfl, issued⟩
    have above : logHeaderSize ≤ c.root.logStart := by
      have := c.above
      rw [c.logStart]
      exact le_trans (by decide) (this.trans (Nat.le_add_right _ _))
    have held : d1.file.Holds c.root.logStart (c.log ++ tail) := by
      rw [issued.kept]
      exact File.holds_append.mpr ⟨image.held.log, image.ends⟩
    refine wp_mono (wp_scanOverlay c.batches above rfl held List.length_append.symm (by omega)
      image.dead) ?_ fun e d2 stopped => ⟨issued.failed stopped.1, issued.trans stopped.2⟩
    rintro scan d2 ⟨issued2, table, ops, found, decodes, distinct, same⟩
    exact ⟨issued.trans issued2, table, ops, found, decodes, distinct, same⟩

/-- What opening an image did to the file. -/
def OpenEffects (c : Contents C) (tail : Bytes) : List Effect :=
  if tail = [] then [] else [.setLen c.logEnd, .sync]

theorem openEffects_apply (image : c.Image d.file tail) :
    c.Image (Effect.applyAll d.file (OpenEffects c tail)) [] := by
  unfold OpenEffects
  split
  · rename_i nothing
    exact nothing ▸ image
  · exact image.truncate

/-- A Base and an index as an open of the contents leaves them. -/
structure Loaded (c : Contents C) (loaded : ActiveBase × OverlayState) : Prop where
  base : ∃ v, loaded.1 = c.activeBase v ∧ c.Checks v
  overlay : ∃ ops, OverlayMap.IndexOf c.root.logStart c.log ops loaded.2.index ∧
    (∀ key, latest ops key = latest (logOps c.batches) key) ∧ loaded.2.memory = chargeOf ops

theorem wp_loadStorageState (quiet : d.Quiet) (image : c.Legible d.file tail) :
    wp (loadStorageState C options)
      (fun loaded d' => Disk.Issued (OpenEffects c tail) d d' ∧ Loaded c loaded)
      (fun _ _ => False) d := by
  have len := image.len
  have start : c.root.logStart ≤ c.logEnd := Nat.le_add_right _ _
  have long := image.spans.inside
  have once := Disk.issued_tick d
  unfold loadStorageState
  refine wp_bind (Io.wp_len ?_ fun _ due => due quiet)
  refine wp_bind (wp_mono (wp_readLatestFrom d.tick d.file.len) ?_ ?_)
  · rintro superblock d1 ⟨issued1, selected⟩
    have rootIs : superblock = c.root := by
      have chosen : selectRoot d.file d.file.len = .ok superblock := selected (once.quiet quiet)
      rw [image.select] at chosen
      cases chosen
      rfl
    subst rootIs
    have issued1 := once.trans issued1
    have quiet1 := issued1.quiet quiet
    have image1 : c.Legible d1.file tail := issued1.kept ▸ image
    have spans1 := image1.spans
    have header := spans1.header
    have baseEnd := spans1.base
    have word := spans1.word
    have long1 := spans1.inside
    obtain ⟨v, opens, checks⟩ := open_held image1.held options.verification
    unfold baseHeader at header
    refine wp_bind (wp_mono (wp_mapBase d1 (by omega) (by omega) (by omega)) ?_ ?_)
    rotate_left
    · rintro e d2 ⟨-, stopped | refused⟩
      · exact stopped.1 quiet1
      · cases opens.symm.trans refused
    rintro _ d2 ⟨issued2, opened⟩
    obtain rfl := Except.ok.inj (opens.symm.trans opened)
    have issued2 := issued1.trans issued2
    have quiet2 := issued2.quiet quiet
    have image2 : c.Legible d2.file tail := issued2.kept ▸ image
    have logStart : (c.activeBase v).logStart = c.root.logStart := rfl
    rw [logStart, checkedSub_some (start.trans long)]
    refine wp_bind (wp_lift ?_ nofun)
    rintro _ ⟨⟩
    have size : d.file.len - c.root.logStart = c.log.length + tail.length := by
      rw [len]
      unfold Contents.logEnd
      omega
    rw [size]
    refine wp_bind (wp_mono (wp_scanImage image2) ?_ fun _ _ stopped => stopped.1.1 quiet2)
    rintro scan d3 ⟨issued3, table, ops, scanned⟩
    have issued3 := issued2.trans issued3
    have quiet3 := issued3.quiet quiet
    have image3 : c.Legible d3.file tail := issued3.kept ▸ image
    have ended : scan.validLen = c.logEnd := by rw [scanned.scan]
    rw [ended]
    have finish : ∀ (base : ActiveBase) (kept : OverlayScan) (d' : Disk),
        Disk.Issued (OpenEffects c tail) d d' → (∃ v, base = c.activeBase v ∧ c.Checks v) →
        kept = ⟨.mapped (wholeLog c.root.logStart c.log.length) table [], chargeOf ops, c.logEnd⟩ →
        wp (do let _ ← Io.seekEnd; return (base, (⟨kept.index, kept.memory⟩ : OverlayState)))
          (fun loaded d' => Disk.Issued (OpenEffects c tail) d d' ∧ Loaded c loaded)
          (fun _ _ => False) d' := by
      rintro base _ d' issued checks rfl
      refine wp_bind (Io.wp_seekEnd (wp_pure ⟨?_, checks, ops, ?_, scanned.latest, rfl⟩) ?_)
      · have := issued.trans (Disk.issued_seek d' d'.file.len)
        rwa [List.append_nil] at this
      · exact indexOf_wholeLog _ scanned.decodes scanned.distinct
      · exact fun _ due => due (issued.quiet quiet)
    by_cases dead : tail = []
    · have ends : ¬c.logEnd < d.file.len := by
        rw [len, dead]
        exact Nat.lt_irrefl _
      rw [if_neg ends]
      refine wp_bind (wp_pure (finish _ _ _ ?_ ⟨v, rfl, checks⟩ ?_))
      · rw [OpenEffects, if_pos dead]
        exact issued3
      · rw [scanned.scan, dead, List.length_nil, Nat.add_zero]
    · have more : c.logEnd < d.file.len := by
        have := List.length_pos_iff.mpr dead
        omega
      rw [if_pos more]
      have again : ActiveBase.open C d3.file c.root.baseBytes c.root options.verification =
          .ok (c.activeBase v) := by
        rw [issued3.kept, ← issued1.kept]
        exact opens
      refine wp_bind (wp_mono (wp_discardTail image3.spans scanned.scan again) ?_
        fun _ _ stopped => stopped.1 quiet3)
      rintro _ d4 ⟨issued4, rfl⟩
      refine finish _ _ _ ?_ ⟨v, rfl, checks⟩ ?_
      rotate_left
      · rw [Contents.logEnd, Nat.add_sub_cancel_left]
      · rw [OpenEffects, if_neg dead]
        exact issued3.trans issued4
  · rintro e d1 ⟨issued1, refused⟩
    have := refused (once.quiet quiet)
    rw [show selectRoot d.tick.file d.file.len = .ok c.root from image.select] at this
    cases this

/-- A database as an open of the contents leaves it. -/
structure Contents.OpenedAs (c : Contents C) (options : DatabaseOptions) (db : Database) : Prop where
  loaded : Loaded c (db.base, db.overlay)
  options : db.options = options
  guard : db.snapshotGuard = 1
  state : db.state = .healthy

theorem wp_fromStorage (quiet : d.Quiet) (image : c.Legible d.file tail)
    (room : d.file.len ≤ options.maxDatabaseBytes.toNat) :
    wp (fromStorage C options)
      (fun db d' => Disk.Issued (OpenEffects c tail) d d' ∧ c.OpenedAs options db)
      (fun _ _ => False) d := by
  have once := Disk.issued_tick d
  refine wp_bind (Io.wp_len ?_ fun _ due => due quiet)
  rw [if_neg (Nat.not_lt.mpr room)]
  refine wp_bind (wp_mono (@wp_loadStorageState C c d.tick tail options (once.quiet quiet) image) ?_
    fun _ _ => id)
  rintro ⟨base, overlay⟩ d1 ⟨issued, loaded⟩
  exact wp_pure ⟨once.trans issued, loaded, rfl, rfl, rfl⟩

/-- The database serves the contents. -/
theorem Contents.OpenedAs.serves {db : Database} {d' : Disk} (opened : c.OpenedAs options db)
    (held : c.Held d.file) (issued : Disk.Issued (OpenEffects c tail) d d') : c.Serves ⟨db, d'⟩ := by
  obtain ⟨⟨v, baseIs, checks⟩, index⟩ := opened.loaded
  have base : db.base = c.activeBase v := baseIs
  refine ⟨by rw [base]; rfl, by rw [base]; exact checks, ?_, index⟩
  show c.Held d'.file
  rw [issued.file, OpenEffects]
  split
  · exact held
  · exact held.setLen le_rfl

theorem Contents.OpenedAs.healthy {db : Database} {d' : Disk} (opened : c.OpenedAs options db)
    (image : c.Image d.file tail) (room : d.file.len ≤ options.maxDatabaseBytes.toNat)
    (issued : Disk.Issued (OpenEffects c tail) d d') : c.Healthy ⟨db, d'⟩ := by
  have clean := openEffects_apply image
  rw [← issued.file] at clean
  refine ⟨opened.serves image.held issued, opened.state, clean, ?_⟩
  show d'.file.len ≤ db.options.maxDatabaseBytes.toNat
  rw [opened.options]
  exact (clean.len.le.trans image.long).trans room

theorem wp_openLegible (quiet : d.Quiet) (image : c.Legible d.file tail)
    (enough : minDatabaseBytes ≤ options.maxDatabaseBytes.toNat)
    (room : d.file.len ≤ options.maxDatabaseBytes.toNat) :
    wp (openWithOptions C options)
      (fun db d' => Disk.Issued (OpenEffects c tail) d d' ∧ c.OpenedAs options db)
      (fun _ _ => False) d := by
  unfold openWithOptions validateOptions
  rw [if_neg (Nat.not_lt.mpr enough)]
  refine wp_bind (wp_lift ?_ nofun)
  rintro _ ⟨⟩
  refine wp_bind (wp_bind (Io.wp_call (wp_pure (wp_bind (Io.wp_nextFault ?_ ?_))) ?_))
  · refine wp_pure (wp_bind (Io.wp_len ?_ fun _ due => ?_))
    · have issued := ((Disk.issued_tick d).trans (Disk.issued_tick _)).trans (Disk.issued_tick _)
      rw [if_neg (show ¬d.tick.tick.file.len > _ from Nat.not_lt.mpr room)]
      refine wp_mono (wp_fromStorage (issued.quiet quiet) image room) ?_ fun _ _ => id
      rintro db d' ⟨later, opened⟩
      exact ⟨issued.trans later, opened⟩
    · exact due (Disk.quiet_tick (Disk.quiet_tick quiet))
  · exact fun _ _ due => absurd (Disk.quiet_tick quiet) due
  · exact fun _ due => due quiet

/-- Opening an image whose length is within the limit succeeds, and the handle serves the
contents. -/
theorem open_image {f : File} (image : c.Image f tail)
    (enough : minDatabaseBytes ≤ options.maxDatabaseBytes.toNat)
    (room : f.len ≤ options.maxDatabaseBytes.toNat) :
    ∃ db d, openWithOptions C options (Disk.ofFile f []) = (.ok db, d) ∧
      c.Healthy ⟨db, d⟩ ∧ db.options = options ∧ db.snapshotGuard = 1 ∧
      d.trace = OpenEffects c tail ∧ d.Quiet := by
  have quiet := Disk.quiet_ofFile f
  obtain ⟨db, d', ran, issued, opened⟩ := wp_returns
    (@wp_openLegible C c (Disk.ofFile f []) tail options quiet image.legible enough room) fun _ _ => id
  exact ⟨db, d', ran, opened.healthy image room issued, opened.options, opened.guard, issued.trace,
    issued.quiet quiet⟩

end Open

/-! ## Creating -/

section Create

variable {C : Crates} {d : Disk} {options : DatabaseOptions}

/-- The contents of a new database. -/
def emptyContents (C : Crates) : Contents C :=
  .ofBase 1 dataStart (emptyData_isBase C dataStart (by decide)) distinct_nil le_rfl
    (by rw [emptyData_segment]; decide)

/-- The file of a new database. -/
def emptyImage (C : Crates) : File :=
  ((File.empty.setLen dataStart).write dataStart (segmentBytes emptyData)).write
    (Superblock.pageOffset 1) (emptyContents C).root.encodePage

theorem emptyContents_map (C : Crates) : (emptyContents C).map = fun _ => none :=
  Contents.ofBase_map ..

theorem emptyContents_root (C : Crates) : (emptyContents C).root =
    .new 1 dataStart emptySegmentSize 0 0 (dataStart + emptySegmentSize)
      (metadataChecksum emptyData) := by
  show Database.rootOf 1 dataStart ⟨(segmentBytes emptyData).length, _, _, _⟩ _ = _
  rw [emptyData_segment]
  rfl

theorem emptyContents_logEnd (C : Crates) : (emptyContents C).logEnd = minDatabaseBytes := by
  rw [emptyContents, Contents.ofBase_logEnd, emptyData_segment]
  rfl

theorem emptyBase_len :
    ((File.empty.setLen dataStart).write dataStart (segmentBytes emptyData)).len =
      minDatabaseBytes := by
  have some : segmentBytes emptyData ≠ [] := by
    intro nothing
    have := emptyData_segment
    rw [nothing] at this
    exact absurd this (by decide)
  rw [File.write_len _ _ some, emptyData_segment]
  rfl

theorem emptyImage_len (C : Crates) : (emptyImage C).len = minDatabaseBytes := by
  have small : (emptyContents C).root.encodePage.length ≤ superblockSize :=
    (emptyContents C).root.encodePage_length.le
  have long : dataStart ≤
      ((File.empty.setLen dataStart).write dataStart (segmentBytes emptyData)).len := by
    rw [emptyBase_len]
    decide
  exact (write_pageOffset_len long small).trans emptyBase_len

/-- The page of generation 2 was never written. -/
theorem emptyImage_page (C : Crates) : pageAt (emptyImage C) 2 = List.replicate superblockSize 0 := by
  have small : (emptyContents C).root.encodePage.length ≤ superblockSize :=
    (emptyContents C).root.encodePage_length.le
  have zero : ∀ i < dataStart,
      ((File.empty.setLen dataStart).write dataStart (segmentBytes emptyData)).byte i = 0 := by
    intro i below
    rw [File.write_byte_of_outside _ (.inl below), File.setLen_byte _ below]
    rfl
  rw [emptyImage, pageAt_write_other _ 1 small, pageAt]
  apply List.ext_getElem?
  intro i
  rw [File.slice_getElem?, List.getElem?_replicate]
  split
  · rename_i below
    rw [zero _ (lt_of_lt_of_le (Nat.add_lt_add_left below _) (pageOffset_end_le 2))]
  · rfl

theorem emptyImage_blank (C : Crates) : readEnvelope (pageAt (emptyImage C) 2) = none := by
  rw [emptyImage_page]
  exact readEnvelope_zeros

theorem emptyImage_image (C : Crates) : (emptyContents C).Image (emptyImage C) [] := by
  have small : (emptyContents C).root.encodePage.length ≤ superblockSize :=
    (emptyContents C).root.encodePage_length.le
  have len := emptyImage_len C
  have generation : (emptyContents C).root.generation = 1 := rfl
  refine ⟨⟨?_, ?_, ?_⟩, ?_, rfl, ?_, .short (by decide), ?_⟩
  · rw [len]
    decide
  · rw [generation, emptyImage, pageAt_encodePage]
    exact Superblock.onPage_encodePage _
  · rw [generation]
    exact yielding_invalid _ (emptyImage_blank C)
  · refine Contents.ofBase_held 1 _ _ _ _ ?_
    refine (File.holds_write _ _ _).write (.inl ?_)
    exact (Nat.add_le_add_left small _).trans (pageOffset_end_le 1)
  · rw [len, emptyContents_logEnd]
    rfl
  · rw [len]
    decide

/-- Creating writes the image of the empty database. -/
theorem wp_initializeFile (C : Crates) (new : d.file = File.empty) :
    wp (initializeFile C) (fun _ d' => d'.file = emptyImage C ∧ (d.Quiet → d'.Quiet))
      (fun e _ => d.Failed e) d := by
  refine wp_bind (Io.wp_setLen ?_ fun error due => ⟨due, error, rfl⟩)
  have cut := Disk.issued_issue d (.setLen dataStart)
  refine wp_bind (wp_mono (wp_writeEmptyBase C _ (by decide)) ?_ fun e d' stopped =>
    cut.failed stopped.1)
  rintro _ d1 ⟨rfl, file1, touched⟩
  have quiet1 : d.Quiet → d1.Quiet := fun quiet => touched.quiet (cut.quiet quiet)
  have failed1 : ∀ {e : Stop}, d1.Failed e → d.Failed e := fun failed =>
    cut.failed (touched.failed failed)
  have written1 : d1.file =
      (File.empty.setLen dataStart).write dataStart (segmentBytes emptyData) := by
    rw [file1, ← new]
    rfl
  have len1 : d1.file.len = dataStart + emptySegmentSize := by
    rw [written1]
    exact emptyBase_len
  refine wp_bind (wp_mono (Io.wp_map d1 (by decide) (by decide) len1.ge) ?_ fun e d' stopped =>
    failed1 stopped.1)
  rintro _ d2 ⟨rfl, issued2⟩
  refine wp_bind (wp_state ?_)
  have held : d2.file.slice dataStart emptySegmentSize = segmentBytes emptyData := by
    rw [issued2.kept, written1, ← emptyData_segment]
    exact File.holds_write _ _ _
  rw [BaseBytes.deref, held,
    segmentMetadataChecksum_written (emptyData_isBase C dataStart (by decide))]
  refine wp_bind (wp_lift_ok ?_)
  rw [← emptyContents_root C]
  refine wp_bind (wp_mono (wp_write _ d2) ?_ fun e d' stopped => failed1 (issued2.failed stopped.1))
  intro _ d3 issued3
  refine Io.wp_syncAll ⟨?_, fun quiet => ?_⟩ fun error due =>
    failed1 (issued2.failed (issued3.failed ⟨due, error, rfl⟩))
  · show d3.file = _
    rw [issued3.file, issued2.kept, written1]
    rfl
  · exact (Disk.issued_issue d3 .sync).quiet (issued3.quiet (issued2.quiet (quiet1 quiet)))

theorem wp_createDatabaseFile (C : Crates) (new : d.file = File.empty) (quiet : d.Quiet) :
    wp (createDatabaseFile C) (fun _ d' => d'.file = emptyImage C ∧ d'.Quiet)
      (fun _ _ => False) d := by
  have called : ∀ {d : Disk} {Q : Unit → Disk → Prop}, d.Quiet → Q () d.tick →
      wp (Io.call (pure ())) Q (fun _ _ => False) d := fun quiet post =>
    Io.wp_call (wp_pure post) fun _ due => due quiet
  have quiet1 := Disk.quiet_tick quiet
  have quiet2 := Disk.quiet_tick quiet1
  unfold createDatabaseFile lockDatabaseFile
  refine wp_bind (called quiet (wp_bind (wp_bind (Io.wp_nextFault ?_ fun _ _ due => ?_))))
  · refine wp_pure (wp_bind (wp_mono (@wp_initializeFile d.tick.tick C new) ?_
      fun _ _ stopped => stopped.1 quiet2))
    rintro _ d3 ⟨file3, quiet3⟩
    have quiet3 := quiet3 quiet2
    have quiet4 := Disk.quiet_tick quiet3
    have quiet5 := Disk.quiet_tick quiet4
    have quiet6 := Disk.quiet_tick quiet5
    exact wp_bind (called quiet3 (wp_bind (called quiet4 (wp_bind (called quiet5
      (called quiet6 ⟨file3, Disk.quiet_tick quiet6⟩))))))
  · exact absurd quiet1 due

theorem wp_createWithOptions (new : d.file = File.empty) (quiet : d.Quiet)
    (enough : minDatabaseBytes ≤ options.maxDatabaseBytes.toNat) :
    wp (createWithOptions C options)
      (fun db d' => (emptyContents C).Healthy ⟨db, d'⟩ ∧ db.options = options ∧
        db.snapshotGuard = 1 ∧ d'.Quiet ∧ d'.file = emptyImage C)
      (fun _ _ => False) d := by
  unfold createWithOptions validateOptions
  rw [if_neg (Nat.not_lt.mpr enough)]
  refine wp_bind (wp_lift ?_ nofun)
  rintro _ ⟨⟩
  refine wp_bind (wp_mono (wp_createDatabaseFile C new quiet) ?_ fun _ _ => id)
  rintro _ d1 ⟨file1, quiet1⟩
  have image : (emptyContents C).Image d1.file [] := file1 ▸ emptyImage_image C
  have room : d1.file.len ≤ options.maxDatabaseBytes.toNat := by
    rw [image.len, emptyContents_logEnd]
    exact enough
  refine wp_mono (wp_fromStorage quiet1 image.legible room) ?_ fun _ _ => id
  rintro db d' ⟨issued, opened⟩
  exact ⟨opened.healthy image room issued, opened.options, opened.guard, issued.quiet quiet1,
    issued.kept.trans file1⟩

/-- Creating a database gives a healthy handle on it. -/
theorem create_ok (C : Crates) (enough : minDatabaseBytes ≤ options.maxDatabaseBytes.toNat) :
    ∃ db d, createWithOptions C options (Disk.ofFile File.empty []) = (.ok db, d) ∧
      (emptyContents C).Healthy ⟨db, d⟩ ∧ db.options = options ∧ db.snapshotGuard = 1 ∧
      d.Quiet ∧ d.file = emptyImage C :=
  wp_returns (wp_createWithOptions rfl (Disk.quiet_ofFile _) enough) fun _ _ => id

end Create

end Lkv
