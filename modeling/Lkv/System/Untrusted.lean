/-
# Lkv.System.Untrusted — a file that anyone may have written

Three results about opening a file of any bytes and reading what was opened.

* Nothing panics: the open returns a handle or an error, and so does every later read of the
  handle, of its iterators and of its snapshots (`untrusted_never_panics`).
* Opening is idempotent: the file that an open leaves, also when the open is cut short,
  opens to the same Base and the same overlay (`open_idempotent`).
* A `Full` open is an `OnRead` open and a `verify`, whatever is read in between
  (`full_open_iff_verify`).

A file here is shorter than 2^63 bytes: offsets are signed 64-bit numbers to the system, and
no slice is longer on a 64-bit target.
-/
import Lkv.Database.Readers
import Lkv.System.Lifecycle

namespace Lkv

open Lkv.Theory Lkv.Theory.Prog Dictionary Readers

set_option autoImplicit false

/-! ## What an open leaves -/

namespace Recovered

variable {C : Crates} {options : DatabaseOptions} {f : File} {sb : Superblock} {base : ActiveBase}
variable {records : List Record} {rest : Bytes} {db : Database} {d d' : Disk}

section Left

variable (recovered : Recovered C options d sb base records rest db d') (small : d.file.len < 2 ^ 63)

include recovered small

/-- The file ends where the last record ends. -/
theorem file : d'.file = d.file.setLen (keptLen sb records) := by
  have total := (recovered.openable.kept (by omega)).2
  rw [recovered.issued.file, recoverEffects]
  split
  · rename_i dead
    rw [dead, List.length_nil, Nat.add_zero] at total
    rw [total, File.setLen_self]
    rfl
  · rfl

theorem deref : sb.baseBytes.deref d'.file = sb.baseBytes.deref d.file := by
  rw [recovered.file small]
  exact (recovered.openable.kept (by omega)).1.deref

theorem log : d'.file.slice sb.logStart (recordsLog records).length = recordsLog records := by
  have total := (recovered.openable.kept (by omega)).2
  have kept : d'.file.slice sb.logStart (recordsLog records).length =
      d.file.slice sb.logStart (recordsLog records).length := by
    rw [recovered.file small]
    exact File.slice_congr fun i _ below => File.setLen_byte _ below
  have whole := recovered.openable.log.split
  have size : d.file.len - sb.logStart = (recordsLog records).length + rest.length := by
    unfold keptLen at total
    omega
  rw [size, File.slice_add] at whole
  rw [kept]
  exact (List.append_inj whole (File.slice_length ..)).1

theorem decodes : ∃ ops, db.overlay.index.Decodes d'.file ops ∧ Distinct ops ∧
    db.overlay.memory = chargeOf ops ∧
    ∀ key, latest ops key = latest (recordsOps records) key := by
  obtain ⟨table, ops, indexed, overlay⟩ := recovered.opened.overlay
  refine ⟨ops, ?_, indexed.distinct, by rw [overlay], indexed.latest⟩
  rw [overlay]
  refine ⟨ops, ?_, rfl⟩
  rw [wholeLog_deref, recovered.log small]
  exact indexed.decodes

theorem getHashed (key : Bytes) :
    db.overlay.index.getHashed d'.file key = .ok (latest (recordsOps records) key) := by
  obtain ⟨ops, decodes, -, -, same⟩ := recovered.decodes small
  rw [OverlayMap.getHashed_eq decodes, ← same]

/-- The layout of the Base that was opened, and the readers that have just been opened. -/
theorem steady : ∃ layout, segmentLayout (sb.baseBytes.deref d.file) = .ok layout ∧
    base.checksum = (crc32c ((sb.baseBytes.deref d.file).drop layout.data.length)).toNat ∧
    Readable d'.file db.readView base.len layout ∧
    Steady C d'.file db.readView base layout ⟨⟨db, d'⟩, [], []⟩ := by
  obtain ⟨layout, laid, checksum, header, full, baseIs⟩ := open_eq_ok.mp recovered.openable.base
  have spans := (recovered.openable.kept (by omega)).1
  have deref := recovered.deref small
  have mapping : base.mapping = sb.baseBytes := by rw [baseIs]; rfl
  have laidOut := segmentLayout_laidOut laid
  have dbBase := recovered.opened.base
  have view : db.readView = ⟨⟨sb.baseBytes, sb.baseOffset, sb.baseSlots, layout.data.length⟩,
      db.overlay.index, db.options.verification⟩ := by
    rw [Database.readView, dbBase, baseIs]
    rfl
  have size : (sb.baseBytes.deref d.file).length = sb.baseSize := File.slice_length ..
  obtain ⟨ops, decodes, -⟩ := recovered.decodes small
  refine ⟨layout, laid, ?_, ?_, ?_⟩
  · rw [baseIs]
    exact checksum.symm
  · rw [view]
    refine ⟨?_, rfl, ?_, ?_, ops, decodes⟩
    · show segmentLayout (sb.baseBytes.deref d'.file) = _
      rw [deref, laid]
    · rw [header, baseIs]
      rfl
    · show sb.baseOffset + (sb.baseBytes.deref d'.file).length < 2 ^ 64
      have log := spans.log
      have inside := spans.inside
      have baseEnd := spans.base
      rw [deref, size]
      omega
  · refine ⟨rfl, rfl, ?_, ?_, ?_, List.forall_mem_nil _, List.forall_mem_nil _⟩
    · show db.base = { base with verifier := db.base.verifier }
      rw [dbBase]
    · show db.state ≠ .unavailable
      rw [recovered.opened.state]
      nofun
    · show Verifies C d'.file db.readView base.len layout db.base.verifier
      rw [view, dbBase, baseIs]
      refine ⟨rfl, rfl, ?_, fun on => ?_⟩
      · show SegmentVerifier.Sound (sb.baseBytes.deref d'.file) _
        rw [deref]
        exact sound_of_layout laidOut _ fun on => (full (of_decide_eq_true on)).1
      · have mode : options.verification = .full := of_decide_eq_true on
        show validateBase C layout.data sb.baseOffset sb.baseSlots sb.baseLen = .ok ()
        exact (full mode).2

end Left

end Recovered

/-! ## Images made by hand -/

/-- A segment of these data, with these numbers in its checksum table. -/
def craftedSegment (data : Bytes) (checksums : List Nat) : Bytes :=
  data ++ checksumMetadata data.length checksums

def craftedRoot (data : Bytes) (checksums : List Nat) (len : Nat) : Superblock :=
  .new 1 dataStart (craftedSegment data checksums).length 0 len
    (dataStart + (craftedSegment data checksums).length)
    (crc32c (checksumMetadata data.length checksums)).toNat

/-- A file of one root and one segment without slots. -/
def craftedImage (data : Bytes) (checksums : List Nat) (len : Nat) : File :=
  ((File.empty.setLen dataStart).write dataStart (craftedSegment data checksums)).write
    (Superblock.pageOffset 1) (craftedRoot data checksums len).encodePage

section Crafted

variable {data : Bytes} {checksums : List Nat} {len : Nat}

theorem craftedSegment_length (data : Bytes) (checksums : List Nat) :
    (craftedSegment data checksums).length =
      data.length + (checksums.length * 4 + checksumFooterSize) := by
  rw [craftedSegment, List.length_append, checksumMetadata_length]

theorem craftedSegment_ne_nil (data : Bytes) (checksums : List Nat) : craftedSegment data checksums ≠ [] := by
  intro none
  have length := craftedSegment_length data checksums
  rw [none] at length
  unfold checksumFooterSize at length
  exact absurd length (by simp)

theorem crafted_len (data : Bytes) (checksums : List Nat) (len : Nat) :
    (craftedImage data checksums len).len = dataStart + (craftedSegment data checksums).length := by
  have written : ((File.empty.setLen dataStart).write dataStart (craftedSegment data checksums)).len =
      dataStart + (craftedSegment data checksums).length := by
    rw [File.write_len _ _ (craftedSegment_ne_nil data checksums)]
    exact Nat.max_eq_right (Nat.le_add_right _ _)
  rw [craftedImage, write_pageOffset_len ?_ (Superblock.encodePage_length _).le, written]
  rw [written]
  exact Nat.le_add_right _ _

theorem crafted_holds (data : Bytes) (checksums : List Nat) (len : Nat) :
    (craftedImage data checksums len).slice dataStart (craftedSegment data checksums).length =
      craftedSegment data checksums := by
  have held : (craftedImage data checksums len).Holds dataStart (craftedSegment data checksums) := by
    refine (File.holds_write _ _ _).write (.inl ?_)
    rw [Superblock.encodePage_length]
    exact pageOffset_end_le 1
  exact held.slice_eq rfl

theorem crafted_rooted (data : Bytes) (checksums : List Nat) (len : Nat) :
    Rooted (craftedImage data checksums len) (craftedRoot data checksums len) where
  long := by
    rw [crafted_len]
    exact Nat.le_add_right _ _
  own := by
    show Superblock.OnPage _ (pageAt (craftedImage data checksums len) 1)
    rw [craftedImage, pageAt_encodePage]
    exact Superblock.onPage_encodePage _
  other := by
    refine yielding_invalid _ (readEnvelope_eq_none ?_)
    show window (pageAt (craftedImage data checksums len) 2) 0 8 ≠ magic
    have blank : ∀ i < 8, ((File.empty.setLen dataStart).write dataStart
        (craftedSegment data checksums)).byte i = (File.empty.setLen dataStart).byte i := fun i below =>
      File.write_byte_of_outside _ (.inl (lt_of_lt_of_le below (by decide)))
    rw [craftedImage, pageAt_write_other _ 1 (Superblock.encodePage_length _).le, pageAt,
      File.window_slice _ _ _ _ _ (by decide), File.slice_congr fun i _ below => blank i below]
    decide

/-- The handle of such an image. -/
structure Crafted (data : Bytes) (checksums : List Nat) (len : Nat) (db : Database) (d : Disk) : Prop where
  deref : db.base.mapping.deref d.file = craftedSegment data checksums
  slots : db.base.slots = 0
  len : db.base.len = len
  size : db.base.verifier.dataSize = data.length
  table : db.base.verifier.checksums = SegmentVerifier.checksumWords (checksums.flatMap (leBytes 4))
  overlay : db.overlay.index = .mapped none [] []

/-- Its root, and what that leads to. -/
structure CraftedFile (data : Bytes) (checksums : List Nat) (len : Nat) (f : File) : Prop where
  root : selectRoot f f.len = .ok (craftedRoot data checksums len)
  deref : (craftedRoot data checksums len).baseBytes.deref f = craftedSegment data checksums
  laid : segmentLayout (craftedSegment data checksums) = .ok ⟨data, checksums.flatMap (leBytes 4)⟩
  checksum : (craftedRoot data checksums len).baseChecksum =
    (crc32c ((craftedSegment data checksums).drop data.length)).toNat
  log : (craftedRoot data checksums len).logStart = f.len
  small : f.len ≤ dataStart + 200

theorem crafted_file (count : checksums.length = divCeil data.length checksumBlockSize)
    (long : baseHeader ≤ data.length) (short : data.length ≤ 100) :
    CraftedFile data checksums len (craftedImage data checksums len) := by
  have length := craftedSegment_length data checksums
  have few : checksums.length ≤ 1 := by
    rw [count, divCeil_le_iff (by decide)]
    unfold checksumBlockSize
    omega
  have size : (craftedSegment data checksums).length ≤ 200 := by
    unfold checksumFooterSize at length
    omega
  have imageLen := crafted_len data checksums len
  have start : dataStart = 8192 := rfl
  have offset : (craftedRoot data checksums len).baseOffset = dataStart := rfl
  have baseSize : (craftedRoot data checksums len).baseSize = (craftedSegment data checksums).length :=
    Nat.mod_eq_of_lt (by omega)
  have logStart : (craftedRoot data checksums len).logStart =
      dataStart + (craftedSegment data checksums).length := Nat.mod_eq_of_lt (by omega)
  have fits : (craftedRoot data checksums len).Fits (craftedImage data checksums len).len := by
    unfold Superblock.Fits
    rw [offset, baseSize, logStart, imageLen]
    omega
  refine ⟨(crafted_rooted data checksums len).select fits, ?_, ?_, ?_, logStart.trans imageLen.symm, by omega⟩
  · show File.slice _ (craftedRoot data checksums len).baseOffset (craftedRoot data checksums len).baseSize = _
    rw [offset, baseSize]
    exact crafted_holds data checksums len
  · exact segmentLayout_written count (by unfold checksumFooterSize; omega)
  · rw [craftedSegment, List.drop_left]
    exact Nat.mod_eq_of_lt (BitVec.isLt _)

/-- Such an image opens in `OnRead` mode if its header names its length, whatever the rest of
the data and the checksums are. -/
theorem crafted_opens (C : Crates) (count : checksums.length = divCeil data.length checksumBlockSize)
    (short : data.length ≤ 100) (header : readBaseHeader data = .ok (0, len)) (word : len < 2 ^ 64) :
    ∃ db d, openWithOptions C { DatabaseOptions.default with verification := .onRead }
        (Disk.ofFile (craftedImage data checksums len) []) = (.ok db, d) ∧
      Crafted data checksums len db d := by
  have file := @crafted_file data checksums len count (by have := readBaseHeader_table header; omega) short
  have small := file.small
  have slots : (craftedRoot data checksums len).baseSlots = 0 := rfl
  have entries : (craftedRoot data checksums len).baseLen = len := Nat.mod_eq_of_lt word
  have openable : Openable C .onRead (craftedImage data checksums len) (craftedRoot data checksums len)
      (.new (craftedRoot data checksums len).baseBytes
        (SegmentVerifier.new (craftedRoot data checksums len).baseOffset
          ⟨data, checksums.flatMap (leBytes 4)⟩ false) (craftedRoot data checksums len) 0 len) [] [] := by
    refine ⟨file.root, ?_, ?_, .short (by decide)⟩
    · refine open_eq_ok.mpr ⟨⟨data, checksums.flatMap (leBytes 4)⟩, ?_, ?_, ?_, nofun, ?_⟩
      · rw [file.deref, file.laid]
      · rw [file.deref, file.checksum]
      · rw [slots, entries]
        exact header
      · rw [slots, entries]
        rfl
    · rw [file.log, Nat.sub_self]
      rfl
  have start : dataStart = 8192 := rfl
  have allows : Allows { DatabaseOptions.default with verification := .onRead }
      (craftedImage data checksums len).len := by
    refine ⟨by decide, ?_⟩
    have limit : 8392 ≤ DatabaseOptions.default.maxDatabaseBytes.toNat := by decide
    refine le_trans ?_ limit
    omega
  have small : (craftedImage data checksums len).len < 2 ^ 63 := by omega
  obtain ⟨db, d, opened, records, none, -, recovered⟩ := openable.opens allows small
  have base := recovered.opened.base
  obtain ⟨table, ops, indexed, overlay⟩ := recovered.opened.overlay
  have none : recordsLog records = [] := none
  refine ⟨db, d, opened, ?_, by rw [base]; rfl, by rw [base]; rfl, by rw [base]; rfl, by rw [base]; rfl, ?_⟩
  · rw [base]
    exact (recovered.deref small).trans file.deref
  · have decodes := indexed.decodes
    rw [none] at decodes
    have empty := decodes.nil_of_nil
    subst empty
    cases decodes
    rw [overlay, none]
    rfl

end Crafted

/-- One record, and a checksum that is not the one of the block it lies in. -/
def soleRecord : Bytes := headerBytes 0 1 ++ encodeRecord ([1], [2])

def wrongChecksum (data : Bytes) : Nat := if (crc32c data).toNat = 0 then 1 else 0

theorem wrongChecksum_ne (data : Bytes) :
    (crc32c data).toNat ≠ leNat (window ([wrongChecksum data].flatMap (leBytes 4)) 0 4) := by
  unfold wrongChecksum
  split
  · rename_i zero
    rw [zero]
    decide
  · rename_i some
    exact some

theorem crafted_small {data : Bytes} {checksums : List Nat} (len : Nat)
    (short : data.length + 4 * checksums.length ≤ 200) : (craftedImage data checksums len).len < 2 ^ 63 := by
  have start : dataStart = 8192 := rfl
  have footer : checksumFooterSize ≤ 100 := by decide
  rw [crafted_len, craftedSegment_length]
  omega

/-- A file with one record, in a damaged block. -/
theorem soleRecord_opens :
    ∃ db d, openWithOptions zeroHash { DatabaseOptions.default with verification := .onRead }
        (Disk.ofFile (craftedImage soleRecord [wrongChecksum soleRecord] 1) []) = (.ok db, d) ∧
      Crafted soleRecord [wrongChecksum soleRecord] 1 db d :=
  crafted_opens zeroHash (by decide) (by decide) (by decide) (by decide)

/-! ## Nothing panics -/

/-- The sums that opening and reading the segment of `sb` form without a check. -/
structure SumsFit (sb : Superblock) (layout : SegmentLayout) : Prop where
  blocks : ∀ b < divCeil layout.data.length checksumBlockSize,
    b * checksumBlockSize + checksumBlockSize < 2 ^ 64
  absolute : sb.baseOffset + layout.data.length < 2 ^ 64
  index : ∀ slots len, readBaseHeader layout.data = .ok (slots, len) →
    baseHeader + slots * slotSize < 2 ^ 64

theorem sumsFit {f : File} {sb : Superblock} {layout : SegmentLayout} (small : f.len < 2 ^ 63)
    (selected : selectRoot f f.len = .ok sb)
    (laid : segmentLayout (sb.baseBytes.deref f) = .ok layout) : SumsFit sb layout := by
  have spans := selectRoot_spans selected (by omega)
  have log := spans.log
  have baseEnd := spans.base
  have size : (sb.baseBytes.deref f).length = sb.baseSize := File.slice_length ..
  have inside := (segmentLayout_laidOut laid).size
  refine ⟨fun b below => ?_, by omega, fun slots len header => ?_⟩
  · unfold divCeil checksumBlockSize at *
    omega
  · have table := readBaseHeader_table header
    omega

/-- For every file and both modes: opening returns a handle or an error, and every read of
that handle, after any other reads, returns or ends in an error.  The sums that the source
leaves unchecked on the way do not overflow. -/
theorem untrusted_never_panics (C : Crates) (f : File) (options : DatabaseOptions)
    (small : f.len < 2 ^ 63) :
    (∀ sb layout, selectRoot f f.len = .ok sb →
      segmentLayout (sb.baseBytes.deref f) = .ok layout → SumsFit sb layout) ∧
    NoPanic (openWithOptions C options (Disk.ofFile f [])).1 ∧
    ∀ db d, openWithOptions C options (Disk.ofFile f []) = (.ok db, d) →
      ∀ readers, Reached C ⟨⟨db, d⟩, [], []⟩ readers →
        ∀ call, NoPanic (perform C call readers).1 := by
  refine ⟨fun sb layout => sumsFit small, fun e refused => ?_, ?_⟩
  · have spec := @wp_openWithOptions C (Disk.ofFile f []) options (Disk.quiet_ofFile f) small
    exact (wp_error spec (Prod.ext refused rfl)).1
  · intro db d opened readers reached call e failed
    obtain ⟨sb, base, records, rest, recovered⟩ := open_recovered small opened
    obtain ⟨layout, -, -, readable, steady⟩ := recovered.steady small
    have now := reached.goes_on readable steady
    exact (wp_error (wp_perform readable now call) (Prod.ext failed rfl)).2

/-- A file with a record in a damaged block.  It opens, and a read of it ends in an error at
worst. -/
theorem untrusted_never_panics_damaged : ∃ db d,
    openWithOptions zeroHash { DatabaseOptions.default with verification := .onRead }
      (Disk.ofFile (craftedImage soleRecord [wrongChecksum soleRecord] 1) []) = (.ok db, d) ∧
    ∀ readers, Reached zeroHash ⟨⟨db, d⟩, [], []⟩ readers →
      ∀ call, NoPanic (perform zeroHash call readers).1 := by
  obtain ⟨db, d, opened, -⟩ := soleRecord_opens
  exact ⟨db, d, opened, (untrusted_never_panics zeroHash _ _ (crafted_small 1 (by decide))).2.2
    db d opened⟩

/-! ## Opening again -/

section Again

variable {C : Crates} {options : DatabaseOptions} {f : File} {db : Database} {d : Disk}

/-- Two handles that were opened on the same Base and the same overlay. -/
structure SameOpen (db : Database) (d : Disk) (db' : Database) (d' : Disk) : Prop where
  file : d'.file = d.file
  base : db'.base = db.base
  overlay : ∀ key, db'.overlay.index.getHashed d'.file key = db.overlay.index.getHashed d.file key
  memory : db'.overlay.memory = db.overlay.memory

/-- What an open leaves can be opened, and has no tail. -/
theorem Recovered.again {sb : Superblock} {base : ActiveBase} {records : List Record} {rest : Bytes}
    (recovered : Recovered C options (Disk.ofFile f []) sb base records rest db d)
    (small : f.len < 2 ^ 63) :
    Openable C options.verification d.file sb base records [] ∧ Allows options d.file.len := by
  obtain ⟨spans, total⟩ := recovered.openable.kept (show f.len < 2 ^ 64 by omega)
  have file : d.file = f.setLen (keptLen sb records) := recovered.file small
  have fits : sb.Fits (keptLen sb records) := by
    have above := spans.above
    have header := spans.header
    have baseEnd := spans.base
    have log := spans.log
    unfold Superblock.Fits
    omega
  have len : d.file.len = keptLen sb records := by
    rw [file, File.setLen_len]
  have log := recovered.log small
  have room : f.len ≤ options.maxDatabaseBytes.toNat := recovered.allows.room
  have less : keptLen sb records ≤ f.len := spans.inside
  refine ⟨⟨?_, ?_, ?_, .short (by decide)⟩, recovered.allows.enough, by omega⟩
  · rw [len, file]
    exact selectRoot_setLen recovered.openable.root less fits
  · exact (open_congr (recovered.deref small)).trans recovered.openable.base
  · rw [len, keptLen, Nat.add_sub_cancel_left, log, List.append_nil]

/-- The truncation is all that an open does to a file, so a crash leaves it done or not. -/
theorem crashImage_recover {sb : Superblock} {records : List Record} {rest : Bytes} (k n : Nat) :
    Effect.crashImage f (recoverEffects sb records rest) k n = f ∨
      Effect.crashImage f (recoverEffects sb records rest) k n =
        Effect.applyAll f (recoverEffects sb records rest) := by
  unfold recoverEffects
  split
  · left
    cases k <;> rfl
  · rcases k with _ | _ | k
    · exact .inl rfl
    · exact .inr rfl
    · right
      cases k <;> rfl

/-- Opening the file that an open left, or that was left when the open was interrupted,
succeeds, leaves the same file, and finds the same root, Base and overlay. -/
theorem open_idempotent (C : Crates) (options : DatabaseOptions) (f : File) (small : f.len < 2 ^ 63)
    {db : Database} {d : Disk}
    (opened : openWithOptions C options (Disk.ofFile f []) = (.ok db, d)) :
    (∃ db' d', openWithOptions C options (Disk.ofFile d.file []) = (.ok db', d') ∧
      d'.trace = [] ∧ readRoot d.file = readRoot f ∧ SameOpen db d db' d') ∧
    ∀ k n, ∃ db' d', openWithOptions C options (Disk.ofFile (Effect.crashImage f d.trace k n) []) =
        (.ok db', d') ∧
      readRoot (Effect.crashImage f d.trace k n) = readRoot f ∧ SameOpen db d db' d' := by
  obtain ⟨sb, base, records, rest, recovered⟩ := open_recovered small opened
  obtain ⟨openable, allows⟩ := recovered.again small
  have shorter : d.file.len < 2 ^ 63 := by
    have kept := (recovered.openable.kept (show f.len < 2 ^ 64 by omega)).1.inside
    rw [recovered.file small, File.setLen_len]
    exact lt_of_le_of_lt kept small
  obtain ⟨db', d', again, records', sameLog, sameOps, recovered'⟩ := openable.opens allows shorter
  have trace : d'.trace = [] := recovered'.issued.trace
  have root : readRoot d.file = readRoot f := by
    rw [readRoot_eq, readRoot_eq, openable.root]
    exact recovered.openable.root.symm
  have same : SameOpen db d db' d' := by
    obtain ⟨ops, -, distinct, memory, latest⟩ := recovered.decodes small
    obtain ⟨ops', -, distinct', memory', latest'⟩ := recovered'.decodes shorter
    refine ⟨recovered'.issued.kept, ?_, fun key => ?_, ?_⟩
    · rw [recovered.opened.base, recovered'.opened.base]
    · rw [recovered'.getHashed shorter, recovered.getHashed small, sameOps]
    · rw [memory, memory']
      exact OverlayMap.chargeOf_latest distinct' distinct fun key => by rw [latest', latest, sameOps]
  refine ⟨⟨db', d', again, trace, root, same⟩, fun k n => ?_⟩
  have traced : d.trace = recoverEffects sb records rest := recovered.issued.trace
  rw [traced]
  rcases @crashImage_recover f sb records rest k n with before | after
  · rw [before]
    exact ⟨db, d, opened, rfl, rfl, rfl, fun _ => rfl, rfl⟩
  · have left : Effect.applyAll f (recoverEffects sb records rest) = d.file :=
      recovered.issued.file.symm
    rw [after, left]
    exact ⟨db', d', again, root, same⟩

/-- A commit of one value, and the first bytes of a second one. -/
def onePut : Batch :=
  ⟨[([1], some [2])], by decide, by decide, by decide, by decide⟩

def tornImage (C : Crates) : File :=
  ((emptyImage C).write (emptyContents C).logEnd onePut.bytes).write
    ((emptyContents C).commit onePut).logEnd (onePut.bytes.take 3)

theorem tornImage_image (C : Crates) :
    ((emptyContents C).commit onePut).Image (tornImage C) (onePut.bytes.take 3) := by
  have ends : ((emptyContents C).commit onePut).logEnd = minDatabaseBytes + onePut.bytes.length := by
    rw [Contents.commit_logEnd, emptyContents_logEnd]
  have whole : (emptyContents C).logEnd + onePut.bytes.length < 2 ^ 64 := by
    rw [emptyContents_logEnd]
    decide
  refine ((emptyImage_image C).commit onePut whole).append (.short (by decide)) ?_
  rw [ends]
  decide

theorem tornImage_small (C : Crates) : (tornImage C).len ≤ minDatabaseBytes + 100 := by
  rw [(tornImage_image C).len, Contents.commit_logEnd, emptyContents_logEnd]
  decide

/-- The torn record is cut off, by an open that is finished or interrupted. -/
theorem open_idempotent_torn : ∃ db d,
    openWithOptions zeroHash .default (Disk.ofFile (tornImage zeroHash) []) = (.ok db, d) ∧
    d.trace = [.setLen d.file.len, .sync] ∧ d.file.len + 3 = (tornImage zeroHash).len ∧
    (∃ db' d', openWithOptions zeroHash .default (Disk.ofFile d.file []) = (.ok db', d') ∧
      d'.trace = [] ∧ readRoot d.file = readRoot (tornImage zeroHash) ∧ SameOpen db d db' d') ∧
    ∀ k n, ∃ db' d', openWithOptions zeroHash .default
        (Disk.ofFile (Effect.crashImage (tornImage zeroHash) d.trace k n) []) = (.ok db', d') ∧
      readRoot (Effect.crashImage (tornImage zeroHash) d.trace k n) = readRoot (tornImage zeroHash) ∧
      SameOpen db d db' d' := by
  have image := tornImage_image zeroHash
  have small := tornImage_small zeroHash
  obtain ⟨db, d, opened, healthy, -, -, traced, -⟩ := open_image image (show minDatabaseBytes ≤
    DatabaseOptions.default.maxDatabaseBytes.toNat by decide) (small.trans (by decide))
  have len : d.file.len = ((emptyContents zeroHash).commit onePut).logEnd := healthy.image.len
  refine ⟨db, d, opened, ?_, ?_, open_idempotent zeroHash .default (tornImage zeroHash)
    (lt_of_le_of_lt small (by decide)) opened⟩
  · rw [traced, len]
    exact if_neg (by decide)
  · rw [len, image.len]
    rfl

end Again

/-! ## The two modes -/

section Modes

variable {C : Crates} {f : File}

/-- A file that opens with `Full` is one that opens with `OnRead` and passes the full check. -/
theorem full_iff_passes {sb : Superblock} {base : ActiveBase} {layout : SegmentLayout}
    (laid : segmentLayout (sb.baseBytes.deref f) = .ok layout)
    (opened : ActiveBase.open C f sb.baseBytes sb .onRead = .ok base) :
    (∃ base', ActiveBase.open C f sb.baseBytes sb .full = .ok base') ↔
      PassesFull C base (sb.baseBytes.deref f) layout := by
  obtain ⟨layout', laid', checksum, header, -, rfl⟩ := open_eq_ok.mp opened
  cases laid.symm.trans laid'
  constructor
  · rintro ⟨base', opened'⟩
    obtain ⟨layout', laid', -, -, full, -⟩ := open_eq_ok.mp opened'
    cases laid.symm.trans laid'
    exact ⟨checksum, (full rfl).1, (full rfl).2⟩
  · intro passes
    exact ⟨_, open_eq_ok.mpr ⟨layout, laid, checksum, header, fun _ => ⟨passes.blocks, passes.valid⟩, rfl⟩⟩

/-- A `Full` open needs all that an `OnRead` open needs. -/
theorem onRead_of_full {sb : Superblock} {base : ActiveBase}
    (opened : ActiveBase.open C f sb.baseBytes sb .full = .ok base) :
    ∃ v, ActiveBase.open C f sb.baseBytes sb .onRead = .ok { base with verifier := v } := by
  obtain ⟨layout, laid, checksum, header, -, rfl⟩ := open_eq_ok.mp opened
  exact ⟨_, open_eq_ok.mpr ⟨layout, laid, checksum, header, nofun, rfl⟩⟩

/-- Opening a file in one of the modes, all other options alike. -/
def openIn (C : Crates) (options : DatabaseOptions) (mode : VerificationMode) (f : File) :
    Res Database × Disk :=
  openWithOptions C { options with verification := mode } (Disk.ofFile f [])

/-- The Base fields other than the verifier, and the overlay. -/
structure SameFields (db : Database) (d : Disk) (db' : Database) (d' : Disk) : Prop where
  base : db'.base = { db.base with verifier := db'.base.verifier }
  overlay : ∀ key, db'.overlay.index.getHashed d'.file key = db.overlay.index.getHashed d.file key
  memory : db'.overlay.memory = db.overlay.memory

variable {options : DatabaseOptions} {db db' : Database} {d d' : Disk}

/-- Both modes read the log alike. -/
theorem sameFields (small : f.len < 2 ^ 63) (onRead : openIn C options .onRead f = (.ok db, d))
    (full : openIn C options .full f = (.ok db', d')) : SameFields db d db' d' := by
  obtain ⟨sb, base, records, rest, recovered⟩ := open_recovered small onRead
  obtain ⟨sb', base', records', rest', recovered'⟩ := open_recovered small full
  cases recovered.openable.root.symm.trans recovered'.openable.root
  have size : (f.slice sb.logStart (f.len - sb.logStart)).length < 2 ^ 63 := by
    rw [File.slice_length]
    omega
  obtain ⟨-, -, sameOps⟩ := recovered.openable.log.unique size recovered'.openable.log
  obtain ⟨ops, -, distinct, memory, latest⟩ := recovered.decodes small
  obtain ⟨ops', -, distinct', memory', latest'⟩ := recovered'.decodes small
  refine ⟨?_, fun key => ?_, ?_⟩
  · obtain ⟨v, opens⟩ := onRead_of_full recovered'.openable.base
    cases recovered.openable.base.symm.trans opens
    rw [recovered.opened.base, recovered'.opened.base]
  · rw [recovered'.getHashed small, recovered.getHashed small, sameOps]
  · rw [memory, memory']
    exact OverlayMap.chargeOf_latest distinct' distinct fun key => by rw [latest', latest, sameOps]

/-- After any reads of the `OnRead` handle, `verify` says what a `Full` open would. -/
theorem verify_iff_full (small : f.len < 2 ^ 63) (onRead : openIn C options .onRead f = (.ok db, d))
    {readers : Readers} (reached : Reached C ⟨⟨db, d⟩, [], []⟩ readers) :
    (Database.verify C readers.handle).1 = .ok () ↔
      ∃ db' d', openIn C options .full f = (.ok db', d') := by
  obtain ⟨sb, base, records, rest, recovered⟩ := open_recovered small onRead
  obtain ⟨layout, laid, -, readable, steady⟩ := recovered.steady small
  have mapping : db.readView.base.mapping = sb.baseBytes := by
    obtain ⟨_, -, -, -, -, baseIs⟩ := open_eq_ok.mp recovered.openable.base
    rw [Database.readView, recovered.opened.base, baseIs]
    rfl
  rw [verify_iff readable (reached.goes_on readable steady), mapping, recovered.deref small]
  refine (full_iff_passes laid recovered.openable.base).symm.trans ⟨?_, ?_⟩
  · rintro ⟨base', opened⟩
    have openable : Openable C VerificationMode.full f sb base' records rest :=
      ⟨recovered.openable.root, opened, recovered.openable.log⟩
    obtain ⟨db', d', ran, -⟩ := @Openable.opens C { options with verification := .full } f sb base'
      records rest openable ⟨recovered.allows.enough, recovered.allows.room⟩ small
    exact ⟨db', d', ran⟩
  · rintro ⟨db', d', full⟩
    obtain ⟨sb', base', records', rest', recovered'⟩ := open_recovered small full
    cases recovered.openable.root.symm.trans recovered'.openable.root
    exact ⟨base', recovered'.openable.base⟩

/-- A `Full` open succeeds just when an `OnRead` open and then `verify` do, also after any reads
in between, and the two handles then agree. -/
theorem full_open_iff_verify (C : Crates) (options : DatabaseOptions) (f : File)
    (small : f.len < 2 ^ 63) :
    ((∃ db d, openIn C options .full f = (.ok db, d)) ↔
      ∃ db d, openIn C options .onRead f = (.ok db, d) ∧ (Database.verify C ⟨db, d⟩).1 = .ok ()) ∧
    (∀ db d, openIn C options .onRead f = (.ok db, d) →
      ∀ readers, Reached C ⟨⟨db, d⟩, [], []⟩ readers →
        ((Database.verify C readers.handle).1 = .ok () ↔
          ∃ db' d', openIn C options .full f = (.ok db', d'))) ∧
    ∀ db d db' d', openIn C options .onRead f = (.ok db, d) →
      openIn C options .full f = (.ok db', d') → SameFields db d db' d' := by
  refine ⟨⟨?_, ?_⟩, ?_, ?_⟩
  · rintro ⟨db', d', full⟩
    obtain ⟨sb, base, records, rest, recovered⟩ := open_recovered small full
    obtain ⟨v, opens⟩ := onRead_of_full recovered.openable.base
    obtain ⟨db, d, onRead, -⟩ := @Openable.opens C { options with verification := .onRead } f sb _
      records rest ⟨recovered.openable.root, opens, recovered.openable.log⟩
      ⟨recovered.allows.enough, recovered.allows.room⟩ small
    exact ⟨db, d, onRead, (verify_iff_full small onRead .start).mpr ⟨db', d', full⟩⟩
  · rintro ⟨db, d, onRead, verified⟩
    exact (verify_iff_full small onRead .start).mp verified
  · exact fun db d onRead readers reached => verify_iff_full small onRead reached
  · exact fun db d db' d' onRead full => sameFields small onRead full

/-- A file with a record in a damaged block opens with `OnRead`, but not with `Full`, and does
not pass `verify`. -/
theorem full_open_iff_verify_damaged : ∃ db d,
    openIn zeroHash .default .onRead (craftedImage soleRecord [wrongChecksum soleRecord] 1) = (.ok db, d) ∧
    (¬∃ db' d', openIn zeroHash .default .full (craftedImage soleRecord [wrongChecksum soleRecord] 1) =
      (.ok db', d')) ∧
    (Database.verify zeroHash ⟨db, d⟩).1 ≠ .ok () := by
  obtain ⟨db, d, opened, -⟩ := soleRecord_opens
  have small := @crafted_small soleRecord [wrongChecksum soleRecord] 1 (by decide)
  have refused : ¬∃ db' d', openIn zeroHash .default .full
      (craftedImage soleRecord [wrongChecksum soleRecord] 1) = (.ok db', d') := by
    rintro ⟨db', d', full⟩
    have file := @crafted_file soleRecord [wrongChecksum soleRecord] 1 (by decide) (by decide) (by decide)
    obtain ⟨sb, base, records, rest, recovered⟩ := open_recovered small full
    cases file.root.symm.trans recovered.openable.root
    obtain ⟨layout, laid, -, -, passes, -⟩ := open_eq_ok.mp recovered.openable.base
    cases (file.laid.symm.trans (congrArg segmentLayout file.deref).symm).trans laid
    exact wrongChecksum_ne soleRecord ((passes rfl).1 0 (by decide))
  exact ⟨db, d, opened, refused, fun verified => refused (((full_open_iff_verify zeroHash .default _ small).2.1
    db d opened _ .start).mp verified)⟩

end Modes

end Lkv
