/-
# Lkv.System.MemoryLifecycle — creating a database in memory, and its runs

Creating writes the same bytes to the storage as creating a file does (`emptyStorage_file`),
then loads what it wrote, and the result is the empty database (`wp_memoryWithOptions`).  The
only failures are those of an allocation and of options that leave no room.

`MemoryRun` are the runs of such a database: commits and compactions, of which any allocation
may fail, reads and snapshots.  In every run the database resides in memory with the map that
the client expects (`MemoryRun.resides`).
-/
import Lkv.System.InMemory
import Lkv.System.Runs

namespace Lkv
open Lkv.Theory Lkv.Theory.Prog Dictionary

set_option autoImplicit false

/-! ## The storage of a new database -/

/-- The storage after creating, with the position behind the root page. -/
def emptyStorage (C : Crates) : MemoryStorage where
  header := Mem.overwrite (List.replicate dataStart 0) superblockSize (emptyContents C).root.encodePage
  base := some ⟨dataStart, segmentBytes emptyData⟩
  tailStart := minDatabaseBytes
  tail := []
  len := minDatabaseBytes
  position := dataStart

section Storage

variable {C : Crates}

theorem emptyStorage_header :
    (emptyStorage C).header.length = dataStart ∧
      ∀ i, (emptyStorage C).header.getD i 0 =
        if i < superblockSize then 0
        else (emptyContents C).root.encodePage.getD (i - superblockSize) 0 := by
  have size := (emptyContents C).root.encodePage_length
  have ends : (List.replicate dataStart (0 : UInt8)).length =
      superblockSize + (emptyContents C).root.encodePage.length := by
    rw [List.length_replicate, size]
    rfl
  refine ⟨?_, fun i => ?_⟩
  · refine (Mem.overwrite_length ends).trans ?_
    rw [size]
    rfl
  · refine (Mem.overwrite_getD ends i).trans ?_
    by_cases below : i < superblockSize
    · have inside : i < dataStart := below.trans (by decide)
      rw [if_pos below, if_pos below, List.getD_eq_getElem?_getD, List.getElem?_replicate, if_pos inside]
      rfl
    · rw [if_neg below, if_neg below]

theorem emptyStorage_fits : (emptyStorage C).Fits where
  header := emptyStorage_header.1.le
  blank i past := List.getD_eq_default _ _ (by
    have : minDatabaseBytes ≤ i := past
    rw [emptyStorage_header.1]
    exact le_trans (by decide) this)
  tail := .inl rfl
  alone := nofun
  base := by
    rintro _ ⟨⟩
    refine ⟨le_rfl, ?_, le_rfl⟩
    show dataStart + (segmentBytes emptyData).length ≤ minDatabaseBytes
    rw [emptyData_segment]
    exact le_rfl

/-- A memory database begins with the bytes of a new file. -/
theorem emptyStorage_file : (emptyStorage C).file = emptyImage C := by
  have pageSize := (emptyContents C).root.encodePage_length
  have page : Superblock.pageOffset 1 = superblockSize := rfl
  have segment := emptyData_segment
  obtain ⟨headerSize, header⟩ := @emptyStorage_header C
  have data : dataStart = superblockSize + superblockSize := rfl
  have whole : minDatabaseBytes = dataStart + emptySegmentSize := rfl
  refine File.ext (emptyImage_len C).symm fun i => ?_
  rw [emptyStorage_fits.file_byte, emptyImage, page]
  by_cases front : i < dataStart
  · rw [MemoryStorage.byteAt_header (front.trans_eq headerSize.symm), header]
    by_cases first : i < superblockSize
    · rw [if_pos first, File.write_byte_of_outside _ (.inl first),
        File.write_byte_of_outside _ (.inl front), File.setLen_byte _ front]
      rfl
    · rw [if_neg first, File.write_byte_of_inside _ (Nat.not_lt.mp first) (by rw [pageSize]; omega)]
  · rw [File.write_byte_of_outside _ (.inr (by rw [pageSize]; omega))]
    by_cases inside : i < minDatabaseBytes
    · have covers : (⟨dataStart, segmentBytes emptyData⟩ : MemoryRegion).Covers i := by
        refine ⟨Nat.not_lt.mp front, ?_⟩
        show i < dataStart + (segmentBytes emptyData).length
        omega
      rw [MemoryStorage.byteAt_base (by omega) rfl covers,
        File.write_byte_of_inside _ (Nat.not_lt.mp front) (by omega)]
    · have past : minDatabaseBytes ≤ i := Nat.not_lt.mp inside
      rw [emptyStorage_fits.byteAt_past past, File.zero_past_end]
      rw [emptyBase_len]
      exact past

end Storage

/-! ## Creating -/

theorem emptyData_length : emptyData.length = baseHeader := rfl

theorem segmentBytes_emptyData :
    segmentBytes emptyData = emptyData ++ checksumMetadata baseHeader [(crc32c emptyData).toNat] := by
  have block : dataBlock emptyData 0 = emptyData := window_eq_self _ _ (by decide)
  rw [segmentBytes, blockChecksums, emptyData_length,
    show List.range (divCeil baseHeader checksumBlockSize) = [0] from rfl, List.map_singleton, block]

namespace Mem

variable {m : Memory} {bytes : Bytes}

theorem resized_self (bytes : Bytes) : resized bytes bytes.length = bytes := by
  rw [resized, List.take_length, Nat.sub_self]
  exact List.append_nil bytes

theorem wp_setLen_new (new : m.storage = .new) :
    wp (setLen dataStart)
      (fun _ m' => m'.faults <:+ m.faults ∧ m'.storage =
        ⟨List.replicate dataStart 0, none, dataStart, [], dataStart, 0⟩)
      (fun e m' => (∃ error, e = .err error) ∧ ¬m.Quiet ∧ m'.faults <:+ m.faults ∧
        m'.storage = m.storage) m := by
  have blank : resized [] dataStart = List.replicate dataStart 0 := by
    rw [resized, List.take_nil, List.nil_append, List.length_nil, Nat.sub_zero]
  refine wp_bind (wp_state ?_)
  rw [new]
  dsimp only
  rw [if_neg (show ¬(MemoryStorage.new.base.isSome = true) from Bool.false_ne_true), if_pos le_rfl]
  refine wp_bind (wp_resizeBytes (fun faults left => wp_update ⟨left, ?_⟩) fun error faults loud left =>
    ⟨⟨error, rfl⟩, loud, left, new⟩)
  show ({ m.storage with
    header := resized [] dataStart, tail := [], tailStart := dataStart, len := dataStart } : MemoryStorage) = _
  rw [new, blank]
  rfl

/-- The whole tail becomes the Base. -/
theorem wp_loadImmutable_tail {header : Bytes} {position : Nat} (some : bytes ≠ [])
    (word : dataStart + bytes.length < 2 ^ 64)
    (is : m.storage = ⟨header, none, dataStart, bytes, dataStart + bytes.length, position⟩) :
    wp (loadImmutable dataStart bytes.length)
      (fun mapping m' => mapping = .memory bytes ∧ m'.faults = m.faults ∧ m'.storage =
        ⟨header, Option.some ⟨dataStart, bytes⟩, dataStart + bytes.length, [], dataStart + bytes.length,
          position⟩) (fun _ _ => False) m := by
  have stop : (checkedAdd dataStart bytes.length).filter (· ≤ m.storage.len) =
      Option.some (dataStart + bytes.length) := by
    rw [checkedAdd_some word, is]
    exact if_pos (decide_eq_true le_rfl)
  unfold loadImmutable
  rw [if_neg (List.length_pos_iff.mpr some).ne']
  refine wp_bind (wp_state ?_)
  dsimp only
  rw [stop]
  refine wp_bind (wp_lift_ok ?_)
  rw [is, show insideBase _ _ _ = none from rfl]
  dsimp only
  rw [if_pos ⟨rfl, rfl, rfl⟩]
  refine wp_bind (wp_update (wp_pure ⟨rfl, rfl, ?_⟩))
  rw [is]

/-- A range that is the installed Base. -/
theorem wp_loadImmutable_base {base : MemoryRegion} (some : base.bytes ≠ []) (word : base.stop < 2 ^ 64)
    (inside : base.stop ≤ m.storage.len) (is : m.storage.base = Option.some base) :
    wp (loadImmutable base.offset base.bytes.length)
      (fun mapping m' => mapping = .memory base.bytes ∧ m' = m) (fun _ _ => False) m := by
  have stop : (checkedAdd base.offset base.bytes.length).filter (· ≤ m.storage.len) =
      Option.some base.stop := by
    rw [checkedAdd_some word]
    exact if_pos (decide_eq_true inside)
  have found : insideBase m.storage base.offset base.stop = Option.some base := by
    rw [insideBase, is, Option.filter_some, if_pos (decide_eq_true ⟨le_rfl, le_rfl⟩)]
  unfold loadImmutable
  rw [if_neg (List.length_pos_iff.mpr some).ne']
  refine wp_bind (wp_state ?_)
  dsimp only
  rw [stop]
  refine wp_bind (wp_lift_ok ?_)
  rw [found]
  refine wp_pure ⟨?_, rfl⟩
  rw [Nat.sub_self, window_all]

end Mem

namespace Volatile

variable {ram : Ram} {C : Crates}

/-- Creating was given up because an allocation failed. -/
structure Broke (ram : Ram) (e : Stop) (ram' : Ram) : Prop where
  error : ∃ error, e = .err error
  loud : ¬ram.memory.Quiet
  grew : ram.Grew minDatabaseBytes ram'

theorem OutOfMemory.broke {ram₁ ram' : Ram} {e : Stop} (broken : OutOfMemory ram₁ e ram')
    (before : ram.Grew minDatabaseBytes ram₁) (low : ram₁.memory.storage.len ≤ minDatabaseBytes) :
    Broke ram e ram' :=
  ⟨broken.error, fun quiet => broken.loud (before.quiet quiet), before.trans (broken.grew.mono low)⟩

/-- The header of the empty Base is read back, and its checksum appended. -/
theorem wp_appendBlockChecksum {header : Bytes} {position : Nat} (size : header.length = dataStart)
    (is : ram.memory.storage =
      ⟨header, none, dataStart, emptyData, dataStart + baseHeader, position⟩) :
    wp (appendBlockChecksum dataStart baseHeader)
      (fun n ram' => n = emptySegmentSize ∧ ram.Grew minDatabaseBytes ram' ∧ ram'.memory.storage =
        ⟨header, none, dataStart, segmentBytes emptyData, minDatabaseBytes, minDatabaseBytes⟩)
      (Broke ram) ram := by
  have low : dataStart + baseHeader ≤ minDatabaseBytes := by decide
  have len0 : ram.memory.storage.len = dataStart + baseHeader := by rw [is]
  refine wp_bind (wp_seekStart (by decide) fun ram1 grew1 is1 => ?_)
  have grew1 := grew1.mono (len0.trans_le low)
  have is1 : ram1.memory.storage =
      ⟨header, none, dataStart, emptyData, dataStart + baseHeader, dataStart⟩ := by
    rw [is1, is]
  have len1 : ram1.memory.storage.len = dataStart + baseHeader := by rw [is1]
  have fits1 : ram1.memory.storage.Fits := by
    rw [is1]
    refine ⟨size.le, fun i past => ?_, .inr (by rw [MemoryRegion.stop]; exact le_rfl), fun _ => rfl, nofun⟩
    exact List.getD_eq_default _ _ (size.trans_le ((Nat.le_add_right _ _).trans past))
  have block : ram1.memory.storage.file.slice dataStart baseHeader = emptyData := by
    refine Eq.trans (Eq.symm ?_) (window_all emptyData)
    refine MemoryStorage.slice_eq_window _ le_rfl fun i below => ?_
    rw [fits1.file_byte, fits1.byteAt_tail (by rw [is1]; exact Nat.le_add_right _ _), is1]
    dsimp only
    rw [Nat.add_sub_cancel_left, Nat.zero_add]
  refine wp_bind (wp_readExact fits1 (by rw [is1]) fun ram2 grew2 is2 => ?_)
  have grew2 := grew1.trans (grew2.mono (len1.trans_le low))
  have is2 : ram2.memory.storage =
      ⟨header, none, dataStart, emptyData, dataStart + baseHeader, dataStart + baseHeader⟩ := by
    rw [is2, is1]
  have len2 : ram2.memory.storage.len = dataStart + baseHeader := by rw [is2]
  refine wp_bind (wp_reserve ?_ fun e ram' broken => broken.broke grew2 (len2.trans_le low))
  intro ram3 grew3 is3
  have grew3 := grew2.trans (grew3.mono (len2.trans_le low))
  have len3 : ram3.memory.storage.len = dataStart + baseHeader := by rw [is3, is2]
  have position1 : ram1.memory.storage.position = dataStart := by rw [is1]
  rw [position1, block]
  have metadataSize := checksumMetadata_length baseHeader [(crc32c emptyData).toNat]
  have segment := segmentBytes_emptyData
  generalize checksumMetadata baseHeader [(crc32c emptyData).toNat] = metadata at metadataSize segment ⊢
  have some : metadata ≠ [] := List.ne_nil_of_length_pos (metadataSize.symm ▸ by decide)
  have ends : dataStart + baseHeader + metadata.length = minDatabaseBytes := by
    rw [metadataSize]
    rfl
  refine wp_bind (wp_seekStart (by decide) fun ram4 grew4 is4 => ?_)
  have grew4 := grew3.trans (grew4.mono (len3.trans_le low))
  have is4 : ram4.memory.storage =
      ⟨header, none, dataStart, emptyData, dataStart + baseHeader, dataStart + baseHeader⟩ := by
    rw [is4, is3, is2]
  have len4 : ram4.memory.storage.len = dataStart + baseHeader := by rw [is4]
  refine wp_bind (wp_writeAll_behind some (by rw [is4]) (by rw [is4]; rfl)
    (by rw [is4]; exact ends.trans_lt (by decide)) ?_
    fun e ram' broken => broken.broke grew4 (len4.trans_le low))
  intro ram5 grew5 is5
  have is5 : ram5.memory.storage =
      ⟨header, none, dataStart, segmentBytes emptyData, minDatabaseBytes, minDatabaseBytes⟩ := by
    rw [is5, is4, segment]
    dsimp only
    rw [ends, Nat.max_eq_right low]
  refine wp_pure ⟨?_, grew4.trans (grew5.mono (by rw [is5])), is5⟩
  rw [metadataSize]
  rfl

theorem wp_writeEmptyBaseAt {header : Bytes} {position : Nat} (size : header.length = dataStart)
    (is : ram.memory.storage = ⟨header, none, dataStart, [], dataStart, position⟩) :
    wp (writeEmptyBaseAt dataStart)
      (fun n ram' => n = emptySegmentSize ∧ ram.Grew minDatabaseBytes ram' ∧ ram'.memory.storage =
        ⟨header, none, dataStart, segmentBytes emptyData, minDatabaseBytes, minDatabaseBytes⟩)
      (Broke ram) ram := by
  have low : dataStart ≤ minDatabaseBytes := by decide
  have mid : dataStart + baseHeader ≤ minDatabaseBytes := by decide
  have dataIs : hashSectionId ++ (leBytes 4 baseHeader ++ (leBytes 8 0 ++ leBytes 8 0)) = emptyData := by
    rw [emptyData, dataBytes]
    exact (List.append_nil _).symm
  have some : emptyData ≠ [] := by decide
  unfold writeEmptyBaseAt
  dsimp only
  rw [dataIs]
  refine wp_bind (wp_seekStart (by decide) fun ram1 grew1 is1 => ?_)
  have len0 : ram.memory.storage.len = dataStart := by rw [is]
  have grew1 := grew1.mono (len0.trans_le low)
  have is1 : ram1.memory.storage = ⟨header, none, dataStart, [], dataStart, dataStart + baseHeader⟩ := by
    rw [is1, is]
  refine wp_bind (wp_seekStart (by decide) fun ram2 grew2 is2 => ?_)
  have len1 : ram1.memory.storage.len = dataStart := by rw [is1]
  have grew2 := grew1.trans (grew2.mono (len1.trans_le low))
  have is2 : ram2.memory.storage = ⟨header, none, dataStart, [], dataStart, dataStart⟩ := by
    rw [is2, is1]
  refine wp_bind (wp_writeAll_behind some (by rw [is2]) (by rw [is2]; rfl)
    (by rw [is2]; exact (by decide : dataStart + emptyData.length < 2 ^ 64)) ?_
    fun e ram' broken => broken.broke grew2 (by rw [is2]; exact low))
  intro ram3 grew3 is3
  have is3 : ram3.memory.storage =
      ⟨header, none, dataStart, emptyData, dataStart + baseHeader, dataStart + baseHeader⟩ := by
    rw [is3, is2]
    rfl
  have len3 : ram3.memory.storage.len = dataStart + baseHeader := by rw [is3]
  have grew3 := grew2.trans (grew3.mono (len3.trans_le mid))
  rw [Nat.add_sub_cancel_left]
  refine wp_mono (wp_appendBlockChecksum size is3) ?_ ?_
  · rintro n ram4 ⟨rfl, grew4, is4⟩
    exact ⟨rfl, grew3.trans grew4, is4⟩
  · intro e ram4 broke
    exact ⟨broke.error, fun quiet => broke.loud (grew3.quiet quiet), grew3.trans broke.grew⟩

theorem wp_initializeStorage (C : Crates) (new : ram.memory.storage = .new) :
    wp initializeStorage
      (fun _ ram' => ram.Grew minDatabaseBytes ram' ∧ ram'.memory.storage = emptyStorage C)
      (Broke ram) ram := by
  have low : dataStart ≤ minDatabaseBytes := by decide
  have isBase := emptyData_isBase C dataStart (by decide)
  have segment := emptyData_segment
  have metadata := segmentMetadataChecksum_written isBase
  have some := segmentBytes_ne_nil emptyData
  have root := emptyContents_root C
  refine wp_bind (wp_call (wp_mono (Mem.wp_setLen_new new) ?_ ?_))
  swap
  · rintro e memory ⟨error, loud, left, same⟩
    refine ⟨error, loud, .call ?_ left⟩
    rw [same, new]
    exact Nat.zero_le _
  rintro _ memory ⟨left, is1⟩
  have grew1 : ram.Grew minDatabaseBytes ⟨memory, ram.lengths ++ [memory.storage.len]⟩ :=
    .call (by rw [is1]; exact low) left
  generalize ramIs : (⟨memory, ram.lengths ++ [memory.storage.len]⟩ : Ram) = ram1 at grew1
  have is1 : ram1.memory.storage = ⟨List.replicate dataStart 0, none, dataStart, [], dataStart, 0⟩ := by
    rw [← ramIs]
    exact is1
  refine wp_bind (wp_mono (wp_writeEmptyBaseAt List.length_replicate is1) ?_ ?_)
  swap
  · intro e ram' broke
    exact ⟨broke.error, fun quiet => broke.loud (grew1.quiet quiet), grew1.trans broke.grew⟩
  rintro _ ram2 ⟨rfl, grew2, is2⟩
  have grew2 := grew1.trans grew2
  rw [show minDatabaseBytes = dataStart + (segmentBytes emptyData).length by rw [segment]; rfl] at is2
  rw [← segment]
  refine wp_bind (wp_call (wp_mono (Mem.wp_loadImmutable_tail some (by rw [segment]; decide) is2) ?_
    fun _ _ => False.elim))
  rintro _ memory ⟨rfl, left, is3⟩
  have grew3 : ram2.Grew minDatabaseBytes ⟨memory, ram2.lengths ++ [memory.storage.len]⟩ :=
    .call (by rw [is3, segment]; exact le_rfl) (left ▸ List.suffix_rfl)
  generalize ramIs3 : (⟨memory, ram2.lengths ++ [memory.storage.len]⟩ : Ram) = ram3 at grew3
  have is3 : ram3.memory.storage = ⟨List.replicate dataStart 0,
      Option.some ⟨dataStart, segmentBytes emptyData⟩, minDatabaseBytes, [], minDatabaseBytes,
      minDatabaseBytes⟩ := by
    rw [← ramIs3]
    rw [segment] at is3
    exact is3
  have grew3 := grew2.trans grew3
  refine wp_bind (wp_state ?_)
  rw [show BaseBytes.deref _ _ = segmentBytes emptyData from rfl, metadata, segment]
  refine wp_bind (wp_lift_ok ?_)
  rw [← root]
  refine wp_writeRoot _ (fun ram4 grew4 is4 => ?_) ?_
  · have is4 : ram4.memory.storage = emptyStorage C := by
      have generation : (emptyContents C).root.generation = 1 := rfl
      have page : Superblock.pageOffset (emptyContents C).root.generation = superblockSize := by
        rw [generation]
        rfl
      have same := Mem.resized_self (List.replicate dataStart 0)
      rw [List.length_replicate] at same
      rw [is4, is3, page, show superblockSize + superblockSize = dataStart from rfl]
      dsimp only
      rw [same]
      rfl
    refine ⟨grew3.trans (grew4.mono (by rw [is4]; exact le_rfl)), is4⟩
  · intro e ram4 error loud grew4 len
    exact ⟨error, fun quiet => loud (grew3.quiet quiet), grew3.trans (grew4.mono (by rw [is3]))⟩

/-- Reading a root page that is there. -/
theorem wp_readPage {fileLen offset : Nat} (fits : ram.memory.storage.Fits)
    (inside : offset + superblockSize ≤ ram.memory.storage.len) (word : offset < 2 ^ 64) :
    wp (readPage fileLen offset)
      (fun kind ram' => kind = pageKind ram.memory.storage.file fileLen offset ∧
        ram.Grew ram.memory.storage.len ram' ∧
        ∃ position, ram'.memory.storage = { ram.memory.storage with position := position })
      (fun _ _ => False) ram := by
  refine wp_bind (wp_seekStart word fun ram1 grew1 is1 => ?_)
  have len1 : ram1.memory.storage.len = ram.memory.storage.len := by rw [is1]
  refine wp_bind (wp_attempt (wp_readExact (is1 ▸ fits.moved offset) (by rw [is1]; exact inside) ?_))
  intro ram2 grew2 is2
  rw [len1] at grew2
  refine wp_pure ⟨?_, grew1.trans grew2, offset + superblockSize, ?_⟩
  · rw [is1, pageKind]
    exact (if_pos inside).symm
  · rw [is2, is1]

theorem wp_readLatestFrom {fileLen : Nat} {root : Superblock} (fits : ram.memory.storage.Fits)
    (long : dataStart ≤ ram.memory.storage.len)
    (select : selectRoot ram.memory.storage.file fileLen = .ok root) :
    wp (readLatestFrom fileLen)
      (fun sb ram' => sb = root ∧ ram.Grew ram.memory.storage.len ram' ∧
        ∃ position, ram'.memory.storage = { ram.memory.storage with position := position })
      (fun _ _ => False) ram := by
  have data : dataStart = superblockSize + superblockSize := rfl
  refine wp_bind (wp_mono (wp_readPage fits (by omega) (by decide)) ?_ fun _ _ => False.elim)
  rintro _ ram1 ⟨rfl, grew1, position1, is1⟩
  have len1 : ram1.memory.storage.len = ram.memory.storage.len := by rw [is1]
  have file1 : ram1.memory.storage.file = ram.memory.storage.file := by rw [is1]; rfl
  refine wp_bind (wp_mono (wp_readPage (is1 ▸ fits.moved position1) (by omega) (by decide)) ?_
    fun _ _ => False.elim)
  rintro _ ram2 ⟨rfl, grew2, position2, is2⟩
  rw [len1] at grew2
  rw [file1]
  refine wp_lift (fun sb chosen => ?_) fun e refused => ?_
  · refine ⟨Except.ok.inj (chosen.symm.trans select), grew1.trans grew2, position2, ?_⟩
    rw [is2, is1]
  · cases refused.symm.trans select

end Volatile

/-! ## The new database -/

section Create

variable {C : Crates} {ram : Ram} {options : DatabaseOptions}

theorem Volatile.wp_fromStorage (is : ram.memory.storage = emptyStorage C)
    (enough : minDatabaseBytes ≤ options.maxDatabaseBytes.toNat)
    (within : ∀ n ∈ ram.lengths, n ≤ minDatabaseBytes) :
    wp (Volatile.fromStorage C options)
      (fun db ram' => (emptyContents C).Resides ⟨db, ram'⟩ ∧ db.options = options ∧
        db.snapshotGuard = 1 ∧ db.state = .healthy ∧ ram.Grew minDatabaseBytes ram')
      (fun _ _ => False) ram := by
  have len : ram.memory.storage.len = minDatabaseBytes := by rw [is]; rfl
  have file : ram.memory.storage.file = emptyImage C := by rw [is, emptyStorage_file]
  have image := (emptyImage_image C).legible
  have select : selectRoot ram.memory.storage.file ram.memory.storage.len = .ok (emptyContents C).root := by
    rw [len, file, ← emptyImage_len C]
    exact image.select
  refine wp_bind (wp_state ?_)
  dsimp only
  rw [if_neg (by rw [len]; exact Nat.not_lt.mpr enough)]
  refine wp_bind (wp_bind (wp_state (wp_bind (wp_mono
    (Volatile.wp_readLatestFrom (is ▸ emptyStorage_fits) (by rw [len]; decide) select) ?_
    fun _ _ => False.elim))))
  rintro _ ram1 ⟨rfl, grew1, position1, is1⟩
  obtain ⟨c, cIs⟩ : ∃ c, emptyContents C = c := ⟨_, rfl⟩
  have front : c.root.baseOffset = dataStart := by
    rw [← cIs]
    exact Contents.ofBase_baseOffset ..
  have ends : c.root.logStart = minDatabaseBytes := by
    rw [← emptyContents_logEnd C, cIs]
    rw [← cIs]
    rfl
  have base1 : ram1.memory.storage.base = some ⟨c.root.baseOffset, segmentBytes c.data⟩ := by
    rw [is1, is, front, ← cIs]
    rfl
  have len1 : ram1.memory.storage.len = minDatabaseBytes := by rw [is1, len]
  have stop : (⟨c.root.baseOffset, segmentBytes c.data⟩ : MemoryRegion).stop = minDatabaseBytes :=
    c.base_end.trans ends
  rw [cIs, c.size]
  refine wp_bind (Volatile.wp_call (wp_mono (@Mem.wp_loadImmutable_base _
    ⟨c.root.baseOffset, segmentBytes c.data⟩ (segmentBytes_ne_nil _) (by rw [stop]; decide)
    (by rw [stop, len1]) base1) ?_ fun _ _ => False.elim))
  rintro _ _ ⟨rfl, rfl⟩
  have grew2 := grew1.trans (.call (len1.trans len.symm).le List.suffix_rfl)
  generalize ramIs : (⟨ram1.memory, ram1.lengths ++ [ram1.memory.storage.len]⟩ : Ram) = ram2 at grew2 ⊢
  have len2 : ram2.memory.storage.len = minDatabaseBytes := by
    rw [← ramIs]
    exact len1
  have opened : ActiveBase.open C ram2.memory.storage.file (.memory (segmentBytes c.data)) c.root
      options.verification = .ok (c.residentBase
        (verifierOf c.root.baseOffset c.data c.data (options.verification = .full))) :=
    open_written c.isBase c.distinct rfl c.describes
  have logStart : ∀ v, (c.residentBase v).logStart = minDatabaseBytes := fun v => ends
  refine wp_bind (wp_state ?_)
  dsimp only
  rw [opened]
  refine wp_bind (wp_lift_ok ?_)
  rw [logStart, len, checkedSub_some le_rfl, Nat.sub_self]
  refine wp_bind (wp_lift_ok ?_)
  rw [if_neg (not_not_intro rfl)]
  refine wp_bind (wp_lift_ok (wp_bind (Volatile.wp_seekEnd (by rw [len2]; decide) ?_)))
  intro ram3 grew3 is3
  rw [len2] at grew3
  rw [len] at grew2
  have grew := grew2.trans grew3
  have len3 : ram3.memory.storage.len = minDatabaseBytes := by rw [is3, len2]
  refine wp_pure (wp_pure ⟨⟨rfl, c.checks_verifierOf _, ⟨[], rfl, distinct_nil, ?_, Nat.zero_le _⟩, front, ?_, ?_,
    fun n member => ?_, nofun⟩, rfl, rfl, rfl, grew⟩)
  · rw [← cIs]
    exact fun _ => rfl
  · rw [← cIs, emptyContents_logEnd]
    exact len3
  · exact len3.trans_le enough
  · exact ((grew.lengths n member).elim (within n) id).trans enough

/-- Creating gives the empty database, unless the limit is below the size of one or an
allocation fails. -/
theorem wp_memoryWithOptions (C : Crates) (options : DatabaseOptions) (faults : List Fault) :
    wp (memoryWithOptions C options)
      (fun db ram => (emptyContents C).Resides ⟨db, ram⟩ ∧ db.options = options ∧
        db.snapshotGuard = 1 ∧ db.state = .healthy)
      (fun e ram => (∃ error, e = .err error) ∧
        (∀ n ∈ ram.lengths, n ≤ options.maxDatabaseBytes.toNat) ∧
        (validateOptions options = .error e ∨ ∃ fault ∈ faults, fault ≠ .pass))
      ⟨⟨.new, faults⟩, []⟩ := by
  unfold memoryWithOptions
  by_cases small : options.maxDatabaseBytes.toNat < minDatabaseBytes
  · have refused : validateOptions options = fail _ := if_pos small
    rw [refused]
    exact wp_bind (wp_lift_error ⟨⟨_, rfl⟩, List.forall_mem_nil _, .inl rfl⟩)
  have enough := Nat.not_lt.mp small
  have accepted : validateOptions options = .ok () := if_neg small
  rw [accepted]
  refine wp_bind (wp_lift_ok (wp_bind (wp_mono (Volatile.wp_initializeStorage C rfl) ?_ ?_)))
  · rintro _ ram1 ⟨grew1, is1⟩
    have within : ∀ n ∈ ram1.lengths, n ≤ minDatabaseBytes := fun n member =>
      (grew1.lengths n member).resolve_left List.not_mem_nil
    refine wp_mono (Volatile.wp_fromStorage is1 enough within) ?_ fun _ _ => False.elim
    rintro db ram2 ⟨resides, optionsIs, guard, healthy, -⟩
    exact ⟨resides, optionsIs, guard, healthy⟩
  · intro e ram1 broke
    refine ⟨broke.error, fun n member => ?_, .inr ?_⟩
    · exact ((broke.grew.lengths n member).resolve_left List.not_mem_nil).trans enough
    · have loud := broke.loud
      unfold Memory.Quiet at loud
      push Not at loud
      exact loud

end Create

/-! ## Runs -/

section Runs

variable (C : Crates) (options : DatabaseOptions)

/-- What a run of a memory database can reach, and the map that its client expects then. -/
inductive MemoryRun : MemoryDatabase → (Bytes → Option Bytes) → Prop
  | create {faults : List Fault} {db : Database} {ram : Ram}
      (ran : memoryWithOptions C options ⟨⟨.new, faults⟩, []⟩ = (.ok db, ram)) :
      MemoryRun ⟨db, ram⟩ fun _ => none
  | commit {m m' : MemoryDatabase} {map : Bytes → Option Bytes} {txn : WriteTransaction}
      {ops : List Operation} (before : MemoryRun m map) (faults : List Fault)
      (staging : Staging true txn ops)
      (ran : MemoryDatabase.commitStagedMemory C txn.staged (m.afresh faults) = (.ok (), m')) :
      MemoryRun m' (override map ops)
  | commitFails {m m' : MemoryDatabase} {map : Bytes → Option Bytes} {txn : WriteTransaction}
      {ops : List Operation} {error : Error} (before : MemoryRun m map) (faults : List Fault)
      (staging : Staging true txn ops)
      (ran : MemoryDatabase.commitStagedMemory C txn.staged (m.afresh faults) = (.error (.err error), m')) :
      MemoryRun m' map
  | compact {m m' : MemoryDatabase} {map : Bytes → Option Bytes} (before : MemoryRun m map)
      (faults : List Fault) (ran : MemoryDatabase.compact C (m.afresh faults) = (.ok (), m')) :
      MemoryRun m' map
  | compactFails {m m' : MemoryDatabase} {map : Bytes → Option Bytes} {error : Error}
      (before : MemoryRun m map) (faults : List Fault)
      (ran : MemoryDatabase.compact C (m.afresh faults) = (.error (.err error), m')) :
      MemoryRun m' map
  | read {m : MemoryDatabase} {map : Bytes → Option Bytes} (before : MemoryRun m map) (query : Query) :
      MemoryRun { m with db := (query.after C m.handle).db } map
  | snapshot {m : MemoryDatabase} {map : Bytes → Option Bytes} (before : MemoryRun m map) :
      MemoryRun (Mdb.shared Database.snapshot m).2 map
  | dropSnapshot {m : MemoryDatabase} {map : Bytes → Option Bytes} (before : MemoryRun m map)
      (live : 1 < m.db.snapshotGuard) :
      MemoryRun { m with db := { m.db with snapshotGuard := m.db.snapshotGuard - 1 } } map

end Runs

section Invariant

variable {C : Crates} {c : Contents C} {options : DatabaseOptions} {m : MemoryDatabase}
variable {map : Bytes → Option Bytes}

/-- The snapshots that are out do not matter to the contents. -/
theorem Contents.Resides.guard (resides : c.Resides m) (guard : Nat) :
    c.Resides { m with db := { m.db with snapshotGuard := guard } } :=
  ⟨resides.base, resides.checks, resides.overlay, resides.front, resides.len, resides.room,
    resides.within, resides.available⟩

/-- In every run the database holds contents with the map that the client expects. -/
theorem MemoryRun.resides (run : MemoryRun C options m map) :
    m.db.options = options ∧ ∃ c : Contents C, c.Resides m ∧ c.map = map := by
  induction run with
  | create ran =>
      obtain ⟨resides, optionsIs, -⟩ := wp_ok (wp_memoryWithOptions C options _) ran
      exact ⟨optionsIs, _, resides, emptyContents_map C⟩
  | @commit m m' map txn ops before faults staging ran ih =>
      obtain ⟨optionsIs, c, resides, rfl⟩ := ih
      obtain ⟨-, ⟨nothing, rfl⟩ | ⟨batch, staged, -, committed⟩⟩ :=
        wp_ok (MemoryDatabase.wp_commitStagedMemory (resides.afresh faults) ⟨ops, staging.coherent⟩) ran
      · exact ⟨optionsIs, c, resides.afresh faults, (staging.coherent.commit_nothing nothing).symm⟩
      · exact ⟨committed.config.options.trans optionsIs, _, committed.resides,
          staging.coherent.commit_map staged⟩
  | @commitFails m m' map txn ops error before faults staging ran ih =>
      obtain ⟨optionsIs, c, resides, rfl⟩ := ih
      obtain ⟨rfl, -⟩ :=
        wp_error (MemoryDatabase.wp_commitStagedMemory (resides.afresh faults) ⟨ops, staging.coherent⟩) ran
      exact ⟨optionsIs, c, resides.afresh faults, rfl⟩
  | @compact m m' map before faults ran ih =>
      obtain ⟨optionsIs, c, resides, rfl⟩ := ih
      obtain ⟨-, -, c', done⟩ := wp_ok (MemoryDatabase.wp_compactInMemory (resides.afresh faults)) ran
      exact ⟨done.config.options.trans optionsIs, c', done.resides, done.map⟩
  | @compactFails m m' map error before faults ran ih =>
      obtain ⟨optionsIs, c, resides, rfl⟩ := ih
      have halted := wp_error (MemoryDatabase.wp_compactInMemory (resides.afresh faults)) ran
      exact ⟨halted.config.options.trans optionsIs, c, halted.resides, rfl⟩
  | @read m map before query ih =>
      obtain ⟨optionsIs, c, resides, rfl⟩ := ih
      obtain ⟨v, same, checks⟩ := query.after_answers resides.answers resides.available
      rw [same]
      exact ⟨optionsIs, c, resides.withVerifier checks, rfl⟩
  | @snapshot m map before ih =>
      obtain ⟨optionsIs, c, resides, rfl⟩ := ih
      have after : (Mdb.shared Database.snapshot m).2 = { m with db := (Database.snapshot m.handle).2.db } :=
        rfl
      rw [after]
      rcases snapshot_after m.handle with same | counted
      · rw [same]
        exact ⟨optionsIs, c, resides, rfl⟩
      · rw [counted]
        exact ⟨optionsIs, c, resides.guard _, rfl⟩
  | dropSnapshot before live ih =>
      obtain ⟨optionsIs, c, resides, rfl⟩ := ih
      exact ⟨optionsIs, c, resides.guard _, rfl⟩

end Invariant

end Lkv
