/-
# Lkv.Format.Superblock — the two root pages and how one is chosen

`format/superblock.rs`.  A root is one 4 KiB page; the first page sits at 0 and
the second at 4096, and a generation is written to the page of its parity
(`write`), or to the other one as a copy (`writeRedundant`).  `readLatestFrom`
reads both pages and keeps the candidate of highest generation among those that
pass their checksum and whose ranges fit the file.

A failed read apart, the choice depends only on the two pages and the file
length: `wp_readLatestFrom` reduces the program to `selectRoot`.

Publication is *not* safe from every accepted image.  The page a new root is
written to is picked by parity alone, so an image that survives on the copy
(its own page damaged) loses its only root when the next publication is cut
short: `publication_loses_the_only_root`.  `publication_safe_iff` gives the
exact condition.
-/
import Lkv.Format.Segment

namespace Lkv

open Lkv.Theory

set_option autoImplicit false

/-- `b"LKV\0\0\0\0\0"`. -/
def magic : Bytes := [0x4c, 0x4b, 0x56, 0, 0, 0, 0, 0]

def formatVersion : Nat := 1
def superblockSize : Nat := 4096
def headerSize : Nat := 72
def dataStart : Nat := superblockSize * 2
def envelopeMinSize : Nat := 28

@[ext] structure Superblock where
  generation : Nat
  baseOffset : Nat
  baseSize : Nat
  baseSlots : Nat
  baseLen : Nat
  logStart : Nat
  baseChecksum : Nat
  words : generation < 256 ^ 8 ∧ baseOffset < 256 ^ 8 ∧ baseSize < 256 ^ 8 ∧ baseSlots < 256 ^ 8 ∧
    baseLen < 256 ^ 8 ∧ logStart < 256 ^ 8
  checksumWord : baseChecksum < 256 ^ 4
  deriving DecidableEq

namespace Superblock

/-- The header up to its checksum. -/
def fields (sb : Superblock) : Bytes :=
  magic ++ (leBytes 4 formatVersion ++ (leBytes 4 headerSize ++ (leBytes 8 sb.generation ++
    (leBytes 8 sb.baseOffset ++ (leBytes 8 sb.baseSize ++ (leBytes 8 sb.baseSlots ++
      (leBytes 8 sb.baseLen ++ (leBytes 8 sb.logStart ++ leBytes 4 sb.baseChecksum))))))))

def header (sb : Superblock) : Bytes :=
  sb.fields ++ leBytes 4 (crc32c sb.fields).toNat

def encodePage (sb : Superblock) : Bytes :=
  sb.header ++ List.replicate (superblockSize - headerSize) 0

/-- Where a generation's own page starts. -/
def pageOffset (generation : Nat) : Nat := (generation &&& 1) * superblockSize

/-- The range checks of `read_latest_from`.  A range end past `2 ^ 64` fails them
too: it is beyond `logStart`, which is a word. -/
def Fits (sb : Superblock) (fileLen : Nat) : Prop :=
  ¬(sb.baseOffset < dataStart ∨ sb.baseSize < baseHeader ∨
    fileLen < sb.baseOffset + sb.baseSize ∨ sb.logStart < sb.baseOffset + sb.baseSize ∨
    fileLen < sb.logStart)

instance (sb : Superblock) (fileLen : Nat) : Decidable (sb.Fits fileLen) := by
  unfold Fits
  infer_instance

/-- The fields of a page, read at their offsets. -/
def decode (page : Bytes) : Superblock where
  generation := leNat (window page 16 8)
  baseOffset := leNat (window page 24 8)
  baseSize := leNat (window page 32 8)
  baseSlots := leNat (window page 40 8)
  baseLen := leNat (window page 48 8)
  logStart := leNat (window page 56 8)
  baseChecksum := leNat (window page 64 4)
  words := by
    have word : ∀ start, leNat (window page start 8) < 256 ^ 8 := fun start =>
      lt_of_lt_of_le (leNat_lt _)
        (Nat.pow_le_pow_right (by decide) (window_length_le page start 8))
    exact ⟨word 16, word 24, word 32, word 40, word 48, word 56⟩
  checksumWord :=
    lt_of_lt_of_le (leNat_lt _) (Nat.pow_le_pow_right (by decide) (window_length_le page 64 4))

/-- `superblock::write`: to the page of the generation's parity. -/
def write (sb : Superblock) : Io Unit := do
  Io.seekStart (pageOffset sb.generation)
  Io.writeAll sb.encodePage

/-- `superblock::write_redundant`: to the other page. -/
def writeRedundant (sb : Superblock) : Io Unit := do
  Io.seekStart (pageOffset (← Prog.lift (addOrPanic sb.generation 1)))
  Io.writeAll sb.encodePage

end Superblock

/-- The version-independent envelope of a page: its version and header size. -/
def readEnvelope (page : Bytes) : Option (Nat × Nat) :=
  if window page 0 8 ≠ magic then none
  else
    let size := leNat (window page 12 4)
    if size < envelopeMinSize ∨ superblockSize < size then none
    else
      let checksumOffset := size - 4
      if leNat (window page checksumOffset 4) ≠ (crc32c (window page 0 checksumOffset)).toNat then
        none
      else some (leNat (window page 8 4), size)

/-- What a page is to `read_latest_from`: skipped, of another format version, or
a root to choose from. -/
inductive PageKind where
  | skipped
  | foreign (version : Nat)
  | root (candidate : Superblock)

def classifyPage (fileLen : Nat) (page : Bytes) : PageKind :=
  match readEnvelope page with
  | none => .skipped
  | some (version, size) =>
      if version ≠ formatVersion then .foreign version
      else if size ≠ headerSize then .skipped
      else if (Superblock.decode page).Fits fileLen then .root (Superblock.decode page)
      else .skipped

/-- What the loop of `read_latest_from` carries from page to page. -/
structure RootScan where
  latest : Option Superblock
  unsupportedVersion : Option Nat

namespace RootScan

def start : RootScan := ⟨none, none⟩

/-- One turn of the loop. -/
def consider (scan : RootScan) : PageKind → RootScan
  | .skipped => scan
  | .foreign version => { scan with unsupportedVersion := some version }
  | .root candidate =>
      match scan.latest with
      | none => { scan with latest := some candidate }
      | some current =>
          if candidate.generation > current.generation then
            { scan with latest := some candidate }
          else scan

def finish (scan : RootScan) : Res Superblock :=
  match scan.unsupportedVersion with
  | some version => fail (.fromIo .unsupported s!"unsupported database format version {version}")
  | none =>
      match scan.latest with
      | some latest => .ok latest
      | none => fail (.fromIo .invalidData "no valid superblock")

end RootScan

/-- Read and classify one page; a page past the end of the file is skipped. -/
def readPage (fileLen offset : Nat) : Io PageKind := do
  Io.seekStart offset
  match ← Prog.attempt Stop.error? (Io.readExact superblockSize) with
  | .ok page => return classifyPage fileLen page
  | .error (.io error) =>
      if error.kind = .unexpectedEof then return .skipped else Prog.stop (.err (.io error))
  | .error error => Prog.stop (.err error)

def readLatestFrom (fileLen : Nat) : Io Superblock := do
  let scan := RootScan.start.consider (← readPage fileLen 0)
  let scan := scan.consider (← readPage fileLen superblockSize)
  Prog.lift scan.finish

/-! ## Encoding and decoding a page -/

namespace Superblock

@[simp] theorem magic_length : magic.length = 8 := by decide

@[simp] theorem fields_length (sb : Superblock) : sb.fields.length = 68 := by
  simp [fields]

@[simp] theorem header_length (sb : Superblock) : sb.header.length = headerSize := by
  simp [header, headerSize]

@[simp] theorem encodePage_length (sb : Superblock) : sb.encodePage.length = superblockSize := by
  rw [encodePage, List.length_append, List.length_replicate, header_length]
  decide

theorem header_words (sb : Superblock) :
    window sb.header 0 8 = magic ∧ window sb.header 8 4 = leBytes 4 formatVersion ∧
      window sb.header 12 4 = leBytes 4 headerSize ∧ window sb.header 0 68 = sb.fields ∧
      window sb.header 68 4 = leBytes 4 (crc32c sb.fields).toNat := by
  refine ⟨?_, ?_, ?_, ?_, ?_⟩
  · simp [header, fields, window_append_left, window_eq_self]
  · simp [header, fields, window_append_left, window_append_right, window_eq_self]
  · simp [header, fields, window_append_left, window_append_right, window_eq_self]
  · simp [header, window_append_left, window_eq_self]
  · simp [header, window_append_right, window_eq_self]

theorem decode_header (sb : Superblock) : decode sb.header = sb := by
  obtain ⟨generation, baseOffset, baseSize, baseSlots, baseLen, logStart⟩ := sb.words
  have checksum := sb.checksumWord
  ext <;> simp only [decode, header, fields, window_append_left, window_append_right,
    window_eq_self, List.append_assoc, magic_length, leBytes_length, Nat.reduceSub,
    Nat.reduceLeDiff, Nat.zero_add, le_refl] <;>
    exact leNat_leBytes _ _ (by assumption)

/-- The page starts with the header of `sb`. -/
def OnPage (sb : Superblock) (page : Bytes) : Prop := window page 0 headerSize = sb.header

theorem onPage_encodePage (sb : Superblock) : sb.OnPage sb.encodePage := by
  unfold OnPage encodePage
  rw [window_append_left _ _ _ _ (by simp), window_eq_self _ _ (by simp)]

theorem OnPage.window {sb : Superblock} {page : Bytes} (on : sb.OnPage page) {start count : Nat}
    (inside : start + count ≤ headerSize) :
    Theory.window page start count = Theory.window sb.header start count := by
  unfold OnPage at on
  rw [← on, window_window _ _ _ _ _ inside, Nat.zero_add]

theorem OnPage.decode {sb : Superblock} {page : Bytes} (on : sb.OnPage page) :
    Superblock.decode page = sb := by
  rw [← decode_header sb]
  unfold Superblock.decode
  congr 2 <;> exact on.window (by decide)

theorem OnPage.envelope {sb : Superblock} {page : Bytes} (on : sb.OnPage page) :
    readEnvelope page = some (formatVersion, headerSize) := by
  obtain ⟨first, version, size, fields, checksum⟩ := sb.header_words
  have size' : leNat (Theory.window page 12 4) = headerSize := by
    rw [on.window (by decide), size, leNat_leBytes _ _ (by decide)]
  have stored : leNat (Theory.window page 68 4) = (crc32c sb.fields).toNat := by
    rw [on.window (by decide), checksum, leNat_leBytes _ _ (crc32c_lt _)]
  have covered : Theory.window page 0 68 = sb.fields := by
    rw [on.window (by decide), fields]
  have version' : leNat (Theory.window page 8 4) = formatVersion := by
    rw [on.window (by decide), version, leNat_leBytes _ _ (by decide)]
  unfold readEnvelope
  rw [on.window (by decide), first]
  simp [size', version', headerSize, envelopeMinSize, superblockSize, stored, covered]

theorem OnPage.classify {sb : Superblock} {page : Bytes} (on : sb.OnPage page) {fileLen : Nat}
    (fits : sb.Fits fileLen) : classifyPage fileLen page = .root sb := by
  unfold classifyPage
  rw [on.envelope]
  simp [on.decode, fits]

theorem Fits.dataStart_lt {sb : Superblock} {fileLen : Nat} (fits : sb.Fits fileLen) :
    dataStart < fileLen := by
  unfold Fits baseHeader at fits
  omega

end Superblock

/-! ## Choosing a root -/

/-- The kind of the page at `offset` of a file. -/
def pageKind (f : File) (fileLen offset : Nat) : PageKind :=
  if offset + superblockSize ≤ f.len then classifyPage fileLen (f.slice offset superblockSize)
  else .skipped

/-- The root among the pages at 0 and 4096. -/
def chooseRoot (first second : PageKind) : Res Superblock :=
  ((RootScan.start.consider first).consider second).finish

def selectRoot (f : File) (fileLen : Nat) : Res Superblock :=
  chooseRoot (pageKind f fileLen 0) (pageKind f fileLen superblockSize)

section Choosing

variable {first second : PageKind} {sb old new : Superblock}

/-- The page is no obstacle to choosing a root of this generation: it is skipped or
holds a root that is not newer. -/
def PageKind.NotAbove (generation : Nat) : PageKind → Prop
  | .skipped => True
  | .foreign _ => False
  | .root candidate => candidate.generation ≤ generation

theorem PageKind.NotAbove.mono {kind : PageKind} {g g' : Nat} (notAbove : kind.NotAbove g)
    (le : g ≤ g') : kind.NotAbove g' := by
  cases kind with
  | root candidate => exact Nat.le_trans notAbove le
  | skipped => trivial
  | foreign version => exact notAbove

theorem chooseRoot_eq_ok (chosen : chooseRoot first second = .ok sb) :
    (first = .root sb ∧ second.NotAbove sb.generation) ∨
      (second = .root sb ∧ first.NotAbove sb.generation) := by
  cases first with
  | foreign version => cases second <;> simp [chooseRoot, RootScan.start, RootScan.consider,
      RootScan.finish, fail] at chosen
  | skipped =>
      cases second <;> simp [chooseRoot, RootScan.start, RootScan.consider, RootScan.finish, fail]
        at chosen
      exact .inr ⟨congrArg _ chosen, trivial⟩
  | root a =>
      cases second with
      | foreign version => simp [chooseRoot, RootScan.start, RootScan.consider, RootScan.finish,
          fail] at chosen
      | skipped =>
          simp [chooseRoot, RootScan.start, RootScan.consider, RootScan.finish] at chosen
          exact .inl ⟨congrArg _ chosen, trivial⟩
      | root b =>
          by_cases newer : a.generation < b.generation
          · simp [chooseRoot, RootScan.start, RootScan.consider, RootScan.finish, newer] at chosen
            exact .inr ⟨congrArg _ chosen, chosen ▸ Nat.le_of_lt newer⟩
          · simp [chooseRoot, RootScan.start, RootScan.consider, RootScan.finish, newer] at chosen
            exact .inl ⟨congrArg _ chosen, chosen ▸ Nat.le_of_not_lt newer⟩

theorem chooseRoot_first (notAbove : second.NotAbove sb.generation) :
    chooseRoot (.root sb) second = .ok sb := by
  cases second with
  | foreign version => exact notAbove.elim
  | skipped => rfl
  | root b => simp [chooseRoot, RootScan.start, RootScan.consider, RootScan.finish,
      Nat.not_lt.mpr notAbove]

/-- The second page wins over an older root, and a copy of the same root does no harm. -/
theorem chooseRoot_second (notAbove : first.NotAbove sb.generation)
    (same : ∀ other, first = .root other → other.generation = sb.generation → other = sb) :
    chooseRoot first (.root sb) = .ok sb := by
  cases first with
  | foreign version => exact notAbove.elim
  | skipped => rfl
  | root a =>
      simp only [chooseRoot, RootScan.start, RootScan.consider, RootScan.finish]
      rcases Nat.lt_or_eq_of_le notAbove with older | equal
      · simp [older]
      · simp [same a rfl equal]

/-- The page shows what it showed before, or nothing in place of another root than `sb`. -/
def PageKind.Fades (sb : Superblock) (before now : PageKind) : Prop :=
  now = before ∨ now = .skipped ∧ before ≠ .root sb

/-- The chosen root stays the choice when others drop out. -/
theorem chooseRoot_fades {first' second' : PageKind} (chosen : chooseRoot first second = .ok sb)
    (one : PageKind.Fades sb first first') (two : PageKind.Fades sb second second') :
    chooseRoot first' second' = .ok sb := by
  rcases one with rfl | ⟨rfl, notFirst⟩
  · rcases two with rfl | ⟨rfl, notSecond⟩
    · exact chosen
    · rcases chooseRoot_eq_ok chosen with ⟨rfl, -⟩ | ⟨rfl, -⟩
      · rfl
      · exact absurd rfl notSecond
  · rcases chooseRoot_eq_ok chosen with ⟨rfl, -⟩ | ⟨rfl, -⟩
    · exact absurd rfl notFirst
    · rcases two with rfl | ⟨rfl, notSecond⟩
      · rfl
      · exact absurd rfl notSecond

end Choosing

open Lkv.Theory.Prog in
theorem wp_readPage (d : Disk) (fileLen offset : Nat) :
    wp (readPage fileLen offset)
      (fun kind d' => Disk.Issued [] d d' ∧ (d.Quiet → kind = pageKind d.file fileLen offset))
      (fun e d' => Disk.Issued [] d d' ∧ d.Failed e) d := by
  refine wp_bind (Io.wp_seekStart ?_ fun error due => ⟨Disk.issued_tick d, due, error, rfl⟩)
  have seeked := Disk.issued_seek d offset
  refine wp_bind (wp_attempt (Io.wp_readExact ?_ ?_ ?_))
  · intro inside
    refine wp_pure ⟨seeked.trans (Disk.issued_seek _ _), fun _ => ?_⟩
    exact (if_pos inside).symm
  · intro outside
    refine wp_pure ⟨seeked.trans (Disk.issued_tick _), fun _ => ?_⟩
    exact (if_neg (Nat.not_le.mpr outside)).symm
  · -- An injected failure of kind `UnexpectedEof` is taken for the end of the file.
    intro error due
    have moved := seeked.trans (Disk.issued_tick _)
    have due' : ¬d.Quiet := fun quiet => due (seeked.quiet quiet)
    cases error with
    | io error =>
        dsimp only [Stop.error?]
        split
        · exact wp_pure ⟨moved, fun quiet => absurd quiet due'⟩
        · exact wp_stop ⟨moved, due', _, rfl⟩
    | _ => exact wp_stop ⟨moved, due', _, rfl⟩

open Lkv.Theory.Prog in
/-- Without a failure `readLatestFrom` computes `selectRoot`, and it never changes the file. -/
theorem wp_readLatestFrom (d : Disk) (fileLen : Nat) :
    wp (readLatestFrom fileLen)
      (fun sb d' => Disk.Issued [] d d' ∧ (d.Quiet → selectRoot d.file fileLen = .ok sb))
      (fun e d' => Disk.Issued [] d d' ∧ (d.Quiet → selectRoot d.file fileLen = .error e)) d := by
  refine wp_bind (wp_mono (wp_readPage d fileLen 0) ?_
    fun e d' stopped => ⟨stopped.1, fun quiet => absurd quiet stopped.2.1⟩)
  intro first d1 ⟨issued1, found1⟩
  refine wp_bind (wp_mono (wp_readPage d1 fileLen superblockSize) ?_
    fun e d' stopped => ⟨issued1.trans stopped.1,
      fun quiet => absurd (issued1.quiet quiet) stopped.2.1⟩)
  intro second d2 ⟨issued2, found2⟩
  have selected : d.Quiet → selectRoot d.file fileLen = chooseRoot first second := by
    intro quiet
    rw [selectRoot, found1 quiet, found2 (issued1.quiet quiet), issued1.kept]
  exact wp_lift (fun sb chosen => ⟨issued1.trans issued2, fun quiet => (selected quiet).trans chosen⟩)
    (fun e stopped => ⟨issued1.trans issued2, fun quiet => (selected quiet).trans stopped⟩)

/-- What opening a file finds as its root. -/
def readRoot (f : File) : Res Superblock := (readLatestFrom f.len (Disk.ofFile f [])).1

theorem readRoot_eq (f : File) : readRoot f = selectRoot f f.len := by
  have spec := wp_readLatestFrom (Disk.ofFile f []) f.len
  have quiet := Disk.quiet_ofFile f
  unfold readRoot
  cases ran : readLatestFrom f.len (Disk.ofFile f []) with
  | mk r d' =>
      cases r with
      | ok sb => exact ((Prog.wp_ok spec ran).2 quiet).symm
      | error e => exact ((Prog.wp_error spec ran).2 quiet).symm

/-! ## Publication -/

section Publication

variable {f : File} {sb new : Superblock} {fileLen generation : Nat}

theorem pageOffset_cases (generation : Nat) :
    (Superblock.pageOffset generation = 0 ∧
        Superblock.pageOffset (generation + 1) = superblockSize) ∨
      (Superblock.pageOffset generation = superblockSize ∧
        Superblock.pageOffset (generation + 1) = 0) := by
  unfold Superblock.pageOffset
  rw [Nat.and_one_is_mod, Nat.and_one_is_mod]
  rcases Nat.mod_two_eq_zero_or_one generation with even | odd
  · left
    rw [even, show (generation + 1) % 2 = 1 by omega]
    simp
  · right
    rw [odd, show (generation + 1) % 2 = 0 by omega]
    simp

theorem pageOffset_end_le (generation : Nat) :
    Superblock.pageOffset generation + superblockSize ≤ dataStart := by
  rcases pageOffset_cases generation with ⟨own, _⟩ | ⟨own, _⟩ <;> rw [own] <;> decide

/-- A root on one page is selected when the other page is no obstacle. -/
theorem selectRoot_of_page (own : pageKind f fileLen (Superblock.pageOffset generation) = .root sb)
    (notAbove : (pageKind f fileLen (Superblock.pageOffset (generation + 1))).NotAbove
      sb.generation)
    (same : ∀ other, pageKind f fileLen (Superblock.pageOffset (generation + 1)) = .root other →
      other.generation = sb.generation → other = sb) :
    selectRoot f fileLen = .ok sb := by
  unfold selectRoot
  rcases pageOffset_cases generation with ⟨ownAt, otherAt⟩ | ⟨ownAt, otherAt⟩ <;>
    rw [ownAt] at own <;> rw [otherAt] at notAbove same <;> rw [own]
  · exact chooseRoot_first notAbove
  · exact chooseRoot_second notAbove same

/-- A selected root is on one of the two pages. -/
theorem selectRoot_cases (selected : selectRoot f fileLen = .ok sb) (generation : Nat) :
    (pageKind f fileLen (Superblock.pageOffset generation) = .root sb ∧
        (pageKind f fileLen (Superblock.pageOffset (generation + 1))).NotAbove sb.generation) ∨
      (pageKind f fileLen (Superblock.pageOffset (generation + 1)) = .root sb ∧
        (pageKind f fileLen (Superblock.pageOffset generation)).NotAbove sb.generation) := by
  rcases pageOffset_cases generation with ⟨ownAt, otherAt⟩ | ⟨ownAt, otherAt⟩ <;>
    rw [ownAt, otherAt]
  · exact chooseRoot_eq_ok selected
  · exact (chooseRoot_eq_ok selected).symm

theorem classifyPage_root {page : Bytes} (kind : classifyPage fileLen page = .root sb) :
    sb.Fits fileLen := by
  unfold classifyPage at kind
  split at kind
  · cases kind
  · split at kind
    · cases kind
    · split at kind
      · cases kind
      · split at kind
        · rename_i fits
          cases kind
          exact fits
        · cases kind

theorem pageKind_root {offset : Nat} (kind : pageKind f fileLen offset = .root sb) :
    sb.Fits fileLen := by
  unfold pageKind at kind
  split at kind
  · exact classifyPage_root kind
  · cases kind

theorem selectRoot_fits (selected : selectRoot f fileLen = .ok sb) : sb.Fits fileLen := by
  rcases selectRoot_cases selected 0 with ⟨own, _⟩ | ⟨own, _⟩ <;> exact pageKind_root own

/-- In a shorter file a root may no longer fit; nothing else changes. -/
theorem classifyPage_shorter {page : Bytes} {shorter : Nat} (le : shorter ≤ fileLen)
    (fits : sb.Fits shorter) :
    PageKind.Fades sb (classifyPage fileLen page) (classifyPage shorter page) := by
  unfold classifyPage
  split
  · exact .inl rfl
  split
  · exact .inl rfl
  split
  · exact .inl rfl
  by_cases still : (Superblock.decode page).Fits shorter
  · have before : (Superblock.decode page).Fits fileLen := by
      unfold Superblock.Fits at *
      omega
    rw [if_pos still, if_pos before]
    exact .inl rfl
  · rw [if_neg still]
    refine .inr ⟨rfl, ?_⟩
    split
    · exact fun same => still (PageKind.root.inj same ▸ fits)
    · exact nofun

/-- Cutting a file behind what the chosen root refers to does not change the choice. -/
theorem selectRoot_setLen {keep : Nat} (selected : selectRoot f f.len = .ok sb)
    (le : keep ≤ f.len) (fits : sb.Fits keep) : selectRoot (f.setLen keep) keep = .ok sb := by
  have long := fits.dataStart_lt
  have page : ∀ offset, offset + superblockSize ≤ dataStart →
      PageKind.Fades sb (pageKind f f.len offset) (pageKind (f.setLen keep) keep offset) := by
    intro offset inside
    have bytes : (f.setLen keep).slice offset superblockSize = f.slice offset superblockSize :=
      File.slice_congr fun i _ below => File.setLen_byte f (by omega)
    unfold pageKind
    rw [if_pos (by omega), if_pos (by rw [File.setLen_len]; omega), bytes]
    exact classifyPage_shorter le fits
  exact chooseRoot_fades selected (page 0 (by decide)) (page superblockSize (by decide))

theorem selectRoot_noPanic : NoPanic (selectRoot f fileLen) := by
  unfold selectRoot chooseRoot RootScan.finish
  split
  · exact noPanic_fail
  split
  · exact noPanic_ok
  · exact noPanic_fail

theorem pageOffset_ne (generation : Nat) :
    Superblock.pageOffset generation ≠ Superblock.pageOffset (generation + 1) := by
  rcases pageOffset_cases generation with ⟨own, other⟩ | ⟨own, other⟩ <;> rw [own, other] <;> decide

section Page

variable {page : Bytes} (long : dataStart ≤ f.len) (size : page.length = superblockSize)
include long size

theorem write_page_len (g : Nat) : (f.write (Superblock.pageOffset g) page).len = f.len := by
  have above := f.write_len_le (Superblock.pageOffset g) page
  have below := f.le_write_len (Superblock.pageOffset g) page
  have := pageOffset_end_le g
  omega

theorem pageKind_write_own (fileLen g : Nat) :
    pageKind (f.write (Superblock.pageOffset g) page) fileLen (Superblock.pageOffset g) =
      classifyPage fileLen page := by
  have within := pageOffset_end_le g
  unfold pageKind
  rw [write_page_len long size, if_pos (by omega),
    (File.holds_write f (Superblock.pageOffset g) page).slice_eq size]

theorem pageKind_write_other (fileLen : Nat) {g g' : Nat}
    (apart : Superblock.pageOffset g ≠ Superblock.pageOffset g') :
    pageKind (f.write (Superblock.pageOffset g') page) fileLen (Superblock.pageOffset g) =
      pageKind f fileLen (Superblock.pageOffset g) := by
  unfold pageKind
  rw [write_page_len long size]
  congr 2
  refine File.slice_congr fun i above below => File.write_byte_of_outside f ?_
  have one := pageOffset_cases g
  have two := pageOffset_cases g'
  omega

end Page

theorem wp_write (sb : Superblock) (d : Disk) :
    Prog.wp sb.write
      (fun _ d' => Disk.Issued [.write (Superblock.pageOffset sb.generation) sb.encodePage] d d')
      (fun e d' => d.Failed e ∧ ∃ effects,
        Io.Torn (Superblock.pageOffset sb.generation) sb.encodePage effects ∧
          Disk.Issued effects d d') d :=
  Io.wp_writeAt d _ (List.ne_nil_of_length_pos (by rw [sb.encodePage_length]; decide))

theorem wp_writeRedundant (sb : Superblock) (d : Disk) (small : sb.generation + 1 < 2 ^ 64) :
    Prog.wp sb.writeRedundant
      (fun _ d' =>
        Disk.Issued [.write (Superblock.pageOffset (sb.generation + 1)) sb.encodePage] d d')
      (fun e d' => d.Failed e ∧ ∃ effects,
        Io.Torn (Superblock.pageOffset (sb.generation + 1)) sb.encodePage effects ∧
          Disk.Issued effects d d') d := by
  unfold Superblock.writeRedundant
  rw [addOrPanic_ok small]
  exact Io.wp_writeAt d _ (List.ne_nil_of_length_pos (by rw [sb.encodePage_length]; decide))

/-- A completed publication is what the next open finds. -/
theorem readRoot_written (accepted : readRoot f = .ok sb)
    (next : new.generation = sb.generation + 1) (fits : new.Fits f.len) :
    readRoot (f.write (Superblock.pageOffset new.generation) new.encodePage) = .ok new := by
  rw [readRoot_eq] at accepted
  have long := (selectRoot_fits accepted).dataStart_lt.le
  have size := new.encodePage_length
  have own := pageKind_write_own long size f.len new.generation
  rw [new.onPage_encodePage.classify fits] at own
  have other := pageKind_write_other long size f.len (pageOffset_ne new.generation).symm
  have older : (pageKind f f.len (Superblock.pageOffset (new.generation + 1))).NotAbove
      sb.generation := by
    rcases selectRoot_cases accepted (new.generation + 1) with ⟨kind, _⟩ | ⟨_, notAbove⟩
    · rw [kind]
      exact le_rfl
    · exact notAbove
  rw [readRoot_eq, write_page_len long size]
  refine selectRoot_of_page own ?_ ?_ <;> rw [other]
  · exact older.mono (by omega)
  · intro candidate kind equal
    rw [kind] at older
    have : candidate.generation ≤ sb.generation := older
    omega

/-- While the page holds no envelope, only the root on the other page is left. -/
theorem readRoot_torn (accepted : readRoot f = .ok sb) {torn : Bytes}
    (size : torn.length = superblockSize) (invalid : readEnvelope torn = none) :
    readRoot (f.write (Superblock.pageOffset (sb.generation + 1)) torn) = .ok sb ↔
      pageKind f f.len (Superblock.pageOffset sb.generation) = .root sb := by
  rw [readRoot_eq] at accepted
  have long := (selectRoot_fits accepted).dataStart_lt.le
  have target := pageKind_write_own long size f.len (sb.generation + 1)
  rw [show classifyPage f.len torn = .skipped by rw [classifyPage, invalid]] at target
  have other := pageKind_write_other long size f.len (pageOffset_ne sb.generation)
  rw [readRoot_eq, write_page_len long size]
  constructor
  · intro selected
    rcases selectRoot_cases selected sb.generation with ⟨kind, _⟩ | ⟨kind, _⟩
    · exact other.symm.trans kind
    · rw [target] at kind
      cases kind
  · intro kind
    refine selectRoot_of_page (other.trans kind) ?_ ?_ <;> rw [target]
    · trivial
    · intro candidate root
      cases root

theorem readEnvelope_eq_none {page : Bytes} (foreign : window page 0 8 ≠ magic) :
    readEnvelope page = none := if_pos foreign

theorem readEnvelope_zeros : readEnvelope (List.replicate superblockSize 0) = none := by
  refine readEnvelope_eq_none ?_
  rw [window, List.drop_replicate, List.take_replicate]
  decide

/-- An interrupted publication leaves the old root, and a completed one the new,
exactly when the old root is on the page of its own parity. -/
theorem publication_safe_iff (f : File) (sb new : Superblock) (accepted : readRoot f = .ok sb)
    (next : new.generation = sb.generation + 1) (fits : new.Fits f.len) :
    ((∀ torn : Bytes, torn.length = superblockSize → readEnvelope torn = none →
        readRoot (f.write (Superblock.pageOffset new.generation) torn) = .ok sb) ∧
      ∃ d', new.write (Disk.ofFile f []) = (.ok (), d') ∧ readRoot d'.file = .ok new) ↔
    pageKind f f.len (Superblock.pageOffset sb.generation) = .root sb := by
  have published : ∃ d', new.write (Disk.ofFile f []) = (.ok (), d') ∧
      readRoot d'.file = .ok new := by
    obtain ⟨_, d', ran, issued⟩ := Prog.wp_returns
      (Prog.wp_mono (wp_write new (Disk.ofFile f [])) (fun _ _ h => h)
        fun _ _ stopped => stopped.1.1 (Disk.quiet_ofFile f)) fun _ _ => id
    refine ⟨d', ran, ?_⟩
    rw [issued.file]
    exact readRoot_written accepted next fits
  rw [next]
  constructor
  · intro ⟨interrupted, _⟩
    have zeros := readEnvelope_zeros
    exact (readRoot_torn accepted List.length_replicate zeros).mp
      (interrupted _ List.length_replicate zeros)
  · intro kind
    exact ⟨fun torn size invalid => (readRoot_torn accepted size invalid).mpr kind, published⟩

/-- The empty Base of a fresh database under generation `g`. -/
def emptyRoot (g : Nat) (word : g < 256 ^ 8) : Superblock :=
  ⟨g, dataStart, emptySegmentSize, 0, 0, dataStart + emptySegmentSize, 0,
    ⟨word, by decide, by decide, by decide, by decide, by decide⟩, by decide⟩

/-- A file of the length of a fresh database with one root, on the page of generation `g`. -/
def oneRoot (g : Nat) (sb : Superblock) : File :=
  (File.empty.setLen (dataStart + emptySegmentSize)).write (Superblock.pageOffset g) sb.encodePage

section OneRoot

variable (g : Nat) (fits : sb.Fits (dataStart + emptySegmentSize))

theorem oneRoot_len (sb : Superblock) : (oneRoot g sb).len = dataStart + emptySegmentSize :=
  write_page_len (by decide) sb.encodePage_length g

include fits in
theorem pageKind_oneRoot_own : pageKind (oneRoot g sb) (oneRoot g sb).len
    (Superblock.pageOffset g) = .root sb := by
  rw [oneRoot_len, oneRoot, pageKind_write_own (by decide) sb.encodePage_length]
  exact sb.onPage_encodePage.classify fits

theorem pageKind_oneRoot_other (sb : Superblock) : pageKind (oneRoot g sb) (oneRoot g sb).len
    (Superblock.pageOffset (g + 1)) = .skipped := by
  rw [oneRoot_len, oneRoot, pageKind_write_other (by decide) sb.encodePage_length _
    (pageOffset_ne g).symm, pageKind, if_pos (pageOffset_end_le _ |>.trans (by decide)),
    classifyPage, readEnvelope_eq_none]
  rw [File.window_slice _ _ _ _ _ (by decide)]
  rcases pageOffset_cases (g + 1) with ⟨own, _⟩ | ⟨own, _⟩ <;> rw [own] <;> decide

include fits in
theorem readRoot_oneRoot : readRoot (oneRoot g sb) = .ok sb := by
  rw [readRoot_eq]
  refine selectRoot_of_page (pageKind_oneRoot_own g fits) ?_ ?_ <;> rw [pageKind_oneRoot_other]
  · trivial
  · intro other kind
    cases kind

end OneRoot

theorem publication_safe_own_page :
    (∀ torn : Bytes, torn.length = superblockSize → readEnvelope torn = none →
        readRoot ((oneRoot 3 (emptyRoot 3 (by decide))).write (Superblock.pageOffset 4) torn) =
          .ok (emptyRoot 3 (by decide))) ∧
      ∃ d', (emptyRoot 4 (by decide)).write (Disk.ofFile (oneRoot 3 (emptyRoot 3 (by decide))) []) =
        (.ok (), d') ∧ readRoot d'.file = .ok (emptyRoot 4 (by decide)) :=
  (publication_safe_iff (oneRoot 3 (emptyRoot 3 (by decide))) (emptyRoot 3 (by decide))
    (emptyRoot 4 (by decide)) (readRoot_oneRoot 3 (by decide)) rfl
    (by rw [oneRoot_len]; decide)).mpr (pageKind_oneRoot_own 3 (by decide))

/-- Generation 3 survives only on the page of even generations.  Generation 4 goes to
that page, and a torn write leaves no root at all. -/
theorem publication_loses_the_only_root :
    readRoot (oneRoot 4 (emptyRoot 3 (by decide))) = .ok (emptyRoot 3 (by decide)) ∧
      (emptyRoot 4 (by decide)).Fits (oneRoot 4 (emptyRoot 3 (by decide))).len ∧
      readEnvelope (List.replicate superblockSize 0) = none ∧
      readRoot ((oneRoot 4 (emptyRoot 3 (by decide))).write (Superblock.pageOffset 4)
          (List.replicate superblockSize 0)) =
        fail (.fromIo .invalidData "no valid superblock") := by
  have long : dataStart ≤ (oneRoot 4 (emptyRoot 3 (by decide))).len := by
    rw [oneRoot_len]
    decide
  refine ⟨readRoot_oneRoot 4 (by decide), by rw [oneRoot_len]; decide, readEnvelope_zeros, ?_⟩
  have size : (List.replicate superblockSize (0 : UInt8)).length = superblockSize :=
    List.length_replicate
  have target := pageKind_write_own long size (oneRoot 4 (emptyRoot 3 (by decide))).len 4
  rw [classifyPage, readEnvelope_zeros] at target
  have other := pageKind_write_other long size (oneRoot 4 (emptyRoot 3 (by decide))).len
    (pageOffset_ne 4).symm
  rw [pageKind_oneRoot_other] at other
  rw [readRoot_eq, write_page_len long size, selectRoot]
  exact congrArg₂ chooseRoot target other

end Publication

end Lkv
