/-
# Lkv.Database.MemoryStorage — the storage of a database in memory

`database/storage.rs`.  The bytes of a memory database are kept in up to three pieces: the
root pages, the active Base, which readers share, and a tail.  What lies between the pieces
reads as zero.  `file` is the file that the pieces stand for.

Reading is reading that file (`readAt_eq`).  Writing is not always writing to it: the piece
that is written to is resized to the end of the write, so what it held behind that end is
gone and reads as zero.  `memory_storage_faithful_iff` says when this does not show, and
`memory_write_cuts` is a write of one byte that loses the next one.
-/
import Lkv.Storage
import Lkv.Format.Superblock
import Mathlib.Data.List.GetD

namespace Lkv
open Lkv.Theory Lkv.Theory.Prog

set_option autoImplicit false

structure MemoryRegion where
  offset : Nat
  bytes : Bytes
  deriving DecidableEq

structure MemoryStorage where
  header : Bytes
  base : Option MemoryRegion
  tailStart : Nat
  tail : Bytes
  len : Nat
  position : Nat
  deriving DecidableEq

/-- A memory storage and what will come of the next allocations. -/
structure Memory where
  storage : MemoryStorage
  faults : List Fault

abbrev Mem (α : Type) := Prog Memory Stop α

/-- No allocation will fail. -/
def Memory.Quiet (m : Memory) : Prop := ∀ fault ∈ m.faults, fault = .pass

inductive SeekFrom where
  | start (position : Nat)
  | «end» (offset : Int)
  | current (offset : Int)

namespace MemoryRegion

def stop (region : MemoryRegion) : Nat := region.offset + region.bytes.length

/-- The region has a byte at this position. -/
def Covers (region : MemoryRegion) (position : Nat) : Prop :=
  region.offset ≤ position ∧ position < region.stop

instance (region : MemoryRegion) (position : Nat) : Decidable (region.Covers position) :=
  inferInstanceAs (Decidable (_ ∧ _))

end MemoryRegion

namespace MemoryStorage

/-- `MemoryStorage::default`. -/
def new : MemoryStorage := ⟨[], none, dataStart, [], 0, 0⟩

def tailRegion (s : MemoryStorage) : MemoryRegion := ⟨s.tailStart, s.tail⟩

/-- The end of a gap: where the next piece begins, or the storage ends. -/
def gapEnd (s : MemoryStorage) (position : Nat) : Nat :=
  let next := match s.base with
    | some base => if base.offset > position then min s.len base.offset else s.len
    | none => s.len
  if s.tailStart > position then min next s.tailStart else next

/-- What one round of the loop of `read` copies. -/
def chunk (s : MemoryStorage) (position wanted : Nat) : Bytes :=
  let copied (region : MemoryRegion) : Bytes :=
    window region.bytes (position - region.offset)
      (min (region.stop - position) wanted)
  if position < s.header.length then copied ⟨0, s.header⟩
  else
    match s.base.filter (·.Covers position) with
    | some base => copied base
    | none =>
        if s.tailRegion.Covers position then copied s.tailRegion
        else List.replicate (min (s.gapEnd position - position) wanted) 0

def readChunks (s : MemoryStorage) : Nat → Nat → Nat → Res Bytes
  | 0, _, _ => .error .diverge
  | fuel + 1, position, wanted =>
      if wanted = 0 then .ok []
      else do
        let bytes := s.chunk position wanted
        return bytes ++ (← s.readChunks fuel (position + bytes.length) (wanted - bytes.length))

/-- The bytes that a `read` into a buffer of `count` bytes at `position` gives. -/
def readAt (s : MemoryStorage) (position count : Nat) : Res Bytes :=
  if count = 0 ∨ position ≥ s.len then .ok []
  else
    let available := min (s.len - position) count
    s.readChunks (available + 1) position available

end MemoryStorage

namespace Mem

/-- An allocation that may fail. -/
def reserve (error : Error) : Mem Unit := do
  let m ← Prog.state
  Prog.modify fun m => { m with faults := m.faults.tail }
  match m.faults with
  | .fail _ _ :: _ => Prog.stop (.err error)
  | _ => pure ()

/-- Cut, or extended with zeros. -/
def resized (bytes : Bytes) (len : Nat) : Bytes :=
  bytes.take len ++ List.replicate (len - bytes.length) 0

def resizeBytes (bytes : Bytes) (len : Nat) : Mem Bytes := do
  Prog.onlyIf (len > bytes.length) (reserve (.fromIo .outOfMemory "could not grow memory storage"))
  return resized bytes len

def update (f : MemoryStorage → MemoryStorage) : Mem Unit :=
  Prog.modify fun m => { m with storage := f m.storage }

def setLen (len : Nat) : Mem Unit := do
  let s := (← Prog.state).storage
  if s.base.isSome then
    if len < s.tailStart then
      Prog.stop (.err (.fromIo .invalidInput "cannot truncate the active in-memory Base"))
    else
      let tail ← resizeBytes s.tail (len - s.tailStart)
      update fun s => { s with tail := tail, len := len }
  else if len ≤ dataStart then
    let header ← resizeBytes s.header len
    update fun s => { s with header := header, tail := [], tailStart := dataStart, len := len }
  else
    let header ← resizeBytes s.header dataStart
    update fun s => { s with header := header, tailStart := dataStart }
    let tail ← resizeBytes s.tail (len - dataStart)
    update fun s => { s with tail := tail, len := len }

def read (count : Nat) : Mem Bytes := do
  let s := (← Prog.state).storage
  let bytes ← Prog.lift (s.readAt s.position count)
  update fun s => { s with position := s.position + bytes.length }
  return bytes

/-- The loop of `read_exact`. -/
def readExact : Nat → Nat → Mem Bytes
  | 0, _ => Prog.stop .diverge
  | fuel + 1, count =>
      if count = 0 then return []
      else do
        let bytes ← read count
        if bytes = [] then
          Prog.stop (.err (.fromIo .unexpectedEof "failed to fill whole buffer"))
        else return bytes ++ (← readExact fuel (count - bytes.length))

/-- The piece of an installed Base that a range lies in. -/
def insideBase (s : MemoryStorage) (offset stop : Nat) : Option MemoryRegion :=
  s.base.filter fun base => base.offset ≤ offset ∧ stop ≤ base.stop

def loadImmutable (offset size : Nat) : Mem BaseBytes := do
  if size = 0 then Prog.stop (.err (.fromIo .invalidData "cannot load an empty segment"))
  else
    let s := (← Prog.state).storage
    let stop ← Prog.lift (orFail ((checkedAdd offset size).filter (· ≤ s.len))
      (.invalidBase "segment extends beyond memory storage"))
    match insideBase s offset stop with
    | some base => return .memory (window base.bytes (offset - base.offset) size)
    | none =>
        if s.base = none ∧ offset = s.tailStart ∧ stop = s.len then
          update fun s =>
            { s with base := some ⟨offset, s.tail⟩, tail := [], tailStart := stop }
          return .memory s.tail
        else
          reserve (.fromIo .outOfMemory "could not allocate immutable bytes")
          update fun s => { s with position := offset }
          -- The position is put back before the result is looked at.
          let result ← Prog.attempt Stop.error? (readExact (size + 1) size)
          update fun now => { now with position := s.position }
          match result with
          | .ok bytes => return .memory bytes
          | .error error => Prog.stop (.err error)

def replaceBase (offset : Nat) (bytes : Bytes) : Mem Unit := do
  if offset < dataStart ∨ bytes = [] then
    Prog.stop (.err (.fromIo .invalidInput "invalid in-memory Base range"))
  else
    let stop ← Prog.lift (orFail (checkedAdd offset bytes.length)
      (.invalidBase "in-memory Base range overflows"))
    let header ← resizeBytes (← Prog.state).storage.header dataStart
    Prog.modify fun m => { m with
      storage := ⟨header, some ⟨offset, bytes⟩, stop, [], stop, stop⟩ }

def extendLog (additional : Nat) : Mem Unit := do
  let s := (← Prog.state).storage
  let len ← Prog.lift (orFail (checkedAdd s.len additional)
    (.fromIo .invalidInput "memory log size overflow"))
  update fun s => { s with len := len, position := len }

/-- `buffer[start..start + bytes.len()].copy_from_slice(bytes)`. -/
def overwrite (buffer : Bytes) (start : Nat) (bytes : Bytes) : Bytes :=
  buffer.take start ++ bytes ++ buffer.drop (start + bytes.length)

def write (bytes : Bytes) : Mem Nat := do
  if bytes = [] then return 0
  else
    let s := (← Prog.state).storage
    let stop ← Prog.lift (orFail (checkedAdd s.position bytes.length)
      (.fromIo .invalidInput "write range overflow"))
    if stop ≤ dataStart then
      let header ← resizeBytes s.header stop
      update fun s => { s with header := overwrite header s.position bytes }
    else if s.position ≥ s.tailStart then
      let start := s.position - s.tailStart
      let tail ← resizeBytes s.tail (start + bytes.length)
      update fun s => { s with tail := overwrite tail start bytes }
    else
      Prog.stop (.err (.fromIo .invalidInput "cannot overwrite an immutable in-memory Base"))
    update fun s => { s with position := stop, len := max s.len stop }
    return bytes.length

def seek (whence : SeekFrom) : Mem Nat := do
  let s := (← Prog.state).storage
  let target : Int := match whence with
    | .start position => position
    | .«end» offset => s.len + offset
    | .current offset => s.position + offset
  if 0 ≤ target ∧ target < 2 ^ 64 then
    update fun s => { s with position := target.toNat }
    return target.toNat
  else Prog.stop (.err (.fromIo .invalidInput "invalid seek position"))

end Mem

/-! ## The file behind the pieces -/

namespace MemoryStorage

/-- The byte at a position below the length. -/
def byteAt (s : MemoryStorage) (i : Nat) : UInt8 :=
  if i < s.header.length then s.header.getD i 0
  else
    match s.base.filter (·.Covers i) with
    | some base => base.bytes.getD (i - base.offset) 0
    | none => if s.tailRegion.Covers i then s.tail.getD (i - s.tailStart) 0 else 0

/-- The file that the pieces stand for. -/
def file (s : MemoryStorage) : File where
  len := s.len
  byte i := if i < s.len then s.byteAt i else 0
  zero_past_end _ past := if_neg (Nat.not_lt.mpr past)

/-- How the pieces lie: the pages in front, the Base behind them, the tail behind that. -/
structure Fits (s : MemoryStorage) : Prop where
  header : s.header.length ≤ dataStart
  blank : ∀ i, s.len ≤ i → s.header.getD i 0 = 0
  tail : s.tail = [] ∨ s.tailRegion.stop ≤ s.len
  alone : s.base = none → s.tailStart = dataStart
  base : ∀ base, s.base = some base →
    dataStart ≤ base.offset ∧ base.stop ≤ s.tailStart ∧ s.tailStart ≤ s.len

theorem fits_new : Fits new where
  header := Nat.zero_le _
  blank _ _ := rfl
  tail := .inl rfl
  alone _ := rfl
  base := nofun

section Bytes

variable {s : MemoryStorage} {i position wanted : Nat}

theorem Fits.moved (fits : s.Fits) (position : Nat) : Fits { s with position := position } :=
  ⟨fits.header, fits.blank, fits.tail, fits.alone, fits.base⟩

theorem byteAt_header (inside : i < s.header.length) : s.byteAt i = s.header.getD i 0 := if_pos inside

theorem byteAt_base {base : MemoryRegion} (behind : s.header.length ≤ i) (is : s.base = some base)
    (covers : base.Covers i) : s.byteAt i = base.bytes.getD (i - base.offset) 0 := by
  rw [byteAt, if_neg (Nat.not_lt.mpr behind), is, Option.filter_some, if_pos (decide_eq_true covers)]

theorem byteAt_unbased (behind : s.header.length ≤ i)
    (outside : ∀ base, s.base = some base → ¬base.Covers i) :
    s.byteAt i = if s.tailRegion.Covers i then s.tail.getD (i - s.tailStart) 0 else 0 := by
  have none : s.base.filter (·.Covers i) = none := by
    rw [Option.filter_eq_none_iff]
    exact fun base is => by simpa using outside base is
  rw [byteAt, if_neg (Nat.not_lt.mpr behind), none]

theorem Fits.tailStart_ge (fits : s.Fits) : dataStart ≤ s.tailStart := by
  cases is : s.base with
  | none => exact (fits.alone is).ge
  | some base =>
      obtain ⟨front, ordered, -⟩ := fits.base base is
      exact front.trans ((Nat.le_add_right _ _).trans ordered)

/-- At the tail and behind it no other piece has a byte. -/
theorem Fits.byteAt_tail (fits : s.Fits) (behind : s.tailStart ≤ i) :
    s.byteAt i = s.tail.getD (i - s.tailStart) 0 := by
  have front := fits.tailStart_ge
  have header := fits.header
  rw [byteAt_unbased (by omega)]
  · by_cases covers : s.tailRegion.Covers i
    · rw [if_pos covers]
    · have past : ¬(s.tailStart ≤ i ∧ i < s.tailStart + s.tail.length) := covers
      rw [if_neg covers, List.getD_eq_default _ _ (by omega)]
  · intro base is covers
    obtain ⟨-, ordered, -⟩ := fits.base base is
    have := covers.2
    omega

/-- Between the pages' bytes and the data everything is zero. -/
theorem Fits.byteAt_gap (fits : s.Fits) (behind : s.header.length ≤ i) (front : i < dataStart) :
    s.byteAt i = 0 := by
  have tail := fits.tailStart_ge
  rw [byteAt_unbased behind, if_neg]
  · intro covers
    have : s.tailStart ≤ i := covers.1
    omega
  · intro base is covers
    have := (fits.base base is).1
    have := covers.1
    omega

theorem file_byte (below : i < s.len) : s.file.byte i = s.byteAt i := if_pos below

end Bytes

/-! ## Reading -/

section Read

variable {s : MemoryStorage} {position wanted : Nat}

theorem slice_eq_window (f : File) {position start n : Nat} {bytes : Bytes}
    (inside : start + n ≤ bytes.length)
    (same : ∀ i < n, f.byte (position + i) = bytes.getD (start + i) 0) :
    window bytes start n = f.slice position n := by
  apply List.ext_getElem?
  intro i
  rw [window_getElem?, File.slice_getElem?]
  by_cases below : i < n
  · rw [if_pos below, if_pos below, same i below, List.getD_eq_getElem?_getD,
      List.getElem?_eq_getElem (by omega), Option.getD_some]
  · rw [if_neg below, if_neg below]

theorem slice_eq_zeros (f : File) {position n : Nat} (zero : ∀ i < n, f.byte (position + i) = 0) :
    List.replicate n 0 = f.slice position n := by
  apply List.ext_getElem?
  intro i
  rw [List.getElem?_replicate, File.slice_getElem?]
  by_cases below : i < n
  · rw [if_pos below, if_pos below, zero i below]
  · rw [if_neg below, if_neg below]

theorem lt_gapEnd (below : position < s.len) : position < s.gapEnd position := by
  unfold gapEnd
  cases s.base with
  | none =>
      dsimp only
      split <;> omega
  | some base =>
      dsimp only
      split <;> split <;> omega

/-- No piece begins before the end of a gap. -/
theorem gapEnd_le {i : Nat} (below : i < s.gapEnd position) :
    (∀ base, s.base = some base → position < base.offset → i < base.offset) ∧
      (position < s.tailStart → i < s.tailStart) := by
  unfold gapEnd at below
  cases is : s.base with
  | none =>
      rw [is] at below
      dsimp only at below
      refine ⟨nofun, fun ahead => ?_⟩
      rw [if_pos ahead] at below
      omega
  | some base =>
      rw [is] at below
      dsimp only at below
      constructor
      · rintro _ ⟨⟩ ahead
        rw [if_pos ahead] at below
        split at below <;> omega
      · intro ahead
        rw [if_pos ahead] at below
        omega

/-- One round of the loop copies something, and what the file reads there. -/
theorem Fits.chunk_eq (fits : s.Fits) (some : 0 < wanted) (inside : position + wanted ≤ s.len) :
    ∃ n, 0 < n ∧ n ≤ wanted ∧ s.chunk position wanted = s.file.slice position n := by
  unfold chunk
  dsimp only
  split
  · rename_i front
    refine ⟨min (s.header.length - position) wanted, by omega, Nat.min_le_right _ _, ?_⟩
    have stop : (⟨0, s.header⟩ : MemoryRegion).stop = s.header.length := Nat.zero_add _
    rw [stop, Nat.sub_zero]
    refine slice_eq_window _ (by omega) fun i below => ?_
    rw [file_byte (by omega), byteAt_header (by omega)]
  rename_i behind
  cases found : s.base.filter (·.Covers position) with
  | some base =>
      obtain ⟨is, covers⟩ := Option.filter_eq_some_iff.mp found
      have covers : base.Covers position := by simpa using covers
      have above := covers.1
      have below : position < base.offset + base.bytes.length := covers.2
      refine ⟨min (base.stop - position) wanted, ?_, Nat.min_le_right _ _, ?_⟩
      · unfold MemoryRegion.stop
        omega
      refine slice_eq_window _ ?_ fun i lower => ?_
      · unfold MemoryRegion.stop
        omega
      · have stop : position + i < base.stop := by omega
        rw [file_byte (by omega), byteAt_base (by omega) is ⟨by omega, stop⟩, Nat.sub_add_comm above]
  | none =>
      have outside : ∀ base, s.base = Option.some base → ¬base.Covers position := by
        intro base is covers
        rw [is, Option.filter_some, if_pos (decide_eq_true covers)] at found
        cases found
      dsimp only
      split
      · rename_i covers
        have above : s.tailStart ≤ position := covers.1
        have below : position < s.tailStart + s.tail.length := covers.2
        have stop : s.tailRegion.stop = s.tailStart + s.tail.length := rfl
        refine ⟨min (s.tailRegion.stop - position) wanted, by omega, Nat.min_le_right _ _, ?_⟩
        refine slice_eq_window _ ?_ fun i lower => ?_
        · show position - s.tailStart + _ ≤ s.tail.length
          omega
        · rw [file_byte (by omega), fits.byteAt_tail (by omega)]
          show _ = s.tail.getD (position - s.tailStart + i) 0
          rw [Nat.sub_add_comm above]
      · rename_i past
        have ahead := @lt_gapEnd s position (by omega)
        refine ⟨min (s.gapEnd position - position) wanted, by omega, Nat.min_le_right _ _, ?_⟩
        refine slice_eq_zeros _ fun i lower => ?_
        obtain ⟨untilBase, untilTail⟩ := gapEnd_le (show position + i < s.gapEnd position by omega)
        have past : ¬(s.tailStart ≤ position ∧ position < s.tailStart + s.tail.length) := past
        rw [file_byte (by omega), byteAt_unbased (by omega), if_neg]
        · intro covers
          have above : s.tailStart ≤ position + i := covers.1
          have below : position + i < s.tailStart + s.tail.length := covers.2
          by_cases ahead : position < s.tailStart
          · exact absurd above (Nat.not_le.mpr (untilTail ahead))
          · omega
        · intro base is covers
          have above := covers.1
          have below := covers.2
          by_cases ahead : position < base.offset
          · exact absurd above (Nat.not_le.mpr (untilBase base is ahead))
          · exact outside base is ⟨by omega, by omega⟩

theorem Fits.readChunks_eq (fits : s.Fits) {fuel : Nat} (enough : wanted < fuel)
    (inside : position + wanted ≤ s.len) :
    s.readChunks fuel position wanted = .ok (s.file.slice position wanted) := by
  induction fuel generalizing position wanted with
  | zero => exact absurd enough (Nat.not_lt_zero _)
  | succ fuel ih =>
      rw [readChunks]
      by_cases none : wanted = 0
      · rw [if_pos none, none]
        rfl
      · rw [if_neg none]
        obtain ⟨n, some, few, copied⟩ := fits.chunk_eq (Nat.pos_of_ne_zero none) inside
        dsimp only
        rw [copied, File.slice_length, ih (by omega) (by omega), ok_bind]
        show Except.ok _ = _
        rw [← File.slice_add, Nat.add_sub_of_le few]

/-- A read gives the slice of the file that lies below its end. -/
theorem Fits.readAt_eq (fits : s.Fits) (position count : Nat) :
    s.readAt position count = .ok (s.file.slice position (min (s.len - position) count)) := by
  unfold readAt
  by_cases nothing : count = 0 ∨ position ≥ s.len
  · have none : min (s.len - position) count = 0 := by omega
    rw [if_pos nothing, none]
    rfl
  · rw [if_neg nothing]
    exact fits.readChunks_eq (Nat.lt_succ_self _) (by omega)

end Read

end MemoryStorage

/-! ## Writing -/

namespace Mem

variable {m : Memory} {bytes : Bytes} {len start i : Nat}

theorem resized_length (bytes : Bytes) (len : Nat) : (resized bytes len).length = len := by
  rw [resized, List.length_append, List.length_take, List.length_replicate]
  omega

theorem resized_getD (bytes : Bytes) (len i : Nat) :
    (resized bytes len).getD i 0 = if i < len then bytes.getD i 0 else 0 := by
  simp only [resized, List.getD_eq_getElem?_getD, List.getElem?_append, List.length_take,
    List.getElem?_take, List.getElem?_replicate]
  by_cases below : i < len
  · by_cases inside : i < bytes.length
    · rw [if_pos (by omega), if_pos below, if_pos below]
    · rw [if_neg (by omega), if_pos (by omega), if_pos below, List.getElem?_eq_none (by omega)]
      rfl
  · rw [if_neg (by omega), if_neg (by omega), if_neg below]
    rfl

theorem overwrite_length {buffer : Bytes} (ends : buffer.length = start + bytes.length) :
    (overwrite buffer start bytes).length = start + bytes.length := by
  rw [overwrite, List.length_append, List.length_append, List.length_take, List.length_drop]
  omega

/-- A write up to the end of a buffer. -/
theorem overwrite_getD {buffer : Bytes} (ends : buffer.length = start + bytes.length) (i : Nat) :
    (overwrite buffer start bytes).getD i 0 =
      if i < start then buffer.getD i 0 else bytes.getD (i - start) 0 := by
  have nothing : buffer.drop (start + bytes.length) = [] := List.drop_eq_nil_of_le ends.le
  simp only [overwrite, nothing, List.append_nil, List.getD_eq_getElem?_getD, List.getElem?_append,
    List.length_take, List.getElem?_take]
  by_cases below : i < start
  · rw [if_pos (by omega), if_pos below, if_pos below]
  · rw [if_neg (by omega), if_neg below, Nat.min_eq_left (by omega)]

theorem wp_reserve {Q : Unit → Memory → Prop} {E : Stop → Memory → Prop} {error : Error}
    (ok : Q () { m with faults := m.faults.tail })
    (failed : ¬m.Quiet → E (.err error) { m with faults := m.faults.tail }) :
    wp (reserve error) Q E m := by
  refine wp_bind (wp_state (wp_bind (wp_modify ?_)))
  split
  · rename_i applied cause rest due
    refine wp_stop (failed fun quiet => ?_)
    have pass := quiet (.fail applied cause) (by rw [due]; exact List.mem_cons_self)
    cases pass
  · exact wp_pure ok

theorem wp_update {Q : Unit → Memory → Prop} {E : Stop → Memory → Prop} {f : MemoryStorage → MemoryStorage}
    (post : Q () { m with storage := f m.storage }) : wp (update f) Q E m := wp_modify post

theorem wp_resizeBytes {Q : Bytes → Memory → Prop} {E : Stop → Memory → Prop}
    (ok : ∀ faults, faults <:+ m.faults → Q (resized bytes len) { m with faults := faults })
    (failed : ∀ error faults, ¬m.Quiet → faults <:+ m.faults →
      E (.err error) { m with faults := faults }) :
    wp (resizeBytes bytes len) Q E m := by
  refine wp_bind (wp_onlyIf (fun _ => wp_reserve ?_ ?_) fun _ => ?_)
  · exact wp_pure (ok _ (List.tail_suffix _))
  · exact fun loud => failed _ _ loud (List.tail_suffix _)
  · exact wp_pure (ok m.faults List.suffix_rfl)

end Mem

namespace MemoryStorage

variable {s s' : MemoryStorage} {bytes : Bytes}

/-- Nothing but zeros lies behind a write that ends at `stop`, in the piece it goes to. -/
def ZerosBehind (s : MemoryStorage) (stop : Nat) : Prop :=
  ∀ i, stop ≤ i → (stop ≤ dataStart → i < dataStart) → s.file.byte i = 0

/-- A storage that went through a write of `bytes` at its position. -/
structure Written (s : MemoryStorage) (bytes : Bytes) (s' : MemoryStorage) : Prop where
  fits : s'.Fits
  len : s'.len = max s.len (s.position + bytes.length)
  position : s'.position = s.position + bytes.length
  /-- The bytes up to the end of the write, and those of the other pieces. -/
  same : ∀ i, (i < s.position + bytes.length ∨ ¬(s.position + bytes.length ≤ dataStart → i < dataStart)) →
    s'.file.byte i = (s.file.write s.position bytes).byte i
  cut : ∀ i, s.position + bytes.length ≤ i → (s.position + bytes.length ≤ dataStart → i < dataStart) →
    s'.file.byte i = 0

/-- A write did what it does to a file iff nothing was cut off. -/
theorem Written.faithful_iff (some : bytes ≠ []) (written : s.Written bytes s') :
    s'.file = s.file.write s.position bytes ↔ s.ZerosBehind (s.position + bytes.length) := by
  constructor
  · intro faithful i behind inside
    rw [← File.write_byte_of_outside s.file (.inr behind), ← faithful]
    exact written.cut i behind inside
  · intro zeros
    refine File.ext ?_ fun i => ?_
    · rw [File.write_len _ _ some]
      exact written.len
    · by_cases behind : s.position + bytes.length ≤ i ∧ (s.position + bytes.length ≤ dataStart → i < dataStart)
      · rw [written.cut i behind.1 behind.2, File.write_byte_of_outside _ (.inr behind.1),
          zeros i behind.1 behind.2]
      · refine written.same i ?_
        by_cases front : i < s.position + bytes.length
        · exact .inl front
        · exact .inr fun inside => behind ⟨Nat.not_lt.mp front, inside⟩

theorem Fits.byteAt_past (fits : s.Fits) {i : Nat} (past : s.len ≤ i) : s.byteAt i = 0 := by
  by_cases front : i < s.header.length
  · rw [byteAt_header front, fits.blank i past]
  · rw [byteAt_unbased (Nat.not_lt.mp front)]
    · by_cases covers : s.tailRegion.Covers i
      · rcases fits.tail with empty | ends
        · rw [if_pos covers, empty]
          rfl
        · exact absurd covers.2 (Nat.not_lt.mpr (ends.trans past))
      · exact if_neg covers
    · intro base is covers
      obtain ⟨-, ordered, inside⟩ := fits.base base is
      exact absurd covers.2 (Nat.not_lt.mpr (ordered.trans (inside.trans past)))

theorem Fits.file_byte (fits : s.Fits) (i : Nat) : s.file.byte i = s.byteAt i := by
  by_cases below : i < s.len
  · exact MemoryStorage.file_byte below
  · rw [fits.byteAt_past (Nat.not_lt.mp below)]
    exact if_neg below

/-- The same in terms of the pieces. -/
theorem Fits.written (fits : s.Fits) (fits' : s'.Fits)
    (len : s'.len = max s.len (s.position + bytes.length))
    (position : s'.position = s.position + bytes.length)
    (same : ∀ i, (i < s.position ∨ ¬(s.position + bytes.length ≤ dataStart → i < dataStart)) →
      s'.byteAt i = s.byteAt i)
    (new : ∀ i, s.position ≤ i → s'.byteAt i = bytes.getD (i - s.position) 0 ∨
      ¬(s.position + bytes.length ≤ dataStart → i < dataStart)) :
    s.Written bytes s' where
  fits := fits'
  len := len
  position := position
  same i kept := by
    rw [fits'.file_byte]
    by_cases inside : s.position ≤ i ∧ i < s.position + bytes.length
    · rw [File.write_byte_of_inside _ inside.1 inside.2]
      refine (new i inside.1).resolve_right fun outside => outside fun low => ?_
      exact inside.2.trans_le low
    · rw [File.write_byte_of_outside _ (by omega), fits.file_byte]
      exact same i (kept.imp_left fun front => by omega)
  cut i behind piece := by
    rw [fits'.file_byte, (new i (by omega)).resolve_right (not_not_intro piece),
      List.getD_eq_default _ _ (by omega)]

/-- Behind the pages' bytes only the other pieces matter. -/
theorem byteAt_behind {i : Nat} (behind : s.header.length ≤ i) (behind' : s'.header.length ≤ i)
    (base : s'.base = s.base) (start : s'.tailStart = s.tailStart) (tail : s'.tail = s.tail) :
    s'.byteAt i = s.byteAt i := by
  unfold byteAt tailRegion
  rw [if_neg (Nat.not_lt.mpr behind), if_neg (Nat.not_lt.mpr behind'), base, start, tail]

/-- Before the tail only the other pieces matter. -/
theorem byteAt_front {i : Nat} (front : i < s.tailStart) (header : s'.header = s.header)
    (base : s'.base = s.base) (start : s'.tailStart = s.tailStart) : s'.byteAt i = s.byteAt i := by
  have outside : ¬s.tailRegion.Covers i := fun covers => absurd covers.1 (Nat.not_le.mpr front)
  have outside' : ¬s'.tailRegion.Covers i := fun covers => by
    have : s'.tailStart ≤ i := covers.1
    omega
  unfold byteAt
  rw [if_neg outside, if_neg outside', header, base]

/-- A write that goes to the root pages. -/
theorem Fits.written_header {header : Bytes} (fits : s.Fits)
    (low : s.position + bytes.length ≤ dataStart)
    (is : header = Mem.overwrite (Mem.resized s.header (s.position + bytes.length)) s.position bytes) :
    s.Written bytes { s with
      header := header
      position := s.position + bytes.length
      len := max s.len (s.position + bytes.length) } := by
  have length : header.length = s.position + bytes.length :=
    is ▸ Mem.overwrite_length (Mem.resized_length _ _)
  have getD : ∀ i, header.getD i 0 = _ := is ▸ Mem.overwrite_getD (Mem.resized_length _ _)
  clear is
  have fits' : Fits { s with
      header := header
      position := s.position + bytes.length
      len := max s.len (s.position + bytes.length) } := {
    header := length.trans_le low
    blank := fun i past =>
      List.getD_eq_default _ _ (length.trans_le ((Nat.le_max_right _ _).trans past))
    tail := fits.tail.imp_right fun ends => ends.trans (Nat.le_max_left _ _)
    alone := fits.alone
    base := fun base is => by
      obtain ⟨front, ordered, inside⟩ := fits.base base is
      exact ⟨front, ordered, inside.trans (Nat.le_max_left _ _)⟩ }
  have short := fits.header
  refine fits.written fits' rfl rfl (fun i kept => ?_) fun i above => ?_
  · by_cases front : i < dataStart
    · have front : i < s.position := kept.resolve_right (not_not_intro fun _ => front)
      have inside : i < header.length := by omega
      refine (byteAt_header inside).trans ?_
      rw [getD, if_pos front, Mem.resized_getD, if_pos (by omega)]
      by_cases inside : i < s.header.length
      · rw [byteAt_header inside]
      · rw [fits.byteAt_gap (by omega) (by omega), List.getD_eq_default _ _ (by omega)]
    · have behind : header.length ≤ i := by omega
      exact byteAt_behind (by omega) behind rfl rfl rfl
  · by_cases front : i < dataStart
    · left
      by_cases inside : i < header.length
      · refine (byteAt_header inside).trans ?_
        rw [getD, if_neg (by omega)]
      · rw [fits'.byteAt_gap (Nat.not_lt.mp inside) front, List.getD_eq_default _ _ (by omega)]
    · exact .inr fun inside => front (inside low)

/-- A write that goes to the tail. -/
theorem Fits.written_tail {tail : Bytes} (fits : s.Fits) (some : bytes ≠ [])
    (behind : s.tailStart ≤ s.position)
    (is : tail = Mem.overwrite (Mem.resized s.tail (s.position - s.tailStart + bytes.length))
      (s.position - s.tailStart) bytes) :
    s.Written bytes { s with
      tail := tail
      position := s.position + bytes.length
      len := max s.len (s.position + bytes.length) } := by
  have length : tail.length = s.position - s.tailStart + bytes.length :=
    is ▸ Mem.overwrite_length (Mem.resized_length _ _)
  have getD : ∀ i, tail.getD i 0 = _ := is ▸ Mem.overwrite_getD (Mem.resized_length _ _)
  clear is
  have front := fits.tailStart_ge
  have long := List.length_pos_iff.mpr some
  have fits' : Fits { s with
      tail := tail
      position := s.position + bytes.length
      len := max s.len (s.position + bytes.length) } := {
    header := fits.header
    blank := fun i past => fits.blank i ((Nat.le_max_left _ _).trans past)
    tail := .inr (by
      show s.tailStart + tail.length ≤ max s.len (s.position + bytes.length)
      omega)
    alone := fits.alone
    base := fun base is => by
      obtain ⟨front, ordered, inside⟩ := fits.base base is
      exact ⟨front, ordered, inside.trans (Nat.le_max_left _ _)⟩ }
  refine fits.written fits' rfl rfl (fun i kept => ?_) fun i above => .inl ?_
  · have before : i < s.position := kept.resolve_right (not_not_intro fun low => by omega)
    by_cases inTail : s.tailStart ≤ i
    · refine (fits'.byteAt_tail inTail).trans ?_
      show tail.getD (i - s.tailStart) 0 = _
      rw [getD, if_pos (by omega), Mem.resized_getD, if_pos (by omega), fits.byteAt_tail inTail]
    · exact byteAt_front (Nat.not_le.mp inTail) rfl rfl rfl
  · refine (fits'.byteAt_tail (behind.trans above)).trans ?_
    show tail.getD (i - s.tailStart) 0 = _
    rw [getD, if_neg (by omega), Nat.sub_sub_sub_cancel_right behind]

end MemoryStorage

/-! ## Every call keeps the pieces in order -/

namespace Mem

variable {α : Type} {m : Memory} {bytes : Bytes}

/-- A call keeps the pieces in order, whether it succeeds or fails. -/
def KeepsFits (call : Mem α) : Prop :=
  ∀ m : Memory, m.storage.Fits →
    wp call (fun _ m' => m'.storage.Fits) (fun _ m' => m'.storage.Fits) m

theorem wp_write (fits : m.storage.Fits) :
    wp (write bytes)
      (fun _ m' => (bytes = [] ∧ m'.storage = m.storage) ∨
        (bytes ≠ [] ∧ m.storage.Written bytes m'.storage))
      (fun _ m' => m'.storage = m.storage) m := by
  unfold write
  by_cases none : bytes = []
  · rw [if_pos none]
    exact wp_pure (.inl ⟨none, rfl⟩)
  rw [if_neg none]
  refine wp_bind (wp_state (wp_bind (wp_lift (fun stop fit => ?_) fun _ _ => rfl)))
  obtain ⟨rfl, -⟩ := checkedAdd_eq_some_iff.mp (orFail_eq_ok.mp fit)
  by_cases low : m.storage.position + bytes.length ≤ dataStart
  · rw [if_pos low]
    refine wp_bind (wp_resizeBytes (fun faults _ => wp_bind (wp_update ?_)) fun _ _ _ _ => rfl)
    exact wp_bind (wp_update (wp_pure (.inr ⟨none, fits.written_header low rfl⟩)))
  rw [if_neg low]
  by_cases behind : m.storage.position ≥ m.storage.tailStart
  · rw [if_pos behind]
    refine wp_bind (wp_resizeBytes (fun faults _ => wp_bind (wp_update ?_)) fun _ _ _ _ => rfl)
    exact wp_bind (wp_update (wp_pure (.inr ⟨none, fits.written_tail none behind rfl⟩)))
  · rw [if_neg behind]
    exact wp_bind (wp_stop rfl)

theorem keepsFits_write : KeepsFits (write bytes) := by
  intro m fits
  refine wp_mono (wp_write fits) (fun _ m' written => ?_) fun _ m' same => ?_
  · rcases written with ⟨-, same⟩ | ⟨-, written⟩
    · exact same ▸ fits
    · exact written.fits
  · exact same ▸ fits

theorem keepsFits_seek (whence : SeekFrom) : KeepsFits (seek whence) := by
  intro m fits
  refine wp_bind (wp_state ?_)
  extract_lets s target
  by_cases valid : 0 ≤ target ∧ target < 2 ^ 64
  · rw [if_pos valid]
    exact wp_bind (wp_update (wp_pure (fits.moved _)))
  · rw [if_neg valid]
    exact wp_stop fits

/-- A read moves the position by what it gives. -/
theorem read_eq (fits : m.storage.Fits) (count : Nat) :
    read count m =
      (.ok (m.storage.file.slice m.storage.position (min (m.storage.len - m.storage.position) count)),
        ⟨{ m.storage with
            position := m.storage.position + min (m.storage.len - m.storage.position) count }, m.faults⟩) := by
  have given := fits.readAt_eq m.storage.position count
  unfold read
  show (Prog.lift (m.storage.readAt m.storage.position count) >>= _ : Mem Bytes) m = _
  rw [given]
  show ((.ok _, _) : Except Stop Bytes × Memory) = _
  rw [File.slice_length]

theorem keepsFits_read (count : Nat) : KeepsFits (read count) := by
  intro m fits
  unfold wp
  rw [read_eq fits]
  exact fits.moved _

theorem keepsFits_readExact (fuel count : Nat) : KeepsFits (readExact fuel count) := by
  induction fuel generalizing count with
  | zero => exact fun m fits => wp_stop fits
  | succ fuel ih =>
      intro m fits
      unfold readExact
      split
      · exact wp_pure fits
      · refine wp_bind (wp_mono (keepsFits_read count m fits) (fun bytes m' fits => ?_) fun _ _ fits => fits)
        split
        · exact wp_stop fits
        · exact wp_bind (wp_mono (ih _ m' fits) (fun _ _ fits => wp_pure fits) fun _ _ fits => fits)

theorem keepsFits_setLen (len : Nat) : KeepsFits (setLen len) := by
  intro m fits
  refine wp_bind (wp_state ?_)
  dsimp only
  have front := fits.tailStart_ge
  cases is : m.storage.base with
  | some base =>
      rw [if_pos (Option.isSome_some)]
      by_cases short : len < m.storage.tailStart
      · rw [if_pos short]
        exact wp_stop fits
      · rw [if_neg short]
        refine wp_bind (wp_resizeBytes (fun faults _ => wp_update ?_) fun _ _ _ _ => fits)
        obtain ⟨above, ordered, -⟩ := fits.base base is
        refine ⟨fits.header, fun i past => ?_, .inr ?_, fits.alone, fun other is' => ?_⟩
        · have past : len ≤ i := past
          have short := fits.header
          exact List.getD_eq_default _ _ (show m.storage.header.length ≤ i by omega)
        · show m.storage.tailStart + (resized _ _).length ≤ len
          rw [resized_length]
          omega
        · cases Option.some.inj (is.symm.trans is')
          exact ⟨above, ordered, Nat.not_lt.mp short⟩
  | none =>
      rw [if_neg (by simp)]
      by_cases low : len ≤ dataStart
      · rw [if_pos low]
        refine wp_bind (wp_resizeBytes (fun faults _ => wp_update ?_) fun _ _ _ _ => fits)
        refine ⟨(resized_length _ _).trans_le low, fun i past => ?_, .inl rfl, fun _ => rfl,
          fun base is' => ?_⟩
        · refine (resized_getD _ _ _).trans (if_neg (Nat.not_lt.mpr past))
        · cases is.symm.trans is'
      · rw [if_neg low]
        have grown : ∀ i, m.storage.len ≤ i → (resized m.storage.header dataStart).getD i 0 = 0 := by
          intro i past
          rw [resized_getD]
          split
          · exact fits.blank i past
          · rfl
        refine wp_bind (wp_resizeBytes (fun faults _ => ?_) fun _ _ _ _ => fits)
        have length := resized_length m.storage.header dataStart
        generalize resized m.storage.header dataStart = header at length grown ⊢
        generalize size : len - dataStart = n
        refine wp_bind (wp_update (wp_bind ?_))
        have start := fits.alone is
        refine wp_resizeBytes (fun faults _ => wp_update ?_) fun _ faults _ _ => ?_
        · refine ⟨length.le, fun i past => ?_, .inr ?_, fun _ => rfl, fun base is' => ?_⟩
          · have past : len ≤ i := past
            exact List.getD_eq_default _ _ (show header.length ≤ i by omega)
          · show dataStart + (resized _ _).length ≤ len
            rw [resized_length]
            omega
          · cases is.symm.trans is'
        · refine ⟨length.le, grown, ?_, fun _ => rfl, fun base is' => ?_⟩
          · refine fits.tail.imp_right fun ends => ?_
            show dataStart + m.storage.tail.length ≤ m.storage.len
            exact start ▸ ends
          · cases is.symm.trans is'

theorem keepsFits_extendLog (additional : Nat) : KeepsFits (extendLog additional) := by
  intro m fits
  refine wp_bind (wp_state (wp_bind (wp_lift (fun len fit => wp_update ?_) fun _ _ => fits)))
  obtain ⟨rfl, -⟩ := checkedAdd_eq_some_iff.mp (orFail_eq_ok.mp fit)
  have longer : m.storage.len ≤ m.storage.len + additional := Nat.le_add_right _ _
  refine ⟨fits.header, fun i past => fits.blank i (longer.trans past),
    fits.tail.imp_right fun ends => ends.trans longer, fits.alone, fun base is => ?_⟩
  obtain ⟨above, ordered, inside⟩ := fits.base base is
  exact ⟨above, ordered, inside.trans longer⟩

theorem keepsFits_replaceBase (offset : Nat) (bytes : Bytes) : KeepsFits (replaceBase offset bytes) := by
  intro m fits
  unfold replaceBase
  by_cases wrong : offset < dataStart ∨ bytes = []
  · rw [if_pos wrong]
    exact wp_stop fits
  · rw [if_neg wrong]
    have front : dataStart ≤ offset := Nat.not_lt.mp fun low => wrong (.inl low)
    refine wp_bind (wp_lift (fun stop fit => ?_) fun _ _ => fits)
    obtain ⟨rfl, -⟩ := checkedAdd_eq_some_iff.mp (orFail_eq_ok.mp fit)
    refine wp_bind (wp_state (wp_bind (wp_resizeBytes (fun faults _ => wp_modify ?_) fun _ _ _ _ => fits)))
    refine ⟨(resized_length _ _).le, fun i past => ?_, .inl rfl, nofun, ?_⟩
    · have past : offset + bytes.length ≤ i := past
      refine (resized_getD _ _ _).trans (if_neg ?_)
      omega
    · rintro _ ⟨⟩
      exact ⟨front, le_rfl, le_rfl⟩

theorem keepsFits_loadImmutable (offset size : Nat) : KeepsFits (loadImmutable offset size) := by
  intro m fits
  unfold loadImmutable
  split
  · exact wp_stop fits
  refine wp_bind (wp_state (wp_bind (wp_lift (fun stop fit => ?_) fun _ _ => fits)))
  cases insideBase m.storage offset stop with
  | some base => exact wp_pure fits
  | none =>
      dsimp only
      split
      · rename_i whole
        obtain ⟨alone, rfl, rfl⟩ := whole
        refine wp_bind (wp_update (wp_pure ⟨fits.header, fits.blank, .inl rfl, nofun, ?_⟩))
        have inside : m.storage.tailStart ≤ m.storage.len := by
          have := orFail_eq_ok.mp fit
          obtain ⟨sum, -⟩ := Option.filter_eq_some_iff.mp this
          have := (checkedAdd_eq_some_iff.mp sum).1
          omega
        rintro _ ⟨⟩
        refine ⟨(fits.alone alone).ge, ?_, le_rfl⟩
        rcases fits.tail with empty | ends
        · show m.storage.tailStart + m.storage.tail.length ≤ m.storage.len
          rw [empty]
          exact inside
        · exact ends
      · refine wp_bind (wp_reserve ?_ fun _ => fits)
        refine wp_bind (wp_update (wp_bind ?_))
        refine wp_attempt (wp_mono (keepsFits_readExact _ _ _ (fits.moved _)) (fun bytes m' fits => ?_)
          fun e m' fits => ?_)
        · exact wp_bind (wp_update (wp_pure (fits.moved _)))
        · cases e with
          | err error => exact wp_bind (wp_update (wp_stop (fits.moved _)))
          | panic => exact fits
          | diverge => exact fits

end Mem

/-! ## Whole runs -/

inductive MemoryCall where
  | seek (whence : SeekFrom)
  | read (count : Nat)
  | write (bytes : Bytes)
  | setLen (len : Nat)
  | loadImmutable (offset size : Nat)
  | replaceBase (offset : Nat) (bytes : Bytes)
  | extendLog (additional : Nat)

def MemoryCall.run : MemoryCall → Mem Unit
  | .seek whence => do let _ ← Mem.seek whence
  | .read count => do let _ ← Mem.read count
  | .write bytes => do let _ ← Mem.write bytes
  | .setLen len => Mem.setLen len
  | .loadImmutable offset size => do let _ ← Mem.loadImmutable offset size
  | .replaceBase offset bytes => Mem.replaceBase offset bytes
  | .extendLog additional => Mem.extendLog additional

/-- What any sequence of calls makes of a new storage, with any failures of allocations. -/
inductive MemoryReach : MemoryStorage → Prop where
  | new : MemoryReach .new
  | call {s : MemoryStorage} (reach : MemoryReach s) (call : MemoryCall) (faults : List Fault) :
      MemoryReach (call.run ⟨s, faults⟩).2.storage

theorem Mem.KeepsFits.discard {α : Type} {call : Mem α} (keeps : KeepsFits call) :
    KeepsFits (do let _ ← call) :=
  fun m fits => wp_bind (wp_mono (keeps m fits) (fun _ _ fits => fits) fun _ _ fits => fits)

theorem MemoryCall.keepsFits (call : MemoryCall) : Mem.KeepsFits call.run := by
  cases call with
  | seek whence => exact (Mem.keepsFits_seek whence).discard
  | read count => exact (Mem.keepsFits_read count).discard
  | write bytes => exact Mem.keepsFits_write.discard
  | setLen len => exact Mem.keepsFits_setLen len
  | loadImmutable offset size => exact (Mem.keepsFits_loadImmutable offset size).discard
  | replaceBase offset bytes => exact Mem.keepsFits_replaceBase offset bytes
  | extendLog additional => exact Mem.keepsFits_extendLog additional

theorem MemoryReach.fits {s : MemoryStorage} (reach : MemoryReach s) : s.Fits := by
  induction reach with
  | new => exact MemoryStorage.fits_new
  | call reach call faults ih => exact wp_final (P := fun m : Memory => m.storage.Fits) (call.keepsFits _ ih)

/-- In every run a read at any position returns, and gives the slice of the image that lies
there.  A write that succeeds does to the image what it does to a file iff only zeros lie
behind its end, up to the end of the root pages if it goes there. -/
theorem memory_storage_faithful_iff {s : MemoryStorage} (reach : MemoryReach s) (position : Nat)
    (faults : List Fault) :
    (∀ count, Mem.read count ⟨{ s with position := position }, faults⟩ =
      (.ok (s.file.slice position (min (s.len - position) count)),
        ⟨{ s with position := position + min (s.len - position) count }, faults⟩)) ∧
    ∀ bytes n m', Mem.write bytes ⟨{ s with position := position }, faults⟩ = (.ok n, m') →
      (m'.storage.file = s.file.write position bytes ↔
        bytes = [] ∨ s.ZerosBehind (position + bytes.length)) := by
  have fits := reach.fits.moved position
  refine ⟨fun count => Mem.read_eq fits count, fun bytes n m' ran => ?_⟩
  rcases wp_ok (Mem.wp_write fits) ran with ⟨none, same⟩ | ⟨some, written⟩
  · have same : m'.storage = { s with position := position } := same
    rw [same, none, File.write_nil]
    exact iff_of_true rfl (.inl rfl)
  · refine (written.faithful_iff some).trans ⟨.inr, fun only => ?_⟩
    exact only.resolve_left some

/-- Two bytes, and the position back at the first one. -/
def twoBytes : MemoryStorage := ⟨[1, 2], none, dataStart, [], 2, 0⟩

theorem twoBytes_reached : MemoryReach twoBytes :=
  .call (.call .new (.write [1, 2]) []) (.seek (.start 0)) []

theorem memory_storage_faithful_twoBytes :
    Mem.read 7 ⟨{ twoBytes with position := 1 }, []⟩ = (.ok [2], ⟨{ twoBytes with position := 2 }, []⟩) ∧
    ∃ m', Mem.write [3] ⟨{ twoBytes with position := 1 }, []⟩ = (.ok 1, m') ∧
      m'.storage.file = twoBytes.file.write 1 [3] := by
  obtain ⟨reads, writes⟩ := memory_storage_faithful_iff twoBytes_reached 1 []
  refine ⟨reads 7, _, rfl, (writes [3] 1 _ rfl).mpr (.inr fun i behind _ => ?_)⟩
  exact twoBytes.file.zero_past_end i behind

/-- A byte written over the first of two: the second one is zero afterwards. -/
theorem memory_write_cuts :
    MemoryReach twoBytes ∧ (Mem.read 2 ⟨twoBytes, []⟩).1 = .ok [1, 2] ∧
      ∃ m', Mem.write [3] ⟨twoBytes, []⟩ = (.ok 1, m') ∧
        (Mem.read 2 ⟨{ m'.storage with position := 0 }, []⟩).1 = .ok [3, 0] ∧
        m'.storage.file ≠ twoBytes.file.write 0 [3] := by
  refine ⟨twoBytes_reached, rfl, _, rfl, rfl, fun same => ?_⟩
  have second : (0 : UInt8) = 2 := congrArg (fun f : File => f.byte 1) same
  exact absurd second (by decide)

end Lkv
