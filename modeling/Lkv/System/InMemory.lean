/-
# Lkv.System.InMemory — a database in memory and what it holds

A memory database is described by the same `Contents` as a file: a Base, and the batches that
were committed since.  Its Base is a vector, its overlay owns the entries, and the log is only
a length.  `Contents.Resides c m` says that `m` holds `c` in this way, that the length of the
storage is the one a file would have, and that no call ever left the storage longer than
`max_database_bytes`.

Such a database answers with the map of `c` (`Resides.answers`).  Creating gives the empty one
(`wp_memoryWithOptions`), a commit appends one batch or changes nothing
(`wp_commitStagedMemory`), and a compaction keeps the map (`wp_compactInMemory`); where it
fails, the contents are what they were.
-/
import Lkv.Database.Charging
import Lkv.System.Commit
import Lkv.System.Compact

namespace Lkv
open Lkv.Theory Lkv.Theory.Prog Dictionary

set_option autoImplicit false

/-! ## The calls on the storage -/

/-- What calls leave behind: no length above `high`, and no failures that were not due before. -/
structure Ram.Grew (high : Nat) (ram ram' : Ram) : Prop where
  lengths : ∀ n ∈ ram'.lengths, n ∈ ram.lengths ∨ n ≤ high
  quiet : ram.memory.Quiet → ram'.memory.Quiet

namespace Ram.Grew

variable {low high : Nat} {ram ram' ram'' : Ram}

theorem trans (first : Grew high ram ram') (second : Grew high ram' ram'') : Grew high ram ram'' where
  lengths n member := (second.lengths n member).elim (first.lengths n) .inr
  quiet calm := second.quiet (first.quiet calm)

theorem mono (grew : Grew low ram ram') (le : low ≤ high) : Grew high ram ram' where
  lengths n member := (grew.lengths n member).imp_right le.trans'
  quiet := grew.quiet

theorem call {memory : Memory} (len : memory.storage.len ≤ high)
    (left : memory.faults <:+ ram.memory.faults) :
    Grew high ram ⟨memory, ram.lengths ++ [memory.storage.len]⟩ where
  lengths _ member := (List.mem_append.mp member).imp_right fun last =>
    (List.mem_singleton.mp last).trans_le len
  quiet calm fault member := calm fault (left.subset member)

end Ram.Grew

namespace Mem

variable {m : Memory} {bytes : Bytes} {position count : Nat}

theorem seek_start (word : position < 2 ^ 64) :
    seek (.start position) m = (.ok position, ⟨{ m.storage with position := position }, m.faults⟩) := by
  unfold seek
  rw [bind_run, state_run]
  dsimp only
  rw [if_pos ⟨by omega, by omega⟩]
  rfl

theorem seek_end (word : m.storage.len < 2 ^ 64) :
    seek (.«end» 0) m =
      (.ok m.storage.len, ⟨{ m.storage with position := m.storage.len }, m.faults⟩) := by
  unfold seek
  rw [bind_run, state_run]
  dsimp only
  rw [if_pos ⟨by omega, by omega⟩]
  rfl

/-- A read of what is there. -/
theorem readExact_run (fits : m.storage.Fits) (inside : m.storage.position + count ≤ m.storage.len) :
    readExact (count + 1) count m = (.ok (m.storage.file.slice m.storage.position count),
      ⟨{ m.storage with position := m.storage.position + count }, m.faults⟩) := by
  unfold readExact
  by_cases none : count = 0
  · rw [if_pos none, none]
    rfl
  · have all : min (m.storage.len - m.storage.position) count = count := by omega
    have given := read_eq fits count
    rw [all] at given
    have some : m.storage.file.slice m.storage.position count ≠ [] := by
      refine List.ne_nil_of_length_pos ?_
      rw [File.slice_length]
      exact Nat.pos_of_ne_zero none
    have rest : ∀ (fuel : Nat) (m : Memory), 0 < fuel → readExact fuel 0 m = (.ok [], m) := by
      intro fuel m positive
      obtain ⟨fuel, rfl⟩ := Nat.exists_eq_succ_of_ne_zero positive.ne'
      unfold readExact
      rw [if_pos rfl]
      rfl
    rw [if_neg none, bind_ok given]
    rw [if_neg some, File.slice_length, Nat.sub_self, bind_ok (rest _ _ (Nat.pos_of_ne_zero none)),
      List.append_nil]
    rfl

/-- A write to the root pages. -/
theorem wp_write_front (some : bytes ≠ []) (low : m.storage.position + bytes.length ≤ dataStart) :
    wp (write bytes)
      (fun _ m' => m'.faults <:+ m.faults ∧ m'.storage = { m.storage with
        header := overwrite (resized m.storage.header (m.storage.position + bytes.length))
          m.storage.position bytes
        position := m.storage.position + bytes.length
        len := max m.storage.len (m.storage.position + bytes.length) })
      (fun e m' => (∃ error, e = .err error) ∧ ¬m.Quiet ∧ m'.faults <:+ m.faults ∧
        m'.storage = m.storage) m := by
  unfold write
  rw [if_neg some]
  refine wp_bind (wp_state (wp_bind ?_))
  rw [checkedAdd_some (low.trans_lt (by decide))]
  refine wp_lift_ok ?_
  rw [if_pos low]
  refine wp_bind (wp_resizeBytes (fun faults left => wp_bind (wp_update ?_)) fun error faults loud left => ?_)
  · exact wp_bind (wp_update (wp_pure ⟨left, rfl⟩))
  · exact ⟨⟨error, rfl⟩, loud, left, rfl⟩

/-- A write right behind the tail. -/
theorem wp_write_behind (some : bytes ≠ []) (high : dataStart ≤ m.storage.tailStart)
    (ends : m.storage.position = m.storage.tailRegion.stop)
    (word : m.storage.position + bytes.length < 2 ^ 64) :
    wp (write bytes)
      (fun _ m' => m'.faults <:+ m.faults ∧ m'.storage = { m.storage with
        tail := m.storage.tail ++ bytes
        position := m.storage.position + bytes.length
        len := max m.storage.len (m.storage.position + bytes.length) })
      (fun e m' => (∃ error, e = .err error) ∧ ¬m.Quiet ∧ m'.faults <:+ m.faults ∧
        m'.storage = m.storage) m := by
  have stop : m.storage.tailRegion.stop = m.storage.tailStart + m.storage.tail.length := rfl
  have long := List.length_pos_iff.mpr some
  have start : m.storage.position - m.storage.tailStart = m.storage.tail.length := by omega
  have tailIs : overwrite (resized m.storage.tail (m.storage.tail.length + bytes.length))
      m.storage.tail.length bytes = m.storage.tail ++ bytes := by
    have size := resized_length m.storage.tail (m.storage.tail.length + bytes.length)
    rw [overwrite, List.drop_eq_nil_of_le size.le, List.append_nil, resized,
      List.take_of_length_le (Nat.le_add_right _ _), List.take_left' rfl]
  unfold write
  rw [if_neg some]
  refine wp_bind (wp_state (wp_bind ?_))
  rw [checkedAdd_some word]
  refine wp_lift_ok ?_
  rw [if_neg (by omega), if_pos (show m.storage.position ≥ m.storage.tailStart by omega)]
  dsimp only
  rw [start]
  refine wp_bind (wp_resizeBytes (fun faults left => wp_bind (wp_update ?_)) fun error faults loud left => ?_)
  · rw [tailIs]
    exact wp_bind (wp_update (wp_pure ⟨left, rfl⟩))
  · exact ⟨⟨error, rfl⟩, loud, left, rfl⟩

end Mem

namespace Volatile

variable {α : Type} {ram : Ram}

section Rules

variable {Q : Unit → Ram → Prop} {E : Stop → Ram → Prop} {bytes : Bytes} {position : Nat}

theorem wp_call {act : Mem α} {Q : α → Ram → Prop}
    (post : wp act (fun a memory => Q a ⟨memory, ram.lengths ++ [memory.storage.len]⟩)
      (fun e memory => E e ⟨memory, ram.lengths ++ [memory.storage.len]⟩) ram.memory) :
    wp (call act) Q E ram := by
  unfold call
  exact wp_zoom post

theorem wp_call_ok {act : Mem α} {Q : α → Ram → Prop} {a : α} {memory : Memory}
    (ran : act ram.memory = (.ok a, memory))
    (post : Q a ⟨memory, ram.lengths ++ [memory.storage.len]⟩) : wp (call act) Q E ram := by
  refine wp_call ?_
  unfold wp
  rw [ran]
  exact post

theorem wp_seekStart (word : position < 2 ^ 64)
    (post : ∀ ram', ram.Grew ram.memory.storage.len ram' →
      ram'.memory.storage = { ram.memory.storage with position := position } → Q () ram') :
    wp (seekStart position) Q E ram := by
  have ran := @Mem.seek_start ram.memory position word
  unfold seekStart
  generalize Mem.seek (.start position) = act at ran ⊢
  exact wp_bind (wp_call_ok ran (post _ (.call le_rfl List.suffix_rfl) rfl))

theorem wp_seekEnd {Q : Nat → Ram → Prop} (word : ram.memory.storage.len < 2 ^ 64)
    (post : ∀ ram', ram.Grew ram.memory.storage.len ram' →
      ram'.memory.storage = { ram.memory.storage with position := ram.memory.storage.len } →
      Q ram.memory.storage.len ram') : wp seekEnd Q E ram := by
  have ran := Mem.seek_end word
  unfold seekEnd
  generalize Mem.seek (.«end» 0) = act at ran ⊢
  exact wp_call_ok ran (post _ (.call le_rfl List.suffix_rfl) rfl)

theorem wp_readExact {Q : Bytes → Ram → Prop} {count : Nat} (fits : ram.memory.storage.Fits)
    (inside : ram.memory.storage.position + count ≤ ram.memory.storage.len)
    (post : ∀ ram', ram.Grew ram.memory.storage.len ram' →
      ram'.memory.storage =
        { ram.memory.storage with position := ram.memory.storage.position + count } →
      Q (ram.memory.storage.file.slice ram.memory.storage.position count) ram') :
    wp (readExact count) Q E ram :=
  wp_call_ok (Mem.readExact_run fits inside) (post _ (.call le_rfl List.suffix_rfl) rfl)

/-- A call that failed to allocate and left the storage alone. -/
structure OutOfMemory (ram : Ram) (e : Stop) (ram' : Ram) : Prop where
  error : ∃ error, e = .err error
  loud : ¬ram.memory.Quiet
  grew : ram.Grew ram.memory.storage.len ram'
  same : ram'.memory.storage = ram.memory.storage

theorem outOfMemory {e : Stop} {memory : Memory} (error : ∃ error, e = .err error)
    (loud : ¬ram.memory.Quiet) (left : memory.faults <:+ ram.memory.faults)
    (same : memory.storage = ram.memory.storage) :
    OutOfMemory ram e ⟨memory, ram.lengths ++ [memory.storage.len]⟩ where
  error := error
  loud := loud
  grew := .call (by rw [same]) left
  same := same

theorem wp_reserve {error : Error}
    (post : ∀ ram', ram.Grew ram.memory.storage.len ram' →
      ram'.memory.storage = ram.memory.storage → Q () ram')
    (failed : ∀ e ram', OutOfMemory ram e ram' → E e ram') :
    wp (call (Mem.reserve error)) Q E ram := by
  refine wp_call (Mem.wp_reserve ?_ fun loud => ?_)
  · exact post _ (.call le_rfl (List.tail_suffix _)) rfl
  · exact failed _ _ (outOfMemory ⟨_, rfl⟩ loud (List.tail_suffix _) rfl)

theorem wp_writeAll_front (some : bytes ≠ [])
    (low : ram.memory.storage.position + bytes.length ≤ dataStart)
    (post : ∀ ram', ram.Grew ram'.memory.storage.len ram' → ram'.memory.storage =
      { ram.memory.storage with
        header := Mem.overwrite (Mem.resized ram.memory.storage.header
          (ram.memory.storage.position + bytes.length)) ram.memory.storage.position bytes
        position := ram.memory.storage.position + bytes.length
        len := max ram.memory.storage.len (ram.memory.storage.position + bytes.length) } →
      Q () ram')
    (failed : ∀ e ram', OutOfMemory ram e ram' → E e ram') : wp (writeAll bytes) Q E ram := by
  refine wp_bind (wp_call (wp_mono (Mem.wp_write_front some low) ?_ ?_))
  · rintro _ memory ⟨left, stored⟩
    exact post _ (.call le_rfl left) stored
  · rintro e memory ⟨error, loud, left, same⟩
    exact failed _ _ (outOfMemory error loud left same)

theorem wp_writeAll_behind (some : bytes ≠ []) (high : dataStart ≤ ram.memory.storage.tailStart)
    (ends : ram.memory.storage.position = ram.memory.storage.tailRegion.stop)
    (word : ram.memory.storage.position + bytes.length < 2 ^ 64)
    (post : ∀ ram', ram.Grew ram'.memory.storage.len ram' → ram'.memory.storage =
      { ram.memory.storage with
        tail := ram.memory.storage.tail ++ bytes
        position := ram.memory.storage.position + bytes.length
        len := max ram.memory.storage.len (ram.memory.storage.position + bytes.length) } →
      Q () ram')
    (failed : ∀ e ram', OutOfMemory ram e ram' → E e ram') : wp (writeAll bytes) Q E ram := by
  refine wp_bind (wp_call (wp_mono (Mem.wp_write_behind some high ends word) ?_ ?_))
  · rintro _ memory ⟨left, stored⟩
    exact post _ (.call le_rfl left) stored
  · rintro e memory ⟨error, loud, left, same⟩
    exact failed _ _ (outOfMemory error loud left same)

theorem wp_writeRoot (sb : Superblock)
    (post : ∀ ram', ram.Grew ram'.memory.storage.len ram' → ram'.memory.storage =
      { ram.memory.storage with
        header := Mem.overwrite (Mem.resized ram.memory.storage.header
          (Superblock.pageOffset sb.generation + superblockSize)) (Superblock.pageOffset sb.generation)
          sb.encodePage
        position := Superblock.pageOffset sb.generation + superblockSize
        len := max ram.memory.storage.len (Superblock.pageOffset sb.generation + superblockSize) } →
      Q () ram')
    (failed : ∀ e ram', (∃ error, e = .err error) → ¬ram.memory.Quiet →
      ram.Grew ram.memory.storage.len ram' → ram'.memory.storage.len = ram.memory.storage.len →
      E e ram') : wp (writeRoot sb) Q E ram := by
  have below := pageOffset_end_le sb.generation
  have size := sb.encodePage_length
  have word : Superblock.pageOffset sb.generation < 2 ^ 64 := by
    have : dataStart < 2 ^ 64 := by decide
    omega
  unfold writeRoot
  generalize Superblock.pageOffset sb.generation = offset at below word post ⊢
  refine wp_bind (wp_seekStart word ?_)
  intro ram1 grew1 is1
  refine wp_writeAll_front ?_ ?_ ?_ ?_
  · refine List.ne_nil_of_length_pos ?_
    rw [size]
    decide
  · rw [is1, size]
    exact below
  · intro ram2 grew2 is2
    rw [is1, size] at is2
    refine post ram2 ((grew1.mono ?_).trans grew2) is2
    rw [is2]
    exact Nat.le_max_left _ _
  · intro e ram2 broken
    have len : ram1.memory.storage.len = ram.memory.storage.len := by rw [is1]
    refine failed e ram2 broken.error (fun quiet => broken.loud (grew1.quiet quiet)) ?_ ?_
    · exact grew1.trans (len ▸ broken.grew)
    · rw [broken.same, len]

end Rules

end Volatile

/-! ## The contents of a memory database -/

theorem overlayEntryMemory_le (entry : StagedEntry) :
    overlayEntryMemory entry.1 entry.2 ≤ operationSize (stagedOp entry) := by
  obtain ⟨key, value | _⟩ := entry
  · have charge : value.overlayMemoryCharge ≤ value.asSlice.length := by
      cases value with
      | owned bytes => exact le_rfl
      | mapped bytes =>
          unfold ValueBytes.overlayMemoryCharge
          dsimp only
          split
          · exact le_rfl
          · exact Nat.zero_le _
    show key.length + value.overlayMemoryCharge ≤ operationHeaderSize + key.length + value.asSlice.length
    omega
  · show key.length + 0 ≤ operationHeaderSize + key.length + 0
    omega

/-- What is charged for a batch is less than its record. -/
theorem ownedCharge_le (staged : List StagedEntry) :
    ownedCharge staged ≤ (encodeBatch (staged.map stagedOp)).length := by
  have each : ownedCharge staged ≤ (operationsBytes (staged.map stagedOp)).length := by
    induction staged with
    | nil => exact le_rfl
    | cons entry rest ih =>
        have charge := overlayEntryMemory_le entry
        rw [ownedCharge_cons, List.map_cons, operationsBytes, List.flatMap_cons, List.length_append,
          encodeOperation_length]
        exact Nat.add_le_add charge ih
  rw [encodeBatch_length, payloadBytes_length]
  omega

namespace Contents

variable {C : Crates} {c : Contents C} {m m' : MemoryDatabase}

/-- The Base that a memory database has installed. -/
def residentBase (c : Contents C) (v : SegmentVerifier) : ActiveBase :=
  .new (.memory (segmentBytes c.data)) v c.root c.slots c.entries.length

/-- The overlay owns the latest operations of the log, and is charged for them. -/
structure Owns (c : Contents C) (overlay : OverlayState) (table : List StagedEntry) : Prop where
  is : overlay = ⟨.memory table, ownedCharge table⟩
  distinct : Distinct (table.map stagedOp)
  latest : ∀ key, latest (table.map stagedOp) key = Dictionary.latest (logOps c.batches) key
  light : ownedCharge table ≤ c.log.length

structure Resides (c : Contents C) (m : MemoryDatabase) : Prop where
  base : m.db.base = c.residentBase m.db.base.verifier
  checks : c.Checks m.db.base.verifier
  overlay : ∃ table, c.Owns m.db.overlay table
  front : c.root.baseOffset = dataStart
  len : m.storage.len = c.logEnd
  room : m.storage.len ≤ m.db.options.maxDatabaseBytes.toNat
  within : ∀ n ∈ m.ram.lengths, n ≤ m.db.options.maxDatabaseBytes.toNat
  available : m.db.state ≠ .unavailable

section Resides

variable (resides : c.Resides m)
include resides

theorem Resides.dataStart_le : dataStart ≤ m.storage.len := by
  rw [resides.len]
  exact (c.above.trans (Nat.le_add_right _ _)).trans (c.base_end.le.trans (Nat.le_add_right _ _))

theorem Resides.answers : c.Answers m.handle where
  displays := by
    obtain ⟨table, owns⟩ := resides.overlay
    have base : m.handle.db.base = c.residentBase m.db.base.verifier := resides.base
    have view : m.handle.db.readView = ⟨⟨.memory (segmentBytes c.data), c.root.baseOffset, c.slots,
        c.data.length⟩, .memory table, m.db.options.verification⟩ := by
      have size : m.handle.db.base.verifier.dataSize = c.data.length := resides.checks.size
      unfold Database.readView ActiveBase.readView
      rw [size, base, show m.handle.db.overlay = _ from owns.is]
      rfl
    rw [view]
    exact ⟨rfl, rfl, rfl, rfl, _, rfl, owns.distinct, owns.latest⟩
  checks := resides.checks
  len := by
    rw [show m.handle.db.base = _ from resides.base]
    rfl
  checksum := by
    rw [show m.handle.db.base = _ from resides.base]
    rfl

/-- A database in memory shows the map of its contents. -/
theorem Resides.shows : Shows C m.handle c.map :=
  resides.answers.shows resides.available

/-- What was not touched stays. -/
theorem Resides.ram {ram : Ram} (len : ram.memory.storage.len = m.storage.len)
    (grew : m.ram.Grew m.storage.len ram) : c.Resides { m with ram := ram } where
  base := resides.base
  checks := resides.checks
  overlay := resides.overlay
  front := resides.front
  len := len.trans resides.len
  room := len.trans_le resides.room
  within n member := (grew.lengths n member).elim (resides.within n) resides.room.trans'
  available := resides.available

theorem Resides.afresh (faults : List Fault) : c.Resides (m.afresh faults) :=
  ⟨resides.base, resides.checks, resides.overlay, resides.front, resides.len, resides.room,
    resides.within, resides.available⟩

theorem Resides.withVerifier {v : SegmentVerifier} (checks : c.Checks v) :
    c.Resides { m with db := (m.handle.withVerifier v).db } where
  base := by
    show { m.db.base with verifier := v } = _
    rw [resides.base]
    rfl
  checks := checks
  overlay := resides.overlay
  front := resides.front
  len := resides.len
  room := resides.room
  within := resides.within
  available := resides.available

theorem Resides.poisoned :
    c.Resides { m with db := { m.db with state := .writePoisoned } } :=
  ⟨resides.base, resides.checks, resides.overlay, resides.front, resides.len, resides.room,
    resides.within, nofun⟩

/-- The iterator of a memory database reads no file. -/
theorem Resides.yields :
    ∃ pairs, Lists c.map pairs ∧ (∀ pair ∈ pairs, ValidEntry pair) ∧
      pairs.length < RawEntries.feed.bound (m.db.iterRaw C) ∧
      Yields RawEntries.feed (fun _ => True) (m.db.iterRaw C) pairs := by
  obtain ⟨table, owns⟩ := resides.overlay
  have yields := resides.answers.displays.yields (P := fun _ => True)
    m.db.base.verifier.semanticallyVerified fun f' _ => by
      unfold Database.readView ActiveBase.readView
      rw [show m.handle.db.base = _ from resides.base, show m.handle.db.overlay = _ from owns.is]
      exact ⟨rfl, rfl⟩
  rw [← resides.answers.len] at yields
  exact yields

theorem Resides.wp_alreadyCompact :
    wp Database.alreadyCompact (fun done h => (done = true ↔ c.batches = []) ∧ h.db = m.db)
      (fun _ _ => False) m.handle := by
  obtain ⟨table, owns⟩ := resides.overlay
  have offset : m.handle.db.base.offset = dataStart := by
    rw [show m.handle.db.base = _ from resides.base]
    exact resides.front
  have logStart : m.handle.db.base.logStart = c.root.logStart := by
    rw [show m.handle.db.base = _ from resides.base]
    rfl
  have len : m.handle.disk.file.len = c.root.logStart + c.log.length := resides.len
  refine wp_bind (wp_state ?_)
  dsimp only
  split
  · refine wp_bind (Db.wp_io (Io.wp_len ?_ fun error due => due (Disk.quiet_ofFile _)))
    refine wp_pure ⟨?_, rfl⟩
    rw [decide_eq_true_iff, logStart, len, ← c.log_eq_nil, ← List.length_eq_zero_iff]
    omega
  · rename_i others
    refine wp_pure ⟨⟨nofun, fun fresh => absurd ⟨offset, ?_⟩ others⟩, rfl⟩
    have none : table.map stagedOp = [] := by
      refine List.eq_nil_iff_forall_not_mem.mpr fun op member => ?_
      have absent := owns.latest op.1
      rw [fresh, show latest (logOps []) op.1 = none from rfl, latest_eq_none_iff] at absent
      exact absent (List.mem_map_of_mem member)
    rw [show m.handle.db.overlay = _ from owns.is, List.map_eq_nil_iff.mp none]
    rfl

end Resides

end Contents

/-! ## Committing -/

theorem Mdb.wp_shared {α : Type} {act : Db α} {Q : α → MemoryDatabase → Prop}
    {E : Stop → MemoryDatabase → Prop} {m : MemoryDatabase}
    (post : wp act (fun a h => Q a { m with db := h.db }) (fun e h => E e { m with db := h.db })
      m.handle) : wp (Mdb.shared act) Q E m :=
  wp_zoom post

theorem Mdb.wp_shared_ok {α : Type} {act : Db α} {Q : α → MemoryDatabase → Prop}
    {E : Stop → MemoryDatabase → Prop} {m : MemoryDatabase} {a : α} {h : Handle}
    (ran : act m.handle = (.ok a, h)) (post : Q a { m with db := h.db }) :
    wp (Mdb.shared act) Q E m := by
  refine Mdb.wp_shared ?_
  unfold wp
  rw [ran]
  exact post

theorem Mdb.wp_volatile {α : Type} {act : Volatile α} {Q : α → MemoryDatabase → Prop}
    {E : Stop → MemoryDatabase → Prop} {m : MemoryDatabase}
    (post : wp act (fun a ram => Q a { m with ram := ram }) (fun e ram => E e { m with ram := ram })
      m.ram) : wp (Mdb.volatile act) Q E m :=
  wp_zoom post

namespace MemoryDatabase

variable {C : Crates} {c : Contents C} {m : MemoryDatabase} {txn : WriteTransaction}

/-- The loop of a commit puts the staged entries in front of what the overlay has. -/
theorem setOverlayEntries_run (staged : List StagedEntry) {table : List StagedEntry}
    (is : m.db.overlay = ⟨.memory table, ownedCharge table⟩) (distinct : Distinct (table.map stagedOp))
    (word : ownedCharge table + ownedCharge staged < 2 ^ 64) :
    ∃ table', setOverlayEntries staged m =
        (.ok (), { m with db := { m.db with overlay := ⟨.memory table', ownedCharge table'⟩ } }) ∧
      Distinct (table'.map stagedOp) ∧
      (∀ key, latest (table'.map stagedOp) key =
        latest ((staged.map stagedOp).reverse ++ table.map stagedOp) key) ∧
      ownedCharge table' ≤ ownedCharge table + ownedCharge staged := by
  induction staged generalizing m table with
  | nil =>
      refine ⟨table, ?_, distinct, fun _ => rfl, Nat.le_add_right _ _⟩
      rw [← is]
      rfl
  | cons entry rest ih =>
      rw [ownedCharge_cons] at word ⊢
      obtain ⟨table1, previous, ran, sets⟩ := set_spec distinct entry (by omega)
      have balance := sets.balance
      obtain ⟨table2, ran2, distinct2, latest2, light2⟩ :=
        @ih { m with db := { m.db with overlay := ⟨.memory table1, ownedCharge table1⟩ } } table1 rfl
          sets.distinct (by omega)
      refine ⟨table2, ?_, distinct2, fun key => ?_, by omega⟩
      · have set : m.db.overlay.set entry.1 entry.2 = .ok ⟨.memory table1, ownedCharge table1⟩ := by
          rw [is]
          exact ran
        rw [setOverlayEntries, bind_run, state_run]
        dsimp only
        rw [set]
        exact ran2
      · rw [latest2, List.map_cons, List.reverse_cons, List.append_assoc, latest_append, latest_append,
          sets.latest, List.singleton_append, latest_cons]
        rfl

/-- What a commit in memory that returned has done. -/
structure Committed (c : Contents C) (batch : Batch) (m m' : MemoryDatabase) : Prop where
  resides : (c.commit batch).Resides m'
  config : SameConfig m.db m'.db
  state : m'.db.state = m.db.state
  faults : m'.ram.memory.faults = m.ram.memory.faults

/-- A commit of staged entries that were admitted. -/
theorem wp_enterBatch {batch : Batch} (resides : c.Resides m)
    (opsIs : batch.ops = (stagedEntries C txn.staged).map stagedOp)
    (room : m.storage.len + batch.bytes.length ≤ m.db.options.maxDatabaseBytes.toNat) :
    wp (do
        Mdb.volatile (Volatile.call (Mem.extendLog batch.bytes.length))
        setOverlayEntries (stagedEntries C txn.staged))
      (fun _ m' => Committed c batch m m') (fun _ _ => False) m := by
  have word : m.storage.len + batch.bytes.length < 2 ^ 64 :=
    lt_of_le_of_lt room m.db.options.maxDatabaseBytes.toNat_lt
  obtain ⟨table, owns⟩ := resides.overlay
  have light : ownedCharge (stagedEntries C txn.staged) ≤ batch.bytes.length := by
    have := ownedCharge_le (stagedEntries C txn.staged)
    rwa [← opsIs] at this
  have inside : c.log.length ≤ m.storage.len := by
    rw [resides.len]
    exact Nat.le_add_left _ _
  have extended : Mem.extendLog batch.bytes.length m.ram.memory = (.ok (),
      ⟨{ m.storage with
          len := m.storage.len + batch.bytes.length
          position := m.storage.len + batch.bytes.length }, m.ram.memory.faults⟩) := by
    unfold Mem.extendLog
    rw [bind_run, state_run]
    dsimp only
    rw [show checkedAdd m.ram.memory.storage.len batch.bytes.length = _ from checkedAdd_some word]
    rfl
  refine wp_bind (Mdb.wp_volatile (Volatile.wp_call_ok extended ?_))
  generalize ramIs : (⟨_, _⟩ : Ram) = ram
  obtain ⟨table', ran, distinct, latestIs, charge⟩ :=
    @setOverlayEntries_run { m with ram := ram } (stagedEntries C txn.staged) table owns.is
      owns.distinct (by have := owns.light; omega)
  unfold wp
  rw [ran]
  have len : ram.memory.storage.len = m.storage.len + batch.bytes.length := by rw [← ramIs]
  refine ⟨⟨resides.base, ⟨resides.checks.size, resides.checks.table, resides.checks.sound⟩,
    ⟨table', rfl, distinct, fun key => ?_, ?_⟩, resides.front, ?_, len.trans_le room, fun n member => ?_,
    resides.available⟩, ⟨rfl, rfl⟩, rfl, ?_⟩
  · show _ = latest (logOps (c.batches ++ [batch])) key
    have reversed : latest ((stagedEntries C txn.staged).map stagedOp).reverse key =
        latest batch.ops key := by
      have order := @List.reverse_perm _ batch.ops
      rw [← opsIs]
      exact latest_perm order (Distinct.perm batch.distinct order.symm) key
    rw [latestIs, latest_append, logOps_append, latest_append, reversed, owns.latest]
  · rw [c.commit_log, List.length_append]
    have := owns.light
    omega
  · show ram.memory.storage.len = _
    rw [len, c.commit_logEnd, resides.len]
  · have member : n ∈ ram.lengths := member
    rw [← ramIs] at member
    rcases List.mem_append.mp member with before | last
    · exact resides.within n before
    · rw [List.mem_singleton.mp last]
      exact room
  · show ram.memory.faults = _
    rw [← ramIs]

/-- A commit appends the staged operations as one batch, or it is refused and changes
nothing; no allocation of its own can fail. -/
theorem wp_commitStagedMemory (resides : c.Resides m) (coherent : ∃ ops, Coherent txn ops) :
    wp (commitStagedMemory C txn.staged)
      (fun _ m' => m.db.state = .healthy ∧ (stagedEntries C txn.staged = [] ∧ m' = m ∨
        ∃ batch : Batch, batch.ops = (stagedEntries C txn.staged).map stagedOp ∧
          admitted m.db.options.maxDatabaseBytes.toNat m.storage.len (stagedEntries C txn.staged) =
            .ok batch.bytes.length ∧ Committed c batch m m'))
      (fun e m' => m' = m ∧ (m.db.state ≠ .healthy ∧ e = .err .poisoned ∨
        m.db.state = .healthy ∧ stagedEntries C txn.staged ≠ [] ∧
          admitted m.db.options.maxDatabaseBytes.toNat m.storage.len (stagedEntries C txn.staged) =
            .error e)) m := by
  unfold commitStagedMemory
  refine wp_bind (Mdb.wp_shared (Database.wp_ensureWritable (fun healthy => ?_) fun poisoned =>
    ⟨rfl, .inl ⟨poisoned, rfl⟩⟩))
  dsimp only
  split
  · rename_i nothing
    exact wp_pure ⟨healthy, .inl ⟨nothing, rfl⟩⟩
  · rename_i something
    cases accepted : batchPayloadLen (stagedEntries C txn.staged) with
    | error e =>
        refine wp_bind (wp_lift_error ⟨rfl, .inr ⟨healthy, something, ?_⟩⟩)
        rw [admitted, accepted]
        rfl
    | ok payloadLen =>
        refine wp_bind (wp_lift_ok ?_)
        obtain ⟨batch, batchIs, size, checks⟩ := admitted_batch coherent accepted
        rw [checks, size]
        refine wp_bind (wp_lift_ok ?_)
        refine wp_bind (Mdb.wp_shared (Database.wp_ensureCapacity (fun room => ?_) fun error why =>
          ⟨rfl, .inr ⟨healthy, something, ?_⟩⟩))
        · have room : m.storage.len + batch.bytes.length ≤ m.db.options.maxDatabaseBytes.toNat := room
          rw [(Database.capacity_eq_ok m.db.options.maxDatabaseBytes.toNat_lt).mpr room]
          refine wp_mono (wp_enterBatch resides batchIs room) (fun _ m' done => ?_) fun _ _ => False.elim
          exact ⟨healthy, .inr ⟨batch, batchIs, rfl, done⟩⟩
        · have full : Database.capacity m.db.options.maxDatabaseBytes.toNat m.storage.len
              batch.bytes.length = fail error :=
            why.resolve_left (not_not_intro (Disk.quiet_ofFile m.storage.file))
          rw [full]
          rfl

end MemoryDatabase

/-! ## Compacting -/

theorem segmentBytes_ne_nil (data : Bytes) : segmentBytes data ≠ [] :=
  List.ne_nil_of_length_pos (by
    rw [segmentBytes_length]
    exact Nat.add_pos_right _ (by decide))

/-- The Base that is built in a vector. -/
theorem inOffsetBuffer_ready {ι : Type} {C : Crates} {feed : Feed ι} {P : File → Prop} {start len slots : Nat}
    {i : ι} {entries : List Entry}
    (ready : Ready feed P (Disk.ofFile File.empty []) start len i entries slots)
    (valid : ∀ entry ∈ entries, ValidEntry entry) :
    ∃ data, IsBase C start entries slots data ∧
      inOffsetBuffer start (writeBaseAt C feed start len i) =
        .ok ((segmentBytes data).length, segmentBytes data) := by
  obtain ⟨written, d, ran, entries', slots', data, isBase, -, rfl, file, -, same⟩ :=
    wp_returns (@wp_writeBaseWithMetadataAt ι C feed P start len i (Disk.ofFile File.empty []))
      fun e d stopped => (stopped entries slots ready).1.due valid (Disk.quiet_ofFile File.empty)
  cases same entries slots ready
  have slotsIs : slots' = slots := Except.ok.inj (isBase.count.symm.trans ready.count)
  subst slotsIs
  have some := segmentBytes_ne_nil data
  have size : d.file.len = start + (segmentBytes data).length := by
    rw [file, File.write_len _ _ some]
    exact Nat.max_eq_right (Nat.zero_le _)
  have held : d.file.slice start (segmentBytes data).length = segmentBytes data := by
    rw [file]
    exact File.holds_write _ _ _
  refine ⟨data, isBase, ?_⟩
  unfold inOffsetBuffer writeBaseAt
  rw [bind_ok ran]
  show Except.ok (_, d.file.slice start (d.file.len - start)) = _
  rw [size, Nat.add_sub_cancel_left, held]

theorem wp_buildMemoryBase {ι : Type} {C : Crates} {feed : Feed ι} {P : File → Prop}
    {start len slots : Nat} {i : ι} {entries : List Entry} (d : Disk)
    (ready : Ready feed P (Disk.ofFile File.empty []) start len i entries slots)
    (valid : ∀ entry ∈ entries, ValidEntry entry) :
    wp (buildMemoryBase C feed start len i)
      (fun bytes d' => Disk.Issued [] d d' ∧
        ∃ data, IsBase C start entries slots data ∧ bytes = segmentBytes data)
      (fun e d' => d.Failed e ∧ Disk.Issued [] d d') d := by
  obtain ⟨data, isBase, ran⟩ := @inOffsetBuffer_ready ι C feed P start len slots i entries ready valid
  have once := Disk.issued_tick d
  have twice := once.trans (Disk.issued_tick d.tick)
  unfold buildMemoryBase
  rw [ran]
  refine wp_bind (Io.wp_reserve ?_ fun due => ⟨⟨due, _, rfl⟩, once⟩)
  refine wp_bind (Io.wp_reserve ?_ fun due => ⟨once.failed ⟨due, _, rfl⟩, twice⟩)
  refine wp_bind (wp_lift_ok ?_)
  dsimp only
  rw [if_neg (not_not_intro rfl)]
  exact wp_pure ⟨twice, data, isBase, rfl⟩

theorem Mem.wp_replaceBase {m : Memory} {bytes : Bytes} (some : bytes ≠ [])
    (word : dataStart + bytes.length < 2 ^ 64) :
    wp (replaceBase dataStart bytes)
      (fun _ m' => m'.faults <:+ m.faults ∧ m'.storage.len = dataStart + bytes.length)
      (fun e m' => (∃ error, e = .err error) ∧ ¬m.Quiet ∧ m'.faults <:+ m.faults ∧
        m'.storage = m.storage) m := by
  unfold replaceBase
  rw [if_neg (by rintro (low | none); exacts [absurd low (lt_irrefl _), some none]),
    checkedAdd_some word]
  refine wp_bind (wp_lift_ok (wp_bind (wp_state (wp_bind (wp_resizeBytes (fun faults left => ?_)
    fun error faults loud left => ⟨⟨error, rfl⟩, loud, left, rfl⟩)))))
  exact wp_modify ⟨left, rfl⟩

theorem Mdb.wp_orPoison {α : Type} {act : Mdb α} {Q : α → MemoryDatabase → Prop}
    {E : Stop → MemoryDatabase → Prop} {m : MemoryDatabase}
    (post : wp act Q (fun e m' => (∃ error, e = .err error) ∧
      E e { m' with db := { m'.db with state := .writePoisoned } }) m) : wp (Mdb.orPoison act) Q E m := by
  refine wp_bind (wp_attempt (wp_mono post (fun a m' done => wp_pure done) ?_))
  rintro _ m' ⟨⟨error, rfl⟩, failed⟩
  exact wp_bind (Mdb.wp_shared (wp_modify (wp_stop failed)))

namespace MemoryDatabase

variable {C : Crates} {c : Contents C} {m : MemoryDatabase}

/-- What stops a compaction. -/
def StopsCompaction (m : MemoryDatabase) (e : Stop) : Prop :=
  (∃ error, e = .err error ∧ (m.db.state ≠ .healthy ∧ error = .poisoned ∨ ¬m.ram.memory.Quiet ∨
      m.db.snapshotGuard ≠ 1 ∨ error.TooLarge)) ∨
    (∃ message, e = .panic message) ∧ 2 ^ 64 ≤ m.db.base.generation + 1

/-- A compaction that was stopped: what the database holds is as before. -/
structure Halted (c : Contents C) (m : MemoryDatabase) (e : Stop) (m' : MemoryDatabase) : Prop where
  resides : c.Resides m'
  config : SameConfig m.db m'.db
  state : m'.db.state = m.db.state ∨ m'.db.state = .writePoisoned
  why : m.StopsCompaction e

theorem wp_installMemoryBase {slots : Nat} {entries : List Entry} {data : Bytes}
    (resides : c.Resides m) (isBase : IsBase C dataStart entries slots data)
    (distinct : Distinct entries)
    (room : dataStart + (segmentBytes data).length ≤ m.db.options.maxDatabaseBytes.toNat)
    (word : dataStart + (segmentBytes data).length < 2 ^ 64) :
    wp (installMemoryBase dataStart (segmentBytes data) entries.length)
      (fun _ m' => (Contents.ofBase (m.db.base.generation + 1) dataStart isBase distinct le_rfl
          word).Resides m' ∧ SameConfig m.db m'.db ∧ m'.db.state = m.db.state)
      (Halted c m) m := by
  obtain ⟨index, laid, dataIs⟩ := isBase.laid
  have header : readBaseHeader data = .ok (slots, entries.length) := dataIs ▸ laid.header
  have some := segmentBytes_ne_nil data
  unfold installMemoryBase
  dsimp only
  rw [isBase.segmentLayout, segmentMetadataChecksum_written isBase, checkedAdd_some word]
  refine wp_bind (wp_lift_ok ?_)
  dsimp only
  rw [header]
  refine wp_bind (wp_lift_ok ?_)
  rw [if_neg (not_not_intro rfl)]
  refine wp_bind (wp_lift_ok (wp_bind (wp_lift_ok (wp_bind (wp_state (wp_bind (wp_lift ?_ ?_)))))))
  swap
  · intro e stopped
    obtain ⟨overflow, panicked⟩ := addOrPanic_eq_error stopped
    exact ⟨resides, ⟨rfl, rfl⟩, .inl rfl, .inr ⟨panicked, overflow⟩⟩
  intro generation next
  obtain ⟨rfl, -⟩ := addOrPanic_eq_ok.mp next
  obtain ⟨c', is⟩ : ∃ c', Contents.ofBase (m.db.base.generation + 1) dataStart isBase distinct le_rfl
    word = c' := ⟨_, rfl⟩
  have root : Superblock.new (m.db.base.generation + 1) dataStart (segmentBytes data).length slots
      entries.length (dataStart + (segmentBytes data).length) (metadataChecksum data) = c'.root := by
    rw [← is]
    rfl
  have installs : ActiveBase.install m.storage.file (.memory (segmentBytes data)) c'.root =
      .ok (c'.residentBase (verifierOf c'.root.baseOffset c'.data c'.data true)) := by
    have dataIs : data = c'.data := by rw [← is]; rfl
    rw [dataIs]
    exact install_written c'.isBase rfl c'.describes
  rw [is, root]
  refine wp_bind (wp_state ?_)
  rw [installs]
  refine wp_bind (wp_lift_ok ?_)
  -- From here on only an allocation can fail, and the old Base is still installed.
  refine wp_bind (Mdb.wp_orPoison (Mdb.wp_volatile (Volatile.wp_writeRoot c'.root ?_ ?_)))
  swap
  · intro e ram error loud grew len
    exact ⟨error, (resides.ram len grew).poisoned, ⟨rfl, rfl⟩, .inr rfl, .inl (by
      obtain ⟨error, rfl⟩ := error
      exact ⟨error, rfl, .inr (.inl loud)⟩)⟩
  intro ram1 grew1 is1
  have len1 : ram1.memory.storage.len = m.storage.len := by
    rw [is1]
    exact Nat.max_eq_left ((pageOffset_end_le _).trans resides.dataStart_le)
  rw [len1] at grew1
  have resides1 := resides.ram len1 grew1
  refine wp_bind (Mdb.wp_orPoison (Mdb.wp_volatile (Volatile.wp_call
    (wp_mono (Mem.wp_replaceBase some word) ?_ ?_))))
  swap
  · rintro _ memory ⟨⟨error, rfl⟩, loud, left, same⟩
    have len2 : memory.storage.len = ram1.memory.storage.len := by rw [same]
    refine ⟨⟨error, rfl⟩, (resides1.ram len2 (.call len2.le left)).poisoned, ⟨rfl, rfl⟩, .inr rfl, .inl ?_⟩
    exact ⟨error, rfl, .inr (.inl fun quiet => loud (grew1.quiet quiet))⟩
  rintro _ memory ⟨left, len2⟩
  generalize ramIs : (⟨memory, _⟩ : Ram) = ram2
  have grew2 : ram1.Grew (dataStart + (segmentBytes data).length) ram2 := ramIs ▸ .call len2.le left
  have len2 : ram2.memory.storage.len = dataStart + (segmentBytes data).length := by
    rw [← ramIs]
    exact len2
  refine wp_bind (wp_bind (Mdb.wp_orPoison (Mdb.wp_volatile (Volatile.wp_seekEnd
    (len2.trans_lt word) fun ram3 grew3 is3 => Mdb.wp_shared (wp_modify ?_)))))
  refine Mdb.wp_shared (wp_bind (wp_state (wp_modify ?_)))
  have len3 : ram3.memory.storage.len = c'.logEnd := by
    rw [is3, ← is, Contents.ofBase_logEnd]
    exact len2
  obtain ⟨table, owns⟩ := resides.overlay
  refine ⟨⟨rfl, c'.checks_verifierOf true, ⟨[], ?_, distinct_nil, ?_, Nat.zero_le _⟩, ?_, len3, ?_, ?_,
    resides.available⟩, ⟨rfl, rfl⟩, rfl⟩
  · show m.db.overlay.clear = _
    rw [owns.is]
    rfl
  · rw [← is]
    exact fun _ => rfl
  · rw [← is, Contents.ofBase_baseOffset]
  · show ram3.memory.storage.len ≤ _
    rw [is3]
    exact len2.trans_le room
  · intro n member
    rw [len2] at grew3
    rcases (grew2.trans grew3).lengths n member with before | new
    · exact resides1.within n before
    · exact new.trans room

/-- What happened before leaves the reasons alone. -/
theorem Halted.before {m₁ m' : MemoryDatabase} {e : Stop} (halted : Halted c m₁ e m')
    (config : SameConfig m.db m₁.db) (state : m₁.db.state = m.db.state)
    (generation : m₁.db.base.generation = m.db.base.generation)
    (calm : m.ram.memory.Quiet → m₁.ram.memory.Quiet) : Halted c m e m' where
  resides := halted.resides
  config := ⟨halted.config.options.trans config.options, halted.config.guard.trans config.guard⟩
  state := halted.state.imp_left fun same => same.trans state
  why := by
    rcases halted.why with ⟨error, rfl, why⟩ | ⟨panicked, overflow⟩
    · rw [state, config.guard] at why
      exact .inl ⟨error, rfl, why.imp_right (.imp_left (mt calm))⟩
    · rw [generation] at overflow
      exact .inr ⟨panicked, overflow⟩

/-- What a compaction that returned has made of the contents. -/
structure Compacted (c : Contents C) (m m' : MemoryDatabase) (c' : Contents C) : Prop where
  resides : c'.Resides m'
  fresh : c'.batches = []
  lists : Lists c.map c'.entries
  config : SameConfig m.db m'.db
  state : m'.db.state = m.db.state

theorem Compacted.map {m' : MemoryDatabase} {c' : Contents C} (done : Compacted c m m' c') :
    c'.map = c.map := by
  rw [done.lists.eq_latest, Contents.map, done.fresh]
  exact override_nil _

theorem wp_compactMemory {slots : Nat} {entries : List Entry} (resides : c.Resides m)
    (lists : Lists c.map entries) (valid : ∀ entry ∈ entries, ValidEntry entry)
    (yields : Yields RawEntries.feed (fun _ => True) (m.db.iterRaw C) entries)
    (enough : entries.length < RawEntries.feed.bound (m.db.iterRaw C))
    (count : baseSlotCount entries.length = .ok slots) (small : segmentSize slots entries < 2 ^ 64) :
    wp (compactMemory C entries.length (segmentSize slots entries))
      (fun _ m' => ∃ c', Compacted c m m' c') (Halted c m) m := by
  have refuse : ∀ {error : Error}, error.TooLarge → Halted c m (.err error) m := fun large =>
    ⟨resides, ⟨rfl, rfl⟩, .inl rfl, .inl ⟨_, rfl, .inr (.inr (.inr large))⟩⟩
  unfold compactMemory
  refine wp_bind (wp_lift ?_ ?_)
  swap
  · intro e refused
    cases sum : checkedAdd dataStart (segmentSize slots entries) with
    | none =>
        rw [sum] at refused
        cases refused
        exact refuse trivial
    | some total =>
        rw [sum] at refused
        cases refused
  intro required sum
  obtain ⟨rfl, word⟩ := checkedAdd_eq_some_iff.mp (orFail_eq_ok.mp sum)
  refine wp_bind (wp_state ?_)
  split
  · exact wp_stop (refuse trivial)
  rename_i room
  have room := Nat.not_lt.mp room
  have ready : Ready RawEntries.feed (fun _ => True) (Disk.ofFile File.empty []) dataStart
      entries.length (m.db.iterRaw C) entries slots := by
    refine ⟨yields, rfl, count, ?_, small, enough, fun _ _ => trivial⟩
    unfold segmentSize at word
    omega
  refine wp_bind (wp_zoom (wp_mono (wp_buildMemoryBase _ ready valid) ?_ ?_))
  swap
  · rintro _ d ⟨⟨loud, error, rfl⟩, issued⟩
    exact ⟨resides.afresh d.faults, ⟨rfl, rfl⟩, .inl rfl, .inl ⟨error, rfl, .inr (.inl loud)⟩⟩
  rintro _ d ⟨issued, data, isBase, rfl⟩
  have size := isBase.segmentSize
  rw [if_neg (not_not_intro size)]
  rw [← size] at room word
  refine wp_mono (wp_installMemoryBase (resides.afresh d.faults) isBase lists.distinct room word) ?_ ?_
  · rintro _ m' ⟨installed, config, state⟩
    exact ⟨_, installed, rfl, lists, config, state⟩
  · intro e m' halted
    exact halted.before ⟨rfl, rfl⟩ rfl rfl issued.quiet

/-- A compaction keeps the map and empties the log, or it leaves the contents alone. -/
theorem wp_compactInMemory (resides : c.Resides m) :
    wp (compact C)
      (fun _ m' => m.db.state = .healthy ∧ m.db.snapshotGuard = 1 ∧ ∃ c', Compacted c m m' c')
      (Halted c m) m := by
  have refuse : ∀ {error : Error}, (m.db.state ≠ .healthy ∧ error = .poisoned ∨ m.db.snapshotGuard ≠ 1) →
      Halted c m (.err error) m := fun why =>
    ⟨resides, ⟨rfl, rfl⟩, .inl rfl, .inl ⟨_, rfl, why.imp_right fun shared => .inr (.inl shared)⟩⟩
  unfold compact
  refine wp_bind (Mdb.wp_shared (Database.wp_ensureWritable (fun healthy => ?_) fun poisoned =>
    refuse (.inl ⟨poisoned, rfl⟩)))
  refine wp_bind (wp_state ?_)
  split
  · rename_i shared
    exact wp_stop (refuse (.inr shared))
  rename_i alone
  have alone : m.db.snapshotGuard = 1 := not_not.mp alone
  obtain ⟨v, verified, checks⟩ := resides.answers.verify resides.available
  have resides1 := resides.withVerifier checks
  refine wp_bind (Mdb.wp_shared_ok verified ?_)
  generalize mIs : ({ m with db := (m.handle.withVerifier v).db } : MemoryDatabase) = m1 at resides1
  have config : SameConfig m.db m1.db := mIs ▸ ⟨rfl, rfl⟩
  have state : m1.db.state = m.db.state := by rw [← mIs]; rfl
  have generation : m1.db.base.generation = m.db.base.generation := by rw [← mIs]; rfl
  have calm : m.ram.memory.Quiet → m1.ram.memory.Quiet := by rw [← mIs]; exact id
  refine wp_bind (Mdb.wp_shared (wp_mono resides1.wp_alreadyCompact ?_ fun _ _ => False.elim))
  rintro done h ⟨doneIff, db⟩
  rw [show ({ m1 with db := h.db } : MemoryDatabase) = m1 by rw [db]]
  split
  · rename_i yes
    have fresh := doneIff.mp yes
    refine wp_pure ⟨healthy, alone, c, resides1, fresh, ?_, config, state⟩
    have map : c.map = latest c.entries := by
      unfold Contents.map
      rw [fresh]
      exact override_nil _
    rw [map]
    exact lists_latest c.distinct
  · obtain ⟨pairs, lists, valid, enough, yields⟩ := resides1.yields
    refine wp_bind (wp_state (wp_bind ?_))
    have spec := @measureBaseIter_spec _ _ _ (m1.db.iterRaw C) m1.storage.file pairs yields trivial enough
    rcases spec with ⟨error, refused, large, -⟩ | ⟨slots, count, small, measured⟩
    · rw [refused]
      refine wp_lift_error (Halted.before ?_ config state generation calm)
      exact ⟨resides1, ⟨rfl, rfl⟩, .inl rfl, .inl ⟨error, rfl, .inr (.inr (.inr large))⟩⟩
    · rw [measured]
      refine wp_lift_ok (wp_mono (wp_compactMemory resides1 lists valid yields enough count small) ?_ ?_)
      · rintro _ m' ⟨c', done⟩
        exact ⟨healthy, alone, c', done.resides, done.fresh, done.lists,
          ⟨done.config.options.trans config.options, done.config.guard.trans config.guard⟩,
          done.state.trans state⟩
      · exact fun e m' halted => halted.before config state generation calm

end MemoryDatabase

end Lkv
