/-
# Lkv.Database.Calls — the calls that make an empty database

`Counted n act` says of a program that it makes exactly `n` calls, that it fails if and only if
one of these fails, and that it leaves the failures behind them to come.  Counted programs add up
(`counted_bind`), so that the calls of `initialize_file` (`database/mod.rs`) can be told from the
list of failures alone: there are fourteen (`counted_initializeFile`).
-/
import Lkv.System.Lifecycle

namespace Lkv
open Lkv.Theory Lkv.Theory.Prog

set_option autoImplicit false

/-! ## Counting -/

/-- The next calls, `n` of them, do not fail. -/
def Passing (faults : List Fault) (n : Nat) : Prop := ∀ fault ∈ faults.take n, fault = .pass

theorem passing_zero (faults : List Fault) : Passing faults 0 := List.forall_mem_nil _

theorem passing_add {faults : List Fault} {m n : Nat} :
    Passing faults (m + n) ↔ Passing faults m ∧ Passing (faults.drop m) n := by
  unfold Passing
  rw [List.take_add]
  exact List.forall_mem_append

namespace Io

variable {α β : Type} {m n : Nat} {d : Disk} {Q : α → Disk → Prop}

/-- The program makes `n` calls; it returns in `Q` if none of them fails, and an error if one does. -/
def Counted (n : Nat) (act : Io α) (Q : α → Disk → Prop) (d : Disk) : Prop :=
  wp act (fun a d' => Q a d' ∧ Passing d.faults n ∧ d'.faults = d.faults.drop n)
    (fun e _ => ¬Passing d.faults n ∧ ∃ error, e = .err error) d

theorem counted_pure {a : α} (post : Q a d) : Counted 0 (pure a) Q d :=
  wp_pure ⟨post, passing_zero _, rfl⟩

theorem counted_modify {f : Disk → Disk} {Q : Unit → Disk → Prop} (post : Q () (f d))
    (same : (f d).faults = d.faults) : Counted 0 (modify f) Q d :=
  wp_modify ⟨post, passing_zero _, same⟩

theorem counted_bind {act : Io α} {k : α → Io β} {Q : β → Disk → Prop} {P : α → Disk → Prop}
    (first : Counted m act P d) (rest : ∀ a d', P a d' → Counted n (k a) Q d') :
    Counted (m + n) (act >>= k) Q d := by
  refine wp_bind (wp_mono first ?_ fun e d' stopped => ⟨fun all => stopped.1 (passing_add.mp all).1, stopped.2⟩)
  rintro a d' ⟨post, passed, left⟩
  refine wp_mono (rest a d' post) ?_ ?_
  · rintro b d'' ⟨post, passed', left'⟩
    rw [left] at passed' left'
    exact ⟨post, passing_add.mpr ⟨passed, passed'⟩, by rw [left', List.drop_drop]⟩
  · rintro e d'' ⟨broken, stopped⟩
    rw [left] at broken
    exact ⟨fun all => broken (passing_add.mp all).2, stopped⟩

/-- A call, with a program for its failure. -/
theorem counted_nextFault_bind {k : Option (Nat × IoError) → Io α} (passed : Counted n (k none) Q d.tick)
    (failed : ∀ fault d', wp (k (some fault)) (fun _ _ => False) (fun e _ => ∃ error, e = .err error) d') :
    Counted (n + 1) (nextFault >>= k) Q d := by
  have passes : ∀ {rest}, Passing (.pass :: rest) (n + 1) ↔ Passing rest n := by
    intro rest
    simp [Passing]
  unfold Counted wp at passed ⊢
  rw [bind_run]
  unfold nextFault
  cases faults : d.faults with
  | nil =>
      have tick : d.tick.faults = [] := by rw [Disk.tick, faults]; rfl
      have all : ∀ n, Passing [] n := fun n => by simp [Passing]
      rw [tick] at passed
      simpa [all, List.drop_nil] using passed
  | cons fault rest =>
      have tick : d.tick.faults = rest := by rw [Disk.tick, faults]; rfl
      rw [tick] at passed
      cases fault with
      | pass => simpa only [passes, List.drop_succ_cons] using passed
      | fail applied error =>
          have broken : ¬Passing (.fail applied error :: rest) (n + 1) := by simp [Passing]
          have stops := failed (applied, error) d.tick
          unfold wp at stops
          dsimp only
          cases ran : k (some (applied, error)) d.tick with
          | mk result d' =>
              rw [ran] at stops
              cases result with
              | ok a => exact stops.elim
              | error e => exact ⟨broken, stops⟩

theorem counted_call {act : Io α} (counted : Counted n act Q d.tick) : Counted (n + 1) (call act) Q d :=
  counted_nextFault_bind counted fun _ _ => wp_stop ⟨_, rfl⟩

theorem counted_seekStart (position : Nat) :
    Counted 1 (seekStart position) (fun _ d' => d'.file = d.file ∧ d'.position = position) d :=
  counted_call (counted_modify ⟨rfl, rfl⟩ rfl)

theorem counted_setLen (len : Nat) :
    Counted 1 (setLen len) (fun _ d' => d'.file = d.file.setLen len) d :=
  counted_call (counted_modify rfl rfl)

theorem counted_syncAll : Counted 1 syncAll (fun _ _ => True) d :=
  counted_call (counted_modify trivial rfl)

theorem counted_reserve (error : Error) : Counted 1 (reserve error) (fun _ d' => d'.file = d.file) d :=
  counted_nextFault_bind (counted_pure rfl) fun _ _ => wp_stop ⟨_, rfl⟩

theorem counted_writeAll {bytes : Bytes} (some : bytes ≠ []) :
    Counted 1 (writeAll bytes) (fun _ d' => d'.file = d.file.write d.position bytes) d := by
  unfold writeAll
  rw [if_neg some]
  exact counted_nextFault_bind (counted_modify rfl rfl) fun _ _ => wp_bind (wp_modify (wp_stop ⟨_, rfl⟩))

theorem counted_len : Counted 1 len (fun size d' => size = d.file.len ∧ d'.file = d.file) d :=
  counted_call (wp_bind (wp_state (counted_pure ⟨rfl, rfl⟩)))

theorem counted_readExact {count : Nat} (inside : d.position + count ≤ d.file.len) :
    Counted 1 (readExact count) (fun _ d' => d'.file = d.file) d := by
  refine counted_call (wp_bind (wp_state ?_))
  rw [if_pos (show d.tick.position + count ≤ d.tick.file.len from inside)]
  exact wp_bind (wp_modify (wp_pure ⟨rfl, passing_zero _, rfl⟩))

theorem counted_map {offset size : Nat} (some : size ≠ 0) (word : offset + size < 2 ^ 64)
    (inside : offset + size ≤ d.file.len) :
    Counted 2 (map offset size) (fun mapping d' => mapping = .mapped offset size ∧ d'.file = d.file) d := by
  unfold map
  rw [if_neg some, checkedAdd_some word]
  refine wp_bind (wp_lift_ok (counted_bind (n := 1) counted_len ?_))
  rintro _ d' ⟨rfl, same⟩
  rw [if_neg (Nat.not_lt.mpr inside)]
  exact counted_call (counted_pure ⟨rfl, same⟩)

theorem counted_bufWrite {capacity : Nat} {bytes : Bytes} {k : Unit → Io α}
    (fits : bytes.length < capacity - d.buffer.length)
    (rest : Counted n (k ()) Q { d with buffer := d.buffer ++ bytes }) :
    Counted n (bufWrite capacity bytes >>= k) Q d := by
  refine wp_bind (wp_bind (wp_state ?_))
  rw [if_pos fits]
  exact wp_modify rest

theorem counted_flushBuf (some : d.buffer ≠ []) :
    Counted 1 flushBuf (fun _ d' => d'.buffer = [] ∧ d'.file = d.file.write d.position d.buffer) d := by
  refine wp_bind (wp_state ?_)
  rw [if_neg some]
  exact counted_nextFault_bind (counted_modify ⟨rfl, rfl⟩ rfl) fun _ _ =>
    wp_bind (wp_modify (wp_stop ⟨_, rfl⟩))

theorem counted_withBufWriter {body : Io α}
    (counted : Counted n body (fun a d' => d'.buffer = [] ∧ Q a d') { d with buffer := [] }) :
    Counted n (withBufWriter body) Q d :=
  wp_withBufWriter (wp_mono counted (fun _ _ post => ⟨post.1.1, post.1.2, post.2⟩) fun _ _ => id)

/-- What is known of the program by other means. -/
theorem Counted.and {act : Io α} {R : α → Disk → Prop} {E : Stop → Disk → Prop} (counted : Counted n act Q d)
    (runs : wp act R E d) : Counted n act (fun a d' => Q a d' ∧ R a d') d := by
  unfold Counted wp at *
  revert counted runs
  rcases act d with ⟨⟨e⟩ | ⟨a⟩, d'⟩
  · exact fun stopped _ => stopped
  · exact fun post also => ⟨⟨post.1, also⟩, post.2⟩

end Io


/-! ## The empty database -/

/-- Without records nothing is written behind the index. -/
theorem counted_writeNoRecords {C : Crates} {d : Disk} {written : RecordsWritten} :
    Io.Counted 0 (Io.withBufWriter do
        let written ← writeRecords C Feed.none 0 1 () written
        Io.flushBuf
        return written)
      (fun result _ => result = written) d :=
  show _ ∧ _ from ⟨rfl, passing_zero _, rfl⟩

/-- The header of an empty Base goes through the buffer in one write. -/
theorem counted_writeEmptyHeader {d : Disk} :
    Io.Counted 1 (Io.withBufWriter do
        Io.bufWrite writeBufferSize hashSectionId
        Io.bufWrite writeBufferSize (leBytes 4 baseHeader)
        Io.bufWrite writeBufferSize (leBytes 8 0)
        Io.bufWrite writeBufferSize (leBytes 8 0)
        Prog.onlyIf (0 > 0) (writeSlots [])
        Io.flushBuf)
      (fun _ d' => d'.file = d.file.write d.position emptyData) d := by
  refine Io.counted_withBufWriter ?_
  refine Io.counted_bufWrite ?_ (Io.counted_bufWrite ?_ (Io.counted_bufWrite ?_ (Io.counted_bufWrite ?_
    (wp_bind (wp_onlyIf nofun fun _ => Io.counted_flushBuf ?_)))))
  · show 4 < writeBufferSize
    decide
  · show 4 < writeBufferSize - 4
    decide
  · show 8 < writeBufferSize - 8
    decide
  · show 8 < writeBufferSize - 16
    decide
  · exact List.cons_ne_nil _ _

/-- The header is read back as one block, and its checksum written. -/
theorem counted_appendBlockChecksums {d : Disk} {start : Nat} (inside : start + baseHeader ≤ d.file.len) :
    Io.Counted 5 (appendBlockChecksums start baseHeader) (fun _ _ => True) d := by
  unfold appendBlockChecksums
  refine Io.counted_bind (m := 1) (n := 4) (Io.counted_seekStart start) ?_
  rintro _ d₁ ⟨file₁, position₁⟩
  have one : readBlockChecksums (divCeil baseHeader checksumBlockSize + 1) baseHeader [] =
      (do let block ← Io.readExact baseHeader; return [(crc32c block).toNat]) := rfl
  rw [one]
  refine Io.counted_bind (m := 1) (n := 3) (P := fun checksums _ => checksums.length = 1) ?_ ?_
  · refine Io.counted_bind (m := 1) (n := 0) (Io.counted_readExact (by rw [file₁, position₁]; exact inside))
      fun _ _ _ => Io.counted_pure rfl
  · intro checksums d₂ single
    rw [single]
    refine wp_bind (wp_lift_ok (a := 4) (wp_bind (wp_lift_ok (a := 4 + checksumFooterSize) ?_)))
    refine Io.counted_bind (m := 1) (n := 2) (Io.counted_reserve _) fun _ d₃ _ => ?_
    refine Io.counted_bind (m := 1) (n := 1) (Io.counted_seekStart _) fun _ d₄ _ => ?_
    have some : checksumMetadata baseHeader checksums ≠ [] := by
      simp [checksumMetadata, checksumSectionId]
    refine Io.counted_bind (m := 1) (n := 0) (Io.counted_writeAll some) fun _ d₅ _ => ?_
    have size : (checksumMetadata baseHeader checksums).length = 4 + checksumFooterSize := by
      obtain ⟨checksum, rfl⟩ := List.length_eq_one_iff.mp single
      simp [checksumMetadata, checksumSectionId, checksumFooterSize]
    rw [size]
    exact wp_bind (wp_lift_ok (a := baseHeader + (4 + checksumFooterSize)) (Io.counted_pure trivial))

/-- The eight calls of the writer of an empty Base. -/
theorem counted_writeEmptyBase (C : Crates) (d : Disk) {start : Nat} (word : start + baseHeader < 2 ^ 64) :
    Io.Counted 8 (writeBaseAt C Feed.none start 0 ()) (fun _ _ => True) d := by
  unfold writeBaseAt writeBaseWithMetadataAt
  refine Io.counted_bind (m := 8) (n := 0) (P := fun _ _ => True) ?_ fun _ _ _ => Io.counted_pure trivial
  refine wp_bind (wp_lift_ok (a := 0) (wp_bind (wp_lift_ok (a := 0) ?_)))
  have records : (checkedAdd start baseHeader).bind (fun offset => checkedAdd offset 0) =
      some (start + baseHeader) := by
    rw [checkedAdd_some word, Option.bind_some]
    exact checkedAdd_some word
  rw [records]
  refine wp_bind (wp_lift_ok ?_)
  refine Io.counted_bind (m := 1) (n := 7) (Io.counted_seekStart _) fun _ d₁ _ => ?_
  refine Io.counted_bind (m := 0) (n := 7) counted_writeNoRecords ?_
  rintro _ d₂ rfl
  rw [if_neg (not_not_intro rfl)]
  refine Io.counted_bind (m := 1) (n := 6) (Io.counted_seekStart start) ?_
  rintro _ d₃ ⟨-, position₃⟩
  refine Io.counted_bind (m := 1) (n := 5) counted_writeEmptyHeader fun _ d₄ file₄ => ?_
  rw [Nat.add_sub_cancel_left]
  refine Io.counted_bind (m := 5) (n := 0) (counted_appendBlockChecksums ?_) fun _ _ _ =>
    Io.counted_pure trivial
  rw [file₄, position₃, File.write_len _ _ (show emptyData ≠ [] from List.cons_ne_nil _ _)]
  exact le_max_right _ _

/-- Initialising an empty file makes fourteen calls. -/
theorem counted_initializeFile (C : Crates) {d : Disk} (new : d.file = File.empty) :
    Io.Counted 14 (initializeFile C) (fun _ d' => d'.file = emptyImage C) d := by
  have image := wp_initializeFile C new
  refine wp_mono (Io.Counted.and (Q := fun _ _ => True) ?_ image)
    (fun _ _ post => ⟨post.1.2.1, post.2⟩) fun _ _ => id
  refine Io.counted_bind (m := 1) (n := 13) (Io.counted_setLen dataStart) fun _ d₁ file₁ => ?_
  refine Io.counted_bind (m := 8) (n := 5) ((counted_writeEmptyBase C d₁ (by decide)).and
    (wp_writeEmptyBase C d₁ (by decide))) ?_
  rintro _ d₂ ⟨-, rfl, file₂, -⟩
  have written : d₂.file = (File.empty.setLen dataStart).write dataStart (segmentBytes emptyData) := by
    rw [file₂, file₁, new]
  have len : d₂.file.len = dataStart + emptySegmentSize := by
    rw [written]
    exact emptyBase_len
  refine Io.counted_bind (m := 2) (n := 3) (Io.counted_map (by decide) (by decide) len.ge) ?_
  rintro _ d₃ ⟨rfl, file₃⟩
  have held : d₃.file.slice dataStart emptySegmentSize = segmentBytes emptyData := by
    rw [file₃, written, ← emptyData_segment]
    exact File.holds_write _ _ _
  refine wp_bind (wp_state ?_)
  rw [BaseBytes.deref, held, segmentMetadataChecksum_written (emptyData_isBase C dataStart (by decide))]
  refine wp_bind (wp_lift_ok ?_)
  refine Io.counted_bind (m := 2) (n := 1) (P := fun _ _ => True) ?_ fun _ _ _ => Io.counted_syncAll
  refine Io.counted_bind (m := 1) (n := 1) (Io.counted_seekStart _) fun _ d₄ _ => ?_
  have some : (Superblock.new 1 dataStart emptySegmentSize 0 0 (dataStart + emptySegmentSize)
      (metadataChecksum emptyData)).encodePage ≠ [] := by
    intro isEmpty
    have := congrArg List.length isEmpty
    rw [Superblock.encodePage_length] at this
    cases this
  exact wp_mono (Io.counted_writeAll some) (fun _ _ post => ⟨trivial, post.2⟩) fun _ _ => id

end Lkv
