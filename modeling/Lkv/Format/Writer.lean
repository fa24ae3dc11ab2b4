/-
# Lkv.Format.Writer — what `write_base_with_metadata_at` leaves in the file

The writer streams the records, goes back for the header and the slot table,
reads everything once more for the checksums and appends them.  If it returns,
the file holds the image of the entries it was fed (`wp_writeBaseWithMetadataAt`):
that needs nothing of the feed.  With a feed which yields the same entries whatever the
writer has written so far (`Yields`) only bytes of the range of their Base are touched,
and unless an entry is too long for the format it stops only because a call failed.
-/
import Lkv.Format.Image

namespace Lkv

open Lkv.Theory Lkv.Theory.Prog Lkv.Io

set_option autoImplicit false

/-- The feed yields `entries` from `i` on, as long as the file satisfies `P`. -/
inductive Yields {ι : Type} (feed : Feed ι) (P : File → Prop) : ι → List Entry → Prop
  | done (i : ι) (next : ∀ f, P f → ∃ i', feed.next f i = .ok (none, i')) : Yields feed P i []
  | more (i i' : ι) (entry : Entry) (entries : List Entry)
      (next : ∀ f, P f → feed.next f i = .ok (some entry, i')) (rest : Yields feed P i' entries) :
      Yields feed P i (entry :: entries)

theorem checkLengths_eq_ok {key value : Bytes} :
    checkLengths key value = .ok () ↔ ValidEntry (key, value) := by
  unfold checkLengths ValidEntry
  split
  · simp only [fail_eq_ok, false_iff]
    omega
  · simp only [true_iff]
    omega

theorem checkLengths_noPanic {key value : Bytes} : NoPanic (checkLengths key value) := by
  unfold checkLengths
  split
  · exact noPanic_fail
  · exact noPanic_ok

section Records

variable {ι : Type} {C : Crates} {feed : Feed ι} {slots start fuel : Nat} {i : ι}
variable {written : RecordsWritten} {d₀ d : Disk} {done : Bytes} {P : File → Prop}

/-- Why a writer that was to write `entries` stopped: a call failed, or an entry is too
long for the format. -/
structure Stopped (d₀ : Disk) (entries : List Entry) (e : Stop) : Prop where
  error : ∃ error, e = .err error
  due : (∀ entry ∈ entries, ValidEntry entry) → ¬d₀.Quiet

theorem stopped_of_failed {entries : List Entry} {e : Stop} (failed : d₀.Failed e) :
    Stopped d₀ entries e :=
  ⟨failed.2, fun _ => failed.1⟩

theorem Stopped.failed {entries : List Entry} {e : Stop} (stopped : Stopped d₀ entries e)
    (valid : ∀ entry ∈ entries, ValidEntry entry) : d₀.Failed e :=
  ⟨stopped.due valid, stopped.error⟩

/-- The loop is about to write `entries`. -/
structure Prepared (C : Crates) (feed : Feed ι) (slots : Nat) (P : File → Prop) (d₀ : Disk)
    (start : Nat) (done : Bytes) (fuel : Nat) (i : ι) (written : RecordsWritten)
    (entries : List Entry) : Prop where
  yields : Yields feed P i entries
  room : ∃ index, placeAll C slots written.index written.offset entries = .ok index
  word : written.offset + totalSize entries < 2 ^ 64
  enough : entries.length < fuel
  /-- What is written does not disturb the feed. -/
  stable : ∀ bytes : Bytes, bytes.length ≤ done.length + totalSize entries →
    P (d₀.file.write start bytes)

theorem Prepared.reads {entries : List Entry}
    (prepared : Prepared C feed slots P d₀ start done fuel i written entries)
    (streaming : Streaming d₀ start done d) : P d.file := by
  obtain ⟨chunks, streamed⟩ := streaming
  rw [streamed.file]
  refine prepared.stable _ ?_
  rw [streamed.whole, List.length_append]
  omega

theorem Prepared.next {entry : Entry} {entries : List Entry} {i' : ι}
    {index : List (Nat × Nat)}
    (prepared : Prepared C feed slots P d₀ start done (fuel + 1) i written (entry :: entries))
    (yields : Yields feed P i' entries)
    (placed : placeEntry C written.index slots entry.1 written.offset = .ok index) :
    Prepared C feed slots P d₀ start (done ++ encodeRecord entry) fuel i'
      ⟨index, written.offset + recordSize entry, written.writtenLen + 1⟩ entries where
  yields := yields
  room := by
    obtain ⟨last, room⟩ := prepared.room
    rw [placeAll, placed, ok_bind] at room
    exact ⟨last, room⟩
  word := by
    have := prepared.word
    rw [totalSize_cons] at this
    dsimp only
    omega
  enough := by
    have := prepared.enough
    rw [List.length_cons] at this
    omega
  stable bytes short := prepared.stable bytes (by
    rw [List.length_append, encodeRecord_length] at short
    rw [totalSize_cons]
    omega)

/-- The four writes of a record. -/
theorem wp_writeRecord {α : Type} {k : Unit → Io α} {Q : α → Disk → Prop}
    {E : Stop → Disk → Prop} (streaming : Streaming d₀ start done d) (key value : Bytes)
    (next : ∀ d', Streaming d₀ start (done ++ encodeRecord (key, value)) d' → wp (k ()) Q E d')
    (broken : ∀ e d', Broken d₀ start (done ++ encodeRecord (key, value)) e d' → E e d') :
    wp (bufWrite writeBufferSize (leBytes 4 key.length) >>= fun _ =>
      bufWrite writeBufferSize (leBytes 4 value.length) >>= fun _ =>
      bufWrite writeBufferSize key >>= fun _ => bufWrite writeBufferSize value >>= k) Q E d := by
  have room : 0 < writeBufferSize := by decide
  refine wp_bufWrite_bind streaming room (fun e d' stopped => broken e d' (stopped.mono
    ⟨leBytes 4 value.length ++ key ++ value, by simp [encodeRecord]⟩)) fun d1 streaming1 => ?_
  refine wp_bufWrite_bind streaming1 room (fun e d' stopped => broken e d' (stopped.mono
    ⟨key ++ value, by simp [encodeRecord]⟩)) fun d2 streaming2 => ?_
  refine wp_bufWrite_bind streaming2 room (fun e d' stopped => broken e d' (stopped.mono
    ⟨value, by simp [encodeRecord]⟩)) fun d3 streaming3 => ?_
  have last : done ++ leBytes 4 key.length ++ leBytes 4 value.length ++ key ++ value =
      done ++ encodeRecord (key, value) := by simp [encodeRecord]
  refine wp_bufWrite_bind streaming3 room (fun e d' stopped => broken e d' (last ▸ stopped))
    fun d4 streaming4 => next d4 (last ▸ streaming4)

/-- The loop over the entries: what it has written when it returns, and that with a feed
it is prepared for it only stops in mid-stream. -/
theorem wp_writeRecords (streaming : Streaming d₀ start done d) :
    wp (writeRecords C feed slots fuel i written)
      (fun r d' => ∃ entries : List Entry, Streaming d₀ start (done ++ recordsBytes entries) d' ∧
        (∀ entry ∈ entries, ValidEntry entry) ∧
        placeAll C slots written.index written.offset entries = .ok r.index ∧
        r.offset = written.offset + totalSize entries ∧ (written.offset < 2 ^ 64 → r.offset < 2 ^ 64) ∧
        r.writtenLen = written.writtenLen + entries.length ∧
        ∀ expected, Prepared C feed slots P d₀ start done fuel i written expected → expected = entries)
      (fun e d' => ∀ expected, Prepared C feed slots P d₀ start done fuel i written expected →
        Stopped d₀ expected e ∧
          ∃ part, part <+: done ++ recordsBytes expected ∧ Streaming d₀ start part d') d := by
  induction fuel generalizing i written done d with
  | zero => exact wp_stop fun expected prepared => absurd prepared.enough (Nat.not_lt_zero _)
  | succ fuel ih =>
      refine wp_bind (wp_state (wp_bind (wp_lift ?_ ?_)))
      · rintro ⟨found, i'⟩ pulled
        cases found with
        | none =>
            refine wp_pure ⟨[], ?_, nofun, rfl, rfl, id, rfl, fun expected prepared => ?_⟩
            · rw [recordsBytes, List.flatMap_nil, List.append_nil]
              exact streaming
            · cases prepared.yields with
              | done => rfl
              | more _ next entry rest step _ =>
                  rw [step _ (prepared.reads streaming)] at pulled
                  cases pulled
        | some entry =>
            obtain ⟨key, value⟩ := entry
            -- What the loop was prepared for starts with this entry.
            have starts : ∀ expected, Prepared C feed slots P d₀ start done (fuel + 1) i written
                expected → ∃ rest, expected = (key, value) :: rest ∧ Yields feed P i' rest := by
              intro expected prepared
              cases prepared.yields with
              | done _ next =>
                  obtain ⟨_, step⟩ := next _ (prepared.reads streaming)
                  rw [step] at pulled
                  cases pulled
              | more _ next entry rest step yields =>
                  rw [step _ (prepared.reads streaming)] at pulled
                  cases pulled
                  exact ⟨rest, rfl, yields⟩
            have front : ∀ rest, done ++ encodeRecord (key, value) <+:
                done ++ recordsBytes ((key, value) :: rest) := fun rest =>
              ⟨recordsBytes rest, by simp [recordsBytes]⟩
            refine wp_bind (wp_lift ?_ ?_)
            · intro _ lengths
              have valid := checkLengths_eq_ok.mp lengths
              refine wp_writeRecord streaming key value ?_ ?_
              · intro d1 streaming1
                refine wp_bind (wp_lift ?_ ?_)
                · intro index placedOne
                  refine wp_bind (wp_lift ?_ ?_)
                  · intro offset summed
                    rw [orFail_eq_ok, checkedAdd_eq_some_iff] at summed
                    obtain ⟨rfl, word⟩ := summed
                    refine wp_mono (ih streaming1) ?_ ?_
                    · rintro r d2 ⟨rest, streaming2, restValid, room, offsetIs, below, count, only⟩
                      refine ⟨(key, value) :: rest, ?_, ?_, ?_, ?_, fun _ => below word, ?_, ?_⟩
                      · rw [recordsBytes, List.flatMap_cons, ← List.append_assoc]
                        exact streaming2
                      · exact List.forall_mem_cons.mpr ⟨valid, restValid⟩
                      · rw [placeAll, placedOne, ok_bind]
                        exact room
                      · rw [offsetIs, totalSize_cons, recordSize]
                        dsimp only
                        omega
                      · rw [count, List.length_cons]
                        dsimp only
                        omega
                      · intro expected prepared
                        obtain ⟨rest', rfl, yields⟩ := starts expected prepared
                        rw [only rest' (prepared.next yields placedOne)]
                    · intro e d2 stopped expected prepared
                      obtain ⟨rest', rfl, yields⟩ := starts expected prepared
                      obtain ⟨⟨error, due⟩, streamed⟩ := stopped rest' (prepared.next yields placedOne)
                      rw [List.append_assoc] at streamed
                      exact ⟨⟨error, fun all => due (List.forall_mem_cons.mp all).2⟩, streamed⟩
                  · intro e stopped expected prepared
                    obtain ⟨rest', rfl, yields⟩ := starts expected prepared
                    have := prepared.word
                    rw [totalSize_cons, recordSize] at this
                    rw [checkedAdd_some (by dsimp only at *; omega), orFail_some] at stopped
                    cases stopped
                · intro e stopped expected prepared
                  obtain ⟨rest', rfl, yields⟩ := starts expected prepared
                  obtain ⟨last, room⟩ := prepared.room
                  rw [placeAll, stopped] at room
                  cases room
              · intro e d' stopped expected prepared
                obtain ⟨rest', rfl, yields⟩ := starts expected prepared
                obtain ⟨failed, -, streamed⟩ := stopped.mono (front rest')
                exact ⟨stopped_of_failed failed, streamed⟩
            · intro e stopped expected prepared
              obtain ⟨rest', rfl, yields⟩ := starts expected prepared
              refine ⟨⟨checkLengths_noPanic e stopped, fun all => ?_⟩, done, List.prefix_append _ _,
                streaming⟩
              rw [checkLengths_eq_ok.mpr (List.forall_mem_cons.mp all).1] at stopped
              cases stopped
      · intro e stopped expected prepared
        cases prepared.yields with
        | done _ next =>
            obtain ⟨_, step⟩ := next _ (prepared.reads streaming)
            rw [step] at stopped
            cases stopped
        | more _ next entry rest step yields =>
            rw [step _ (prepared.reads streaming)] at stopped
            cases stopped

end Records

section Index

variable {start : Nat} {d₀ d : Disk} {done : Bytes}

theorem wp_writeSlots (streaming : Streaming d₀ start done d) (index : List (Nat × Nat)) :
    wp (writeSlots index) (fun _ d' => Streaming d₀ start (done ++ slotBytes index) d')
      (Broken d₀ start (done ++ slotBytes index)) d := by
  have room : 0 < writeBufferSize := by decide
  induction index generalizing done d with
  | nil =>
      refine wp_pure ?_
      rw [slotBytes, List.flatMap_nil, List.append_nil]
      exact streaming
  | cons slot rest ih =>
      have shape : done ++ slotBytes (slot :: rest) =
          done ++ leBytes 4 slot.1 ++ leBytes 8 slot.2 ++ slotBytes rest := by
        simp [slotBytes]
      rw [shape]
      refine wp_bufWrite_bind streaming room (fun e d' stopped => stopped.mono
        ⟨leBytes 8 slot.2 ++ slotBytes rest, by simp⟩) fun d1 streaming1 => ?_
      exact wp_bufWrite_bind streaming1 room (fun e d' stopped => stopped.mono
        ⟨slotBytes rest, rfl⟩) fun d2 streaming2 => ih streaming2

/-- The header and the slot table. -/
theorem wp_writeIndex (d : Disk) (slots len : Nat) (index : List (Nat × Nat))
    (none : slots = 0 → index = []) :
    wp (withBufWriter do
        bufWrite writeBufferSize hashSectionId
        bufWrite writeBufferSize (leBytes 4 baseHeader)
        bufWrite writeBufferSize (leBytes 8 slots)
        bufWrite writeBufferSize (leBytes 8 len)
        Prog.onlyIf (slots > 0) (writeSlots index)
        flushBuf)
      (fun _ d' => Written d d.position (headerBytes slots len ++ slotBytes index) d')
      (Stranded d d.position (headerBytes slots len ++ slotBytes index)) d := by
  have room : 0 < writeBufferSize := by decide
  refine wp_withBufWriter ?_
  refine wp_bufWrite_bind (streaming_start d) room (fun e d' stopped => (stopped.mono
    ⟨leBytes 4 baseHeader ++ leBytes 8 slots ++ leBytes 8 len ++ slotBytes index,
      by simp [headerBytes]⟩).stranded) fun d1 streaming1 => ?_
  refine wp_bufWrite_bind streaming1 room (fun e d' stopped => (stopped.mono
    ⟨leBytes 8 slots ++ leBytes 8 len ++ slotBytes index, by simp [headerBytes]⟩).stranded)
    fun d2 streaming2 => ?_
  refine wp_bufWrite_bind streaming2 room (fun e d' stopped => (stopped.mono
    ⟨leBytes 8 len ++ slotBytes index, by simp [headerBytes]⟩).stranded) fun d3 streaming3 => ?_
  refine wp_bufWrite_bind streaming3 room (fun e d' stopped => (stopped.mono
    ⟨slotBytes index, by simp [headerBytes]⟩).stranded) fun d4 streaming4 => ?_
  have header : [] ++ hashSectionId ++ leBytes 4 baseHeader ++ leBytes 8 slots ++ leBytes 8 len =
      headerBytes slots len := by simp [headerBytes]
  rw [header] at streaming4
  have flushed : ∀ d5, Streaming d d.position (headerBytes slots len ++ slotBytes index) d5 →
      wp flushBuf (fun _ d' => d'.buffer = [] ∧
        Written d d.position (headerBytes slots len ++ slotBytes index) d')
        (fun e d' => Stranded d d.position (headerBytes slots len ++ slotBytes index) e (dropWriter d'))
        d5 := by
    intro d5 streaming5
    refine wp_mono (wp_flushBuf streaming5) ?_ ?_
    · rintro _ d' ⟨streaming6, empty⟩
      exact ⟨empty, streaming6.written empty⟩
    · exact fun e d' broken => broken.stranded
  refine wp_bind (wp_onlyIf (fun _ => ?_) fun skip => ?_)
  · exact wp_mono (wp_writeSlots streaming4 index) (fun _ d5 => flushed d5)
      fun e d' stopped => stopped.stranded
  · refine flushed d4 ?_
    rw [none (by simpa using skip), slotBytes, List.flatMap_nil, List.append_nil]
    exact streaming4

end Index

/-! ## Checksums -/

section Checksums

variable {start size : Nat}

theorem divCeil_le_iff {n b k : Nat} (some : 0 < b) : divCeil n b ≤ k ↔ n ≤ k * b := by
  rw [divCeil, Nat.div_le_iff_le_mul_add_pred some, Nat.mul_comm b k]
  omega

theorem block_end (size i b : Nat) :
    min (i * b) size + min (size - i * b) b = min ((i + 1) * b) size := by
  rw [Nat.add_one_mul]
  omega

theorem block_left (size i b : Nat) :
    size - i * b - min (size - i * b) b = size - (i + 1) * b := by
  rw [Nat.add_one_mul]
  omega

/-- The loop over the blocks, entered before block `i`. -/
theorem wp_readBlockChecksums (d : Disk) {fuel i : Nat}
    (position : d.position = start + min (i * checksumBlockSize) size)
    (inside : start + size ≤ d.file.len) (upTo : i ≤ divCeil size checksumBlockSize)
    (enough : divCeil size checksumBlockSize < fuel + i) :
    wp (readBlockChecksums fuel (size - i * checksumBlockSize)
        ((blockChecksums (d.file.slice start size)).take i))
      (fun r d' => r = blockChecksums (d.file.slice start size) ∧ Disk.Issued [] d d')
      (fun e d' => d.Failed e ∧ Disk.Issued [] d d') d := by
  have count : (blockChecksums (d.file.slice start size)).length =
      divCeil size checksumBlockSize := by rw [blockChecksums_length, File.slice_length]
  have blocks := @divCeil_le_iff size checksumBlockSize i (by decide)
  induction fuel generalizing i d with
  | zero => omega
  | succ fuel ih =>
      rw [readBlockChecksums]
      by_cases last : size - i * checksumBlockSize = 0
      · rw [if_pos last]
        refine wp_pure ⟨List.take_of_length_le ?_, Disk.Issued.refl d⟩
        rw [count, blocks]
        omega
      · rw [if_neg last]
        have below : i < divCeil size checksumBlockSize := by
          by_contra all
          have := blocks.mp (by omega)
          omega
        have moved := Disk.issued_seek d
          (d.position + min (size - i * checksumBlockSize) checksumBlockSize)
        have block : d.file.slice d.position (min (size - i * checksumBlockSize) checksumBlockSize) =
            dataBlock (d.file.slice start size) i := by
          rw [dataBlock, File.window_slice_min, position, min_eq_left (by omega)]
        have extended : (blockChecksums (d.file.slice start size)).take i ++
            [(crc32c (dataBlock (d.file.slice start size) i)).toNat] =
            (blockChecksums (d.file.slice start size)).take (i + 1) := by
          rw [List.take_succ_eq_append_getElem (by omega)]
          simp [blockChecksums]
        refine wp_bind (wp_readExact (fun _ => ?_) (fun eof => by omega)
          fun error due => ⟨⟨due, error, rfl⟩, Disk.issued_tick d⟩)
        rw [block, extended, block_left]
        refine wp_mono (ih { d.tick with
          position := d.position + min (size - i * checksumBlockSize) checksumBlockSize } ?_ inside
          (by omega) (by omega) count (divCeil_le_iff (by decide))) ?_ ?_
        · dsimp only
          rw [position, Nat.add_assoc, block_end]
        · rintro r d' ⟨same, issued⟩
          exact ⟨same, moved.trans issued⟩
        · rintro e d' ⟨failed, issued⟩
          exact ⟨moved.failed failed, moved.trans issued⟩

theorem wp_appendBlockChecksums (d : Disk) (inside : start + size ≤ d.file.len) :
    wp (appendBlockChecksums start size)
      (fun r d' => Disk.Issued [.write (start + size)
          (checksumMetadata size (blockChecksums (d.file.slice start size)))] d d' ∧
        size + (checksumMetadata size (blockChecksums (d.file.slice start size))).length < 2 ^ 64 ∧
        r = ⟨size + (checksumMetadata size (blockChecksums (d.file.slice start size))).length,
          (crc32c (checksumMetadata size (blockChecksums (d.file.slice start size)))).toNat⟩)
      (fun e d' => size + (checksumMetadata size (blockChecksums (d.file.slice start size))).length <
          2 ^ 64 → d.Failed e ∧ Disk.Touched (start + size) (start + size +
            (checksumMetadata size (blockChecksums (d.file.slice start size))).length) d d') d := by
  have length := checksumMetadata_length size (blockChecksums (d.file.slice start size))
  refine wp_bind (wp_seekStart ?_ fun error due _ => ⟨⟨due, error, rfl⟩, (Disk.issued_tick d).touched⟩)
  have seeked := Disk.issued_seek d start
  have blocks := @wp_readBlockChecksums start size { d.tick with position := start }
    (divCeil size checksumBlockSize + 1) 0 (by simp) inside (Nat.zero_le _) (by omega)
  rw [Nat.zero_mul, Nat.sub_zero, List.take_zero] at blocks
  refine wp_bind (wp_mono blocks ?_ ?_)
  · rintro checksums d1 ⟨read, issued⟩
    have moved := seeked.trans issued
    have read : checksums = blockChecksums (d.file.slice start size) := read
    rw [← read] at length ⊢
    have overflow : ∀ {α : Type} {x : Option α} {error : Error} {e : Stop} {P : Prop} {a : α},
        orFail x error = .error e → x = some a → P := fun stopped found => by
      rw [found, orFail_some] at stopped
      cases stopped
    refine wp_bind (wp_lift (fun tableSize table => ?_) fun e stopped fits =>
      overflow stopped (checkedMul_some (by omega)))
    rw [orFail_eq_ok, checkedMul_eq_some_iff] at table
    obtain ⟨rfl, _⟩ := table
    refine wp_bind (wp_lift (fun _ _ => ?_) fun e stopped fits =>
      overflow stopped (checkedAdd_some (by omega)))
    refine wp_bind (wp_reserve ?_ fun due _ =>
      ⟨moved.failed ⟨due, _, rfl⟩, (moved.trans (Disk.issued_tick d1)).touched⟩)
    have reserved := moved.trans (Disk.issued_tick d1)
    refine wp_writeAt_bind ?_ ?_ ?_
    · exact List.ne_nil_of_length_pos (by rw [length]; unfold checksumFooterSize; omega)
    · intro d2 issued2
      refine wp_bind (wp_lift (fun total sum => ?_) fun e stopped fits =>
        overflow stopped (checkedAdd_some fits))
      rw [orFail_eq_ok, checkedAdd_eq_some_iff] at sum
      obtain ⟨rfl, fits⟩ := sum
      exact wp_pure ⟨reserved.trans issued2, fits, rfl⟩
    · rintro e d2 failed ⟨effects, torn, issued2⟩ _
      exact ⟨reserved.failed failed, reserved.touched.trans (torn.touched failed issued2)⟩
  · rintro e d' ⟨failed, issued⟩ _
    exact ⟨seeked.failed failed, (seeked.trans issued).touched⟩

end Checksums

/-! ## The whole Base -/

section Base

variable {ι : Type} {C : Crates} {feed : Feed ι} {P : File → Prop} {start len slots : Nat} {i : ι}
variable {d : Disk} {entries : List Entry} {data : Bytes}

theorem wp_writeRecordsAt (d : Disk) {fuel : Nat} {written : RecordsWritten} :
    wp (withBufWriter do
        let written ← writeRecords C feed slots fuel i written
        flushBuf
        return written)
      (fun r d' => ∃ entries : List Entry, Written d d.position (recordsBytes entries) d' ∧
        (∀ entry ∈ entries, ValidEntry entry) ∧
        placeAll C slots written.index written.offset entries = .ok r.index ∧
        r.offset = written.offset + totalSize entries ∧ (written.offset < 2 ^ 64 → r.offset < 2 ^ 64) ∧
        r.writtenLen = written.writtenLen + entries.length ∧
        ∀ expected, Prepared C feed slots P d d.position [] fuel i written expected →
          expected = entries)
      (fun e d' => ∀ expected, Prepared C feed slots P d d.position [] fuel i written expected →
        Stopped d expected e ∧ Partly d d.position (recordsBytes expected) d') d := by
  refine wp_withBufWriter (wp_bind (wp_mono (wp_writeRecords (P := P) (streaming_start d)) ?_ ?_))
  · rintro r d1 ⟨entries, streaming, valid, room, offset, word, count, only⟩
    refine wp_bind (wp_mono (wp_flushBuf streaming) ?_ ?_)
    · rintro _ d2 ⟨streaming2, empty⟩
      exact wp_pure ⟨empty, entries, streaming2.written empty, valid, room, offset, word, count, only⟩
    · intro e d2 broken expected prepared
      cases only expected prepared
      exact ⟨stopped_of_failed broken.failed, broken.stranded.partly⟩
  · intro e d1 stopped expected prepared
    obtain ⟨why, part, front, streaming⟩ := stopped expected prepared
    exact ⟨why, streaming.drop front⟩

/-- The writer is about to write the Base of `entries`. -/
structure Ready (feed : Feed ι) (P : File → Prop) (d : Disk) (start len : Nat) (i : ι)
    (entries : List Entry) (slots : Nat) : Prop where
  yields : Yields feed P i entries
  len : entries.length = len
  count : baseSlotCount entries.length = .ok slots
  word : start + (baseHeader + slots * slotSize + totalSize entries) < 2 ^ 64
  size : segmentSize slots entries < 2 ^ 64
  enough : entries.length < feed.bound i
  /-- The feed does not read what is written. -/
  stable : ∀ f, d.file.AgreesOutside start
    (start + (baseHeader + slots * slotSize + totalSize entries)) f → P f

theorem Ready.prepared (ready : Ready feed P d start len i entries slots) (C : Crates) {d' : Disk}
    (moved : d'.file = d.file) :
    Prepared C feed slots P d' (start + (baseHeader + slots * slotSize)) [] (feed.bound i) i
      ⟨List.replicate slots (0, 0), start + (baseHeader + slots * slotSize), 0⟩ entries where
  yields := ready.yields
  room := exists_placed C start ready.count
  word := by
    have := ready.word
    dsimp only
    omega
  enough := ready.enough
  stable bytes short := by
    rw [moved]
    refine ready.stable _ (File.AgreesOutside.write d.file (by omega) ?_)
    simp only [List.length_nil] at short
    omega

/-- The second half of the writer: header, slots and checksums around the records. -/
theorem wp_finishBase (d : Disk) {f : File} {index : List (Nat × Nat)} (indexSize : index.length = slots)
    (records : d.file = f.write (start + (baseHeader + slots * slotSize)) (recordsBytes entries))
    (dataIs : dataBytes slots index entries = data) :
    wp (do
        seekStart start
        withBufWriter do
          bufWrite writeBufferSize hashSectionId
          bufWrite writeBufferSize (leBytes 4 baseHeader)
          bufWrite writeBufferSize (leBytes 8 slots)
          bufWrite writeBufferSize (leBytes 8 entries.length)
          Prog.onlyIf (slots > 0) (writeSlots index)
          flushBuf
        let segment ← appendBlockChecksums start data.length
        return (⟨segment.size, slots, entries.length, segment.metadataChecksum⟩ : WrittenBase))
      (fun r d' => (segmentBytes data).length < 2 ^ 64 ∧
        r = ⟨(segmentBytes data).length, slots, entries.length, metadataChecksum data⟩ ∧
        d'.file = f.write start (segmentBytes data) ∧
        Disk.Touched start (start + (segmentBytes data).length) d d')
      (fun e d' => (segmentBytes data).length < 2 ^ 64 →
        d.Failed e ∧ Disk.Touched start (start + (segmentBytes data).length) d d') d := by
  have whole : (segmentBytes data).length =
      data.length + (checksumMetadata data.length (blockChecksums data)).length := by
    rw [segmentBytes, List.length_append]
  have frontSize : (headerBytes slots entries.length ++ slotBytes index).length =
      baseHeader + slots * slotSize := by
    rw [List.length_append, headerBytes_length, slotBytes_length, indexSize]
  have parts : headerBytes slots entries.length ++ slotBytes index ++ recordsBytes entries = data := by
    rw [← dataIs, dataBytes, List.append_assoc]
  have dataSize : baseHeader + slots * slotSize ≤ data.length := by
    rw [← parts, List.length_append, frontSize]
    omega
  refine wp_bind (wp_seekStart ?_ fun error due _ => ⟨⟨due, error, rfl⟩, (Disk.issued_tick d).touched⟩)
  have seeked := Disk.issued_seek d start
  refine wp_bind (wp_mono (wp_writeIndex _ slots entries.length index fun empty =>
    List.length_eq_zero_iff.mp (indexSize.trans empty)) ?_ ?_)
  · intro _ d1 written
    have front : Disk.Touched start (start + (segmentBytes data).length) d d1 :=
      seeked.touched.trans (written.touched.mono le_rfl (by rw [frontSize]; dsimp only; omega))
    have file : d1.file = f.write start data := by
      rw [written.file]
      change (d.file.write start _) = _
      rw [records, ← frontSize, File.write_write_before, parts]
    have some : data ≠ [] := List.ne_nil_of_length_pos (by unfold baseHeader at dataSize; omega)
    have inside : start + data.length ≤ d1.file.len := by
      rw [file, File.write_len f start some]
      omega
    have read : d1.file.slice start data.length = data := by
      rw [file]
      exact f.holds_write start data
    have append := wp_appendBlockChecksums d1 inside
    rw [read] at append
    refine wp_bind (wp_mono append ?_ ?_)
    · rintro segment d2 ⟨issued, fits, rfl⟩
      refine wp_pure ⟨whole ▸ fits, ?_, ?_, front.trans ⟨_, issued, ?_, ?_⟩⟩
      · rw [whole]
        rfl
      · rw [issued.file]
        change d1.file.write _ _ = _
        rw [file, File.write_write, segmentBytes]
      · intro e member
        cases List.mem_singleton.mp member
        exact ⟨Nat.le_add_right start _, by rw [whole, Nat.add_assoc]⟩
      · intro _ e member
        cases List.mem_singleton.mp member
        exact List.ne_nil_of_length_pos (by
          rw [checksumMetadata_length]
          unfold checksumFooterSize
          omega)
    · intro e d2 stopped fits
      obtain ⟨failed, touched⟩ := stopped (whole ▸ fits)
      exact ⟨front.failed failed, front.trans (touched.mono (Nat.le_add_right start _) (by omega))⟩
  · intro e d1 stranded _
    exact ⟨seeked.failed stranded.failed,
      seeked.touched.trans (stranded.partly.touched.mono le_rfl (by rw [frontSize]; dsimp only; omega))⟩

theorem wp_writeBaseWithMetadataAt (d : Disk) :
    wp (writeBaseWithMetadataAt C feed start len i)
      (fun r d' => ∃ entries slots data, IsBase C start entries slots data ∧ entries.length = len ∧
        r = ⟨(segmentBytes data).length, slots, len, metadataChecksum data⟩ ∧
        d'.file = d.file.write start (segmentBytes data) ∧
        Disk.Touched start (start + (segmentBytes data).length) d d' ∧
        ∀ expected slots, Ready feed P d start len i expected slots → expected = entries)
      (fun e d' => ∀ expected slots, Ready feed P d start len i expected slots →
        Stopped d expected e ∧ Disk.Touched start (start + segmentSize slots expected) d d') d := by
  have shorter : ∀ data : Bytes, data.length ≤ (segmentBytes data).length := by
    intro data
    rw [segmentBytes, List.length_append]
    omega
  refine wp_bind (wp_lift (fun slots count => ?_) fun e stopped expected slots ready => ?_)
  swap
  · rw [← ready.len, ready.count] at stopped
    cases stopped
  -- A feed the writer is ready for has this number of slots.
  have slotsIs : ∀ {expected slots'}, Ready feed P d start len i expected slots' →
      slots' = slots := fun ready =>
    Except.ok.inj (ready.count.symm.trans (ready.len ▸ count))
  have small : ∀ {expected slots'}, Ready feed P d start len i expected slots' →
      start + (baseHeader + slots * slotSize + totalSize expected) < 2 ^ 64 := fun ready => by
    have := ready.word
    rwa [slotsIs ready] at this
  refine wp_bind (wp_lift (fun indexBytes sized => ?_) fun e stopped expected slots' ready => ?_)
  swap
  · have := small ready
    rw [checkedMul_some (by omega)] at stopped
    cases stopped
  rw [orFail_eq_ok, checkedMul_eq_some_iff] at sized
  obtain ⟨rfl, _⟩ := sized
  refine wp_bind (wp_lift (fun recordsAt summed => ?_) fun e stopped expected slots' ready => ?_)
  swap
  · have := small ready
    rw [checkedAdd_some (by omega), Option.bind_some, checkedAdd_some (by omega)] at stopped
    cases stopped
  rw [orFail_eq_ok, Option.bind_eq_some_iff] at summed
  obtain ⟨_, first, second⟩ := summed
  rw [checkedAdd_eq_some_iff] at first second
  obtain ⟨rfl, _⟩ := first
  obtain ⟨rfl, word⟩ := second
  rw [Nat.add_assoc] at word ⊢
  refine wp_bind (wp_seekStart ?_ fun error due expected slots' _ =>
    ⟨stopped_of_failed ⟨due, error, rfl⟩, (Disk.issued_tick d).touched⟩)
  have seeked := Disk.issued_seek d (start + (baseHeader + slots * slotSize))
  refine wp_bind (wp_mono (wp_writeRecordsAt (P := P) _) ?_ ?_)
  · rintro written d1 ⟨entries, recordsWritten, valid, placedAll, offset, offsetWord, count', only⟩
    have expectedIs : ∀ {expected slots'}, Ready feed P d start len i expected slots' →
        expected = entries := fun ready => by
      cases slotsIs ready
      exact only _ (ready.prepared C seeked.kept)
    dsimp only at placedAll offset offsetWord count'
    rw [Nat.zero_add] at count'
    split
    · rename_i wrong
      refine wp_stop fun expected slots' ready => ?_
      cases expectedIs ready
      exact absurd (count'.trans ready.len) wrong
    rename_i right
    rw [ne_eq, not_not, count'] at right
    have indexSize : written.index.length = slots := by
      rw [placeAll_length placedAll, List.length_replicate]
    -- The data area as it will be, and the ranges of its two parts.
    generalize dataIs : dataBytes slots written.index entries = data
    have dataSize : data.length = baseHeader + slots * slotSize + totalSize entries := by
      rw [← dataIs]
      simp only [dataBytes, List.length_append, headerBytes_length, slotBytes_length,
        recordsBytes_length, indexSize]
      omega
    have records : Disk.Touched start (start + (segmentBytes data).length) d d1 := by
      have := shorter data
      exact seeked.touched.trans (recordsWritten.touched.mono (Nat.le_add_right start _)
        (by rw [recordsBytes_length]; dsimp only; omega))
    subst right
    rw [offset, show start + (baseHeader + slots * slotSize) + totalSize entries - start = data.length by
      omega]
    refine wp_mono (wp_finishBase d1 indexSize recordsWritten.file dataIs) ?_ ?_
    · rintro r d2 ⟨fits, rfl, file, touched⟩
      refine ⟨entries, slots, data, ⟨count, valid, ⟨_, placedAll, dataIs.symm⟩, ?_, fits⟩, rfl, rfl,
        file, records.trans touched, fun expected slots' ready => expectedIs ready⟩
      have := offsetWord word
      omega
    · intro e d2 stopped expected slots' ready
      cases expectedIs ready
      cases slotsIs ready
      have size : (segmentBytes data).length = segmentSize slots entries := by
        rw [segmentBytes_length, dataSize, segmentSize]
      obtain ⟨failed, touched⟩ := stopped (size ▸ ready.size)
      exact ⟨stopped_of_failed (records.failed failed), size ▸ records.trans touched⟩
  · intro e d1 stopped expected slots' ready
    cases slotsIs ready
    obtain ⟨⟨error, due⟩, part⟩ := stopped expected (ready.prepared C seeked.kept)
    refine ⟨⟨error, fun valid quiet => due valid (seeked.quiet quiet)⟩,
      seeked.touched.trans (part.touched.mono ?_ ?_)⟩
    · dsimp only
      omega
    · rw [recordsBytes_length, segmentSize]
      dsimp only
      omega

end Base

/-! ## Measuring what will be written -/

section Measure

variable {ι : Type} {C : Crates} {feed : Feed ι} {P : File → Prop} {i : ι} {file : File}
variable {entries : List Entry} {start slots : Nat} {data : Bytes}

theorem baseSlotCount_failsWith (len : Nat) : FailsWith Error.TooLarge (baseSlotCount len) := by
  unfold baseSlotCount
  split
  · exact failsWith_ok
  · exact failsWith_orFail _ trivial

theorem length_le_totalSize (entries : List Entry) : entries.length ≤ totalSize entries := by
  induction entries with
  | nil => exact le_rfl
  | cons entry entries ih =>
      rw [List.length_cons, totalSize_cons, recordSize]
      omega

theorem measureEntries_spec {fuel : Nat} (yields : Yields feed P i entries) (reads : P file)
    (enough : entries.length < fuel) (observed size : Nat) (word : size < 2 ^ 64) :
    (∃ error, measureEntries feed file fuel i observed size = fail error ∧ error.TooLarge ∧
        (2 ^ 64 ≤ observed + entries.length ∨ 2 ^ 64 ≤ size + totalSize entries)) ∨
      measureEntries feed file fuel i observed size =
          .ok (observed + entries.length, size + totalSize entries) ∧
        size + totalSize entries < 2 ^ 64 := by
  induction yields generalizing fuel observed size with
  | done i next =>
      obtain ⟨left, rfl⟩ : ∃ left, fuel = left + 1 := ⟨fuel - 1, by omega⟩
      obtain ⟨i', read⟩ := next file reads
      refine .inr ⟨?_, by simpa [totalSize] using word⟩
      rw [measureEntries, read]
      rfl
  | more i i' entry entries next _ ih =>
      rw [List.length_cons] at enough
      obtain ⟨left, rfl⟩ : ∃ left, fuel = left + 1 := ⟨fuel - 1, by omega⟩
      have total : totalSize (entry :: entries) = recordSize entry + totalSize entries := by
        simp [totalSize]
      rw [measureEntries, next file reads, ok_bind]
      dsimp only
      cases counted : checkedAdd observed 1 with
      | none =>
          have excess : ¬observed + 1 < 2 ^ 64 := fun fits => by
            rw [checkedAdd_some fits] at counted
            cases counted
          exact .inl ⟨_, rfl, trivial, .inl (by rw [List.length_cons]; omega)⟩
      | some more =>
          obtain ⟨rfl, -⟩ := checkedAdd_eq_some_iff.mp counted
          rw [orFail_some, ok_bind]
          cases sized : ((checkedAdd size 8).bind fun size => checkedAdd size entry.1.length).bind
              fun size => checkedAdd size entry.2.length with
          | none =>
              have excess : 2 ^ 64 ≤ size + recordSize entry := by
                by_contra fits
                unfold recordSize at fits
                rw [checkedAdd_some (by omega), Option.bind_some, checkedAdd_some (by omega),
                  Option.bind_some, checkedAdd_some (by omega)] at sized
                cases sized
              exact .inl ⟨_, rfl, trivial, .inr (by omega)⟩
          | some grown =>
              have grownIs : grown = size + recordSize entry ∧ grown < 2 ^ 64 := by
                simp only [Option.bind_eq_some_iff, checkedAdd_eq_some_iff] at sized
                obtain ⟨_, ⟨_, ⟨rfl, -⟩, rfl, -⟩, rfl, below⟩ := sized
                exact ⟨by unfold recordSize; omega, below⟩
              rw [orFail_some, ok_bind, total]
              rcases ih (show entries.length < left by omega) (observed + 1) grown grownIs.2 with
                ⟨error, refused, large, excess⟩ | ⟨ran, below⟩
              · exact .inl ⟨error, refused, large, by rw [List.length_cons]; omega⟩
              · refine .inr ⟨?_, by omega⟩
                rw [ran, List.length_cons, grownIs.1, Nat.add_assoc, Nat.add_comm 1, Nat.add_assoc]

/-- Measuring an iterator gives the size of the Base that it will fill, or refuses one
that is too large. -/
theorem measureBaseIter_spec (yields : Yields feed P i entries) (reads : P file)
    (enough : entries.length < feed.bound i) :
    (∃ error, measureBaseIter feed file i = fail error ∧ error.TooLarge ∧
        ∀ slots, baseSlotCount entries.length = .ok slots → 2 ^ 64 ≤ segmentSize slots entries) ∨
      ∃ slots, baseSlotCount entries.length = .ok slots ∧ segmentSize slots entries < 2 ^ 64 ∧
        measureBaseIter feed file i = .ok (entries.length, segmentSize slots entries) := by
  unfold measureBaseIter
  rcases measureEntries_spec yields reads enough 0 baseHeader (by decide) with
    ⟨error, refused, large, excess⟩ | ⟨ran, -⟩
  · refine .inl ⟨error, by rw [refused]; rfl, large, fun slots _ => ?_⟩
    have := length_le_totalSize entries
    unfold segmentSize
    omega
  · rw [ran, ok_bind]
    dsimp only
    rw [Nat.zero_add]
    cases count : baseSlotCount entries.length with
    | error stop =>
        obtain ⟨error, rfl, large⟩ := baseSlotCount_failsWith _ stop count
        exact .inl ⟨error, rfl, large, nofun⟩
    | ok slots =>
        rw [ok_bind]
        -- Each check that fails is a part of the segment that does not fit a word.
        have excess : 2 ^ 64 ≤ segmentSize slots entries →
            ∀ slots', (.ok slots : Res Nat) = .ok slots' → 2 ^ 64 ≤ segmentSize slots' entries := by
          rintro long _ ⟨⟩
          exact long
        cases sized : (checkedMul slots slotSize).bind
            fun bytes => checkedAdd (baseHeader + totalSize entries) bytes with
        | none =>
            refine .inl ⟨_, rfl, trivial, excess (by_contra fun fits => ?_)⟩
            unfold segmentSize at fits
            rw [checkedMul_some (by omega), Option.bind_some, checkedAdd_some (by omega)] at sized
            cases sized
        | some size =>
            have sizeIs : size = baseHeader + slots * slotSize + totalSize entries := by
              simp only [Option.bind_eq_some_iff, checkedMul_eq_some_iff,
                checkedAdd_eq_some_iff] at sized
              obtain ⟨_, ⟨rfl, -⟩, rfl, -⟩ := sized
              omega
            have segment : segmentSize slots entries =
                size + divCeil size checksumBlockSize * 4 + checksumFooterSize := by
              rw [segmentSize, sizeIs]
            rw [orFail_some, ok_bind]
            cases table : (checkedMul (divCeil size checksumBlockSize) 4).bind
                fun checksums => checkedAdd checksums checksumFooterSize with
            | none =>
                refine .inl ⟨_, rfl, trivial, excess (by_contra fun fits => ?_)⟩
                rw [checkedMul_some (by omega), Option.bind_some, checkedAdd_some (by omega)] at table
                cases table
            | some checksumSize =>
                have tableIs : checksumSize = divCeil size checksumBlockSize * 4 + checksumFooterSize := by
                  simp only [Option.bind_eq_some_iff, checkedMul_eq_some_iff,
                    checkedAdd_eq_some_iff] at table
                  obtain ⟨_, ⟨rfl, -⟩, rfl, -⟩ := table
                  rfl
                rw [orFail_some, ok_bind]
                cases all : checkedAdd size checksumSize with
                | none =>
                    refine .inl ⟨_, rfl, trivial, excess (by_contra fun fits => ?_)⟩
                    rw [checkedAdd_some (by omega)] at all
                    cases all
                | some total =>
                    obtain ⟨totalIs, word⟩ := checkedAdd_eq_some_iff.mp all
                    have totalIs : total = segmentSize slots entries := by omega
                    refine .inr ⟨slots, rfl, totalIs ▸ word, ?_⟩
                    rw [orFail_some, ok_bind, totalIs]
                    rfl

end Measure

/-! ## The empty Base -/

section Empty

variable {d : Disk}

/-- The data of the Base without entries. -/
def emptyData : Bytes := dataBytes 0 [] []

theorem emptyData_isBase (C : Crates) (start : Nat) (word : start + baseHeader < 2 ^ 64) :
    IsBase C start [] 0 emptyData where
  count := rfl
  valid := nofun
  placed := ⟨[], rfl, rfl⟩
  word := word
  size := by decide

theorem emptyData_segment : (segmentBytes emptyData).length = emptySegmentSize := by
  rw [segmentBytes_length]
  rfl

theorem emptyFeed_ready (d : Disk) (start : Nat) (word : start + baseHeader < 2 ^ 64) :
    Ready Feed.none (fun _ => True) d start 0 () [] 0 where
  yields := .done _ fun _ _ => ⟨(), rfl⟩
  len := rfl
  count := rfl
  word := by simpa [totalSize] using word
  size := by decide
  enough := by decide
  stable _ _ := trivial

/-- What the writer of an empty Base does. -/
theorem wp_writeEmptyBase (C : Crates) (d : Disk) {start : Nat}
    (word : start + baseHeader < 2 ^ 64) :
    wp (writeBaseAt C Feed.none start 0 ())
      (fun size d' => size = emptySegmentSize ∧
        d'.file = d.file.write start (segmentBytes emptyData) ∧
        Disk.Touched start (start + emptySegmentSize) d d')
      (fun e d' => d.Failed e ∧ Disk.Touched start (start + emptySegmentSize) d d') d := by
  refine wp_bind (wp_mono (wp_writeBaseWithMetadataAt (P := fun _ => True) d) ?_ ?_)
  · rintro _ d' ⟨entries, slots, data, isBase, len, rfl, file, touched, -⟩
    obtain rfl := List.length_eq_zero_iff.mp len
    obtain ⟨rfl, rfl⟩ := isBase.unique (emptyData_isBase C start word)
    rw [emptyData_segment] at touched
    exact wp_pure ⟨emptyData_segment, file, touched⟩
  · intro e d' stopped
    obtain ⟨why, touched⟩ := stopped _ _ (emptyFeed_ready d start word)
    exact ⟨why.failed nofun, touched⟩

end Empty

end Lkv
