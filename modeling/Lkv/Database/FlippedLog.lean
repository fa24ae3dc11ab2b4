/-
# Lkv.Database.FlippedLog — a log with one bit turned over

A changed byte in a header breaks the checksum of the header, and a changed byte in a
payload breaks that of the record.  Either is found before the record is used and before it
could be taken for a tail to discard (`readRecord_damaged`), so the scan fails
(`scanOverlay_oneByte`), and an open of the file fails and leaves the file alone
(`flipped_log_rejected`).
-/
import Lkv.Database.Loading

namespace Lkv

open Lkv.Theory Lkv.Theory.Prog

set_option autoImplicit false

section Record

variable {marker : Marker} {keyLen valueLen : Nat} {checksum : BitVec 32} {damaged : Bytes}

theorem headerValid_append {fields stored : Bytes} (rest : Bytes)
    (first : fields.length = logHeaderChecksumOffset) (second : stored.length = 4) :
    HeaderValid (fields ++ stored ++ rest) ↔ (crc32c fields).toNat = leNat stored := by
  unfold HeaderValid
  rw [List.append_assoc, window_append_left _ _ _ _ (by omega), window_eq_self _ _ first.le, ← first,
    window_append_right _ _ _ _ le_rfl, Nat.sub_self, window_append_left _ _ _ _ (by omega),
    window_eq_self _ _ second.le]

/-- A header with one changed byte does not pass its own checksum. -/
theorem header_damaged (one : OneByte (recordHeader marker keyLen valueLen checksum) damaged)
    (rest : Bytes) : ¬HeaderValid (damaged ++ rest) := by
  intro valid
  rcases one.append with ⟨fields, changed, rfl⟩ | ⟨stored, changed, rfl⟩
  · -- the stored checksum is that of the fields as they were
    rw [headerValid_append _ (changed.length.trans (headerFields_length ..)) (leBytes_length ..),
      leNat_leBytes _ _ (crc32c_lt _)] at valid
    exact changed.checksum 0 (BitVec.eq_of_toNat_eq valid).symm
  · rw [headerValid_append _ (headerFields_length ..) (changed.length.trans (leBytes_length ..))]
      at valid
    apply changed.leNat_ne
    rw [leNat_leBytes _ _ (crc32c_lt _), valid]

theorem recordHeader_head (marker : Marker) (keyLen valueLen : Nat) (checksum : BitVec 32)
    (rest : Bytes) :
    (recordHeader marker keyLen valueLen checksum ++ rest).head? = some marker.toByte :=
  rfl

/-- The payload that follows a header, if it has the length the header announces and its checksum
is the one in the header. -/
theorem payload_of_record {payload rest payload' more : Bytes} {checksum : BitVec 32}
    (small : payload.length < 2 ^ 32) (small' : payload'.length < 2 ^ 32)
    (same : recordHeader .batch 0 payload.length checksum ++ (payload ++ rest) =
      payloadRecord payload' ++ more) :
    payload' = payload ∧ checksum = recordChecksum .batch 0 payload.length payload := by
  rw [payloadRecord, List.append_assoc] at same
  have size : payload.length = payload'.length := by
    have found := congrArg (fun bytes => leNat (window bytes 5 4)) same
    rwa [recordHeader_valueLen _ _ _ small, recordHeader_valueLen _ _ _ small'] at found
  have stored : checksum = recordChecksum .batch 0 payload'.length payload' := by
    have found := congrArg (fun bytes => leNat (window bytes 9 4)) same
    rw [recordHeader_checksum, recordHeader_checksum] at found
    exact BitVec.eq_of_toNat_eq found
  have rests := (List.append_inj same (by rw [recordHeader_length, recordHeader_length])).2
  obtain rfl := (List.append_inj rests size).1
  exact ⟨rfl, stored⟩

/-- A record with one changed byte is refused: it is neither a record nor a dead tail. -/
theorem readRecord_damaged (front rest : Bytes) (record : Record)
    (one : OneByte record.bytes damaged) {mappingOffset : Nat}
    (slice : front.length + (damaged ++ rest).length < 2 ^ 63)
    (word : mappingOffset + front.length < 2 ^ 64) :
    ∃ error, readRecord (front ++ (damaged ++ rest)) mappingOffset front.length =
      .error (.err error) := by
  have size : damaged.length = logHeaderSize + (payloadBytes record.ops).length :=
    one.length.trans (encodeBatch_length record.ops)
  have total : (damaged ++ rest).length = damaged.length + rest.length := List.length_append
  have word32 : (payloadBytes record.ops).length < 2 ^ 32 :=
    lt_of_le_of_lt record.size (by decide)
  have meets := readRecord_meets front slice word
  generalize readRecord (front ++ (damaged ++ rest)) mappingOffset front.length = step at meets ⊢
  rcases one.append with ⟨header, changed, rfl⟩ | ⟨payload, changed, rfl⟩
  · -- everything the scan would go on with has a valid header
    have invalid := header_damaged changed (payloadBytes record.ops ++ rest)
    rw [← List.append_assoc] at invalid
    cases meets with
    | refused error => exact ⟨error, rfl⟩
    | stop ends =>
        exfalso
        cases ends with
        | short few => omega
        | marked isFront =>
            obtain ⟨more, split⟩ := isFront
            rw [← split] at invalid
            exact invalid (recordHeader_valid ..)
        | cut valid _ _ => exact invalid valid
    | batch payload more split _ =>
        rw [split, payloadRecord, List.append_assoc] at invalid
        exact absurd (recordHeader_valid ..) invalid
  · -- the header is as it was written, so all of the payload is there
    have length : (payloadBytes record.ops).length = payload.length := changed.length.symm
    rw [length] at word32 size
    rw [List.append_assoc, length] at meets
    cases meets with
    | refused error => exact ⟨error, rfl⟩
    | stop ends =>
        exfalso
        cases ends with
        | short few =>
            rw [List.length_append, recordHeader_length] at few
            omega
        | marked isFront =>
            obtain ⟨more, split⟩ := isFront
            have heads := congrArg List.head? split
            rw [compactMarker, recordHeader_head, recordHeader_head] at heads
            exact absurd heads (by decide)
        | cut _ _ less =>
            unfold declaredLen at less
            rw [recordHeader_keyLen _ _ _ (by decide), recordHeader_valueLen _ _ _ word32,
              List.length_append, List.length_append, recordHeader_length] at less
            omega
    | batch payload' more split small =>
        obtain ⟨-, stored⟩ := payload_of_record word32 (lt_of_le_of_lt small (by decide)) split
        exact absurd stored (changed.checksum _)

end Record

/-! ## The log -/

/-- A changed byte of a log is in one of its records. -/
theorem recordsLog_oneByte {records : List Record} {damaged : Bytes}
    (one : OneByte (recordsLog records) damaged) :
    ∃ before record after bytes, records = before ++ record :: after ∧ OneByte record.bytes bytes ∧
      damaged = recordsLog before ++ (bytes ++ recordsLog after) := by
  induction records generalizing damaged with
  | nil =>
      have length := one.length
      generalize nothing : recordsLog [] = bytes at one
      obtain ⟨front, x, y, rest, -⟩ := one
      exact absurd nothing (by simp [recordsLog])
  | cons record records ih =>
      rcases OneByte.append (show OneByte (record.bytes ++ recordsLog records) damaged from one)
        with ⟨bytes, changed, rfl⟩ | ⟨later, changed, rfl⟩
      · exact ⟨[], record, records, bytes, rfl, changed, rfl⟩
      · obtain ⟨before, other, after, bytes, rfl, changed', rfl⟩ := ih changed
        refine ⟨record :: before, other, after, bytes, rfl, changed', ?_⟩
        rw [← List.append_assoc]
        rfl

/-- The scan of a log with one changed byte fails, whatever fails besides. -/
theorem scanOverlay_oneByte {records : List Record} {damaged : Bytes} {d : Disk}
    {mapping : BaseBytes} {mappingOffset : Nat} (one : OneByte (recordsLog records) damaged)
    (bytes : mapping.deref d.file = damaged) (small : mappingOffset + damaged.length < 2 ^ 63) :
    ∃ error, (scanOverlay mapping mappingOffset d).1 = .error (.err error) := by
  obtain ⟨before, record, after, changed, rfl, hit, rfl⟩ := recordsLog_oneByte one
  rw [List.length_append] at small
  have spec : wp (scanOverlay mapping mappingOffset) (fun _ _ => False)
      (fun e _ => ∃ error, e = .err error) d := by
    refine wp_scanOverlay_bind before bytes (by omega) (fun _ _ stopped => stopped.1.2) ?_
    intro d1 table ops fuel _ _ _ _ enough
    obtain ⟨error, refused⟩ := @readRecord_damaged changed (recordsLog before) (recordsLog after)
      record hit mappingOffset (by omega) (by omega)
    obtain ⟨fuel, rfl⟩ : ∃ left, fuel = left + 1 := ⟨fuel - 1, by omega⟩
    have some : 0 < changed.length := by
      rw [hit.length, show record.bytes.length = _ from encodeBatch_length record.ops]
      exact Nat.lt_of_lt_of_le (by decide) (Nat.le_add_right _ _)
    rw [scanFrom, if_pos (by rw [List.length_append, List.length_append]; omega), refused]
    refine wp_bind (wp_lift_error ?_)
    exact ⟨error, rfl⟩
  cases ran : scanOverlay mapping mappingOffset d with
  | mk r d' =>
      cases r with
      | ok scan => exact (wp_ok spec ran).elim
      | error e =>
          obtain ⟨error, rfl⟩ := wp_error spec ran
          exact ⟨error, rfl⟩

/-- No reading of the log is left. -/
theorem not_parses_oneByte {records : List Record} {damaged : Bytes}
    (one : OneByte (recordsLog records) damaged) (small : damaged.length < 2 ^ 63) :
    ¬∃ records rest, Parses damaged records rest := by
  rintro ⟨records', rest, split, ends⟩
  have word : 0 + damaged.length < 2 ^ 63 := by omega
  obtain ⟨scan, _, _, _, scanned, -⟩ := @scanOverlay_of_records (Disk.ofFile File.empty [])
    (.memory damaged) 0 (Disk.quiet_ofFile _) records' rest split ends small (by
      show 0 + damaged.length < 2 ^ 64
      omega)
  obtain ⟨error, refused⟩ := @scanOverlay_oneByte _ _ (Disk.ofFile File.empty []) (.memory damaged) 0
    one rfl word
  rw [scanned] at refused
  cases refused

/-- A log with one bit turned over is rejected: the scan fails, and so does an open of any file
with that log, in either mode; the file stays as it is. -/
theorem flipped_log_rejected (batches : List StagedBatch) {i : Nat}
    (inside : i < 8 * (writtenLog batches).length) :
    (∀ (d : Disk) (mapping : BaseBytes) (mappingOffset : Nat),
      mapping.deref d.file = flipBit (writtenLog batches) i →
      mappingOffset + (writtenLog batches).length < 2 ^ 63 →
      ∃ error, (scanOverlay mapping mappingOffset d).1 = .error (.err error)) ∧
    ∀ (C : Crates) (options : DatabaseOptions) (f : File) (sb : Superblock), f.len < 2 ^ 63 →
      selectRoot f f.len = .ok sb →
      f.slice sb.logStart (f.len - sb.logStart) = flipBit (writtenLog batches) i →
      ∃ error d', openWithOptions C options (Disk.ofFile f []) = (.error (.err error), d') ∧
        d'.file = f ∧ d'.trace = [] := by
  have one := oneByte_flipBit inside
  have length : (flipBit (writtenLog batches) i).length = (writtenLog batches).length := one.length
  rw [writtenLog_eq] at one
  rw [writtenLog_eq] at length ⊢
  refine ⟨fun d mapping mappingOffset bytes small => ?_, fun C options f sb small selected log => ?_⟩
  · exact scanOverlay_oneByte one bytes (length ▸ small)
  · have spec := @wp_openWithOptions C (Disk.ofFile f []) options (Disk.quiet_ofFile f) small
    cases ran : openWithOptions C options (Disk.ofFile f []) with
    | mk r d' =>
        cases r with
        | error e =>
            obtain ⟨⟨error, rfl⟩, issued, -⟩ := wp_error spec ran
            exact ⟨error, d', rfl, issued.kept, issued.trace⟩
        | ok db =>
            obtain ⟨sb', base, records, rest, recovered⟩ := wp_ok spec ran
            cases selected.symm.trans recovered.openable.root
            refine absurd ⟨records, rest, log ▸ recovered.openable.log⟩ (not_parses_oneByte one ?_)
            rw [← log, File.slice_length]
            omega

theorem flipped_log_rejected_one : ∃ error, (scanOverlay (.memory (flipBit (writtenLog [deleteBatch]) 100))
    8192 (Disk.ofFile File.empty [])).1 = .error (.err error) := by
  have inside : 100 < 8 * (writtenLog [deleteBatch]).length := by
    rw [writtenLog_length]
    decide
  generalize bytesIs : flipBit (writtenLog [deleteBatch]) 100 = bytes
  refine (flipped_log_rejected [deleteBatch] inside).1 (Disk.ofFile File.empty []) (.memory bytes) 8192
    bytesIs.symm ?_
  rw [writtenLog_length]
  decide

end Lkv
