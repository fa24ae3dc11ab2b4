/-
# Lkv.Database.Lookup — what a point read of the Base returns

The index of a Base as an abstract table is `slotTable`, and a read that looks
for a key is `Probing.lookup` with `hitAt`.  `wp_lookupSegment` says that
`lookupSegment` returns just that, for any data whose used slots point at
records (`Pointed`), also when the bytes it reads (`mapping`) are damaged
somewhere and blocks are checked on the way (`Guarded`).  It can then also end
in an error, but only if some block really does not match.
-/
import Lkv.Database.Verifier
import Lkv.Format.Records

namespace Lkv

open Lkv.Theory Lkv.Theory.Prog SegmentVerifier

set_option autoImplicit false

/-! ## Reading through the checks -/

/-- A reader of `mapping` that gets the bytes of `data`: either they are the same,
or blocks are checked first and a block that matches is that of `data`. -/
structure Guarded (data mapping : Bytes) (verifying : Bool) (v : SegmentVerifier) : Prop where
  size : v.dataSize = data.length
  inside : data.length ≤ mapping.length
  trusted : verifying = false → ∀ i < data.length, mapping[i]? = data[i]?
  sound : verifying = true → Sound mapping v
  genuine : verifying = true → ∀ b < v.checksums.length, Matches mapping v b →
    blockOf mapping v.dataSize b = blockOf data v.dataSize b

/-- Every block matches its checksum. -/
def AllMatch (mapping : Bytes) (v : SegmentVerifier) : Prop :=
  ∀ b < v.checksums.length, Matches mapping v b

theorem SegmentVerifier.Same.allMatch {mapping : Bytes} {v v' : SegmentVerifier} (same : Same v v') :
    AllMatch mapping v' ↔ AllMatch mapping v := by
  unfold AllMatch
  rw [same.checksums]
  exact forall₂_congr fun b _ => same.matches

section Guarded

variable {data mapping : Bytes} {verifying : Bool} {v v' : SegmentVerifier}

theorem byte_of_block {dataSize i : Nat} (below : i < dataSize)
    (same : blockOf mapping dataSize (i / checksumBlockSize) =
      blockOf data dataSize (i / checksumBlockSize)) : mapping[i]? = data[i]? := by
  have at_i := congrArg (·[i % checksumBlockSize]?) same
  have split_i := Nat.div_add_mod i checksumBlockSize
  have low := Nat.mod_lt i (show 0 < checksumBlockSize by decide)
  simp only [blockOf, window_getElem?] at at_i
  rw [Nat.mul_comm] at split_i
  rw [if_pos (by omega), if_pos (by omega), split_i] at at_i
  exact at_i

theorem Guarded.next (guarded : Guarded data mapping verifying v) (same : Same v v')
    (sound : verifying = true → Sound mapping v') : Guarded data mapping verifying v' where
  size := same.dataSize.trans guarded.size
  inside := guarded.inside
  trusted := guarded.trusted
  sound := sound
  genuine on b below matched := by
    rw [same.dataSize]
    rw [same.checksums] at below
    exact guarded.genuine on b below (same.matches.mp matched)

/-- Where every block matches, the bytes are those of `data`. -/
theorem Guarded.agrees (guarded : Guarded data mapping verifying v)
    (all : verifying = true → AllMatch mapping v) (i : Nat) (below : i < data.length) :
    mapping[i]? = data[i]? := by
  cases verifying with
  | false => exact guarded.trusted rfl i below
  | true =>
      have sound := guarded.sound rfl
      have size := guarded.size
      have block : i / checksumBlockSize < v.checksums.length := by
        rw [sound.table, size]
        unfold divCeil checksumBlockSize
        omega
      exact byte_of_block (size ▸ below) (guarded.genuine rfl _ block (all rfl _ block))

/-- Check a range if blocks are checked at all.  What passes is `data`. -/
theorem wp_guard (guarded : Guarded data mapping verifying v) (start stop : Nat) :
    wp (verifyOnReadRange verifying mapping start stop)
      (fun _ v' => Guarded data mapping verifying v' ∧ Same v v' ∧
        ∀ i, start ≤ i → i < stop → i < data.length → mapping[i]? = data[i]?)
      (fun e v' => Guarded data mapping verifying v' ∧ Same v v' ∧ verifying = true ∧
        (∃ error, e = .err error) ∧ (start ≤ stop → stop ≤ data.length → ¬AllMatch mapping v))
      v := by
  cases verifying with
  | false =>
      exact wp_pure ⟨guarded, Same.refl v, fun i _ _ below => guarded.trusted rfl i below⟩
  | true =>
      have sound := guarded.sound rfl
      refine wp_mono (wp_verifyRange sound) ?_ ?_
      · rintro _ v1 ⟨sound1, same1, matched⟩
        refine ⟨guarded.next same1 fun _ => sound1, same1, fun i above below inside => ?_⟩
        have block : i / checksumBlockSize < v.checksums.length := by
          rw [sound.table, guarded.size]
          unfold divCeil checksumBlockSize
          omega
        refine byte_of_block (guarded.size ▸ inside) (guarded.genuine rfl _ block ?_)
        exact matched _ block
          ⟨by omega, Nat.div_le_div_right above, Nat.div_le_div_right (by omega)⟩
      · rintro e v1 ⟨sound1, same1, error, refused⟩
        refine ⟨guarded.next same1 fun _ => sound1, same1, rfl, error, fun ordered inside all => ?_⟩
        refine refused ⟨ordered, guarded.size ▸ inside, fun c meets => all c ?_⟩
        have := @block_lt v.dataSize stop (by have := meets.1; omega) (guarded.size ▸ inside)
        rw [sound.table]
        exact lt_of_le_of_lt meets.2.2 this

end Guarded

/-! ## Lookup -/

/-- Every used slot points at a record. -/
structure Pointed (data : Bytes) (start slots : Nat) : Prop where
  table : baseHeader + slots * slotSize ≤ data.length
  power : slots ≠ 0 → ∃ k ≤ 64, slots = 2 ^ k
  target : ∀ i < slots, ∀ slot, slotTable data i = some slot →
    ∃ offset entry, slot.2 = start + offset ∧ HasRecord data data.length offset entry

/-- The value of a slot's record, if its fingerprint and key are those looked for. -/
def hitAt (data : Bytes) (start : Nat) (key : Bytes) (keyHash : Nat) (slot : Nat × Nat) :
    Option Bytes :=
  if slot.1 = keyHash >>> 32 then
    match recordAt data (slot.2 - start) data.length with
    | .ok (found, value, _) => if found = key then some value else none
    | .error _ => none
  else none

/-- Lengths read from damaged headers do not overflow: they are below `2 ^ 32` each. -/
def Roomy (data : Bytes) (verifying : Bool) : Prop :=
  data.length < 2 ^ 64 ∧ (verifying = true → data.length + 2 ^ 33 < 2 ^ 64)

section Lookup

variable {data mapping key : Bytes} {verifying : Bool} {v : SegmentVerifier}
variable {start slots keyHash : Nat}

theorem window_word_lt (bytes : Bytes) (offset : Nat) : leNat (window bytes offset 4) < 2 ^ 32 :=
  lt_of_lt_of_le (leNat_lt _) (Nat.pow_le_pow_right (by decide) (window_length_le bytes offset 4))

theorem hitAt_of_record {slot : Nat × Nat} {offset : Nat} {entry : Entry}
    (word : data.length < 2 ^ 64) (target : slot.2 = start + offset)
    (has : HasRecord data data.length offset entry) :
    hitAt data start key keyHash slot =
      if slot.1 = keyHash >>> 32 ∧ entry.1 = key then some entry.2 else none := by
  have read : recordAt data (slot.2 - start) data.length =
      .ok (entry.1, entry.2, offset + recordSize entry) := by
    rw [target, Nat.add_sub_cancel_left]
    exact (recordAt_eq_ok le_rfl word).mpr ⟨has, rfl⟩
  unfold hitAt
  rw [read]
  by_cases same : slot.1 = keyHash >>> 32 <;> simp [same]

theorem wp_probeRecord {offset : Nat} {entry : Entry} (guarded : Guarded data mapping verifying v)
    (roomy : Roomy data verifying) (has : HasRecord data data.length offset entry) :
    wp (probeRecord mapping verifying start key (start + offset))
      (fun r v' => Guarded data mapping verifying v' ∧ Same v v' ∧
        r = if entry.1 = key then some (some entry.2) else none)
      (fun e v' => Guarded data mapping verifying v' ∧ Same v v' ∧ verifying = true ∧
        (∃ error, e = .err error) ∧ ¬AllMatch mapping v)
      v := by
  have inside := has.inside
  have long := guarded.inside
  have word := roomy.1
  simp only [recordSize] at inside
  -- The header as the mapping has it, before any check.
  generalize keyLenIs : leNat (window mapping offset 4) = keyLen
  generalize valueLenIs : leNat (window mapping (offset + 4) 4) = valueLen
  have lengths : (∀ i, offset ≤ i → i < offset + 8 → mapping[i]? = data[i]?) →
      keyLen = entry.1.length ∧ valueLen = entry.2.length := by
    intro same
    rw [← keyLenIs, ← valueLenIs, ← has.keyLen, ← has.valueLen]
    constructor <;> refine congrArg leNat (window_congr fun i above below => same i ?_ ?_) <;> omega
  have noOverflow : offset + 8 + keyLen + valueLen < 2 ^ 64 := by
    cases verifying with
    | false =>
        have := lengths fun i _ _ => guarded.trusted rfl i (by omega)
        omega
    | true =>
        have := roomy.2 rfl
        have := window_word_lt mapping offset
        have := window_word_lt mapping (offset + 4)
        omega
  have header : getRange mapping offset (offset + 8) = some (window mapping offset 8) := by
    rw [getRange_some (by omega) (by omega), Nat.add_sub_cancel_left]
  have low : leNat (window (window mapping offset 8) 0 4) = keyLen := by
    rw [window_window _ _ _ _ _ (by omega), Nat.add_zero, keyLenIs]
  have high : leNat (window (window mapping offset 8) 4 4) = valueLen := by
    rw [window_window _ _ _ _ _ (by omega), valueLenIs]
  refine wp_bind (wp_state ?_)
  rw [checkedSub_some (by omega), Nat.add_sub_cancel_left]
  dsimp only
  rw [checkedAdd_some (by omega)]
  dsimp only
  rw [header]
  dsimp only
  rw [if_neg (by rw [guarded.size]; omega), low, checkedAdd_some (by omega)]
  dsimp only
  rw [high, checkedAdd_some (by omega)]
  refine wp_bind (wp_mono (wp_guard guarded offset (offset + 8 + keyLen + valueLen)) ?_ ?_)
  · rintro _ v1 ⟨guarded1, same1, agrees⟩
    obtain ⟨rfl, rfl⟩ := lengths fun i above below => agrees i above (by omega) (by omega)
    have has' : HasRecord mapping data.length offset entry := by
      refine has.congr (fun i above below => (agrees i above ?_ ?_).symm) has.inside <;>
        simp only [recordSize] at below <;> omega
    rw [getRange_some (by omega) (by omega), getRange_some (by omega) (by omega),
      Nat.add_sub_cancel_left, Nat.add_sub_cancel_left, has'.key, has'.value, guarded.size]
    by_cases found : entry.1 = key
    · rw [if_pos ⟨by omega, congrArg some found⟩]
      exact wp_pure ⟨guarded1, same1, by simp [found]⟩
    · rw [if_neg fun h => found (Option.some.inj h.2)]
      exact wp_pure ⟨guarded1, same1, by simp [found]⟩
  · rintro e v1 ⟨guarded1, same1, on, error, refused⟩
    refine ⟨guarded1, same1, on, error, fun all => ?_⟩
    have same := lengths fun i _ _ => guarded.agrees (fun _ => all) i (by omega)
    exact refused (by omega) (by omega) all

theorem slot_eq (power : ∃ k ≤ 64, slots = 2 ^ k) (probe : Nat) :
    ((keyHash + probe) % 2 ^ 64) &&& (slots - 1) = Probing.slotOf slots keyHash probe := by
  obtain ⟨k, below, rfl⟩ := power
  rw [Nat.and_two_pow_sub_one_eq_mod, Nat.mod_mod_of_dvd _ (Nat.pow_dvd_pow 2 below)]
  rfl

theorem wp_lookupFrom (guarded : Guarded data mapping verifying v) (roomy : Roomy data verifying)
    (pointed : Pointed data start slots) (some : slots ≠ 0) (count probe : Nat) :
    wp (lookupFrom mapping verifying start slots key keyHash count probe)
      (fun r v' => Guarded data mapping verifying v' ∧ Same v v' ∧
        r = Probing.search (slotTable data) (hitAt data start key keyHash) slots keyHash count probe)
      (fun e v' => Guarded data mapping verifying v' ∧ Same v v' ∧ verifying = true ∧
        (∃ error, e = .err error) ∧ ¬AllMatch mapping v)
      v := by
  induction count generalizing probe v with
  | zero => exact wp_pure ⟨guarded, Same.refl v, rfl⟩
  | succ count ih =>
      have table := pointed.table
      have long := guarded.inside
      have word := roomy.1
      have below := Probing.slotOf_lt (Nat.pos_of_ne_zero some) keyHash probe
      rw [lookupFrom, slot_eq (pointed.power some), Probing.search]
      generalize Probing.slotOf slots keyHash probe = i at *
      have slotEnd : baseHeader + i * slotSize + slotSize ≤ data.length := by
        have := Nat.mul_le_mul_right slotSize (Nat.succ_le_of_lt below)
        rw [Nat.succ_mul] at this
        omega
      simp only [slotSize] at slotEnd
      refine wp_bind (wp_mono (wp_guard guarded _ _) ?_ ?_)
      · rintro _ v1 ⟨guarded1, same1, agrees⟩
        have read : ∀ offset n, baseHeader + i * slotSize ≤ offset →
            offset + n ≤ baseHeader + i * slotSize + slotSize →
            window mapping offset n = window data offset n := fun offset n above upTo =>
          window_congr fun j _ _ => agrees j (by omega) (by omega) (by simp only [slotSize] at *; omega)
        rw [u32At_ok (by simp only [slotSize] at *; omega),
          u64At_ok (by simp only [slotSize] at *; omega), read _ _ le_rfl (by simp only [slotSize]; omega),
          read _ _ (by omega) (by simp only [slotSize]; omega)]
        refine wp_bind (wp_lift_ok ?_)
        refine wp_bind (wp_lift_ok ?_)
        have onward : ∀ v2, Guarded data mapping verifying v2 → Same v v2 →
            wp (lookupFrom mapping verifying start slots key keyHash count (probe + 1))
              (fun r v' => Guarded data mapping verifying v' ∧ Same v v' ∧ r = Probing.search
                (slotTable data) (hitAt data start key keyHash) slots keyHash count (probe + 1))
              (fun e v' => Guarded data mapping verifying v' ∧ Same v v' ∧ verifying = true ∧
                (∃ error, e = .err error) ∧ ¬AllMatch mapping v) v2 := by
          intro v2 guarded2 same2
          refine wp_mono (@ih v2 guarded2 (probe + 1)) ?_ ?_
          · rintro r v3 ⟨guarded3, same3, result⟩
            exact ⟨guarded3, same2.trans same3, result⟩
          · rintro e v3 ⟨guarded3, same3, on, error, damaged⟩
            exact ⟨guarded3, same2.trans same3, on, error, fun all => damaged (same2.allMatch.mpr all)⟩
        change wp (if (slotAt data i).2 = 0 then _ else if (slotAt data i).1 = _ then _ else _) _ _ v1
        cases found : slotTable data i with
        | none =>
            have free : (slotAt data i).2 = 0 := by
              by_contra used
              rw [slotTable_eq_some.mpr ⟨rfl, used⟩] at found
              cases found
            rw [if_pos free]
            exact wp_pure ⟨guarded1, same1, rfl⟩
        | some slot =>
            obtain ⟨offset, entry, target, has⟩ := pointed.target i below slot found
            obtain ⟨rfl, used⟩ := slotTable_eq_some.mp found
            rw [if_neg used]
            dsimp only
            rw [hitAt_of_record word target has]
            by_cases fingerprint : (slotAt data i).1 = keyHash >>> 32
            · rw [if_pos fingerprint]
              change wp (probeRecord mapping verifying start key (slotAt data i).2 >>= _) _ _ v1
              rw [target]
              refine wp_bind (wp_mono (wp_probeRecord guarded1 roomy has) ?_ ?_)
              · rintro r v2 ⟨guarded2, same2, rfl⟩
                by_cases same : entry.1 = key
                · simp only [fingerprint, same, and_self, if_true]
                  exact wp_pure ⟨guarded2, same1.trans same2, rfl⟩
                · simp only [same, and_false, if_false]
                  exact onward v2 guarded2 (same1.trans same2)
              · rintro e v2 ⟨guarded2, same2, on, error, damaged⟩
                exact ⟨guarded2, same1.trans same2, on, error,
                  fun all => damaged (same1.allMatch.mpr all)⟩
            · rw [if_neg fingerprint]
              simp only [fingerprint, false_and, if_false]
              exact onward v1 guarded1 same1
      · rintro e v1 ⟨guarded1, same1, on, error, refused⟩
        exact ⟨guarded1, same1, on, error, refused (by omega) (by simp only [slotSize] at *; omega)⟩

/-- The value the index of `data` gives for a key. -/
def baseGet (C : Crates) (data : Bytes) (start slots : Nat) (key : Bytes) : Option Bytes :=
  Probing.lookup (slotTable data) (hitAt data start key (C.hash key)) slots (C.hash key)

/-- Whether `lookupSegment` checks the blocks it reads. -/
def checksOnRead (verification : VerificationMode) (v : SegmentVerifier) : Bool :=
  verification = .onRead && !v.fullyVerified

theorem wp_lookupSegment (C : Crates) {verification : VerificationMode}
    (guarded : Guarded data mapping (checksOnRead verification v) v)
    (roomy : Roomy data (checksOnRead verification v)) (pointed : Pointed data start slots)
    (key : Bytes) :
    wp (lookupSegment mapping verification start slots key (C.hash key))
      (fun r v' => Guarded data mapping (checksOnRead verification v) v' ∧ Same v v' ∧
        r = baseGet C data start slots key)
      (fun e v' => Guarded data mapping (checksOnRead verification v) v' ∧ Same v v' ∧
        checksOnRead verification v = true ∧ (∃ error, e = .err error) ∧ ¬AllMatch mapping v)
      v := by
  unfold lookupSegment
  by_cases empty : slots = 0
  · rw [if_pos empty]
    refine wp_pure ⟨guarded, Same.refl v, ?_⟩
    rw [baseGet, empty]
    rfl
  · rw [if_neg empty]
    exact wp_bind (wp_state (wp_lookupFrom guarded roomy pointed empty slots 0))

/-- Where every checked block matches, the lookup returns what the index says. -/
theorem lookupSegment_eq (C : Crates) {verification : VerificationMode}
    (guarded : Guarded data mapping (checksOnRead verification v) v)
    (roomy : Roomy data (checksOnRead verification v)) (pointed : Pointed data start slots)
    (all : checksOnRead verification v = true → AllMatch mapping v) (key : Bytes) :
    ∃ v', lookupSegment mapping verification start slots key (C.hash key) v =
        (.ok (baseGet C data start slots key), v') ∧
      Guarded data mapping (checksOnRead verification v) v' ∧ Same v v' := by
  obtain ⟨_, v', ran, guarded', same, rfl⟩ := wp_returns
    (wp_lookupSegment C guarded roomy pointed key)
    fun e v' stopped => stopped.2.2.2.2 (all stopped.2.2.1)
  exact ⟨v', ran, guarded', same⟩

/-- A lookup that checks no block leaves the verifier alone. -/
theorem lookupSegment_unchecked (mapping key : Bytes) {verification : VerificationMode}
    (off : checksOnRead verification v = false) (start slots keyHash : Nat) :
    (lookupSegment mapping verification start slots key keyHash v).2 = v := by
  have skip : ∀ {α : Type} {k : Unit → Prog SegmentVerifier Stop α} (from_ upTo : Nat),
      wp (k ()) (fun _ v' => v' = v) (fun _ v' => v' = v) v →
      wp (verifyOnReadRange false mapping from_ upTo >>= k) (fun _ v' => v' = v)
        (fun _ v' => v' = v) v := fun _ _ rest => wp_bind (wp_pure rest)
  have probe : ∀ absolute, wp (probeRecord mapping false start key absolute)
      (fun _ v' => v' = v) (fun _ v' => v' = v) v := by
    intro absolute
    refine wp_bind (wp_state ?_)
    dsimp only
    repeat' first | exact wp_pure rfl | apply skip | split
  have run : ∀ count distance, wp (lookupFrom mapping false start slots key keyHash count distance)
      (fun _ v' => v' = v) (fun _ v' => v' = v) v := by
    intro count
    induction count with
    | zero => exact fun _ => wp_pure rfl
    | succ count ih =>
        intro distance
        refine skip _ _ ?_
        refine wp_bind (wp_lift (fun _ _ => ?_) fun _ _ => rfl)
        refine wp_bind (wp_lift (fun _ _ => ?_) fun _ _ => rfl)
        split
        · exact wp_pure rfl
        · split
          · refine wp_bind (wp_mono (probe _) ?_ fun _ _ same => same)
            rintro (_ | result) _ rfl
            · exact ih _
            · exact wp_pure rfl
          · exact ih _
  have whole : wp (lookupSegment mapping verification start slots key keyHash)
      (fun _ v' => v' = v) (fun _ v' => v' = v) v := by
    unfold lookupSegment
    split
    · exact wp_pure rfl
    · refine wp_bind (wp_state ?_)
      change wp (lookupFrom mapping (checksOnRead verification v) start slots key keyHash slots 0) _ _ v
      rw [off]
      exact run slots 0
  unfold wp at whole
  split at whole <;> simp_all

end Lookup

/-! ## Point reads -/

/-- What a read of a key returns: the overlay first, then the Base. -/
def readResult (C : Crates) (file : File) (overlay : OverlayMap) (data : Bytes) (start slots : Nat)
    (key : Bytes) : Res (Option Bytes) := do
  match ← overlay.getHashed file key with
  | some value => return value
  | none => return baseGet C data start slots key

section Get

variable {C : Crates} {file : File} {data : Bytes} {view : ReadView} {v : SegmentVerifier}

/-- A verifier that has seen every block lets its reader trust the bytes. -/
theorem Guarded.relax {mapping : Bytes} (guarded : Guarded data mapping true v)
    (verification : VerificationMode) (mode : verification = .onRead) :
    Guarded data mapping (checksOnRead verification v) v := by
  have sound := guarded.sound rfl
  cases full : v.fullyVerified with
  | false =>
      have on : checksOnRead verification v = true := by simp [checksOnRead, mode, full]
      rw [on]
      exact guarded
  | true =>
      have off : checksOnRead verification v = false := by simp [checksOnRead, full]
      rw [off]
      exact ⟨guarded.size, guarded.inside, fun _ => guarded.agrees
        fun _ b below => sound.marked b below (sound.full full b below), nofun, nofun⟩

/-- A checked read returns what the undamaged Base would give, or an error; the
latter only if some block does not match. -/
theorem wp_get (guarded : Guarded data (view.base.mapping.deref file) true v)
    (roomy : Roomy data true) (pointed : Pointed data view.base.offset view.base.slots)
    (mode : view.verification = .onRead) (key : Bytes) :
    wp (view.get C file key)
      (fun r v' => Guarded data (view.base.mapping.deref file) true v' ∧ Same v v' ∧
        readResult C file view.overlay data view.base.offset view.base.slots key = .ok r)
      (fun e v' => Guarded data (view.base.mapping.deref file) true v' ∧ Same v v' ∧
        (readResult C file view.overlay data view.base.offset view.base.slots key = .error e ∨
          (∃ error, e = .err error) ∧ ¬AllMatch (view.base.mapping.deref file) v)) v := by
  unfold readResult
  refine wp_bind (wp_lift (fun found read => ?_) fun e read => ⟨guarded, Same.refl v, .inl ?_⟩)
  · rw [read]
    cases found with
    | some value => exact wp_pure ⟨guarded, Same.refl v, rfl⟩
    | none =>
        have roomy' : Roomy data (checksOnRead view.verification v) := ⟨roomy.1, fun _ => roomy.2 rfl⟩
        have spec := wp_lookupSegment C (guarded.relax _ mode) roomy' pointed key
        cases on : checksOnRead view.verification v with
        | true =>
            rw [on] at spec
            refine wp_mono spec ?_ ?_
            · rintro r v' ⟨guarded', same, rfl⟩
              exact ⟨guarded', same, rfl⟩
            · rintro e v' ⟨guarded', same, _, error, damaged⟩
              exact ⟨guarded', same, .inr ⟨error, damaged⟩⟩
        | false =>
            have kept := lookupSegment_unchecked (view.base.mapping.deref file) key on
              view.base.offset view.base.slots (C.hash key)
            unfold wp at spec ⊢
            dsimp only
            revert kept spec
            rcases lookupSegment _ _ _ _ _ _ v with ⟨⟨e⟩ | ⟨r⟩, v'⟩
            · rintro ⟨_, _, verifying, _⟩
              rw [on] at verifying
              cases verifying
            · rintro ⟨_, _, rfl⟩ rfl
              exact ⟨guarded, Same.refl _, rfl⟩
  · rw [read]
    rfl

end Get

/-! ## Accepted Bases -/

/-- From the home slot of a key up to the slot of its record, no slot is empty. -/
def ProbePaths (C : Crates) (data : Bytes) (start slots : Nat) : Prop :=
  ∀ i < slots, ∀ offset entry, slotTable data i = some (C.hash entry.1 >>> 32, start + offset) →
    HasRecord data data.length offset entry →
    Probing.Reaches (slotTable data) slots (C.hash entry.1) i

section Accepted

variable {C : Crates} {data : Bytes} {start slots : Nat} {entries : List Entry}

theorem power_of_readBaseHeader {bytes : Bytes} {len : Nat}
    (header : readBaseHeader bytes = .ok (slots, len)) (some : slots ≠ 0) :
    ∃ k ≤ 64, slots = 2 ^ k := by
  unfold readBaseHeader at header
  split at header
  · simp at header
  split at header
  · simp at header
  dsimp only at header
  split at header
  · simp at header
  · rename_i power
    simp only [bind_eq_ok] at header
    obtain ⟨_, _, same⟩ := header
    cases same
    simp only [some, ne_eq, not_false_eq_true, true_and, not_not, isPowerOfTwo, Bool.and_eq_true,
      decide_eq_true_eq] at power
    refine ⟨_, ?_, power.symm⟩
    have word : leNat (window bytes 8 8) < 2 ^ 64 :=
      lt_of_lt_of_le (leNat_lt _) (Nat.pow_le_pow_right (by decide) (window_length_le bytes 8 8))
    rw [← power] at word
    exact ((Nat.pow_lt_pow_iff_right (by decide)).mp word).le

theorem BaseShape.pointed (shape : BaseShape C data start slots entries)
    (power : slots ≠ 0 → ∃ k ≤ 64, slots = 2 ^ k) : Pointed data start slots where
  table := shape.table
  power := power
  target i below slot found := by
    obtain ⟨p, member, rfl⟩ := shape.sound i below slot found
    exact ⟨p.1, p.2, rfl, shape.walk.records p member⟩

/-- Records of an accepted Base with one key are one record. -/
theorem BaseShape.key_unique (shape : BaseShape C data start slots entries) {p q : Nat × Entry}
    (one : p ∈ placed (baseHeader + slots * slotSize) entries)
    (two : q ∈ placed (baseHeader + slots * slotSize) entries) (same : p.2.1 = q.2.1) : p = q := by
  have distinct : ((placed (baseHeader + slots * slotSize) entries).map fun p => p.2.1).Nodup := by
    have := shape.distinct
    rwa [← placed_map_snd (baseHeader + slots * slotSize) entries, List.map_map] at this
  exact List.inj_on_of_nodup_map distinct one two same

/-- A slot answers for a key only with the record of that key. -/
theorem BaseShape.hit (shape : BaseShape C data start slots entries) {i : Nat} (below : i < slots)
    {slot : Nat × Nat} (found : slotTable data i = some slot) {key value : Bytes}
    (hits : hitAt data start key (C.hash key) slot = some value) :
    ∃ p ∈ placed (baseHeader + slots * slotSize) entries, p.2 = (key, value) ∧
      slot = (C.hash key >>> 32, start + p.1) := by
  obtain ⟨p, member, rfl⟩ := shape.sound i below slot found
  rw [hitAt_of_record shape.word rfl (shape.walk.records p member)] at hits
  split at hits
  · rename_i same
    cases hits
    exact ⟨p, member, Prod.ext same.2 rfl, by rw [same.2]⟩
  · cases hits

theorem BaseShape.get_none (shape : BaseShape C data start slots entries) {key : Bytes}
    (absent : ∀ entry ∈ entries, entry.1 ≠ key) : baseGet C data start slots key = none := by
  refine Probing.lookup_eq_none fun i below slot found => ?_
  cases hits : hitAt data start key (C.hash key) slot with
  | none => rfl
  | some value =>
      obtain ⟨p, member, same, _⟩ := shape.hit below found hits
      have listed : p.2 ∈ entries := by
        have := List.mem_map_of_mem (f := Prod.snd) member
        rwa [placed_map_snd] at this
      exact absurd (congrArg Prod.fst same) (absent p.2 listed)

/-- A record is found by its key exactly when its slot is reached from its home slot. -/
theorem BaseShape.get_some_iff (shape : BaseShape C data start slots entries) {p : Nat × Entry}
    (member : p ∈ placed (baseHeader + slots * slotSize) entries) {i : Nat} (below : i < slots)
    (found : slotTable data i = some (C.hash p.2.1 >>> 32, start + p.1)) :
    baseGet C data start slots p.2.1 = some p.2.2 ↔
      Probing.Reaches (slotTable data) slots (C.hash p.2.1) i := by
  constructor
  · intro got
    obtain ⟨j, slot, reaches, found', hits⟩ := Probing.lookup_eq_some got
    obtain ⟨q, member', same, rfl⟩ := shape.hit reaches.lt found' hits
    cases shape.key_unique member member' (by rw [same])
    exact shape.once i below j reaches.lt _ found found' ▸ reaches
  · intro reaches
    refine Probing.lookup_of_reaches reaches found ?_ ?_
    · rw [hitAt_of_record shape.word rfl (shape.walk.records p member), if_pos ⟨rfl, rfl⟩]
    · intro j belowJ slot value found' hits
      obtain ⟨q, member', same, _⟩ := shape.hit belowJ found' hits
      cases shape.key_unique member member' (by rw [same])
      rw [same]

/-- Every record of an accepted Base is found by its key exactly when no probe path
is interrupted. -/
theorem BaseShape.get_all_iff (shape : BaseShape C data start slots entries) :
    (∀ entry ∈ entries, baseGet C data start slots entry.1 = some entry.2) ↔
      ProbePaths C data start slots := by
  constructor
  · intro all i below offset entry found has
    obtain ⟨p, member, same⟩ := shape.sound i below _ found
    have offsets : start + offset = start + p.1 := congrArg Prod.snd same
    cases Nat.add_left_cancel offsets
    cases has.unique (shape.walk.records p member)
    have listed := List.mem_map_of_mem (f := Prod.snd) member
    rw [placed_map_snd] at listed
    exact (shape.get_some_iff member below found).mp (all p.2 listed)
  · intro paths entry listed
    rw [← placed_map_snd (baseHeader + slots * slotSize) entries] at listed
    obtain ⟨p, member, rfl⟩ := List.mem_map.mp listed
    obtain ⟨i, below, found⟩ := shape.indexed p member
    exact (shape.get_some_iff member below found).mpr
      (paths i below p.1 p.2 found (shape.walk.records p member))

end Accepted

end Lkv
