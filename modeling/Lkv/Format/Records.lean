/-
# Lkv.Format.Records — the records and the slot table in Base data

What Base data says, apart from how it is read: `HasRecord` is a record at an
offset, `Walk` a run of records that follow one another, `slotTable` the index.
The readers of the source are characterised by these (`recordAt_eq_ok`,
`trustedRecordAt_ok`), and `validateBase_shape` says what an accepted Base is:
distinct keys, every used slot on a record with its fingerprint, and every
record in exactly one slot.  It does not say that a lookup can reach the slot.
-/
import Lkv.Format.Segment
import Lkv.Theory.Probing
import Mathlib.Data.List.Nodup
import Mathlib.Data.List.Perm.Subperm

namespace Lkv

open Lkv.Theory

set_option autoImplicit false

abbrev Entry := Bytes × Bytes

/-! ## Records -/

/-- The bytes a record takes. -/
def recordSize (entry : Entry) : Nat := 8 + entry.1.length + entry.2.length

/-- The record of `entry` lies at `offset`, within the first `dataSize` bytes. -/
structure HasRecord (mapping : Bytes) (dataSize offset : Nat) (entry : Entry) : Prop where
  inside : offset + recordSize entry ≤ dataSize
  keyLen : leNat (window mapping offset 4) = entry.1.length
  valueLen : leNat (window mapping (offset + 4) 4) = entry.2.length
  key : window mapping (offset + 8) entry.1.length = entry.1
  value : window mapping (offset + 8 + entry.1.length) entry.2.length = entry.2

section Records

variable {mapping mapping' : Bytes} {dataSize offset : Nat} {entry entry' : Entry}

theorem HasRecord.unique (one : HasRecord mapping dataSize offset entry)
    (two : HasRecord mapping dataSize offset entry') : entry = entry' := by
  have keyLen := one.keyLen.symm.trans two.keyLen
  have valueLen := one.valueLen.symm.trans two.valueLen
  refine Prod.ext ?_ ?_
  · rw [← one.key, ← two.key, keyLen]
  · rw [← one.value, ← two.value, keyLen, valueLen]

/-- A record is in any string that agrees where it lies. -/
theorem HasRecord.congr (has : HasRecord mapping dataSize offset entry)
    (same : ∀ i, offset ≤ i → i < offset + recordSize entry → mapping[i]? = mapping'[i]?)
    {dataSize' : Nat} (inside : offset + recordSize entry ≤ dataSize') :
    HasRecord mapping' dataSize' offset entry := by
  unfold recordSize at same
  refine ⟨inside, ?_, ?_, ?_, ?_⟩
  · rw [← has.keyLen]
    exact congrArg leNat (window_congr fun i above below => (same i (by omega) (by omega)).symm)
  · rw [← has.valueLen]
    exact congrArg leNat (window_congr fun i above below => (same i (by omega) (by omega)).symm)
  · exact (window_congr fun i above below => (same i (by omega) (by omega)).symm).trans has.key
  · exact (window_congr fun i above below => (same i (by omega) (by omega)).symm).trans has.value

theorem recordAt_eq_ok (fits : dataSize ≤ mapping.length) (word : dataSize < 2 ^ 64)
    {key value : Bytes} {stop : Nat} :
    recordAt mapping offset dataSize = .ok (key, value, stop) ↔
      HasRecord mapping dataSize offset (key, value) ∧ stop = offset + recordSize (key, value) := by
  simp only [recordAt, bind_eq_ok, orFail_eq_ok, Option.filter_eq_some_iff, checkedAdd_eq_some_iff,
    getRange_eq_some_iff]
  have low : window (window mapping offset (offset + 8 - offset)) 0 4 = window mapping offset 4 := by
    rw [window_window _ _ _ _ _ (by omega), Nat.add_zero]
  have high : window (window mapping offset (offset + 8 - offset)) 4 4 =
      window mapping (offset + 4) 4 := window_window _ _ _ _ _ (by omega)
  constructor
  · rintro ⟨_, ⟨⟨rfl, _⟩, _⟩, _, ⟨_, _, rfl⟩, _, ⟨rfl, _⟩, _, ⟨⟨rfl, _⟩, inside⟩, _, ⟨_, keyIn, rfl⟩,
      _, ⟨_, valueIn, rfl⟩, ⟨⟩⟩
    rw [low, high] at *
    simp only [decide_eq_true_eq, Nat.add_sub_cancel_left] at *
    generalize sizeOfKey : leNat (window mapping offset 4) = keyLen at *
    generalize sizeOfValue : leNat (window mapping (offset + 4) 4) = valueLen at *
    have keySize := window_length mapping (offset + 8) keyLen keyIn
    have valueSize := window_length mapping (offset + 8 + keyLen) valueLen valueIn
    have size : recordSize (window mapping (offset + 8) keyLen,
        window mapping (offset + 8 + keyLen) valueLen) = 8 + keyLen + valueLen := by
      rw [recordSize, keySize, valueSize]
    refine ⟨⟨by omega, by rw [sizeOfKey, keySize], by rw [sizeOfValue, valueSize], ?_, ?_⟩, by omega⟩
    · rw [keySize]
    · rw [keySize, valueSize]
  · rintro ⟨⟨inside, keyLen, valueLen, keyIs, valueIs⟩, rfl⟩
    simp only [recordSize] at *
    refine ⟨offset + 8, ⟨⟨rfl, by omega⟩, by simp; omega⟩, _, ⟨by omega, by omega, rfl⟩, ?_⟩
    rw [low, high, keyLen, valueLen]
    refine ⟨_, ⟨rfl, by omega⟩, _, ⟨⟨rfl, by omega⟩, by simp; omega⟩, _, ⟨by omega, by omega, rfl⟩, _,
      ⟨by omega, by omega, rfl⟩, ?_⟩
    simp only [Nat.add_sub_cancel_left, keyIs, valueIs]
    rw [show offset + (8 + key.length + value.length) = offset + 8 + key.length + value.length by
      omega]
    rfl

/-- Reading a record fails with an error, never with a panic. -/
theorem recordAt_noPanic : NoPanic (recordAt mapping offset dataSize) :=
  (noPanic_orFail _).bind fun _ _ => (noPanic_orFail _).bind fun _ _ =>
    (noPanic_orFail _).bind fun _ _ => (noPanic_orFail _).bind fun _ _ =>
      (noPanic_orFail _).bind fun _ _ => (noPanic_orFail _).bind fun _ _ => noPanic_ok

theorem trustedRecordAt_ok (fits : dataSize ≤ mapping.length) (word : dataSize < 2 ^ 64)
    (has : HasRecord mapping dataSize offset entry) :
    trustedRecordAt mapping offset = .ok (entry.1, entry.2, offset + recordSize entry) := by
  obtain ⟨inside, keyLen, valueLen, keyIs, valueIs⟩ := has
  simp only [recordSize] at *
  rw [trustedRecordAt, u32At_ok (by omega), addOrPanic_ok (by omega)]
  simp only [ok_bind]
  rw [u32At_ok (by omega), addOrPanic_ok (by omega), keyLen, valueLen]
  simp only [ok_bind]
  rw [addOrPanic_ok (by omega)]
  simp only [ok_bind]
  rw [addOrPanic_ok (by omega)]
  simp only [ok_bind]
  rw [sliceAt_ok (by omega) (by omega), sliceAt_ok (by omega) (by omega)]
  simp only [Nat.add_sub_cancel_left, keyIs, valueIs, ok_bind]
  rw [show offset + (8 + entry.1.length + entry.2.length) =
    offset + 8 + entry.1.length + entry.2.length by omega]
  rfl

end Records

/-! ## Runs of records -/

/-- Where each record of a run starts. -/
def placed : Nat → List Entry → List (Nat × Entry)
  | _, [] => []
  | offset, entry :: rest => (offset, entry) :: placed (offset + recordSize entry) rest

def totalSize (entries : List Entry) : Nat := (entries.map recordSize).sum

@[simp] theorem totalSize_nil : totalSize [] = 0 := rfl

@[simp] theorem totalSize_cons (entry : Entry) (entries : List Entry) :
    totalSize (entry :: entries) = recordSize entry + totalSize entries := by
  simp [totalSize]

theorem totalSize_perm {one two : List Entry} (perm : one.Perm two) : totalSize one = totalSize two :=
  (perm.map recordSize).sum_nat

/-- From `offset` to `stop` there are exactly the records of `entries`. -/
structure Walk (mapping : Bytes) (dataSize offset : Nat) (entries : List Entry) (stop : Nat) :
    Prop where
  records : ∀ p ∈ placed offset entries, HasRecord mapping dataSize p.1 p.2
  stop_eq : stop = offset + totalSize entries

section Walk

variable {mapping : Bytes} {dataSize offset stop : Nat} {entry : Entry} {entries : List Entry}

@[simp] theorem placed_length (offset : Nat) (entries : List Entry) :
    (placed offset entries).length = entries.length := by
  induction entries generalizing offset with
  | nil => rfl
  | cons entry rest ih => simp [placed, ih]

@[simp] theorem placed_map_snd (offset : Nat) (entries : List Entry) :
    (placed offset entries).map Prod.snd = entries := by
  induction entries generalizing offset with
  | nil => rfl
  | cons entry rest ih => simp [placed, ih]

theorem mem_placed_range {p : Nat × Entry} (member : p ∈ placed offset entries) :
    offset ≤ p.1 ∧ p.1 + recordSize p.2 ≤ offset + totalSize entries := by
  induction entries generalizing offset with
  | nil => cases member
  | cons entry rest ih =>
      rw [totalSize_cons]
      rcases List.mem_cons.mp member with rfl | later
      · dsimp only
        omega
      · have := ih later
        omega

/-- The records of a run start at different offsets. -/
theorem placed_offsets_nodup (offset : Nat) (entries : List Entry) :
    ((placed offset entries).map Prod.fst).Nodup := by
  induction entries generalizing offset with
  | nil => exact List.nodup_nil
  | cons entry rest ih =>
      rw [placed, List.map_cons, List.nodup_cons]
      refine ⟨fun member => ?_, ih _⟩
      obtain ⟨p, later, same⟩ := List.mem_map.mp member
      have := (mem_placed_range later).1
      unfold recordSize at this
      omega

theorem placed_unique {p q : Nat × Entry} (one : p ∈ placed offset entries)
    (two : q ∈ placed offset entries) (same : p.1 = q.1) : p = q :=
  List.inj_on_of_nodup_map (placed_offsets_nodup offset entries) one two same

theorem walk_nil : Walk mapping dataSize offset [] stop ↔ stop = offset := by
  constructor
  · exact fun walk => walk.stop_eq
  · exact fun same => ⟨nofun, same⟩

theorem walk_cons :
    Walk mapping dataSize offset (entry :: entries) stop ↔
      HasRecord mapping dataSize offset entry ∧
        Walk mapping dataSize (offset + recordSize entry) entries stop := by
  constructor
  · intro walk
    refine ⟨walk.records (offset, entry) (by simp [placed]),
      fun p member => walk.records p (by simp [placed, member]), ?_⟩
    rw [walk.stop_eq, totalSize_cons, Nat.add_assoc]
  · rintro ⟨has, walk⟩
    refine ⟨fun p member => ?_, by rw [walk.stop_eq, totalSize_cons, Nat.add_assoc]⟩
    rcases List.mem_cons.mp member with rfl | later
    · exact has
    · exact walk.records p later

end Walk

/-! ## Slots -/

/-- The fingerprint and record offset in slot `i`. -/
def slotAt (data : Bytes) (i : Nat) : Nat × Nat :=
  (leNat (window data (baseHeader + i * slotSize) 4),
    leNat (window data (baseHeader + i * slotSize + 4) 8))

/-- The slots as a probing table: a slot with record offset 0 is free. -/
def slotTable (data : Bytes) (i : Nat) : Option (Nat × Nat) :=
  if (slotAt data i).2 = 0 then none else some (slotAt data i)

theorem slotTable_eq_some {data : Bytes} {i : Nat} {slot : Nat × Nat} :
    slotTable data i = some slot ↔ slotAt data i = slot ∧ slot.2 ≠ 0 := by
  unfold slotTable
  split
  · rename_i free
    constructor
    · nofun
    · rintro ⟨rfl, used⟩
      exact absurd free used
  · rename_i used
    constructor
    · rintro ⟨⟩
      exact ⟨rfl, used⟩
    · rintro ⟨rfl, _⟩
      rfl

/-! ## What `validateBase` accepts -/

section Validate

variable {C : Crates} {bytes : Bytes} {absoluteStart : Nat}

theorem validateRecords_succ {n : Nat} {walk walk' : RecordWalk} :
    validateRecords C bytes absoluteStart (n + 1) walk = .ok walk' ↔
      ∃ entry, HasRecord bytes bytes.length walk.offset entry ∧
        walk.offset + recordSize entry < 2 ^ 64 ∧ entry.1 ∉ walk.keys ∧
        absoluteStart + walk.offset < 2 ^ 64 ∧
        validateRecords C bytes absoluteStart n
          ⟨walk.offset + recordSize entry,
            (absoluteStart + walk.offset, C.hash entry.1 >>> 32) :: walk.records,
            entry.1 :: walk.keys⟩ = .ok walk' := by
  rw [validateRecords]
  simp only [bind_eq_ok, orFail_eq_ok, checkedAdd_eq_some_iff]
  constructor
  · rintro ⟨_, ⟨rfl, _⟩, rest⟩
    split at rest
    · simp at rest
    · simp only [bind_eq_ok, u32At_eq_ok, orFail_eq_ok, checkedAdd_eq_some_iff] at rest
      obtain ⟨keyLen, ⟨_, sizeOfKey⟩, valueLen, ⟨_, sizeOfValue⟩, _, ⟨rfl, _⟩, _, ⟨rfl, word⟩, rest⟩ :=
        rest
      split at rest
      · simp at rest
      · rename_i inside
        simp only [bind_eq_ok, sliceAt_eq_ok] at rest
        obtain ⟨key, ⟨_, keyIn, keyIs⟩, rest⟩ := rest
        split at rest
        · simp at rest
        · rename_i fresh
          simp only [bind_eq_ok, addOrPanic_eq_ok] at rest
          obtain ⟨_, ⟨rfl, absolute⟩, rest⟩ := rest
          rw [Nat.add_sub_cancel_left] at keyIs
          have keySize := window_length bytes (walk.offset + 8) keyLen keyIn
          rw [keyIs] at keySize
          have valueSize := window_length bytes (walk.offset + 8 + keyLen) valueLen (by omega)
          refine ⟨(key, window bytes (walk.offset + 8 + keyLen) valueLen), ?_⟩
          have size : recordSize (key, window bytes (walk.offset + 8 + keyLen) valueLen) =
              8 + keyLen + valueLen := by
            rw [recordSize, keySize, valueSize]
          rw [size]
          refine ⟨⟨by omega, by rw [sizeOfKey, keySize], by rw [sizeOfValue, valueSize], ?_, ?_⟩,
            by omega, fresh, absolute, ?_⟩
          · rw [keySize, keyIs]
          · rw [keySize, valueSize]
          · rw [← rest]
            congr 2
            omega
  · rintro ⟨⟨key, value⟩, ⟨inside, sizeOfKey, sizeOfValue, keyIs, valueIs⟩, word, fresh, absolute,
      rest⟩
    simp only [recordSize] at *
    refine ⟨_, ⟨rfl, by omega⟩, ?_⟩
    rw [if_neg (by omega), u32At_ok (by omega), u32At_ok (by omega), sizeOfKey, sizeOfValue]
    simp only [ok_bind, bind_eq_ok, orFail_eq_ok, checkedAdd_eq_some_iff]
    refine ⟨_, ⟨rfl, by omega⟩, _, ⟨rfl, by omega⟩, ?_⟩
    rw [if_neg (by omega), sliceAt_ok (by omega) (by omega)]
    simp only [ok_bind, Nat.add_sub_cancel_left, keyIs]
    rw [if_neg fresh, addOrPanic_ok absolute]
    simp only [ok_bind]
    rw [← rest]
    congr 2
    omega

/-- The loop over the records walks a run of records with fresh keys. -/
theorem validateRecords_eq_ok {n : Nat} {walk walk' : RecordWalk} :
    validateRecords C bytes absoluteStart n walk = .ok walk' ↔
      ∃ entries : List Entry, entries.length = n ∧
        Walk bytes bytes.length walk.offset entries walk'.offset ∧
        (∀ p ∈ placed walk.offset entries,
          p.1 + recordSize p.2 < 2 ^ 64 ∧ absoluteStart + p.1 < 2 ^ 64) ∧
        (entries.map Prod.fst).Nodup ∧ (∀ entry ∈ entries, entry.1 ∉ walk.keys) ∧
        walk'.records = ((placed walk.offset entries).map
          fun p => (absoluteStart + p.1, C.hash p.2.1 >>> 32)).reverse ++ walk.records ∧
        walk'.keys = (entries.map Prod.fst).reverse ++ walk.keys := by
  induction n generalizing walk with
  | zero =>
      rw [validateRecords]
      constructor
      · rintro ⟨⟩
        exact ⟨[], rfl, walk_nil.mpr rfl, nofun, List.nodup_nil, nofun, rfl, rfl⟩
      · rintro ⟨entries, empty, run, _, _, _, records, keys⟩
        cases List.length_eq_zero_iff.mp empty
        obtain ⟨offset, recs, ks⟩ := walk'
        cases walk_nil.mp run
        cases records
        cases keys
        rfl
  | succ n ih =>
      rw [validateRecords_succ]
      constructor
      · rintro ⟨entry, has, word, fresh, absolute, rest⟩
        obtain ⟨entries, length, run, bounds, nodup, disjoint, records, keys⟩ := ih.mp rest
        refine ⟨entry :: entries, by simp [length], walk_cons.mpr ⟨has, run⟩, ?_, ?_, ?_, ?_, ?_⟩
        · intro p member
          rcases List.mem_cons.mp member with rfl | later
          · exact ⟨word, absolute⟩
          · exact bounds p later
        · rw [List.map_cons, List.nodup_cons]
          refine ⟨fun member => ?_, nodup⟩
          obtain ⟨other, later, same⟩ := List.mem_map.mp member
          exact disjoint other later (by simp [same])
        · intro other member
          rcases List.mem_cons.mp member with rfl | later
          · exact fresh
          · exact fun old => disjoint other later (by simp [old])
        · simp [records, placed]
        · simp [keys]
      · rintro ⟨entries, length, run, bounds, nodup, disjoint, records, keys⟩
        obtain ⟨entry, rest, rfl⟩ := List.exists_cons_of_length_eq_add_one length
        obtain ⟨has, run⟩ := walk_cons.mp run
        have here := bounds _ (List.mem_cons_self ..)
        rw [List.map_cons, List.nodup_cons] at nodup
        refine ⟨entry, has, here.1, disjoint entry (List.mem_cons_self ..), here.2, ih.mpr ?_⟩
        refine ⟨rest, by simpa using length, run,
          fun p later => bounds p (List.mem_cons_of_mem _ later), nodup.2, ?_, ?_, ?_⟩
        · intro other later old
          rcases List.mem_cons.mp old with same | old
          · exact nodup.1 (List.mem_map.mpr ⟨other, later, same⟩)
          · exact disjoint other (List.mem_cons_of_mem _ later) old
        · simp [records, placed]
        · simp [keys]

/-- The used record offsets among `n` slots from `first` on. -/
def usedOffsets (bytes : Bytes) (first n : Nat) : List Nat :=
  ((List.range' first n).map fun i => (slotAt bytes i).2).filter (· ≠ 0)

theorem usedOffsets_succ (bytes : Bytes) (first n : Nat) :
    usedOffsets bytes first (n + 1) =
      (if (slotAt bytes first).2 = 0 then [] else [(slotAt bytes first).2]) ++
        usedOffsets bytes (first + 1) n := by
  unfold usedOffsets
  rw [List.range'_succ, List.map_cons, List.filter_cons]
  split <;> simp_all

/-- What `validateSlots` asks of a slot. -/
def SlotAccepted (records : List (Nat × Nat)) (slot : Nat × Nat) : Prop :=
  if slot.2 = 0 then slot.1 = 0 else mapGet records slot.2 = some slot.1

theorem validateSlots_eq_ok {records : List (Nat × Nat)} {n first : Nat} {referenced result : List Nat}
    (inside : baseHeader + (first + n) * slotSize ≤ bytes.length) :
    validateSlots bytes records first n referenced = .ok result ↔
      (∀ i, first ≤ i → i < first + n → SlotAccepted records (slotAt bytes i)) ∧
        (usedOffsets bytes first n).Nodup ∧ (∀ o ∈ usedOffsets bytes first n, o ∉ referenced) ∧
        result = (usedOffsets bytes first n).reverse ++ referenced := by
  induction n generalizing first referenced with
  | zero =>
      rw [validateSlots]
      constructor
      · rintro ⟨⟩
        exact ⟨fun i _ _ => by omega, by simp [usedOffsets], by simp [usedOffsets],
          by simp [usedOffsets]⟩
      · rintro ⟨_, _, _, rfl⟩
        simp
  | succ n ih =>
      have here : baseHeader + first * slotSize + 4 + 8 ≤ bytes.length := by
        simp only [slotSize] at *
        omega
      have split_slots : ∀ P : Nat → Prop, (∀ i, first ≤ i → i < first + (n + 1) → P i) ↔
          P first ∧ ∀ i, first + 1 ≤ i → i < first + 1 + n → P i := by
        intro P
        constructor
        · exact fun all => ⟨all first le_rfl (by omega), fun i a b => all i (by omega) (by omega)⟩
        · rintro ⟨one, others⟩ i above below
          rcases Nat.eq_or_lt_of_le above with rfl | later
          · exact one
          · exact others i later (by omega)
      have read : validateSlots bytes records first (n + 1) referenced =
          if (slotAt bytes first).2 = 0 then
            if (slotAt bytes first).1 ≠ 0 then fail (.invalidBase "empty slot has a fingerprint")
            else validateSlots bytes records (first + 1) n referenced
          else if mapGet records (slotAt bytes first).2 ≠ some (slotAt bytes first).1 then
            fail (.invalidBase "slot points outside base or has the wrong fingerprint")
          else if (slotAt bytes first).2 ∈ referenced then
            fail (.invalidBase "record is referenced by multiple slots")
          else validateSlots bytes records (first + 1) n ((slotAt bytes first).2 :: referenced) := by
        rw [validateSlots, u32At_ok (by omega), u64At_ok (by omega)]
        rfl
      have next : baseHeader + (first + 1 + n) * slotSize ≤ bytes.length := by
        rw [Nat.add_right_comm]
        exact inside
      rw [read, usedOffsets_succ, split_slots]
      unfold SlotAccepted
      by_cases free : (slotAt bytes first).2 = 0
      · simp only [free, if_true, List.nil_append]
        by_cases blank : (slotAt bytes first).1 = 0
        · simp only [blank, ne_eq, not_true_eq_false, if_false, true_and]
          exact ih next
        · simp [blank]
      · simp only [free, if_false, List.singleton_append, List.nodup_cons, List.mem_cons]
        by_cases found : mapGet records (slotAt bytes first).2 = some (slotAt bytes first).1
        · simp only [found, ne_eq, not_true_eq_false, if_false, true_and]
          by_cases seen : (slotAt bytes first).2 ∈ referenced
          · simp only [seen, if_true, fail_eq_ok, false_iff]
            rintro ⟨_, _, disjoint, _⟩
            exact disjoint _ (.inl rfl) seen
          · rw [if_neg seen, ih next]
            unfold SlotAccepted
            constructor
            · rintro ⟨accepted, nodup, disjoint, rfl⟩
              refine ⟨accepted, ⟨fun again => disjoint _ again (List.mem_cons_self ..), nodup⟩, ?_,
                by simp⟩
              rintro o (rfl | later)
              · exact seen
              · exact fun old => disjoint o later (List.mem_cons_of_mem _ old)
            · rintro ⟨accepted, ⟨fresh, nodup⟩, disjoint, rfl⟩
              refine ⟨accepted, nodup, ?_, by simp⟩
              intro o later old
              rcases List.mem_cons.mp old with rfl | old
              · exact fresh later
              · exact disjoint o (.inr later) old
        · simp [found]

end Validate

/-- What an accepted Base is: its records, and an index that names each of them
once and nothing else. -/
structure BaseShape (C : Crates) (data : Bytes) (start slots : Nat) (entries : List Entry) :
    Prop where
  table : baseHeader + slots * slotSize ≤ data.length
  word : data.length < 2 ^ 64
  walk : Walk data data.length (baseHeader + slots * slotSize) entries data.length
  absolute : ∀ p ∈ placed (baseHeader + slots * slotSize) entries, start + p.1 < 2 ^ 64
  distinct : (entries.map Prod.fst).Nodup
  blank : ∀ i < slots, (slotAt data i).2 = 0 → (slotAt data i).1 = 0
  sound : ∀ i < slots, ∀ slot, slotTable data i = some slot →
    ∃ p ∈ placed (baseHeader + slots * slotSize) entries,
      slot = (C.hash p.2.1 >>> 32, start + p.1)
  indexed : ∀ p ∈ placed (baseHeader + slots * slotSize) entries,
    ∃ i < slots, slotTable data i = some (C.hash p.2.1 >>> 32, start + p.1)
  once : ∀ i < slots, ∀ j < slots, ∀ slot, slotTable data i = some slot →
    slotTable data j = some slot → i = j

section Shape

variable {C : Crates} {data : Bytes} {start slots : Nat}

/-- The map from record offsets to fingerprints that `validateBase` builds. -/
def fingerprints (C : Crates) (start offset : Nat) (entries : List Entry) : List (Nat × Nat) :=
  (placed offset entries).map fun p => (start + p.1, C.hash p.2.1 >>> 32)

theorem mapGet_fingerprints {offset : Nat} {entries : List Entry} {o fingerprint : Nat} :
    mapGet (fingerprints C start offset entries).reverse o = some fingerprint ↔
      ∃ p ∈ placed offset entries, o = start + p.1 ∧ fingerprint = C.hash p.2.1 >>> 32 := by
  unfold mapGet
  rw [Option.map_eq_some_iff]
  constructor
  · rintro ⟨slot, found, rfl⟩
    have key := List.find?_some found
    have member := List.mem_of_find?_eq_some found
    rw [List.mem_reverse, fingerprints, List.mem_map] at member
    obtain ⟨p, placedAt, rfl⟩ := member
    simp only [decide_eq_true_eq] at key
    exact ⟨p, placedAt, key.symm, rfl⟩
  · rintro ⟨p, placedAt, rfl, rfl⟩
    have member : (start + p.1, C.hash p.2.1 >>> 32) ∈
        (fingerprints C start offset entries).reverse := by
      rw [List.mem_reverse, fingerprints, List.mem_map]
      exact ⟨p, placedAt, rfl⟩
    cases found : (fingerprints C start offset entries).reverse.find?
        fun entry => entry.1 = start + p.1 with
    | none =>
        have := List.find?_eq_none.mp found _ member
        simp at this
    | some slot =>
        have key := List.find?_some found
        have other := List.mem_of_find?_eq_some found
        rw [List.mem_reverse, fingerprints, List.mem_map] at other
        obtain ⟨q, placedAt', rfl⟩ := other
        simp only [decide_eq_true_eq] at key
        rw [placed_unique placedAt' placedAt (by omega)]
        exact ⟨_, rfl, rfl⟩

theorem mem_usedOffsets {n o : Nat} :
    o ∈ usedOffsets data 0 n ↔ ∃ i < n, ∃ fingerprint, slotTable data i = some (fingerprint, o) := by
  simp only [usedOffsets, List.mem_filter, List.mem_map, List.mem_range', slotTable_eq_some]
  constructor
  · rintro ⟨⟨i, ⟨j, below, rfl⟩, rfl⟩, used⟩
    exact ⟨0 + 1 * j, by omega, _, rfl, by simpa using used⟩
  · rintro ⟨i, below, fingerprint, same, used⟩
    exact ⟨⟨i, ⟨i, by omega, by omega⟩, by rw [same]⟩, by simpa using used⟩

theorem usedOffsets_nodup {n : Nat} :
    (usedOffsets data 0 n).Nodup ↔ ∀ i < n, ∀ j < n, (slotAt data i).2 ≠ 0 →
      (slotAt data i).2 = (slotAt data j).2 → i = j := by
  unfold usedOffsets
  rw [← List.range_eq_range', List.filter_map,
    List.nodup_map_iff_inj_on (List.nodup_range.filter _)]
  simp only [List.mem_filter, List.mem_range, Function.comp_apply, ne_eq, decide_not,
    Bool.not_eq_true', decide_eq_false_iff_not]
  constructor
  · intro inj i belowI j belowJ used same
    exact inj i ⟨belowI, used⟩ j ⟨belowJ, same ▸ used⟩ same
  · rintro inj i ⟨belowI, used⟩ j ⟨belowJ, _⟩ same
    exact inj i belowI j belowJ used same

theorem placed_starts_nodup (start offset : Nat) (entries : List Entry) :
    ((placed offset entries).map fun p => start + p.1).Nodup := by
  have := (placed_offsets_nodup offset entries).map
    (f := fun o => start + o) fun _ _ => Nat.add_left_cancel
  rwa [List.map_map] at this

theorem exists_last_placed {offset : Nat} {entries : List Entry} (some : entries ≠ []) :
    ∃ p ∈ placed offset entries, p.1 + recordSize p.2 = offset + totalSize entries := by
  induction entries generalizing offset with
  | nil => exact absurd rfl some
  | cons entry rest ih =>
      rcases List.eq_nil_or_concat rest with rfl | ⟨front, last, rfl⟩
      · exact ⟨(offset, entry), by simp [placed], by simp⟩
      · obtain ⟨p, member, ends⟩ := @ih (offset + recordSize entry) (by simp)
        refine ⟨p, List.mem_cons_of_mem _ member, ?_⟩
        rw [ends, totalSize_cons, Nat.add_assoc]

theorem recordsStart_eq_ok {dataSize recordsAt : Nat} :
    recordsStart slots dataSize = .ok recordsAt ↔
      recordsAt = baseHeader + slots * slotSize ∧ recordsAt < 2 ^ 64 ∧ recordsAt ≤ dataSize := by
  simp only [recordsStart, bind_eq_ok, orFail_eq_ok, Option.bind_eq_some_iff,
    checkedMul_eq_some_iff, checkedAdd_eq_some_iff]
  constructor
  · rintro ⟨_, ⟨_, ⟨rfl, _⟩, rfl, word⟩, rest⟩
    split at rest
    · simp at rest
    · cases rest
      exact ⟨rfl, word, by omega⟩
  · rintro ⟨rfl, word, inside⟩
    refine ⟨_, ⟨_, ⟨rfl, by simp only [slotSize, baseHeader] at *; omega⟩, rfl, word⟩, ?_⟩
    rw [if_neg (by omega)]
    rfl

theorem eight_mul_length_le (entries : List Entry) : 8 * entries.length ≤ totalSize entries := by
  induction entries with
  | nil => simp
  | cons entry rest ih =>
      rw [List.length_cons, totalSize_cons, recordSize]
      omega

theorem validateBase_eq_ok {len : Nat} :
    validateBase C data start slots len = .ok () ↔
      ∃ entries : List Entry, entries.length = len ∧ BaseShape C data start slots entries := by
  simp only [validateBase, bind_eq_ok, recordsStart_eq_ok]
  constructor
  · rintro ⟨_, ⟨rfl, word, inside⟩, rest⟩
    split at rest
    · simp at rest
    · simp only [bind_eq_ok, validateRecords_eq_ok] at rest
      obtain ⟨walk, ⟨entries, length, run, bounds, nodup, _, records, _⟩, rest⟩ := rest
      split at rest
      · simp at rest
      · rename_i ends
        simp only [ne_eq, not_not] at ends
        rw [ends] at run
        simp only [bind_eq_ok] at rest
        obtain ⟨referenced, slotsOk, rest⟩ := rest
        rw [validateSlots_eq_ok (by simpa using inside)] at slotsOk
        obtain ⟨accepted, usedOnce, _, rfl⟩ := slotsOk
        split at rest
        · simp at rest
        · rename_i all
          simp only [List.append_nil, List.length_reverse, ne_eq, not_not] at all records
          rw [show walk.records = (fingerprints C start _ entries).reverse from records] at accepted
          have sound : ∀ i < slots, ∀ slot, slotTable data i = some slot →
              ∃ p ∈ placed (baseHeader + slots * slotSize) entries,
                slot = (C.hash p.2.1 >>> 32, start + p.1) := by
            intro i below slot found
            obtain ⟨same, used⟩ := slotTable_eq_some.mp found
            have ok := accepted i (Nat.zero_le i) (by omega)
            rw [SlotAccepted, same, if_neg used, mapGet_fingerprints] at ok
            obtain ⟨p, member, offset, fingerprint⟩ := ok
            exact ⟨p, member, Prod.ext fingerprint offset⟩
          have subset : usedOffsets data 0 slots ⊆
              (placed (baseHeader + slots * slotSize) entries).map fun p => start + p.1 := by
            intro o member
            obtain ⟨i, below, fingerprint, found⟩ := mem_usedOffsets.mp member
            obtain ⟨p, placedAt, same⟩ := sound i below _ found
            exact List.mem_map.mpr ⟨p, placedAt, (congrArg Prod.snd same).symm⟩
          have perm := (List.subperm_of_subset usedOnce subset).perm_of_length_le
            (by rw [List.length_map, placed_length, length, all])
          have ends' : data.length < 2 ^ 64 := by
            rw [run.stop_eq]
            by_cases none : entries = []
            · simpa [none] using word
            · obtain ⟨p, member, last⟩ := exists_last_placed none
              exact last ▸ (bounds p member).1
          refine ⟨entries, length, inside, ends', run, fun p member => (bounds p member).2, nodup, ?_,
            sound, ?_, ?_⟩
          · intro i below free
            have ok := accepted i (Nat.zero_le i) (by omega)
            rwa [SlotAccepted, if_pos free] at ok
          · intro p member
            have used : start + p.1 ∈ usedOffsets data 0 slots :=
              perm.mem_iff.mpr (List.mem_map.mpr ⟨p, member, rfl⟩)
            obtain ⟨i, below, fingerprint, found⟩ := mem_usedOffsets.mp used
            obtain ⟨q, placedAt, same⟩ := sound i below _ found
            have offsets : start + p.1 = start + q.1 := congrArg Prod.snd same
            cases placed_unique member placedAt (by omega)
            exact ⟨i, below, same ▸ found⟩
          · intro i belowI j belowJ slot foundI foundJ
            obtain ⟨sameI, used⟩ := slotTable_eq_some.mp foundI
            obtain ⟨sameJ, _⟩ := slotTable_eq_some.mp foundJ
            exact usedOffsets_nodup.mp usedOnce i belowI j belowJ (sameI ▸ used)
              (by rw [sameI, sameJ])
  · rintro ⟨entries, length, shape⟩
    have size := shape.walk.stop_eq
    have eight := eight_mul_length_le entries
    refine ⟨_, ⟨rfl, lt_of_le_of_lt shape.table shape.word, shape.table⟩, ?_⟩
    rw [if_neg (by omega)]
    simp only [bind_eq_ok, validateRecords_eq_ok]
    have usedOnce : (usedOffsets data 0 slots).Nodup := by
      refine usedOffsets_nodup.mpr fun i belowI j belowJ used same => ?_
      have foundI : slotTable data i = some (slotAt data i) := slotTable_eq_some.mpr ⟨rfl, used⟩
      have foundJ : slotTable data j = some (slotAt data j) :=
        slotTable_eq_some.mpr ⟨rfl, same ▸ used⟩
      obtain ⟨p, memberP, slotP⟩ := shape.sound i belowI _ foundI
      obtain ⟨q, memberQ, slotQ⟩ := shape.sound j belowJ _ foundJ
      rw [slotP, slotQ] at same
      cases placed_unique memberP memberQ (Nat.add_left_cancel same)
      exact shape.once i belowI j belowJ _ foundI (by rw [foundJ, slotP, slotQ])
    refine ⟨⟨data.length, (fingerprints C start (baseHeader + slots * slotSize) entries).reverse,
        (entries.map Prod.fst).reverse⟩,
      ⟨entries, length, shape.walk, ?_, shape.distinct, nofun, by simp [fingerprints],
        by simp⟩, ?_⟩
    · intro p member
      have := (shape.walk.records p member).inside
      exact ⟨lt_of_le_of_lt this shape.word, shape.absolute p member⟩
    · rw [if_neg (by simp)]
      simp only [bind_eq_ok]
      refine ⟨(usedOffsets data 0 slots).reverse, ?_, ?_⟩
      · rw [validateSlots_eq_ok (by simpa using shape.table)]
        refine ⟨fun i _ below => ?_, usedOnce, nofun, by simp⟩
        unfold SlotAccepted
        split
        · rename_i free
          exact shape.blank i (by omega) free
        · rename_i used
          obtain ⟨p, member, same⟩ := shape.sound i (by omega) _ (slotTable_eq_some.mpr ⟨rfl, used⟩)
          exact mapGet_fingerprints.mpr
            ⟨p, member, congrArg Prod.snd same, congrArg Prod.fst same⟩
      · have mem : ∀ o, o ∈ usedOffsets data 0 slots ↔
            o ∈ (placed (baseHeader + slots * slotSize) entries).map fun p => start + p.1 := by
          intro o
          rw [mem_usedOffsets, List.mem_map]
          constructor
          · rintro ⟨i, below, fingerprint, found⟩
            obtain ⟨p, member, same⟩ := shape.sound i below _ found
            exact ⟨p, member, (congrArg Prod.snd same).symm⟩
          · rintro ⟨p, member, rfl⟩
            obtain ⟨i, below, found⟩ := shape.indexed p member
            exact ⟨i, below, _, found⟩
        have perm := (List.perm_ext_iff_of_nodup usedOnce (placed_starts_nodup start _ entries)).mpr mem
        rw [if_neg (by
          rw [List.length_reverse, perm.length_eq, List.length_map, placed_length]
          simp [length])]
        rfl

end Shape

end Lkv
