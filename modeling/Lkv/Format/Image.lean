/-
# Lkv.Format.Image — the bytes of a written Base

The image of a list of entries, as a pure function: header, slot table, records.
`placeAll` is the slot allocation of the writer; `Allocated` is what it keeps
true, from the empty table on: every used slot names a placed record, every
placed record is in one slot, and a lookup reaches it.  For entries with distinct
keys the image is therefore an accepted Base whose index finds every entry
(`image_shape`, `image_paths`).
-/
import Lkv.Database.Lookup
import Lkv.Format.Layout
import Lkv.BufWriter

namespace Lkv

open Lkv.Theory

set_option autoImplicit false

def encodeRecord (entry : Entry) : Bytes :=
  leBytes 4 entry.1.length ++ (leBytes 4 entry.2.length ++ (entry.1 ++ entry.2))

def recordsBytes (entries : List Entry) : Bytes := entries.flatMap encodeRecord

def slotBytes (index : List (Nat × Nat)) : Bytes :=
  index.flatMap fun slot => leBytes 4 slot.1 ++ leBytes 8 slot.2

def headerBytes (slots len : Nat) : Bytes :=
  hashSectionId ++ (leBytes 4 baseHeader ++ (leBytes 8 slots ++ leBytes 8 len))

/-- The data area of a Base. -/
def dataBytes (slots : Nat) (index : List (Nat × Nat)) (entries : List Entry) : Bytes :=
  headerBytes slots entries.length ++ (slotBytes index ++ recordsBytes entries)

/-- Claim slots for the entries in order, the first of them at `offset`. -/
def placeAll (C : Crates) (slots : Nat) :
    List (Nat × Nat) → Nat → List Entry → Res (List (Nat × Nat))
  | index, _, [] => .ok index
  | index, offset, entry :: rest => do
      let index ← placeEntry C index slots entry.1 offset
      placeAll C slots index (offset + recordSize entry) rest

/-- Lengths that `checkLengths` lets through. -/
def ValidEntry (entry : Entry) : Prop :=
  entry.1.length ≤ maxKeySize ∧ entry.2.length ≤ maxValueSize

@[simp] theorem hashSectionId_length : hashSectionId.length = 4 := by decide

@[simp] theorem checksumSectionId_length : checksumSectionId.length = 4 := by decide

/-! ## Records -/

section Records

variable {entries : List Entry} {entry : Entry}

@[simp] theorem encodeRecord_length (entry : Entry) :
    (encodeRecord entry).length = recordSize entry := by
  simp only [encodeRecord, List.length_append, leBytes_length, recordSize]
  omega

@[simp] theorem recordsBytes_length (entries : List Entry) :
    (recordsBytes entries).length = totalSize entries := by
  induction entries with
  | nil => rfl
  | cons entry rest ih =>
      rw [recordsBytes, List.flatMap_cons, List.length_append, encodeRecord_length, totalSize_cons]
      exact congrArg _ ih

theorem hasRecord_encoded (front rest : Bytes) (valid : ValidEntry entry) {dataSize : Nat}
    (inside : front.length + recordSize entry ≤ dataSize) :
    HasRecord (front ++ (encodeRecord entry ++ rest)) dataSize front.length entry := by
  obtain ⟨key, value⟩ := entry
  unfold ValidEntry maxKeySize maxValueSize at valid
  dsimp only at valid
  refine ⟨inside, ?_, ?_, ?_, ?_⟩
  · rw [← Nat.add_zero front.length, window_append_at]
    simp only [encodeRecord, List.append_assoc]
    rw [window_append_left _ _ _ _ (by simp), window_eq_self _ _ (by simp),
      leNat_leBytes _ _ (by omega)]
  · rw [window_append_at]
    simp only [encodeRecord, List.append_assoc]
    rw [window_append_right _ _ _ _ (by simp), window_append_left _ _ _ _ (by simp)]
    simp only [leBytes_length, Nat.sub_self]
    rw [window_eq_self _ _ (by simp), leNat_leBytes _ _ (by omega)]
  · rw [window_append_at]
    simp only [encodeRecord, List.append_assoc]
    rw [window_append_right _ _ _ _ (by simp), window_append_right _ _ _ _ (by simp),
      window_append_left _ _ _ _ (by simp)]
    simp
  · rw [Nat.add_assoc, window_append_at]
    simp only [encodeRecord, List.append_assoc]
    rw [window_append_right _ _ _ _ (by simp; omega), window_append_right _ _ _ _ (by simp; omega),
      window_append_right _ _ _ _ (by simp; omega), window_append_left _ _ _ _ (by simp; omega)]
    simp only [leBytes_length]
    rw [show 8 + key.length - 4 - 4 - key.length = 0 by omega, window_all]

theorem walk_recordsBytes (front rest : Bytes) (valid : ∀ entry ∈ entries, ValidEntry entry)
    {dataSize : Nat} (inside : front.length + totalSize entries ≤ dataSize) :
    Walk (front ++ (recordsBytes entries ++ rest)) dataSize front.length entries
      (front.length + totalSize entries) := by
  induction entries generalizing front with
  | nil => exact walk_nil.mpr rfl
  | cons entry others ih =>
      rw [totalSize_cons] at inside
      rw [walk_cons, recordsBytes, List.flatMap_cons, List.append_assoc]
      refine ⟨hasRecord_encoded front _ (valid entry (List.mem_cons_self ..)) (by omega), ?_⟩
      have later := ih (front ++ encodeRecord entry)
        (fun other member => valid other (List.mem_cons_of_mem _ member))
        (by rw [List.length_append, encodeRecord_length]; omega)
      rw [List.length_append, encodeRecord_length, List.append_assoc] at later
      rw [totalSize_cons, ← Nat.add_assoc]
      exact later

end Records

/-! ## Slots -/

section Slots

variable {index : List (Nat × Nat)}

theorem slot_cell_length (slot : Nat × Nat) :
    (leBytes 4 slot.1 ++ leBytes 8 slot.2).length = slotSize := by
  simp [slotSize]

@[simp] theorem slotBytes_length (index : List (Nat × Nat)) :
    (slotBytes index).length = index.length * slotSize :=
  flatMap_cells_length slot_cell_length index

/-- A slot is stored in four and eight bytes. -/
def WordSlot (slot : Nat × Nat) : Prop := slot.1 < 2 ^ 32 ∧ slot.2 < 2 ^ 64

theorem window_slotBytes (words : ∀ slot ∈ index, WordSlot slot) (rest : Bytes) {i : Nat}
    (below : i < index.length) :
    leNat (window (slotBytes index ++ rest) (i * slotSize) 4) = index[i].1 ∧
      leNat (window (slotBytes index ++ rest) (i * slotSize + 4) 8) = index[i].2 := by
  have word := words index[i] (List.getElem_mem below)
  have cell := window_cell slot_cell_length index rest below
  change window (slotBytes index ++ rest) _ _ = _ at cell
  unfold WordSlot at word
  rw [← window_window _ _ slotSize 4 8 (by simp [slotSize]), cell,
    ← Nat.add_zero (i * slotSize), ← window_window _ _ slotSize 0 4 (by simp [slotSize]), cell]
  constructor
  · rw [window_append_left _ _ _ _ (by simp), window_eq_self _ _ (by simp),
      leNat_leBytes _ _ (by omega)]
  · rw [window_append_right _ _ _ _ (by simp)]
    simp only [leBytes_length, Nat.sub_self]
    rw [window_eq_self _ _ (by simp), leNat_leBytes _ _ (by omega)]

end Slots

/-! ## Slot allocation -/

/-- The slots as a probing table. -/
def indexTable (index : List (Nat × Nat)) (i : Nat) : Option (Nat × Nat) :=
  index[i]?.filter fun slot => slot.2 ≠ 0

theorem indexTable_eq_some {index : List (Nat × Nat)} {i : Nat} {slot : Nat × Nat} :
    indexTable index i = some slot ↔ index[i]? = some slot ∧ slot.2 ≠ 0 := by
  simp [indexTable, Option.filter_eq_some_iff]

section Free

variable {index : List (Nat × Nat)} {slots home slot : Nat}

/-- The step from a slot to the next, as the source writes it. -/
theorem next_slot (power : ∃ k ≤ 64, slots = 2 ^ k) (p : Nat) :
    (Probing.slotOf slots home p + 1) &&& (slots - 1) = Probing.slotOf slots home (p + 1) := by
  obtain ⟨k, _, rfl⟩ := power
  rw [Nat.and_two_pow_sub_one_eq_mod, Probing.slotOf_succ]

theorem freeSlot_eq_ok (power : ∃ k ≤ 64, slots = 2 ^ k) (size : index.length = slots)
    {fuel p : Nat} :
    freeSlot index slots fuel (Probing.slotOf slots home p) = .ok slot ↔
      ∃ q, p ≤ q ∧ q < p + fuel ∧ Probing.slotOf slots home q = slot ∧
        indexTable index slot = none ∧
        ∀ j, p ≤ j → j < q → indexTable index (Probing.slotOf slots home j) ≠ none := by
  have some : 0 < slots := by
    obtain ⟨k, _, rfl⟩ := power
    exact Nat.two_pow_pos k
  induction fuel generalizing p with
  | zero =>
      constructor
      · nofun
      · rintro ⟨q, _, _, _⟩
        omega
  | succ fuel ih =>
      have below : Probing.slotOf slots home p < index.length := size ▸ Probing.slotOf_lt some home p
      have read : index[Probing.slotOf slots home p]? =
          Option.some index[Probing.slotOf slots home p] := List.getElem?_eq_getElem below
      rw [freeSlot, read]
      dsimp only
      by_cases free : index[Probing.slotOf slots home p].2 = 0
      · rw [if_pos free]
        have none : indexTable index (Probing.slotOf slots home p) = none := by
          simp [indexTable, read, free]
        constructor
        · rintro ⟨⟩
          exact ⟨p, le_rfl, by omega, rfl, none, fun j _ _ => by omega⟩
        · rintro ⟨q, above, _, rfl, _, occupied⟩
          rcases Nat.eq_or_lt_of_le above with rfl | later
          · rfl
          · exact absurd none (occupied p le_rfl later)
      · rw [if_neg free, next_slot power]
        refine ih.trans ?_
        have taken : indexTable index (Probing.slotOf slots home p) ≠ none := by
          simp [indexTable, read, free]
        constructor
        · rintro ⟨q, above, upTo, at_slot, isFree, occupied⟩
          refine ⟨q, by omega, by omega, at_slot, isFree, fun j from_p before => ?_⟩
          rcases Nat.eq_or_lt_of_le from_p with rfl | later
          · exact taken
          · exact occupied j later before
        · rintro ⟨q, above, upTo, rfl, isFree, occupied⟩
          rcases Nat.eq_or_lt_of_le above with rfl | later
          · exact absurd isFree taken
          · exact ⟨q, later, by omega, rfl, isFree, fun j _ before => occupied j (by omega) before⟩

/-- A slot is claimed at the first free place from the key's home slot on. -/
theorem placeEntry_eq_ok {C : Crates} (power : slots ≠ 0 → ∃ k ≤ 64, slots = 2 ^ k)
    (size : index.length = slots) {key : Bytes} {offset : Nat} {index' : List (Nat × Nat)} :
    placeEntry C index slots key offset = .ok index' ↔
      ∃ q < slots, indexTable index (Probing.slotOf slots (C.hash key) q) = none ∧
        (∀ j < q, indexTable index (Probing.slotOf slots (C.hash key) j) ≠ none) ∧
        index' = index.set (Probing.slotOf slots (C.hash key) q) (C.hash key >>> 32, offset) := by
  unfold placeEntry
  by_cases empty : slots = 0
  · simp [empty]
  · have homeSlot : C.hash key &&& (slots - 1) = Probing.slotOf slots (C.hash key) 0 := by
      obtain ⟨k, _, rfl⟩ := power empty
      exact Nat.and_two_pow_sub_one_eq_mod _ k
    rw [if_neg empty]
    dsimp only
    rw [homeSlot]
    simp only [bind_eq_ok, freeSlot_eq_ok (power empty) size, Nat.zero_le, true_and, Nat.zero_add,
      forall_const]
    constructor
    · rintro ⟨_, ⟨q, below, rfl, free, occupied⟩, ⟨⟩⟩
      exact ⟨q, below, free, occupied, rfl⟩
    · rintro ⟨q, below, free, occupied, rfl⟩
      exact ⟨_, ⟨q, below, rfl, free, occupied⟩, rfl⟩

end Free

/-- What the index keeps true while records are placed: `done` are those placed so
far, with their offsets in the file. -/
structure Allocated (C : Crates) (slots : Nat) (index : List (Nat × Nat))
    (done : List (Nat × Entry)) : Prop where
  size : index.length = slots
  blank : ∀ (i : Nat) slot, index[i]? = some slot → slot.2 = 0 → slot = (0, 0)
  sound : ∀ i slot, indexTable index i = some slot →
    ∃ p ∈ done, slot = (C.hash p.2.1 >>> 32, p.1)
  found : ∀ p ∈ done, ∃ i, indexTable index i = some (C.hash p.2.1 >>> 32, p.1) ∧
    Probing.Reaches (indexTable index) slots (C.hash p.2.1) i
  once : ∀ i j slot, indexTable index i = some slot → indexTable index j = some slot → i = j
  count : (index.countP fun slot => slot.2 ≠ 0) = done.length

section Allocation

variable {C : Crates} {slots offset : Nat} {index index' : List (Nat × Nat)}
variable {done : List (Nat × Entry)} {entry : Entry} {entries : List Entry}

theorem allocated_empty (C : Crates) (slots : Nat) :
    Allocated C slots (List.replicate slots (0, 0)) [] where
  size := List.length_replicate
  blank i slot at_i _ := List.eq_of_mem_replicate (List.mem_of_getElem? at_i)
  sound i slot at_i := by
    obtain ⟨at_i, used⟩ := indexTable_eq_some.mp at_i
    rw [List.eq_of_mem_replicate (List.mem_of_getElem? at_i)] at used
    exact absurd rfl used
  found := nofun
  once i j slot at_i := by
    obtain ⟨at_i, used⟩ := indexTable_eq_some.mp at_i
    rw [List.eq_of_mem_replicate (List.mem_of_getElem? at_i)] at used
    exact absurd rfl used
  count := by simp [List.countP_replicate]

theorem indexTable_set {i : Nat} (below : i < index.length) {slot : Nat × Nat} (used : slot.2 ≠ 0)
    (j : Nat) : indexTable (index.set i slot) j = if i = j then some slot else indexTable index j := by
  unfold indexTable
  rw [List.getElem?_set]
  by_cases same : i = j
  · simp [same, same ▸ below, used]
  · simp [same]

theorem Allocated.place (allocated : Allocated C slots index done)
    (power : slots ≠ 0 → ∃ k ≤ 64, slots = 2 ^ k)
    (ran : placeEntry C index slots entry.1 offset = .ok index') (some : offset ≠ 0)
    (fresh : ∀ p ∈ done, p.1 ≠ offset) :
    Allocated C slots index' (done ++ [(offset, entry)]) := by
  obtain ⟨q, below, free, occupied, rfl⟩ := (placeEntry_eq_ok power allocated.size).mp ran
  have inside : Probing.slotOf slots (C.hash entry.1) q < index.length := by
    rw [allocated.size]
    exact Probing.slotOf_lt (by omega) _ q
  have here : indexTable index (Probing.slotOf slots (C.hash entry.1) q) = none := free
  have table := @indexTable_set index _ inside (C.hash entry.1 >>> 32, offset) some
  generalize slotIs : Probing.slotOf slots (C.hash entry.1) q = s at *
  have kept : ∀ j slot, indexTable index j = .some slot →
      indexTable (index.set s (C.hash entry.1 >>> 32, offset)) j = .some slot := by
    intro j slot at_j
    rw [table, if_neg]
    · exact at_j
    · rintro rfl
      rw [here] at at_j
      cases at_j
  have filled : ∀ j, indexTable index j ≠ none →
      indexTable (index.set s (C.hash entry.1 >>> 32, offset)) j ≠ none := by
    intro j taken
    obtain ⟨slot, at_j⟩ := Option.ne_none_iff_exists'.mp taken
    rw [kept j slot at_j]
    nofun
  -- Only the new record has the new offset.
  have other : ∀ j slot, indexTable index j = .some slot → slot.2 ≠ offset := by
    intro j slot at_j
    obtain ⟨p, member, rfl⟩ := allocated.sound j slot at_j
    exact fresh p member
  refine ⟨by rw [List.length_set, allocated.size], ?_, ?_, ?_, ?_, ?_⟩
  · intro i slot at_i free
    rw [List.getElem?_set] at at_i
    split at at_i
    · cases at_i
      exact absurd free some
    · exact allocated.blank i slot at_i free
  · intro i slot at_i
    rw [table] at at_i
    split at at_i
    · cases at_i
      exact ⟨(offset, entry), by simp, rfl⟩
    · obtain ⟨p, member, same⟩ := allocated.sound i slot at_i
      exact ⟨p, List.mem_append_left _ member, same⟩
  · intro p member
    rcases List.mem_append.mp member with old | new
    · obtain ⟨i, at_i, reaches⟩ := allocated.found p old
      exact ⟨i, kept i _ at_i, reaches.mono filled⟩
    · cases List.mem_singleton.mp new
      exact ⟨s, by rw [table, if_pos rfl], q, below, slotIs,
        fun j before => filled _ (occupied j before)⟩
  · intro i j slot at_i at_j
    rw [table] at at_i at_j
    split at at_i <;> split at at_j
    · omega
    · cases at_i
      exact absurd rfl (other j _ at_j)
    · cases at_j
      exact absurd rfl (other i _ at_i)
    · exact allocated.once i j slot at_i at_j
  · have blank : index[s].2 = 0 := by
      by_contra used
      rw [indexTable_eq_some.mpr ⟨List.getElem?_eq_getElem inside, used⟩] at here
      cases here
    rw [List.countP_set inside, allocated.count]
    simp [blank, some]

/-- There is room as long as fewer records than slots were placed. -/
theorem Allocated.room (allocated : Allocated C slots index done)
    (power : slots ≠ 0 → ∃ k ≤ 64, slots = 2 ^ k) (less : done.length < slots) (key : Bytes)
    (offset : Nat) : ∃ index', placeEntry C index slots key offset = .ok index' := by
  have free : ∃ slot < slots, indexTable index slot = none := by
    by_contra full
    push Not at full
    have all : (index.countP fun slot => slot.2 ≠ 0) = index.length := by
      refine List.countP_eq_length.mpr fun slot member => ?_
      obtain ⟨i, below, rfl⟩ := List.getElem_of_mem member
      obtain ⟨slot, at_i⟩ := Option.ne_none_iff_exists'.mp (full i (allocated.size ▸ below))
      obtain ⟨read, used⟩ := indexTable_eq_some.mp at_i
      rw [List.getElem?_eq_getElem below] at read
      cases read
      simpa using used
    rw [allocated.count, allocated.size] at all
    omega
  obtain ⟨q, below, isFree, occupied⟩ := Probing.exists_free (C.hash key) free
  exact ⟨_, (placeEntry_eq_ok power allocated.size).mpr ⟨q, below, isFree, occupied, rfl⟩⟩

theorem Allocated.placeAll (allocated : Allocated C slots index done)
    (power : slots ≠ 0 → ∃ k ≤ 64, slots = 2 ^ k)
    (ran : placeAll C slots index offset entries = .ok index') (some : offset ≠ 0)
    (before : ∀ p ∈ done, p.1 < offset) :
    Allocated C slots index' (done ++ placed offset entries) := by
  induction entries generalizing index offset done with
  | nil =>
      cases ran
      rw [placed, List.append_nil]
      exact allocated
  | cons entry rest ih =>
      rw [Lkv.placeAll, bind_eq_ok] at ran
      obtain ⟨next, placedOne, ran⟩ := ran
      have one := allocated.place power placedOne some fun p member => (before p member).ne
      rw [placed, ← List.singleton_append, ← List.append_assoc]
      refine ih one ran (by omega) fun p member => ?_
      unfold recordSize
      rcases List.mem_append.mp member with old | new
      · have := before p old
        omega
      · cases List.mem_singleton.mp new
        dsimp only
        omega

theorem Allocated.placeAll_ok (allocated : Allocated C slots index done)
    (power : slots ≠ 0 → ∃ k ≤ 64, slots = 2 ^ k) (some : offset ≠ 0)
    (before : ∀ p ∈ done, p.1 < offset) (room : done.length + entries.length ≤ slots) :
    ∃ index', Lkv.placeAll C slots index offset entries = .ok index' := by
  induction entries generalizing index offset done with
  | nil => exact ⟨index, rfl⟩
  | cons entry rest ih =>
      rw [List.length_cons] at room
      obtain ⟨next, placedOne⟩ := allocated.room power (by omega) entry.1 offset
      have one := allocated.place power placedOne some fun p member => (before p member).ne
      rw [Lkv.placeAll, placedOne, ok_bind]
      refine ih one (by omega) (fun p member => ?_) (by simp; omega)
      unfold recordSize
      rcases List.mem_append.mp member with old | new
      · have := before p old
        omega
      · cases List.mem_singleton.mp new
        dsimp only
        omega

end Allocation

/-! ## The image as a Base -/

theorem placed_shift (start offset : Nat) (entries : List Entry) :
    placed (start + offset) entries = (placed offset entries).map fun p => (start + p.1, p.2) := by
  induction entries generalizing offset with
  | nil => rfl
  | cons entry rest ih => rw [placed, placed, List.map_cons, Nat.add_assoc, ih]

theorem mem_placed_add {start offset : Nat} {entries : List Entry} {p : Nat × Entry}
    (member : p ∈ placed offset entries) : (start + p.1, p.2) ∈ placed (start + offset) entries := by
  rw [placed_shift]
  exact List.mem_map.mpr ⟨p, member, rfl⟩

/-- Entries whose Base starts at `start` and has `slots` slots, laid out as `index`. -/
structure Laid (C : Crates) (start slots : Nat) (index : List (Nat × Nat)) (entries : List Entry) :
    Prop where
  power : slots ≠ 0 → ∃ k ≤ 63, slots = 2 ^ k
  allocated : Allocated C slots index (placed (start + (baseHeader + slots * slotSize)) entries)
  valid : ∀ entry ∈ entries, ValidEntry entry
  word : start + (baseHeader + slots * slotSize + totalSize entries) < 2 ^ 64

section Image

variable {C : Crates} {start slots len : Nat} {index : List (Nat × Nat)} {entries : List Entry}

/-- The number of slots of a Base: none, or a power of two above the number of entries. -/
theorem baseSlotCount_eq_ok (count : baseSlotCount len = .ok slots) :
    len ≤ slots ∧ (slots ≠ 0 → ∃ k ≤ 63, slots = 2 ^ k) := by
  unfold baseSlotCount at count
  split at count
  · rename_i none
    cases count
    exact ⟨by omega, fun some => absurd rfl some⟩
  · rename_i some
    simp only [orFail_eq_ok, Option.bind_eq_some_iff, checkedMul_eq_some_iff] at count
    obtain ⟨_, ⟨rfl, word⟩, power⟩ := count
    unfold checkedNextPowerOfTwo at power
    dsimp only at power
    have enough : len ≤ divCeil (len * 5) 4 := by
      unfold divCeil
      omega
    generalize divCeil (len * 5) 4 = needed at *
    by_cases one : needed ≤ 1
    · rw [if_pos one, if_pos (by decide)] at power
      cases power
      exact ⟨by omega, fun _ => ⟨0, by omega, rfl⟩⟩
    · rw [if_neg one] at power
      split at power
      · rename_i fits
        cases power
        have above := @Nat.lt_log2_self (needed - 1)
        have below := (Nat.pow_lt_pow_iff_right (by decide)).mp fits
        exact ⟨by omega, fun _ => ⟨_, by omega, rfl⟩⟩
      · cases power

theorem Laid.of_placeAll (power : slots ≠ 0 → ∃ k ≤ 63, slots = 2 ^ k)
    (ran : placeAll C slots (List.replicate slots (0, 0)) (start + (baseHeader + slots * slotSize))
      entries = .ok index)
    (valid : ∀ entry ∈ entries, ValidEntry entry)
    (word : start + (baseHeader + slots * slotSize + totalSize entries) < 2 ^ 64) :
    Laid C start slots index entries where
  power := power
  allocated := by
    have power' : slots ≠ 0 → ∃ k ≤ 64, slots = 2 ^ k := fun some => by
      obtain ⟨k, below, same⟩ := power some
      exact ⟨k, by omega, same⟩
    exact (allocated_empty C slots).placeAll power' ran (by unfold baseHeader; omega) nofun
  valid := valid
  word := word

@[simp] theorem headerBytes_length (slots len : Nat) : (headerBytes slots len).length = baseHeader := by
  simp [headerBytes, baseHeader]

theorem isPowerOfTwo_two_pow (k : Nat) : isPowerOfTwo (2 ^ k) = true := by
  simp [isPowerOfTwo, Nat.log2_two_pow]

section Laid

variable (laid : Laid C start slots index entries)
include laid

theorem Laid.length :
    (dataBytes slots index entries).length = baseHeader + slots * slotSize + totalSize entries := by
  simp only [dataBytes, List.length_append, headerBytes_length, slotBytes_length,
    recordsBytes_length, laid.allocated.size]
  omega

theorem Laid.mem {i : Nat} {slot : Nat × Nat} :
    indexTable index i = some slot → ∃ p ∈ placed (baseHeader + slots * slotSize) entries,
      slot = (C.hash p.2.1 >>> 32, start + p.1) := by
  intro found
  obtain ⟨p, member, rfl⟩ := laid.allocated.sound i slot found
  rw [placed_shift, List.mem_map] at member
  obtain ⟨q, member, rfl⟩ := member
  exact ⟨q, member, rfl⟩

theorem Laid.words : ∀ slot ∈ index, WordSlot slot := by
  intro slot member
  obtain ⟨i, below, rfl⟩ := List.getElem_of_mem member
  have at_i := List.getElem?_eq_getElem below
  by_cases free : index[i].2 = 0
  · rw [laid.allocated.blank i _ at_i free]
    simp [WordSlot]
  · obtain ⟨p, member, same⟩ := laid.mem (indexTable_eq_some.mpr ⟨at_i, free⟩)
    have hash := C.hash_lt p.2.1
    have range := mem_placed_range member
    have word := laid.word
    unfold recordSize at range
    rw [same, WordSlot, Nat.shiftRight_eq_div_pow]
    dsimp only
    omega

theorem Laid.slotAt {i : Nat} (below : i < slots) :
    index[i]? = some (slotAt (dataBytes slots index entries) i) := by
  have inside : i < index.length := laid.allocated.size ▸ below
  obtain ⟨one, two⟩ := window_slotBytes laid.words (recordsBytes entries) inside
  have header := headerBytes_length slots entries.length
  rw [List.getElem?_eq_getElem inside, Lkv.slotAt, dataBytes, Nat.add_assoc, ← header,
    window_append_at, window_append_at, one, two]

theorem Laid.slotTable {i : Nat} (below : i < slots) :
    slotTable (dataBytes slots index entries) i = indexTable index i := by
  rw [Lkv.slotTable, indexTable, laid.slotAt below]
  by_cases free : (Lkv.slotAt (dataBytes slots index entries) i).2 = 0 <;>
    simp [free, Option.filter_some]

theorem Laid.walk :
    Walk (dataBytes slots index entries) (dataBytes slots index entries).length
      (baseHeader + slots * slotSize) entries (dataBytes slots index entries).length := by
  have front : (headerBytes slots entries.length ++ slotBytes index).length =
      baseHeader + slots * slotSize := by
    rw [List.length_append, headerBytes_length, slotBytes_length, laid.allocated.size]
  have walk := @walk_recordsBytes entries (headerBytes slots entries.length ++ slotBytes index) []
    laid.valid (dataBytes slots index entries).length (by rw [front, laid.length])
  rw [front, List.append_nil, List.append_assoc, ← laid.length] at walk
  exact walk

theorem Laid.table : baseHeader + slots * slotSize ≤ (dataBytes slots index entries).length := by
  rw [laid.length]
  omega

theorem Laid.power' : slots ≠ 0 → ∃ k ≤ 64, slots = 2 ^ k := fun some => by
  obtain ⟨k, below, rfl⟩ := laid.power some
  exact ⟨k, by omega, rfl⟩

theorem Laid.pointed : Pointed (dataBytes slots index entries) start slots where
  table := laid.table
  power := laid.power'
  target i below slot found := by
    rw [laid.slotTable below] at found
    obtain ⟨p, member, rfl⟩ := laid.mem found
    exact ⟨p.1, p.2, rfl, laid.walk.records p member⟩

/-- Entries with distinct keys make a Base that the full check accepts. -/
theorem Laid.shape (distinct : (entries.map Prod.fst).Nodup) :
    BaseShape C (dataBytes slots index entries) start slots entries where
  table := laid.table
  word := by
    have := laid.word
    rw [laid.length]
    omega
  walk := laid.walk
  absolute p member := by
    have range := mem_placed_range member
    have word := laid.word
    unfold recordSize at range
    omega
  distinct := distinct
  blank i below free := by
    have := laid.allocated.blank i _ (laid.slotAt below) free
    rw [this]
  sound i below slot found := laid.mem (laid.slotTable below ▸ found)
  indexed p member := by
    obtain ⟨i, found, reaches⟩ := laid.allocated.found _ (mem_placed_add member)
    exact ⟨i, reaches.lt, by rw [laid.slotTable reaches.lt]; exact found⟩
  once i belowI j belowJ slot foundI foundJ :=
    laid.allocated.once i j slot (laid.slotTable belowI ▸ foundI) (laid.slotTable belowJ ▸ foundJ)

/-- The index reaches every record. -/
theorem Laid.paths : ProbePaths C (dataBytes slots index entries) start slots := by
  intro i below offset entry found has
  rw [laid.slotTable below] at found
  obtain ⟨p, member, same⟩ := laid.mem found
  have offsets : start + offset = start + p.1 := congrArg Prod.snd same
  cases Nat.add_left_cancel offsets
  cases has.unique (laid.walk.records p member)
  obtain ⟨j, found', q, belowQ, at_j, occupied⟩ := laid.allocated.found _ (mem_placed_add member)
  cases laid.allocated.once i j _ found found'
  have positive : 0 < slots := by omega
  exact ⟨q, belowQ, at_j, fun k before => by
    rw [laid.slotTable (Probing.slotOf_lt positive _ k)]
    exact occupied k before⟩

theorem Laid.header : readBaseHeader (dataBytes slots index entries) = .ok (slots, entries.length) := by
  have word := laid.word
  have table := laid.table
  have eight := eight_mul_length_le entries
  have slotsWord : slots < 256 ^ 8 := by
    unfold slotSize at word
    omega
  have read : ∀ offset n, offset + n ≤ baseHeader →
      window (dataBytes slots index entries) offset n =
        window (headerBytes slots entries.length) offset n := fun offset n inside =>
    window_append_left _ _ _ _ (by rw [headerBytes_length]; exact inside)
  have id : window (headerBytes slots entries.length) 0 4 = hashSectionId := by
    simp [headerBytes, window_append_left, window_eq_self]
  have size : window (headerBytes slots entries.length) 4 4 = leBytes 4 baseHeader := by
    simp [headerBytes, window_append_left, window_append_right, window_eq_self]
  have slotsAt : window (headerBytes slots entries.length) 8 8 = leBytes 8 slots := by
    simp [headerBytes, window_append_left, window_append_right, window_eq_self]
  have lenAt : window (headerBytes slots entries.length) 16 8 = leBytes 8 entries.length := by
    simp [headerBytes, window_append_right, window_eq_self]
  have power : ¬(slots ≠ 0 ∧ ¬isPowerOfTwo slots = true) := by
    rintro ⟨some, not⟩
    obtain ⟨k, _, rfl⟩ := laid.power some
    exact not (isPowerOfTwo_two_pow k)
  have records : recordsStart slots (dataBytes slots index entries).length =
      .ok (baseHeader + slots * slotSize) := recordsStart_eq_ok.mpr ⟨rfl, by omega, table⟩
  unfold readBaseHeader
  rw [read 0 4 (by decide), read 4 4 (by decide), read 8 8 (by decide), read 16 8 (by decide), id,
    size, slotsAt, lenAt, leNat_leBytes _ _ (by decide), leNat_leBytes _ _ slotsWord,
    leNat_leBytes 8 entries.length (by omega), if_neg (by simp; omega), if_neg (by simp)]
  dsimp only
  rw [if_neg power, records]
  rfl

end Laid

end Image

/-! ## Checksums -/

/-- The checksum of every block. -/
def blockChecksums (data : Bytes) : List Nat :=
  (List.range (divCeil data.length checksumBlockSize)).map fun i =>
    (crc32c (dataBlock data i)).toNat

/-- A whole segment: data, checksum table, footer. -/
def segmentBytes (data : Bytes) : Bytes :=
  data ++ checksumMetadata data.length (blockChecksums data)

section Checksums

variable {data : Bytes} {checksums : List Nat}

@[simp] theorem blockChecksums_length (data : Bytes) :
    (blockChecksums data).length = divCeil data.length checksumBlockSize := by
  simp [blockChecksums]

theorem checksumTable_length (checksums : List Nat) :
    (checksums.flatMap (leBytes 4)).length = checksums.length * 4 :=
  flatMap_cells_length (leBytes_length 4) checksums

theorem checksumMetadata_length (dataSize : Nat) (checksums : List Nat) :
    (checksumMetadata dataSize checksums).length = checksums.length * 4 + checksumFooterSize := by
  simp only [checksumMetadata, List.length_append, checksumTable_length, leBytes_length,
    checksumSectionId_length, checksumFooterSize]

theorem segmentLayout_written (count : checksums.length = divCeil data.length checksumBlockSize)
    (word : data.length + checksums.length * 4 + checksumFooterSize < 2 ^ 64) :
    segmentLayout (data ++ checksumMetadata data.length checksums) =
      .ok ⟨data, checksums.flatMap (leBytes 4)⟩ := by
  generalize tableIs : checksums.flatMap (leBytes 4) = table
  have tableSize : table.length = checksums.length * 4 := by
    rw [← tableIs, checksumTable_length]
  generalize footerIs : checksumSectionId ++ (leBytes 4 checksumFooterSize ++ (leBytes 8 data.length ++
    (leBytes 4 checksumBlockSize ++ leBytes 4 (crc32c table).toNat))) = footer
  have footerSize : footer.length = checksumFooterSize := by
    rw [← footerIs]
    simp [checksumFooterSize]
  have shape : data ++ checksumMetadata data.length checksums = data ++ (table ++ footer) := by
    rw [checksumMetadata, tableIs, ← footerIs]
    simp only [List.append_assoc]
  have size : (data ++ (table ++ footer)).length =
      data.length + checksums.length * 4 + checksumFooterSize := by
    simp only [List.length_append, tableSize, footerSize]
    omega
  have last : window (data ++ (table ++ footer))
      ((data ++ (table ++ footer)).length - checksumFooterSize) checksumFooterSize = footer := by
    rw [← List.append_assoc, window_append_right _ _ _ _ (by simp [footerSize]; omega)]
    simp only [List.length_append, footerSize, Nat.add_sub_cancel, Nat.sub_self]
    exact window_eq_self _ _ (by omega)
  have id : window footer 0 4 = checksumSectionId := by
    rw [← footerIs]
    simp [window_append_left, window_eq_self]
  have footerLen : leNat (window footer 4 4) = checksumFooterSize := by
    rw [← footerIs]
    simp [window_append_left, window_append_right, window_eq_self,
      leNat_leBytes 4 checksumFooterSize (by decide)]
  have dataLen : leNat (window footer 8 8) = data.length := by
    rw [← footerIs]
    simp [window_append_left, window_append_right, window_eq_self,
      leNat_leBytes 8 data.length (by omega)]
  have block : leNat (window footer 16 4) = checksumBlockSize := by
    rw [← footerIs]
    simp [window_append_left, window_append_right, window_eq_self,
      leNat_leBytes 4 checksumBlockSize (by decide)]
  have crc : leNat (window footer 20 4) = (crc32c table).toNat := by
    rw [← footerIs]
    simp [window_append_right, window_eq_self,
      leNat_leBytes 4 (crc32c table).toNat (crc32c_lt _)]
  have tableAt : window (data ++ (table ++ footer)) data.length (checksums.length * 4) = table := by
    have := window_append_at data (table ++ footer) 0 (checksums.length * 4)
    rw [Nat.add_zero] at this
    rw [this, window_append_left _ _ _ _ (by omega), ← tableSize, window_all]
  rw [shape, segmentLayout, if_neg (by omega)]
  dsimp only
  rw [last, id, if_neg (by simp), footerLen, if_neg (by simp), dataLen, block, if_neg (by simp), ← count,
    checkedMul_some (by omega), orFail_some, ok_bind, checkedAdd_some (by omega), Option.bind_some,
    checkedAdd_some (by omega), if_neg (by simp [size]), sliceAt_ok (by omega) (by omega), ok_bind,
    Nat.add_sub_cancel_left, tableAt, crc, if_neg (by simp), sliceAt_ok (by omega) (by omega), ok_bind,
    Nat.sub_zero, window_append_left _ _ _ _ (by omega), window_all]
  rfl

/-- Where the table holds the checksums of the blocks, every block passes. -/
theorem verifySegmentBlocks_written (data : Bytes) (segmentOffset : Nat) :
    verifySegmentBlocks ⟨data, (blockChecksums data).flatMap (leBytes 4)⟩ segmentOffset = .ok () := by
  have tableSize := checksumTable_length (blockChecksums data)
  rw [blockChecksums_length] at tableSize
  rw [verifySegmentBlocks_eq_ok tableSize]
  intro b below
  have inside : b < (blockChecksums data).length := by
    rw [blockChecksums_length]
    exact below
  have stored := window_cell (leBytes_length 4) (blockChecksums data) [] inside
  rw [List.append_nil] at stored
  rw [stored]
  simp only [blockChecksums, List.getElem_map, List.getElem_range]
  rw [leNat_leBytes _ _ (crc32c_lt _)]

end Checksums

/-! ## The Base of a list of entries -/

/-- `crc32c` over the checksum table and the footer. -/
def metadataChecksum (data : Bytes) : Nat :=
  (crc32c (checksumMetadata data.length (blockChecksums data))).toNat

/-- `data` is the data area of the Base of `entries` at file offset `start`. -/
structure IsBase (C : Crates) (start : Nat) (entries : List Entry) (slots : Nat) (data : Bytes) :
    Prop where
  count : baseSlotCount entries.length = .ok slots
  valid : ∀ entry ∈ entries, ValidEntry entry
  placed : ∃ index, placeAll C slots (List.replicate slots (0, 0))
    (start + (baseHeader + slots * slotSize)) entries = .ok index ∧
      data = dataBytes slots index entries
  word : start + data.length < 2 ^ 64
  size : (segmentBytes data).length < 2 ^ 64

section Base

variable {C : Crates} {start slots slots' : Nat} {entries : List Entry} {data data' : Bytes}

theorem segmentBytes_length (data : Bytes) : (segmentBytes data).length =
    data.length + divCeil data.length checksumBlockSize * 4 + checksumFooterSize := by
  rw [segmentBytes, List.length_append, checksumMetadata_length, blockChecksums_length]
  omega

/-- The index has one cell per slot, whatever is placed. -/
theorem placeAll_length {index index' : List (Nat × Nat)} {offset : Nat}
    (ran : placeAll C slots index offset entries = .ok index') : index'.length = index.length := by
  induction entries generalizing index offset with
  | nil =>
      cases ran
      rfl
  | cons entry rest ih =>
      rw [placeAll, bind_eq_ok] at ran
      obtain ⟨next, one, ran⟩ := ran
      rw [ih ran]
      unfold placeEntry at one
      split at one
      · simp at one
      · simp only [bind_eq_ok] at one
        obtain ⟨slot, _, same⟩ := one
        cases same
        exact List.length_set

theorem IsBase.laid (base : IsBase C start entries slots data) :
    ∃ index, Laid C start slots index entries ∧ data = dataBytes slots index entries := by
  obtain ⟨index, ran, rfl⟩ := base.placed
  refine ⟨index, Laid.of_placeAll (baseSlotCount_eq_ok base.count).2 ran base.valid ?_, rfl⟩
  have word := base.word
  have size := placeAll_length ran
  simp only [dataBytes, List.length_append, headerBytes_length, slotBytes_length,
    recordsBytes_length, size, List.length_replicate] at word
  omega

theorem IsBase.length (base : IsBase C start entries slots data) :
    data.length = baseHeader + slots * slotSize + totalSize entries := by
  obtain ⟨index, laid, rfl⟩ := base.laid
  exact laid.length

theorem IsBase.unique (base : IsBase C start entries slots data)
    (base' : IsBase C start entries slots' data') : slots = slots' ∧ data = data' := by
  have same : slots = slots' := Except.ok.inj (base.count.symm.trans base'.count)
  subst same
  obtain ⟨index, ran, rfl⟩ := base.placed
  obtain ⟨index', ran', rfl⟩ := base'.placed
  rw [ran] at ran'
  cases ran'
  exact ⟨rfl, rfl⟩

/-- There is a slot for every entry. -/
theorem exists_placed (C : Crates) (start : Nat) (count : baseSlotCount entries.length = .ok slots) :
    ∃ index, placeAll C slots (List.replicate slots (0, 0))
      (start + (baseHeader + slots * slotSize)) entries = .ok index := by
  obtain ⟨enough, power⟩ := baseSlotCount_eq_ok count
  have power' : slots ≠ 0 → ∃ k ≤ 64, slots = 2 ^ k := fun some => by
    obtain ⟨k, below, same⟩ := power some
    exact ⟨k, by omega, same⟩
  exact (allocated_empty C slots).placeAll_ok power'
    (show start + (baseHeader + slots * slotSize) ≠ 0 by unfold baseHeader; omega) nofun
    (show [].length + entries.length ≤ slots by simpa using enough)

/-- The size of the segment of these entries. -/
def segmentSize (slots : Nat) (entries : List Entry) : Nat :=
  baseHeader + slots * slotSize + totalSize entries +
    divCeil (baseHeader + slots * slotSize + totalSize entries) checksumBlockSize * 4 +
    checksumFooterSize

/-- Entries that fit have a Base. -/
theorem exists_isBase (C : Crates) (count : baseSlotCount entries.length = .ok slots)
    (valid : ∀ entry ∈ entries, ValidEntry entry)
    (word : start + (baseHeader + slots * slotSize + totalSize entries) < 2 ^ 64)
    (size : segmentSize slots entries < 2 ^ 64) : ∃ data, IsBase C start entries slots data := by
  obtain ⟨index, ran⟩ := exists_placed C start count
  have length := (Laid.of_placeAll (baseSlotCount_eq_ok count).2 ran valid word).length
  exact ⟨_, count, valid, ⟨index, ran, rfl⟩, by rw [length]; exact word,
    by rw [segmentBytes_length, length]; exact size⟩

theorem IsBase.segmentSize (base : IsBase C start entries slots data) :
    (segmentBytes data).length = Lkv.segmentSize slots entries := by
  rw [segmentBytes_length, base.length, Lkv.segmentSize]

theorem IsBase.segmentLayout (base : IsBase C start entries slots data) :
    Lkv.segmentLayout (segmentBytes data) = .ok ⟨data, (blockChecksums data).flatMap (leBytes 4)⟩ := by
  have size := base.size
  rw [segmentBytes_length] at size
  exact segmentLayout_written (blockChecksums_length data) (by rw [blockChecksums_length]; exact size)

end Base

end Lkv
