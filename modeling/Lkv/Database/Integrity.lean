/-
# Lkv.Database.Integrity — what the full check buys

Does a Base that passed the full check have a usable index?  Not always:
`validateBase` never asks that the slots before a record's slot be occupied,
and a lookup stops at the first empty one (`validated_index_misses_a_record`).
`usableIndex_iff` gives the exact condition.
-/
import Lkv.Database.Iteration

namespace Lkv

open Lkv.Theory Lkv.Theory.Prog Dictionary SegmentVerifier

set_option autoImplicit false

/-! ## The index of a validated Base -/

/-- A view of Base data, followed by its checksum table, under an empty overlay. -/
def bareView (data rest : Bytes) (start slots : Nat) (verification : VerificationMode) : ReadView :=
  ⟨⟨.memory (data ++ rest), start, slots, data.length⟩, .mapped none [] [], verification⟩

/-- Iteration yields pairs, the index finds each of them, and it finds nothing else. -/
def UsableIndex (C : Crates) (data rest : Bytes) (start slots len : Nat)
    (verification : VerificationMode) (v : SegmentVerifier) : Prop :=
  ∃ pairs : List Entry,
    ((bareView data rest start slots verification).iterAll C File.empty len v).1 =
      .ok (pairs.map .ok) ∧
    (∀ pair ∈ pairs, (lookupSegment (data ++ rest) verification start slots pair.1
      (C.hash pair.1) v).1 = .ok (some pair.2)) ∧
    ∀ key, (∀ pair ∈ pairs, pair.1 ≠ key) →
      (lookupSegment (data ++ rest) verification start slots key (C.hash key) v).1 = .ok none

/-- The state a Full open or a successful `verify` leaves the verifier in. -/
def FullyChecked (mapping : Bytes) (verification : VerificationMode) (v : SegmentVerifier) : Prop :=
  verification = .full ∨ v.fullyVerified = true ∧ v.Sound mapping

section Validated

variable {C : Crates} {data rest : Bytes} {start slots len : Nat}
variable {verification : VerificationMode} {v : SegmentVerifier} {entries : List Entry}

theorem FullyChecked.unchecked {mapping : Bytes} (checked : FullyChecked mapping verification v) :
    checksOnRead verification v = false := by
  rcases checked with rfl | ⟨full, _⟩
  · rfl
  · simp [checksOnRead, full]

theorem FullyChecked.allMatch {mapping : Bytes} (checked : FullyChecked mapping verification v)
    (mode : verification = .onRead) : v.Sound mapping ∧ AllMatch mapping v := by
  rcases checked with rfl | ⟨full, sound⟩
  · cases mode
  · exact ⟨sound, fun b below => sound.marked b below (sound.full full b below)⟩

/-- A checked reader gets what the index says. -/
theorem lookupSegment_checked (checked : FullyChecked (data ++ rest) verification v)
    (size : v.dataSize = data.length) (word : data.length < 2 ^ 64)
    (pointed : Pointed data start slots) (key : Bytes) :
    (lookupSegment (data ++ rest) verification start slots key (C.hash key) v).1 =
      .ok (baseGet C data start slots key) := by
  have off := checked.unchecked
  have guarded : Guarded data (data ++ rest) (checksOnRead verification v) v := by
    rw [off]
    exact ⟨size, by simp, fun _ i below => List.getElem?_append_left below, nofun, nofun⟩
  have roomy : Roomy data (checksOnRead verification v) := by
    rw [off]
    exact ⟨word, nofun⟩
  obtain ⟨v', ran, _⟩ := lookupSegment_eq C guarded roomy pointed
    (fun on => by rw [off] at on; cases on) key
  rw [ran]

theorem iterAll_checked (shape : BaseShape C data start slots entries)
    (checked : FullyChecked (data ++ rest) verification v) (size : v.dataSize = data.length) :
    ((bareView data rest start slots verification).iterAll C File.empty entries.length v).1 =
      .ok (entries.map .ok) := by
  have walk : Walk (data ++ rest) data.length (baseHeader + slots * slotSize) entries data.length :=
    ⟨fun p member => (shape.walk.records p member).congr
      (fun i _ below => (List.getElem?_append_left
        (lt_of_lt_of_le below (shape.walk.records p member).inside)).symm)
      (shape.walk.records p member).inside, shape.walk.stop_eq⟩
  have walked : walkBase
      ((bareView data rest start slots verification).base.mapping.deref File.empty) data.length
      entries.length (baseHeader + slots * slotSize) =
      (placed (baseHeader + slots * slotSize) entries, none) :=
    walkBase_of_walk (by simp [bareView, BaseBytes.deref]) shape.word walk
  have decodes : (bareView data rest start slots verification).overlay.Decodes File.empty [] :=
    ⟨[], .nil, rfl⟩
  obtain ⟨visited, perm, visits⟩ := OverlayMap.iter_decodes C decodes
  cases List.perm_nil.mp perm
  obtain ⟨v', ran, _⟩ := iterAll_eq C
    (by simp [bareView, BaseBytes.deref]) shape.word walked decodes visits size
    (fun mode => (checked.allMatch mode).1) (fun mode => (checked.allMatch mode).2)
  rw [ran]
  simp only [itemsOf, shadows, latest, List.find?_nil, Option.map_none, Option.isSome_none,
    Bool.not_false, List.filter_true, liveOps, List.filterMap_nil, List.map_nil, List.append_nil,
    Bool.false_eq_true, if_false, List.map_map]
  conv_rhs => rw [← placed_map_snd (baseHeader + slots * slotSize) entries, List.map_map]
  rfl

/-- The index of a validated Base is usable exactly when no probe path is interrupted. -/
theorem usableIndex_iff (C : Crates) (data rest : Bytes) (start slots len : Nat)
    (verification : VerificationMode) (v : SegmentVerifier)
    (header : readBaseHeader data = .ok (slots, len))
    (accepted : validateBase C data start slots len = .ok ())
    (size : v.dataSize = data.length) (checked : FullyChecked (data ++ rest) verification v) :
    UsableIndex C data rest start slots len verification v ↔ ProbePaths C data start slots := by
  obtain ⟨entries, rfl, shape⟩ := validateBase_eq_ok.mp accepted
  have pointed := shape.pointed (power_of_readBaseHeader header)
  have get := fun key => lookupSegment_checked (C := C) checked size shape.word pointed key
  have pairs := iterAll_checked shape checked size
  rw [← shape.get_all_iff]
  constructor
  · rintro ⟨pairs', iterated, found, _⟩ entry listed
    have same : pairs' = entries := by
      rw [iterated, Except.ok.injEq] at pairs
      exact List.map_injective_iff.mpr (fun _ _ => Except.ok.inj) pairs
    have := found entry (same ▸ listed)
    rwa [get, Except.ok.injEq] at this
  · intro all
    refine ⟨entries, pairs, fun entry listed => ?_, fun key absent => ?_⟩
    · rw [get, all entry listed]
    · rw [get, shape.get_none absent]

end Validated

/-- A hash function under which every key has home slot 0. -/
def zeroHash : Crates := ⟨fun _ => 0, fun entries => entries, fun entries => .refl entries⟩

/-- Two slots, the first empty; the only record, of key 1, sits in the second. -/
def gappedBase : Bytes :=
  hashSectionId ++ leBytes 4 baseHeader ++ leBytes 8 2 ++ leBytes 8 1 ++
    leBytes 12 0 ++ leBytes 4 0 ++ leBytes 8 (dataStart + 48) ++
    leBytes 4 1 ++ leBytes 4 1 ++ [1, 2]

/-- The Base passes the full check and iteration shows the record of key 1, but a
lookup stops at the empty home slot. -/
theorem validated_index_misses_a_record :
    readBaseHeader gappedBase = .ok (2, 1) ∧
      validateBase zeroHash gappedBase dataStart 2 1 = .ok () ∧
      ((bareView gappedBase [] dataStart 2 .full).iterAll zeroHash File.empty 1
        (SegmentVerifier.new dataStart ⟨gappedBase, []⟩ true)).1 = .ok [.ok ([1], [2])] ∧
      (lookupSegment gappedBase .full dataStart 2 [1] (zeroHash.hash [1])
        (SegmentVerifier.new dataStart ⟨gappedBase, []⟩ true)).1 = .ok none := by
  decide +kernel

/-- The same record in its home slot. -/
def denseBase : Bytes :=
  hashSectionId ++ leBytes 4 baseHeader ++ leBytes 8 2 ++ leBytes 8 1 ++
    leBytes 4 0 ++ leBytes 8 (dataStart + 48) ++ leBytes 12 0 ++
    leBytes 4 1 ++ leBytes 4 1 ++ [1, 2]

theorem denseBase_usable :
    UsableIndex zeroHash denseBase [] dataStart 2 1 .full
        (SegmentVerifier.new dataStart ⟨denseBase, []⟩ true) ↔
      ProbePaths zeroHash denseBase dataStart 2 :=
  usableIndex_iff zeroHash denseBase [] dataStart 2 1 .full
    (SegmentVerifier.new dataStart ⟨denseBase, []⟩ true) (by decide +kernel) (by decide +kernel) rfl
    (.inl rfl)

end Lkv
