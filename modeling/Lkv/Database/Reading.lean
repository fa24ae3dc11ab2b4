/-
# Lkv.Database.Reading — reading a Base of any bytes

What a view needs so that no read of it can panic (`Readable`): the segment has a layout,
its header names a hash index inside the data, and the index of the overlay decodes.  The
verifier is then in one of the states `Verifies` describes, and every read leaves it in
another one, whether the read succeeds or not.  `verify` decides whether the segment
passes the full check, whatever has been read before (`wp_verify`).
-/
import Lkv.Database.Handle
import Lkv.Database.Opening

namespace Lkv

open Lkv.Theory Lkv.Theory.Prog SegmentVerifier

set_option autoImplicit false

/-! ## The verifier and the blocks -/

section Blocks

variable {bytes : Bytes} {layout : SegmentLayout} {v : SegmentVerifier}

theorem checksumWords_get (table : Bytes) {b : Nat} (below : b < table.length / 4) :
    (checksumWords table)[b]? = some (leNat (window table (b * 4) 4)) := by
  rw [checksumWords, List.getElem?_map, List.getElem?_range below, Nat.mul_comm]
  rfl

theorem checksumWords_length (table : Bytes) : (checksumWords table).length = table.length / 4 := by
  rw [checksumWords, List.length_map, List.length_range]

theorem LaidOut.append (laid : LaidOut bytes layout) :
    ∃ rest, bytes = layout.data ++ rest ∧ layout.data.length ≤ bytes.length := by
  have size := laid.size
  refine ⟨bytes.drop layout.data.length, ?_, by omega⟩
  conv_rhs =>
    lhs
    rw [← laid.data]
  rw [List.take_append_drop]

/-- What the verifier of a layout remembers of a block is a fact about the layout. -/
theorem matches_of_layout (laid : LaidOut bytes layout) (size : v.dataSize = layout.data.length)
    (table : v.checksums = checksumWords layout.checksums) {b : Nat}
    (below : b < divCeil layout.data.length checksumBlockSize) :
    v.Matches bytes b ↔ (crc32c (dataBlock layout.data b)).toNat =
      leNat (window layout.checksums (b * 4) 4) := by
  obtain ⟨rest, rfl, -⟩ := laid.append
  rw [Matches, table, size, blockOf_eq, checksumWords_get _ (by rw [laid.table]; omega),
    Option.some_inj, eq_comm]

theorem allMatch_of_layout (laid : LaidOut bytes layout) (size : v.dataSize = layout.data.length)
    (table : v.checksums = checksumWords layout.checksums) :
    AllMatch bytes v ↔ BlocksMatch layout := by
  have count : v.checksums.length = divCeil layout.data.length checksumBlockSize := by
    rw [table, checksumWords_length, laid.table, Nat.mul_div_cancel _ (by decide)]
  unfold AllMatch BlocksMatch
  rw [count]
  exact forall₂_congr fun b below => matches_of_layout laid size table below

theorem sound_of_layout (laid : LaidOut bytes layout) (offset : Nat) {full : Bool}
    (trusted : full = true → BlocksMatch layout) :
    Sound bytes (SegmentVerifier.new offset layout full) := by
  have size := laid.size
  refine sound_new (by omega) (by rw [laid.table, Nat.mul_div_cancel _ (by decide)]) ?_
  intro on b below
  rw [laid.table, Nat.mul_div_cancel _ (by decide)] at below
  exact (matches_of_layout laid rfl rfl below).mpr (trusted on b below)

end Blocks

/-! ## Point reads -/

section Lookup

variable {mapping key : Bytes} {v : SegmentVerifier} {start slots keyHash : Nat}

/-- After a read: the verifier is sound and of the same segment. -/
def Kept (mapping : Bytes) (v v' : SegmentVerifier) : Prop := Sound mapping v' ∧ Same v v'

/-- The read ended in an error, the verifier is kept. -/
def Refuses (mapping : Bytes) (v : SegmentVerifier) (e : Stop) (v' : SegmentVerifier) : Prop :=
  Kept mapping v v' ∧ ∃ error, e = .err error

theorem Kept.trans {v' v'' : SegmentVerifier} (one : Kept mapping v v') (two : Kept mapping v' v'') :
    Kept mapping v v'' :=
  ⟨two.1, one.2.trans two.2⟩

theorem Kept.refuses {v' v'' : SegmentVerifier} {e : Stop} (one : Kept mapping v v')
    (two : Refuses mapping v' e v'') : Refuses mapping v e v'' :=
  ⟨one.trans two.1, two.2⟩

theorem wp_verifyRange_any (sound : Sound mapping v) (first stop : Nat) :
    wp (verifyRange mapping first stop) (fun _ v' => Kept mapping v v') (Refuses mapping v) v :=
  wp_mono (wp_verifyRange sound) (fun _ _ post => ⟨post.1, post.2.1⟩)
    fun _ _ post => ⟨⟨post.1, post.2.1⟩, post.2.2.1⟩

theorem wp_verifyOnReadRange_any (sound : Sound mapping v) (verifyOnRead : Bool)
    (first stop : Nat) :
    wp (verifyOnReadRange verifyOnRead mapping first stop) (fun _ v' => Kept mapping v v')
      (Refuses mapping v) v :=
  wp_onlyIf (fun _ => wp_verifyRange_any sound first stop) fun _ => ⟨sound, Same.refl v⟩

/-- A record is sliced only where it was found to lie inside. -/
theorem wp_probeRecord_any (sound : Sound mapping v) (verifyOnRead : Bool) (absoluteOffset : Nat) :
    wp (probeRecord mapping verifyOnRead start key absoluteOffset) (fun _ v' => Kept mapping v v')
      (Refuses mapping v) v := by
  have here : Kept mapping v v := ⟨sound, Same.refl v⟩
  refine wp_bind (wp_state ?_)
  dsimp only
  split
  · exact wp_pure here
  split
  · exact wp_pure here
  split
  · exact wp_pure here
  split
  · exact wp_pure here
  split
  · exact wp_pure here
  split
  · exact wp_pure here
  refine wp_bind (wp_mono (wp_verifyOnReadRange_any sound _ _ _) ?_ fun _ _ => id)
  intro _ v' kept
  split
  · exact wp_pure kept
  · exact wp_pure kept

theorem wp_lookupFrom_any (sound : Sound mapping v) (some : slots ≠ 0)
    (table : baseHeader + slots * slotSize ≤ mapping.length) (verifyOnRead : Bool)
    (count probe : Nat) :
    wp (lookupFrom mapping verifyOnRead start slots key keyHash count probe)
      (fun _ v' => Kept mapping v v') (Refuses mapping v) v := by
  induction count generalizing v probe with
  | zero => exact wp_pure ⟨sound, Same.refl v⟩
  | succ count ih =>
      -- the mask keeps the slot inside the index
      have slot := @Nat.and_le_right ((keyHash + probe) % 2 ^ 64) (slots - 1)
      rw [lookupFrom]
      generalize ((keyHash + probe) % 2 ^ 64) &&& (slots - 1) = i at slot
      have inside : baseHeader + i * slotSize + slotSize ≤ mapping.length := by
        unfold slotSize at *
        omega
      refine wp_bind (wp_mono (wp_verifyOnReadRange_any sound _ _ _) ?_ fun _ _ => id)
      intro _ v₁ one
      unfold slotSize at *
      rw [u32At_ok (by omega), u64At_ok (by omega)]
      refine wp_bind (wp_lift_ok ?_)
      refine wp_bind (wp_lift_ok ?_)
      split
      · exact wp_pure one
      split
      · refine wp_bind (wp_mono (wp_probeRecord_any one.1 _ _) ?_ fun _ _ => one.refuses)
        intro found v₂ two
        cases found with
        | some result => exact wp_pure (one.trans two)
        | none =>
            exact wp_mono (@ih v₂ two.1 (probe + 1)) (fun _ _ => (one.trans two).trans)
              fun _ _ => (one.trans two).refuses
      · exact wp_mono (@ih v₁ one.1 (probe + 1)) (fun _ _ => one.trans) fun _ _ => one.refuses

theorem wp_lookupSegment_any (sound : Sound mapping v)
    (table : baseHeader + slots * slotSize ≤ mapping.length) (verification : VerificationMode) :
    wp (lookupSegment mapping verification start slots key keyHash)
      (fun _ v' => Kept mapping v v') (Refuses mapping v) v := by
  unfold lookupSegment
  split
  · exact wp_pure ⟨sound, Same.refl v⟩
  · rename_i some
    exact wp_bind (wp_state (wp_lookupFrom_any sound some table _ _ _))

end Lookup

/-! ## A view that can be read -/

/-- What no read of the view changes: the layout of its segment, the header and an overlay
whose records decode. -/
structure Readable (f : File) (view : ReadView) (len : Nat) (layout : SegmentLayout) : Prop where
  laid : segmentLayout (view.base.mapping.deref f) = .ok layout
  size : view.base.dataSize = layout.data.length
  header : readBaseHeader layout.data = .ok (view.base.slots, len)
  word : view.base.offset + (view.base.mapping.deref f).length < 2 ^ 64
  overlay : ∃ ops, view.overlay.Decodes f ops

/-- The states of the verifier. -/
structure Verifies (C : Crates) (f : File) (view : ReadView) (len : Nat) (layout : SegmentLayout)
    (v : SegmentVerifier) : Prop where
  size : v.dataSize = layout.data.length
  table : v.checksums = checksumWords layout.checksums
  sound : v.Sound (view.base.mapping.deref f)
  semantic : v.semanticallyVerified = true →
    validateBase C layout.data view.base.offset view.base.slots len = .ok ()

section View

variable {C : Crates} {f : File} {view : ReadView} {len : Nat} {layout : SegmentLayout}
variable {v v' : SegmentVerifier}

theorem Verifies.kept (verifies : Verifies C f view len layout v)
    (kept : Kept (view.base.mapping.deref f) v v') : Verifies C f view len layout v' where
  size := kept.2.dataSize.trans verifies.size
  table := kept.2.checksums.trans verifies.table
  sound := kept.1
  semantic on := verifies.semantic (kept.2.semantic ▸ on)

namespace Readable

variable (readable : Readable f view len layout)

include readable

theorem laidOut : LaidOut (view.base.mapping.deref f) layout := segmentLayout_laidOut readable.laid

theorem data_le : layout.data.length ≤ (view.base.mapping.deref f).length := by
  have size := readable.laidOut.size
  omega

theorem table : baseHeader + view.base.slots * slotSize ≤ layout.data.length :=
  readBaseHeader_table readable.header

theorem wp_get (verifies : Verifies C f view len layout v) (key : Bytes) :
    wp (view.get C f key) (fun _ v' => Verifies C f view len layout v')
      (fun e v' => Verifies C f view len layout v' ∧ ∃ error, e = .err error) v := by
  obtain ⟨ops, decodes⟩ := readable.overlay
  have inside := readable.data_le
  have table := readable.table
  unfold ReadView.get
  rw [OverlayMap.getHashed_eq decodes]
  refine wp_bind (wp_lift ?_ nofun)
  rintro _ ⟨⟩
  split
  · exact wp_pure verifies
  · exact wp_mono (wp_lookupSegment_any verifies.sound (by omega) _) (fun _ _ => verifies.kept)
      fun _ _ post => ⟨verifies.kept post.1, post.2⟩

/-! ### Iteration -/

/-- The walk over the records of a Base that passed the semantic check ends well. -/
theorem walk_of_semantic (valid : validateBase C layout.data view.base.offset view.base.slots len = .ok ()) :
    (walkBase (view.base.mapping.deref f) view.base.dataSize len
      (baseHeader + view.base.slots * slotSize)).2 = none := by
  obtain ⟨entries, rfl, shape⟩ := validateBase_eq_ok.mp valid
  obtain ⟨rest, bytes, -⟩ := readable.laidOut.append
  rw [bytes, readable.size, walkBase_append, walkBase_of_walk le_rfl shape.word shape.walk]

end Readable

/-- An iterator that returns `none` after fewer than `n` more items. -/
inductive Live (f : File) (it : RawEntries) (n : Nat) : Prop
  | running {walked : List (Nat × Entry)} {error : Option Error} {ops visited : List Operation}
      (iterates : Iterates f it walked error ops visited)
      (few : (itemsOf walked error ops visited).length + error.toList.length < n)
  | done (finished : it.finished = true) (pending : it.pendingError = none) (few : 0 < n)

theorem Live.pos {it : RawEntries} {n : Nat} (live : Live f it n) : 0 < n := by
  cases live with
  | running _ few => omega
  | done _ _ few => exact few

/-- `bound` is enough to run an iterator to its end. -/
theorem Live.bound {it : RawEntries} {n : Nat} (live : Live f it n) : Live f it it.bound := by
  cases live with
  | @running walked error ops visited iterates _ =>
      have enough := iterates.length_le
      have one : error.toList.length ≤ 1 := by cases error <;> simp
      exact .running iterates (by omega)
  | done finished pending _ => exact .done finished pending (by unfold RawEntries.bound; omega)

section Iteration

variable {it : RawEntries} {n : Nat} (readable : Readable f view len layout)
variable (verifies : Verifies C f view len layout v)
include readable verifies

/-- One step: an item or an error uses up a step, and the iterator goes on. -/
theorem wp_next (live : Live f it n) (base : it.base = view.base) :
    wp (Entries.next f view it)
      (fun r v' => Verifies C f view len layout v' ∧ r.2.base = view.base ∧
        ∃ m, Live f r.2 m ∧ (r.1 ≠ none → m < n))
      (fun _ _ => False) v := by
  have pos := live.pos
  unfold Entries.next
  cases live with
  | done finished pending few =>
      have ends : it.next f = .ok (none, it) := by rw [RawEntries.next, if_pos finished]
      rw [ends]
      refine wp_bind (wp_lift_ok ?_)
      dsimp only
      rw [pending]
      exact wp_pure ⟨verifies, base, n, .done finished pending few, fun some => absurd rfl some⟩
  | @running walked error ops visited iterates few =>
      have step := next_spec iterates
      cases items : itemsOf walked error ops visited with
      | nil =>
          rw [items] at step few
          obtain ⟨it', read, finished, pending, -⟩ := step
          have base' : it'.base = view.base := (next_keeps read).1.trans base
          rw [read]
          refine wp_bind (wp_lift_ok ?_)
          dsimp only
          rw [pending]
          cases error with
          | none => exact wp_pure ⟨verifies, base', n, .done finished pending pos, fun some => absurd rfl some⟩
          | some failure =>
              refine wp_pure ⟨verifies, base', 1, .done finished rfl Nat.one_pos, fun _ => ?_⟩
              simp at few
              omega
      | cons item rest =>
          have member : item ∈ itemsOf walked error ops visited := by simp [items]
          have inside : ∀ start stop, item.range = some (start, stop) →
              start ≤ stop ∧ stop ≤ v.dataSize := by
            intro start stop range
            rw [verifies.size, ← readable.size, ← base]
            exact item_inside iterates.inside iterates.word iterates.walk member range
          rw [items] at step few
          obtain ⟨it', walked', visited', read, iterates', restIs, base', -⟩ := step
          rw [read]
          refine wp_bind (wp_lift_ok ?_)
          refine wp_bind (wp_mono (wp_verifyPair _ rfl (fun _ => verifies.sound) inside) ?_
            fun _ _ => id)
          rintro r v' ⟨sound, same, -⟩
          have next : Live f it' (n - 1) := .running iterates' (by
            rw [restIs]
            rw [List.length_cons] at few
            omega)
          have verifies' := verifies.kept ⟨sound verifies.sound, same⟩
          cases r with
          | ok _ => exact wp_pure ⟨verifies', base'.trans base, n - 1, next, fun _ => by omega⟩
          | error _ => exact wp_pure ⟨verifies', base'.trans base, n - 1, next, fun _ => by omega⟩

/-- Draining ends. -/
theorem wp_drain_any (live : Live f it n) (base : it.base = view.base)
    {fuel : Nat} (enough : n ≤ fuel) :
    wp (Entries.drain f view fuel it) (fun _ v' => Verifies C f view len layout v')
      (fun _ _ => False) v := by
  induction fuel generalizing it n v with
  | zero => exact absurd live.pos (by omega)
  | succ fuel ih =>
      refine wp_bind (wp_mono (wp_next readable verifies live base) ?_ fun _ _ => id)
      rintro ⟨found, it'⟩ v' ⟨verifies', base', m, live', fewer⟩
      cases found with
      | none => exact wp_pure verifies'
      | some item =>
          have less : m < n := fewer nofun
          refine wp_bind (wp_mono (ih verifies' live' base' (by omega)) ?_ fun _ _ => id)
          exact fun _ _ post => wp_pure post

/-- Counting ends, in an error if it meets one. -/
theorem wp_tryCount_any (live : Live f it n) (base : it.base = view.base)
    {fuel : Nat} (enough : n ≤ fuel) (count : Nat) :
    wp (Entries.tryCount f view fuel it count) (fun _ v' => Verifies C f view len layout v')
      (fun e v' => Verifies C f view len layout v' ∧ ∃ error, e = .err error) v := by
  induction fuel generalizing it n v count with
  | zero => exact absurd live.pos (by omega)
  | succ fuel ih =>
      refine wp_bind (wp_mono (wp_next readable verifies live base) ?_ fun _ _ => False.elim)
      rintro ⟨found, it'⟩ v' ⟨verifies', base', m, live', fewer⟩
      cases found with
      | none => exact wp_pure verifies'
      | some item =>
          have less : m < n := fewer nofun
          cases item with
          | error failure => exact wp_stop ⟨verifies', failure, rfl⟩
          | ok pair =>
              refine wp_bind (wp_lift ?_ fun e failed => ?_)
              · intro next _
                exact ih verifies' live' base' (by omega) next
              · obtain ⟨error, rfl⟩ := noPanic_orFail _ e failed
                exact ⟨verifies', error, rfl⟩

/-- The iterator that a read begins with. -/
theorem iterates_any : ∃ walked error ops visited,
      Iterates f (RawEntries.new C view v.semanticallyVerified len) walked error ops visited := by
  obtain ⟨ops, decodes⟩ := readable.overlay
  obtain ⟨visited, -, visits⟩ := OverlayMap.iter_decodes C decodes
  have inside := readable.data_le
  have word := readable.word
  rw [← readable.size] at inside
  exact ⟨_, _, ops, visited, iterates_new C inside (by omega) rfl
    (fun on => readable.walk_of_semantic (verifies.semantic on)) decodes visits⟩

theorem live_new : Live f (RawEntries.new C view v.semanticallyVerified len)
      (RawEntries.new C view v.semanticallyVerified len).bound := by
  obtain ⟨walked, error, ops, visited, iterates⟩ := iterates_any readable verifies
  exact (Live.running iterates (Nat.lt_succ_self _)).bound

theorem rawLen_noPanic : NoPanic ((RawEntries.new C view v.semanticallyVerified len).rawLen f) := by
  obtain ⟨walked, error, ops, visited, iterates⟩ := iterates_any readable verifies
  have enough := iterates.length_le
  obtain ⟨it', ran, pending⟩ := count_spec iterates 0
    (show _ < (RawEntries.new C view v.semanticallyVerified len).bound by omega)
  rw [RawEntries.rawLen, ran, ok_bind]
  dsimp only
  rw [pending]
  cases error with
  | none => exact noPanic_ok
  | some failure => exact noPanic_fail

end Iteration

/-! ### The full check -/

/-- What `verify` checks, in terms of the bytes alone. -/
structure PassesFull (C : Crates) (base : ActiveBase) (bytes : Bytes) (layout : SegmentLayout) : Prop where
  metadata : (crc32c (bytes.drop layout.data.length)).toNat = base.checksum
  blocks : BlocksMatch layout
  valid : validateBase C layout.data base.offset base.slots base.len = .ok ()

/-- `verify` decides whether the segment passes, whatever the verifier remembers. -/
theorem wp_verify (readable : Readable f view len layout) {base : ActiveBase}
    (shown : view.base = ⟨base.mapping, base.offset, base.slots, view.base.dataSize⟩)
    (length : base.len = len) (verifies : Verifies C f view len layout v) :
    wp (base.verify C f)
      (fun _ v' => Verifies C f view len layout v' ∧
        PassesFull C base (base.mapping.deref f) layout)
      (fun e v' => Verifies C f view len layout v' ∧ (∃ error, e = .err error) ∧
        ¬PassesFull C base (base.mapping.deref f) layout) v := by
  subst length
  have mapping : base.mapping = view.base.mapping := by rw [shown]
  have offset : base.offset = view.base.offset := by rw [shown]
  have slots : base.slots = view.base.slots := by rw [shown]
  have inside := readable.data_le
  have word := readable.word
  have table := readable.table
  have all := allMatch_of_layout readable.laidOut verifies.size verifies.table
  have checksum : segmentMetadataChecksum (view.base.mapping.deref f) =
      .ok (crc32c ((view.base.mapping.deref f).drop layout.data.length)).toNat := by
    rw [segmentMetadataChecksum, readable.laid]
    rfl
  unfold ActiveBase.verify
  simp only [mapping, readable.laid, checksum]
  refine wp_bind (wp_lift_ok ?_)
  refine wp_bind (wp_lift_ok ?_)
  split
  · rename_i differs
    exact wp_stop ⟨verifies, ⟨_, rfl⟩, fun passes => differs passes.metadata⟩
  rename_i metadata
  rw [ne_eq, not_not] at metadata
  refine wp_bind (wp_mono (wp_verifyRange verifies.sound) ?_ ?_)
  · rintro _ v' ⟨sound, same, matched⟩
    have verifies' := verifies.kept ⟨sound, same⟩
    have blocks : BlocksMatch layout := all.mp fun b below => matched b below (by
      have count : v.checksums.length = divCeil layout.data.length checksumBlockSize := by
        rw [verifies.sound.table, verifies.size]
      unfold baseHeader at table
      unfold Meets
      unfold divCeil at count
      unfold checksumBlockSize at *
      omega)
    refine wp_bind (wp_state ?_)
    split
    · rename_i on
      refine wp_pure ⟨verifies', metadata, blocks, ?_⟩
      rw [offset, slots]
      exact verifies'.semantic on
    · refine wp_bind (wp_lift ?_ ?_)
      · intro _ valid
        refine wp_modify ⟨⟨verifies'.size, verifies'.table, ?_, fun _ => ?_⟩, metadata, blocks, valid⟩
        · exact { verifies'.sound with }
        · rw [← offset, ← slots]
          exact valid
      · intro e refused
        obtain ⟨error, rfl⟩ := validateBase_noPanic (by rw [offset]; omega) e refused
        refine ⟨verifies', ⟨error, rfl⟩, fun passes => ?_⟩
        rw [passes.valid] at refused
        cases refused
  · rintro e v' ⟨sound, same, failed, refused⟩
    refine ⟨verifies.kept ⟨sound, same⟩, failed, fun passes => refused ⟨Nat.zero_le _, ?_, ?_⟩⟩
    · rw [verifies.size]
    · intro b meets
      refine all.mpr passes.blocks b ?_
      rw [verifies.sound.table, verifies.size]
      exact lt_of_le_of_lt meets.2.2 (block_lt (by have := meets.1; omega) le_rfl)

end View

end Lkv
