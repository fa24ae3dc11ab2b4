/-
# Lkv.System.Counting — how many entries an iteration has

The raw iterator looks at the structure of the Base records, `Entries` also at the checksums
of the blocks they lie in.  Three questions about the two:

* Does a compaction see every entry?  The writer takes the raw iterator without asking for
  its error.  On a Base that passed `verify`, or that the writer itself has written, there is
  none (`raw_entries_complete`).
* Does `Database::len`, which counts the raw iterator, agree with `Snapshot::len`, which
  counts `Entries`?  Only if no damaged block lies under a record (`lens_agree_iff`,
  `raw_len_counts_damage`).
* Is `size_hint` an upper bound?  Not where the last item is the error that the records do not
  fill the data, and not where its sum is too large (`size_hint_honest_iff`,
  `size_hint_misses_the_error`).
-/
import Lkv.System.Untrusted

namespace Lkv
open Lkv.Theory Lkv.Theory.Prog Dictionary Readers SegmentVerifier

set_option autoImplicit false

/-! ## The walk over a view -/

/-- The records that an iteration over the view walks over. -/
def ReadView.walk (view : ReadView) (f : File) (len : Nat) : List (Nat × Entry) × Option Error :=
  walkBase (view.base.mapping.deref f) view.base.dataSize len (baseHeader + view.base.slots * slotSize)

theorem Crafted.walk {data : Bytes} {checksums : List Nat} {len : Nat} {db : Database} {d : Disk}
    (crafted : Crafted data checksums len db d) :
    db.readView.walk d.file db.base.len = walkBase data data.length len baseHeader := by
  show walkBase (db.base.mapping.deref d.file) db.base.verifier.dataSize db.base.len
    (baseHeader + db.base.slots * slotSize) = _
  rw [crafted.deref, crafted.size, crafted.len, crafted.slots, craftedSegment, walkBase_append]
  rfl

theorem soleRecord_walk :
    walkBase soleRecord soleRecord.length 1 baseHeader = ([(24, ([1], [2]))], none) := by
  decide

/-- The overlay of a handle, replaced. -/
def Database.withOverlay (db : Database) (index : OverlayMap) : Database :=
  { db with overlay := { db.overlay with index := index } }

section Start

variable {C : Crates} {f : File} {view : ReadView} {len : Nat} {layout : SegmentLayout}
variable {v : SegmentVerifier} {ops visited : List Operation}

theorem Readable.inside (readable : Readable f view len layout) :
    view.base.dataSize ≤ (view.base.mapping.deref f).length := by
  rw [readable.size]
  exact readable.data_le

theorem Readable.wordSize (readable : Readable f view len layout) : view.base.dataSize < 2 ^ 64 := by
  have inside := readable.inside
  have word := readable.word
  omega

theorem Readable.iterates (readable : Readable f view len layout)
    (verifies : Verifies C f view len layout v) (decodes : view.overlay.Decodes f ops)
    (visits : view.overlay.Visits C f visited) :
    Iterates f (RawEntries.new C view v.semanticallyVerified len) (view.walk f len).1
      (view.walk f len).2 ops visited :=
  iterates_new C readable.inside readable.wordSize rfl
    (fun on => readable.walk_of_semantic (verifies.semantic on)) decodes visits

theorem Visits.length {overlay : OverlayMap} (visits : overlay.Visits C f visited) :
    visited.length = overlay.len := by
  have same : visited.length = (overlay.iter C).length := (List.Forall₂.length_eq visits).symm
  rw [same]
  cases overlay with
  | memory table => simp [OverlayMap.iter, OverlayMap.len, (C.order_perm table).length_eq]
  | mapped bytes table tail =>
      simp [OverlayMap.iter, OverlayMap.len, (C.order_perm table).length_eq, (C.order_perm tail).length_eq]

/-- A record takes at least its header. -/
theorem walkBase_length_data {mapping : Bytes} {dataSize : Nat} (fits : dataSize ≤ mapping.length)
    (word : dataSize < 2 ^ 64) (n offset : Nat) (start : offset ≤ dataSize) :
    offset + (walkBase mapping dataSize n offset).1.length * 8 ≤ dataSize := by
  induction n generalizing offset with
  | zero => simpa [walkBase] using start
  | succ n ih =>
      rw [walkBase]
      split
      · rename_i key value stop read
        obtain ⟨has, ends⟩ := (recordAt_eq_ok fits word).mp read
        have inside := has.inside
        rw [← ends] at inside
        have rest := ih stop inside
        unfold recordSize at ends
        dsimp only at ends ⊢
        rw [List.length_cons]
        omega
      · simpa using start
      · simpa using start

end Start

/-! ## Complete iterations -/

namespace RawEntries

/-- Every item up to the end, and the iterator this leaves. -/
def collect (file : File) : Nat → RawEntries → Res (List Item × RawEntries)
  | 0, _ => .error .diverge
  | fuel + 1, entries => do
      match ← entries.next file with
      | (none, entries) => return ([], entries)
      | (some item, entries) =>
          let (items, entries) ← collect file fuel entries
          return (item :: items, entries)

/-- The iterator has read every record and every overlay entry, and met no error. -/
structure Ended (it : RawEntries) : Prop where
  finished : it.finished = true
  quiet : it.pendingError = none
  records : it.baseRemaining = 0
  overlay : it.rest = []

theorem collect_eq {f : File} {it : RawEntries} {walked : List (Nat × Entry)}
    {ops visited : List Operation} {fuel : Nat} (iterates : Iterates f it walked none ops visited)
    (enough : (itemsOf walked none ops visited).length < fuel) :
    ∃ it', it.collect f fuel = .ok (itemsOf walked none ops visited, it') ∧ it'.Ended := by
  induction items : itemsOf walked none ops visited generalizing it walked visited fuel with
  | nil =>
      obtain ⟨left, rfl⟩ : ∃ left, fuel = left + 1 := ⟨fuel - 1, by omega⟩
      have step := next_spec iterates
      rw [items] at step
      obtain ⟨it', read, finished, quiet, ended⟩ := step
      refine ⟨it', ?_, finished, quiet, (ended rfl).1, (ended rfl).2⟩
      rw [collect, read]
      rfl
  | cons item rest ih =>
      rw [items, List.length_cons] at enough
      obtain ⟨left, rfl⟩ : ∃ left, fuel = left + 1 := ⟨fuel - 1, by omega⟩
      have step := next_spec iterates
      rw [items] at step
      obtain ⟨it', walked', visited', read, iterates', restIs, -⟩ := step
      obtain ⟨last, ran, ended⟩ := ih iterates' (show _ < left by rw [restIs]; omega) restIs
      refine ⟨last, ?_, ended⟩
      rw [collect, read, ok_bind]
      dsimp only
      rw [ran]
      rfl

end RawEntries

/-- A Base that compaction may iterate: it was opened and passed the full check, or the Base
writer wrote it and it was installed.  `g` is any file in which its bytes are still there. -/
inductive TrustedBase (C : Crates) (g : File) : ActiveBase → Prop
  | verified {options : DatabaseOptions} {f : File} {db : Database} {d : Disk} {readers : Readers}
      {h : Handle} (small : f.len < 2 ^ 63)
      (opened : openWithOptions C options (Disk.ofFile f []) = (.ok db, d))
      (reached : Reached C ⟨⟨db, d⟩, [], []⟩ readers)
      (checked : Database.verify C readers.handle = (.ok (), h))
      (kept : h.db.base.mapping.deref g = h.db.base.mapping.deref d.file) :
      TrustedBase C g h.db.base
  | written {ι : Type} {feed : Feed ι} {start len : Nat} {i : ι} {d d' : Disk} {written : WrittenBase}
      {mapping : BaseBytes} {sb : Superblock} {base : ActiveBase}
      (wrote : writeBaseWithMetadataAt C feed start len i d = (.ok written, d'))
      (kept : mapping.deref g = d'.file.slice start written.size)
      (installed : ActiveBase.install g mapping sb = .ok base) : TrustedBase C g base

/-- The walk over a Base finds as many records as it counts, and ends with its data. -/
structure Walked (g : File) (base : ActiveBase) (records : List (Nat × Entry)) : Prop where
  inside : base.verifier.dataSize ≤ (base.mapping.deref g).length
  word : base.verifier.dataSize < 2 ^ 64
  count : records.length = base.len
  walk : walkBase (base.mapping.deref g) base.verifier.dataSize base.len
    (baseHeader + base.slots * slotSize) = (records, none)

section Trusted

variable {C : Crates} {g : File} {base : ActiveBase}

theorem install_eq_ok {mapping : BaseBytes} {sb : Superblock}
    (installed : ActiveBase.install g mapping sb = .ok base) :
    ∃ layout, segmentLayout (mapping.deref g) = .ok layout ∧
      readBaseHeader layout.data = .ok (base.slots, base.len) ∧ base.mapping = mapping ∧
      base.verifier.dataSize = layout.data.length := by
  obtain ⟨layout, laid, installed⟩ := bind_eq_ok.mp installed
  obtain ⟨⟨slots, len⟩, header, installed⟩ := bind_eq_ok.mp installed
  dsimp only at installed
  split at installed
  · cases installed
  · cases installed
    exact ⟨layout, laid, header, rfl, rfl⟩

/-- Records one after another up to the end of the data, whatever follows the data. -/
theorem walked_of_walk {data rest : Bytes} {entries : List Entry}
    (bytes : base.mapping.deref g = data ++ rest) (size : base.verifier.dataSize = data.length)
    (word : data.length < 2 ^ 64) (count : entries.length = base.len)
    (walk : Walk data data.length (baseHeader + base.slots * slotSize) entries data.length) :
    Walked g base (placed (baseHeader + base.slots * slotSize) entries) where
  inside := by
    rw [bytes, size, List.length_append]
    exact Nat.le_add_right _ _
  word := size.trans_lt word
  count := by rw [placed_length, count]
  walk := by rw [bytes, size, walkBase_append, ← count, walkBase_of_walk le_rfl word walk]

theorem TrustedBase.walked (trusted : TrustedBase C g base) : ∃ records, Walked g base records := by
  cases trusted with
  | @verified options f db d readers h small opened reached checked kept =>
      obtain ⟨sb, base, records, rest, recovered⟩ := open_recovered small opened
      obtain ⟨layout, -, -, readable, steady⟩ := recovered.steady small
      have now := reached.goes_on readable steady
      obtain ⟨after, passes⟩ := wp_ok (wp_verify_handle readable now) checked
      obtain ⟨entries, count, shape⟩ := validateBase_eq_ok.mp passes.valid
      obtain ⟨rest, bytes, -⟩ := readable.laidOut.append
      have shown : h.db.readView = db.readView := after.shown
      have held : h.db.base = { base with verifier := h.db.base.verifier } := after.held
      have mapping : h.db.base.mapping = db.readView.base.mapping := congrArg (·.base.mapping) shown
      have slots : h.db.base.slots = base.slots := by rw [held]
      have length : h.db.base.len = base.len := by rw [held]
      have found : h.db.base.mapping.deref g = layout.data ++ rest := by rw [kept, mapping, bytes]
      refine ⟨_, walked_of_walk found after.verifies.size shape.word (count.trans length.symm) ?_⟩
      rw [slots]
      exact shape.walk
  | @written ι feed start len i d d' written mapping sb base wrote kept installed =>
      obtain ⟨entries, slots, data, isBase, rfl, rfl, file, -⟩ :=
        wp_ok (wp_writeBaseWithMetadataAt (P := fun _ => True) d) wrote
      obtain ⟨layout, laid, header, rfl, size⟩ := install_eq_ok installed
      have bytes : base.mapping.deref g = segmentBytes data := by
        rw [kept, file]
        exact (File.holds_write _ _ _).slice_eq rfl
      rw [bytes, isBase.segmentLayout] at laid
      cases laid
      obtain ⟨index, placed, rfl⟩ := isBase.laid
      have same := Except.ok.inj (header.symm.trans placed.header)
      have slotsIs : base.slots = slots := congrArg Prod.fst same
      have lenIs : base.len = entries.length := congrArg Prod.snd same
      have word := isBase.word
      refine ⟨_, walked_of_walk bytes size (by omega) lenIs.symm ?_⟩
      rw [slotsIs]
      exact placed.walk

end Trusted

/-- On a trusted Base, over any overlay, the raw iterator comes to its end without an error.  The
records of the Base fill its data and are as many as it counts; the iterator has read them all and
then every overlay entry, and it yields the records whose key is not in the overlay and the entries
that carry a value.  Reading the records unchecked makes no difference: every range read lies in
the mapping. -/
theorem raw_entries_complete (C : Crates) (g : File) (base : ActiveBase) (trusted : TrustedBase C g base)
    (verification : VerificationMode) (overlay : OverlayMap) (ops : List Operation)
    (decodes : overlay.Decodes g ops) :
    ∃ records visited,
      walkBase (base.mapping.deref g) base.verifier.dataSize base.len
        (baseHeader + base.slots * slotSize) = (records, none) ∧
      records.length = base.len ∧ visited.Perm ops ∧ overlay.Visits C g visited ∧
      ∀ baseTrusted, ∃ it',
        (RawEntries.new C (base.readView overlay verification) baseTrusted base.len).collect g
            (RawEntries.new C (base.readView overlay verification) baseTrusted base.len).bound =
          .ok (itemsOf records none ops visited, it') ∧ it'.Ended := by
  obtain ⟨records, walked⟩ := trusted.walked
  obtain ⟨visited, perm, visits⟩ := OverlayMap.iter_decodes C decodes
  refine ⟨records, visited, walked.walk, walked.count, perm, visits, fun baseTrusted => ?_⟩
  have iterates := @iterates_new g records none ops visited (base.readView overlay verification) C
    baseTrusted base.len walked.inside walked.word walked.walk (fun _ => rfl) decodes visits
  exact RawEntries.collect_eq iterates (by have := iterates.length_le; omega)

/-- What the Base writer makes of a list of entries, installed. -/
theorem exists_trusted {C : Crates} {entries : List Entry} {slots : Nat}
    (count : baseSlotCount entries.length = .ok slots) (valid : ∀ entry ∈ entries, ValidEntry entry)
    (word : dataStart + segmentSize slots entries < 2 ^ 64) :
    ∃ g base, TrustedBase C g base ∧ base.len = entries.length ∧
      walkBase (base.mapping.deref g) base.verifier.dataSize base.len
        (baseHeader + base.slots * slotSize) = (placed (baseHeader + slots * slotSize) entries, none) := by
  have dataWord : dataStart + (baseHeader + slots * slotSize + totalSize entries) < 2 ^ 64 := by
    unfold segmentSize at word
    omega
  obtain ⟨data, isBase⟩ : ∃ data, IsBase C dataStart entries slots data :=
    exists_isBase C count valid dataWord (by omega)
  obtain ⟨d, wrote, file⟩ := writes_ofList isBase (Disk.quiet_ofFile File.empty)
  have bytes : (BaseBytes.mapped dataStart (segmentBytes data).length).deref d.file = segmentBytes data := by
    rw [file]
    exact File.holds_write _ dataStart (segmentBytes data)
  have of := @placedAt_of C 1 dataStart slots entries data isBase (isBase.segmentSize ▸ word)
  have installed := install_written of.isBase bytes of.describes
  refine ⟨d.file, _, .written wrote rfl installed, rfl, ?_⟩
  show walkBase ((BaseBytes.mapped dataStart (segmentBytes data).length).deref d.file) data.length
    entries.length _ = _
  rw [bytes]
  exact isBase.walk_eq

/-- A Base of two records, of which the overlay deletes one and adds another. -/
theorem raw_entries_complete_two : ∃ g base, TrustedBase zeroHash g base ∧ base.len = 2 ∧
    ∃ records visited,
      walkBase (base.mapping.deref g) base.verifier.dataSize base.len
        (baseHeader + base.slots * slotSize) = (records, none) ∧
      records.map Prod.snd = [([1], [2]), ([5], [6])] ∧
      ∀ baseTrusted, ∃ it',
        (RawEntries.new zeroHash (base.readView (.memory [([1], .delete), ([3], .put (.owned [4]))]) .full)
            baseTrusted base.len).collect g
            (RawEntries.new zeroHash (base.readView (.memory [([1], .delete), ([3], .put (.owned [4]))])
              .full) baseTrusted base.len).bound =
          .ok (itemsOf records none [([1], none), ([3], some [4])] visited, it') ∧ it'.Ended ∧
        (itemsOf records none [([1], none), ([3], some [4])] visited).map (fun item => (item.key, item.value)) =
          [([5], [6]), ([3], [4])] := by
  obtain ⟨g, base, trusted, len, walk⟩ := @exists_trusted zeroHash [([1], [2]), ([5], [6])] 4 rfl
    (by simp [ValidEntry, maxKeySize, maxValueSize]) (by decide)
  obtain ⟨records, visited, walked, -, perm, -, collects⟩ := raw_entries_complete zeroHash g base trusted
    .full (.memory [([1], .delete), ([3], .put (.owned [4]))]) [([1], none), ([3], some [4])] rfl
  cases walk.symm.trans walked
  have snds := placed_map_snd (baseHeader + 4 * slotSize) [(([1] : Bytes), ([2] : Bytes)), ([5], [6])]
  have live : liveOps visited = [([3], [4])] := (perm.filterMap _).eq_singleton
  refine ⟨g, base, trusted, len, _, visited, walk, snds, fun baseTrusted => ?_⟩
  obtain ⟨it', collected, ended⟩ := collects baseTrusted
  refine ⟨it', collected, ended, ?_⟩
  rw [items_pairs, pairsOf, snds, live]
  rfl

/-! ## Two ways to count -/

/-- `Database::len` and `Snapshot::len` of a snapshot of the same state have the same outcome:
the number of pairs of an iteration without an error, or an error. -/
def LensAgree (C : Crates) (h : Handle) : Prop :=
  ∃ snapshot h', Database.snapshot h = (.ok snapshot, h') ∧
    ((∃ pairs : List Entry, (Database.len C h).1 = .ok pairs.length ∧
        (snapshot.len C h.disk.file h.db.base.verifier).1 = .ok pairs.length ∧
        (Database.iter C h).1 = .ok (pairs.map .ok)) ∨
      (∃ error, (Database.len C h).1 = .error (.err error)) ∧
        ∃ error, (snapshot.len C h.disk.file h.db.base.verifier).1 = .error (.err error))

/-- The blocks under the records that the overlay does not shadow have the checksums that the
segment gives for them. -/
def CleanRecords (f : File) (view : ReadView) (len : Nat) (ops : List Operation) (v : SegmentVerifier) :
    Prop :=
  ∀ p ∈ (view.walk f len).1, shadows ops p.2.1 = false →
    ∀ b, SegmentVerifier.Meets (p.1 + 8) (p.1 + recordSize p.2) b → v.Matches (view.base.mapping.deref f) b

section Count

variable {C : Crates} {f : File} {view : ReadView} {len : Nat} {layout : SegmentLayout}
variable {v v' : SegmentVerifier} {ops visited : List Operation} {it : RawEntries}

theorem available_run {α : Type} {h : Handle} (available : h.db.state ≠ .unavailable)
    (act : Handle → Db α) : (do Database.ensureAvailable; let h ← Prog.state; act h) h = act h h := by
  have passed : Database.ensureAvailable h = (.ok (), h) := by
    show (if h.db.state = .unavailable then Prog.stop (.err .poisoned) else pure () : Db Unit) h = _
    rw [if_neg available]
    rfl
  rw [bind_ok passed]
  rfl

/-- `Snapshot::len` counts what the iteration yields, up to the first error. -/
theorem tryCount_of_drain {fuel count : Nat} {out : List (Except Error Entry)}
    (ran : Entries.drain f view fuel it v = (.ok out, v')) (fits : count + out.length < 2 ^ 64) :
    (∀ pairs : List Entry, out = pairs.map .ok →
      (Entries.tryCount f view fuel it count v).1 = .ok (count + pairs.length)) ∧
    ((∃ error, .error error ∈ out) →
      ∃ error, (Entries.tryCount f view fuel it count v).1 = .error (.err error)) := by
  induction fuel generalizing it v count out with
  | zero => cases ran
  | succ fuel ih =>
      unfold Entries.drain at ran
      unfold Entries.tryCount
      rw [bind_run] at ran ⊢
      rcases step : Entries.next f view it v with ⟨e | ⟨found, it'⟩, v1⟩
      · rw [step] at ran
        cases ran
      · rw [step] at ran
        cases found with
        | none =>
            cases ran
            constructor
            · intro pairs none
              rw [List.map_eq_nil_iff.mp none.symm]
              rfl
            · rintro ⟨_, member⟩
              exact absurd member List.not_mem_nil
        | some item =>
            dsimp only at ran ⊢
            rw [bind_run] at ran
            rcases later : Entries.drain f view fuel it' v1 with ⟨e | rest, v2⟩
            · rw [later] at ran
              cases ran
            · rw [later] at ran
              cases ran
              rw [List.length_cons] at fits
              cases item with
              | error failure =>
                  refine ⟨fun pairs all => ?_, fun _ => ⟨failure, rfl⟩⟩
                  cases pairs with
                  | nil => cases all
                  | cons pair pairs => cases all
              | ok pair =>
                  have next : (orFail (checkedAdd count 1) (.other "snapshot entry count overflow")) =
                      .ok (count + 1) := by
                    rw [checkedAdd_some (by omega)]
                    rfl
                  dsimp only
                  rw [bind_run, lift_run, next]
                  obtain ⟨all, failed⟩ := ih later (show count + 1 + rest.length < 2 ^ 64 by omega)
                  constructor
                  · intro pairs ok
                    cases pairs with
                    | nil => cases ok
                    | cons pair pairs =>
                        have := all pairs (List.cons.inj ok).2
                        rw [List.length_cons, Nat.add_comm pairs.length, ← Nat.add_assoc]
                        exact this
                  · rintro ⟨error, member⟩
                    rcases List.mem_cons.mp member with head | tail
                    · cases head
                    · exact failed ⟨error, tail⟩

theorem rawLen_error {walked : List (Nat × Entry)} {failure : Error}
    (iterates : Iterates f it walked (some failure) ops visited) :
    it.rawLen f = .error (.err failure) := by
  have enough := iterates.length_le
  obtain ⟨last, ran, pending⟩ := count_spec iterates 0 (show _ < it.bound by omega)
  rw [RawEntries.rawLen, ran, ok_bind]
  dsimp only
  rw [pending]
  rfl

/-- Overlay entries are not checked, so the records decide. -/
theorem clean_iff (mode : view.verification = .onRead) :
    (∀ item ∈ itemsOf (view.walk f len).1 none ops visited,
      Passes (view.base.mapping.deref f) view.verification v item) ↔ CleanRecords f view len ops v := by
  constructor
  · intro pass p member unshadowed b meets
    have listed : baseItem p ∈ itemsOf (view.walk f len).1 none ops visited := by
      refine List.mem_append_left _ (List.mem_map_of_mem (List.mem_filter.mpr ⟨member, ?_⟩))
      rw [unshadowed]
      rfl
    exact pass _ listed mode _ _ rfl b meets
  · intro clean item member _ start stop range b meets
    rcases List.mem_append.mp member with base | overlay
    · obtain ⟨p, kept, rfl⟩ := List.mem_map.mp base
      obtain ⟨member, unshadowed⟩ := List.mem_filter.mp kept
      cases range
      exact clean p member (by simpa using unshadowed) b meets
    · obtain ⟨entry, -, rfl⟩ := List.mem_map.mp overlay
      cases range

theorem verifying_run {α : Type} (act : Prog SegmentVerifier Stop α) (h : Handle) :
    (Db.verifying act h).1 = (act h.db.base.verifier).1 := by
  unfold Db.verifying Prog.zoom
  rcases act h.db.base.verifier with ⟨r, v⟩
  rfl

theorem itemsOf_length_le (readable : Readable f view len layout)
    (visits : view.overlay.Visits C f visited) (few : view.overlay.len < 2 ^ 63) :
    (itemsOf (view.walk f len).1 (view.walk f len).2 ops visited).length + 1 < 2 ^ 64 := by
  have start := readable.table
  rw [← readable.size] at start
  have records := walkBase_length_data readable.inside readable.wordSize len _ start
  have word := readable.wordSize
  have shown : (view.walk f len).1.length * 8 ≤ view.base.dataSize := by
    unfold ReadView.walk
    omega
  have unshadowed := List.length_filter_le (fun p : Nat × Entry => !shadows ops p.2.1) (view.walk f len).1
  have live : (liveOps visited).length ≤ view.overlay.len := by
    rw [← Visits.length visits]
    exact List.length_filterMap_le _ _
  unfold itemsOf
  rw [List.length_append, List.length_map]
  split
  · simp only [List.length_nil]
    omega
  · rw [List.length_map]
    omega

/-- An item that does not pass is reported as an error. -/
theorem exists_error {mapping : Bytes} {verification : VerificationMode} {items : List Item}
    {reported : List (Except Error Entry)}
    (reports : List.Forall₂ (Reported mapping verification v) items reported)
    (fails : ¬∀ item ∈ items, Passes mapping verification v item) : ∃ error, .error error ∈ reported := by
  induction reports with
  | nil => exact absurd (List.forall_mem_nil _) fails
  | @cons item report items reported here _ ih =>
      rcases here with ⟨passes, -⟩ | ⟨-, error, rfl⟩
      · obtain ⟨error, member⟩ := ih fun all => fails (List.forall_mem_cons.mpr ⟨passes, all⟩)
        exact ⟨error, List.mem_cons_of_mem _ member⟩
      · exact ⟨error, List.mem_cons_self ..⟩

/-- The outcomes of the two counts, whatever the overlay is. -/
theorem lens_outcome {h : Handle} (available : h.db.state ≠ .unavailable)
    (readable : Readable h.disk.file h.db.readView h.db.base.len layout)
    (verifies : Verifies C h.disk.file h.db.readView h.db.base.len layout h.db.base.verifier)
    (decodes : h.db.overlay.index.Decodes h.disk.file ops) (mode : h.db.options.verification = .onRead)
    (few : h.db.overlay.index.len < 2 ^ 63) :
    ∃ snapshot h' visited pairs, Database.snapshot h = (.ok snapshot, h') ∧ visited.Perm ops ∧
      pairs = pairsOf (h.db.readView.walk h.disk.file h.db.base.len).1 ops visited ∧
      (match (h.db.readView.walk h.disk.file h.db.base.len).2 with
        | none => (Database.len C h).1 = .ok pairs.length
        | some error => (Database.len C h).1 = .error (.err error)) ∧
      (((h.db.readView.walk h.disk.file h.db.base.len).2 = none ∧
          CleanRecords h.disk.file h.db.readView h.db.base.len ops h.db.base.verifier) →
        (snapshot.len C h.disk.file h.db.base.verifier).1 = .ok pairs.length ∧
          (Database.iter C h).1 = .ok (pairs.map .ok)) ∧
      (¬((h.db.readView.walk h.disk.file h.db.base.len).2 = none ∧
          CleanRecords h.disk.file h.db.readView h.db.base.len ops h.db.base.verifier) →
        ∃ error, (snapshot.len C h.disk.file h.db.base.verifier).1 = .error (.err error)) := by
  obtain ⟨visited, perm, visits⟩ := OverlayMap.iter_decodes C decodes
  have iterates := readable.iterates verifies decodes visits
  have size := verifies.size.trans readable.size.symm
  obtain ⟨_, v', ran, -, -, reported, rfl, reports⟩ := wp_returns
    (wp_drain iterates rfl size (fun _ => verifies.sound) iterates.length_le) fun _ _ => id
  have clean := @clean_iff h.disk.file h.db.readView h.db.base.len h.db.base.verifier ops visited mode
  have short := @itemsOf_length_le C h.disk.file h.db.readView h.db.base.len layout ops visited
    readable visits few
  have lenIs : (Database.len C h).1 = (h.db.iterRaw C).rawLen h.disk.file :=
    congrArg Prod.fst (available_run available _)
  have iterIs : (Database.iter C h).1 =
      .ok (reported ++ (h.db.readView.walk h.disk.file h.db.base.len).2.toList.map .error) := by
    refine (congrArg Prod.fst (available_run available _)).trans ((verifying_run _ h).trans ?_)
    exact congrArg Prod.fst ran
  have count := @tryCount_of_drain h.disk.file h.db.readView _ _ _ _ 0 _ ran (by
    rw [List.length_append, ← reports.length_eq, List.length_map]
    have : (h.db.readView.walk h.disk.file h.db.base.len).2.toList.length ≤ 1 := by
      cases (h.db.readView.walk h.disk.file h.db.base.len).2 <;> simp
    omega)
  refine ⟨_, _, visited, _, available_run available _, perm, rfl, ?_⟩
  generalize (h.db.readView.walk h.disk.file h.db.base.len).2 = error at *
  cases error with
  | some failure =>
      refine ⟨lenIs.trans (rawLen_error iterates), nofun, fun _ => count.2 ⟨failure, ?_⟩⟩
      exact List.mem_append_right _ (List.mem_singleton_self _)
  | none =>
      have pairs := items_pairs (h.db.readView.walk h.disk.file h.db.base.len).1 ops visited
      refine ⟨?_, fun ⟨_, all⟩ => ?_, fun damaged => ?_⟩
      · rw [← pairs, List.length_map]
        exact lenIs.trans (rawLen_eq iterates)
      · have reportedIs : reported ++ (none : Option Error).toList.map .error =
            (pairsOf (h.db.readView.walk h.disk.file h.db.base.len).1 ops visited).map .ok := by
          rw [reported_eq (clean.mpr all) reports, ← pairs, List.map_map]
          exact List.append_nil _
        exact ⟨(count.1 _ reportedIs).trans (by rw [Nat.zero_add]), iterIs.trans (by rw [reportedIs])⟩
      · obtain ⟨error, member⟩ := exists_error reports fun pass => damaged ⟨rfl, clean.mp pass⟩
        exact count.2 ⟨error, List.mem_append_left _ member⟩

theorem lensAgree_iff {h : Handle} (available : h.db.state ≠ .unavailable)
    (readable : Readable h.disk.file h.db.readView h.db.base.len layout)
    (verifies : Verifies C h.disk.file h.db.readView h.db.base.len layout h.db.base.verifier)
    (decodes : h.db.overlay.index.Decodes h.disk.file ops) (mode : h.db.options.verification = .onRead)
    (few : h.db.overlay.index.len < 2 ^ 63) :
    LensAgree C h ↔ (h.db.readView.walk h.disk.file h.db.base.len).2.isSome ∨
      CleanRecords h.disk.file h.db.readView h.db.base.len ops h.db.base.verifier := by
  obtain ⟨snapshot, h', visited, pairs, taken, -, -, counts, agrees, fails⟩ :=
    lens_outcome available readable verifies decodes mode few
  generalize (h.db.readView.walk h.disk.file h.db.base.len).2 = error at *
  cases error with
  | some failure =>
      refine iff_of_true ⟨snapshot, h', taken, .inr ⟨⟨failure, counts⟩, fails nofun⟩⟩ (.inl rfl)
  | none =>
      constructor
      · rintro ⟨other, h'', taken', agree⟩
        cases taken.symm.trans taken'
        right
        by_contra damaged
        obtain ⟨error, failed⟩ := fails fun both => damaged both.2
        rcases agree with ⟨pairs', -, counted, -⟩ | ⟨⟨failure, refused⟩, -⟩
        · cases failed.symm.trans counted
        · cases counts.symm.trans refused
      · intro condition
        obtain ⟨counted, yields⟩ := agrees ⟨rfl, condition.resolve_left (by simp)⟩
        exact ⟨snapshot, h', taken, .inl ⟨pairs, counts, counted, yields⟩⟩

end Count

/-- What any open leaves, under any overlay, can be read. -/
theorem opened_readable {C : Crates} {options : DatabaseOptions} {f : File} (small : f.len < 2 ^ 63)
    {db : Database} {d : Disk} (opened : openWithOptions C options (Disk.ofFile f []) = (.ok db, d))
    {overlay : OverlayMap} {ops : List Operation} (decodes : overlay.Decodes d.file ops) :
    ∃ layout, db.state ≠ .unavailable ∧ db.options = options ∧
      Readable d.file (db.withOverlay overlay).readView db.base.len layout ∧
      Verifies C d.file (db.withOverlay overlay).readView db.base.len layout db.base.verifier := by
  obtain ⟨sb, base, records, rest, recovered⟩ := open_recovered small opened
  obtain ⟨layout, -, -, readable, steady⟩ := recovered.steady small
  have verifies := steady.verifies
  rw [← recovered.opened.base] at readable verifies
  exact ⟨layout, steady.available, recovered.opened.options,
    ⟨readable.laid, readable.size, readable.header, readable.word, ops, decodes⟩,
    ⟨verifies.size, verifies.table, verifies.sound, verifies.semantic⟩⟩

/-- On every image that an `OnRead` open accepts, with any overlay: the two counts agree iff
the walk over the records ends in an error, or no damaged block lies under a record that the
overlay does not shadow.  (A hash table has at most 2^63 bytes.) -/
theorem lens_agree_iff (C : Crates) (options : DatabaseOptions) (f : File) (small : f.len < 2 ^ 63)
    (mode : options.verification = .onRead) {db : Database} {d : Disk}
    (opened : openWithOptions C options (Disk.ofFile f []) = (.ok db, d)) (overlay : OverlayMap)
    (ops : List Operation) (decodes : overlay.Decodes d.file ops) (few : overlay.len < 2 ^ 63) :
    LensAgree C ⟨db.withOverlay overlay, d⟩ ↔
      (db.readView.walk d.file db.base.len).2.isSome ∨
        CleanRecords d.file db.readView db.base.len ops db.base.verifier := by
  obtain ⟨layout, available, rfl, readable, verifies⟩ := opened_readable small opened decodes
  exact lensAgree_iff (h := ⟨db.withOverlay overlay, d⟩) available readable verifies decodes mode few

/-- A record in a damaged block does no harm if the overlay has its key. -/
theorem lens_agree_shadowed :
    ∃ db d, openWithOptions zeroHash { DatabaseOptions.default with verification := .onRead }
        (Disk.ofFile (craftedImage soleRecord [wrongChecksum soleRecord] 1) []) = (.ok db, d) ∧
      LensAgree zeroHash ⟨db.withOverlay (.memory [([1], .put (.owned [3])), ([4], .put (.owned [5]))]), d⟩ := by
  obtain ⟨db, d, opened, crafted⟩ := soleRecord_opens
  have walk := crafted.walk.trans soleRecord_walk
  refine ⟨db, d, opened, (lens_agree_iff zeroHash _ _ (crafted_small 1 (by decide)) rfl opened
    (.memory [([1], .put (.owned [3])), ([4], .put (.owned [5]))]) [([1], some [3]), ([4], some [5])] rfl
    (by decide)).mpr (.inr ?_)⟩
  unfold CleanRecords
  rw [walk]
  intro record member exposed
  cases List.mem_singleton.mp member
  exact absurd exposed (by decide)

/-- A record in a damaged block: the handle counts it, and its snapshot reports an error. -/
theorem raw_len_counts_damage :
    ∃ db d, openWithOptions zeroHash { DatabaseOptions.default with verification := .onRead }
        (Disk.ofFile (craftedImage soleRecord [wrongChecksum soleRecord] 1) []) = (.ok db, d) ∧
      (Database.len zeroHash ⟨db, d⟩).1 = .ok 1 ∧
      (∃ snapshot h', Database.snapshot ⟨db, d⟩ = (.ok snapshot, h') ∧
        ∃ error, (snapshot.len zeroHash d.file db.base.verifier).1 = .error (.err error)) ∧
      ¬LensAgree zeroHash ⟨db, d⟩ := by
  obtain ⟨db, d, opened, crafted⟩ := soleRecord_opens
  have walk := crafted.walk.trans soleRecord_walk
  have small := @crafted_small soleRecord [wrongChecksum soleRecord] 1 (by decide)
  have decodes : db.overlay.index.Decodes d.file [] := by
    rw [crafted.overlay]
    exact ⟨[], .nil, rfl⟩
  have few : db.overlay.index.len < 2 ^ 63 := by
    rw [crafted.overlay]
    decide
  obtain ⟨layout, available, options, readable, verifies⟩ := opened_readable small opened decodes
  have mode : db.options.verification = .onRead := by rw [options]
  have laid := segmentLayout_laidOut (@segmentLayout_written soleRecord [wrongChecksum soleRecord]
    (by decide) (by rw [List.length_singleton]; decide))
  have damaged : ¬CleanRecords d.file db.readView db.base.len [] db.base.verifier := by
    intro clean
    have blocks := clean (24, ([1], [2])) (by rw [walk]; exact List.mem_singleton_self _) rfl 0
      ⟨by decide, by decide, by decide⟩
    have held : db.readView.base.mapping.deref d.file = craftedSegment soleRecord [wrongChecksum soleRecord] :=
      crafted.deref
    rw [held, craftedSegment, matches_of_layout laid crafted.size crafted.table (by decide)] at blocks
    exact wrongChecksum_ne soleRecord blocks
  obtain ⟨snapshot, h', visited, pairs, taken, perm, rfl, counts, -, fails⟩ :=
    lens_outcome (h := ⟨db, d⟩) available readable verifies decodes mode few
  have nothing : visited = [] := List.perm_nil.mp perm
  subst nothing
  have none : (db.readView.walk d.file db.base.len).2 = none := by rw [walk]
  dsimp only at counts fails
  rw [none, walk] at counts
  refine ⟨db, d, opened, counts, ⟨snapshot, h', taken, fails fun both => damaged both.2⟩, fun agree => ?_⟩
  rcases (lensAgree_iff (h := ⟨db, d⟩) available readable verifies decodes mode few).mp agree with failed | clean
  · rw [none] at failed
    cases failed
  · exact damaged clean

/-! ## Size hints -/

/-- The iterator after so many calls of `next`. -/
def Entries.advance (file : File) (view : ReadView) :
    Nat → RawEntries → Prog SegmentVerifier Stop RawEntries
  | 0, entries => return entries
  | calls + 1, entries => do
      let (_, entries) ← Entries.next file view entries
      Entries.advance file view calls entries

/-- At every point of an iteration the hint is computed, and bounds the items still to come. -/
def HonestHints (C : Crates) (h : Handle) : Prop :=
  ∀ calls, ∃ it v hint items v',
    Entries.advance h.disk.file h.db.readView calls (h.db.iterRaw C) h.db.base.verifier = (.ok it, v) ∧
      it.sizeHint = .ok (0, some hint) ∧
      Entries.drain h.disk.file h.db.readView it.bound it v = (.ok items, v') ∧ items.length ≤ hint

section Hint

variable {C : Crates} {f : File} {view : ReadView} {len : Nat} {layout : SegmentLayout}
variable {v v' : SegmentVerifier} {ops visited : List Operation} {it it' : RawEntries}

theorem nextLive_shrinks {log : Bytes} {rest rest' : List OverlayItem} {found : Option Entry}
    (read : nextLive log rest = .ok (found, rest')) : rest'.length ≤ rest.length := by
  induction rest with
  | nil =>
      cases read
      exact le_rfl
  | cons item rest ih =>
      obtain ⟨⟨key, value⟩, -, read⟩ := bind_eq_ok.mp read
      cases value with
      | some value =>
          cases read
          exact Nat.le_succ _
      | none => exact (ih read).trans (Nat.le_succ _)

/-- The number of records left after a step over the Base. -/
def BaseStep.left : BaseStep → Nat
  | .item _ _ left => left
  | .failed _ _ left => left
  | .exhausted _ => 0

theorem nextBase_shrinks {base : BaseView} {overlay : OverlayMap} {trusted : Bool} {remaining offset : Nat}
    {step : BaseStep} (read : RawEntries.nextBase f base overlay trusted remaining offset = .ok step) :
    step.left ≤ remaining := by
  induction remaining generalizing offset with
  | zero =>
      cases read
      exact le_rfl
  | succ remaining ih =>
      rw [RawEntries.nextBase] at read
      split at read
      · cases read
        exact le_rfl
      · cases read
      · obtain ⟨shadowed, -, read⟩ := bind_eq_ok.mp read
        cases shadowed with
        | true => exact (ih read).trans (Nat.le_succ _)
        | false =>
            cases read
            exact Nat.le_succ _

/-- A step leaves no more to read than there was. -/
theorem next_shrinks {found : Option Item} (read : it.next f = .ok (found, it')) :
    it'.baseRemaining ≤ it.baseRemaining ∧ it'.rest.length ≤ it.rest.length := by
  unfold RawEntries.next at read
  split at read
  · cases read
    exact ⟨le_rfl, le_rfl⟩
  obtain ⟨step, walked, result⟩ := bind_eq_ok.mp read
  have left := nextBase_shrinks walked
  cases step with
  | item found offset remaining =>
      cases result
      exact ⟨left, le_rfl⟩
  | failed error offset remaining =>
      cases result
      exact ⟨left, le_rfl⟩
  | exhausted offset =>
      dsimp only at result
      split at result
      · cases result
        exact ⟨Nat.zero_le _, le_rfl⟩
      · obtain ⟨⟨live, rest⟩, taken, result⟩ := bind_eq_ok.mp result
        have fewer := nextLive_shrinks taken
        cases live with
        | none =>
            cases result
            exact ⟨Nat.zero_le _, fewer⟩
        | some pair =>
            cases result
            exact ⟨Nat.zero_le _, fewer⟩

/-- A point of an iteration over a Base of `len` records, of which `walk` finds some, and an
overlay of `entries` entries. -/
inductive Underway (f : File) (len entries : Nat) (walk : List (Nat × Entry) × Option Error)
    (ops : List Operation) (it : RawEntries) : Prop
  | running {walked : List (Nat × Entry)} {visited : List Operation}
      (iterates : Iterates f it walked walk.2 ops visited)
      (onward : it.baseRemaining + walk.1.length = len + walked.length)
      (waiting : walk.2 ≠ none → it.rest.length = entries)
      (records : it.baseRemaining ≤ len) (overlay : it.rest.length ≤ entries)
  | done (finished : it.finished = true) (pending : it.pendingError = none)
      (records : it.baseRemaining ≤ len) (overlay : it.rest.length ≤ entries)

section Points

variable {entries : Nat} {walk : List (Nat × Entry) × Option Error}

theorem Underway.bounds (underway : Underway f len entries walk ops it) :
    it.baseRemaining ≤ len ∧ it.rest.length ≤ entries := by
  cases underway with
  | running _ _ _ records overlay => exact ⟨records, overlay⟩
  | done _ _ records overlay => exact ⟨records, overlay⟩

/-- What a step of `Entries` leaves: the raw iterator, with its error taken. -/
theorem entriesNext_run {found : Option (Except Error Entry)}
    (ran : Entries.next f view it v = (.ok (found, it'), v')) :
    ∃ item it₁, it.next f = .ok (item, it₁) ∧
      ((∃ yielded, item = some yielded) ∧ it' = it₁ ∨
        item = none ∧ it' = { it₁ with pendingError := none }) := by
  have kept : wp (Entries.next f view it)
      (fun r _ => ∃ item it₁, it.next f = .ok (item, it₁) ∧
        ((∃ yielded, item = some yielded) ∧ r.2 = it₁ ∨
          item = none ∧ r.2 = { it₁ with pendingError := none })) (fun _ _ => True) v := by
    unfold Entries.next
    refine wp_bind (wp_lift (fun r read => ?_) fun _ _ => trivial)
    obtain ⟨item, it₁⟩ := r
    cases item with
    | none =>
        dsimp only
        cases pending : it₁.pendingError with
        | some error => exact wp_pure ⟨none, it₁, read, .inr ⟨rfl, rfl⟩⟩
        | none => exact wp_pure ⟨none, it₁, read, .inr ⟨rfl, by rw [← pending]⟩⟩
    | some item =>
        refine wp_bind (wp_mono (Q := fun _ _ => True) (E := fun _ _ => True) ?_ ?_ ?_)
        · unfold wp
          split <;> trivial
        · rintro (_ | _) _ -
          · exact wp_pure ⟨some item, it₁, read, .inl ⟨⟨item, rfl⟩, rfl⟩⟩
          · exact wp_pure ⟨some item, it₁, read, .inl ⟨⟨item, rfl⟩, rfl⟩⟩
        · exact fun _ _ _ => trivial
  exact wp_ok kept ran

theorem Underway.next (underway : Underway f len entries walk ops it)
    {found : Option (Except Error Entry)} (ran : Entries.next f view it v = (.ok (found, it'), v')) :
    Underway f len entries walk ops it' := by
  obtain ⟨item, it₁, read, outcome⟩ := entriesNext_run ran
  obtain ⟨fewer, shorter⟩ := next_shrinks read
  obtain ⟨records, overlay⟩ := underway.bounds
  cases underway with
  | done finished pending records overlay =>
      have ends : it.next f = .ok (none, it) := by rw [RawEntries.next, if_pos finished]
      cases Except.ok.inj (ends.symm.trans read)
      rcases outcome with ⟨⟨_, yielded⟩, -⟩ | ⟨-, rfl⟩
      · cases yielded
      · exact .done finished rfl records overlay
  | @running walked visited iterates onward waiting records overlay =>
      have step := next_spec iterates
      cases items : itemsOf walked walk.2 ops visited with
      | nil =>
          rw [items] at step
          obtain ⟨it₂, read', finished, -⟩ := step
          cases Except.ok.inj (read.symm.trans read')
          rcases outcome with ⟨⟨_, yielded⟩, -⟩ | ⟨-, rfl⟩
          · cases yielded
          · exact .done finished rfl (fewer.trans records) (shorter.trans overlay)
      | cons item rest =>
          rw [items] at step
          obtain ⟨it₂, walked', visited', read', iterates', -, -, -, moved, still⟩ := step
          cases Except.ok.inj (read.symm.trans read')
          rcases outcome with ⟨-, rfl⟩ | ⟨none, -⟩
          · refine .running iterates' ?_ (fun failed => ?_) (fewer.trans records) (shorter.trans overlay)
            · omega
            · rw [still failed, waiting failed]
          · cases none

/-- Every point of an iteration is one of these. -/
theorem advance_underway (readable : Readable f view len layout)
    (verifies : Verifies C f view len layout v) (live : ∃ n, Live f it n) (base : it.base = view.base)
    (underway : Underway f len entries walk ops it) (calls : Nat) :
    ∃ it' v', Entries.advance f view calls it v = (.ok it', v') ∧ Verifies C f view len layout v' ∧
      it'.base = view.base ∧ Underway f len entries walk ops it' := by
  induction calls generalizing it v with
  | zero => exact ⟨it, v, rfl, verifies, base, underway⟩
  | succ calls ih =>
      obtain ⟨n, live⟩ := live
      obtain ⟨⟨found, it'⟩, v', ran, verifies', base', m, live', -⟩ :=
        wp_returns (wp_next readable verifies live base) fun _ _ => id
      obtain ⟨last, v'', goes, rest⟩ := ih verifies' ⟨m, live'⟩ base' (underway.next ran)
      refine ⟨last, v'', ?_, rest⟩
      rw [Entries.advance, bind_ok ran]
      exact goes

/-- From a point where the iteration goes on, so many items are still to come. -/
theorem Underway.drain (readable : Readable f view len layout)
    (verifies : Verifies C f view len layout v) (base : it.base = view.base)
    (underway : Underway f len entries walk ops it)
    (whole : ¬(entries = 0 ∧ walk.1.length = len ∧ walk.2.isSome)) :
    ∃ items v', Entries.drain f view it.bound it v = (.ok items, v') ∧
      items.length ≤ it.baseRemaining + it.rest.length := by
  cases underway with
  | done finished pending records overlay =>
      refine ⟨[], v, ?_, Nat.zero_le _⟩
      have ends : Entries.next f view it v = (.ok (none, it), v) := by
        rw [Entries.next, bind_run, lift_run, RawEntries.next, if_pos finished]
        dsimp only
        rw [pending]
        rfl
      show Entries.drain f view (_ + 1) it v = _
      rw [Entries.drain, bind_ok ends]
      rfl
  | @running walked visited iterates onward waiting records overlay =>
      have size := verifies.size.trans readable.size.symm
      obtain ⟨_, v', ran, -, -, reported, rfl, reports⟩ := wp_returns
        (wp_drain iterates base size (fun _ => verifies.sound) iterates.length_le) fun _ _ => id
      refine ⟨_, v', ran, ?_⟩
      have records := iterates.walked_le
      have live := iterates.live_le
      have unshadowed := List.length_filter_le (fun p : Nat × Entry => !shadows ops p.2.1) walked
      rw [List.length_append, ← reports.length_eq, itemsOf, List.length_append, List.length_map,
        List.length_map]
      cases failed : walk.2 with
      | none =>
          rw [if_neg (by simp), List.length_map]
          show _ + _ + 0 ≤ _
          omega
      | some failure =>
          have waits := waiting (by rw [failed]; exact Option.some_ne_none failure)
          have short : ¬(entries = 0 ∧ walk.1.length = len) := fun all => whole ⟨all.1, all.2, by rw [failed]; rfl⟩
          rw [if_pos (by simp)]
          show _ + 0 + 1 ≤ _
          omega

end Points

/-- The hints, whatever the overlay is. -/
theorem honestHints_iff {h : Handle}
    (readable : Readable h.disk.file h.db.readView h.db.base.len layout)
    (verifies : Verifies C h.disk.file h.db.readView h.db.base.len layout h.db.base.verifier)
    (decodes : h.db.overlay.index.Decodes h.disk.file ops) :
    HonestHints C h ↔ h.db.base.len + h.db.overlay.index.len < 2 ^ 64 ∧
      ¬(h.db.overlay.index.len = 0 ∧
        (h.db.readView.walk h.disk.file h.db.base.len).1.length = h.db.base.len ∧
        (h.db.readView.walk h.disk.file h.db.base.len).2.isSome) := by
  obtain ⟨visited, perm, visits⟩ := OverlayMap.iter_decodes C decodes
  have iterates := readable.iterates verifies decodes visits
  have entries : ((h.db.readView.overlay.iter C).length) = h.db.overlay.index.len :=
    visits.length_eq.trans (Visits.length visits)
  constructor
  · intro honest
    obtain ⟨it, v, hint, items, v', start, hinted, drained, bounded⟩ := honest 0
    cases start
    have hintIs : addOrPanic h.db.base.len h.db.overlay.index.len = .ok hint := by
      obtain ⟨sum, added, result⟩ := bind_eq_ok.mp hinted
      cases result
      rw [← entries]
      exact added
    obtain ⟨rfl, fits⟩ := addOrPanic_eq_ok.mp hintIs
    refine ⟨fits, fun ⟨empty, all, failed⟩ => ?_⟩
    have nothing : visited = [] := List.eq_nil_of_length_eq_zero ((Visits.length visits).trans empty)
    subst nothing
    have nothing : ops = [] := List.nil_perm.mp perm
    subst nothing
    have size := verifies.size.trans readable.size.symm
    obtain ⟨_, v'', ran, -, -, reported, rfl, reports⟩ := wp_returns
      (wp_drain iterates rfl size (fun _ => verifies.sound) iterates.length_le) fun _ _ => id
    cases drained.symm.trans ran
    obtain ⟨failure, failed⟩ := Option.isSome_iff_exists.mp failed
    have each : (itemsOf (h.db.readView.walk h.disk.file h.db.base.len).1
        (h.db.readView.walk h.disk.file h.db.base.len).2 [] []).length = h.db.base.len := by
      rw [failed, itemsOf, if_pos Option.isSome_some, List.append_nil, List.length_map, List.filter_eq_self.mpr, all]
      exact fun _ _ => rfl
    rw [List.length_append, ← reports.length_eq, each, failed, empty] at bounded
    exact absurd bounded (Nat.not_succ_le_self _)
  · rintro ⟨fits, whole⟩ calls
    have underway : Underway h.disk.file h.db.base.len h.db.overlay.index.len
        (h.db.readView.walk h.disk.file h.db.base.len) ops (h.db.iterRaw C) :=
      .running iterates rfl (fun _ => entries) le_rfl entries.le
    obtain ⟨it, v, ran, verifies', base, underway⟩ :=
      advance_underway readable verifies ⟨_, live_new readable verifies⟩ rfl underway calls
    obtain ⟨items, v', drained, few⟩ := underway.drain readable verifies' base whole
    have bounds := underway.bounds
    refine ⟨it, v, _, items, v', ran, ?_, drained, few⟩
    rw [RawEntries.sizeHint, addOrPanic_ok (by omega)]
    rfl

end Hint

/-- On every image that an open accepts, with any overlay: the hints are honest iff
the sum of the two counts is a machine word, and it is not the case that the overlay is empty,
the walk finds as many records as the header counts, and ends in an error. -/
theorem size_hint_honest_iff (C : Crates) (options : DatabaseOptions) (f : File)
    (small : f.len < 2 ^ 63) {db : Database} {d : Disk}
    (opened : openWithOptions C options (Disk.ofFile f []) = (.ok db, d)) (overlay : OverlayMap)
    (ops : List Operation) (decodes : overlay.Decodes d.file ops) :
    HonestHints C ⟨db.withOverlay overlay, d⟩ ↔ db.base.len + overlay.len < 2 ^ 64 ∧
      ¬(overlay.len = 0 ∧ (db.readView.walk d.file db.base.len).1.length = db.base.len ∧
        (db.readView.walk d.file db.base.len).2.isSome) := by
  obtain ⟨layout, -, -, readable, verifies⟩ := opened_readable small opened decodes
  exact honestHints_iff (h := ⟨db.withOverlay overlay, d⟩) readable verifies decodes

/-- A record, eight bytes that no record takes, and an entry of the overlay: the iteration ends
with the error before it comes to that entry, which the hint has counted. -/
theorem size_hint_honest_overlaid :
    ∃ db d, openWithOptions zeroHash { DatabaseOptions.default with verification := .onRead }
        (Disk.ofFile (craftedImage (soleRecord ++ List.replicate 8 0) [0] 1) []) = (.ok db, d) ∧
      HonestHints zeroHash ⟨db.withOverlay (.memory [([4], .put (.owned [5]))]), d⟩ := by
  obtain ⟨db, d, opened, crafted⟩ := @crafted_opens (soleRecord ++ List.replicate 8 0) [0] 1 zeroHash
    (by decide) (by decide) (by decide) (by decide)
  refine ⟨db, d, opened, (size_hint_honest_iff zeroHash _ _ (crafted_small 1 (by decide)) opened
    (.memory [([4], .put (.owned [5]))]) [([4], some [5])] rfl).mpr ⟨?_, ?_⟩⟩
  · rw [crafted.len]
    decide
  · rintro ⟨empty, -⟩
    exact absurd empty (by decide)

/-- No records, and eight bytes that no record takes. -/
def paddedData : Bytes := headerBytes 0 0 ++ List.replicate 8 0

/-- The hint says that nothing is to come, and the next item is an error. -/
theorem size_hint_misses_the_error :
    ∃ db d, openWithOptions zeroHash { DatabaseOptions.default with verification := .onRead }
        (Disk.ofFile (craftedImage paddedData [0] 0) []) = (.ok db, d) ∧
      (db.iterRaw zeroHash).sizeHint = .ok (0, some 0) ∧
      (∃ error it v, Entries.next d.file db.readView (db.iterRaw zeroHash) db.base.verifier =
        (.ok (some (.error error), it), v)) ∧
      ¬HonestHints zeroHash ⟨db, d⟩ := by
  obtain ⟨db, d, opened, crafted⟩ := @crafted_opens paddedData [0] 0 zeroHash (by decide)
    (by decide) (by decide) (by decide)
  have walk := crafted.walk
  have failed : walkBase paddedData paddedData.length 0 baseHeader =
    ([], some (.invalidBase "base record count does not match data size")) := by decide
  rw [failed] at walk
  have small := @crafted_small paddedData [0] 0 (by decide)
  have decodes : db.overlay.index.Decodes d.file [] := by
    rw [crafted.overlay]
    exact ⟨[], .nil, rfl⟩
  have empty : db.overlay.index.len = 0 := by
    rw [crafted.overlay]
    rfl
  have items : (db.iterRaw zeroHash).rest = [] := by
    show db.overlay.index.iter zeroHash = []
    rw [crafted.overlay]
    rfl
  obtain ⟨layout, available, -, readable, verifies⟩ := opened_readable small opened decodes
  refine ⟨db, d, opened, ?_, ?_, fun honest => ?_⟩
  · have none : (db.iterRaw zeroHash).baseRemaining = 0 := crafted.len
    rw [RawEntries.sizeHint, none, items]
    rfl
  · obtain ⟨visited, -, visits⟩ := OverlayMap.iter_decodes zeroHash decodes
    have iterates := readable.iterates verifies decodes visits
    have shown : (db.withOverlay db.overlay.index).readView.walk d.file db.base.len =
        db.readView.walk d.file db.base.len := rfl
    rw [shown, walk] at iterates
    obtain ⟨it, read, -, pending, -⟩ := next_spec iterates
    refine ⟨.invalidBase "base record count does not match data size", { it with pendingError := none },
      db.base.verifier, ?_⟩
    have read : (db.iterRaw zeroHash).next d.file = .ok (none, it) := read
    rw [Entries.next, bind_run, lift_run, read]
    dsimp only
    rw [pending]
    rfl
  · have := ((honestHints_iff (h := ⟨db, d⟩) readable verifies decodes).mp honest).2
    refine this ⟨empty, ?_, ?_⟩
    · show (db.readView.walk d.file db.base.len).1.length = db.base.len
      rw [walk, crafted.len]
      rfl
    · show (db.readView.walk d.file db.base.len).2.isSome = true
      rw [walk]
      rfl

end Lkv
