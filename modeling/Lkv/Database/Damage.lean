/-
# Lkv.Database.Damage — damaged Base data in an `OnRead` handle

`Damage` is a Base as the writer left it and the same file with other bytes in its
data area, each changed block failing its checksum, that still opens with
`OnRead`.

* A point read gives the original answer or an error (`damaged_get`): what it uses
  to find a record is in blocks it has checked.
* An iteration trusts the record headers it walks, and it never looks at the
  blocks of records the overlay shadows.  It can therefore lose a record without
  an error (`damaged_iteration_loses_a_record`).  `damaged_iteration_iff` says for
  which damage it does not.
-/
import Lkv.Database.RoundTrip
import Mathlib.Data.List.Dedup

namespace Lkv

open Lkv.Theory Lkv.Theory.Prog Dictionary SegmentVerifier

set_option autoImplicit false

/-- `file` holds a Base that the writer left at `start`; with `damaged` in place of its
data area it still opens, and no changed block has the stored checksum. -/
structure Damage {ι : Type} (C : Crates) (feed : Feed ι) (i : ι) (start len : Nat) (d d' : Disk)
    (written : WrittenBase) (sb : Superblock) (file : File) (layout : SegmentLayout)
    (damaged : Bytes) (base base' : ActiveBase) : Prop where
  wrote : writeBaseWithMetadataAt C feed start len i d = (.ok written, d')
  stays : file.slice start written.size = d'.file.slice start written.size
  offset : sb.baseOffset = start
  laid : segmentLayout (file.slice start written.size) = .ok layout
  sameLength : damaged.length = layout.data.length
  caught : ∀ b < divCeil layout.data.length checksumBlockSize,
    dataBlock damaged b ≠ dataBlock layout.data b →
    (crc32c (dataBlock damaged b)).toNat ≠ leNat (window layout.checksums (4 * b) 4)
  opens : ActiveBase.open C file (.mapped start written.size) sb .onRead = .ok base
  opensDamaged : ActiveBase.open C (file.write start damaged) (.mapped start written.size) sb
    .onRead = .ok base'

namespace ReadView

/-- The verifier of a handle after some reads, whatever they returned. -/
def readAll (C : Crates) (file : File) (view : ReadView) : List Bytes → SegmentVerifier → SegmentVerifier
  | [], v => v
  | key :: rest, v => readAll C file view rest (view.get C file key v).2

end ReadView

section Damage

variable {ι : Type} {C : Crates} {feed : Feed ι} {i : ι} {start len : Nat} {d d' : Disk}
variable {written : WrittenBase} {sb : Superblock} {file : File} {layout : SegmentLayout}
variable {damaged : Bytes} {base base' : ActiveBase} {overlay : OverlayMap}

theorem holds_overwritten {data rest : Bytes} (held : file.Holds start (data ++ rest))
    (same : damaged.length = data.length) :
    (file.write start damaged).Holds start (damaged ++ rest) := by
  refine File.holds_append.mpr ⟨file.holds_write start damaged, ?_⟩
  rw [same]
  exact (File.holds_append.mp held).2.write (.inl (by rw [same]))

/-- What the handles of the two files see. -/
structure DamageViews (C : Crates) (start len : Nat) (file : File) (data damaged : Bytes)
    (base base' : ActiveBase) (entries : List Entry) (slots : Nat) (rest : Bytes) : Prop where
  isBase : IsBase C start entries slots data
  count : entries.length = len
  sameLength : damaged.length = data.length
  caught : ∀ b < divCeil data.length checksumBlockSize, dataBlock damaged b ≠ dataBlock data b →
    crc32c (dataBlock damaged b) ≠ crc32c (dataBlock data b)
  deref : base.mapping.deref file = data ++ rest
  deref' : base'.mapping.deref (file.write start damaged) = damaged ++ rest
  verifier : base.verifier = verifierOf start data data false
  verifier' : base'.verifier = verifierOf start damaged data false
  offset : base.offset = start ∧ base'.offset = start
  slots : base.slots = slots ∧ base'.slots = slots
  len : base.len = len ∧ base'.len = len

theorem Damage.views (damage : Damage C feed i start len d d' written sb file layout damaged base base') :
    ∃ entries slots rest,
      DamageViews C start len file layout.data damaged base base' entries slots rest := by
  obtain ⟨entries, slots, data, isBase, count, writtenIs, fileIs, _⟩ :=
    wp_ok (wp_writeBaseWithMetadataAt (P := fun _ => True) d) damage.wrote
  have size : written.size = (segmentBytes data).length := by rw [writtenIs]
  have image : file.slice start written.size = segmentBytes data := by
    rw [damage.stays, fileIs, size]
    exact d.file.holds_write start (segmentBytes data)
  have layoutIs : layout = ⟨data, (blockChecksums data).flatMap (leBytes 4)⟩ := by
    have := damage.laid
    rw [image, isBase.segmentLayout] at this
    exact (Except.ok.inj this).symm
  subst layoutIs
  have sameLength : damaged.length = data.length := damage.sameLength
  have damagedImage : (file.write start damaged).slice start written.size =
      damaged ++ checksumMetadata data.length (blockChecksums data) := by
    have held : file.Holds start (segmentBytes data) := by
      rw [File.Holds, ← size]
      exact image
    refine (holds_overwritten held sameLength).slice_eq ?_
    rw [size, segmentBytes, List.length_append, List.length_append, sameLength]
  obtain ⟨layout1, laid1, _, header1, _, baseIs⟩ := open_eq_ok.mp damage.opens
  obtain ⟨layout2, laid2, _, _, _, baseIs'⟩ := open_eq_ok.mp damage.opensDamaged
  change segmentLayout (file.slice start written.size) = _ at laid1
  change segmentLayout ((file.write start damaged).slice start written.size) = _ at laid2
  rw [damage.laid] at laid1
  cases laid1
  have fits := isBase.size
  rw [segmentBytes_length] at fits
  rw [damagedImage, ← sameLength, segmentLayout_written
    (by rw [blockChecksums_length, sameLength]) (by rw [blockChecksums_length, sameLength]; exact fits)]
    at laid2
  cases laid2
  obtain ⟨index, laid, dataIs⟩ := isBase.laid
  have header := laid.header
  rw [← dataIs, header1, Except.ok.injEq, Prod.mk.injEq] at header
  obtain ⟨slotsIs, lenIs⟩ := header
  rw [count] at lenIs
  refine ⟨entries, slots, checksumMetadata data.length (blockChecksums data), isBase, count, sameLength,
    ?_, ?_, ?_, ?_, ?_, ?_, ?_, ?_⟩
  · intro b below differs equal
    refine damage.caught b below differs ?_
    have cell := window_cell (leBytes_length 4) (blockChecksums data) []
      (i := b) (by simpa using below)
    rw [List.append_nil] at cell
    rw [Nat.mul_comm, cell, equal]
    simp only [blockChecksums, List.getElem_map, List.getElem_range]
    rw [leNat_leBytes _ _ (crc32c_lt _)]
  · rw [baseIs]
    exact image
  · rw [baseIs']
    exact damagedImage
  · rw [baseIs, damage.offset]
    rfl
  · rw [baseIs', damage.offset]
    rfl
  · rw [baseIs, baseIs']
    exact ⟨damage.offset, damage.offset⟩
  · rw [baseIs, baseIs']
    exact ⟨slotsIs, slotsIs⟩
  · rw [baseIs, baseIs']
    exact ⟨lenIs, lenIs⟩

/-- Reads leave a reader guarded. -/
theorem guarded_readAll {data : Bytes} (view : ReadView) {v : SegmentVerifier}
    (guarded : Guarded data (view.base.mapping.deref file) true v) (roomy : Roomy data true)
    (pointed : Pointed data view.base.offset view.base.slots) (mode : view.verification = .onRead)
    (keys : List Bytes) :
    Guarded data (view.base.mapping.deref file) true (view.readAll C file keys v) ∧
      Same v (view.readAll C file keys v) := by
  induction keys generalizing v with
  | nil => exact ⟨guarded, Same.refl v⟩
  | cons key rest ih =>
      have step : Guarded data (view.base.mapping.deref file) true (view.get C file key v).2 ∧
          Same v (view.get C file key v).2 := by
        have spec := wp_get (C := C) guarded roomy pointed mode key
        unfold wp at spec
        split at spec <;> rename_i ran <;> rw [ran] <;> exact ⟨spec.1, spec.2.1⟩
      obtain ⟨after, same⟩ := ih step.1
      exact ⟨after, step.2.trans same⟩

/-- A checked read returns what the undamaged Base gives, or an error for a block that
does not match. -/
theorem get_cases {data : Bytes} (view : ReadView) {v : SegmentVerifier}
    (guarded : Guarded data (view.base.mapping.deref file) true v) (roomy : Roomy data true)
    (pointed : Pointed data view.base.offset view.base.slots) (mode : view.verification = .onRead)
    (key : Bytes) :
    (view.get C file key v).1 =
        readResult C file view.overlay data view.base.offset view.base.slots key ∨
      (∃ error, (view.get C file key v).1 = .error (.err error)) ∧
        ¬AllMatch (view.base.mapping.deref file) v := by
  have spec := wp_get (C := C) guarded roomy pointed mode key
  unfold wp at spec
  split at spec
  · rename_i ran
    rw [ran]
    exact .inl spec.2.2.symm
  · rename_i ran
    rw [ran]
    rcases spec.2.2 with same | ⟨⟨error, rfl⟩, damaged⟩
    · exact .inl same.symm
    · exact .inr ⟨⟨error, rfl⟩, damaged⟩

/-- A point read of damaged data answers as the original would, or with an error. -/
theorem damaged_get
    (damage : Damage C feed i start len d d' written sb file layout damaged base base')
    (apart : overlay.log (file.write start damaged) = overlay.log file)
    (earlier before : List Bytes) (key : Bytes) :
    (∃ error, ((base'.readView overlay .onRead).get C (file.write start damaged) key
        ((base'.readView overlay .onRead).readAll C (file.write start damaged) earlier
          base'.verifier)).1 = .error (.err error)) ∨
      ((base'.readView overlay .onRead).get C (file.write start damaged) key
        ((base'.readView overlay .onRead).readAll C (file.write start damaged) earlier
          base'.verifier)).1 =
      ((base.readView overlay .onRead).get C file key
        ((base.readView overlay .onRead).readAll C file before base.verifier)).1 := by
  obtain ⟨entries, slots, rest, views⟩ := damage.views
  obtain ⟨index, laid, dataIs⟩ := views.isBase.laid
  have pointed : Pointed layout.data start slots := dataIs ▸ laid.pointed
  have roomy := views.isBase.roomy
  have result : ∀ f, overlay.log f = overlay.log file →
      readResult C f overlay layout.data start slots key =
        readResult C file overlay layout.data start slots key := by
    intro f same
    unfold readResult
    rw [OverlayMap.getHashed_congr same]
  -- The original handle: every block matches, so it cannot fail.
  have original : ((base.readView overlay .onRead).get C file key
      ((base.readView overlay .onRead).readAll C file before base.verifier)).1 =
      readResult C file overlay layout.data start slots key := by
    have pointed1 : Pointed layout.data base.offset base.slots := by
      rwa [views.offset.1, views.slots.1]
    have guarded : Guarded layout.data (base.mapping.deref file) true base.verifier := by
      rw [views.deref, views.verifier]
      exact guarded_verifierOf rfl fun b _ differs => absurd rfl differs
    have all : AllMatch (base.mapping.deref file) base.verifier := by
      rw [views.deref, views.verifier]
      exact allMatch_verifierOf
    obtain ⟨after, same⟩ := guarded_readAll (C := C) (base.readView overlay .onRead) guarded roomy
      pointed1 rfl before
    rcases get_cases (C := C) (base.readView overlay .onRead) after roomy pointed1 rfl key with
      read | ⟨_, damaged⟩
    · rw [read]
      change readResult C file overlay layout.data base.offset base.slots key = _
      rw [views.offset.1, views.slots.1]
    · exact absurd (same.allMatch.mpr all) damaged
  have pointed2 : Pointed layout.data base'.offset base'.slots := by
    rwa [views.offset.2, views.slots.2]
  have guarded' : Guarded layout.data (base'.mapping.deref (file.write start damaged)) true
      base'.verifier := by
    rw [views.deref', views.verifier']
    exact guarded_verifierOf views.sameLength views.caught
  obtain ⟨after, _⟩ := guarded_readAll (C := C) (base'.readView overlay .onRead) guarded' roomy
    pointed2 rfl earlier
  rcases get_cases (C := C) (base'.readView overlay .onRead) after roomy pointed2 rfl key with
    read | ⟨stopped, _⟩
  · right
    rw [read, original]
    change readResult C _ overlay layout.data base'.offset base'.slots key = _
    rw [views.offset.2, views.slots.2]
    exact result _ apart
  · exact .inl stopped

end Damage

/-! ## Iteration -/

section Items

variable {mapping : Bytes} {verification : VerificationMode} {v : SegmentVerifier}
variable {items : List Item} {reported : List (Except Error Entry)}

/-- The pairs reported are those of the items whose blocks match. -/
theorem ok_mem_reported (reports : List.Forall₂ (Reported mapping verification v) items reported)
    (pair : Entry) : .ok pair ∈ reported ↔
      ∃ item ∈ items, Passes mapping verification v item ∧ pair = (item.key, item.value) := by
  induction reports with
  | nil => simp
  | @cons item report items others here _ ih =>
      rw [List.mem_cons, ih]
      rcases here with ⟨pass, rfl⟩ | ⟨fails, error, rfl⟩
      · simp [pass]
      · simp [fails]

/-- No error is reported exactly when the blocks of every item match. -/
theorem no_error_reported (reports : List.Forall₂ (Reported mapping verification v) items reported) :
    (∀ error, .error error ∉ reported) ↔ ∀ item ∈ items, Passes mapping verification v item := by
  induction reports with
  | nil => simp
  | @cons item report items others here _ ih =>
      rw [List.forall_mem_cons, ← ih]
      rcases here with ⟨pass, rfl⟩ | ⟨fails, error, rfl⟩
      · simp [pass]
      · simp only [List.mem_cons, fails, false_and, iff_false]
        exact fun none => none error (.inl rfl)

end Items

/-- The records an iteration walks in Base data, with their offsets. -/
def walkedRecords (data : Bytes) (slots len : Nat) : List (Nat × Entry) :=
  (walkBase data data.length len (baseHeader + slots * slotSize)).1

/-- The error in which that walk ends, if it does. -/
def walkError (data : Bytes) (slots len : Nat) : Option Error :=
  (walkBase data data.length len (baseHeader + slots * slotSize)).2

/-- The key and value of the record lie in unchanged blocks. -/
def Intact (data damaged : Bytes) (p : Nat × Entry) : Prop :=
  ∀ b < divCeil data.length checksumBlockSize, Meets (p.1 + 8) (p.1 + recordSize p.2) b →
    dataBlock damaged b = dataBlock data b

instance (data damaged : Bytes) (p : Nat × Entry) : Decidable (Intact data damaged p) := by
  unfold Intact Meets
  infer_instance

/-- The keys read from changed blocks. -/
def damagedKeys (data damaged : Bytes) (slots len : Nat) : List Bytes :=
  ((walkedRecords damaged slots len).filter fun p => ¬Intact data damaged p).map fun p => p.2.1

/-- Under an overlay with these keys: a record that the walk over the damaged data meets in
unchanged blocks, and that is not shadowed, is an original one; and if the walk gets to the end
and every record that is not shadowed lies in unchanged blocks, these are the original records
that are not shadowed. -/
def HonestUnder (data damaged : Bytes) (slots len : Nat) (keys : List Bytes) : Prop :=
  (∀ p ∈ walkedRecords damaged slots len, p.2.1 ∉ keys → Intact data damaged p →
      p.2 ∈ (walkedRecords data slots len).map Prod.snd) ∧
    (walkError damaged slots len = none →
      (∀ p ∈ walkedRecords damaged slots len, p.2.1 ∉ keys → Intact data damaged p) →
      ((walkedRecords damaged slots len).map Prod.snd).filter (fun entry => entry.1 ∉ keys) =
        ((walkedRecords data slots len).map Prod.snd).filter (fun entry => entry.1 ∉ keys))

instance (data damaged : Bytes) (slots len : Nat) (keys : List Bytes) :
    Decidable (HonestUnder data damaged slots len keys) := by
  unfold HonestUnder
  infer_instance

/-- The walk over the damaged data meets no foreign record in unchanged blocks, and
if it gets to the end it has skipped nothing: apart from the keys read from changed
blocks it has the original records. -/
def HonestDamage (data damaged : Bytes) (slots len : Nat) : Prop :=
  (∀ p ∈ walkedRecords damaged slots len, Intact data damaged p →
      p.2 ∈ (walkedRecords data slots len).map Prod.snd) ∧
    (walkError damaged slots len = none →
      ((walkedRecords damaged slots len).map Prod.snd).filter
          (fun entry => entry.1 ∉ damagedKeys data damaged slots len) =
        ((walkedRecords data slots len).map Prod.snd).filter
          (fun entry => entry.1 ∉ damagedKeys data damaged slots len))

/-- Every pair yielded is one of the original iteration, and an iteration without an
error yields all of them. -/
def FaithfulIteration (original damaged : Res (List (Except Error Entry))) : Prop :=
  ∃ items items', original = .ok items ∧ damaged = .ok items' ∧
    (∀ pair : Entry, .ok pair ∈ items' → .ok pair ∈ items) ∧
    ((∀ error, .error error ∉ items') → items' = items)

section Walk

variable {data damaged rest : Bytes}

/-- A record passes when its blocks are unchanged. -/
theorem passes_iff_intact {start slots len : Nat} (word : damaged.length < 2 ^ 64)
    (sameLength : damaged.length = data.length)
    (caught : ∀ b < divCeil data.length checksumBlockSize, dataBlock damaged b ≠ dataBlock data b →
      crc32c (dataBlock damaged b) ≠ crc32c (dataBlock data b))
    {p : Nat × Entry} (walked : p ∈ walkedRecords damaged slots len) :
    Passes (damaged ++ rest) .onRead (verifierOf start damaged data false) (baseItem p) ↔
      Intact data damaged p := by
  have inside := (walkBase_records le_rfl word walked).inside
  have block : ∀ b, Meets (p.1 + 8) (p.1 + recordSize p.2) b →
      b < divCeil data.length checksumBlockSize := by
    intro b meets
    have := @block_lt data.length (p.1 + recordSize p.2) (by have := meets.1; omega) (by omega)
    exact lt_of_le_of_lt meets.2.2 this
  have matchesIff : ∀ b, Meets (p.1 + 8) (p.1 + recordSize p.2) b →
      (Matches (damaged ++ rest) (verifierOf start damaged data false) b ↔
        dataBlock damaged b = dataBlock data b) := by
    intro b meets
    rw [matches_iff (block b meets)]
    constructor
    · intro equal
      by_contra differs
      exact caught b (block b meets) differs equal
    · exact congrArg crc32c
  constructor
  · intro passes b _ meets
    exact (matchesIff b meets).mp (passes rfl _ _ rfl b meets)
  · rintro intact _ _ _ ⟨⟩ b meets
    exact (matchesIff b meets).mpr (intact b (block b meets) meets)

end Walk

section Iteration

variable {ι : Type} {C : Crates} {feed : Feed ι} {i : ι} {start len : Nat} {d d' : Disk}
variable {written : WrittenBase} {sb : Superblock} {file : File} {layout : SegmentLayout}
variable {data damaged rest : Bytes} {base base' : ActiveBase} {overlay : OverlayMap}
variable {entries : List Entry} {slots : Nat} {ops visited : List Operation}

/-- Iterating over the original yields its pairs. -/
theorem DamageViews.iterOriginal (views : DamageViews C start len file data damaged base base' entries
    slots rest) (decodes : overlay.Decodes file ops) (visits : overlay.Visits C file visited) :
    ((base.readView overlay .onRead).iterAll C file base.len base.verifier).1 =
      .ok ((pairsOf (walkedRecords data slots len) ops visited).map .ok) ∧
    walkError data slots len = none := by
  obtain ⟨index, laid, dataIs⟩ := views.isBase.laid
  have walk : walkBase data data.length len (baseHeader + slots * slotSize) =
      (placed (baseHeader + slots * slotSize) entries, none) := by
    rw [← views.count]
    exact walkBase_of_walk le_rfl views.isBase.roomy.1 (dataIs ▸ laid.walk)
  have size : base.verifier.dataSize = data.length := by rw [views.verifier]; rfl
  have walk' : walkBase (base.mapping.deref file) base.verifier.dataSize base.len
      (baseHeader + base.slots * slotSize) = (walkedRecords data slots len, none) := by
    rw [views.deref, size, views.len.1, views.slots.1, walkBase_append, walkedRecords, walk]
  have inside : base.verifier.dataSize ≤ (base.mapping.deref file).length := by
    rw [views.deref, size, List.length_append]
    omega
  have word : base.verifier.dataSize < 2 ^ 64 := size ▸ views.isBase.roomy.1
  have sound : base.verifier.Sound (base.mapping.deref file) := by
    rw [views.deref, views.verifier]
    exact sound_verifierOf rfl nofun
  have all : AllMatch (base.mapping.deref file) base.verifier := by
    rw [views.deref, views.verifier]
    exact allMatch_verifierOf
  obtain ⟨v', ran, _⟩ := @iterAll_eq file _ ops visited (base.readView overlay .onRead) base.verifier C
    base.len inside word walk' decodes visits rfl (fun _ => sound) (fun _ => all)
  refine ⟨?_, by rw [walkError, walk]⟩
  rw [ran, ← items_pairs, List.map_map]
  rfl

/-- Iterating over the damaged data reports each item it meets, and the error at the
end of the walk. -/
theorem DamageViews.iterDamaged (views : DamageViews C start len file data damaged base base' entries
    slots rest) (decodes : overlay.Decodes file ops) (visits : overlay.Visits C file visited)
    (apart : overlay.log (file.write start damaged) = overlay.log file) :
    ∃ reported, ((base'.readView overlay .onRead).iterAll C (file.write start damaged) base'.len
        base'.verifier).1 =
        .ok (reported ++ (walkError damaged slots len).toList.map .error) ∧
      List.Forall₂ (Reported (damaged ++ rest) .onRead (verifierOf start damaged data false))
        (itemsOf (walkedRecords damaged slots len) (walkError damaged slots len) ops visited)
        reported := by
  have size : base'.verifier.dataSize = damaged.length := by rw [views.verifier']; rfl
  have word : damaged.length < 2 ^ 64 := by
    rw [views.sameLength]
    exact views.isBase.roomy.1
  have walk : walkBase (base'.mapping.deref (file.write start damaged)) base'.verifier.dataSize
      base'.len (baseHeader + base'.slots * slotSize) =
      (walkedRecords damaged slots len, walkError damaged slots len) := by
    rw [views.deref', size, views.len.2, views.slots.2, walkBase_append]
    rfl
  have inside : base'.verifier.dataSize ≤
      (base'.mapping.deref (file.write start damaged)).length := by
    rw [views.deref', size, List.length_append]
    omega
  have word' : base'.verifier.dataSize < 2 ^ 64 := size ▸ word
  have sound : base'.verifier.Sound (base'.mapping.deref (file.write start damaged)) := by
    rw [views.deref', views.verifier']
    exact sound_verifierOf views.sameLength nofun
  have unchecked : base'.verifier.semanticallyVerified = false := by
    rw [views.verifier']
    rfl
  have spec := @wp_iterAll (file.write start damaged) _ _ ops visited
    (base'.readView overlay .onRead) base'.verifier C base'.len inside word' walk
    (fun checked => by rw [unchecked] at checked; cases checked) (decodes.congr apart)
    (visits.congr apart) rfl (fun _ => sound)
  obtain ⟨_, v', ran, _, _, reported, rfl, reports⟩ := wp_returns spec fun _ _ => id
  refine ⟨reported, by rw [ran], ?_⟩
  change List.Forall₂ (Reported (base'.mapping.deref (file.write start damaged)) .onRead base'.verifier)
    _ _ at reports
  rwa [views.deref', views.verifier'] at reports

/-- What a faithful iteration comes to, in terms of the two walks. -/
theorem DamageViews.faithful_iff (views : DamageViews C start len file data damaged base base' entries
    slots rest) (decodes : overlay.Decodes file ops) (visits : overlay.Visits C file visited)
    (apart : overlay.log (file.write start damaged) = overlay.log file) :
    FaithfulIteration ((base.readView overlay .onRead).iterAll C file base.len base.verifier).1
        ((base'.readView overlay .onRead).iterAll C (file.write start damaged) base'.len
          base'.verifier).1 ↔
      (∀ p ∈ walkedRecords damaged slots len, shadows ops p.2.1 = false → Intact data damaged p →
        p.2 ∈ pairsOf (walkedRecords data slots len) ops visited) ∧
      (walkError damaged slots len = none →
        (∀ p ∈ walkedRecords damaged slots len, shadows ops p.2.1 = false → Intact data damaged p) →
        pairsOf (walkedRecords damaged slots len) ops visited =
          pairsOf (walkedRecords data slots len) ops visited) := by
  have word : damaged.length < 2 ^ 64 := by
    rw [views.sameLength]
    exact views.isBase.roomy.1
  have passes := fun p member =>
    @passes_iff_intact data damaged rest start slots len word views.sameLength views.caught p member
  obtain ⟨reported, ran, reports⟩ := views.iterDamaged decodes visits apart
  have all_pass : (∀ item ∈ itemsOf (walkedRecords damaged slots len) (walkError damaged slots len)
        ops visited, Passes (damaged ++ rest) .onRead (verifierOf start damaged data false) item) ↔
      ∀ p ∈ walkedRecords damaged slots len, shadows ops p.2.1 = false → Intact data damaged p := by
    constructor
    · intro all p member open_
      refine (passes p member).mp (all _ (List.mem_append_left _ (List.mem_map_of_mem ?_)))
      exact List.mem_filter.mpr ⟨member, by simp [open_]⟩
    · intro all item member
      rcases List.mem_append.mp member with base | live
      · obtain ⟨p, kept, rfl⟩ := List.mem_map.mp base
        obtain ⟨member, open_⟩ := List.mem_filter.mp kept
        exact (passes p member).mpr (all p member (by simpa using open_))
      · split at live
        · cases live
        · obtain ⟨entry, _, rfl⟩ := List.mem_map.mp live
          rintro _ _ _ ⟨⟩
  have no_error : (∀ error, .error error ∉ reported ++ (walkError damaged slots len).toList.map .error) ↔
      walkError damaged slots len = none ∧
        ∀ p ∈ walkedRecords damaged slots len, shadows ops p.2.1 = false → Intact data damaged p := by
    rw [← all_pass, ← no_error_reported reports]
    cases walkError damaged slots len with
    | none => simp
    | some failure =>
        simp only [Option.toList_some, List.map_cons, List.map_nil, List.mem_append,
          List.mem_singleton, reduceCtorEq, false_and, iff_false]
        exact fun none => none failure (.inr rfl)
  have unchanged : (∀ pair : Entry,
        .ok pair ∈ reported ++ (walkError damaged slots len).toList.map .error →
        .ok pair ∈ (pairsOf (walkedRecords data slots len) ops visited).map
          (.ok : Entry → Except Error Entry)) ↔
      ∀ p ∈ walkedRecords damaged slots len, shadows ops p.2.1 = false → Intact data damaged p →
        p.2 ∈ pairsOf (walkedRecords data slots len) ops visited := by
    have listed : ∀ pair : Entry, .ok pair ∈ reported ++ (walkError damaged slots len).toList.map .error ↔
        .ok pair ∈ reported := fun pair => by simp
    simp only [listed, ok_mem_reported reports, List.mem_map, Except.ok.injEq, exists_eq_right]
    constructor
    · intro all p member open_ intact
      refine all p.2 ⟨baseItem p, List.mem_append_left _ (List.mem_map_of_mem ?_),
        (passes p member).mpr intact, rfl⟩
      exact List.mem_filter.mpr ⟨member, by simp [open_]⟩
    · rintro all _ ⟨item, member, pass, rfl⟩
      rcases List.mem_append.mp member with base | live
      · obtain ⟨p, kept, rfl⟩ := List.mem_map.mp base
        obtain ⟨member, open_⟩ := List.mem_filter.mp kept
        exact all p member (by simpa using open_) ((passes p member).mp pass)
      · split at live
        · cases live
        · obtain ⟨entry, listed', rfl⟩ := List.mem_map.mp live
          exact List.mem_append_right _ listed'
  constructor
  · rintro ⟨items, items', original, damaged', same, complete⟩
    rw [(views.iterOriginal decodes visits).1] at original
    rw [ran] at damaged'
    cases original
    cases damaged'
    refine ⟨unchanged.mp same, fun whole all => ?_⟩
    have equal := complete (no_error.mpr ⟨whole, all⟩)
    have inj : Function.Injective (List.map (Except.ok : Entry → Except Error Entry)) :=
      List.map_injective_iff.mpr fun _ _ => Except.ok.inj
    have pass := all_pass.mpr all
    rw [whole] at reports equal pass
    rw [reported_eq pass reports] at equal
    rw [← items_pairs]
    refine inj ?_
    rw [← equal, List.map_map]
    simp
  · rintro ⟨same, complete⟩
    refine ⟨_, _, (views.iterOriginal decodes visits).1, ran, unchanged.mpr same, fun clean => ?_⟩
    obtain ⟨whole, all⟩ := no_error.mp clean
    have pass := all_pass.mpr all
    rw [← complete whole all, ← items_pairs, List.map_map]
    rw [whole] at reports pass ⊢
    rw [reported_eq pass reports]
    simp

theorem shadows_eq (ops : List Operation) (key : Bytes) :
    shadows ops key = decide (key ∈ ops.map Prod.fst) := by
  rw [shadows, Bool.eq_iff_iff, decide_eq_true_iff, ← Option.ne_none_iff_isSome, Ne,
    latest_eq_none_iff, not_not]

/-- What the overlay adds is under its own keys. -/
theorem key_of_liveOps (perm : visited.Perm ops) {entry : Entry} (live : entry ∈ liveOps visited) :
    entry.1 ∈ ops.map Prod.fst := by
  obtain ⟨op, member, value⟩ := List.mem_filterMap.mp live
  obtain ⟨value, -, rfl⟩ := Option.map_eq_some_iff.mp value
  exact List.mem_map_of_mem (perm.mem_iff.mp member)

/-- The same in terms of the keys of the overlay. -/
theorem DamageViews.honest_iff (views : DamageViews C start len file data damaged base base' entries
    slots rest) (decodes : overlay.Decodes file ops)
    (apart : overlay.log (file.write start damaged) = overlay.log file) :
    FaithfulIteration ((base.readView overlay .onRead).iterAll C file base.len base.verifier).1
        ((base'.readView overlay .onRead).iterAll C (file.write start damaged) base'.len
          base'.verifier).1 ↔
      HonestUnder data damaged slots len (ops.map Prod.fst) := by
  obtain ⟨visited, perm, visits⟩ := OverlayMap.iter_decodes C decodes
  rw [views.faithful_iff decodes visits apart]
  have open_iff : ∀ key, shadows ops key = false ↔ key ∉ ops.map Prod.fst := by
    intro key
    rw [shadows_eq, decide_eq_false_iff_not]
  have filters : ∀ list : List Entry, list.filter (fun entry => !shadows ops entry.1) =
      list.filter fun entry => entry.1 ∉ ops.map Prod.fst := by
    intro list
    refine List.filter_congr fun entry _ => ?_
    rw [shadows_eq, decide_not]
  unfold HonestUnder pairsOf
  simp only [open_iff, filters, List.append_cancel_right_eq, List.mem_append, List.mem_filter]
  refine and_congr_left' (forall₂_congr fun p _ => forall₂_congr fun out intact => ?_)
  constructor
  · rintro (⟨walked, -⟩ | live)
    · exact walked
    · exact absurd (key_of_liveOps perm live) out
  · exact fun walked => .inl ⟨walked, decide_eq_true out⟩

/-- Iteration over damaged data is faithful under an overlay exactly when the damage is honest
under its keys. -/
theorem damaged_iteration_iff
    (damage : Damage C feed i start len d d' written sb file layout damaged base base')
    (decodes : overlay.Decodes file ops)
    (apart : overlay.log (file.write start damaged) = overlay.log file) :
    FaithfulIteration
        ((base.readView overlay .onRead).iterAll C file base.len base.verifier).1
        ((base'.readView overlay .onRead).iterAll C (file.write start damaged) base'.len
          base'.verifier).1 ↔
      HonestUnder layout.data damaged base.slots len (ops.map Prod.fst) := by
  obtain ⟨entries, slots, rest, views⟩ := damage.views
  rw [views.slots.1]
  exact views.honest_iff decodes apart

/-! ### Every overlay at once -/

/-- Where two lists agree apart from some keys, they agree apart from more. -/
theorem filter_keys_eq {keys more : List Bytes} {one two : List Entry}
    (agree : one.filter (fun entry => entry.1 ∉ keys) = two.filter (fun entry => entry.1 ∉ keys))
    (covered : ∀ key ∈ keys, key ∈ more) :
    one.filter (fun entry => entry.1 ∉ more) = two.filter (fun entry => entry.1 ∉ more) := by
  have refine_ : ∀ list : List Entry, list.filter (fun entry => entry.1 ∉ more) =
      (list.filter fun entry => entry.1 ∉ keys).filter fun entry => entry.1 ∉ more := by
    intro list
    rw [List.filter_filter]
    refine List.filter_congr fun entry _ => ?_
    by_cases member : entry.1 ∈ keys
    · simp [member, covered entry.1 member]
    · simp [member]
  rw [refine_ one, refine_ two, agree]

/-- The damage is honest under all keys if it is under none and under those that it changed. -/
theorem honestDamage_iff (data damaged : Bytes) (slots len : Nat) :
    HonestDamage data damaged slots len ↔ ∀ keys : List Bytes, keys.Nodup →
      HonestUnder data damaged slots len keys := by
  constructor
  · rintro ⟨genuine, complete⟩ keys -
    refine ⟨fun p member _ intact => genuine p member intact, fun whole all => ?_⟩
    refine filter_keys_eq (complete whole) fun key member => ?_
    obtain ⟨p, kept, rfl⟩ := List.mem_map.mp member
    obtain ⟨walked, changed⟩ := List.mem_filter.mp kept
    by_contra out
    exact (by simpa using changed : ¬Intact data damaged p) (all p walked out)
  · intro honest
    constructor
    · -- With no keys at all, a record in unchanged blocks is not shadowed.
      exact fun p member intact => (honest [] List.nodup_nil).1 p member List.not_mem_nil intact
    · -- Shadowing the keys read from changed blocks hides every block check that fails.
      intro whole
      have under := (honest (damagedKeys data damaged slots len).dedup (List.nodup_dedup _)).2 whole
      simp only [List.mem_dedup] at under
      refine under fun p member out => ?_
      by_contra changed
      exact out (List.mem_map.mpr ⟨p, List.mem_filter.mpr ⟨member, by simpa using changed⟩, rfl⟩)

/-- An overlay of deletions, none of them in a mapped log. -/
def tombstones (keys : List Bytes) : OverlayMap :=
  .mapped none [] (keys.map fun key => ⟨key, .delete, ⟨0⟩⟩)

theorem tombstones_decode (file : File) (keys : List Bytes) :
    (tombstones keys).Decodes file (keys.map fun key => (key, none)) := by
  refine ⟨[], .nil, ?_⟩
  simp [TailOverlayEntry.operation, OverlayEntry.seen]

theorem tombstones_apart (file file' : File) (keys : List Bytes) :
    (tombstones keys).log file' = (tombstones keys).log file := rfl

/-- So iteration is faithful under every overlay exactly when the damage is honest. -/
theorem damaged_iteration_every_overlay
    (damage : Damage C feed i start len d d' written sb file layout damaged base base') :
    (∀ overlay ops, overlay.Decodes file ops → (ops.map Prod.fst).Nodup →
      overlay.log (file.write start damaged) = overlay.log file →
      FaithfulIteration
        ((base.readView overlay .onRead).iterAll C file base.len base.verifier).1
        ((base'.readView overlay .onRead).iterAll C (file.write start damaged) base'.len
          base'.verifier).1) ↔
      HonestDamage layout.data damaged base.slots len := by
  obtain ⟨entries, slots, rest, views⟩ := damage.views
  rw [views.slots.1, honestDamage_iff]
  constructor
  · intro faithful keys nodup
    have decodes := tombstones_decode file keys
    have apart := tombstones_apart file (file.write start damaged) keys
    have keysOf : (keys.map fun key => ((key, none) : Operation)).map Prod.fst = keys := by
      simp [Function.comp_def]
    have honest := (views.honest_iff decodes apart).mp
      (faithful (tombstones keys) _ decodes (keysOf.symm ▸ nodup) apart)
    rwa [keysOf] at honest
  · intro honest overlay ops decodes nodup apart
    exact (views.honest_iff decodes apart).mpr (honest _ nodup)

end Iteration

/-! ## A Base of one record -/

def lonelyData : Bytes := dataBytes 2 [(0, dataStart + 48), (0, 0)] [([1], [2])]

theorem lonely_isBase : IsBase zeroHash dataStart [([1], [2])] 2 lonelyData where
  count := by decide
  valid := by simp [ValidEntry, maxKeySize, maxValueSize]
  placed := ⟨[(0, dataStart + 48), (0, 0)], by decide +kernel, rfl⟩
  word := by decide
  size := by
    rw [segmentBytes_length]
    decide

/-- The writer run on the single record of key 1. -/
def lonelyRun : Res WrittenBase × Disk :=
  writeBaseWithMetadataAt zeroHash Feed.ofList dataStart 1 [([1], [2])] (Disk.ofFile File.empty [])

theorem lonelyRun_eq :
    lonelyRun.1 = .ok ⟨86, 2, 1, metadataChecksum lonelyData⟩ ∧
      lonelyRun.2.file = File.empty.write dataStart (segmentBytes lonelyData) := by
  obtain ⟨d', ran, file⟩ := writes_ofList lonely_isBase (Disk.quiet_ofFile File.empty)
  have size : (segmentBytes lonelyData).length = 86 := by
    rw [segmentBytes_length]
    decide
  unfold lonelyRun
  rw [← size]
  exact ⟨congrArg Prod.fst ran, (congrArg (fun r => r.2.file) ran).trans file⟩

def lonelyRoot : Superblock where
  generation := 1
  baseOffset := dataStart
  baseSize := 86
  baseSlots := 2
  baseLen := 1
  logStart := dataStart + 86
  baseChecksum := metadataChecksum lonelyData
  words := by decide
  checksumWord := crc32c_lt _

/-- The same data with key 3 in place of key 1. -/
def renamedData : Bytes := dataBytes 2 [(0, dataStart + 48), (0, 0)] [([3], [2])]

def lonelyBase (seen : Bytes) : ActiveBase :=
  ActiveBase.new (.mapped dataStart 86) (verifierOf dataStart seen lonelyData false) lonelyRoot 2 1

theorem lonely_damage :
    Damage zeroHash Feed.ofList [([1], [2])] dataStart 1 (Disk.ofFile File.empty []) lonelyRun.2
      ⟨86, 2, 1, metadataChecksum lonelyData⟩ lonelyRoot lonelyRun.2.file
      ⟨lonelyData, (blockChecksums lonelyData).flatMap (leBytes 4)⟩ renamedData
      (lonelyBase lonelyData) (lonelyBase renamedData) := by
  obtain ⟨result, file⟩ := lonelyRun_eq
  have size : (segmentBytes lonelyData).length = 86 := by
    rw [segmentBytes_length]
    decide
  have image : lonelyRun.2.file.slice dataStart 86 = segmentBytes lonelyData := by
    rw [file, ← size]
    exact File.empty.holds_write dataStart _
  have renamed : (lonelyRun.2.file.write dataStart renamedData).slice dataStart 86 =
      renamedData ++ checksumMetadata renamedData.length (blockChecksums lonelyData) := by
    have held : lonelyRun.2.file.Holds dataStart (segmentBytes lonelyData) := by
      rw [File.Holds, size]
      exact image
    have sameLength : renamedData.length = lonelyData.length := by decide
    rw [sameLength]
    refine (holds_overwritten held sameLength).slice_eq ?_
    rw [List.length_append, checksumMetadata_length, blockChecksums_length]
    decide
  refine ⟨Prod.ext result rfl, rfl, rfl, ?_, by decide +kernel, by decide +kernel, ?_, ?_⟩
  · exact image ▸ lonely_isBase.segmentLayout
  · exact open_written lonely_isBase (by decide) image ⟨rfl, rfl, rfl, rfl⟩
  · refine open_eq_ok.mpr ⟨⟨renamedData, (blockChecksums lonelyData).flatMap (leBytes 4)⟩, ?_, ?_, ?_, ?_, rfl⟩
    · change segmentLayout ((lonelyRun.2.file.write dataStart renamedData).slice dataStart 86) = _
      rw [renamed]
      exact segmentLayout_written (by decide +kernel) (by decide +kernel)
    · change (crc32c (((lonelyRun.2.file.write dataStart renamedData).slice dataStart 86).drop _)).toNat = _
      rw [renamed, List.drop_left]
      change _ = metadataChecksum lonelyData
      rw [metadataChecksum, show renamedData.length = lonelyData.length by decide]
    · decide +kernel
    · intro full
      cases full

theorem renamed_key_get :
    (∃ error, (((lonelyBase renamedData).readView (tombstones [[3]]) .onRead).get zeroHash
        (lonelyRun.2.file.write dataStart renamedData) [1]
        (((lonelyBase renamedData).readView (tombstones [[3]]) .onRead).readAll zeroHash
          (lonelyRun.2.file.write dataStart renamedData) [[2], [1]]
          (lonelyBase renamedData).verifier)).1 = .error (.err error)) ∨
      (((lonelyBase renamedData).readView (tombstones [[3]]) .onRead).get zeroHash
        (lonelyRun.2.file.write dataStart renamedData) [1]
        (((lonelyBase renamedData).readView (tombstones [[3]]) .onRead).readAll zeroHash
          (lonelyRun.2.file.write dataStart renamedData) [[2], [1]]
          (lonelyBase renamedData).verifier)).1 =
      (((lonelyBase lonelyData).readView (tombstones [[3]]) .onRead).get zeroHash lonelyRun.2.file [1]
        (((lonelyBase lonelyData).readView (tombstones [[3]]) .onRead).readAll zeroHash
          lonelyRun.2.file [] (lonelyBase lonelyData).verifier)).1 :=
  damaged_get lonely_damage (tombstones_apart _ _ [[3]]) [[2], [1]] [] [1]

/-- Without an overlay the damage is reported; when the overlay deletes key 3, it is not. -/
theorem renamed_key_iteration :
    FaithfulIteration
        (((lonelyBase lonelyData).readView (tombstones []) .onRead).iterAll zeroHash lonelyRun.2.file
          (lonelyBase lonelyData).len (lonelyBase lonelyData).verifier).1
        (((lonelyBase renamedData).readView (tombstones []) .onRead).iterAll zeroHash
          (lonelyRun.2.file.write dataStart renamedData) (lonelyBase renamedData).len
          (lonelyBase renamedData).verifier).1 ∧
      ¬FaithfulIteration
        (((lonelyBase lonelyData).readView (tombstones [[3]]) .onRead).iterAll zeroHash lonelyRun.2.file
          (lonelyBase lonelyData).len (lonelyBase lonelyData).verifier).1
        (((lonelyBase renamedData).readView (tombstones [[3]]) .onRead).iterAll zeroHash
          (lonelyRun.2.file.write dataStart renamedData) (lonelyBase renamedData).len
          (lonelyBase renamedData).verifier).1 := by
  constructor
  · rw [damaged_iteration_iff lonely_damage (tombstones_decode _ []) (tombstones_apart _ _ [])]
    decide +kernel
  · rw [damaged_iteration_iff lonely_damage (tombstones_decode _ [[3]]) (tombstones_apart _ _ [[3]])]
    decide +kernel

/-- Key 1 has become key 3, which the overlay deletes: the iteration yields nothing
and reports no error. -/
theorem damaged_iteration_loses_a_record :
    Damage zeroHash Feed.ofList [([1], [2])] dataStart 1 (Disk.ofFile File.empty []) lonelyRun.2
        ⟨86, 2, 1, metadataChecksum lonelyData⟩ lonelyRoot lonelyRun.2.file
        ⟨lonelyData, (blockChecksums lonelyData).flatMap (leBytes 4)⟩ renamedData
        (lonelyBase lonelyData) (lonelyBase renamedData) ∧
      (((lonelyBase lonelyData).readView (tombstones [[3]]) .onRead).iterAll zeroHash
        lonelyRun.2.file 1 (lonelyBase lonelyData).verifier).1 = .ok [.ok ([1], [2])] ∧
      (((lonelyBase renamedData).readView (tombstones [[3]]) .onRead).iterAll zeroHash
        (lonelyRun.2.file.write dataStart renamedData) 1 (lonelyBase renamedData).verifier).1 =
        .ok [] :=
  ⟨lonely_damage, by decide +kernel, by decide +kernel⟩

end Lkv
