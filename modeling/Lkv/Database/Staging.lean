/-
# Lkv.Database.Staging — what a transaction has staged

A write transaction holds one entry per key and, for large values on a file, the
checksum of the value as it was copied or streamed in.  `Staging txn ops`: the
transaction took exactly the operations `ops`, the latest first.  Then each staged
entry is the latest operation on its key, and each remembered checksum is that of
the value staged under its key (`Staging.coherent`).

`batchOf` is the batch that a commit of the transaction writes.
-/
import Lkv.Database.Handle

namespace Lkv
open Lkv.Theory Dictionary

set_option autoImplicit false

/-! ## Values that are streamed in -/

namespace ReservedValue

/-- What has been written into a reserved value. -/
structure Filled (size : Nat) (large : Bool) (content : Bytes) (value : ReservedValue) : Prop where
  bytes : value.bytes = content ++ List.replicate (size - content.length) 0
  position : value.position = content.length
  inside : content.length ≤ size
  checksum : value.checksum = if large then some (crc32c content) else none

/-- The content after a write that does not fit is what it was. -/
def extend (size : Nat) (content input : Bytes) : Bytes :=
  if content.length + input.length ≤ size then content ++ input else content

/-- Everything that a callback got into a value of this size. -/
def Callback.content (callback : Callback) (size : Nat) : Bytes :=
  callback.writes.foldl (extend size) []

variable {size : Nat} {large : Bool} {content : Bytes} {value : ReservedValue}

theorem filled_new (size : Nat) (large : Bool) :
    Filled size large [] (.new (List.replicate size 0) large) where
  bytes := rfl
  position := rfl
  inside := Nat.zero_le _
  checksum := by cases large <;> rfl

theorem Filled.write (filled : Filled size large content value) (input : Bytes) :
    Filled size large (extend size content input) (value.write input).2 := by
  have room : value.bytes.length = size := by
    have := filled.inside
    rw [filled.bytes, List.length_append, List.length_replicate]
    omega
  have inside := filled.inside
  unfold ReservedValue.write extend
  by_cases nothing : input = []
  · rw [if_pos nothing, nothing, List.length_nil, Nat.add_zero, if_pos inside, List.append_nil]
    exact filled
  · rw [if_neg nothing, room, filled.position]
    by_cases fits : content.length + input.length ≤ size
    · rw [if_pos fits, if_neg (show ¬input.length > size - content.length by omega)]
      refine ⟨?_, by simp, by simpa using fits, ?_⟩
      · show value.bytes.take content.length ++ input ++
          value.bytes.drop (content.length + input.length) = _
        rw [filled.bytes, List.take_left, List.drop_append, List.drop_eq_nil_of_le (by omega),
          List.nil_append, List.drop_replicate, List.length_append, Nat.sub_sub,
          Nat.add_sub_cancel_left]
      · show value.checksum.map _ = _
        rw [filled.checksum]
        cases large
        · rfl
        · exact congrArg some (crc32cAppend_append 0 content input)
    · rw [if_neg fits, if_pos (show input.length > size - content.length by omega)]
      exact filled

theorem Filled.writes (filled : Filled size large content value) (inputs : List Bytes) :
    Filled size large (inputs.foldl (extend size) content)
      (inputs.foldl (fun value input => (value.write input).2) value) := by
  induction inputs generalizing content value with
  | nil => exact filled
  | cons input rest ih => exact ih (filled.write input)

/-- A value that passed `require_complete` is what the callback wrote. -/
theorem Filled.complete (filled : Filled size large content value)
    (complete : value.requireComplete = .ok ()) :
    value.bytes = content ∧ content.length = size := by
  have inside := filled.inside
  unfold requireComplete at complete
  split at complete
  · rename_i full
    rw [filled.position, filled.bytes, List.length_append, List.length_replicate] at full
    have whole : content.length = size := by omega
    refine ⟨?_, whole⟩
    rw [filled.bytes, whole, Nat.sub_self, List.replicate_zero, List.append_nil]
  · cases complete

end ReservedValue

theorem copyChecksum_eq (fuel : Nat) (bytes : Bytes) (checksum : BitVec 32)
    (enough : bytes.length < fuel) : copyChecksum fuel bytes checksum = crc32cAppend checksum bytes := by
  induction fuel generalizing bytes checksum with
  | zero => exact absurd enough (Nat.not_lt_zero _)
  | succ fuel ih =>
      unfold copyChecksum
      split
      · rename_i nothing
        rw [nothing, crc32cAppend_nil]
      · rename_i some
        have : 0 < bytes.length := List.length_pos_iff.mpr some
        rw [ih _ _ (by rw [List.length_drop, valueCopyChunkSize]; omega), crc32cAppend_append,
          List.take_append_drop]

/-! ## Transactions -/

/-- The transaction took these operations, the latest first. -/
inductive Staging (memory : Bool) : WriteTransaction → List Operation → Prop
  | new : Staging memory .new []
  | put {txn txn' : WriteTransaction} {ops : List Operation} {key value : Bytes}
      (before : Staging memory txn ops) (ran : txn.put memory key value = .ok txn') :
      Staging memory txn' ((key, some value) :: ops)
  | putReserved {txn txn' : WriteTransaction} {ops : List Operation} {key : Bytes} {valueLen : Nat}
      {write : ReservedValue.Callback} (before : Staging memory txn ops)
      (ran : txn.putReserved memory key valueLen write = .ok txn') :
      Staging memory txn' ((key, some (write.content valueLen)) :: ops)
  | delete {txn txn' : WriteTransaction} {ops : List Operation} {key : Bytes}
      (before : Staging memory txn ops) (ran : txn.delete key = .ok txn') :
      Staging memory txn' ((key, none) :: ops)

/-- What the two maps of a transaction hold. -/
structure Coherent (txn : WriteTransaction) (ops : List Operation) : Prop where
  seen : ∀ key, (txn.staged.lookup key).map OverlayEntry.seen = latest ops key
  keys : ∀ key entry, txn.staged.lookup key = some entry → key.length ≤ maxKeySize
  checksums : ∀ key value checksum, txn.staged.lookup key = some (.put value) →
    txn.valueChecksums.lookup key = some checksum → checksum = crc32c value.asSlice

section Coherent

variable {memory : Bool} {txn txn' : WriteTransaction} {ops : List Operation} {key value : Bytes}

theorem coherent_new : Coherent .new [] := ⟨fun _ => rfl, nofun, nofun⟩

theorem lookup_insert_cases {V : Type} (map : KeyMap V) (key key' : Bytes) (value : V) :
    (map.insert key value).lookup key' = if key = key' then some value else map.lookup key' := by
  split
  · rename_i same
    rw [← same, AList.lookup_insert]
  · rename_i other
    exact AList.lookup_insert_ne (Ne.symm other)

/-- One entry more, with a checksum that is either right or gone. -/
theorem Coherent.enter (coherent : Coherent txn ops) (entry : OverlayEntry)
    (short : key.length ≤ maxKeySize) (staged : txn'.staged = txn.staged.insert key entry)
    (others : ∀ key', key' ≠ key → txn'.valueChecksums.lookup key' = txn.valueChecksums.lookup key')
    (own : ∀ value checksum, entry = .put value → txn'.valueChecksums.lookup key = some checksum →
      checksum = crc32c value.asSlice) : Coherent txn' ((key, entry.seen) :: ops) where
  seen key' := by
    rw [staged, lookup_insert_cases, latest_cons]
    split
    · rfl
    · exact coherent.seen key'
  keys key' entry' found := by
    rw [staged, lookup_insert_cases] at found
    split at found
    · rename_i same
      exact same ▸ short
    · exact coherent.keys key' entry' found
  checksums key' value checksum found known := by
    rw [staged, lookup_insert_cases] at found
    split at found
    · rename_i same
      subst same
      exact own value checksum (Option.some.inj found) known
    · rename_i other
      rw [others key' (Ne.symm other)] at known
      exact coherent.checksums key' value checksum found known

theorem Coherent.stage (coherent : Coherent txn ops) (short : key.length ≤ maxKeySize)
    (value : ValueBytes) (checksum : Option (BitVec 32))
    (right : ∀ known, checksum = some known → known = crc32c value.asSlice) :
    Coherent (txn.stage key value checksum) ((key, some value.asSlice) :: ops) := by
  refine coherent.enter (.put value) short rfl ?_ ?_
  · intro key' other
    cases checksum with
    | none => exact AList.lookup_erase_ne other
    | some known => exact AList.lookup_insert_ne other
  · rintro _ found ⟨⟩ known
    cases checksum with
    | none =>
        rw [show (txn.stage key value none).valueChecksums = txn.valueChecksums.erase key from rfl,
          AList.lookup_erase] at known
        cases known
    | some here =>
        rw [show (txn.stage key value (some here)).valueChecksums =
          txn.valueChecksums.insert key here from rfl, AList.lookup_insert] at known
        cases known
        exact right _ rfl

theorem checkLengths_key (checked : checkLengths key value = .ok ()) : key.length ≤ maxKeySize := by
  unfold checkLengths at checked
  split at checked
  · cases checked
  · rename_i short
    omega

theorem Coherent.put (coherent : Coherent txn ops) (ran : txn.put memory key value = .ok txn') :
    Coherent txn' ((key, some value) :: ops) := by
  unfold WriteTransaction.put at ran
  simp only [bind_eq_ok] at ran
  obtain ⟨_, checked, _, -, ran⟩ := ran
  have short := checkLengths_key checked
  split at ran <;> cases ran
  · refine coherent.stage short (.owned value) (some _) ?_
    rintro _ ⟨⟩
    exact copyChecksum_eq _ _ _ (Nat.lt_succ_self _)
  · exact coherent.stage short (.owned value) none nofun

theorem Coherent.putReserved {valueLen : Nat} {write : ReservedValue.Callback}
    (coherent : Coherent txn ops) (ran : txn.putReserved memory key valueLen write = .ok txn') :
    Coherent txn' ((key, some (write.content valueLen)) :: ops) := by
  unfold WriteTransaction.putReserved at ran
  simp only [bind_eq_ok] at ran
  obtain ⟨_, checked, ran⟩ := ran
  have short : key.length ≤ maxKeySize := by
    unfold checkLengthsLen at checked
    split at checked
    · cases checked
    · simp only [bind_eq_ok] at checked
      obtain ⟨_, inner, -⟩ := checked
      exact checkLengths_key inner
  generalize largeIs : decide (valueLen ≥ mappedValueThreshold ∧ ¬memory = true) = large at ran
  have filled := (ReservedValue.filled_new valueLen large).writes write.writes
  dsimp only [ReservedValue.run] at ran
  generalize write.writes.foldl (fun (value : ReservedValue) input => (value.write input).2) _ =
    reserved at ran filled
  split at ran
  · cases ran
  · split at ran
    · cases ran
    · rename_i complete
      obtain ⟨bytes, -⟩ := filled.complete complete
      cases ran
      have value : ∀ content : Bytes, (if large = true then ValueBytes.mapped content
          else .owned content : ValueBytes).asSlice = content := fun _ => by split <;> rfl
      have staged := coherent.stage short (if large = true then .mapped reserved.bytes
        else .owned reserved.bytes) reserved.checksum ?_
      · rw [value] at staged
        rwa [← show reserved.bytes = write.content valueLen from bytes]
      · intro known here
        rw [filled.checksum] at here
        rw [value, bytes]
        split at here
        · exact (Option.some.inj here).symm
        · cases here

theorem Coherent.delete (coherent : Coherent txn ops) (ran : txn.delete key = .ok txn') :
    Coherent txn' ((key, none) :: ops) := by
  unfold WriteTransaction.delete at ran
  simp only [bind_eq_ok] at ran
  obtain ⟨_, checked, ran⟩ := ran
  cases ran
  exact coherent.enter .delete (checkLengths_key checked) rfl
    (fun _ other => AList.lookup_erase_ne other) nofun

/-- Every transaction is coherent. -/
theorem Staging.coherent (staging : Staging memory txn ops) : Coherent txn ops := by
  induction staging with
  | new => exact coherent_new
  | put _ ran ih => exact ih.put ran
  | putReserved _ ran ih => exact ih.putReserved ran
  | delete _ ran ih => exact ih.delete ran

end Coherent

/-! ## The batch of a commit -/

section Batch

variable {C : Crates} {txn : WriteTransaction} {ops : List Operation} {payloadLen : Nat}

theorem mem_stagedEntries {staged : KeyMap OverlayEntry} {entry : StagedEntry} :
    entry ∈ stagedEntries C staged ↔ staged.lookup entry.1 = some entry.2 := by
  rw [stagedEntries, (C.order_perm _).mem_iff, List.mem_map, ← Option.mem_def,
    AList.mem_lookup_iff]
  constructor
  · rintro ⟨_, found, rfl⟩
    exact found
  · exact fun found => ⟨_, found, rfl⟩

/-- No key is staged twice. -/
theorem stagedEntries_distinct (C : Crates) (staged : KeyMap OverlayEntry) :
    Distinct ((stagedEntries C staged).map stagedOp) := by
  have keys : ((stagedEntries C staged).map stagedOp).map Prod.fst =
      (stagedEntries C staged).map Prod.fst := by
    rw [List.map_map]
    rfl
  unfold Distinct
  rw [keys, stagedEntries, ((C.order_perm _).map Prod.fst).nodup_iff, List.map_map]
  exact staged.nodupKeys

theorem Coherent.latest_staged (coherent : Coherent txn ops) (C : Crates) (key : Bytes) :
    latest ((stagedEntries C txn.staged).map stagedOp) key = latest ops key := by
  rw [← coherent.seen]
  cases found : txn.staged.lookup key with
  | none =>
      refine latest_eq_none_iff.mpr fun member => ?_
      obtain ⟨op, opMember, rfl⟩ := List.mem_map.mp member
      obtain ⟨entry, entryMember, rfl⟩ := List.mem_map.mp opMember
      rw [show (stagedOp entry).1 = entry.1 from rfl, mem_stagedEntries.mp entryMember] at found
      cases found
  | some entry =>
      refine (latest_eq_some_iff (stagedEntries_distinct C _)).mpr ?_
      exact List.mem_map.mpr ⟨(key, entry), mem_stagedEntries.mpr found, rfl⟩

theorem Coherent.checksumsMatch (coherent : Coherent txn ops) (C : Crates) :
    ChecksumsMatch txn.valueChecksums (stagedEntries C txn.staged) := by
  intro entry member value checksum isPut known
  refine coherent.checksums entry.1 value checksum ?_ known
  rw [mem_stagedEntries.mp member, isPut]

/-- What a commit of the transaction writes. -/
def batchOf (C : Crates) (txn : WriteTransaction) (coherent : ∃ ops, Coherent txn ops)
    (accepted : batchPayloadLen (stagedEntries C txn.staged) = .ok payloadLen) : Batch where
  ops := (stagedEntries C txn.staged).map stagedOp
  distinct := stagedEntries_distinct C txn.staged
  keys op member := by
    obtain ⟨entry, entryMember, rfl⟩ := List.mem_map.mp member
    obtain ⟨ops, coherent⟩ := coherent
    exact coherent.keys _ _ (mem_stagedEntries.mp entryMember)
  count := by
    rw [List.length_map]
    exact (batchPayloadLen_eq_ok.mp accepted).1
  size := by
    obtain ⟨-, size, small⟩ := batchPayloadLen_eq_ok.mp accepted
    exact size ▸ small

end Batch

end Lkv
