/-
# Lkv.Database.Installing — operations entering the overlay index

An installed operation lies in the log, either where the log is mapped (a record
of the table) or past the mapping (an owned entry of the tail, which remembers
its place).  `Indexed mapping log table tail ops` says so for every entry and
that no key occurs twice.

Each way an operation enters the index sets its key and leaves the others
(`Sets`): recovery and a new mapping through `insertMappedRecord`, a commit
without a new mapping through `installTailEntry`.  None of them panics on an
index that is `Indexed`.
-/
import Mathlib.Algebra.Order.BigOperators.Group.List
import Lkv.Format.Log
import Lkv.Theory.Dictionary

namespace Lkv

open Lkv.Theory Dictionary

set_option autoImplicit false

/-! ## Operations in a log -/

section Slices

variable {bytes more : Bytes} {record : MappedRecord} {op : Operation}

theorem getRange_extend {start stop : Nat} {found : Bytes} (got : getRange bytes start stop = some found)
    (more : Bytes) : getRange (bytes ++ more) start stop = some found := by
  obtain ⟨ordered, inside, rfl⟩ := getRange_eq_some_iff.mp got
  rw [getRange_some ordered (by rw [List.length_append]; omega),
    window_append_left _ _ _ _ (by omega)]

/-- A decoded operation stays where it is when the log grows. -/
theorem checkedSlices_extend (decodes : record.checkedSlices bytes = some op) (more : Bytes) :
    record.checkedSlices (bytes ++ more) = some op := by
  unfold MappedRecord.checkedSlices at decodes ⊢
  simp only [Option.bind_eq_bind, Option.bind_eq_some_iff] at decodes ⊢
  obtain ⟨headerEnd, added, header, got, byte, first, marker, known, decodes⟩ := decodes
  refine ⟨headerEnd, added, header, getRange_extend got more, byte, first, marker, known, ?_⟩
  split at decodes
  · cases decodes
  · rename_i kind
    rw [if_neg kind]
    split at decodes
    · cases decodes
    · rename_i empty
      rw [if_neg empty]
      simp only [Option.bind_eq_some_iff] at decodes ⊢
      obtain ⟨keyEnd, keyFits, valueEnd, valueFits, key, gotKey, decodes⟩ := decodes
      refine ⟨keyEnd, keyFits, valueEnd, valueFits, key, getRange_extend gotKey more, ?_⟩
      cases marker with
      | put =>
          obtain ⟨value, gotValue, same⟩ := Option.bind_eq_some_iff.mp decodes
          exact Option.bind_eq_some_iff.mpr ⟨value, getRange_extend gotValue more, same⟩
      | _ => exact decodes

theorem slices_eq_ok : record.slices bytes = .ok op ↔ record.checkedSlices bytes = some op := by
  unfold MappedRecord.slices
  cases record.checkedSlices bytes <;> simp

theorem slices_extend (decodes : record.slices bytes = .ok op) (longer : bytes <+: more) :
    record.slices more = .ok op := by
  obtain ⟨rest, rfl⟩ := longer
  rw [slices_eq_ok] at decodes ⊢
  exact checkedSlices_extend decodes rest

/-- What is read of an encoded operation at `offset`. -/
structure OperationAt (bytes : Bytes) (offset : Nat) (op : Operation) : Prop where
  header : getRange bytes offset (offset + operationHeaderSize) = some (operationHeader op)
  key : getRange bytes (offset + operationHeaderSize) (offset + operationHeaderSize + op.1.length) = some op.1
  value : getRange bytes (offset + operationHeaderSize + op.1.length)
    (offset + operationHeaderSize + op.1.length + (operationParts op.2).2.length) =
      some (operationParts op.2).2
  keyLen : leNat (window (operationHeader op) 1 4) = op.1.length
  valueLen : leNat (window (operationHeader op) 5 4) = (operationParts op.2).2.length

theorem operationAt (front rest : Bytes) {op : Operation} (key : op.1.length < 2 ^ 32)
    (value : (operationParts op.2).2.length < 2 ^ 32) :
    OperationAt (front ++ (encodeOperation op ++ rest)) front.length op where
  header := by
    rw [encodeOperation, List.append_assoc]
    exact getRange_part _ _ _ rfl (by rw [operationHeader_length])
  key := by
    rw [encodeOperation, List.append_assoc, List.append_assoc, ← List.append_assoc front]
    exact getRange_part _ _ _ (by simp) (by simp)
  value := by
    rw [encodeOperation, List.append_assoc, List.append_assoc, ← List.append_assoc front,
      ← List.append_assoc (front ++ _)]
    exact getRange_part _ _ _ (by simp [Nat.add_assoc]) (by simp [Nat.add_assoc])
  keyLen := by
    simp only [operationHeader, window_append_right, window_append_left, window_eq_self,
      List.length_singleton, leBytes_length, Nat.reduceAdd, Nat.reduceSub, le_refl]
    exact leNat_leBytes _ _ key
  valueLen := by
    simp only [operationHeader, window_append_right, window_eq_self, List.length_singleton,
      leBytes_length, Nat.reduceSub, Nat.reduceLeDiff, le_refl]
    exact leNat_leBytes _ _ value

/-- An encoded operation decodes where it was written. -/
theorem slices_encoded (front rest : Bytes) {op : Operation} (key : op.1.length < 2 ^ 32)
    (value : (operationParts op.2).2.length < 2 ^ 32)
    (word : front.length + operationSize op < 2 ^ 64) :
    MappedRecord.slices ⟨front.length⟩ (front ++ (encodeOperation op ++ rest)) = .ok op := by
  have parts := operationAt front rest key value
  rw [slices_eq_ok]
  have size : operationSize op = operationHeaderSize + op.1.length + (operationParts op.2).2.length := rfl
  have marker : (operationHeader op).head? = some (operationParts op.2).1.toByte := rfl
  unfold MappedRecord.checkedSlices
  simp only [Option.bind_eq_bind]
  rw [checkedAdd_some (by omega), Option.bind_some, parts.header, Option.bind_some, marker,
    Option.bind_some, Marker.fromByte_toByte, Option.bind_some, parts.keyLen, parts.valueLen,
    checkedAdd_some (by omega), Option.bind_some, checkedAdd_some (by omega), Option.bind_some,
    parts.key, Option.bind_some, parts.value]
  obtain ⟨_, _ | _⟩ := op <;> simp [operationParts]

end Slices

/-! ## Exchanging an entry of a table -/

/-- The memory that operations in an index are charged. -/
def chargeOf (ops : List Operation) : Nat := (ops.map MappedRecord.charge).sum

@[simp] theorem chargeOf_nil : chargeOf [] = 0 := rfl

@[simp] theorem chargeOf_cons (op : Operation) (ops : List Operation) :
    chargeOf (op :: ops) = MappedRecord.charge op + chargeOf ops := by
  simp [chargeOf]

@[simp] theorem chargeOf_append (one two : List Operation) :
    chargeOf (one ++ two) = chargeOf one + chargeOf two := by
  simp [chargeOf]

theorem chargeOf_perm {one two : List Operation} (perm : one.Perm two) :
    chargeOf one = chargeOf two :=
  (perm.map _).sum_eq

/-- Operations that are all in an index are charged no more than the whole of it. -/
theorem chargeOf_le {one two : List Operation} (distinct : Distinct one)
    (subset : ∀ op ∈ one, op ∈ two) : chargeOf one ≤ chargeOf two := by
  obtain ⟨rest, perm, sublist⟩ := List.subperm_of_subset distinct.of_map subset
  rw [← chargeOf_perm perm]
  exact List.Sublist.sum_le_sum (sublist.map _) fun _ _ => Nat.zero_le _

/-- `ops'` is `ops` with `op` as the latest operation on its key, in the place of `old`. -/
structure Sets (ops : List Operation) (op : Operation) (old ops' : List Operation) : Prop where
  latest : ∀ key, latest ops' key = if op.1 = key then some op.2 else latest ops key
  distinct : Distinct ops → Distinct ops'
  charge : chargeOf ops' + chargeOf old = chargeOf ops + MappedRecord.charge op
  within : chargeOf old ≤ chargeOf ops

section Sets

variable {ops before : List Operation} {op : Operation}

theorem sets_cons (op : Operation) (fresh : Dictionary.latest ops op.1 = none) :
    Sets ops op [] (op :: ops) where
  latest key := latest_cons op ops key
  distinct distinct := List.nodup_cons.mpr ⟨latest_eq_none_iff.mp fresh, distinct⟩
  charge := by
    rw [chargeOf_cons, chargeOf_nil]
    omega
  within := Nat.zero_le _

theorem sets_replace (op : Operation) (value : Option Bytes) (after : List Operation)
    (absent : Dictionary.latest before op.1 = none) :
    Sets (before ++ (op.1, value) :: after) op [(op.1, value)] (before ++ op :: after) where
  latest key := by
    rw [latest_append, latest_append, latest_cons, latest_cons]
    by_cases same : op.1 = key
    · subst same
      rw [absent]
      simp
    · simp only [same, if_false]
  distinct := by
    simp [Distinct]
  charge := by
    simp only [chargeOf_append, chargeOf_cons, chargeOf_nil]
    omega
  within := by
    simp only [chargeOf_append, chargeOf_cons, chargeOf_nil]
    omega

theorem Sets.trans_cons {old ops' : List Operation} (sets : Sets ops op old ops') (more : List Operation) :
    ∀ key, Dictionary.latest (more ++ ops') key = Dictionary.latest (more ++ op :: ops) key := by
  intro key
  rw [latest_append, latest_append, sets.latest, latest_cons]

end Sets

section Exchange

variable {α : Type} {R : α → Operation → Prop} {found : α → Res Bool} {key : Bytes}
variable {table replacement : List α} {ops : List Operation}

/-- The entry of a key, with what stands before and after it. -/
structure EntryAt (R : α → Operation → Prop) (table : List α) (ops : List Operation) (key : Bytes)
    (before : List α) (old : α) (after : List α) (opsBefore : List Operation) (value : Option Bytes)
    (opsAfter : List Operation) : Prop where
  table : table = before ++ old :: after
  ops : ops = opsBefore ++ (key, value) :: opsAfter
  before : List.Forall₂ R before opsBefore
  old : R old (key, value)
  after : List.Forall₂ R after opsAfter
  first : latest opsBefore key = none

theorem tableExchange_spec (reads : ∀ a op, R a op → found a = .ok (decide (op.1 = key)))
    (all : List.Forall₂ R table ops) (replacement : List α) :
    (latest ops key = none ∧ tableExchange found replacement table = .ok (none, table)) ∨
      ∃ before old after opsBefore value opsAfter,
        EntryAt R table ops key before old after opsBefore value opsAfter ∧
        tableExchange found replacement table = .ok (some old, before ++ (replacement ++ after)) := by
  induction all with
  | nil => exact .inl ⟨rfl, rfl⟩
  | @cons a op table ops here others ih =>
      rw [tableExchange, reads a op here, ok_bind, latest_cons]
      by_cases same : op.1 = key
      · right
        obtain ⟨k, value⟩ := op
        cases same
        exact ⟨[], a, table, [], value, ops, ⟨rfl, rfl, .nil, here, others, rfl⟩, by simp; rfl⟩
      · simp only [same, decide_false, Bool.false_eq_true, if_false]
        rcases ih with ⟨absent, ran⟩ | ⟨before, old, after, opsBefore, value, opsAfter, entry, ran⟩
        · exact .inl ⟨absent, by rw [ran]; rfl⟩
        · right
          refine ⟨a :: before, old, after, op :: opsBefore, value, opsAfter, ?_, by rw [ran]; rfl⟩
          obtain ⟨rfl, rfl, front, here', rest, first⟩ := entry
          exact ⟨rfl, rfl, .cons here front, here', rest, by rw [latest_cons, if_neg same, first]⟩

end Exchange

/-! ## The table of records -/

namespace OverlayMap

section Records

variable {log longer : Bytes} {table : List MappedRecord} {record : MappedRecord}
variable {ops : List Operation} {op : Operation}

theorem hasKey_reads (log key : Bytes) : ∀ (record : MappedRecord) (op : Operation),
    record.slices log = .ok op → record.hasKey log key = .ok (decide (op.1 = key)) :=
  fun _ _ decodes => hasKey_ok decodes

theorem RecordsDecode.extend (decodes : RecordsDecode log table ops) (front : log <+: longer) :
    RecordsDecode longer table ops :=
  decodes.imp fun _ _ here => slices_extend here front

/-- A record enters the table in the place of the one with its key.  It is enough that the
records lie in a front part of the log. -/
theorem insertMappedRecord_spec (front : log <+: longer) (decodes : RecordsDecode log table ops)
    (here : record.slices log = .ok op) :
    ∃ previous table' old ops', insertMappedRecord table longer record = .ok (previous, table') ∧
      RecordsDecode log table' ops' ∧ Sets ops op old ops' ∧
      RecordsDecode longer previous.toList old := by
  obtain ⟨key, set⟩ := op
  have reads : ∀ (record : MappedRecord) (op : Operation), record.slices log = .ok op →
      record.hasKey longer key = .ok (decide (op.1 = key)) :=
    fun _ _ decodes => hasKey_ok (slices_extend decodes front)
  unfold insertMappedRecord
  rw [slices_extend here front, ok_bind]
  rcases tableExchange_spec reads decodes [record] with
    ⟨absent, ran⟩ | ⟨before, old, after, opsBefore, value, opsAfter, entry, ran⟩
  · refine ⟨none, record :: table, [], (key, set) :: ops, ?_, .cons here decodes,
      sets_cons _ absent, .nil⟩
    dsimp only
    rw [ran]
    rfl
  · refine ⟨some old, before ++ ([record] ++ after), [(key, value)],
      opsBefore ++ (key, set) :: opsAfter, ?_, ?_, ?_, ?_⟩
    · dsimp only
      rw [ran]
      rfl
    · exact List.rel_append entry.before (.cons here entry.after)
    · rw [entry.ops]
      exact sets_replace (key, set) value opsAfter entry.first
    · exact .cons (slices_extend entry.old front) .nil

theorem memoryCharge_ok (here : record.slices log = .ok op) :
    record.memoryCharge log = .ok (MappedRecord.charge op) := by
  rw [MappedRecord.memoryCharge, here]
  rfl

/-- Charges that stay in a machine word add up. -/
theorem saturatingAdd_eq {a b : Nat} (word : a + b < 2 ^ 64) : saturatingAdd a b = a + b :=
  Nat.min_eq_left (by omega)

/-- Records entering one after another: the last one on a key stays.  The charges add up as
long as they stay in a machine word. -/
theorem installRecords_spec {records : List MappedRecord} {added : List Operation}
    (decodes : RecordsDecode log table ops) (enter : RecordsDecode log records added)
    (removed charge : Nat) :
    ∃ table' removed' charge' ops',
      installRecords log records table removed charge = .ok (table', removed', charge') ∧
      RecordsDecode log table' ops' ∧ (Distinct ops → Distinct ops') ∧
      (∀ key, latest ops' key = latest (added.reverse ++ ops) key) ∧
      (removed + chargeOf ops + chargeOf added < 2 ^ 64 → charge + chargeOf added < 2 ^ 64 →
        charge' = charge + chargeOf added ∧
        chargeOf ops' + removed' = chargeOf ops + removed + chargeOf added) := by
  induction enter generalizing table ops removed charge with
  | nil => exact ⟨table, removed, charge, ops, rfl, decodes, id, fun _ => rfl, fun _ _ => ⟨rfl, rfl⟩⟩
  | @cons record op records added here _ ih =>
      obtain ⟨previous, table1, old, ops1, inserted, decodes1, sets, oldDecodes⟩ :=
        insertMappedRecord_spec List.prefix_rfl decodes here
      have balance := sets.charge
      have within := sets.within
      -- One turn of the loop, with the charge of the record that was replaced, if any.
      have turn : ∃ removed1, installRecords log (record :: records) table removed charge =
            installRecords log records table1 removed1 (saturatingAdd charge (MappedRecord.charge op)) ∧
          (removed + chargeOf old < 2 ^ 64 → removed1 = removed + chargeOf old) := by
        rw [installRecords, memoryCharge_ok here, ok_bind, inserted, ok_bind]
        cases previous with
        | none =>
            cases oldDecodes
            exact ⟨removed, rfl, fun _ => rfl⟩
        | some record =>
            obtain ⟨op', rest, oldHere, nothing, rfl⟩ := List.forall₂_cons_left_iff.mp oldDecodes
            obtain rfl := List.forall₂_nil_left_iff.mp nothing
            refine ⟨saturatingAdd removed (MappedRecord.charge op'), ?_, fun word => ?_⟩
            · dsimp only
              rw [memoryCharge_ok oldHere]
              rfl
            · rw [chargeOf_cons, chargeOf_nil, Nat.add_zero] at word ⊢
              exact saturatingAdd_eq word
      obtain ⟨removed1, took, exact1⟩ := turn
      obtain ⟨table', removed', charge', ops', ran, decodes', distinct, same, total⟩ :=
        ih decodes1 removed1 (saturatingAdd charge (MappedRecord.charge op))
      refine ⟨table', removed', charge', ops', took.trans ran, decodes', distinct ∘ sets.distinct,
        fun key => ?_, fun word word' => ?_⟩
      · rw [same, List.reverse_cons, List.append_assoc]
        exact sets.trans_cons added.reverse key
      · rw [chargeOf_cons] at word word' ⊢
        have left := exact1 (by omega)
        have right := saturatingAdd_eq (show charge + MappedRecord.charge op < 2 ^ 64 by omega)
        have sums := total (by omega) (by omega)
        omega

/-- The tail enters the table at the places it remembers. -/
theorem promoteTail_spec {tail : List TailOverlayEntry} (decodes : RecordsDecode log table ops)
    (placed : ∀ entry ∈ tail, entry.mapped.slices log = .ok entry.operation) :
    ∃ table' ops', promoteTail log tail table = .ok table' ∧ RecordsDecode log table' ops' ∧
      (Distinct ops → Distinct ops') ∧
      ∀ key, latest ops' key =
        latest ((tail.map TailOverlayEntry.operation).reverse ++ ops) key := by
  induction tail generalizing table ops with
  | nil => exact ⟨table, ops, rfl, decodes, id, fun _ => rfl⟩
  | cons entry tail ih =>
      obtain ⟨previous, table1, _, ops1, inserted, decodes1, sets, _⟩ :=
        insertMappedRecord_spec List.prefix_rfl decodes (placed entry (List.mem_cons_self ..))
      obtain ⟨table', ops', ran, decodes', distinct, same⟩ :=
        ih decodes1 fun later member => placed later (List.mem_cons_of_mem _ member)
      refine ⟨table', ops', ?_, decodes', distinct ∘ sets.distinct, fun key => ?_⟩
      · rw [promoteTail, inserted]
        exact ran
      · rw [same, List.map_cons, List.reverse_cons, List.append_assoc]
        exact sets.trans_cons _ key

end Records

/-! ## The whole index -/

/-- The operations of an index, those of the tail first. -/
def indexOps (tail : List TailOverlayEntry) (records : List Operation) : List Operation :=
  tail.map TailOverlayEntry.operation ++ records

/-- Every entry lies in the log, those of the table in its mapped front part, and no
key occurs twice. -/
structure Indexed (mapping log : Bytes) (table : List MappedRecord) (tail : List TailOverlayEntry)
    (records : List Operation) : Prop where
  front : mapping <+: log
  decoded : RecordsDecode mapping table records
  placed : ∀ entry ∈ tail, entry.mapped.slices log = .ok entry.operation
  /-- An owned entry is charged what its record would be. -/
  charged : ∀ entry ∈ tail, overlayEntryMemory entry.key entry.value =
    MappedRecord.charge entry.operation
  distinct : Distinct (indexOps tail records)

section Indexed

variable {mapping log : Bytes} {table : List MappedRecord} {tail : List TailOverlayEntry}
variable {records : List Operation}

theorem Indexed.grow (indexed : Indexed mapping log table tail records) {longer : Bytes}
    (front : log <+: longer) : Indexed mapping longer table tail records :=
  { indexed with
    front := indexed.front.trans front
    placed := fun entry member => slices_extend (indexed.placed entry member) front }

theorem tail_reads (key : Bytes) : ∀ (entry : TailOverlayEntry) (op : Operation),
    entry.operation = op → (.ok (decide (entry.key = key)) : Res Bool) = .ok (decide (op.1 = key)) := by
  rintro entry _ rfl
  rfl

theorem tail_operations (tail : List TailOverlayEntry) :
    List.Forall₂ (fun entry op => entry.operation = op) tail
      (tail.map TailOverlayEntry.operation) := by
  rw [List.forall₂_map_right_iff, List.forall₂_same]
  exact fun _ _ => rfl

/-- A commit that is not mapped yet: the key moves to the tail, or is set there. -/
theorem installTailEntry_spec {file : File} {bytes : Option BaseBytes} {key : Bytes}
    {value : OverlayEntry} {record : MappedRecord}
    (indexed : Indexed mapping log table tail records) (deref : derefOr file bytes = mapping)
    (here : record.slices log = .ok (key, value.seen))
    (light : overlayEntryMemory key value = MappedRecord.charge (key, value.seen)) :
    ∃ table' tail' old records',
      installTailEntry file bytes key value record table tail = .ok (table', tail', chargeOf old) ∧
      Indexed mapping log table' tail' records' ∧
      Sets (indexOps tail records) (key, value.seen) old (indexOps tail' records') := by
  subst deref
  unfold installTailEntry
  have distinct := indexed.distinct
  rcases tableExchange_spec (tail_reads key) (tail_operations tail) [⟨key, value, record⟩] with
    ⟨absent, ran⟩ | ⟨before, old, after, opsBefore, set, opsAfter, entry, ran⟩
  · rw [ran, ok_bind]
    have placed : ∀ entry ∈ (⟨key, value, record⟩ : TailOverlayEntry) :: tail,
        entry.mapped.slices log = .ok entry.operation := by
      intro entry member
      rcases List.mem_cons.mp member with rfl | old
      · exact here
      · exact indexed.placed entry old
    -- With the key out of the table, the new entry is the only one that has it.
    have charged : ∀ entry ∈ (⟨key, value, record⟩ : TailOverlayEntry) :: tail,
        overlayEntryMemory entry.key entry.value = MappedRecord.charge entry.operation := by
      intro entry member
      rcases List.mem_cons.mp member with rfl | old
      · exact light
      · exact indexed.charged entry old
    have added : ∀ table' old records', RecordsDecode (derefOr file bytes) table' records' →
        latest records' key = none →
        (∀ k, k ≠ key → latest records' k = latest records k) →
        chargeOf records' + chargeOf old = chargeOf records →
        Distinct (indexOps tail records') →
        Indexed (derefOr file bytes) log table' (⟨key, value, record⟩ :: tail) records' ∧
          Sets (indexOps tail records) (key, value.seen) old
            (indexOps (⟨key, value, record⟩ :: tail) records') := by
      intro table' old records' decodes gone others balance distinct'
      have fresh : latest (indexOps tail records') key = none := by
        rw [indexOps, latest_append, absent, gone]
        rfl
      have unique := (sets_cons (key, value.seen) fresh).distinct distinct'
      refine ⟨⟨indexed.front, decodes, placed, charged, unique⟩, fun k => ?_, fun _ => unique, ?_, ?_⟩
      · show latest ((key, value.seen) :: indexOps tail records') k = _
        rw [latest_cons]
        by_cases same : key = k
        · simp only [same, if_true]
        · rw [if_neg same, if_neg same, indexOps, latest_append, indexOps, latest_append,
            others k (Ne.symm same)]
      · show chargeOf ((key, value.seen) :: indexOps tail records') + _ = _
        simp only [indexOps, chargeOf_cons, chargeOf_append]
        omega
      · simp only [indexOps, chargeOf_append]
        omega
    cases bytes with
    | none =>
        have none : records = [] := indexed.decoded.nil_of_nil
        subst none
        obtain ⟨indexed', sets⟩ := added table [] [] indexed.decoded rfl (fun _ _ => rfl) rfl distinct
        exact ⟨table, _, [], [], rfl, indexed', sets⟩
    | some bytes =>
        have decodes : RecordsDecode (bytes.deref file) table records := indexed.decoded
        rcases tableExchange_spec (hasKey_reads (bytes.deref file) key) decodes [] with
          ⟨absent', ran'⟩ | ⟨before, old, after, opsBefore, set, opsAfter, entry, ran'⟩
        · obtain ⟨indexed', sets⟩ := added table [] records decodes absent' (fun _ _ => rfl) rfl distinct
          refine ⟨table, _, [], records, ?_, indexed', sets⟩
          simp only [ran', ok_bind]
          rfl
        · have recordsIs := entry.ops
          subst recordsIs
          have less : (tail.map TailOverlayEntry.operation ++ (opsBefore ++ opsAfter)).Sublist
              (tail.map TailOverlayEntry.operation ++ (opsBefore ++ (key, set) :: opsAfter)) :=
            ((List.sublist_cons_self _ _).append_left _).append_left _
          have distinct' := distinct.sublist (less.map Prod.fst)
          have gone : latest opsAfter key = none := by
            rw [indexOps, ← List.append_assoc] at distinct
            exact distinct.latest_after
          obtain ⟨indexed', sets⟩ := added (before ++ after) [(key, set)] (opsBefore ++ opsAfter)
            (List.rel_append entry.before entry.after)
            (by rw [latest_append, entry.first, gone]; rfl)
            (fun k apart => by
              rw [latest_append, latest_append, latest_cons, if_neg (Ne.symm apart)])
            (by simp only [chargeOf_append, chargeOf_cons, chargeOf_nil]; omega)
            distinct'
          refine ⟨before ++ after, _, [(key, set)], opsBefore ++ opsAfter, ?_, indexed', sets⟩
          simp only [ran', ok_bind, memoryCharge_ok entry.old, chargeOf_cons, chargeOf_nil]
          rfl
  · rw [ran, ok_bind]
    obtain ⟨tailIs, opsIs, front, oldIs, rest, first⟩ := entry
    have operations : ∀ entries ops, List.Forall₂ (fun entry op => TailOverlayEntry.operation entry = op)
        entries ops → entries.map TailOverlayEntry.operation = ops := by
      intro entries ops all
      rw [← List.forall₂_eq_eq_eq, List.forall₂_map_left_iff]
      exact all
    have sets : Sets (indexOps tail records) (key, value.seen) [(key, set)]
        (indexOps (before ++ ([⟨key, value, record⟩] ++ after)) records) := by
      have := sets_replace (key, value.seen) set (opsAfter ++ records) first
      simpa [indexOps, opsIs, operations _ _ front, operations _ _ rest, TailOverlayEntry.operation]
        using this
    have oldCharge : overlayEntryMemory old.key old.value = chargeOf [(key, set)] := by
      rw [indexed.charged old (by rw [tailIs]; simp), oldIs, chargeOf_cons, chargeOf_nil, Nat.add_zero]
    -- What holds of the new entry and of every old one holds of the new tail.
    have all : ∀ P : TailOverlayEntry → Prop, P ⟨key, value, record⟩ → (∀ entry ∈ tail, P entry) →
        ∀ entry ∈ before ++ ([⟨key, value, record⟩] ++ after), P entry := by
      intro P new others entry member
      rw [tailIs] at others
      rcases List.mem_append.mp member with one | two
      · exact others entry (List.mem_append_left _ one)
      · rcases List.mem_cons.mp two with rfl | later
        · exact new
        · exact others entry (List.mem_append_right _ (List.mem_cons_of_mem _ later))
    refine ⟨table, _, [(key, set)], records, ?_, ⟨indexed.front, indexed.decoded,
      all _ here indexed.placed, all _ light indexed.charged, sets.distinct distinct⟩, sets⟩
    dsimp only
    rw [oldCharge]
    rfl

/-- The loop of `install_tail`. -/
theorem installTailEntries_spec {file : File} {bytes : Option BaseBytes}
    {staged : List (StagedEntry × MappedRecord)} (indexed : Indexed mapping log table tail records)
    (deref : derefOr file bytes = mapping)
    (placed : ∀ entry ∈ staged, entry.2.slices log = .ok (stagedOp entry.1))
    (light : ∀ entry ∈ staged, overlayEntryMemory entry.1.1 entry.1.2 =
      MappedRecord.charge (stagedOp entry.1)) (removed added : Nat)
    (word : removed + chargeOf (indexOps tail records) +
        chargeOf (staged.map fun entry => stagedOp entry.1) < 2 ^ 64 ∧
      added + chargeOf (staged.map fun entry => stagedOp entry.1) < 2 ^ 64) :
    ∃ table' tail' removed' records',
      installTailEntries file bytes staged table tail removed added =
        .ok (table', tail', removed', added + chargeOf (staged.map fun entry => stagedOp entry.1)) ∧
      Indexed mapping log table' tail' records' ∧
      (∀ key, latest (indexOps tail' records') key =
        latest ((staged.map fun entry => stagedOp entry.1).reverse ++ indexOps tail records) key) ∧
      chargeOf (indexOps tail' records') + removed' = chargeOf (indexOps tail records) + removed +
        chargeOf (staged.map fun entry => stagedOp entry.1) := by
  induction staged generalizing table tail records removed added with
  | nil => exact ⟨table, tail, removed, records, rfl, indexed, fun _ => rfl, rfl⟩
  | cons entry staged ih =>
      obtain ⟨⟨key, value⟩, record⟩ := entry
      have here : overlayEntryMemory key value = MappedRecord.charge (stagedOp (key, value)) :=
        light _ (List.mem_cons_self ..)
      obtain ⟨table1, tail1, old, records1, ran, indexed1, sets⟩ :=
        installTailEntry_spec indexed deref (placed _ (List.mem_cons_self ..)) here
      have balance : chargeOf (indexOps tail1 records1) + chargeOf old =
        chargeOf (indexOps tail records) + MappedRecord.charge (stagedOp (key, value)) := sets.charge
      have within := sets.within
      rw [List.map_cons, chargeOf_cons] at word ⊢
      dsimp only at word ⊢
      obtain ⟨table', tail', removed', records', ran', indexed', same, total⟩ :=
        ih indexed1 (fun later member => placed later (List.mem_cons_of_mem _ member))
          (fun later member => light later (List.mem_cons_of_mem _ member))
          (removed + chargeOf old) (added + overlayEntryMemory key value)
          ⟨by omega, by omega⟩
      refine ⟨table', tail', removed', records', ?_, indexed', fun k => ?_, by omega⟩
      · rw [installTailEntries, ran, ok_bind]
        dsimp only
        rw [saturatingAdd_eq (by omega), saturatingAdd_eq (by omega), ran', here, Nat.add_assoc]
      · rw [same, List.reverse_cons, List.append_assoc]
        exact sets.trans_cons _ k

/-- The charge of an index is that of what it looks up. -/
theorem chargeOf_latest {one two : List Operation} (distinct : Distinct one)
    (distinct' : Distinct two) (same : ∀ key, latest one key = latest two key) :
    chargeOf one = chargeOf two :=
  chargeOf_perm (perm_of_latest distinct distinct' same)

/-- `install_mapped` on an index all of whose places lie in the new mapping: the tail enters the
table, then the new records do. -/
theorem installMapped_spec (C : Crates) {file : File} {added : List Operation} {new : BaseBytes}
    {mutations : List MappedRecord} (bytes : Option BaseBytes) (deref : new.deref file = log)
    (decodes : RecordsDecode log table records)
    (placed : ∀ entry ∈ tail, entry.mapped.slices log = .ok entry.operation)
    (distinct : Distinct (indexOps tail records)) (enter : RecordsDecode log mutations added) :
    ∃ table' removed charge ops',
      installMapped C file new mutations (.mapped bytes table tail) =
        .ok (.mapped (some new) table' [], removed, charge) ∧
      RecordsDecode log table' ops' ∧ Distinct ops' ∧
      (∀ key, latest ops' key = latest (added.reverse ++ indexOps tail records) key) ∧
      (chargeOf (indexOps tail records) + chargeOf added < 2 ^ 64 → charge = chargeOf added ∧
        chargeOf ops' + removed = chargeOf (indexOps tail records) + chargeOf added) := by
  obtain ⟨table1, ops1, ran1, decodes1, distinct1, same1⟩ := promoteTail_spec decodes
    (fun entry member => placed entry ((C.order_perm tail).mem_iff.mp member))
  -- The tail's keys are not in the table, so neither order of the tail nor that of the
  -- table against it matters.
  have tailKeys : Distinct (tail.map TailOverlayEntry.operation) :=
    distinct.sublist ((List.sublist_append_left _ _).map _)
  have tailPerm : ((C.order tail).map TailOverlayEntry.operation).reverse.Perm
      (tail.map TailOverlayEntry.operation) :=
    (List.reverse_perm _).trans ((C.order_perm tail).map _)
  have unique1 := distinct1 (distinct.sublist ((List.sublist_append_right _ _).map _))
  have same1 : ∀ key, latest ops1 key = latest (indexOps tail records) key := by
    intro key
    rw [same1, indexOps, latest_append, latest_append,
      latest_perm tailPerm (tailKeys.perm tailPerm.symm)]
  have charge1 := chargeOf_latest unique1 distinct same1
  obtain ⟨table2, removed, charge, ops2, ran2, decodes2, distinct2, same2, total⟩ :=
    installRecords_spec decodes1 enter 0 0
  refine ⟨table2, removed, charge, ops2, ?_, decodes2, distinct2 unique1, fun key => ?_, fun word => ?_⟩
  · unfold OverlayMap.installMapped
    simp only [deref, ran1, ok_bind, ran2]
    rfl
  · rw [same2, latest_append, latest_append, same1]
  · obtain ⟨chargeIs, sums⟩ := total (by omega) (by omega)
    omega

end Indexed

/-! ## The index of a file's log -/

/-- What an overlay maps of the log at `logStart`: nothing, or a front part. -/
inductive MapsLog (logStart : Nat) (log : Bytes) : Option BaseBytes → Bytes → Prop
  | nothing : MapsLog logStart log none []
  | front (n : Nat) (inside : n ≤ log.length) :
      MapsLog logStart log (some (.mapped logStart n)) (log.take n)

/-- The index of the log at `logStart`, with these operations. -/
structure IndexOf (logStart : Nat) (log : Bytes) (ops : List Operation) (overlay : OverlayMap) :
    Prop where
  shape : ∃ bytes mapping table tail records, overlay = .mapped bytes table tail ∧
    MapsLog logStart log bytes mapping ∧ Indexed mapping log table tail records ∧
    ops = indexOps tail records

section IndexOf

variable {logStart : Nat} {log longer : Bytes} {ops added : List Operation} {overlay : OverlayMap}
variable {file : File}

theorem MapsLog.deref {bytes : Option BaseBytes} {mapping : Bytes}
    (maps : MapsLog logStart log bytes mapping) (held : file.Holds logStart log) :
    derefOr file bytes = mapping := by
  cases maps with
  | nothing => rfl
  | front n inside =>
      show file.slice logStart n = log.take n
      have read := held.window (show 0 + n ≤ log.length by omega)
      rwa [Nat.add_zero] at read

theorem MapsLog.grow {bytes : Option BaseBytes} {mapping : Bytes}
    (maps : MapsLog logStart log bytes mapping) (front : log <+: longer) :
    MapsLog logStart longer bytes mapping := by
  obtain ⟨rest, rfl⟩ := front
  cases maps with
  | nothing => exact .nothing
  | front n inside =>
      have same : (log ++ rest).take n = log.take n := List.take_append_of_le_length inside
      rw [← same]
      exact .front n (by rw [List.length_append]; omega)

theorem indexOf_empty (logStart : Nat) : IndexOf logStart [] [] (.mapped none [] []) :=
  ⟨none, [], [], [], [], rfl, .nothing, ⟨List.prefix_rfl, .nil, nofun, nofun, List.nodup_nil⟩, rfl⟩

theorem IndexOf.distinct (index : IndexOf logStart log ops overlay) : Distinct ops := by
  obtain ⟨_, _, _, _, _, _, _, indexed, rfl⟩ := index.shape
  exact indexed.distinct

theorem IndexOf.decodes (index : IndexOf logStart log ops overlay) (held : file.Holds logStart log) :
    overlay.Decodes file ops := by
  obtain ⟨bytes, mapping, table, tail, records, rfl, maps, indexed, rfl⟩ := index.shape
  exact ⟨records, (maps.deref held).symm ▸ indexed.decoded, rfl⟩

/-- What an installation takes off the charge was part of it. -/
theorem removed_le {ops' : List Operation} {removed : Nat} (distinct : Distinct ops')
    (distinctAdded : Distinct added) (same : ∀ key, latest ops' key = latest (added ++ ops) key)
    (total : chargeOf ops' + removed = chargeOf ops + chargeOf added) : removed ≤ chargeOf ops := by
  have entered : chargeOf added ≤ chargeOf ops' := by
    refine chargeOf_le distinctAdded fun op member => ?_
    refine (latest_eq_some_iff distinct).mp ?_
    rw [same, latest_append, (latest_eq_some_iff distinctAdded).mpr member]
    rfl
  omega

/-- An index operation that brings the operations `added` into the index of `log`, which is a
front part of `longer`: the charges it reports are what it takes off and puts on. -/
structure Enters (logStart : Nat) (longer : Bytes) (ops added : List Operation)
    (installed : OverlayMap × Nat × Nat) (ops' : List Operation) : Prop where
  index : IndexOf logStart longer ops' installed.1
  latest : ∀ key, latest ops' key = Dictionary.latest (added ++ ops) key
  charge : installed.2.2 = chargeOf added
  balance : chargeOf ops' + installed.2.1 = chargeOf ops + chargeOf added
  within : installed.2.1 ≤ chargeOf ops

theorem Enters.charged {installed : OverlayMap × Nat × Nat} {ops' : List Operation}
    (enters : Enters logStart longer ops added installed ops')
    (word : chargeOf ops + chargeOf added < 2 ^ 64) :
    OverlayState.charged (chargeOf ops) installed = ⟨installed.1, chargeOf ops'⟩ := by
  have balance := enters.balance
  have within := enters.within
  unfold OverlayState.charged
  rw [enters.charge, saturatingAdd_eq (by omega)]
  refine congrArg (OverlayState.mk installed.1) ?_
  omega

/-- `install_tail` of a commit. -/
theorem IndexOf.enterTail (index : IndexOf logStart log ops overlay)
    (held : file.Holds logStart log) (front : log <+: longer) {staged : List StagedEntry}
    {mutations : List MappedRecord} (distinct : Distinct (staged.map stagedOp))
    (placed : List.Forall₂ (fun entry record => MappedRecord.slices record longer =
      .ok (stagedOp entry)) staged mutations)
    (light : ∀ entry ∈ staged, overlayEntryMemory entry.1 entry.2 =
      MappedRecord.charge (stagedOp entry))
    (word : chargeOf ops + chargeOf (staged.map stagedOp) < 2 ^ 64) :
    ∃ installed ops', overlay.installTail file staged mutations = .ok installed ∧
      Enters logStart longer ops (staged.map stagedOp) installed ops' := by
  obtain ⟨bytes, mapping, table, tail, records, rfl, maps, indexed, rfl⟩ := index.shape
  have places : ∀ entry ∈ staged.zip mutations, entry.2.slices longer = .ok (stagedOp entry.1) :=
    fun entry member => (List.forall₂_iff_zip.mp placed).2 member
  have stagedIs : (staged.zip mutations).map (fun entry => stagedOp entry.1) =
      staged.map stagedOp := by
    show (staged.zip mutations).map (stagedOp ∘ Prod.fst) = _
    rw [← List.map_map, List.map_fst_zip placed.length_eq.le]
  obtain ⟨table', tail', removed, records', ran, indexed', same, total⟩ :=
    installTailEntries_spec (indexed.grow front) (maps.deref held) places
      (fun entry member => light entry.1 (List.of_mem_zip member).1) 0 0
      (by rw [stagedIs]; exact ⟨by omega, by omega⟩)
  rw [stagedIs] at ran same total
  have same : ∀ key, latest (indexOps tail' records') key =
      latest (staged.map stagedOp ++ indexOps tail records) key := by
    intro key
    rw [same, latest_append, latest_append,
      latest_perm (List.reverse_perm _) (distinct.perm (List.reverse_perm _).symm)]
  have index' : IndexOf logStart longer (indexOps tail' records') (.mapped bytes table' tail') :=
    ⟨bytes, mapping, table', tail', records', rfl, maps.grow front, indexed', rfl⟩
  rw [Nat.zero_add] at ran
  refine ⟨(.mapped bytes table' tail', removed, chargeOf (staged.map stagedOp)),
    indexOps tail' records', ?_, ⟨index', same, rfl, total, ?_⟩⟩
  · unfold OverlayMap.installTail
    dsimp only
    rw [ran]
    rfl
  · exact removed_le index'.distinct distinct same total

/-- `install_mapped` of a commit, with a new mapping of the whole log. -/
theorem IndexOf.enterMapped (C : Crates) (index : IndexOf logStart log ops overlay)
    (held : file.Holds logStart longer) (front : log <+: longer) {staged : List StagedEntry}
    {mutations : List MappedRecord} (distinct : Distinct (staged.map stagedOp))
    (placed : List.Forall₂ (fun entry record => MappedRecord.slices record longer =
      .ok (stagedOp entry)) staged mutations)
    (word : chargeOf ops + chargeOf (staged.map stagedOp) < 2 ^ 64) :
    ∃ installed ops',
      overlay.installMapped C file (.mapped logStart longer.length) mutations = .ok installed ∧
      Enters logStart longer ops (staged.map stagedOp) installed ops' := by
  obtain ⟨bytes, mapping, table, tail, records, rfl, maps, indexed, rfl⟩ := index.shape
  have enter : RecordsDecode longer mutations (staged.map stagedOp) := by
    rw [RecordsDecode, List.forall₂_map_right_iff]
    exact placed.flip
  obtain ⟨table', removed, charge, ops', ran, decodes, distinct', same, total⟩ :=
    installMapped_spec C bytes (show (BaseBytes.mapped logStart longer.length).deref file = longer from held)
      (indexed.decoded.extend (indexed.front.trans front))
      (fun entry member => slices_extend (indexed.placed entry member) front) indexed.distinct enter
  obtain ⟨chargeIs, sums⟩ := total word
  have same : ∀ key, latest ops' key =
      latest (staged.map stagedOp ++ indexOps tail records) key := by
    intro key
    rw [same, latest_append, latest_append,
      latest_perm (List.reverse_perm _) (distinct.perm (List.reverse_perm _).symm)]
  refine ⟨_, ops', ran, ⟨⟨_, longer, table', [], ops', rfl, ?_,
      ⟨List.prefix_rfl, decodes, nofun, nofun, distinct'⟩, rfl⟩, same, chargeIs, sums, ?_⟩⟩
  · have whole := @MapsLog.front logStart longer longer.length le_rfl
    rwa [List.take_length] at whole
  · exact removed_le distinct' distinct same sums

end IndexOf

end OverlayMap

end Lkv
