/-
# Lkv.Database.Overlay — the operations an overlay index holds

`Decodes file overlay ops`: the entries of the index read as the operations
`ops`, those of the tail first.  Reads of the index are then reads of that list
(`getHashed_eq`), and an iteration visits each operation once (`iter_decodes`).
-/
import Lkv.Database.Transaction
import Lkv.Theory.Dictionary
import Mathlib.Data.List.Perm.Basic

namespace Lkv

open Lkv.Theory Dictionary

set_option autoImplicit false

/-- A key with its new value, or with none for a deletion. -/
abbrev Operation := Bytes × Option Bytes

namespace TailOverlayEntry

def operation (entry : TailOverlayEntry) : Operation := (entry.key, entry.value.seen)

end TailOverlayEntry

namespace OverlayMap

/-- The records decode in `log` to these operations. -/
def RecordsDecode (log : Bytes) (table : List MappedRecord) (ops : List Operation) : Prop :=
  List.Forall₂ (fun record op => record.slices log = .ok op) table ops

/-- The entries of the index read as `ops`, the tail first. -/
def Decodes (file : File) (ops : List Operation) : OverlayMap → Prop
  | .memory table => ops = table.map fun entry => (entry.1, entry.2.seen)
  | .mapped bytes table tail => ∃ records, RecordsDecode (derefOr file bytes) table records ∧
      ops = tail.map TailOverlayEntry.operation ++ records

/-- An iteration reads the operations in this order. -/
def Visits (C : Crates) (file : File) (overlay : OverlayMap) (visited : List Operation) : Prop :=
  List.Forall₂ (fun item op => item.operation (overlay.log file) = .ok op) (overlay.iter C) visited

section Find

variable {α : Type} {log : Bytes} {table : List MappedRecord} {ops : List Operation} {key : Bytes}

theorem tableFind_pure (found : α → Bool) (entries : List α) :
    tableFind (fun entry => .ok (found entry)) entries = .ok (entries.find? found) := by
  induction entries with
  | nil => rfl
  | cons entry rest ih =>
      rw [tableFind, List.find?_cons]
      cases h : found entry with
      | true => rfl
      | false => exact ih

theorem hasKey_ok {record : MappedRecord} {op : Operation} (decodes : record.slices log = .ok op) :
    record.hasKey log key = .ok (op.1 = key) := by
  rw [MappedRecord.hasKey, decodes]
  rfl

/-- Looking a key up among records that decode. -/
theorem tableFind_records (decodes : RecordsDecode log table ops) (key : Bytes) :
    ∃ found, tableFind (MappedRecord.hasKey log key) table = .ok found ∧
      match found with
      | none => latest ops key = none
      | some record => ∃ op, record.slices log = .ok op ∧ latest ops key = some op.2 := by
  induction decodes with
  | nil => exact ⟨none, rfl, rfl⟩
  | @cons record op table ops here _ ih =>
      rw [tableFind, hasKey_ok here, latest, List.find?_cons]
      by_cases same : op.1 = key
      · simp only [same, decide_true]
        exact ⟨some record, rfl, op, here, rfl⟩
      · simp only [same, decide_false]
        exact ih

theorem RecordsDecode.nil_of_nil (decodes : RecordsDecode [] table ops) : ops = [] := by
  cases decodes with
  | nil => rfl
  | @cons record op table ops here rest =>
      have : record.checkedSlices [] = none := by
        unfold MappedRecord.checkedSlices
        cases add : checkedAdd record.offset operationHeaderSize with
        | none => rfl
        | some headerEnd =>
            have := checkedAdd_eq_some_iff.mp add
            rw [Option.bind_eq_bind, Option.bind_some, getRange_none]
            · rfl
            · unfold operationHeaderSize at this
              simp only [List.length_nil]
              omega
      rw [MappedRecord.slices, this] at here
      cases here

end Find

section Read

variable {file : File} {overlay : OverlayMap} {ops : List Operation}

theorem getHashed_eq (decodes : overlay.Decodes file ops) (key : Bytes) :
    overlay.getHashed file key = .ok (latest ops key) := by
  cases overlay with
  | memory table =>
      cases decodes
      have read : tableFind (fun entry : Bytes × OverlayEntry => .ok (entry.1 = key)) table =
          .ok (table.find? fun entry => entry.1 = key) := tableFind_pure _ table
      rw [getHashed, read]
      simp only [latest, List.find?_map, Option.map_map]
      rfl
  | mapped bytes table tail =>
      obtain ⟨records, decodes, rfl⟩ := decodes
      have read : tableFind (fun entry : TailOverlayEntry => .ok (entry.key = key)) tail =
          .ok (tail.find? fun entry => entry.key = key) := tableFind_pure _ tail
      unfold getHashed
      dsimp only
      rw [read, latest_append]
      have inTail : latest (tail.map TailOverlayEntry.operation) key =
          (tail.find? fun entry => entry.key = key).map fun entry => entry.value.seen := by
        simp only [latest, List.find?_map, Option.map_map]
        rfl
      rw [inTail]
      cases tail.find? fun entry => entry.key = key with
      | some entry => rfl
      | none =>
          cases bytes with
          | none =>
              rw [derefOr] at decodes
              cases decodes.nil_of_nil
              rfl
          | some bytes =>
              obtain ⟨found, find, result⟩ := tableFind_records decodes key
              simp only [Option.map_none, Option.none_or, ok_bind]
              rw [derefOr] at find
              rw [find]
              cases found with
              | none =>
                  dsimp only at result
                  rw [result]
                  rfl
              | some record =>
                  obtain ⟨op, slices, result⟩ := result
                  rw [derefOr] at slices
                  rw [result]
                  simp only [ok_bind, slices]
                  rfl

/-- The overlay reads the file only through its log. -/
theorem getHashed_congr {file' : File} (same : overlay.log file' = overlay.log file) (key : Bytes) :
    overlay.getHashed file' key = overlay.getHashed file key := by
  cases overlay with
  | memory table => rfl
  | mapped bytes table tail =>
      cases bytes with
      | none => rfl
      | some bytes =>
          have same : bytes.deref file' = bytes.deref file := same
          simp only [getHashed, same]

theorem Decodes.congr {file' : File} (decodes : overlay.Decodes file ops)
    (same : overlay.log file' = overlay.log file) : overlay.Decodes file' ops := by
  cases overlay with
  | memory table => exact decodes
  | mapped bytes table tail =>
      have same : derefOr file' bytes = derefOr file bytes := same
      obtain ⟨records, read, opsIs⟩ := decodes
      exact ⟨records, same ▸ read, opsIs⟩

theorem Visits.congr {C : Crates} {file' : File} {visited : List Operation}
    (visits : overlay.Visits C file visited) (same : overlay.log file' = overlay.log file) :
    overlay.Visits C file' visited := by
  unfold Visits at visits ⊢
  rwa [same]

theorem containsKey_eq (decodes : overlay.Decodes file ops) (key : Bytes) :
    overlay.containsKey file key = .ok (latest ops key).isSome := by
  rw [containsKey, getHashed_eq decodes]
  rfl

/-- An iteration reads the operations, each once. -/
theorem iter_decodes (C : Crates) (decodes : overlay.Decodes file ops) :
    ∃ visited, visited.Perm ops ∧ overlay.Visits C file visited := by
  unfold Visits
  cases overlay with
  | memory table =>
      cases decodes
      refine ⟨(C.order table).map fun entry => (entry.1, entry.2.seen),
        (C.order_perm table).map _, ?_⟩
      rw [iter, List.forall₂_map_left_iff, List.forall₂_map_right_iff, List.forall₂_same]
      exact fun entry _ => rfl
  | mapped bytes table tail =>
      obtain ⟨records, decodes, rfl⟩ := decodes
      obtain ⟨visited, ordered, perm⟩ := List.perm_comp_forall₂ (C.order_perm table) decodes
      refine ⟨visited ++ (C.order tail).map TailOverlayEntry.operation, ?_, ?_⟩
      · exact (List.perm_append_comm.trans (((C.order_perm tail).map _).append perm))
      · refine List.rel_append ?_ ?_
        · rw [List.forall₂_map_left_iff]
          exact ordered
        · rw [List.forall₂_map_left_iff, List.forall₂_map_right_iff, List.forall₂_same]
          exact fun entry _ => rfl

end Read

end OverlayMap

end Lkv
