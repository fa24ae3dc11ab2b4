/-
# Lkv.Basic — errors, options and what is taken from the crates

`Error` follows `error.rs`: an I/O error is classified by its kind
(`Error.ofIo`).  A run of the model can also end in a panic or fail to end at
all, which no error handling of the source catches; `Stop` keeps the three
apart, and `Stop.error?` is what `?` and `if let Err` see.

`Crates` holds what the store takes from other crates and only relies on
weakly: XXH3 is an arbitrary function of the key, and a hash table is iterated
in an arbitrary order that visits each entry once.
-/
import Lkv.Theory.Prog
import Lkv.Theory.Crc

namespace Lkv

open Lkv.Theory

set_option autoImplicit false

/-! ## Errors -/

inductive ErrorKind where
  | notFound
  | permissionDenied
  | alreadyExists
  | wouldBlock
  | invalidInput
  | invalidData
  | writeZero
  | unexpectedEof
  | unsupported
  | outOfMemory
  | other
  deriving DecidableEq, Repr

structure IoError where
  kind : ErrorKind
  message : String
  deriving DecidableEq, Repr

inductive CorruptionKind where
  | «structure»
  | metadataChecksum
  | blockChecksum
  | logChecksum
  deriving DecidableEq, Repr

structure Corruption where
  kind : CorruptionKind
  segmentOffset : Option Nat
  blockIndex : Option Nat
  message : String
  deriving DecidableEq, Repr

inductive Error where
  | corrupted (corruption : Corruption)
  | databaseAlreadyOpen (error : IoError)
  | unsupported (error : IoError)
  | invalidArgument (error : IoError)
  | databaseFull (error : IoError)
  | maintenanceRequired (limit actual : Nat)
  | poisoned
  | io (error : IoError)
  deriving DecidableEq, Repr

namespace Error

/-- `From<io::Error>`. -/
def ofIo (error : IoError) : Error :=
  match error.kind with
  | .invalidData => .corrupted ⟨.structure, none, none, error.message⟩
  | .wouldBlock => .databaseAlreadyOpen error
  | .unsupported => .unsupported error
  | .invalidInput => .invalidArgument error
  | _ => .io error

def fromIo (kind : ErrorKind) (message : String) : Error := ofIo ⟨kind, message⟩

def other (message : String) : Error := fromIo .other message

def databaseFullFor (limit required : Nat) : Error :=
  .databaseFull ⟨.other, s!"database size limit of {limit} bytes would be exceeded " ++
    s!"(requires {required} bytes)"⟩

def corruptedBlock (segmentOffset blockIndex : Nat) : Error :=
  .corrupted ⟨.blockChecksum, some segmentOffset, some blockIndex,
    s!"block checksum mismatch at segment offset {segmentOffset} block {blockIndex}"⟩

def corruptedMetadata (message : String) : Error :=
  .corrupted ⟨.metadataChecksum, none, none, message⟩

def corruptedLog (offset : Nat) (message : String) : Error :=
  .corrupted ⟨.logChecksum, some offset, none, message⟩

def invalidBase (message : String) : Error :=
  fromIo .invalidData s!"invalid base: {message}"

/-- The errors with which something is refused because the result would be too large: for
the limit of the database, or for its offsets. -/
def TooLarge : Error → Prop
  | .databaseFull _ => True
  | .invalidArgument _ => True
  | _ => False

end Error

/-- How a run ends other than by returning: an error value, a panic, or never. -/
inductive Stop where
  | err (error : Error)
  | panic (message : String)
  | diverge
  deriving DecidableEq, Repr

namespace Stop

def error? : Stop → Option Error
  | .err error => some error
  | _ => none

end Stop

/-- The outcome of a computation that touches no state. -/
abbrev Res (α : Type) := Except Stop α

def fail {α : Type} (error : Error) : Res α := .error (.err error)

def panic {α : Type} (message : String) : Res α := .error (.panic message)

/-! ## Options -/

inductive VerificationMode where
  | full
  | onRead
  deriving DecidableEq, Repr

structure DatabaseOptions where
  verification : VerificationMode
  maxDatabaseBytes : UInt64
  overlayMemoryLimit : UInt64
  deriving DecidableEq

/-- `DatabaseOptions::default`. -/
def DatabaseOptions.default : DatabaseOptions :=
  ⟨.onRead, UInt64.ofNat (1 <<< 40), 64 * 1024 * 1024⟩

/-! ## Machine integers -/

/-- `checked_add` on `u64`, and on `usize` of a 64-bit target. -/
def checkedAdd (a b : Nat) : Option Nat :=
  if a + b < 2 ^ 64 then some (a + b) else none

def checkedSub (a b : Nat) : Option Nat :=
  if b ≤ a then some (a - b) else none

def checkedMul (a b : Nat) : Option Nat :=
  if a * b < 2 ^ 64 then some (a * b) else none

/-- `+` on `u64` or `usize` where the source does not check it: overflow panics. -/
def addOrPanic (a b : Nat) : Res Nat :=
  match checkedAdd a b with
  | some sum => .ok sum
  | none => panic "attempt to add with overflow"

/-- `x.ok_or_else(|| error)?`. -/
def orFail {α : Type} (x : Option α) (error : Error) : Res α :=
  match x with
  | some a => .ok a
  | none => fail error

@[simp] theorem checkedAdd_eq_some_iff {a b c : Nat} :
    checkedAdd a b = some c ↔ c = a + b ∧ c < 2 ^ 64 := by
  unfold checkedAdd
  split
  · rename_i fits
    constructor
    · rintro ⟨⟩
      exact ⟨rfl, fits⟩
    · rintro ⟨rfl, _⟩
      rfl
  · rename_i overflow
    refine ⟨nofun, ?_⟩
    rintro ⟨rfl, fits⟩
    exact absurd fits overflow

@[simp] theorem checkedMul_eq_some_iff {a b c : Nat} :
    checkedMul a b = some c ↔ c = a * b ∧ c < 2 ^ 64 := by
  unfold checkedMul
  split
  · rename_i fits
    constructor
    · rintro ⟨⟩
      exact ⟨rfl, fits⟩
    · rintro ⟨rfl, _⟩
      rfl
  · rename_i overflow
    refine ⟨nofun, ?_⟩
    rintro ⟨rfl, fits⟩
    exact absurd fits overflow

theorem checkedAdd_some {a b : Nat} (fits : a + b < 2 ^ 64) : checkedAdd a b = some (a + b) :=
  if_pos fits

theorem checkedMul_some {a b : Nat} (fits : a * b < 2 ^ 64) : checkedMul a b = some (a * b) :=
  if_pos fits

theorem checkedSub_some {a b : Nat} (ordered : b ≤ a) : checkedSub a b = some (a - b) :=
  if_pos ordered

/-! ## Taking results apart -/

section Res

variable {α β : Type} {x : Res α} {f : α → Res β} {a : α} {b : β} {error : Error}

theorem bind_eq_ok : (x >>= f) = .ok b ↔ ∃ a, x = .ok a ∧ f a = .ok b := by
  cases x with
  | ok a =>
      constructor
      · exact fun h => ⟨a, rfl, h⟩
      · rintro ⟨_, ⟨⟩, h⟩
        exact h
  | error e =>
      constructor
      · nofun
      · rintro ⟨_, ⟨⟩, _⟩

@[simp] theorem ok_bind : (Except.ok a >>= f : Res β) = f a := rfl

@[simp] theorem orFail_eq_ok {x : Option α} : orFail x error = .ok a ↔ x = some a := by
  cases x with
  | some a' => simp [orFail]
  | none => simp [orFail, fail]

@[simp] theorem orFail_some : orFail (some a) error = .ok a := rfl

@[simp] theorem fail_eq_ok : (fail error : Res α) = .ok a ↔ False := by
  simp [fail]

@[simp] theorem panic_eq_ok {message : String} : (panic message : Res α) = .ok a ↔ False := by
  simp [panic]

theorem addOrPanic_ok {m n : Nat} (fits : m + n < 2 ^ 64) : addOrPanic m n = .ok (m + n) := by
  rw [addOrPanic, checkedAdd_some fits]

theorem addOrPanic_eq_ok {m n s : Nat} : addOrPanic m n = .ok s ↔ s = m + n ∧ s < 2 ^ 64 := by
  rw [← checkedAdd_eq_some_iff, addOrPanic]
  cases checkedAdd m n <;> simp

theorem addOrPanic_eq_error {m n : Nat} {stop : Stop} (stopped : addOrPanic m n = .error stop) :
    2 ^ 64 ≤ m + n ∧ ∃ message, stop = .panic message := by
  by_cases fits : m + n < 2 ^ 64
  · rw [addOrPanic_ok fits] at stopped
    cases stopped
  · rw [addOrPanic, checkedAdd, if_neg fits] at stopped
    cases stopped
    exact ⟨Nat.not_lt.mp fits, _, rfl⟩

/-- The computation ends in a value or an error value. -/
def NoPanic (x : Res α) : Prop := ∀ stop, x = .error stop → ∃ error, stop = .err error

theorem noPanic_ok : NoPanic (.ok a : Res α) := nofun

theorem noPanic_fail : NoPanic (fail error : Res α) := by
  rintro _ ⟨⟩
  exact ⟨error, rfl⟩

theorem noPanic_orFail (x : Option α) : NoPanic (orFail x error) := by
  cases x with
  | some a => exact noPanic_ok
  | none => exact noPanic_fail

theorem NoPanic.bind (first : NoPanic x) (second : ∀ a, x = .ok a → NoPanic (f a)) :
    NoPanic (x >>= f) := by
  cases x with
  | ok a => exact second a rfl
  | error stop =>
      rintro _ ⟨⟩
      exact first stop rfl

/-- Errors are the only way to stop, and only those with `P`. -/
def FailsWith (P : Error → Prop) (x : Res α) : Prop :=
  ∀ stop, x = .error stop → ∃ error, stop = .err error ∧ P error

theorem failsWith_ok {P : Error → Prop} {a : α} : FailsWith P (.ok a : Res α) := nofun

theorem failsWith_orFail {P : Error → Prop} (x : Option α) (what : P error) :
    FailsWith P (orFail x error) := by
  cases x with
  | some a => exact failsWith_ok
  | none =>
      rintro _ ⟨⟩
      exact ⟨error, rfl, what⟩

theorem FailsWith.bind {P : Error → Prop} (first : FailsWith P x)
    (second : ∀ a, x = .ok a → FailsWith P (f a)) : FailsWith P (x >>= f) := by
  cases x with
  | ok a => exact second a rfl
  | error stop =>
      rintro _ ⟨⟩
      exact first stop rfl

end Res

/-! ## Words of a byte string -/

/-- `&bytes[start..stop]`. -/
def sliceAt (bytes : Bytes) (start stop : Nat) : Res Bytes :=
  match getRange bytes start stop with
  | some found => .ok found
  | none => panic "range out of bounds"

def u32At (bytes : Bytes) (offset : Nat) : Res Nat :=
  (sliceAt bytes offset (offset + 4)).map leNat

def u64At (bytes : Bytes) (offset : Nat) : Res Nat :=
  (sliceAt bytes offset (offset + 8)).map leNat

theorem sliceAt_ok {bytes : Bytes} {start stop : Nat} (ordered : start ≤ stop)
    (inside : stop ≤ bytes.length) :
    sliceAt bytes start stop = .ok (window bytes start (stop - start)) := by
  rw [sliceAt, getRange_some ordered inside]

theorem u32At_ok {bytes : Bytes} {offset : Nat} (inside : offset + 4 ≤ bytes.length) :
    u32At bytes offset = .ok (leNat (window bytes offset 4)) := by
  rw [u32At, sliceAt_ok (by omega) inside, Nat.add_sub_cancel_left]
  rfl

theorem u64At_ok {bytes : Bytes} {offset : Nat} (inside : offset + 8 ≤ bytes.length) :
    u64At bytes offset = .ok (leNat (window bytes offset 8)) := by
  rw [u64At, sliceAt_ok (by omega) inside, Nat.add_sub_cancel_left]
  rfl

theorem sliceAt_eq_ok {bytes found : Bytes} {start stop : Nat} :
    sliceAt bytes start stop = .ok found ↔
      start ≤ stop ∧ stop ≤ bytes.length ∧ window bytes start (stop - start) = found := by
  rw [← getRange_eq_some_iff, sliceAt]
  cases getRange bytes start stop <;> simp

theorem u32At_eq_ok {bytes : Bytes} {offset n : Nat} :
    u32At bytes offset = .ok n ↔
      offset + 4 ≤ bytes.length ∧ leNat (window bytes offset 4) = n := by
  by_cases inside : offset + 4 ≤ bytes.length
  · simp [u32At_ok inside, inside]
  · simp [u32At, sliceAt, getRange, inside, panic, Except.map]

/-! ## The crates -/

structure Crates where
  /-- `xxhash_rust::xxh3::xxh3_64`. -/
  xxh3_64 : Bytes → UInt64
  /-- The order in which a hash table with these entries is iterated. -/
  order : {α : Type} → List α → List α
  order_perm : ∀ {α : Type} (entries : List α), (order entries).Perm entries

namespace Crates

variable (C : Crates)

/-- The key's hash as a number below `2 ^ 64`. -/
def hash (key : Bytes) : Nat := (C.xxh3_64 key).toNat

theorem hash_lt (key : Bytes) : C.hash key < 2 ^ 64 := (C.xxh3_64 key).toNat_lt

end Crates

end Lkv
