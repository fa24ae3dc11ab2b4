/-
# Lkv.Ffi.Boundary — what every call of the C interface goes through

The first part of `ffi.rs`: statuses, the error that a call ends with, the message it leaves
for `lkv_last_error_message`, and the checks of its pointers.  `ffiCall` runs the body of a
call: nothing but a status leaves it, an error and a panic alike.

A call works on a `Frame`: an object of the library, what its caller handed in for the result,
and the `LAST_ERROR` of the thread.  A pointer of the caller is `null` or `valid`; one to bytes is
`none` or what it addresses, and the interface demands that there are as many bytes as the caller
says.  A panic carries its message, so the fallback text for other payloads has no counterpart.

`ffiCall_message` is the contract of the message.  It is cleared before the body runs: a call that
fails leaves its own message, and one that does not leaves what its body left, which is something
else only if a callback made calls of its own.
-/
import Lkv.Basic

namespace Lkv
open Lkv.Theory Lkv.Theory.Prog

set_option autoImplicit false

/-- `Display for Error`. -/
def Error.display : Error → String
  | .corrupted corruption => corruption.message
  | .databaseAlreadyOpen error => error.message
  | .unsupported error => error.message
  | .invalidArgument error => error.message
  | .databaseFull error => error.message
  | .maintenanceRequired limit actual =>
      s!"overlay memory usage of {actual} bytes exceeds the {limit} byte limit; " ++
        "compact before writing"
  | .poisoned => "database is poisoned by a previous I/O failure; reopen it before continuing"
  | .io error => error.message

namespace Ffi

/-! ## Statuses -/

inductive LkvStatus where
  | ok
  | notFound
  | bufferTooSmall
  | invalidArgument
  | ioError
  | corrupted
  | unsupported
  | busy
  | databaseFull
  | maintenanceRequired
  | poisoned
  | panic
  deriving DecidableEq, Repr

namespace LkvStatus

/-- The statuses that report no failure: what was asked for, or how it is missing. -/
def Silent (status : LkvStatus) : Prop :=
  status = ok ∨ status = notFound ∨ status = bufferTooSmall

end LkvStatus

/-! ## Errors -/

structure FfiError where
  status : LkvStatus
  message : Option String
  deriving DecidableEq, Repr

namespace FfiError

def new (status : LkvStatus) (message : String) : FfiError := ⟨status, some message⟩

def control (status : LkvStatus) : FfiError := ⟨status, none⟩

/-- `From<Error>`. -/
def ofError (error : Error) : FfiError :=
  let status := match error with
    | .corrupted _ => .corrupted
    | .databaseAlreadyOpen _ => .busy
    | .unsupported _ => .unsupported
    | .invalidArgument _ => .invalidArgument
    | .databaseFull _ => .databaseFull
    | .maintenanceRequired _ _ => .maintenanceRequired
    | .poisoned => .poisoned
    | .io _ => .ioError
  new status error.display

end FfiError

/-- How the body of a call ends other than by returning. -/
inductive FfiStop where
  | error (error : FfiError)
  | panic (message : String)
  | diverge
  deriving DecidableEq, Repr

namespace FfiStop

/-- `?` on a result of the library. -/
def ofStop : Stop → FfiStop
  | .err failure => .error (.ofError failure)
  | .panic message => .panic message
  | .diverge => .diverge

/-- The status that is returned, if the call returns. -/
def status : FfiStop → Option LkvStatus
  | .error failure => some failure.status
  | .panic _ => some .panic
  | .diverge => none

def panic? : FfiStop → Option String
  | .panic message => some message
  | _ => none

/-- An error has a message unless it only says that something is missing or does not fit; no
error has the status of success. -/
def Told : FfiStop → Prop
  | .error failure => failure.status ≠ .ok ∧ (failure.message = none ↔ failure.status.Silent)
  | _ => True

theorem told_ofStop (stop : Stop) : (ofStop stop).Told := by
  cases stop with
  | err error => cases error <;> simp [ofStop, Told, FfiError.ofError, FfiError.new, LkvStatus.Silent]
  | panic message => trivial
  | diverge => trivial

end FfiStop

abbrev FfiResult (α : Type) := Except FfiStop α

/-- What a call works on. -/
structure Frame (δ ω : Type) where
  object : δ
  /-- The caller's place for the result. -/
  out : ω
  /-- `LAST_ERROR` of the thread that makes the call. -/
  lastError : Bytes

/-- The body of a call. -/
abbrev Body (δ ω α : Type) := Prog (Frame δ ω) FfiStop α

/-- A function of the interface. -/
abbrev CFunction (δ ω : Type) := Prog (Frame δ ω) Stop LkvStatus

/-! ## The last error -/

/-- `set_last_error`: a NUL inside the message would end it, and is written as `\0`. -/
def setLastError (message : String) : Bytes :=
  (message.toUTF8.toList.flatMap fun byte => if byte = 0 then [0x5c, 0x30] else [byte]) ++ [0]

def clearLastError : Bytes := [0]

def ffiCall {δ ω : Type} (operation : Body δ ω Unit) : CFunction δ ω := fun frame =>
  match operation { frame with lastError := clearLastError } with
  | (.ok (), frame) => (.ok .ok, frame)
  | (.error (.error error), frame) =>
      (.ok error.status, match error.message with
        | some message => { frame with lastError := setLastError message }
        | none => frame)
  | (.error (.panic message), frame) => (.ok .panic, { frame with lastError := setLastError message })
  | (.error .diverge, frame) => (.error .diverge, frame)

/-- What a C caller reads through the pointer of `lkv_last_error_message`: up to the first NUL. -/
def lkvLastErrorMessage (lastError : Bytes) : Bytes := lastError.takeWhile (· ≠ 0)

section Message

variable {δ ω α : Type}

/-- What a call does to its object and its result is what its body does. -/
theorem wp_ffiCall {operation : Body δ ω Unit} {frame : Frame δ ω} {Q : LkvStatus → δ → ω → Prop}
    {D : δ → ω → Prop}
    (runs : wp operation (fun _ frame' => Q .ok frame'.object frame'.out)
      (fun e frame' => match e.status with
        | some status => Q status frame'.object frame'.out
        | none => D frame'.object frame'.out) { frame with lastError := clearLastError }) :
    wp (ffiCall operation) (fun status frame' => Q status frame'.object frame'.out)
      (fun _ frame' => D frame'.object frame'.out) frame := by
  unfold wp at runs ⊢
  unfold ffiCall
  revert runs
  rcases operation { frame with lastError := clearLastError } with ⟨⟨failure | message | _⟩ | ⟨⟩, frame'⟩
  · rcases failure with ⟨status, _ | message⟩ <;> exact id
  · exact id
  · exact id
  · exact id

/-- A call whose body returns leaves what the body leaves. -/
theorem ffiCall_run {body : Body δ ω Unit} {frame frame' : Frame δ ω}
    (ran : body { frame with lastError := clearLastError } = (.ok (), frame')) :
    ffiCall body frame = (.ok .ok, frame') := by
  unfold ffiCall
  rw [ran]

/-- The bytes are one C string: no NUL before the last byte. -/
def IsCString (bytes : Bytes) : Prop := ∃ text, bytes = text ++ [0] ∧ 0 ∉ text

theorem isCString_clearLastError : IsCString clearLastError := ⟨[], rfl, List.not_mem_nil⟩

/-- A reader of the message stops at the end of the buffer, not before and not behind. -/
theorem IsCString.read {lastError : Bytes} (string : IsCString lastError) :
    lkvLastErrorMessage lastError ++ [0] = lastError := by
  obtain ⟨text, is, clean⟩ := string
  have all : ∀ byte ∈ text, decide (byte ≠ 0) = true := fun byte member =>
    decide_eq_true fun zero => clean (zero ▸ member)
  rw [lkvLastErrorMessage, is, List.takeWhile_append_of_pos all]
  simp

/-- Whatever is true of the message before is true of it behind the body. -/
def Leaves (P : Bytes → Prop) (body : Body δ ω α) : Prop :=
  Maintains (fun frame => P frame.lastError) body

variable {P : Bytes → Prop}

theorem Leaves.of_preserves {body : Body δ ω α} (keeps : Preserves Frame.lastError body) : Leaves P body :=
  keeps.maintains

/-- A call that fails leaves its own message; one that does not leaves what its body left. -/
theorem ffiCall_message {operation : Body δ ω Unit} (told : Raises FfiStop.Told operation)
    (leaves : Leaves P operation) (cleared : P clearLastError) {frame frame' : Frame δ ω}
    {status : LkvStatus} (ran : ffiCall operation frame = (.ok status, frame')) :
    P frame'.lastError ∨ ¬status.Silent ∧ ∃ message, frame'.lastError = setLastError message := by
  have spec := wp_raises told (leaves { frame with lastError := clearLastError } cleared)
  unfold wp at spec
  unfold ffiCall at ran
  split at ran
  · rename_i between returned
    rw [returned] at spec
    cases ran
    exact .inl spec
  · rename_i error between stopped
    rw [stopped] at spec
    obtain ⟨⟨-, silent⟩, kept⟩ : (error.status ≠ .ok ∧ (error.message = none ↔ error.status.Silent)) ∧
      P between.lastError := spec
    cases ran
    cases said : error.message with
    | none => exact .inl kept
    | some message =>
        refine .inr ⟨fun quiet => ?_, message, rfl⟩
        rw [silent.mpr quiet] at said
        cases said
  · cases ran
    refine .inr ⟨?_, _, rfl⟩
    rintro (⟨⟨⟩⟩ | ⟨⟨⟩⟩ | ⟨⟨⟩⟩)
  · cases ran

end Message

/-! ## Arguments -/

inductive Pointer where
  | null
  | valid
  deriving DecidableEq, Repr

def invalid {α : Type} (message : String) : FfiResult α :=
  .error (.error (.new .invalidArgument message))

def required (pointer : Pointer) (name : String) : FfiResult Unit :=
  match pointer with
  | .null => invalid s!"{name} must not be NULL"
  | .valid => .ok ()

def requiredRef (pointer : Pointer) (name : String) : FfiResult Unit := required pointer name

def requiredMut (pointer : Pointer) (name : String) : FfiResult Unit := required pointer name

/-- `input_bytes`: a length of zero needs no pointer. -/
def inputBytes (pointer : Option Bytes) (len : Nat) (name : String) : FfiResult Bytes :=
  if len = 0 then .ok []
  else match pointer with
    | none => invalid s!"{name} must not be NULL when its length is non-zero"
    | some bytes => .ok (bytes.take len)

/-- `CStr::from_ptr(required_ref(path)).to_str()`. -/
def requiredPath (path : Option Bytes) : FfiResult Unit :=
  match path with
  | none => invalid "path must not be NULL"
  | some bytes =>
      if (bytes.takeWhile (· ≠ 0)).toByteArray.validateUTF8 then .ok ()
      else invalid "path must be valid UTF-8"

structure LkvOptions where
  verification : UInt32
  overlayMemoryLimit : UInt64
  maxDatabaseBytes : UInt64
  deriving DecidableEq

def lkvVerificationOnRead : UInt32 := 0
def lkvVerificationFull : UInt32 := 1

def decodeOptions (options : Option LkvOptions) : FfiResult DatabaseOptions :=
  match options with
  | none => .ok .default
  | some options =>
      if options.verification = lkvVerificationOnRead then
        .ok ⟨.onRead, options.maxDatabaseBytes, options.overlayMemoryLimit⟩
      else if options.verification = lkvVerificationFull then
        .ok ⟨.full, options.maxDatabaseBytes, options.overlayMemoryLimit⟩
      else invalid s!"unknown verification mode {options.verification}"

/-- `*value`, where `value` is a `*mut usize` or the like. -/
def assign {δ ω : Type} (value : ω) : Body δ ω Unit :=
  Prog.modify fun frame => { frame with out := value }

def lkvOptionsInit (output : Pointer) : CFunction Unit LkvOptions := ffiCall do
  Prog.lift (requiredMut output "output")
  assign ⟨lkvVerificationOnRead, DatabaseOptions.default.overlayMemoryLimit,
    DatabaseOptions.default.maxDatabaseBytes⟩

/-- Options that were initialised and not changed are the defaults. -/
theorem decodeOptions_init {frame frame' : Frame Unit LkvOptions}
    (ran : lkvOptionsInit .valid frame = (.ok .ok, frame')) :
    decodeOptions (some frame'.out) = .ok .default := by
  cases ran
  rfl

section Rejects

variable {σ α : Type}

/-- The check fails with an invalid argument or not at all. -/
def Rejects (r : FfiResult α) : Prop :=
  ∀ stop, r = .error stop → ∃ message, stop = .error (.new .invalidArgument message)

theorem rejects_ok (a : α) : Rejects (.ok a : FfiResult α) := by
  rintro stop ⟨⟩

theorem rejects_invalid (message : String) : Rejects (invalid message : FfiResult α) := by
  rintro stop ⟨⟩
  exact ⟨message, rfl⟩

theorem rejects_required (pointer : Pointer) (name : String) : Rejects (required pointer name) := by
  cases pointer with
  | null => exact rejects_invalid _
  | valid => exact rejects_ok ()

theorem rejects_inputBytes (pointer : Option Bytes) (len : Nat) (name : String) :
    Rejects (inputBytes pointer len name) := by
  unfold inputBytes
  split
  · exact rejects_ok []
  · cases pointer with
    | none => exact rejects_invalid _
    | some bytes => exact rejects_ok _

theorem rejects_path (path : Option Bytes) : Rejects (requiredPath path) := by
  unfold requiredPath
  split
  · exact rejects_invalid _
  · split
    · exact rejects_ok ()
    · exact rejects_invalid _

theorem rejects_options (options : Option LkvOptions) : Rejects (decodeOptions options) := by
  unfold decodeOptions
  split
  · exact rejects_ok _
  · split
    · exact rejects_ok _
    · split
      · exact rejects_ok _
      · exact rejects_invalid _

theorem told_invalid (message : String) :
    (FfiStop.error (.new .invalidArgument message)).Told := by
  simp [FfiStop.Told, FfiError.new, LkvStatus.Silent]

theorem Rejects.told {r : FfiResult α} (rejects : Rejects r) :
    Raises FfiStop.Told (Prog.lift r : Prog σ FfiStop α) := by
  refine raises_lift fun stop stopped => ?_
  obtain ⟨message, rfl⟩ := rejects stop stopped
  exact told_invalid message

end Rejects

/-! ## Values -/

/-- Where the caller wants a copy: the bytes at `value`, if it is not NULL, and `*value_len`. -/
structure Copied where
  buffer : Option Bytes
  len : Nat
  deriving DecidableEq

/-- `copy_value`. -/
def copyValue (value : Option Bytes) (capacity : Nat) : Prog Copied FfiStop Unit := do
  Prog.modify fun out => { out with len := 0 }
  if (← Prog.state).buffer = none ∧ capacity ≠ 0 then
    Prog.lift (invalid "value must not be NULL when value_capacity is non-zero")
  else match value with
    | none => Prog.stop (.error (.control .notFound))
    | some value =>
        Prog.modify fun out => { out with len := value.length }
        if capacity < value.length then Prog.stop (.error (.control .bufferTooSmall))
        else if value = [] then pure ()
        else match (← Prog.state).buffer with
          | none => Prog.stop (.panic "assertion failed: !output.is_null()")
          | some buffer =>
              Prog.modify fun out => { out with buffer := some (value ++ buffer.drop value.length) }

/-- Where the caller wants a reference: `*value`, NULL or the bytes it addresses, and
`*value_len`. -/
structure Borrowed where
  value : Option Bytes
  len : Nat
  deriving DecidableEq

/-- `borrow_value`. -/
def borrowValue (value : Option Bytes) : Prog Borrowed FfiStop Unit := do
  Prog.modify fun _ => ⟨none, 0⟩
  match value with
  | none => Prog.stop (.error (.control .notFound))
  | some value =>
      Prog.modify fun out => { out with len := value.length }
      if value ≠ [] then Prog.modify fun out => { out with value := some value } else pure ()

section Values

variable {value : Option Bytes} {capacity : Nat}

theorem told_control {status : LkvStatus} (silent : status = .notFound ∨ status = .bufferTooSmall) :
    (FfiStop.error (.control status)).Told := by
  rcases silent with rfl | rfl <;> simp [FfiStop.Told, FfiError.control, LkvStatus.Silent]

/-- What becomes of the caller's memory and which status it is told. -/
inductive CopySpec (value : Option Bytes) (capacity : Nat) (out : Copied) :
    Except FfiStop Unit → Copied → Prop
  | null (message : String) (missing : out.buffer = none) (claimed : capacity ≠ 0) :
      CopySpec value capacity out (.error (.error (.new .invalidArgument message)))
        { out with len := 0 }
  | notFound (absent : value = none) (given : out.buffer = none → capacity = 0) :
      CopySpec value capacity out (.error (.error (.control .notFound))) { out with len := 0 }
  | tooSmall (found : Bytes) (is : value = some found) (small : capacity < found.length)
      (given : out.buffer = none → capacity = 0) :
      CopySpec value capacity out (.error (.error (.control .bufferTooSmall)))
        { out with len := found.length }
  | nothing (is : value = some []) (given : out.buffer = none → capacity = 0) :
      CopySpec value capacity out (.ok ()) { out with len := 0 }
  | copied (found buffer : Bytes) (is : value = some found) (some : out.buffer = some buffer)
      (fits : found.length ≤ capacity) :
      CopySpec value capacity out (.ok ())
        ⟨Option.some (found ++ buffer.drop found.length), found.length⟩

/-- The assertion of `copy_value` never fails. -/
theorem copyValue_spec (value : Option Bytes) (capacity : Nat) (out : Copied) :
    CopySpec value capacity out (copyValue value capacity out).1 (copyValue value capacity out).2 := by
  have spec : wp (copyValue value capacity) (fun r out' => CopySpec value capacity out (.ok r) out')
      (fun e out' => CopySpec value capacity out (.error e) out') out := by
    unfold copyValue
    refine wp_bind (wp_modify (wp_bind (wp_state ?_)))
    split
    · rename_i null
      exact wp_lift_error (.null _ null.1 null.2)
    rename_i both
    have given : out.buffer = none → capacity = 0 := fun missing => by_contra fun claimed =>
      both ⟨missing, claimed⟩
    cases value with
    | none => exact wp_stop (.notFound rfl given)
    | some found =>
        refine wp_bind (wp_modify ?_)
        split
        · rename_i small
          exact wp_stop (.tooSmall found rfl small given)
        rename_i fits
        have fits := Nat.not_lt.mp fits
        split
        · rename_i empty
          subst empty
          exact wp_pure (.nothing rfl given)
        rename_i some
        refine wp_bind (wp_state ?_)
        dsimp only
        cases is : out.buffer with
        | none =>
            -- The value is not empty and fits, so the capacity is not zero.
            have claimed : capacity ≠ 0 := fun zero =>
              some (List.length_eq_zero_iff.mp (by omega))
            exact absurd (given is) claimed
        | some buffer => exact wp_modify (.copied found buffer rfl is fits)
  unfold wp at spec
  split at spec
  · rename_i ran
    rw [ran]
    exact spec
  · rename_i ran
    rw [ran]
    exact spec

theorem told_copyValue : Raises FfiStop.Told (copyValue value capacity) := by
  intro out
  have spec := copyValue_spec value capacity out
  unfold wp
  cases ran : copyValue value capacity out with
  | mk result out' =>
      rw [ran] at spec
      cases spec with
      | null message missing claimed => exact told_invalid message
      | notFound absent => exact told_control (.inl rfl)
      | tooSmall found is small => exact told_control (.inr rfl)
      | nothing is => trivial
      | copied found buffer is some fits => trivial

theorem borrowValue_none (out : Borrowed) :
    borrowValue none out = (.error (.error (.control .notFound)), ⟨none, 0⟩) := rfl

/-- An empty value is told by its length; its pointer is NULL. -/
theorem borrowValue_some (found : Bytes) (out : Borrowed) :
    borrowValue (some found) out =
      (.ok (), ⟨if found = [] then none else some found, found.length⟩) := by
  cases found <;> rfl

theorem told_borrowValue : Raises FfiStop.Told (borrowValue value) := by
  intro out
  unfold wp
  cases value with
  | none =>
      rw [borrowValue_none]
      exact told_control (.inl rfl)
  | some found =>
      rw [borrowValue_some]
      trivial

end Values

end Ffi

end Lkv
