/-
# Lkv.Ffi.Clients — calls of the interface, in any state

A client of the interface holds one database and one batch and makes calls (`ClientCall`,
`perform`).  What is proved here needs nothing of the database: it may be damaged, poisoned or
cut off from its storage.

* `last_error_is_c_string`: over any calls, the thread's message stays one C string that ends with
  its buffer.  It is cleared before a call and not after it, so it is empty behind a call that
  reports no failure, but for what the callback of a `visit` has left (`misusing`).
* `poisoned_lock_shuts`: the lock is poisoned by a panic of a writing call and by nothing else,
  and from then on no call reaches the database.
-/
import Lkv.Ffi.Engines

namespace Lkv.Ffi
open Lkv.Theory Lkv.Theory.Prog Dictionary

set_option autoImplicit false

/-! ## Clients -/

/-- A database, a batch, and the last error of the thread. -/
structure Client (σ : Type) where
  database : LkvDatabase σ
  batch : LkvWriteBatch
  lastError : Bytes

/-- A call with its arguments and the places for its results. -/
inductive ClientCall : Type 1 where
  | get (database : Pointer) (key : Option Bytes) (keyLen valueCapacity : Nat) (valueLen : Pointer)
      (out : Copied)
  | getRef (database : Pointer) (key : Option Bytes) (keyLen : Nat) (value valueLen : Pointer)
      (out : Borrowed)
  | put (database : Pointer) (key : Option Bytes) (keyLen : Nat) (value : Option Bytes) (valueLen : Nat)
  | delete (database : Pointer) (key : Option Bytes) (keyLen : Nat)
  | len (database output : Pointer) (out : Nat)
  | getStats (database output : Pointer) (out : DatabaseStats)
  | sync (database : Pointer)
  | verify (database : Pointer)
  | compact (database : Pointer)
  | visit {ω : Type} (database : Pointer) (visitor : Option (Visitor ω)) (context : ω)
  | snapshotCreate (database output : Pointer) (out : Option Snapshot)
  | snapshotClose (snapshot : Pointer)
  | batchCreate (output : Pointer)
  | batchClear (batch : Pointer)
  | batchLen (batch output : Pointer) (out : Nat)
  | batchPut (batch : Pointer) (key : Option Bytes) (keyLen : Nat) (value : Option Bytes) (valueLen : Nat)
  | batchDelete (batch : Pointer) (key : Option Bytes) (keyLen : Nat)
  | commitWriteBatch (database batch : Pointer)

section Perform

variable {σ δ ω : Type}

/-- A function on a part of what the client holds. -/
def through (object : Client σ → δ) (out : Client σ → ω) (put : δ → ω → Client σ → Client σ)
    (function : CFunction δ ω) : Prog (Client σ) Stop LkvStatus :=
  Prog.zoom (fun client => ⟨object client, out client, client.lastError⟩)
    (fun frame client => { put frame.object frame.out client with lastError := frame.lastError }) function

/-- A function on the database, with a place for its result. -/
def overDatabase (out : ω) (function : CFunction (LkvDatabase σ) ω) : Prog (Client σ) Stop LkvStatus :=
  through Client.database (fun _ => out) (fun database _ client => { client with database := database })
    function

/-- A function on the batch, with a place for its result. -/
def overBatch (out : ω) (function : CFunction LkvWriteBatch ω) : Prog (Client σ) Stop LkvStatus :=
  through Client.batch (fun _ => out) (fun batch _ client => { client with batch := batch }) function

/-- A function on both. -/
def overBoth (function : CFunction (LkvDatabase σ) LkvWriteBatch) : Prog (Client σ) Stop LkvStatus :=
  through Client.database Client.batch
    (fun database batch client => { client with database := database, batch := batch }) function

def perform (C : Crates) (E : Engine σ) : ClientCall → Prog (Client σ) Stop LkvStatus
  | .get database key keyLen valueCapacity valueLen out =>
      overDatabase out (lkvDatabaseGet C E database key keyLen valueCapacity valueLen)
  | .getRef database key keyLen value valueLen out =>
      overDatabase out (lkvDatabaseGetRef C E database key keyLen value valueLen)
  | .put database key keyLen value valueLen =>
      overDatabase () (lkvDatabasePut E database key keyLen value valueLen)
  | .delete database key keyLen => overDatabase () (lkvDatabaseDelete E database key keyLen)
  | .len database output out => overDatabase out (lkvDatabaseLen C E database output)
  | .getStats database output out => overDatabase out (lkvDatabaseGetStats E database output)
  | .sync database => overDatabase () (lkvDatabaseSync E database)
  | .verify database => overDatabase () (lkvDatabaseVerify C E database)
  | .compact database => overDatabase () (lkvDatabaseCompact E database)
  | .visit database visitor context => overDatabase context (lkvDatabaseVisit C E database visitor)
  | .snapshotCreate database output out => overDatabase out (lkvSnapshotCreate E database output)
  | .snapshotClose snapshot => overDatabase () (lkvSnapshotClose E snapshot)
  | .batchCreate output => overBatch () (lkvWriteBatchCreate output)
  | .batchClear batch => overBatch () (lkvWriteBatchClear batch)
  | .batchLen batch output out => overBatch out (lkvWriteBatchLen batch output)
  | .batchPut batch key keyLen value valueLen =>
      overBatch () (lkvWriteBatchPut batch key keyLen value valueLen)
  | .batchDelete batch key keyLen => overBatch () (lkvWriteBatchDelete batch key keyLen)
  | .commitWriteBatch database batch =>
      overBoth (lkvDatabaseCommitWriteBatch C E database batch)

end Perform

theorem rejects_visitor {ω : Type} (visitor : Option (Visitor ω)) : Rejects (requiredVisitor visitor) := by
  cases visitor with
  | none => exact rejects_invalid _
  | some visitor => exact rejects_ok visitor

/-! ## The lock -/

/-- A panic of the library is passed on as one; no error has its status. -/
def FfiStop.Plain : FfiStop → Prop
  | .error failure => failure.status ≠ .panic
  | _ => True

theorem FfiStop.plain_ofStop (stop : Stop) : (ofStop stop).Plain := by
  cases stop with
  | err error => cases error <;> simp [ofStop, Plain, FfiError.ofError, FfiError.new]
  | panic message => trivial
  | diverge => trivial

section Under

variable {σ ω α β : Type} {P : Bytes → Prop}

/-- What is done while the lock is held: it tells its errors, and leaves alone the lock and, as
far as `P` goes, the message. -/
structure Under (P : Bytes → Prop) (act : Body (LkvDatabase σ) ω α) : Prop where
  told : Raises FfiStop.Told act
  leaves : Leaves P act
  keeps : Preserves (fun frame => frame.object.poisoned) act

theorem Under.bind {act : Body (LkvDatabase σ) ω α} {rest : α → Body (LkvDatabase σ) ω β}
    (first : Under P act) (next : ∀ a, Under P (rest a)) : Under P (act >>= rest) :=
  ⟨raises_bind first.told fun a => (next a).told, maintains_bind first.leaves fun a => (next a).leaves,
    preserves_bind first.keeps fun a => (next a).keeps⟩

theorem under_pure (a : α) : Under P (pure a : Body (LkvDatabase σ) ω α) :=
  ⟨raises_pure a, .of_preserves (preserves_pure a), preserves_pure a⟩

theorem under_stop {stop : FfiStop} (told : stop.Told) :
    Under P (Prog.stop stop : Body (LkvDatabase σ) ω α) :=
  ⟨raises_stop told, .of_preserves preserves_stop, preserves_stop⟩

theorem under_onDatabase (act : Prog σ Stop α) : Under P (onDatabase act : Body (LkvDatabase σ) ω α) where
  told := by
    unfold onDatabase onObject
    exact raises_zoom (raises_recast FfiStop.told_ofStop)
  leaves := by
    unfold onDatabase onObject
    exact .of_preserves (preserves_zoom fun _ _ => rfl)
  keeps := by
    intro frame
    refine wp_onDatabase ?_
    unfold wp
    split <;> rfl

theorem under_onOut {act : Prog ω FfiStop α} (told : Raises FfiStop.Told act) :
    Under P (onOut act : Body (LkvDatabase σ) ω α) :=
  ⟨raises_zoom told, .of_preserves (preserves_zoom fun _ _ => rfl), preserves_zoom fun _ _ => rfl⟩

theorem under_assign (value : ω) : Under P (assign value : Body (LkvDatabase σ) ω Unit) :=
  ⟨raises_modify _, .of_preserves (preserves_modify fun _ => rfl), preserves_modify fun _ => rfl⟩

theorem under_state : Under P (Prog.state : Body (LkvDatabase σ) ω _) :=
  ⟨raises_state, .of_preserves preserves_state, preserves_state⟩

/-- The callback, and the calls that it makes, leave the message as `P` has it. -/
def Visitor.Keeps (P : Bytes → Prop) (visitor : Visitor ω) : Prop :=
  ∀ key value context, P context.lastError → P (visitor.run key value context).2.lastError

theorem under_callBack {visitor : Visitor ω} (keeps : visitor.Keeps P) (key value : Bytes) :
    Under P (callBack visitor key value : Body (LkvDatabase σ) ω Int) :=
  ⟨fun _ => trivial, fun _ said => keeps key value _ said, fun _ => rfl⟩

theorem under_visitEntries {visitor : Visitor ω} (keeps : visitor.Keeps P)
    {next : RawEntries → Body (LkvDatabase σ) ω (Option (Except Error Entry) × RawEntries)}
    (under : ∀ entries, Under P (next entries)) (fuel : Nat) (entries : RawEntries) :
    Under P (visitEntries visitor next fuel entries) := by
  induction fuel generalizing entries with
  | zero => exact under_stop trivial
  | succ fuel ih =>
      refine (under entries).bind fun found => ?_
      split
      · exact under_pure ()
      · rename_i error _
        exact under_stop (FfiStop.told_ofStop (.err error))
      · refine (under_callBack keeps _ _).bind fun answer => ?_
        split
        · exact under_pure ()
        · exact ih _

end Under

section Guarded

variable {σ ω α : Type} {P : Bytes → Prop} {writes : Bool}

/-- How a call on a database goes about the lock.  With the lock poisoned it does not reach the
database; otherwise it poisons the lock exactly if it writes and panics. -/
structure Guarded (P : Bytes → Prop) (writes : Bool) (body : Body (LkvDatabase σ) ω Unit) : Prop where
  told : Raises FfiStop.Told body
  leaves : Leaves P body
  shut : ∀ frame, frame.object.poisoned = true →
    wp body (fun _ _ => False) (fun e frame' => frame'.object = frame.object ∧
      (e.status = some .invalidArgument ∨ e.status = some .panic)) frame
  opened : ∀ frame, frame.object.poisoned = false →
    wp body (fun _ frame' => frame'.object.poisoned = false)
      (fun e frame' => frame'.object.poisoned = true ↔ writes = true ∧ e.status = some .panic) frame

theorem guarded_check {r : FfiResult α} {rest : α → Body (LkvDatabase σ) ω Unit}
    (rejects : Rejects r) (guarded : ∀ a, Guarded P writes (rest a)) :
    Guarded P writes (Prog.lift r >>= rest) where
  told := raises_bind rejects.told fun a => (guarded a).told
  leaves := maintains_bind (Leaves.of_preserves (preserves_lift r)) fun a => (guarded a).leaves
  shut := by
    intro frame poisoned
    refine wp_bind (wp_lift (fun a _ => (guarded a).shut frame poisoned) fun e failed => ?_)
    obtain ⟨message, rfl⟩ := rejects e failed
    exact ⟨rfl, .inl rfl⟩
  opened := by
    intro frame sound
    refine wp_bind (wp_lift (fun a _ => (guarded a).opened frame sound) fun e failed => ?_)
    obtain ⟨message, rfl⟩ := rejects e failed
    simp [sound, FfiStop.status, FfiError.new]

theorem guarded_invalid (message : String) {rest : α → Body (LkvDatabase σ) ω Unit} :
    Guarded P writes (Prog.lift (invalid message) >>= rest) where
  told := raises_stop (told_invalid message)
  leaves := Leaves.of_preserves preserves_stop
  shut _ _ := ⟨rfl, .inl rfl⟩
  opened frame sound := by
    show frame.object.poisoned = true ↔ writes = true ∧ some LkvStatus.invalidArgument = some .panic
    simp [sound]

theorem guarded_assign {value : ω} {rest : Unit → Body (LkvDatabase σ) ω Unit}
    (guarded : Guarded P writes (rest ())) : Guarded P writes (assign value >>= rest) where
  told := raises_bind (raises_modify _) fun _ => guarded.told
  leaves := maintains_bind (Leaves.of_preserves (preserves_modify fun _ => rfl)) fun _ => guarded.leaves
  shut frame poisoned := wp_bind (wp_modify (guarded.shut { frame with out := value } poisoned))
  opened frame sound := wp_bind (wp_modify (guarded.opened { frame with out := value } sound))

theorem lock_poisoned {frame : Frame (LkvDatabase σ) ω} (poisoned : frame.object.poisoned = true) :
    lock frame =
      (.error (.error (.new .panic "database lock was poisoned by a previous panic")), frame) := by
  unfold lock
  rw [bind_ok (rfl : Prog.state frame = (.ok frame, frame)), if_pos poisoned]
  rfl

theorem lock_sound {frame : Frame (LkvDatabase σ) ω} (sound : frame.object.poisoned = false) :
    lock frame = (.ok (), frame) := by
  unfold lock
  rw [bind_ok (rfl : Prog.state frame = (.ok frame, frame)), if_neg (by simp [sound])]
  rfl

theorem told_lock : Raises FfiStop.Told (lock : Body (LkvDatabase σ) ω Unit) := by
  intro frame
  unfold wp
  cases held : frame.object.poisoned with
  | true =>
      rw [lock_poisoned held]
      simp [FfiStop.Told, FfiError.new, LkvStatus.Silent]
  | false =>
      rw [lock_sound held]
      trivial

theorem leaves_lock : Leaves P (lock : Body (LkvDatabase σ) ω Unit) := by
  intro frame said
  unfold wp
  cases held : frame.object.poisoned with
  | true =>
      rw [lock_poisoned held]
      exact said
  | false =>
      rw [lock_sound held]
      exact said

/-- What is done behind a poisoned lock is not done. -/
theorem wp_lock_poisoned {frame : Frame (LkvDatabase σ) ω}
    {rest : Unit → Body (LkvDatabase σ) ω Unit} (poisoned : frame.object.poisoned = true) :
    wp (lock >>= rest) (fun _ _ => False) (fun e frame' => frame'.object = frame.object ∧
      (e.status = some .invalidArgument ∨ e.status = some .panic)) frame := by
  unfold wp
  rw [bind_error (lock_poisoned poisoned)]
  exact ⟨rfl, .inr rfl⟩

theorem wp_lock_sound {frame : Frame (LkvDatabase σ) ω}
    {rest : Unit → Body (LkvDatabase σ) ω Unit} {Q : Unit → Frame (LkvDatabase σ) ω → Prop}
    {E : FfiStop → Frame (LkvDatabase σ) ω → Prop} (sound : frame.object.poisoned = false)
    (runs : wp (rest ()) Q E frame) : wp (lock >>= rest) Q E frame := by
  refine wp_bind ?_
  rw [wp, lock_sound sound]
  exact runs

theorem guarded_read {act : Unit → Body (LkvDatabase σ) ω Unit} (under : Under P (act ())) :
    Guarded P false (readDatabase >>= act) where
  told := raises_bind told_lock fun _ => under.told
  leaves := maintains_bind leaves_lock fun _ => under.leaves
  shut _ poisoned := wp_lock_poisoned poisoned
  opened := by
    intro frame sound
    refine wp_lock_sound sound (wp_mono (under.keeps frame) (fun _ _ kept => kept.trans sound) ?_)
    intro e frame' kept
    simp [kept.trans sound]

theorem guarded_write {body : Body (LkvDatabase σ) ω Unit} (under : Under P body)
    (plain : Raises FfiStop.Plain body) : Guarded P true (writeDatabase body) where
  told := by
    refine raises_bind told_lock fun _ => raises_bind (raises_attempt under.told) fun result => ?_
    cases result with
    | ok _ => exact raises_pure ()
    | error message => exact raises_bind (raises_modify _) fun _ => raises_stop trivial
  leaves := by
    refine maintains_bind leaves_lock fun _ => maintains_bind (maintains_attempt under.leaves) fun result => ?_
    cases result with
    | ok _ => exact Leaves.of_preserves (preserves_pure ())
    | error message =>
        exact maintains_bind (Leaves.of_preserves (preserves_modify fun _ => rfl)) fun _ =>
          Leaves.of_preserves preserves_stop
  shut _ poisoned := wp_lock_poisoned poisoned
  opened := by
    intro frame sound
    refine wp_lock_sound sound (wp_bind (wp_attempt (wp_mono (wp_raises plain (under.keeps frame)) ?_ ?_)))
    · intro _ frame' kept
      exact wp_pure (kept.trans sound)
    · rintro e frame' ⟨plain, kept⟩
      have kept : frame'.object.poisoned = false := kept.trans sound
      cases e with
      | error failure =>
          have other : failure.status ≠ .panic := plain
          simp [FfiStop.panic?, FfiStop.status, kept, other]
      | panic message => exact wp_bind (wp_modify (wp_stop ⟨fun _ => ⟨rfl, rfl⟩, fun _ => rfl⟩))
      | diverge => simp [FfiStop.panic?, FfiStop.status, kept]

theorem plain_onDatabase (act : Prog σ Stop α) :
    Raises FfiStop.Plain (onDatabase act : Body (LkvDatabase σ) ω α) := by
  unfold onDatabase onObject
  exact raises_zoom (raises_recast FfiStop.plain_ofStop)

/-- A call of the library under the lock for writing. -/
theorem guarded_update (act : Prog σ Stop Unit) :
    Guarded P true (writeDatabase (onDatabase act : Body (LkvDatabase σ) ω Unit)) :=
  guarded_write (under_onDatabase act) (plain_onDatabase act)

end Guarded

/-! ## What a call goes through -/

namespace ClientCall

/-- The call takes the lock of the database. -/
def Locks : ClientCall → Prop
  | snapshotClose _ | batchCreate _ | batchClear _ | batchLen _ _ _ | batchPut _ _ _ _ _
  | batchDelete _ _ _ => False
  | _ => True

/-- The call takes it for writing. -/
def writes : ClientCall → Bool
  | put _ _ _ _ _ | delete _ _ _ | compact _ | commitWriteBatch _ _ => true
  | _ => false

/-- The callback of the call, if it has one, leaves the message as `P` has it. -/
def KeepsMessage (P : Bytes → Prop) : ClientCall → Prop
  | visit _ (some visitor) _ => visitor.Keeps P
  | _ => True

theorem keepsMessage_isCString (call : ClientCall) : call.KeepsMessage IsCString := by
  cases call with
  | visit database visitor context =>
      cases visitor with
      | none => trivial
      | some visitor => exact visitor.string
  | _ => trivial

end ClientCall

section Through

variable {σ : Type} {C : Crates} {E : Engine σ} {P : Bytes → Prop}

/-- The call is a function of the interface on the database and something else. -/
def OnLock (P : Bytes → Prop) (writes : Bool) (call : Prog (Client σ) Stop LkvStatus) : Prop :=
  ∃ (ω : Type) (out : Client σ → ω) (put : LkvDatabase σ → ω → Client σ → Client σ)
    (body : Body (LkvDatabase σ) ω Unit),
    (∀ database out client, (put database out client).database = database) ∧
    call = through Client.database out put (ffiCall body) ∧ Guarded P writes body

theorem onLock_database {ω : Type} {writes : Bool} {out : ω} {body : Body (LkvDatabase σ) ω Unit}
    (guarded : Guarded P writes body) : OnLock P writes (overDatabase out (ffiCall body)) :=
  ⟨ω, fun _ => out, _, body, fun _ _ _ => rfl, rfl, guarded⟩

theorem onLock_both {writes : Bool} {body : Body (LkvDatabase σ) LkvWriteBatch Unit}
    (guarded : Guarded P writes body) : OnLock P writes (overBoth (ffiCall body)) :=
  ⟨_, Client.batch, _, body, fun _ _ _ => rfl, rfl, guarded⟩

theorem perform_onLock (C : Crates) (E : Engine σ) {call : ClientCall} (locks : call.Locks)
    (keeps : call.KeepsMessage P) : OnLock P call.writes (perform C E call) := by
  cases call with
  | get database key keyLen valueCapacity valueLen out =>
      exact onLock_database (guarded_check (rejects_required _ _) fun _ =>
        guarded_check (rejects_inputBytes _ _ _) fun _ => guarded_check (rejects_required _ _) fun _ =>
        guarded_read ((under_onDatabase _).bind fun _ => under_onOut told_copyValue))
  | getRef database key keyLen value valueLen out =>
      exact onLock_database (guarded_check (rejects_required _ _) fun _ =>
        guarded_check (rejects_inputBytes _ _ _) fun _ => guarded_check (rejects_required _ _) fun _ =>
        guarded_check (rejects_required _ _) fun _ =>
        guarded_read ((under_onDatabase _).bind fun _ => under_onOut told_borrowValue))
  | put database key keyLen value valueLen =>
      exact onLock_database (guarded_check (rejects_required _ _) fun _ =>
        guarded_check (rejects_inputBytes _ _ _) fun _ =>
        guarded_check (rejects_inputBytes _ _ _) fun _ => guarded_update _)
  | delete database key keyLen =>
      exact onLock_database (guarded_check (rejects_required _ _) fun _ =>
        guarded_check (rejects_inputBytes _ _ _) fun _ => guarded_update _)
  | len database output out | getStats database output out =>
      exact onLock_database (guarded_check (rejects_required _ _) fun _ =>
        guarded_check (rejects_required _ _) fun _ =>
        guarded_read ((under_onDatabase _).bind fun _ => under_assign _))
  | sync database | verify database =>
      exact onLock_database (guarded_check (rejects_required _ _) fun _ =>
        guarded_read (under_onDatabase _))
  | compact database =>
      exact onLock_database (guarded_check (rejects_required _ _) fun _ => guarded_update _)
  | visit database visitor context =>
      refine onLock_database (guarded_check (rejects_required _ _) fun _ => ?_)
      cases visitor with
      | none => exact guarded_invalid _
      | some visitor =>
          exact guarded_read ((under_onDatabase _).bind fun _ =>
            under_visitEntries keeps (fun _ => under_onDatabase _) _ _)
  | snapshotCreate database output out =>
      exact onLock_database (guarded_check (rejects_required _ _) fun _ =>
        guarded_check (rejects_required _ _) fun _ => guarded_assign
        (guarded_read ((under_onDatabase _).bind fun _ => under_assign _)))
  | commitWriteBatch database batch =>
      refine onLock_both ?_
      exact guarded_check (rejects_required _ _) fun _ => guarded_check (rejects_required _ _) fun _ =>
        guarded_write (under_state.bind fun _ => (under_onDatabase _).bind fun _ => under_assign _)
          (raises_bind raises_state fun _ => raises_bind (plain_onDatabase _) fun _ => raises_modify _)
  | snapshotClose snapshot => exact locks.elim
  | batchCreate output => exact locks.elim
  | batchClear batch => exact locks.elim
  | batchLen batch output out => exact locks.elim
  | batchPut batch key keyLen value valueLen => exact locks.elim
  | batchDelete batch key keyLen => exact locks.elim

end Through

/-! ## Runs -/

/-- A sequence of calls, each with the status it returned. -/
inductive Performs {σ : Type} (C : Crates) (E : Engine σ) :
    Client σ → List (ClientCall × LkvStatus) → Client σ → Prop
  | nil (client : Client σ) : Performs C E client [] client
  | cons {client between client' : Client σ} {call : ClientCall} {status : LkvStatus}
      {log : List (ClientCall × LkvStatus)} (ran : perform C E call client = (.ok status, between))
      (rest : Performs C E between log client') : Performs C E client ((call, status) :: log) client'

/-! ## The message of a call -/

section Message

variable {σ δ ω : Type} {P : Bytes → Prop} {C : Crates} {E : Engine σ} {client client' : Client σ}

/-- A call that fails leaves its own message, and any other leaves one as `P` has it. -/
def LeavesMessage (P : Bytes → Prop) (call : Prog (Client σ) Stop LkvStatus) : Prop :=
  ∀ client status client', call client = (.ok status, client') →
    P client'.lastError ∨ ¬status.Silent ∧ ∃ message, client'.lastError = setLastError message

theorem leavesMessage {object : Client σ → δ} {out : Client σ → ω} {put : δ → ω → Client σ → Client σ}
    {body : Body δ ω Unit} (told : Raises FfiStop.Told body) (leaves : Leaves P body)
    (cleared : P clearLastError) : LeavesMessage P (through object out put (ffiCall body)) := by
  intro client status client' ran
  unfold through zoom at ran
  cases called : ffiCall body ⟨object client, out client, client.lastError⟩ with
  | mk result frame =>
      rw [called] at ran
      cases ran
      exact ffiCall_message told leaves cleared called

theorem preserves_overDatabase {out : ω} {body : Body (LkvDatabase σ) ω Unit}
    (keeps : Preserves (fun frame => frame.object.poisoned) body) :
    Preserves (fun client => client.database.poisoned) (overDatabase out (ffiCall body)) := by
  intro client
  unfold overDatabase through
  let Kept (database : LkvDatabase σ) (_ : ω) : Prop := database.poisoned = client.database.poisoned
  refine wp_zoom (wp_ffiCall (Q := fun _ => Kept) (D := Kept) ?_)
  refine wp_mono (keeps ⟨client.database, out, clearLastError⟩) (fun _ _ kept => kept) fun e frame kept => ?_
  cases e.status <;> exact kept

/-- The calls that do without the lock: the batch's own, and the end of a snapshot. -/
theorem perform_apart (C : Crates) (E : Engine σ) {call : ClientCall} (apart : ¬call.Locks)
    (cleared : P clearLastError) : LeavesMessage P (perform C E call) ∧
      Preserves (fun client => client.database.poisoned) (perform C E call) := by
  have batch {ω : Type} {out : ω} {body : Body LkvWriteBatch ω Unit} (told : Raises FfiStop.Told body)
      (keeps : Preserves Frame.lastError body) :
      LeavesMessage P (overBatch out (ffiCall body) : Prog (Client σ) Stop LkvStatus) ∧
        Preserves (fun client : Client σ => client.database.poisoned) (overBatch out (ffiCall body)) := by
    refine ⟨leavesMessage told (.of_preserves keeps) cleared, ?_⟩
    unfold overBatch through
    exact preserves_zoom fun _ _ => rfl
  have snapshot {body : Body (LkvDatabase σ) Unit Unit} (under : Under P body) :
      LeavesMessage P (overDatabase () (ffiCall body)) ∧
        Preserves (fun client : Client σ => client.database.poisoned) (overDatabase () (ffiCall body)) :=
    ⟨leavesMessage under.told under.leaves cleared, preserves_overDatabase under.keeps⟩
  cases call with
  | snapshotClose pointer =>
      cases pointer with
      | null => exact snapshot (under_pure ())
      | valid => exact snapshot (under_onDatabase _)
  | batchCreate output | batchClear pointer =>
      exact batch (raises_bind (rejects_required _ _).told fun _ => raises_modify _)
        (preserves_bind (preserves_lift _) fun _ => preserves_modify fun _ => rfl)
  | batchPut pointer key keyLen value valueLen =>
      exact batch (raises_bind (rejects_required _ _).told fun _ =>
        raises_bind (rejects_inputBytes _ _ _).told fun _ =>
        raises_bind (rejects_inputBytes _ _ _).told fun _ => raises_modify _)
        (preserves_bind (preserves_lift _) fun _ => preserves_bind (preserves_lift _) fun _ =>
          preserves_bind (preserves_lift _) fun _ => preserves_modify fun _ => rfl)
  | batchDelete pointer key keyLen =>
      exact batch (raises_bind (rejects_required _ _).told fun _ =>
        raises_bind (rejects_inputBytes _ _ _).told fun _ => raises_modify _)
        (preserves_bind (preserves_lift _) fun _ => preserves_bind (preserves_lift _) fun _ =>
          preserves_modify fun _ => rfl)
  | batchLen pointer output out =>
      exact batch (raises_bind (rejects_required _ _).told fun _ =>
        raises_bind (rejects_required _ _).told fun _ => raises_bind raises_state fun _ => raises_modify _)
        (preserves_bind (preserves_lift _) fun _ => preserves_bind (preserves_lift _) fun _ =>
          preserves_bind preserves_state fun _ => preserves_modify fun _ => rfl)
  | get | getRef | put | delete | len | getStats | sync | verify | compact | visit | snapshotCreate
  | commitWriteBatch => exact absurd trivial apart

theorem overDatabase_run {out : ω} {function : CFunction (LkvDatabase σ) ω} {database : LkvDatabase σ}
    {batch : LkvWriteBatch} {said : Bytes} {frame : Frame (LkvDatabase σ) ω}
    {result : Except Stop LkvStatus} (ran : function ⟨database, out, said⟩ = (result, frame)) :
    overDatabase out function ⟨database, batch, said⟩ = (result, ⟨frame.object, batch, frame.lastError⟩) := by
  unfold overDatabase through zoom
  rw [ran]

theorem perform_put {s s' : σ} {batch : LkvWriteBatch} {said : Bytes}
    (ran : E.transact [.put [1] [2]] s = (.ok (), s')) :
    perform C E (.put .valid (some [1]) 1 (some [2]) 1) ⟨⟨s, false⟩, batch, said⟩ =
      (.ok .ok, ⟨⟨s', false⟩, batch, clearLastError⟩) := by
  let frame (s : σ) : Frame (LkvDatabase σ) Unit := ⟨⟨s, false⟩, (), clearLastError⟩
  have committed : onDatabase (E.transact [.put [1] [2]]) (frame s) = (.ok (), frame s') := onDatabase_run ran
  have tried : attempt FfiStop.panic? (onDatabase (E.transact [.put [1] [2]])) (frame s) =
      (.ok (.ok ()), frame s') := by
    unfold attempt
    rw [committed]
  have written : writeDatabase (onDatabase (E.transact [.put [1] [2]])) (frame s) = (.ok (), frame s') := by
    unfold writeDatabase
    rw [bind_ok (lock_sound rfl), bind_ok tried]
    rfl
  have called : lkvDatabasePut E .valid (some [1]) 1 (some [2]) 1 ⟨⟨s, false⟩, (), said⟩ =
      (.ok .ok, frame s') := ffiCall_run written
  exact overDatabase_run called

end Message

/-! ## A poisoned lock -/

section Poisoned

variable {σ : Type} {C : Crates} {E : Engine σ} {client client' : Client σ}

/-- What one call does to the lock. -/
structure LockStep (call : ClientCall) (status : LkvStatus) (before after : LkvDatabase σ) : Prop where
  poisons : before.poisoned = false →
    (after.poisoned = true ↔ call.writes = true ∧ status = .panic)
  stays : before.poisoned = true → after.poisoned = true
  refused : before.poisoned = true → call.Locks →
    after = before ∧ (status = .invalidArgument ∨ status = .panic)

theorem perform_lock {call : ClientCall} {status : LkvStatus}
    (ran : perform C E call client = (.ok status, client')) :
    LockStep call status client.database client'.database := by
  by_cases locks : call.Locks
  · obtain ⟨ω, out, put, body, object, is, guarded⟩ := perform_onLock C E locks call.keepsMessage_isCString
    rw [is] at ran
    have spec : wp (through Client.database out put (ffiCall body))
        (fun status after => LockStep call status client.database after.database)
        (fun _ _ => True) client := by
      refine wp_zoom (wp_ffiCall (Q := fun status database out =>
        LockStep call status client.database (put database out client).database) (D := fun _ _ => True) ?_)
      simp only [object]
      cases held : client.database.poisoned with
      | true =>
          refine wp_mono (guarded.shut _ held) (fun _ _ => False.elim) ?_
          rintro e frame ⟨same, status⟩
          have same : frame.object = client.database := same
          rcases status with status | status <;> rw [status] <;>
            exact ⟨fun sound => by simp [held] at sound, fun _ => same ▸ held, fun _ _ => ⟨same, by simp⟩⟩
      | false =>
          refine wp_mono (guarded.opened _ held) ?_ ?_
          · intro _ frame sound
            exact ⟨fun _ => by simp [sound], fun poisoned => by simp [held] at poisoned,
              fun poisoned => by simp [held] at poisoned⟩
          · intro e frame poisons
            cases status : e.status with
            | none => trivial
            | some told =>
                rw [status] at poisons
                exact ⟨fun _ => by simpa using poisons, fun poisoned => by simp [held] at poisoned,
                  fun poisoned => by simp [held] at poisoned⟩
    have step := wp_ok spec ran
    exact step
  · have kept := wp_ok ((perform_apart C E locks isCString_clearLastError).2 client) ran
    have reads : call.writes = false := by
      cases call <;> first | rfl | exact absurd trivial locks
    exact ⟨fun sound => by simp [kept, sound, reads], fun poisoned => kept.trans poisoned,
      fun _ takes => absurd takes locks⟩

/-- Over any calls whatever: the lock of a database is poisoned at the end if and only if a call
that writes has panicked, and from then on every call on the database returns without having
touched it. -/
theorem poisoned_lock_shuts {log : List (ClientCall × LkvStatus)} (run : Performs C E client log client') :
    (client.database.poisoned = false →
      (client'.database.poisoned = true ↔ ∃ made ∈ log, made.1.writes = true ∧ made.2 = .panic)) ∧
    (client.database.poisoned = true → client'.database.poisoned = true ∧
      (∀ made ∈ log, made.1.Locks → made.2 = .invalidArgument ∨ made.2 = .panic) ∧
      ((∀ made ∈ log, made.1.Locks) → client'.database = client.database)) := by
  induction run with
  | nil client => simp
  | @cons client between client' call status log ran rest ih =>
      have step := perform_lock ran
      constructor
      · intro sound
        cases held : between.database.poisoned with
        | false =>
            have quiet : ¬(call.writes = true ∧ status = .panic) := fun panicked => by
              simp [(step.poisons sound).mpr panicked] at held
            rw [ih.1 held]
            simp [quiet]
        | true => exact ⟨fun _ => ⟨_, List.mem_cons_self, (step.poisons sound).mp held⟩, fun _ => (ih.2 held).1⟩
      · intro poisoned
        obtain ⟨still, refused, same⟩ := ih.2 (step.stays poisoned)
        refine ⟨still, List.forall_mem_cons.mpr ⟨fun locks => (step.refused poisoned locks).2, refused⟩, ?_⟩
        intro locks
        obtain ⟨first, others⟩ := List.forall_mem_cons.mp locks
        exact (same others).trans (step.refused poisoned first).1

/-- A database in memory that has the overlay of a file, which no call can bring about. -/
def mismatched : MemoryDatabase where
  db := ⟨⟨.memory [], ⟨0, 0, [], [], 0, true, true⟩, 0, 0, 0, 0, 0, 0⟩, ⟨.mapped none [] [], 0⟩, .default, 1,
    .healthy⟩
  ram := ⟨⟨.new, []⟩, []⟩

/-- The first put panics.  The second one and a check find the lock poisoned. -/
theorem poisoned_lock_shuts_mismatched : ∃ client client₁ client₂ : Client MemoryDatabase,
    client.database.poisoned = false ∧
    Performs zeroHash (memoryEngine zeroHash) client [(.put .valid (some [1]) 1 (some [2]) 1, .panic)]
      client₁ ∧ client₁.database.poisoned = true ∧
    Performs zeroHash (memoryEngine zeroHash) client₁
      [(.put .valid (some [1]) 1 (some [2]) 1, .panic), (.verify .valid, .panic)] client₂ ∧
    client₂.database = client₁.database := by
  have panics : (perform zeroHash (memoryEngine zeroHash) (.put .valid (some [1]) 1 (some [2]) 1)
      ⟨⟨mismatched, false⟩, .new, clearLastError⟩).1 = .ok .panic := by
    unfold perform overDatabase through zoom lkvDatabasePut Engine.transact memoryEngine
      MemoryDatabase.commitStagedMemory Volatile.call
    rfl
  cases ran : perform zeroHash (memoryEngine zeroHash) (.put .valid (some [1]) 1 (some [2]) 1)
    ⟨⟨mismatched, false⟩, .new, clearLastError⟩ with
  | mk result client₁ =>
      rw [ran] at panics
      cases panics
      have first := Performs.cons ran (.nil _)
      have poisoned := ((poisoned_lock_shuts first).1 rfl).mpr ⟨_, List.mem_singleton_self _, rfl, rfl⟩
      obtain ⟨⟨inner, held⟩, batch, said⟩ := client₁
      obtain rfl : held = true := poisoned
      have rest : Performs zeroHash (memoryEngine zeroHash) ⟨⟨inner, true⟩, batch, said⟩
          [(.put .valid (some [1]) 1 (some [2]) 1, .panic), (.verify .valid, .panic)] _ :=
        .cons rfl (.cons rfl (.nil _))
      refine ⟨_, _, _, rfl, first, rfl, rest, ((poisoned_lock_shuts rest).2 rfl).2.2 ?_⟩
      simp [ClientCall.Locks]

end Poisoned

end Lkv.Ffi
