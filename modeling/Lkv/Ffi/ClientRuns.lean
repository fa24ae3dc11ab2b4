/-
# Lkv.Ffi.ClientRuns — a client sees a map

The interface as a whole: whatever calls a client makes on a database of either storage, and
whichever calls of the system fail, the database behaves as one map and the batch as a finite
set of operations to come (`Reference`).  A call changes the map only if it returns `LKV_OK`, and
then as its arguments say (`ClientCall.effect`).

`perform_follows` is the step, by one case per call; `client_refines_map` is the run.
-/
import Lkv.Ffi.Bodies

namespace Lkv.Ffi
open Lkv.Theory Lkv.Theory.Prog Dictionary

set_option autoImplicit false

/-! ## The reference -/

/-- What a client has to reckon with: the map, and the operation to come on each key. -/
structure Reference where
  map : Bytes → Option Bytes
  batch : Bytes → Option (Option Bytes)

/-- The bytes that a pointer and a length stand for. -/
def argument (pointer : Option Bytes) (len : Nat) : Bytes := (pointer.getD []).take len

namespace ClientCall

/-- What the call is for. -/
def target : ClientCall → Reference → Reference
  | put _ key keyLen value valueLen, r =>
      { r with map := override r.map [(argument key keyLen, some (argument value valueLen))] }
  | delete _ key keyLen, r => { r with map := override r.map [(argument key keyLen, none)] }
  | batchCreate _, r | batchClear _, r => { r with batch := fun _ => none }
  | batchPut _ key keyLen value valueLen, r =>
      { r with batch := Function.update r.batch (argument key keyLen) (some (some (argument value valueLen))) }
  | batchDelete _ key keyLen, r =>
      { r with batch := Function.update r.batch (argument key keyLen) (some none) }
  | commitWriteBatch _ _, r => ⟨fun key => (r.batch key).getD (r.map key), fun _ => none⟩
  | _, r => r

/-- A call that does not return `LKV_OK` has changed nothing. -/
def effect (call : ClientCall) (status : LkvStatus) (r : Reference) : Reference :=
  if status = .ok then call.target r else r

end ClientCall

theorem inputBytes_ok {pointer : Option Bytes} {len : Nat} {name : String} {bytes : Bytes}
    (given : inputBytes pointer len name = .ok bytes) : bytes = argument pointer len := by
  unfold inputBytes at given
  split at given
  · rename_i zero
    cases given
    rw [argument, zero, List.take_zero]
  · cases pointer with
    | none => cases given
    | some all =>
        cases given
        rfl

/-- A batch is committed as it stands, in whatever order its table is iterated. -/
theorem LkvWriteBatch.latest_calls (C : Crates) (memory : Bool) (batch : LkvWriteBatch) (key : Bytes) :
    latest ((batch.calls C).map (·.operation memory)).reverse key = batch.entries.lookup key := by
  have listed : (batch.calls C).map (·.operation memory) =
      C.order (batch.entries.entries.map fun entry => (entry.1, entry.2)) := by
    rw [calls, List.map_map]
    refine (List.map_congr_left ?_).trans (List.map_id _)
    rintro ⟨key, _ | value⟩ - <;> rfl
  have perm : ((batch.calls C).map (·.operation memory)).reverse.Perm
      (batch.entries.entries.map fun entry => (entry.1, entry.2)) := by
    rw [listed]
    exact (List.reverse_perm _).trans (C.order_perm _)
  have distinct : Distinct (batch.entries.entries.map fun entry => (entry.1, entry.2)) := by
    unfold Distinct
    rw [List.map_map]
    exact batch.entries.nodupKeys
  apply Option.ext
  intro value
  rw [← latest_perm perm.symm distinct, latest_eq_some_iff distinct, List.mem_map, ← Option.mem_def,
    AList.mem_lookup_iff]
  constructor
  · rintro ⟨_, found, ⟨⟩⟩
    exact found
  · exact fun found => ⟨_, found, rfl⟩

/-! ## One call -/

section Follows

variable {σ δ ω : Type} {C : Crates} {E : Engine σ} {inv : σ → (Bytes → Option Bytes) → Prop}
variable {honest : σ → Prop} {client : Client σ} {r : Reference} {m' : Bytes → Option Bytes}

/-- The client's database and batch are those of the reference. -/
structure Follows (inv : σ → (Bytes → Option Bytes) → Prop) (client : Client σ) (r : Reference) :
    Prop where
  database : client.database.Holds inv r.map
  batch : ∀ key, client.batch.entries.lookup key = r.batch key

/-- A call follows the reference if its body does. -/
theorem follows_call {object : Client σ → δ} {out : Client σ → ω} {put : δ → ω → Client σ → Client σ}
    {body : Body δ ω Unit} {r' : Reference}
    (runs : wp body (fun _ frame => Follows inv (put frame.object frame.out client) r')
      (fun e frame => e.Ends ∧ Follows inv (put frame.object frame.out client) r)
      ⟨object client, out client, clearLastError⟩) :
    wp (through object out put (ffiCall body))
      (fun status client' => Follows inv client' (if status = .ok then r' else r))
      (fun _ _ => False) client := by
  let Held (status : LkvStatus) (d : δ) (w : ω) : Prop :=
    Follows inv (put d w client) (if status = .ok then r' else r)
  unfold through
  refine wp_zoom (wp_mono (wp_ffiCall (Q := Held) (D := fun _ _ => False) (wp_mono runs ?_ ?_)) ?_
    fun _ _ => False.elim)
  · exact fun _ _ held => held
  · rintro e frame ⟨⟨status, is, failed⟩, held⟩
    rw [is]
    show Follows inv _ _
    rw [if_neg failed]
    exact held
  · exact fun status frame held => ⟨held.database, held.batch⟩

theorem follows_database {out : ω} {body : Body (LkvDatabase σ) ω Unit} (follows : Follows inv client r)
    (runs : wp body (fun _ frame => frame.object.Holds inv m')
      (fun e frame => e.Ends ∧ frame.object.Holds inv r.map) ⟨client.database, out, clearLastError⟩) :
    wp (overDatabase out (ffiCall body))
      (fun status client' => Follows inv client' (if status = .ok then { r with map := m' } else r))
      (fun _ _ => False) client :=
  follows_call (wp_mono runs (fun _ _ held => ⟨held, follows.batch⟩) fun _ _ failed =>
    ⟨failed.1, failed.2, follows.batch⟩)

theorem follows_batch {out : ω} {body : Body LkvWriteBatch ω Unit} {pending : Bytes → Option (Option Bytes)}
    (follows : Follows inv client r)
    (runs : wp body (fun _ frame => ∀ key, frame.object.entries.lookup key = pending key)
      (fun e frame => e.Ends ∧ frame.object = client.batch) ⟨client.batch, out, clearLastError⟩) :
    wp (overBatch out (ffiCall body))
      (fun status client' => Follows inv client' (if status = .ok then { r with batch := pending } else r))
      (fun _ _ => False) client :=
  follows_call (wp_mono runs (fun _ _ held => ⟨follows.database, held⟩) fun _ _ failed =>
    ⟨failed.1, follows.database, failed.2.symm ▸ follows.batch⟩)

theorem follows_both {body : Body (LkvDatabase σ) LkvWriteBatch Unit} {r' : Reference}
    (follows : Follows inv client r)
    (runs : wp body (fun _ frame => frame.object.Holds inv r'.map ∧
        ∀ key, frame.out.entries.lookup key = r'.batch key)
      (fun e frame => e.Ends ∧ frame.object.Holds inv r.map ∧ frame.out = client.batch)
      ⟨client.database, client.batch, clearLastError⟩) :
    wp (overBoth (ffiCall body))
      (fun status client' => Follows inv client' (if status = .ok then r' else r))
      (fun _ _ => False) client :=
  follows_call (wp_mono runs (fun _ _ held => ⟨held.1, held.2⟩) fun _ _ failed =>
    ⟨failed.1, failed.2.1, failed.2.2.symm ▸ follows.batch⟩)

theorem follows_bears {out : ω} {body : Body (LkvDatabase σ) ω Unit}
    (bears : Bears inv r.map m' body) (follows : Follows inv client r) :
    wp (overDatabase out (ffiCall body))
      (fun status client' => Follows inv client' (if status = .ok then { r with map := m' } else r))
      (fun _ _ => False) client :=
  follows_database follows (bears ⟨client.database, out, clearLastError⟩ follows.database)

theorem Follows.insert (follows : Follows inv client r) (key : Bytes) (operation : Option Bytes) (other : Bytes) :
    (client.batch.entries.insert key operation).lookup other =
      Function.update r.batch key (some operation) other := by
  rw [lookup_insert_cases, Function.update_apply, follows.batch]
  by_cases same : key = other
  · rw [if_pos same, if_pos same.symm]
  · rw [if_neg same, if_neg (Ne.symm same)]

/-- The commit of a batch: the map gets its operations and the batch is empty, or both stay. -/
theorem wp_commitWriteBatch (keeps : E.Keeps C inv honest) (follows : Follows inv client r) :
    wp (writeDatabase (do
        onDatabase (E.transact ((← Prog.state).out.calls C))
        assign .new))
      (fun _ frame => frame.object.Holds inv (fun key => (r.batch key).getD (r.map key)) ∧
        ∀ key, frame.out.entries.lookup key = none)
      (fun e frame => e.Ends ∧ frame.object.Holds inv r.map ∧ frame.out = client.batch)
      (⟨client.database, client.batch, clearLastError⟩ : Frame (LkvDatabase σ) LkvWriteBatch) := by
  cases held : client.database.poisoned with
  | true =>
      rw [wp, writeDatabase, bind_error (lock_poisoned held)]
      exact ⟨⟨.panic, rfl, by decide⟩, follows.database, rfl⟩
  | false =>
      refine wp_lock_sound held (wp_bind (wp_attempt (wp_bind (wp_state (wp_bind (wp_onDatabase
        (wp_mono (keeps.wp_transact (client.batch.calls C) (follows.database held)) ?_ ?_)))))))
      · intro _ s' done
        have committed : override r.map ((client.batch.calls C).map (·.operation E.memory)).reverse =
            fun key => (r.batch key).getD (r.map key) := by
          funext key
          rw [override, LkvWriteBatch.latest_calls, follows.batch]
        rw [committed] at done
        exact wp_modify (wp_pure ⟨fun _ => done, fun _ => rfl⟩)
      · rintro _ s' ⟨⟨error, rfl⟩, kept⟩
        exact ⟨returned_ends ⟨error, rfl⟩, fun _ => kept, rfl⟩

/-- One call, with whatever arguments: it returns, and database and batch follow the reference.
One case per call; the argument checks come first in each, as in the source. -/
theorem perform_follows (keeps : E.Keeps C inv honest) (follows : Follows inv client r) (call : ClientCall)
    (honestly : ∀ database, call = .compact database → honest client.database.inner) :
    wp (perform C E call) (fun status client' => Follows inv client' (call.effect status r))
      (fun _ _ => False) client := by
  unfold ClientCall.effect
  cases call with
  | get database key keyLen valueCapacity valueLen out =>
      refine follows_bears ?_ follows
      exact bears_check (rejects_required _ _) fun _ _ => bears_check (rejects_inputBytes _ _ _) fun key _ =>
        bears_check (rejects_required _ _) fun _ _ => bears_read (obeys_bind
          (reads_shared keeps needs_bind fun _ holds available =>
            ⟨_, keeps.get holds available key⟩) fun _ => obeys_onOut ends_copyValue)
  | getRef database key keyLen value valueLen out =>
      refine follows_bears ?_ follows
      exact bears_check (rejects_required _ _) fun _ _ => bears_check (rejects_inputBytes _ _ _) fun key _ =>
        bears_check (rejects_required _ _) fun _ _ => bears_check (rejects_required _ _) fun _ _ =>
        bears_read (obeys_bind (reads_shared keeps needs_bind fun _ holds available =>
            ⟨_, keeps.get holds available key⟩) fun _ => obeys_onOut ends_borrowValue)
  | put database key keyLen value valueLen =>
      refine follows_bears ?_ follows
      refine bears_check (rejects_required _ _) fun _ _ => bears_check (rejects_inputBytes _ _ _) fun _ key =>
        bears_check (rejects_inputBytes _ _ _) fun _ value => ?_
      rw [inputBytes_ok key, inputBytes_ok value]
      exact bears_update keeps _
  | delete database key keyLen =>
      refine follows_bears ?_ follows
      refine bears_check (rejects_required _ _) fun _ _ => bears_check (rejects_inputBytes _ _ _) fun _ key => ?_
      rw [inputBytes_ok key]
      exact bears_update keeps _
  | len database output out =>
      refine follows_bears ?_ follows
      exact bears_check (rejects_required _ _) fun _ _ => bears_check (rejects_required _ _) fun _ _ =>
        bears_read (obeys_bind (reads_shared keeps needs_bind fun _ holds available =>
          ⟨_, keeps.len holds available⟩) fun _ => obeys_assign _)
  | getStats database output out =>
      refine follows_bears ?_ follows
      exact bears_check (rejects_required _ _) fun _ _ => bears_check (rejects_required _ _) fun _ _ =>
        bears_read (obeys_bind (reads_stats keeps) fun _ => obeys_assign _)
  | sync database =>
      refine follows_bears ?_ follows
      exact bears_check (rejects_required _ _) fun _ _ => bears_read (reads_sync keeps)
  | verify database =>
      refine follows_bears ?_ follows
      exact bears_check (rejects_required _ _) fun _ _ => bears_read (reads_shared keeps needs_bind
        fun _ holds available => ⟨_, keeps.verify holds available⟩)
  | compact database =>
      refine follows_database follows ?_
      refine wp_bind (wp_lift (fun _ _ => ?_) fun _ failed =>
        ⟨(rejects_required _ _).ends failed, follows.database⟩)
      exact wp_writeDatabase follows.database fun sound holds =>
        wp_onDatabase_write sound (keeps.compact holds (honestly database rfl))
  | visit database visitor context =>
      refine follows_bears ?_ follows
      exact bears_check (rejects_required _ _) fun _ _ => bears_check (rejects_visitor _) fun visitor _ =>
        bears_read (reads_visit keeps visitor)
  | snapshotCreate database output out =>
      refine follows_bears ?_ follows
      exact bears_check (rejects_required _ _) fun _ _ => bears_check (rejects_required _ _) fun _ _ =>
        bears_assign (bears_read (obeys_bind (reads_snapshot keeps) fun _ => obeys_assign _))
  | snapshotClose snapshot =>
      cases snapshot with
      | null => exact follows_bears (fun _ holds => holds) follows
      | valid =>
          refine follows_bears ?_ follows
          exact fun frame holds sound => keeps.same _ (holds sound) rfl rfl
  | batchCreate output =>
      refine follows_batch follows ?_
      exact wp_bind (wp_lift (fun _ _ _ => rfl) fun _ failed => ⟨(rejects_required _ _).ends failed, rfl⟩)
  | batchClear batch =>
      refine follows_batch follows ?_
      exact wp_bind (wp_lift (fun _ _ _ => rfl) fun _ failed => ⟨(rejects_required _ _).ends failed, rfl⟩)
  | batchLen batch output out =>
      refine follows_batch follows ?_
      refine wp_bind (wp_lift (fun _ _ => wp_bind (wp_lift (fun _ _ => follows.batch) ?_)) ?_)
      · exact fun _ failed => ⟨(rejects_required _ _).ends failed, rfl⟩
      · exact fun _ failed => ⟨(rejects_required _ _).ends failed, rfl⟩
  | batchPut batch key keyLen value valueLen =>
      refine follows_batch follows ?_
      refine wp_bind (wp_lift (fun _ _ => wp_bind (wp_lift (fun _ key => wp_bind (wp_lift
        (fun _ value => wp_modify ?_) ?_)) ?_)) ?_)
      · rw [inputBytes_ok key, inputBytes_ok value]
        exact follows.insert _ _
      · exact fun _ failed => ⟨(rejects_inputBytes _ _ _).ends failed, rfl⟩
      · exact fun _ failed => ⟨(rejects_inputBytes _ _ _).ends failed, rfl⟩
      · exact fun _ failed => ⟨(rejects_required _ _).ends failed, rfl⟩
  | batchDelete batch key keyLen =>
      refine follows_batch follows ?_
      refine wp_bind (wp_lift (fun _ _ => wp_bind (wp_lift (fun _ key => wp_modify ?_) ?_)) ?_)
      · rw [inputBytes_ok key]
        exact follows.insert _ _
      · exact fun _ failed => ⟨(rejects_inputBytes _ _ _).ends failed, rfl⟩
      · exact fun _ failed => ⟨(rejects_required _ _).ends failed, rfl⟩
  | commitWriteBatch database batch =>
      refine follows_both follows ?_
      refine wp_bind (wp_lift (fun _ _ => wp_bind (wp_lift (fun _ _ => ?_) ?_)) ?_)
      · exact wp_commitWriteBatch keeps follows
      · exact fun _ failed => ⟨(rejects_required _ _).ends failed, follows.database, rfl⟩
      · exact fun _ failed => ⟨(rejects_required _ _).ends failed, follows.database, rfl⟩

end Follows

/-! ## What a client is answered -/

section Answering

variable {σ δ ω : Type} {C : Crates} {E : Engine σ} {inv : σ → (Bytes → Option Bytes) → Prop}
variable {honest : σ → Prop} {database : LkvDatabase σ} {m : Bytes → Option Bytes}

/-- The status with which a body ends. -/
def outcome : Except FfiStop Unit → Option LkvStatus
  | .ok _ => some .ok
  | .error e => e.status

/-- The caller is told the value as `copy_value` tells it. -/
def Copies (value : Option Bytes) (capacity : Nat) (out : Copied) (status : LkvStatus) (out' : Copied) : Prop :=
  ∃ result, outcome result = some status ∧ CopySpec value capacity out result out'

/-- The caller is handed the value as `borrow_value` hands it out. -/
def Borrows (value : Option Bytes) (status : LkvStatus) (out' : Borrowed) : Prop :=
  match value with
  | none => status = .notFound ∧ out' = ⟨none, 0⟩
  | some value => status = .ok ∧ out' = ⟨if value = [] then none else some value, value.length⟩

/-- The reads of a snapshot answer from the map, whatever of its Base is verified by then. -/
structure SnapshotAnswering (C : Crates) (file : File) (snapshot : Snapshot)
    (checks : SegmentVerifier → Prop) (m : Bytes → Option Bytes) : Prop where
  get : ∀ v, checks v → ∀ (key : Bytes) (capacity : Nat) (out : Copied) (said : Bytes), ∃ status frame,
    lkvSnapshotGet C file (some snapshot) (some key) key.length capacity .valid ⟨v, out, said⟩ =
      (.ok status, frame) ∧ checks frame.object ∧ Copies (m key) capacity out status frame.out
  getRef : ∀ v, checks v → ∀ (key : Bytes) (out : Borrowed) (said : Bytes), ∃ status frame,
    lkvSnapshotGetRef C file (some snapshot) (some key) key.length .valid .valid ⟨v, out, said⟩ =
      (.ok status, frame) ∧ checks frame.object ∧ Borrows (m key) status frame.out
  visit : ∀ v, checks v → ∀ {ω : Type} (visitor : Visitor ω) (memory : ω) (said : Bytes), ∃ pairs frame,
    Lists m pairs ∧
    lkvSnapshotVisit C file (some snapshot) (some visitor) ⟨v, memory, said⟩ = (.ok .ok, frame) ∧
    checks frame.object ∧ frame = (visited visitor ⟨memory, clearLastError⟩ pairs).frame frame.object

/-- Every read of the database answers from the map, and so does a snapshot of it. -/
structure Answering (C : Crates) (E : Engine σ) (database : LkvDatabase σ) (m : Bytes → Option Bytes) :
    Prop where
  get : ∀ (key : Bytes) (capacity : Nat) (out : Copied) (said : Bytes), ∃ status frame,
    lkvDatabaseGet C E .valid (some key) key.length capacity .valid ⟨database, out, said⟩ =
      (.ok status, frame) ∧ Copies (m key) capacity out status frame.out
  getRef : ∀ (key : Bytes) (out : Borrowed) (said : Bytes), ∃ status frame,
    lkvDatabaseGetRef C E .valid (some key) key.length .valid .valid ⟨database, out, said⟩ =
      (.ok status, frame) ∧ Borrows (m key) status frame.out
  len : ∀ (out : Nat) (said : Bytes), ∃ frame,
    lkvDatabaseLen C E .valid .valid ⟨database, out, said⟩ = (.ok .ok, frame) ∧
      frame.out = {key | m key ≠ none}.ncard
  visit : ∀ {ω : Type} (visitor : Visitor ω) (memory : ω) (said : Bytes), ∃ pairs frame, Lists m pairs ∧
    lkvDatabaseVisit C E .valid (some visitor) ⟨database, memory, said⟩ = (.ok .ok, frame) ∧
      frame = (visited visitor ⟨memory, clearLastError⟩ pairs).frame frame.object
  snapshot : ∀ (out : Option Snapshot) (said : Bytes), ∃ snapshot frame checks,
    lkvSnapshotCreate E .valid .valid ⟨database, out, said⟩ = (.ok .ok, frame) ∧
      frame.out = some snapshot ∧ checks snapshot.baseVerifier ∧
      SnapshotAnswering C (E.handle database.inner).disk.file snapshot checks m

theorem wp_given {frame : Frame δ ω} {key : Bytes} {name : String} {rest : Bytes → Body δ ω Unit}
    {Q : Unit → Frame δ ω → Prop} {F : FfiStop → Frame δ ω → Prop} (runs : wp (rest key) Q F frame) :
    wp (Prog.lift (inputBytes (some key) key.length name) >>= rest) Q F frame := by
  have given : inputBytes (some key) key.length name = .ok key := by
    unfold inputBytes
    split
    · rename_i empty
      rw [List.length_eq_zero_iff.mp empty]
    · exact congrArg Except.ok List.take_length
  rw [given]
  exact wp_bind (wp_lift_ok runs)

/-- A call whose body does not stop without a status returns. -/
theorem ffiCall_returns {body : Body δ ω Unit} {frame : Frame δ ω} {Q : LkvStatus → δ → ω → Prop}
    (runs : wp body (fun _ frame' => Q .ok frame'.object frame'.out)
      (fun e frame' => ∃ status, e.status = some status ∧ Q status frame'.object frame'.out)
      { frame with lastError := clearLastError }) :
    ∃ status frame', ffiCall body frame = (.ok status, frame') ∧ Q status frame'.object frame'.out := by
  refine wp_returns (wp_ffiCall (D := fun _ _ => False) (wp_mono runs (fun _ _ => id) ?_)) fun _ _ => id
  rintro e frame' ⟨status, is, post⟩
  rw [is]
  exact post

theorem wp_copied (value : Option Bytes) (capacity : Nat) (frame : Frame δ Copied) :
    wp (onOut (copyValue value capacity))
      (fun _ frame' => frame'.object = frame.object ∧ Copies value capacity frame.out .ok frame'.out)
      (fun e frame' => ∃ status, e.status = some status ∧ frame'.object = frame.object ∧
        Copies value capacity frame.out status frame'.out) frame := by
  refine wp_zoom ?_
  have spec := copyValue_spec value capacity frame.out
  unfold wp
  cases copied : copyValue value capacity frame.out with
  | mk result out' =>
      rw [copied] at spec
      cases result with
      | ok _ => exact ⟨rfl, _, rfl, spec⟩
      | error e =>
          obtain ⟨status, is⟩ : ∃ status, e.status = some status := by
            cases spec <;> exact ⟨_, rfl⟩
          exact ⟨status, is, rfl, .error e, is, spec⟩

theorem wp_borrowed (value : Option Bytes) (frame : Frame δ Borrowed) :
    wp (onOut (borrowValue value))
      (fun _ frame' => frame'.object = frame.object ∧ Borrows value .ok frame'.out)
      (fun e frame' => ∃ status, e.status = some status ∧ frame'.object = frame.object ∧
        Borrows value status frame'.out) frame := by
  refine wp_zoom ?_
  unfold wp
  cases value with
  | none =>
      rw [borrowValue_none]
      exact ⟨_, rfl, rfl, rfl, rfl⟩
  | some found =>
      rw [borrowValue_some]
      exact ⟨rfl, rfl, rfl⟩

/-- A snapshot of a database that answers. -/
theorem snapshotAnswering {c : Contents C} {file : File} {snapshot : Snapshot}
    (displays : c.Displays snapshot.readView file) (len : snapshot.baseLen = c.entries.length) :
    SnapshotAnswering C file snapshot c.Checks c.map where
  get v checks key capacity out said := by
    obtain ⟨v', ran, checks'⟩ := displays.get checks key
    refine ffiCall_returns (Q := fun status object out' =>
      c.Checks object ∧ Copies (c.map key) capacity out status out') ?_
    refine wp_bind (wp_lift_ok (wp_given (wp_bind (wp_lift_ok (wp_bind ?_)))))
    rw [wp, onObject_run ran]
    refine wp_mono (wp_copied (c.map key) capacity _) ?_ ?_
    · rintro _ frame ⟨same, copies⟩
      exact ⟨same ▸ checks', copies⟩
    · rintro e frame ⟨status, is, same, copies⟩
      exact ⟨status, is, same ▸ checks', copies⟩
  getRef v checks key out said := by
    obtain ⟨v', ran, checks'⟩ := displays.get checks key
    refine ffiCall_returns (Q := fun status object out' =>
      c.Checks object ∧ Borrows (c.map key) status out') ?_
    refine wp_bind (wp_lift_ok (wp_given (wp_bind (wp_lift_ok (wp_bind (wp_lift_ok (wp_bind ?_)))))))
    rw [wp, onObject_run ran]
    refine wp_mono (wp_borrowed (c.map key) _) ?_ ?_
    · rintro _ frame ⟨same, borrows⟩
      exact ⟨same ▸ checks', borrows⟩
    · rintro e frame ⟨status, is, same, borrows⟩
      exact ⟨status, is, same ▸ checks', borrows⟩
  visit v checks {ω} visitor memory said := by
    obtain ⟨ops, shown, -, -, iterates, lists⟩ := displays.iterates v.semanticallyVerified
    have steps : ∀ it v (context : Context ω) found v',
        Entries.next file snapshot.readView it v = (.ok found, v') →
        onObject (Entries.next file snapshot.readView it) (context.frame v) =
          (.ok found, context.frame v') :=
      fun it v context found v' next => onObject_run next
    have fresh : snapshot.entries C v =
        RawEntries.new C snapshot.readView v.semanticallyVerified c.entries.length := by
      rw [Snapshot.entries, len]
    have visits : wp (visitEntries visitor
          (fun entries => onObject (Entries.next file snapshot.readView entries))
          (snapshot.entries C v).bound (snapshot.entries C v))
        (fun _ frame => ∃ v', c.Checks v' ∧ frame = (visited visitor ⟨memory, clearLastError⟩
          (pairsOf (placed (baseHeader + c.slots * slotSize) c.entries) ops shown)).frame v')
        (fun _ _ => False) ((⟨memory, clearLastError⟩ : Context ω).frame v) := by
      rw [fresh, ← items_pairs]
      exact wp_visitEntries displays steps checks iterates rfl iterates.length_le _
    obtain ⟨⟨⟩, frame, ran, v', checks', rfl⟩ := wp_returns visits fun _ _ => id
    exact ⟨_, _, lists, ffiCall_run ran, checks', rfl⟩

theorem answering (keeps : E.Keeps C inv honest) (sound : database.poisoned = false)
    (holds : inv database.inner m) (available : (E.handle database.inner).db.state ≠ .unavailable) :
    Answering C E database m where
  get key capacity out said := by
    obtain ⟨s', ran, -⟩ := keeps.get holds available key
    refine ffiCall_returns (Q := fun status _ out' => Copies (m key) capacity out status out') ?_
    refine wp_bind (wp_lift_ok (wp_given (wp_bind (wp_lift_ok (wp_lock_sound sound (wp_bind ?_))))))
    rw [wp, onDatabase_run ran]
    refine wp_mono (wp_copied (m key) capacity _) (fun _ _ copied => copied.2) ?_
    rintro e frame ⟨status, is, -, copies⟩
    exact ⟨status, is, copies⟩
  getRef key out said := by
    obtain ⟨s', ran, -⟩ := keeps.get holds available key
    refine ffiCall_returns (Q := fun status _ out' => Borrows (m key) status out') ?_
    refine wp_bind (wp_lift_ok (wp_given (wp_bind (wp_lift_ok (wp_bind (wp_lift_ok
      (wp_lock_sound sound (wp_bind ?_))))))))
    rw [wp, onDatabase_run ran]
    refine wp_mono (wp_borrowed (m key) _) (fun _ _ borrowed => borrowed.2) ?_
    rintro e frame ⟨status, is, -, borrows⟩
    exact ⟨status, is, borrows⟩
  len out said := by
    obtain ⟨s', ran, -⟩ := keeps.len holds available
    have counts : wp (do
          Prog.lift (requiredRef .valid "database")
          Prog.lift (requiredMut .valid "output")
          readDatabase
          assign (← onDatabase (E.shared (Database.len C))))
        (fun _ frame => frame.out = {key | m key ≠ none}.ncard) (fun _ _ => False)
        (⟨database, out, clearLastError⟩ : Frame (LkvDatabase σ) Nat) := by
      refine wp_bind (wp_lift_ok (wp_bind (wp_lift_ok (wp_lock_sound sound (wp_bind ?_)))))
      rw [wp, onDatabase_run ran]
      exact wp_modify rfl
    obtain ⟨⟨⟩, frame, done, counted⟩ := wp_returns counts fun _ _ => id
    exact ⟨frame, ffiCall_run done, counted⟩
  visit visitor memory said := by
    obtain ⟨s, _⟩ := database
    cases sound
    have visits := wp_visiting keeps holds available visitor ⟨memory, clearLastError⟩
    obtain ⟨⟨⟩, frame, ran, s', pairs, -, lists, rfl⟩ := wp_returns visits fun _ _ => id
    exact ⟨pairs, _, lists, ffiCall_run ran, rfl⟩
  snapshot out said := by
    obtain ⟨c, rfl, answers, -⟩ := keeps.answers holds available
    have taken : ∃ snapshot h, Database.snapshot (E.handle database.inner) = (.ok snapshot, h) ∧
        snapshot.readView = (E.handle database.inner).db.readView ∧
        snapshot.baseVerifier = (E.handle database.inner).db.base.verifier ∧
        snapshot.baseLen = (E.handle database.inner).db.base.len := by
      unfold Database.snapshot
      rw [bind_ok (Contents.ensureAvailable_run available)]
      exact ⟨_, _, rfl, rfl, rfl, rfl⟩
    obtain ⟨snapshot, h, ran, view, verifier, len⟩ := taken
    have creates : wp (do
          Prog.lift (requiredRef .valid "database")
          Prog.lift (requiredMut .valid "output")
          assign none
          readDatabase
          assign (some (← onDatabase (E.shared Database.snapshot))))
        (fun _ frame => frame.out = some snapshot) (fun _ _ => False)
        (⟨database, out, clearLastError⟩ : Frame (LkvDatabase σ) (Option Snapshot)) := by
      refine wp_bind (wp_lift_ok (wp_bind (wp_lift_ok (wp_bind (wp_modify
        (wp_lock_sound sound (wp_bind ?_)))))))
      rw [wp, onDatabase_run (shared_run ran)]
      exact wp_modify rfl
    obtain ⟨⟨⟩, frame, done, out'⟩ := wp_returns creates fun _ _ => id
    refine ⟨snapshot, frame, c.Checks, ffiCall_run done, out', verifier ▸ answers.checks, ?_⟩
    exact snapshotAnswering (view ▸ answers.displays) (len.trans answers.len)

end Answering

/-! ## Opening -/

section Opening

variable {C : Crates} {δ ω σ : Type}

/-- A call that returned `LKV_OK` did so by returning. -/
theorem ffiCall_ok {body : Body δ ω Unit} {frame frame' : Frame δ ω} {P : δ → ω → Prop}
    (told : Raises FfiStop.Told body)
    (runs : wp body (fun _ frame' => P frame'.object frame'.out) (fun _ _ => True)
      { frame with lastError := clearLastError })
    (ran : ffiCall body frame = (.ok .ok, frame')) : P frame'.object frame'.out := by
  have spec : wp (ffiCall body) (fun status frame' => status = .ok → P frame'.object frame'.out)
      (fun _ _ => True) frame := by
    refine wp_ffiCall (Q := fun status object out => status = .ok → P object out) (D := fun _ _ => True)
      (wp_mono (wp_raises told runs) (fun _ _ done _ => done) ?_)
    rintro e frame' ⟨told, -⟩
    cases e with
    | error failure => exact fun ok => absurd ok told.1
    | panic message => rintro ⟨⟩
    | diverge => trivial
  exact wp_ok spec ran rfl

/-- What the caller is handed is what the library made. -/
theorem wp_handOut (options : Option LkvOptions) (make : DatabaseOptions → Prog δ Stop σ)
    (frame : Frame δ (Option (LkvDatabase σ))) :
    wp (handOut options make) (fun _ frame' => ∃ decoded s, decodeOptions options = .ok decoded ∧
      make decoded frame.object = (.ok s, frame'.object) ∧ frame'.out = some ⟨s, false⟩)
      (fun _ _ => True) frame := by
  refine wp_bind (wp_lift (fun decoded is => wp_bind ?_) fun _ _ => trivial)
  unfold onObject
  refine wp_zoom (wp_recast ?_)
  unfold wp
  split
  · rename_i s object made
    exact ⟨decoded, s, is, made, rfl⟩
  · trivial

theorem told_handOut (options : Option LkvOptions) (make : DatabaseOptions → Prog δ Stop σ) :
    Raises FfiStop.Told (handOut options make) := by
  refine raises_bind (rejects_options _).told fun _ => raises_bind ?_ fun _ => raises_modify _
  unfold onObject
  exact raises_zoom (raises_recast FfiStop.told_ofStop)

theorem told_clearOutput (output : Pointer) :
    Raises FfiStop.Told (clearOutput output : Body δ (Option (LkvDatabase σ)) Unit) :=
  raises_bind (rejects_required _ _).told fun _ => raises_modify _

theorem wp_clearOutput {rest : Unit → Body δ (Option (LkvDatabase σ)) Unit}
    {frame : Frame δ (Option (LkvDatabase σ))} {Q : Unit → Frame δ (Option (LkvDatabase σ)) → Prop}
    (runs : wp (rest ()) Q (fun _ _ => True) { frame with out := none }) :
    wp (clearOutput .valid >>= rest) Q (fun _ _ => True) frame :=
  wp_bind (wp_bind (wp_lift (fun _ _ => wp_modify runs) fun _ _ => trivial))

/-- A successful open of a file. -/
theorem opened_ok {path : Option Bytes} {options : Option LkvOptions}
    {make : DatabaseOptions → Prog δ Stop σ} {frame frame' : Frame δ (Option (LkvDatabase σ))}
    (ran : ffiCall (do
      clearOutput .valid
      Prog.lift (requiredPath path)
      handOut options make) frame = (.ok .ok, frame')) :
    ∃ decoded s, decodeOptions options = .ok decoded ∧
      make decoded frame.object = (.ok s, frame'.object) ∧ frame'.out = some ⟨s, false⟩ := by
  refine ffiCall_ok (P := fun object out => ∃ decoded s, decodeOptions options = .ok decoded ∧
    make decoded frame.object = (.ok s, object) ∧ out = some ⟨s, false⟩) ?_ ?_ ran
  · exact raises_bind (told_clearOutput _) fun _ =>
      raises_bind (rejects_path _).told fun _ => told_handOut _ _
  · exact wp_clearOutput (wp_bind (wp_lift (fun _ _ => wp_handOut options make _) fun _ _ => trivial))

/-- A successful open in memory. -/
theorem openedMemory_ok {C : Crates} {options : Option LkvOptions}
    {frame frame' : Frame Ram (Option (LkvDatabase MemoryDatabase))}
    (ran : lkvDatabaseOpenMemory C options .valid frame = (.ok .ok, frame')) :
    ∃ decoded db, memoryWithOptions C decoded frame.object = (.ok db, frame'.object) ∧
      frame'.out = some ⟨⟨db, frame'.object⟩, false⟩ := by
  refine ffiCall_ok (P := fun object out => ∃ decoded db,
    memoryWithOptions C decoded frame.object = (.ok db, object) ∧
    out = some (⟨⟨db, object⟩, false⟩ : LkvDatabase MemoryDatabase)) ?_ ?_ ran
  · exact raises_bind (told_clearOutput _) fun _ => told_handOut _ _
  · refine wp_clearOutput (wp_mono (wp_handOut options _ _) ?_ fun _ _ => id)
    rintro _ frame' ⟨decoded, s, -, made, out⟩
    rw [bind_run] at made
    split at made
    · rename_i db between opened
      cases made
      exact ⟨decoded, db, opened, out⟩
    · cases made

theorem lkvDatabaseCreate_ok {C : Crates} {path : Option Bytes} {options : Option LkvOptions}
    {decoded : DatabaseOptions} {d d' : Disk} {db : Database} {said : Bytes}
    (given : requiredPath path = .ok ()) (is : decodeOptions options = .ok decoded)
    (made : createWithOptions C decoded d = (.ok db, d')) :
    lkvDatabaseCreate C path options .valid ⟨d, none, said⟩ =
      (.ok .ok, ⟨d', some ⟨⟨db, d'⟩, false⟩, clearLastError⟩) := by
  have created : asHandle (createWithOptions C decoded) d = (.ok ⟨db, d'⟩, d') := by
    unfold asHandle
    rw [bind_ok made]
    rfl
  let frame (d : Disk) : Frame Disk (Option (LkvDatabase Handle)) := ⟨d, none, clearLastError⟩
  refine ffiCall_run ?_
  have handed : handOut options (fun options => asHandle (createWithOptions C options)) (frame d) =
      (.ok (), ⟨d', some ⟨⟨db, d'⟩, false⟩, clearLastError⟩) := by
    unfold handOut
    rw [is, bind_ok (rfl : Prog.lift (.ok decoded) (frame d) = (.ok decoded, frame d)),
      bind_ok (onObject_run created)]
    rfl
  rw [given]
  exact handed

/-- A database on the disk comes with that disk. -/
theorem asHandle_ok {act : Io Database} {d d' : Disk} {h : Handle} (ran : asHandle act d = (.ok h, d')) :
    act d = (.ok h.db, d') ∧ h.disk = d' := by
  unfold asHandle at ran
  rw [bind_run] at ran
  split at ran
  · rename_i db between opened
    cases ran
    exact ⟨opened, rfl⟩
  · cases ran

end Opening

/-! ## Runs -/

section Runs

/-- What a database of either storage holds. -/
def Backend.Holds (C : Crates) : (backend : Backend) → backend.Database → (Bytes → Option Bytes) → Prop
  | .file => fileHolds C
  | .memory => memoryHolds C

/-- No page that a failed compaction of the file has torn passes for a whole one. -/
def Backend.Honest (C : Crates) : (backend : Backend) → backend.Database → Prop
  | .file => fun h => HonestPages h.disk.file (compactTrace C h)
  | .memory => fun _ => True

theorem engine_keeps (C : Crates) (backend : Backend) :
    (engine C backend).Keeps C (Backend.Holds C backend) (Backend.Honest C backend) := by
  cases backend with
  | file => exact fileEngine_keeps C
  | memory => exact memoryEngine_keeps C

/-- The client before its next call, in which these calls of the system will fail. -/
def Client.afresh {σ : Type} (E : Engine σ) (faults : List Fault) (client : Client σ) : Client σ :=
  { client with database := { client.database with
    inner := E.setFaults faults client.database.inner } }

/-- A client opens a database of its own, or the file that an earlier run has left, and makes
calls. -/
inductive ClientRun (C : Crates) : (backend : Backend) → Client backend.Database → Reference → Prop
  | create {path : Option Bytes} {options : Option LkvOptions} {said said' : Bytes} {disk : Disk}
      {database : LkvDatabase Handle}
      (ran : lkvDatabaseCreate C path options .valid ⟨Disk.ofFile File.empty [], none, said⟩ =
        (.ok .ok, ⟨disk, some database, said'⟩)) :
      ClientRun C .file ⟨database, .new, said'⟩ ⟨fun _ => none, fun _ => none⟩
  | reopen {limit : UInt64} {f : File} {maps : List (Bytes → Option Bytes)} {path : Option Bytes}
      {options : Option LkvOptions} {decoded : DatabaseOptions} {said said' : Bytes} {disk : Disk}
      {database : LkvDatabase Handle} {m : Bytes → Option Bytes}
      (before : Reach C limit (.closed f maps)) (is : decodeOptions options = .ok decoded)
      (same : decoded.maxDatabaseBytes = limit)
      (ran : lkvDatabaseOpen C path options .valid ⟨Disk.ofFile f [], none, said⟩ =
        (.ok .ok, ⟨disk, some database, said'⟩))
      (shows : ∀ key, (Database.get C key database.inner).1 = .ok (m key)) :
      ClientRun C .file ⟨database, .new, said'⟩ ⟨m, fun _ => none⟩
  | openMemory {options : Option LkvOptions} {faults : List Fault} {said said' : Bytes} {ram : Ram}
      {database : LkvDatabase MemoryDatabase}
      (ran : lkvDatabaseOpenMemory C options .valid ⟨⟨⟨.new, faults⟩, []⟩, none, said⟩ =
        (.ok .ok, ⟨ram, some database, said'⟩)) :
      ClientRun C .memory ⟨database, .new, said'⟩ ⟨fun _ => none, fun _ => none⟩
  | call {backend : Backend} {client client' : Client backend.Database} {r : Reference}
      {status : LkvStatus} (before : ClientRun C backend client r) (call : ClientCall)
      (faults : List Fault)
      (honestly : ∀ database, call = .compact database →
        Backend.Honest C backend (client.afresh (engine C backend) faults).database.inner)
      (ran : perform C (engine C backend) call (client.afresh (engine C backend) faults) =
        (.ok status, client')) :
      ClientRun C backend client' (call.effect status r)

variable {C : Crates} {backend : Backend} {client : Client backend.Database} {r : Reference}

theorem Follows.afresh (follows : Follows (Backend.Holds C backend) client r) (faults : List Fault) :
    Follows (Backend.Holds C backend) (client.afresh (engine C backend) faults) r :=
  ⟨fun sound => (engine_keeps C backend).faulty faults (follows.database sound), follows.batch⟩

theorem ClientRun.follows (run : ClientRun C backend client r) : Follows (Backend.Holds C backend) client r := by
  induction run with
  | @create path options said said' disk database ran =>
      obtain ⟨decoded, h, -, made, ⟨⟩⟩ := opened_ok ran
      obtain ⟨created, rfl⟩ := asHandle_ok made
      have reach : Reach C decoded.maxDatabaseBytes (.opened h _ _) := .create rfl created
      exact ⟨fun _ => ⟨_, reach.holds.1⟩, fun _ => rfl⟩
  | @reopen limit f maps path options decoded said said' disk database m before is same ran shows =>
      obtain ⟨decoded', h, is', made, ⟨⟩⟩ := opened_ok ran
      cases is.symm.trans is'
      subst same
      obtain ⟨opened, rfl⟩ := asHandle_ok made
      have stored : Stored C decoded.maxDatabaseBytes.toNat maps f := before.holds
      obtain ⟨c, db, d, -, again, healthy, -⟩ := stored.open before.enough
      cases opened.symm.trans again
      have map : c.map = m := by
        funext key
        exact Except.ok.inj ((healthy.shows.get key).symm.trans (shows key))
      exact ⟨fun _ => ⟨_, .healthy c map rfl healthy⟩, fun _ => rfl⟩
  | @openMemory options faults said said' ram database ran =>
      obtain ⟨decoded, db, made, out⟩ := openedMemory_ok ran
      obtain rfl : database = ⟨⟨db, ram⟩, false⟩ := Option.some.inj out
      obtain ⟨resides, -⟩ := wp_ok (wp_memoryWithOptions C decoded faults) made
      exact ⟨fun _ => ⟨_, resides, emptyContents_map C⟩, fun _ => rfl⟩
  | call before call faults honestly ran ih =>
      have follows := wp_ok (perform_follows (engine_keeps C _) (ih.afresh faults) call honestly) ran
      exact follows

/-- After any run of calls, with any arguments and any failures, on either storage: every call
returns, and as long as the lock is not poisoned and the database is available, every read is
answered from the map that the successful calls come to. -/
theorem client_refines_map (run : ClientRun C backend client r) :
    (∀ (call : ClientCall) (faults : List Fault), (∀ database, call = .compact database →
        Backend.Honest C backend (client.afresh (engine C backend) faults).database.inner) →
      ∃ status client', perform C (engine C backend) call (client.afresh (engine C backend) faults) =
        (.ok status, client')) ∧
    (client.database.poisoned = false →
      ((engine C backend).handle client.database.inner).db.state ≠ .unavailable →
      Answering C (engine C backend) client.database r.map) := by
  have keeps := engine_keeps C backend
  have follows := run.follows
  constructor
  · intro call faults honestly
    obtain ⟨status, client', ran, -⟩ :=
      wp_returns (perform_follows keeps (follows.afresh faults) call honestly) fun _ _ => id
    exact ⟨status, client', ran⟩
  · exact fun sound available => answering keeps sound (follows.database sound) available

/-- A file is created with the options of `lkv_options_init` and a value is put.  It is copied into
a buffer that is long enough; a caller without one is told its length. -/
theorem client_refines_map_put : ∃ (client : Client Backend.file.Database)
    (frame frame' : Frame (LkvDatabase Backend.file.Database) Copied),
    ClientRun zeroHash .file client ((ClientCall.put .valid (some [1]) 1 (some [2]) 1).effect .ok
      ⟨fun _ => none, fun _ => none⟩) ∧
    (lkvDatabaseGet zeroHash (engine zeroHash .file) .valid (some [1]) 1 4 .valid
        ⟨client.database, ⟨some [7, 7, 7, 7], 9⟩, clearLastError⟩ = (.ok .ok, frame) ∧
      frame.out = ⟨some [2, 7, 7, 7], 1⟩) ∧
    lkvDatabaseGet zeroHash (engine zeroHash .file) .valid (some [1]) 1 0 .valid
        ⟨client.database, ⟨none, 9⟩, clearLastError⟩ = (.ok .bufferTooSmall, frame') ∧
      frame'.out = ⟨none, 1⟩ := by
  have initialised : lkvOptionsInit .valid ⟨(), ⟨7, 7, 7⟩, clearLastError⟩ = (.ok .ok, _) := rfl
  have path : requiredPath (some [97, 0]) = .ok () := by decide
  obtain ⟨db, d, made, healthy, options, -, quiet, -⟩ := @create_ok .default zeroHash (by decide)
  have created : lkvDatabaseCreate zeroHash _ _ .valid ⟨_, none, clearLastError⟩ = _ :=
    lkvDatabaseCreate_ok path (decodeOptions_init initialised) made
  have new : ClientRun zeroHash .file ⟨⟨⟨db, d⟩, false⟩, .new, clearLastError⟩ _ := .create created
  have again : (emptyContents zeroHash).Healthy ⟨db, { d with faults := [] }⟩ := healthy.disk rfl
  obtain ⟨h, committed, -, available⟩ := transact_put again (List.forall_mem_nil _) options
  have run := ClientRun.call new _ [] (by rintro _ ⟨⟩) (perform_put committed)
  have answers := (client_refines_map run).2 rfl available
  obtain ⟨status, ⟨object, out, said⟩, got, result, told, copied⟩ :=
    answers.get [1] 4 ⟨some [7, 7, 7, 7], 9⟩ clearLastError
  obtain ⟨status', ⟨object', out', said'⟩, got', result', told', copied'⟩ :=
    answers.get [1] 0 ⟨none, 9⟩ clearLastError
  cases copied with
  | null message missing => cases missing
  | notFound absent => cases absent
  | tooSmall found is small =>
      cases is
      exact absurd small (by decide)
  | nothing is => cases is
  | copied found buffer is given fits =>
      cases is
      cases given
      cases told
      refine ⟨_, _, ⟨object', out', said'⟩, run, ⟨got, rfl⟩, ?_⟩
      cases copied' with
      | null message missing claimed => exact absurd rfl claimed
      | notFound absent => cases absent
      | tooSmall found is small =>
          cases is
          cases told'
          exact ⟨got', rfl⟩
      | nothing is => cases is
      | copied found buffer is given => cases given

end Runs

end Lkv.Ffi
