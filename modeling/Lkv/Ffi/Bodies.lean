/-
# Lkv.Ffi.Bodies — what the body of a call does to the map

Between the engine and the calls: from a database that holds a map, the body of a call ends, and
the database holds the map that the call is for, or the one it held before (`Obeys`).  A call as
a whole may find the lock poisoned (`Bears`); then nothing is left to be seen of the database, so
it need not hold anything.

The bodies that read obey whatever they find (`reads_shared` and after), those that write go
through `bears_update`.
-/
import Lkv.Ffi.Clients

namespace Lkv.Ffi
open Lkv.Theory Lkv.Theory.Prog Dictionary

set_option autoImplicit false

/-! ## What the body of a call does -/

section Obeys

variable {σ ω α β : Type} {C : Crates} {E : Engine σ} {inv : σ → (Bytes → Option Bytes) → Prop}
variable {honest : σ → Prop} {s : σ} {m m' : Bytes → Option Bytes}

/-- The database holds the map, unless its lock is poisoned. -/
def LkvDatabase.Holds (inv : σ → (Bytes → Option Bytes) → Prop) (database : LkvDatabase σ)
    (m : Bytes → Option Bytes) : Prop :=
  database.poisoned = false → inv database.inner m

/-- The call ends, and not with success. -/
def FfiStop.Ends (e : FfiStop) : Prop := ∃ status, e.status = some status ∧ status ≠ .ok

theorem FfiStop.ends_ofStop {e : Stop} (ended : e ≠ .diverge) : (ofStop e).Ends := by
  cases e with
  | err error =>
      refine ⟨_, rfl, ?_⟩
      cases error <;> simp [FfiError.ofError, FfiError.new]
  | panic message => exact ⟨.panic, rfl, by decide⟩
  | diverge => exact absurd rfl ended

theorem returned_ends {e : Stop} (returned : e.Returned) : (FfiStop.ofStop e).Ends := by
  refine FfiStop.ends_ofStop ?_
  obtain ⟨error, rfl⟩ := returned
  rintro ⟨⟩

/-- From a database that holds `m` the body ends: with `m'` if it returns, otherwise with `m`. -/
def Obeys (inv : σ → (Bytes → Option Bytes) → Prop) (m m' : Bytes → Option Bytes)
    (body : Body (LkvDatabase σ) ω α) : Prop :=
  ∀ frame, frame.object.poisoned = false → inv frame.object.inner m →
    wp body (fun _ frame' => frame'.object.poisoned = false ∧ inv frame'.object.inner m')
      (fun e frame' => e.Ends ∧ frame'.object.Holds inv m) frame

theorem obeys_bind {act : Body (LkvDatabase σ) ω α}
    {rest : α → Body (LkvDatabase σ) ω β} (first : Obeys inv m m act)
    (next : ∀ a, Obeys inv m m' (rest a)) : Obeys inv m m' (act >>= rest) := fun frame sound holds =>
  wp_bind (wp_mono (first frame sound holds) (fun a frame' kept => next a frame' kept.1 kept.2)
    fun _ _ => id)

theorem obeys_assign (value : ω) :
    Obeys inv m m (assign value : Body (LkvDatabase σ) ω Unit) :=
  fun _ sound holds => ⟨sound, holds⟩

theorem obeys_onOut {act : Prog ω FfiStop α} (ends : Raises FfiStop.Ends act) :
    Obeys inv m m (onOut act : Body (LkvDatabase σ) ω α) := fun frame sound holds =>
  wp_zoom (wp_mono (ends frame.out) (fun _ _ _ => ⟨sound, holds⟩) fun _ _ ended =>
    ⟨ended, fun _ => holds⟩)

theorem obeys_onDatabase {act : Prog σ Stop α} (runs : ∀ s, inv s m →
      wp act (fun _ s' => inv s' m) (fun e s' => e.Returned ∧ inv s' m) s) :
    Obeys inv m m (onDatabase act : Body (LkvDatabase σ) ω α) := fun frame sound holds =>
  wp_onDatabase (wp_mono (runs frame.object.inner holds) (fun _ _ kept => ⟨sound, kept⟩)
    fun _ _ failed => ⟨returned_ends failed.1, fun _ => failed.2⟩)

/-- The library under the lock for writing. -/
theorem wp_onDatabase_write {act : Prog σ Stop Unit} {frame : Frame (LkvDatabase σ) ω}
    (sound : frame.object.poisoned = false)
    (runs : wp act (fun _ s' => inv s' m')
      (fun e s' => e ≠ .diverge ∧ (e.Returned → inv s' m)) frame.object.inner) :
    wp (onDatabase act) (fun _ frame' => frame'.object.poisoned = false ∧ inv frame'.object.inner m')
      (fun e frame' => e.Ends ∧ (e.panic? = none → inv frame'.object.inner m)) frame := by
  refine wp_onDatabase (wp_mono runs (fun _ _ done => ⟨sound, done⟩) ?_)
  rintro e s' ⟨ended, kept⟩
  refine ⟨FfiStop.ends_ofStop ended, fun quiet => ?_⟩
  cases e with
  | err error => exact kept ⟨error, rfl⟩
  | panic message => cases quiet
  | diverge => exact absurd rfl ended

theorem ends_copyValue {value : Option Bytes} {capacity : Nat} :
    Raises FfiStop.Ends (copyValue value capacity) := by
  intro out
  have spec := copyValue_spec value capacity out
  unfold wp
  cases ran : copyValue value capacity out with
  | mk result out' =>
      rw [ran] at spec
      cases spec with
      | null => exact ⟨.invalidArgument, rfl, by decide⟩
      | notFound => exact ⟨.notFound, rfl, by decide⟩
      | tooSmall => exact ⟨.bufferTooSmall, rfl, by decide⟩
      | nothing | copied => trivial

theorem ends_borrowValue {value : Option Bytes} :
    Raises FfiStop.Ends (borrowValue value) := by
  intro out
  unfold wp
  cases value with
  | none =>
      rw [borrowValue_none]
      exact ⟨_, rfl, by decide⟩
  | some found =>
      rw [borrowValue_some]
      trivial

end Obeys

/-! ## Behind the lock -/

section Bears

variable {σ ω α : Type} {C : Crates} {E : Engine σ} {inv : σ → (Bytes → Option Bytes) → Prop}
variable {honest : σ → Prop} {s : σ} {m m' : Bytes → Option Bytes}

/-- The same of a whole call, which may find the lock poisoned. -/
def Bears (inv : σ → (Bytes → Option Bytes) → Prop) (m m' : Bytes → Option Bytes)
    (body : Body (LkvDatabase σ) ω Unit) : Prop :=
  ∀ frame, frame.object.Holds inv m → wp body (fun _ frame' => frame'.object.Holds inv m')
    (fun e frame' => e.Ends ∧ frame'.object.Holds inv m) frame

theorem Rejects.ends {r : FfiResult α} {e : FfiStop} (rejects : Rejects r) (failed : r = .error e) :
    e.Ends := by
  obtain ⟨message, rfl⟩ := rejects e failed
  exact ⟨.invalidArgument, rfl, by decide⟩

theorem bears_check {r : FfiResult α} {rest : α → Body (LkvDatabase σ) ω Unit}
    (rejects : Rejects r) (next : ∀ a, r = .ok a → Bears inv m m' (rest a)) :
    Bears inv m m' (Prog.lift r >>= rest) := fun frame holds =>
  wp_bind (wp_lift (fun a passed => next a passed frame holds) fun _ failed =>
    ⟨rejects.ends failed, holds⟩)

theorem bears_assign {value : ω} {rest : Unit → Body (LkvDatabase σ) ω Unit}
    (next : Bears inv m m' (rest ())) : Bears inv m m' (assign value >>= rest) := fun frame holds =>
  wp_bind (wp_modify (next { frame with out := value } holds))

section Frame

variable {frame : Frame (LkvDatabase σ) ω}

theorem wp_lock_holds {rest : Unit → Body (LkvDatabase σ) ω Unit}
    (holds : frame.object.Holds inv m)
    (next : frame.object.poisoned = false → inv frame.object.inner m →
      wp (rest ()) (fun _ frame' => frame'.object.Holds inv m')
        (fun e frame' => e.Ends ∧ frame'.object.Holds inv m) frame) :
    wp (lock >>= rest) (fun _ frame' => frame'.object.Holds inv m')
      (fun e frame' => e.Ends ∧ frame'.object.Holds inv m) frame := by
  cases held : frame.object.poisoned with
  | true =>
      rw [wp, bind_error (lock_poisoned held)]
      exact ⟨⟨.panic, rfl, by decide⟩, holds⟩
  | false => exact wp_lock_sound held (next held (holds held))

/-- A panic poisons the lock, and with it goes what the database holds. -/
theorem wp_writeDatabase {body : Body (LkvDatabase σ) ω Unit}
    (holds : frame.object.Holds inv m)
    (runs : frame.object.poisoned = false → inv frame.object.inner m →
      wp body (fun _ frame' => frame'.object.poisoned = false ∧ inv frame'.object.inner m')
        (fun e frame' => e.Ends ∧ (e.panic? = none → inv frame'.object.inner m)) frame) :
    wp (writeDatabase body) (fun _ frame' => frame'.object.Holds inv m')
      (fun e frame' => e.Ends ∧ frame'.object.Holds inv m) frame := by
  refine wp_lock_holds holds fun sound holds => wp_bind (wp_attempt (wp_mono (runs sound holds) ?_ ?_))
  · exact fun _ _ done => wp_pure fun _ => done.2
  · rintro e frame' ⟨ended, kept⟩
    cases e with
    | error failure => exact ⟨ended, fun _ => kept rfl⟩
    | panic message =>
        refine wp_bind (wp_modify (wp_stop ⟨⟨.panic, rfl, by decide⟩, ?_⟩))
        rintro ⟨⟩
    | diverge =>
        obtain ⟨status, ⟨⟩, -⟩ := ended

end Frame

theorem bears_read {act : Unit → Body (LkvDatabase σ) ω Unit} (reads : Obeys inv m m (act ())) :
    Bears inv m m (readDatabase >>= act) := fun frame holds =>
  wp_lock_holds holds fun sound holds =>
    wp_mono (reads frame sound holds) (fun _ _ kept _ => kept.2) fun _ _ => id

theorem bears_update (keeps : E.Keeps C inv honest) (calls : List TxCall) :
    Bears inv m (override m (calls.map (·.operation E.memory)).reverse)
      (writeDatabase (onDatabase (E.transact calls)) : Body (LkvDatabase σ) ω Unit) := by
  refine fun frame holds => wp_writeDatabase holds fun sound holds => wp_onDatabase_write sound ?_
  refine wp_mono (keeps.wp_transact calls holds) (fun _ _ => id) ?_
  rintro _ s' ⟨⟨error, rfl⟩, kept⟩
  refine ⟨?_, fun _ => kept⟩
  rintro ⟨⟩

/-- A read that answers if the database is available. -/
theorem reads_shared (keeps : E.Keeps C inv honest) {act : Db α} (needs : Needs act)
    (runs : ∀ s, inv s m → (E.handle s).db.state ≠ .unavailable →
      ∃ a s', E.shared act s = (.ok a, s') ∧ inv s' m) :
    Obeys inv m m (onDatabase (E.shared act) : Body (LkvDatabase σ) ω α) := by
  refine obeys_onDatabase fun s holds => keeps.wp_shared needs holds fun available => ?_
  obtain ⟨a, s', ran, kept⟩ := runs s holds available
  rw [wp, ran]
  exact kept

theorem reads_stats (keeps : E.Keeps C inv honest) :
    Obeys inv m m (onDatabase (E.shared Database.stats) : Body (LkvDatabase σ) ω DatabaseStats) := by
  refine obeys_onDatabase fun s holds => keeps.wp_shared needs_bind holds fun _ =>
    keeps.wp_shared_same holds ?_
  refine wp_bind (Database.wp_ensureAvailable (fun _ => ?_) fun _ => ⟨⟨_, rfl⟩, rfl, rfl⟩)
  refine wp_bind (Db.wp_io (Io.wp_len (wp_bind (wp_state (wp_pure ⟨⟨_, rfl⟩, rfl⟩))) ?_))
  exact fun error _ => ⟨⟨error, rfl⟩, rfl, rfl⟩

theorem reads_sync (keeps : E.Keeps C inv honest) :
    Obeys inv m m (onDatabase (E.shared Database.sync) : Body (LkvDatabase σ) ω Unit) := by
  refine obeys_onDatabase fun s holds => keeps.wp_shared needs_bind holds fun _ =>
    keeps.wp_shared_same holds ?_
  refine wp_bind (Database.wp_ensureAvailable (fun _ => ?_) fun _ => ⟨⟨_, rfl⟩, rfl, rfl⟩)
  exact Db.wp_io (Io.wp_syncData ⟨⟨_, rfl⟩, rfl⟩ fun error _ => ⟨⟨error, rfl⟩, rfl, rfl⟩)

theorem reads_snapshot (keeps : E.Keeps C inv honest) :
    Obeys inv m m (onDatabase (E.shared Database.snapshot) : Body (LkvDatabase σ) ω Snapshot) := by
  refine obeys_onDatabase fun s holds => keeps.wp_shared needs_bind holds fun _ =>
    keeps.wp_shared_same holds ?_
  refine wp_bind (Database.wp_ensureAvailable (fun _ => ?_) fun _ => ⟨⟨_, rfl⟩, rfl, rfl⟩)
  exact wp_bind (wp_state (wp_bind (wp_modify (wp_pure ⟨⟨_, rfl⟩, rfl⟩))))

theorem reads_visit (keeps : E.Keeps C inv honest) (visitor : Visitor ω) :
    Obeys inv m m (do
      let (view, entries) ← onDatabase (E.shared (iterDatabase C))
      visitEntries visitor (fun entries => onDatabase (E.shared (nextEntry view entries)))
        entries.bound entries : Body (LkvDatabase σ) ω Unit) := by
  rintro ⟨⟨s, _⟩, out, lastError⟩ ⟨⟩ holds
  by_cases unavailable : (E.handle s).db.state = .unavailable
  · have refused : iterDatabase C (E.handle s) = (.error (.err .poisoned), E.handle s) :=
      needs_bind _ unavailable
    refine wp_bind (wp_onDatabase ?_)
    unfold wp
    rw [shared_run refused]
    exact ⟨returned_ends ⟨_, rfl⟩, fun _ => keeps.same _ holds rfl rfl⟩
  · refine wp_mono (wp_visiting keeps holds unavailable visitor ⟨out, lastError⟩) ?_ fun _ _ => False.elim
    rintro _ _ ⟨s', pairs, kept, -, rfl⟩
    exact ⟨rfl, kept⟩

end Bears

end Lkv.Ffi
