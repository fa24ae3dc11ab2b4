/-
# Lkv.Ffi.Engines — what both databases do for the interface

`Engine.Keeps` states what the interface relies on: reading answers with the map that the
database holds, a transaction changes the map by its operations or not at all, and a compaction
does not change it.  What a failed call leaves behind is part of it; only a panic may leave
anything.  `fileEngine_keeps` and `memoryEngine_keeps` prove it of the two storages, whichever
calls of the system fail.

`Engine.Keeps.wp_transact` is the heart of the calls that write: a transaction is committed as a
whole or not at all, and it does not panic.  `wp_visitEntries` is the loop of the `visit`
functions: the callback sees the pairs of the map, each once, up to the one at which it answers
zero.
-/
import Lkv.Ffi.Calls
import Lkv.System.MemoryLifecycle
import Lkv.System.Runs

namespace Lkv
open Lkv.Theory Lkv.Theory.Prog Dictionary

set_option autoImplicit false

/-! ## Compactions end -/

/-- However a compaction stops, it does not run forever. -/
theorem Move.Halted.ends {m : Move} {entries : List Entry} {slots : Nat} {h h' : Handle} {e : Stop}
    (halted : m.Halted entries slots h e h') : e ≠ .diverge := by
  have fails : h.disk.Failed e → e ≠ .diverge := by
    rintro ⟨-, error, rfl⟩ ⟨⟩
  have panics : (∃ message, e = .panic message) → e ≠ .diverge := by
    rintro ⟨message, rfl⟩ ⟨⟩
  cases halted with
  | staging failed => exact fails failed
  | staged _ _ panicked => exact panics panicked
  | switching _ _ _ failed => exact fails failed
  | moving _ _ _ stopped => exact stopped.elim fails fun overflow => panics overflow.2.2
  | settling _ _ _ _ failed => exact fails failed
  | doubling _ _ _ _ failed => exact fails failed
  | settled _ _ _ panicked => exact panics panicked
  | cutting _ _ _ _ failed => exact fails failed

theorem wp_compact_ends {C : Crates} {c : Contents C} {h : Handle} (healthy : c.Healthy h) :
    wp (Database.compact C) (fun _ _ => True) (fun e _ => e ≠ .diverge) h := by
  refine wp_mono (wp_compact healthy) (fun _ _ _ => trivial) ?_
  rintro e h' (⟨⟨error, rfl, -⟩, -⟩ | ⟨-, -, r, -, halted⟩)
  · rintro ⟨⟩
  · exact halted.ends

/-- A batch that is not admitted is refused with an error. -/
theorem admitted_noPanic (limit len : Nat) (staged : List StagedEntry) :
    NoPanic (admitted limit len staged) := by
  refine (batchPayloadLen_noPanic staged).bind fun payloadLen _ =>
    (noPanic_orFail _).bind fun recordLen _ => NoPanic.bind ?_ fun _ _ => noPanic_ok
  refine (noPanic_orFail _).bind fun required _ => ?_
  split
  · exact noPanic_fail
  · exact noPanic_ok

/-! ## Errors of the library -/

/-- The stop is an error that the library returns. -/
def Stop.Returned (e : Stop) : Prop := ∃ error, e = .err error

theorem checkSinglePutSize_noPanic (keyLen valueLen : Nat) :
    NoPanic (checkSinglePutSize keyLen valueLen) := by
  refine (noPanic_orFail _).bind fun serialized _ => ?_
  split
  · exact noPanic_ok
  · exact noPanic_fail

theorem checkLengthsLen_noPanic (key : Bytes) (valueLen : Nat) :
    NoPanic (checkLengthsLen key valueLen) := by
  unfold checkLengthsLen
  split
  · exact noPanic_fail
  · exact checkLengths_noPanic.bind fun _ _ => checkSinglePutSize_noPanic _ _

namespace Tx

theorem raises_system {error : IoError → Error} : Raises Stop.Returned (system error) := fun _ =>
  wp_system (fun _ => trivial) fun failure _ => ⟨failure, rfl⟩

theorem raises_fill (write : ReservedValue.Callback) (reserved : ReservedValue) :
    Raises Stop.Returned (fill write reserved) := fun _ =>
  wp_fill (fun _ _ _ => trivial) fun error => ⟨error, rfl⟩

end Tx

/-- No call on a transaction panics. -/
theorem TxCall.raises_run (memory : Bool) (call : TxCall) : Raises Stop.Returned (call.run memory) := by
  have stages (key : Bytes) (checksum : Option (BitVec 32)) (entry : OverlayEntry) :
      Raises Stop.Returned (do Tx.setChecksum key checksum; Tx.setStaged key entry) :=
    raises_bind (raises_modify _) fun _ => raises_modify _
  cases call with
  | put key value =>
      refine raises_bind (raises_lift checkLengths_noPanic) fun _ =>
        raises_bind (raises_lift (checkSinglePutSize_noPanic _ _)) fun _ => ?_
      split
      · exact raises_bind Tx.raises_system fun _ => stages _ _ _
      · exact stages _ _ _
  | putReserved key valueLen write =>
      refine raises_bind (raises_lift (checkLengthsLen_noPanic _ _)) fun _ => ?_
      split
      · exact raises_bind Tx.raises_system fun _ => raises_bind (Tx.raises_fill _ _) fun _ =>
          raises_bind Tx.raises_system fun _ => stages _ _ _
      · exact raises_bind Tx.raises_system fun _ => raises_bind (Tx.raises_fill _ _) fun _ => stages _ _ _
  | delete key => exact raises_bind (raises_lift checkLengths_noPanic) fun _ => stages _ _ _

/-! ## One item of an iteration -/

section Next

variable {C : Crates} {c : Contents C} {f : File} {view : ReadView} {v : SegmentVerifier}
variable {it : RawEntries} {walked : List (Nat × Entry)} {ops visited : List Operation}

/-- `next` on a view of the contents: the next pair, never an error. -/
theorem Contents.Displays.next (displays : c.Displays view f) (checks : c.Checks v)
    (iterates : Iterates f it walked none ops visited) (base : it.base = view.base) :
    match itemsOf walked none ops visited with
    | item :: rest => ∃ it' walked' visited' v',
        Entries.next f view it v = (.ok (some (.ok (item.key, item.value)), it'), v') ∧ c.Checks v' ∧
        Iterates f it' walked' none ops visited' ∧ it'.base = view.base ∧
        itemsOf walked' none ops visited' = rest
    | [] => ∃ it', Entries.next f view it v = (.ok (none, it'), v) := by
  have step := next_spec iterates
  cases items : itemsOf walked none ops visited with
  | nil =>
      rw [items] at step
      obtain ⟨it', read, -, pending, -⟩ := step
      refine ⟨it', ?_⟩
      rw [Entries.next, bind_run, lift_run, read]
      simp only [pending]
      rfl
  | cons item rest =>
      have member : item ∈ itemsOf walked none ops visited := by simp [items]
      have inside : ∀ start stop, item.range = some (start, stop) →
          start ≤ stop ∧ stop ≤ v.dataSize := by
        intro start stop range
        rw [checks.size, ← displays.size, ← base]
        exact item_inside iterates.inside iterates.word iterates.walk member range
      have pass : Passes (segmentBytes c.data) view.verification v item :=
        passes_of_allMatch (fun _ => checks.sound) (fun _ => checks.allMatch) inside
      rw [items] at step
      obtain ⟨it', walked', visited', read, iterates', rest_eq, sameBase, -⟩ := step
      obtain ⟨r, v', verified, sound, same, outcome⟩ := wp_returns
        (wp_verifyPair (segmentBytes c.data) displays.deref (fun _ => checks.sound) inside)
        fun _ _ => id
      refine ⟨it', walked', visited', v', ?_, checks.next same (sound checks.sound), iterates',
        sameBase.trans base, rest_eq⟩
      rw [Entries.next, bind_run, lift_run, read]
      dsimp only
      rw [bind_run, verified]
      cases r with
      | ok _ => rfl
      | error error => exact absurd pass outcome

end Next

namespace Ffi

/-! ## Visiting -/

/-- The callback on one pair after another, until it answers zero. -/
def visited {ω : Type} (visitor : Visitor ω) : Context ω → List Entry → Context ω
  | context, [] => context
  | context, (key, value) :: rest =>
      if (visitor.run key value context).1 = 0 then (visitor.run key value context).2
      else visited visitor (visitor.run key value context).2 rest

/-- An object and what a callback works on. -/
def Context.frame {δ ω : Type} (context : Context ω) (object : δ) : Frame δ ω :=
  ⟨object, context.memory, context.lastError⟩

section Visit

variable {C : Crates} {c : Contents C} {f : File} {view : ReadView} {v : SegmentVerifier}
variable {δ ω : Type} {visitor : Visitor ω}
variable {next : RawEntries → Body δ ω (Option (Except Error Entry) × RawEntries)}
variable {object : SegmentVerifier → δ}

/-- By induction on the pairs that are left; the object is known up to what its verifier
remembers. -/
theorem wp_visitEntries (displays : c.Displays view f)
    (steps : ∀ it v (context : Context ω) found v', Entries.next f view it v = (.ok found, v') →
      next it (context.frame (object v)) = (.ok found, context.frame (object v')))
    {it : RawEntries} {walked : List (Nat × Entry)} {ops shown : List Operation} {fuel : Nat}
    (checks : c.Checks v) (iterates : Iterates f it walked none ops shown) (base : it.base = view.base)
    (enough : (itemsOf walked none ops shown).length + 2 ≤ fuel) (context : Context ω) :
    wp (visitEntries visitor next fuel it)
      (fun _ frame => ∃ v', c.Checks v' ∧ frame = (visited visitor context
        ((itemsOf walked none ops shown).map fun item => (item.key, item.value))).frame (object v'))
      (fun _ _ => False) (context.frame (object v)) := by
  induction items : itemsOf walked none ops shown generalizing it walked shown v fuel context with
  | nil =>
      obtain ⟨left, rfl⟩ := Nat.exists_eq_add_of_le' enough
      have step := displays.next checks iterates base
      rw [items] at step
      obtain ⟨it', ran⟩ := step
      refine wp_bind ?_
      rw [wp, steps _ _ _ _ _ ran]
      exact wp_pure ⟨v, checks, rfl⟩
  | cons item rest ih =>
      rw [items, List.length_cons] at enough
      obtain ⟨left, rfl⟩ : ∃ left, fuel = left + 1 := ⟨fuel - 1, by omega⟩
      have step := displays.next checks iterates base
      rw [items] at step
      obtain ⟨it', walked', shown', v', ran, checks', iterates', base', rest_eq⟩ := step
      refine wp_bind ?_
      rw [wp, steps _ _ _ _ _ ran]
      have called : callBack visitor item.key item.value (context.frame (object v')) =
          (.ok (visitor.run item.key item.value context).1,
            (visitor.run item.key item.value context).2.frame (object v')) := rfl
      refine wp_bind ?_
      rw [wp, called]
      dsimp only
      rw [List.map_cons, visited]
      split
      · exact wp_pure ⟨v', checks', rfl⟩
      · have fewer : (itemsOf walked' none ops shown').length + 2 ≤ left := by
          rw [rest_eq]
          omega
        exact ih checks' iterates' base' fewer (visitor.run item.key item.value context).2 rest_eq

end Visit

/-! ## What the interface relies on -/

section Keeps

variable {σ : Type}

/-- The engine keeps a map: `inv s m` says that the database `s` holds `m`.  A compaction may
need `honest`, that no torn page passes for a whole one. -/
structure Engine.Keeps (C : Crates) (E : Engine σ) (inv : σ → (Bytes → Option Bytes) → Prop)
    (honest : σ → Prop) : Prop where
  handle_set : ∀ s v, E.handle (E.setHandle ((E.handle s).withVerifier v) s) = (E.handle s).withVerifier v
  set_set : ∀ h h' s, E.setHandle h (E.setHandle h' s) = E.setHandle h s
  answers : ∀ {s m}, inv s m → (E.handle s).db.state ≠ .unavailable →
    ∃ c : Contents C, c.map = m ∧ c.Answers (E.handle s) ∧
      ∀ v, c.Checks v → inv (E.setHandle ((E.handle s).withVerifier v) s) m
  same : ∀ {s m h} (guard : Nat), inv s m → h.db = { (E.handle s).db with snapshotGuard := guard } →
    h.disk.file = (E.handle s).disk.file → inv (E.setHandle h s) m
  faulty : ∀ {s m} (faults : List Fault), inv s m → inv (E.setFaults faults s) m
  commit : ∀ {s m txn ops}, inv s m → Staging E.memory txn ops →
    wp (E.commit txn) (fun _ s' => inv s' (override m ops))
      (fun e s' => (∃ error, e = .err error) ∧ inv s' m) s
  compact : ∀ {s m}, inv s m → honest s →
    wp E.compact (fun _ s' => inv s' m)
      (fun e s' => e ≠ .diverge ∧ ((∃ error, e = .err error) → inv s' m)) s

/-- What a file database holds: the map that its handle shows. -/
def fileHolds (C : Crates) (h : Handle) (m : Bytes → Option Bytes) : Prop :=
  ∃ maps, Holding C m maps h

theorem fileHolds_commit {C : Crates} {h : Handle} {m : Bytes → Option Bytes} {txn : WriteTransaction}
    {ops : List Operation} (holds : fileHolds C h m) (staging : Staging false txn ops) :
    wp (txn.commit C) (fun _ h' => fileHolds C h' (override m ops))
      (fun e h' => (∃ error, e = .err error) ∧ fileHolds C h' m) h := by
  obtain ⟨maps, holding⟩ := holds
  rcases holding.cases with ⟨c, rfl, rfl, healthy⟩ | poisoned
  · refine wp_mono (wp_ran (wp_commit healthy staging.coherent)) ?_ ?_
    · rintro _ h' ⟨⟨-, c', healthy', map⟩, -⟩
      exact ⟨_, .healthy c' map rfl healthy'⟩
    · rintro e h' ⟨⟨error, refused | ⟨batch, staged, map, broken⟩⟩, ran⟩
      · exact ⟨error, _, holding.congr refused.disk.kept (by rw [refused.db]) (by rw [refused.db])
          (by rw [refused.db]) (by rw [refused.db])⟩
      · have poisoned : h'.db.state = .writePoisoned := by rw [broken.db]
        have keeps := commit_keeps healthy staging.coherent
        have ran : Database.commitStagedWith C txn.staged txn.valueChecksums h = (.error e, h') := ran
        rw [ran] at keeps
        refine ⟨error, [c.map, override c.map ops],
          .readOnly c rfl poisoned (broken.serves healthy) ?_⟩
        rw [broken.db]
        exact keeps.now
  · have ran := commit_poisoned (C := C) poisoned txn.staged txn.valueChecksums
    unfold wp
    rw [WriteTransaction.commit, ran]
    exact ⟨⟨_, rfl⟩, maps, holding⟩

theorem fileHolds_compact {C : Crates} {h : Handle} {m : Bytes → Option Bytes}
    (holds : fileHolds C h m) (honest : HonestPages h.disk.file (compactTrace C h)) :
    wp (Database.compact C) (fun _ h' => fileHolds C h' m)
      (fun e h' => e ≠ .diverge ∧ ((∃ error, e = .err error) → fileHolds C h' m)) h := by
  obtain ⟨maps, holding⟩ := holds
  rcases holding.cases with ⟨c, rfl, rfl, healthy⟩ | poisoned
  · have left := wp_compact_holding healthy
    have ends := wp_compact_ends healthy
    unfold wp at left ends ⊢
    split at left
    · obtain ⟨-, c', healthy', map⟩ := left
      exact ⟨_, .healthy c' map rfl healthy'⟩
    · rename_i ran
      rw [ran] at ends
      exact ⟨ends, fun error => ⟨_, left.2 honest error⟩⟩
  · unfold wp
    rw [compact_poisoned poisoned]
    refine ⟨?_, fun _ => ⟨maps, holding⟩⟩
    rintro ⟨⟩

theorem fileEngine_keeps (C : Crates) : (fileEngine C).Keeps C (fileHolds C)
    (fun h => HonestPages h.disk.file (compactTrace C h)) where
  handle_set _ _ := rfl
  set_set _ _ _ := rfl
  answers := by
    rintro h m ⟨maps, holding⟩ available
    cases holding with
    | healthy c map only healthy =>
        exact ⟨c, map, healthy.serves.answers, fun v checks =>
          ⟨maps, .healthy c map only (healthy.withVerifier checks)⟩⟩
    | readOnly c map state serves stored =>
        exact ⟨c, map, serves.answers, fun v checks =>
          ⟨maps, .readOnly c map state (serves.withVerifier checks) stored⟩⟩
    | lost state stored => exact absurd state available
  same := by
    rintro h m h' guard ⟨maps, holding⟩ db file
    have base : h'.db.base = h.db.base := by rw [db]; rfl
    have overlay : h'.db.overlay = h.db.overlay := by rw [db]; rfl
    have options : h'.db.options = h.db.options := by rw [db]; rfl
    have state : h'.db.state = h.db.state := by rw [db]; rfl
    exact ⟨maps, holding.congr file base overlay options state⟩
  faulty := by
    rintro h m faults ⟨maps, holding⟩
    exact ⟨maps, holding.congr rfl rfl rfl rfl rfl⟩
  commit := fileHolds_commit
  compact := fileHolds_compact

/-- What a memory database holds. -/
def memoryHolds (C : Crates) (m : MemoryDatabase) (map : Bytes → Option Bytes) : Prop :=
  ∃ c : Contents C, c.Resides m ∧ c.map = map

theorem memoryEngine_keeps (C : Crates) :
    (memoryEngine C).Keeps C (memoryHolds C) (fun _ => True) where
  handle_set _ _ := rfl
  set_set _ _ _ := rfl
  answers := by
    rintro m map ⟨c, resides, rfl⟩ available
    exact ⟨c, rfl, resides.answers, fun v checks => ⟨c, resides.withVerifier checks, rfl⟩⟩
  same := by
    rintro m map h guard ⟨c, resides, rfl⟩ db -
    refine ⟨c, ?_, rfl⟩
    show c.Resides { m with db := h.db }
    rw [db]
    exact resides.guard guard
  faulty := by
    rintro m map faults ⟨c, resides, rfl⟩
    exact ⟨c, resides.afresh faults, rfl⟩
  commit := by
    rintro m map txn ops ⟨c, resides, rfl⟩ staging
    refine wp_mono (MemoryDatabase.wp_commitStagedMemory resides ⟨ops, staging.coherent⟩) ?_ ?_
    · rintro _ m' ⟨-, ⟨nothing, rfl⟩ | ⟨batch, staged, -, committed⟩⟩
      · exact ⟨c, resides, (staging.coherent.commit_nothing nothing).symm⟩
      · exact ⟨_, committed.resides, staging.coherent.commit_map staged⟩
    · rintro e m' ⟨rfl, why⟩
      refine ⟨?_, c, resides, rfl⟩
      rcases why with ⟨-, rfl⟩ | ⟨-, -, refused⟩
      · exact ⟨_, rfl⟩
      · exact admitted_noPanic _ _ _ e refused
  compact := by
    rintro m map ⟨c, resides, rfl⟩ -
    refine wp_mono (MemoryDatabase.wp_compactInMemory resides) ?_ ?_
    · rintro _ m' ⟨-, -, c', compacted⟩
      exact ⟨c', compacted.resides, compacted.map⟩
    · rintro e m' halted
      refine ⟨?_, fun _ => ⟨c, halted.resides, rfl⟩⟩
      rcases halted.why with ⟨error, rfl, -⟩ | ⟨⟨message, rfl⟩, -⟩ <;> rintro ⟨⟩

end Keeps

/-! ## What the engine does for a call -/

section Engine

variable {σ α : Type} {C : Crates} {E : Engine σ} {inv : σ → (Bytes → Option Bytes) → Prop}
variable {honest : σ → Prop} {s : σ} {m : Bytes → Option Bytes} {txn : WriteTransaction}
variable {ops : List Operation}

/-- A program that begins with `ensure_available`. -/
def Needs (act : Db α) : Prop :=
  ∀ h : Handle, h.db.state = .unavailable → act h = (.error (.err .poisoned), h)

theorem needs_bind {rest : Unit → Db α} : Needs (Database.ensureAvailable >>= rest) :=
  fun _ unavailable => bind_error (ensureAvailable_refused unavailable)

theorem shared_run {act : Db α} {r : Except Stop α} {h : Handle} (ran : act (E.handle s) = (r, h)) :
    E.shared act s = (r, E.setHandle h s) := by
  unfold Engine.shared zoom
  rw [ran]

namespace Engine.Keeps

variable (keeps : E.Keeps C inv honest)
include keeps

theorem wp_stage (holds : inv s m) (call : TxCall) (staging : Staging E.memory txn ops) :
    wp (E.stage call txn)
      (fun txn' s' => Staging E.memory txn' (call.operation E.memory :: ops) ∧ inv s' m)
      (fun e s' => e.Returned ∧ inv s' m) s := by
  have ran := wp_raises (call.raises_run E.memory)
    (call.wp_run (m := ⟨txn, E.faults s⟩) staging)
  unfold wp at ran ⊢
  unfold Engine.stage
  cases result : call.run E.memory ⟨txn, E.faults s⟩ with
  | mk outcome t =>
      rw [result] at ran
      cases outcome with
      | ok _ => exact ⟨ran, keeps.faulty _ holds⟩
      | error e => exact ⟨ran.1, keeps.faulty _ holds⟩

theorem wp_stageAll (calls : List TxCall) (holds : inv s m) (staging : Staging E.memory txn ops) :
    wp (E.stageAll calls txn)
      (fun txn' s' => Staging E.memory txn' ((calls.map (·.operation E.memory)).reverse ++ ops) ∧ inv s' m)
      (fun e s' => e.Returned ∧ inv s' m) s := by
  induction calls generalizing s txn ops with
  | nil => exact wp_pure ⟨staging, holds⟩
  | cons call rest ih =>
      refine wp_bind (wp_mono (keeps.wp_stage holds call staging) ?_ fun _ _ => id)
      rintro txn' s' ⟨staging', holds'⟩
      rw [List.map_cons, List.reverse_cons, List.append_assoc]
      exact ih holds' staging'

/-- `begin_write`, some calls, `commit`: all of it or nothing, and no panic. -/
theorem wp_transact (calls : List TxCall) (holds : inv s m) :
    wp (E.transact calls)
      (fun _ s' => inv s' (override m (calls.map (·.operation E.memory)).reverse))
      (fun e s' => e.Returned ∧ inv s' m) s := by
  have same : inv (E.setHandle (E.handle s) s) m := keeps.same _ holds rfl rfl
  refine wp_bind (wp_zoom (wp_mono (Database.wp_beginWrite _) ?_ ?_))
  · rintro txn h ⟨rfl, rfl⟩
    refine wp_bind (wp_mono (keeps.wp_stageAll calls same .new) ?_ fun _ _ => id)
    rintro txn s' ⟨staging, holds'⟩
    rw [List.append_nil] at staging
    exact keeps.commit holds' staging
  · rintro e h ⟨returned, rfl⟩
    exact ⟨returned, same⟩

/-- A read that needs the database: it is refused, or it does what it does to an available one. -/
theorem wp_shared {act : Db α} (needs : Needs act) (holds : inv s m)
    (runs : (E.handle s).db.state ≠ .unavailable →
      wp (E.shared act) (fun _ s' => inv s' m) (fun e s' => e.Returned ∧ inv s' m) s) :
    wp (E.shared act) (fun _ s' => inv s' m) (fun e s' => e.Returned ∧ inv s' m) s := by
  by_cases unavailable : (E.handle s).db.state = .unavailable
  · rw [wp, shared_run (needs _ unavailable)]
    exact ⟨⟨_, rfl⟩, keeps.same _ holds rfl rfl⟩
  · exact runs unavailable

/-- A read that leaves database and file alone, but for the count of snapshots. -/
theorem wp_shared_same {act : Db α} (holds : inv s m)
    (runs : wp act (fun _ h => (∃ guard, h.db = { (E.handle s).db with snapshotGuard := guard }) ∧
        h.disk.file = (E.handle s).disk.file)
      (fun e h => e.Returned ∧ h.db = (E.handle s).db ∧ h.disk.file = (E.handle s).disk.file)
      (E.handle s)) :
    wp (E.shared act) (fun _ s' => inv s' m) (fun e s' => e.Returned ∧ inv s' m) s := by
  refine wp_zoom (wp_mono runs ?_ ?_)
  · rintro _ h ⟨⟨guard, db⟩, file⟩
    exact keeps.same guard holds db file
  · rintro e h ⟨returned, db, file⟩
    exact ⟨returned, keeps.same _ holds db file⟩

theorem get (holds : inv s m) (available : (E.handle s).db.state ≠ .unavailable) (key : Bytes) :
    ∃ s', E.shared (Database.get C key) s = (.ok (m key), s') ∧ inv s' m := by
  obtain ⟨c, rfl, answers, checked⟩ := keeps.answers holds available
  obtain ⟨v, ran, checks⟩ := answers.get available key
  exact ⟨_, shared_run ran, checked v checks⟩

theorem len (holds : inv s m) (available : (E.handle s).db.state ≠ .unavailable) :
    ∃ s', E.shared (Database.len C) s = (.ok {key | m key ≠ none}.ncard, s') ∧ inv s' m := by
  obtain ⟨c, rfl, answers, -⟩ := keeps.answers holds available
  exact ⟨_, shared_run (answers.count available), keeps.same _ holds rfl rfl⟩

theorem verify (holds : inv s m) (available : (E.handle s).db.state ≠ .unavailable) :
    ∃ s', E.shared (Database.verify C) s = (.ok (), s') ∧ inv s' m := by
  obtain ⟨c, rfl, answers, checked⟩ := keeps.answers holds available
  obtain ⟨v, ran, checks⟩ := answers.verify available
  exact ⟨_, shared_run ran, checked v checks⟩

end Engine.Keeps

end Engine

/-! ## Visiting a database -/

section Visiting

variable {σ δ ω α : Type} {C : Crates} {E : Engine σ} {inv : σ → (Bytes → Option Bytes) → Prop}
variable {honest : σ → Prop} {s : σ} {m : Bytes → Option Bytes}

theorem wp_onDatabase {act : Prog σ Stop α} {frame : Frame (LkvDatabase σ) ω}
    {Q : α → Frame (LkvDatabase σ) ω → Prop} {F : FfiStop → Frame (LkvDatabase σ) ω → Prop}
    (runs : wp act (fun a s' => Q a { frame with object := { frame.object with inner := s' } })
      (fun e s' => F (.ofStop e) { frame with object := { frame.object with inner := s' } })
      frame.object.inner) : wp (onDatabase act) Q F frame := by
  unfold onDatabase onObject
  exact wp_zoom (wp_recast (wp_zoom runs))

theorem onObject_run {act : Prog δ Stop α} {frame : Frame δ ω} {a : α} {object : δ}
    (ran : act frame.object = (.ok a, object)) :
    onObject act frame = (.ok a, { frame with object := object }) := by
  unfold onObject zoom recast
  dsimp only
  rw [ran]

theorem onDatabase_run {act : Prog σ Stop α} {frame : Frame (LkvDatabase σ) ω} {a : α} {s' : σ}
    (ran : act frame.object.inner = (.ok a, s')) :
    onDatabase act frame = (.ok a, { frame with object := ⟨s', frame.object.poisoned⟩ }) := by
  refine onObject_run ?_
  unfold zoom
  rw [ran]

theorem verifying_run {act : Prog SegmentVerifier Stop α} {h : Handle} {r : Except Stop α}
    {v : SegmentVerifier} (ran : act h.db.base.verifier = (r, v)) :
    Db.verifying act h = (r, h.withVerifier v) := by
  unfold Db.verifying zoom
  rw [ran]
  rfl

/-- The callback sees the pairs of the map. -/
theorem wp_visiting (keeps : E.Keeps C inv honest) (holds : inv s m)
    (available : (E.handle s).db.state ≠ .unavailable) (visitor : Visitor ω) (context : Context ω) :
    wp (do
        let (view, entries) ← onDatabase (E.shared (iterDatabase C))
        visitEntries visitor (fun entries => onDatabase (E.shared (nextEntry view entries)))
          entries.bound entries)
      (fun _ frame => ∃ s' pairs, inv s' m ∧ Lists m pairs ∧
        frame = (visited visitor context pairs).frame ⟨s', false⟩)
      (fun _ _ => False) (context.frame (⟨s, false⟩ : LkvDatabase σ)) := by
  obtain ⟨c, rfl, answers, checked⟩ := keeps.answers holds available
  have began : iterDatabase C (E.handle s) =
      (.ok ((E.handle s).db.readView, (E.handle s).db.iterRaw C), E.handle s) := by
    unfold iterDatabase
    rw [bind_ok (Contents.ensureAvailable_run available)]
    rfl
  obtain ⟨ops, shown, -, -, iterates, lists⟩ :=
    answers.displays.iterates (E.handle s).db.base.verifier.semanticallyVerified
  have fresh : (E.handle s).db.iterRaw C = RawEntries.new C (E.handle s).db.readView
      (E.handle s).db.base.verifier.semanticallyVerified c.entries.length := by
    rw [Database.iterRaw, answers.len]
  let object (v : SegmentVerifier) : LkvDatabase σ := ⟨E.setHandle ((E.handle s).withVerifier v) s, false⟩
  have steps : ∀ it v (context : Context ω) found v',
      Entries.next (E.handle s).disk.file (E.handle s).db.readView it v = (.ok found, v') →
      onDatabase (E.shared (nextEntry (E.handle s).db.readView it)) (context.frame (object v)) =
        (.ok found, context.frame (object v')) := by
    intro it v context found v' next
    have ran : nextEntry (E.handle s).db.readView it (E.handle (object v).inner) =
        (.ok found, (E.handle s).withVerifier v') := by
      rw [keeps.handle_set]
      exact verifying_run (h := (E.handle s).withVerifier v) next
    have held : E.shared (nextEntry (E.handle s).db.readView it) (object v).inner =
        (.ok found, (object v').inner) := by
      rw [shared_run ran, keeps.set_set]
    exact onDatabase_run held
  refine wp_bind ?_
  rw [wp, onDatabase_run (shared_run began), fresh]
  refine wp_mono (wp_visitEntries answers.displays steps answers.checks iterates rfl
    iterates.length_le context) ?_ fun _ _ => id
  rintro _ frame ⟨v, checks, rfl⟩
  exact ⟨_, _, checked v checks, lists, by rw [items_pairs]⟩

end Visiting

/-- A put to a new file. -/
theorem transact_put {h : Handle} (healthy : (emptyContents zeroHash).Healthy h) (quiet : h.disk.Quiet)
    (options : h.db.options = .default) :
    ∃ h', (fileEngine zeroHash).transact [.put [1] [2]] h = (.ok (), h') ∧
      fileHolds zeroHash h' (override (fun _ => none) [([1], some [2])]) ∧ h'.db.state ≠ .unavailable := by
  obtain ⟨h', batch, committed, -, done⟩ := commit_put healthy quiet options
  have ran : (fileEngine zeroHash).transact [.put [1] [2]] h = (.ok (), h') := by
    have begun : (fileEngine zeroHash).shared Database.beginWrite h = (.ok .new, h) :=
      shared_run healthy.beginWrite_new
    have staged : (fileEngine zeroHash).stageAll [.put [1] [2]] .new h = (.ok firstPut, h) := rfl
    unfold Engine.transact
    rw [bind_ok begun, bind_ok staged]
    exact committed
  have holds : fileHolds zeroHash h (fun _ => none) :=
    ⟨_, .healthy _ (emptyContents_map zeroHash) rfl healthy⟩
  have after := wp_ok ((fileEngine_keeps zeroHash).wp_transact [.put [1] [2]] holds) ran
  exact ⟨h', ran, after, done.healthy.available⟩

end Ffi

end Lkv
