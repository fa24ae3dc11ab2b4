/-
# Lkv.Database.Readers — a handle, its iterators and its snapshots

The iterators and the snapshots taken from a handle share its verifier, so a read through
one of them shows in the others.  `Readers` is all of them together, `perform` is one call,
and `Reached` is what any calls in any order lead to.  `wp_perform` is the step lemma: a
call returns or ends in an error, and keeps `Steady`; `Reached.steady` is the run.
-/
import Lkv.Database.Reading

namespace Lkv

open Lkv.Theory Lkv.Theory.Prog SegmentVerifier

set_option autoImplicit false

structure Readers where
  handle : Handle
  /-- The iterators that are in use, each with the view it reads. -/
  iterators : List (ReadView × RawEntries)
  snapshots : List Snapshot

/-- A call on the handle, on one of the iterators or on one of the snapshots. -/
inductive ReadCall where
  | get (key : Bytes)
  | containsKey (key : Bytes)
  | len
  | isEmpty
  | verify
  | iter
  | snapshot
  | snapshotGet (snapshot : Nat) (key : Bytes)
  | snapshotContainsKey (snapshot : Nat) (key : Bytes)
  | snapshotIter (snapshot : Nat)
  | snapshotLen (snapshot : Nat)
  | snapshotIsEmpty (snapshot : Nat)
  | next (iterator : Nat)
  | drain (iterator : Nat)

namespace Readers

variable {α : Type}

def onHandle (act : Db α) : Prog Readers Stop α :=
  Prog.zoom Readers.handle (fun handle readers => { readers with handle := handle }) act

/-- A read on the verifier that the handle shares with its snapshots. -/
def verifying (act : Prog SegmentVerifier Stop α) : Prog Readers Stop α :=
  onHandle (Db.verifying act)

def addIterator (view : ReadView) (entries : RawEntries) : Prog Readers Stop Unit :=
  Prog.modify fun readers => { readers with iterators := readers.iterators ++ [(view, entries)] }

def discard (act : Prog Readers Stop α) : Prog Readers Stop Unit := do
  let _ ← act
  return ()

/-- A read of one of the snapshots, if there is such a one. -/
def onSnapshot (i : Nat) (act : File → Snapshot → Prog SegmentVerifier Stop α) :
    Prog Readers Stop Unit := do
  let readers ← Prog.state
  match readers.snapshots[i]? with
  | none => return ()
  | some snapshot => discard (verifying (act readers.handle.disk.file snapshot))

def perform (C : Crates) : ReadCall → Prog Readers Stop Unit
  | .get key => discard (onHandle (Database.get C key))
  | .containsKey key => discard (onHandle (Database.containsKey C key))
  | .len => discard (onHandle (Database.len C))
  | .isEmpty => discard (onHandle (Database.isEmpty C))
  | .verify => onHandle (Database.verify C)
  | .iter => do
      onHandle Database.ensureAvailable
      let db := (← Prog.state).handle.db
      addIterator db.readView (db.iterRaw C)
  | .snapshot => do
      let snapshot ← onHandle Database.snapshot
      Prog.modify fun readers => { readers with snapshots := readers.snapshots ++ [snapshot] }
  | .snapshotGet i key => onSnapshot i fun file snapshot => snapshot.get C file key
  | .snapshotContainsKey i key => onSnapshot i fun file snapshot => snapshot.containsKey C file key
  | .snapshotIter i => do
      let readers ← Prog.state
      match readers.snapshots[i]? with
      | none => return ()
      | some snapshot =>
          addIterator snapshot.readView (snapshot.entries C readers.handle.db.base.verifier)
  | .snapshotLen i => onSnapshot i fun file snapshot => snapshot.len C file
  | .snapshotIsEmpty i => onSnapshot i fun file snapshot => snapshot.isEmpty C file
  | .next i => do
      let readers ← Prog.state
      match readers.iterators[i]? with
      | none => return ()
      | some (view, entries) =>
          let (_, entries) ← verifying (Entries.next readers.handle.disk.file view entries)
          Prog.modify fun readers =>
            { readers with iterators := readers.iterators.set i (view, entries) }
  | .drain i => do
      let readers ← Prog.state
      match readers.iterators[i]? with
      | none => return ()
      | some (view, entries) =>
          discard (verifying (Entries.drain readers.handle.disk.file view entries.bound entries))
          Prog.modify fun readers => { readers with iterators := readers.iterators.eraseIdx i }

/-- What calls lead to from `readers`, in any order and number, whether they succeed or not. -/
inductive Reached (C : Crates) (readers : Readers) : Readers → Prop
  | start : Reached C readers readers
  | step {now : Readers} (call : ReadCall) (reached : Reached C readers now) :
      Reached C readers (perform C call now).2

/-! ## What every call keeps -/

/-- The handle reads the view, the iterators and the snapshots are of that view, and the
shared verifier is in one of its states. -/
structure Steady (C : Crates) (f : File) (view : ReadView) (base : ActiveBase)
    (layout : SegmentLayout) (readers : Readers) : Prop where
  file : readers.handle.disk.file = f
  shown : readers.handle.db.readView = view
  held : readers.handle.db.base = { base with verifier := readers.handle.db.base.verifier }
  available : readers.handle.db.state ≠ .unavailable
  verifies : Verifies C f view base.len layout readers.handle.db.base.verifier
  iterators : ∀ iterator ∈ readers.iterators, iterator.1 = view ∧ iterator.2.base = view.base ∧
    ∃ n, Live f iterator.2 n
  snapshots : ∀ snapshot ∈ readers.snapshots, snapshot.readView = view ∧ snapshot.baseLen = base.len

variable {C : Crates} {f : File} {view : ReadView} {base : ActiveBase} {layout : SegmentLayout}
variable {readers : Readers}

/-- The call went on from `Steady` to `Steady`, in an error if it did not return. -/
abbrev Goes (C : Crates) (f : File) (view : ReadView) (base : ActiveBase) (layout : SegmentLayout)
    (act : Prog Readers Stop α) (readers : Readers) : Prop :=
  wp act (fun _ readers' => Steady C f view base layout readers')
    (fun e readers' => Steady C f view base layout readers' ∧ ∃ error, e = .err error) readers

/-- The readers with another state of the shared verifier. -/
def verifiedTo (readers : Readers) (v : SegmentVerifier) : Readers :=
  { readers with handle := { readers.handle with
    db := { readers.handle.db with base := { readers.handle.db.base with verifier := v } } } }

theorem Steady.verified (steady : Steady C f view base layout readers) {v : SegmentVerifier}
    (verifies : Verifies C f view base.len layout v) :
    Steady C f view base layout (readers.verifiedTo v) where
  file := steady.file
  shown := by
    have size : v.dataSize = readers.handle.db.base.verifier.dataSize :=
      verifies.size.trans steady.verifies.size.symm
    rw [← steady.shown]
    unfold verifiedTo Database.readView ActiveBase.readView
    rw [size]
  held := by
    show { readers.handle.db.base with verifier := v } = _
    rw [steady.held]
    rfl
  available := steady.available
  verifies := verifies
  iterators := steady.iterators
  snapshots := steady.snapshots

/-- The same of a call on the handle. -/
abbrev HandleGoes (C : Crates) (f : File) (view : ReadView) (base : ActiveBase)
    (layout : SegmentLayout) (readers : Readers) (act : Db α) : Prop :=
  wp act (fun _ h => Steady C f view base layout { readers with handle := h })
    (fun e h => Steady C f view base layout { readers with handle := h } ∧ ∃ error, e = .err error)
    readers.handle

theorem goes_onHandle {act : Db α} (goes : HandleGoes C f view base layout readers act) :
    Goes C f view base layout (onHandle act) readers :=
  wp_zoom goes

theorem goes_verifying (steady : Steady C f view base layout readers)
    {act : Prog SegmentVerifier Stop α}
    (runs : wp act (fun _ v => Verifies C f view base.len layout v)
      (fun e v => Verifies C f view base.len layout v ∧ ∃ error, e = .err error)
      readers.handle.db.base.verifier) :
    HandleGoes C f view base layout readers (Db.verifying act) := by
  refine wp_zoom (wp_mono runs ?_ ?_)
  · exact fun _ v verifies => steady.verified verifies
  · exact fun e v failed => ⟨steady.verified failed.1, failed.2⟩

/-- A read that always returns, with what follows it. -/
theorem wp_verifying_bind {β : Type} {act : Prog SegmentVerifier Stop α} {k : α → Prog Readers Stop β}
    {A : α → SegmentVerifier → Prop} {Q : β → Readers → Prop} {E : Stop → Readers → Prop}
    (runs : wp act A (fun _ _ => False) readers.handle.db.base.verifier)
    (next : ∀ a v, A a v → wp (k a) Q E (readers.verifiedTo v)) :
    wp (verifying act >>= k) Q E readers := by
  refine wp_bind ?_
  unfold verifying onHandle Db.verifying
  refine wp_zoom ?_
  refine wp_zoom ?_
  exact wp_mono runs next fun _ _ => False.elim

theorem goes_discard {act : Prog Readers Stop α} (goes : Goes C f view base layout act readers) :
    Goes C f view base layout (discard act) readers :=
  wp_bind (wp_mono goes (fun _ _ steady => wp_pure steady) fun _ _ => id)

theorem Steady.addIterator (steady : Steady C f view base layout readers) {entries : RawEntries}
    (based : entries.base = view.base) {n : Nat} (live : Live f entries n) :
    Steady C f view base layout
      { readers with iterators := readers.iterators ++ [(view, entries)] } :=
  { steady with
    iterators := by
      intro iterator member
      rcases List.mem_append.mp member with old | new
      · exact steady.iterators iterator old
      · cases List.mem_singleton.mp new
        exact ⟨rfl, based, n, live⟩ }

theorem Steady.length (steady : Steady C f view base layout readers) :
    readers.handle.db.base.len = base.len := by
  rw [steady.held]

/-- The handle is available, so a call on it gets to what it is for. -/
theorem wp_available {h : Handle} (available : h.db.state ≠ .unavailable) {act : Handle → Db α}
    {Q : α → Handle → Prop} {E : Stop → Handle → Prop} (runs : wp (act h) Q E h) :
    wp (do Database.ensureAvailable; let h ← Prog.state; act h) Q E h := by
  refine wp_bind (Database.wp_ensureAvailable ?_ fun refused => absurd refused available)
  exact fun _ => wp_bind (wp_state runs)

theorem goes_snapshot (steady : Steady C f view base layout readers) :
    Goes C f view base layout (perform C .snapshot) readers := by
  unfold perform
  refine wp_bind (wp_zoom (wp_available steady.available ?_))
  refine wp_bind (wp_modify (wp_pure (wp_modify ?_)))
  exact
    { file := steady.file
      shown := steady.shown
      held := steady.held
      available := steady.available
      verifies := steady.verifies
      iterators := steady.iterators
      snapshots := by
        intro snapshot member
        rcases List.mem_append.mp member with old | new
        · exact steady.snapshots snapshot old
        · cases List.mem_singleton.mp new
          exact ⟨steady.shown, steady.length⟩ }

/-- A read of a snapshot reads the view. -/
theorem goes_onSnapshot (steady : Steady C f view base layout readers) (i : Nat)
    {act : File → Snapshot → Prog SegmentVerifier Stop α}
    (runs : ∀ snapshot : Snapshot, snapshot.readView = view → snapshot.baseLen = base.len →
      ∀ v, Verifies C f view base.len layout v →
      wp (act f snapshot) (fun _ v' => Verifies C f view base.len layout v')
        (fun e v' => Verifies C f view base.len layout v' ∧ ∃ error, e = .err error) v) :
    Goes C f view base layout (onSnapshot i act) readers := by
  unfold onSnapshot
  refine wp_bind (wp_state ?_)
  split
  · exact wp_pure steady
  · rename_i snapshot found
    obtain ⟨shown, length⟩ := steady.snapshots snapshot (List.mem_of_getElem? found)
    rw [steady.file]
    exact goes_discard (goes_onHandle (goes_verifying steady
      (runs snapshot shown length _ steady.verifies)))

section Calls

variable (readable : Readable f view base.len layout) (steady : Steady C f view base layout readers)

include readable steady

theorem goes_get (key : Bytes) : HandleGoes C f view base layout readers (Database.get C key) := by
  refine wp_available steady.available (goes_verifying steady ?_)
  rw [steady.file, steady.shown]
  exact readable.wp_get steady.verifies key

theorem goes_len : HandleGoes C f view base layout readers (Database.len C) := by
  have safe := rawLen_noPanic readable steady.verifies
  refine wp_available steady.available (wp_lift (fun _ _ => steady) fun e failed => ?_)
  rw [steady.file, Database.iterRaw, steady.shown, steady.length] at failed
  exact ⟨steady, safe e failed⟩

/-- `verify` decides whether the Base passes the full check, after any reads. -/
theorem wp_verify_handle :
    wp (Database.verify C)
      (fun _ h => Steady C f view base layout { readers with handle := h } ∧
        PassesFull C base (view.base.mapping.deref f) layout)
      (fun e h => (Steady C f view base layout { readers with handle := h } ∧ ∃ error, e = .err error) ∧
        ¬PassesFull C base (view.base.mapping.deref f) layout) readers.handle := by
  have shown : view.base = ⟨readers.handle.db.base.mapping, readers.handle.db.base.offset,
      readers.handle.db.base.slots, view.base.dataSize⟩ := by
    rw [← steady.shown]
    rfl
  have mapping : readers.handle.db.base.mapping = view.base.mapping := by rw [shown]
  have passes : PassesFull C readers.handle.db.base (view.base.mapping.deref f) layout ↔
      PassesFull C base (view.base.mapping.deref f) layout := by
    rw [steady.held]
    exact ⟨fun p => ⟨p.metadata, p.blocks, p.valid⟩, fun p => ⟨p.metadata, p.blocks, p.valid⟩⟩
  have checked := wp_verify readable shown steady.length steady.verifies
  rw [mapping, passes] at checked
  refine wp_available steady.available (wp_zoom ?_)
  rw [steady.file]
  refine wp_mono checked ?_ ?_
  · exact fun _ v post => ⟨steady.verified post.1, post.2⟩
  · exact fun e v post => ⟨⟨steady.verified post.1, post.2.1⟩, post.2.2⟩

theorem goes_verify : HandleGoes C f view base layout readers (Database.verify C) :=
  wp_mono (wp_verify_handle readable steady) (fun _ _ post => post.1) fun _ _ post => post.1

theorem verify_iff : (Database.verify C readers.handle).1 = .ok () ↔
    PassesFull C base (view.base.mapping.deref f) layout := by
  have spec := wp_verify_handle readable steady
  cases ran : Database.verify C readers.handle with
  | mk r h =>
      cases r with
      | ok _ => exact iff_of_true rfl (wp_ok spec ran).2
      | error e => exact iff_of_false nofun (wp_error spec ran).2

theorem goes_iter : Goes C f view base layout (perform C .iter) readers := by
  have live := live_new readable steady.verifies
  unfold perform
  refine wp_bind (wp_zoom (Database.wp_ensureAvailable (fun _ => wp_bind (wp_state (wp_modify ?_))) ?_))
  · rw [Database.iterRaw, steady.shown, steady.length]
    exact steady.addIterator rfl live
  · exact fun refused => absurd refused steady.available

theorem goes_snapshotIter (i : Nat) :
    Goes C f view base layout (perform C (.snapshotIter i)) readers := by
  have live := live_new readable steady.verifies
  unfold perform
  refine wp_bind (wp_state ?_)
  split
  · exact wp_pure steady
  · rename_i snapshot found
    obtain ⟨shown, length⟩ := steady.snapshots snapshot (List.mem_of_getElem? found)
    rw [Snapshot.entries, shown, length]
    exact wp_modify (steady.addIterator rfl live)

theorem goes_next (i : Nat) : Goes C f view base layout (perform C (.next i)) readers := by
  unfold perform
  refine wp_bind (wp_state ?_)
  split
  · exact wp_pure steady
  · rename_i viewed entries found
    obtain ⟨rfl, based, n, live⟩ := steady.iterators _ (List.mem_of_getElem? found)
    rw [steady.file]
    refine wp_verifying_bind (wp_next readable steady.verifies live based) ?_
    rintro ⟨_, entries'⟩ v ⟨verifies, based', m, live', -⟩
    have steady' := steady.verified verifies
    refine wp_modify { steady' with iterators := ?_ }
    intro iterator member
    rcases List.mem_or_eq_of_mem_set member with old | rfl
    · exact steady'.iterators iterator old
    · exact ⟨rfl, based', m, live'⟩

theorem goes_drain (i : Nat) : Goes C f view base layout (perform C (.drain i)) readers := by
  unfold perform
  refine wp_bind (wp_state ?_)
  split
  · exact wp_pure steady
  · rename_i viewed entries found
    obtain ⟨rfl, based, n, live⟩ := steady.iterators _ (List.mem_of_getElem? found)
    rw [steady.file]
    refine wp_bind (wp_verifying_bind
      (wp_drain_any readable steady.verifies live.bound based le_rfl) ?_)
    intro _ v verifies
    have steady' := steady.verified verifies
    refine wp_pure (wp_modify { steady' with iterators := ?_ })
    exact fun iterator member => steady'.iterators iterator (List.mem_of_mem_eraseIdx member)

/-- Every call returns or ends in an error, and leaves the readers steady. -/
theorem wp_perform (call : ReadCall) : Goes C f view base layout (perform C call) readers := by
  cases call with
  | get key => exact goes_discard (goes_onHandle (goes_get readable steady key))
  | containsKey key =>
      refine goes_discard (goes_onHandle (wp_bind (wp_mono (goes_get readable steady key) ?_ ?_)))
      · exact fun _ _ steady => wp_pure steady
      · exact fun _ _ => id
  | len => exact goes_discard (goes_onHandle (goes_len readable steady))
  | isEmpty =>
      refine goes_discard (goes_onHandle (wp_bind (wp_mono (goes_len readable steady) ?_ ?_)))
      · exact fun _ _ steady => wp_pure steady
      · exact fun _ _ => id
  | verify => exact goes_onHandle (goes_verify readable steady)
  | iter => exact goes_iter readable steady
  | snapshot => exact goes_snapshot steady
  | snapshotGet i key =>
      show Goes C f view base layout
        (onSnapshot i fun file snapshot => snapshot.get C file key) readers
      refine goes_onSnapshot steady i fun snapshot shown _ v verifies => ?_
      rw [Snapshot.get, shown]
      exact readable.wp_get verifies key
  | snapshotContainsKey i key =>
      show Goes C f view base layout
        (onSnapshot i fun file snapshot => snapshot.containsKey C file key) readers
      refine goes_onSnapshot steady i fun snapshot shown _ v verifies => ?_
      rw [Snapshot.containsKey, Snapshot.get, shown]
      refine wp_bind (wp_mono (readable.wp_get verifies key) ?_ fun _ _ => id)
      exact fun _ _ post => wp_pure post
  | snapshotIter i => exact goes_snapshotIter readable steady i
  | snapshotLen i =>
      refine goes_onSnapshot steady i fun snapshot shown length v verifies => ?_
      unfold Snapshot.len Snapshot.entries
      rw [shown, length]
      exact wp_bind (wp_state (wp_tryCount_any readable verifies (live_new readable verifies) rfl
        le_rfl 0))
  | snapshotIsEmpty i =>
      refine goes_onSnapshot steady i fun snapshot shown length v verifies => ?_
      unfold Snapshot.isEmpty Snapshot.entries
      rw [shown, length]
      refine wp_bind (wp_state (wp_bind (wp_mono (wp_next readable verifies
        (live_new readable verifies) rfl) ?_ fun _ _ => False.elim)))
      rintro ⟨found, _⟩ v' ⟨verifies', -⟩
      rcases found with _ | failure | _
      · exact wp_pure verifies'
      · exact wp_stop ⟨verifies', failure, rfl⟩
      · exact wp_pure verifies'
  | next i => exact goes_next readable steady i
  | drain i => exact goes_drain readable steady i

/-- The run: all calls, one after another. -/
theorem Reached.goes_on {now : Readers} (reached : Reached C readers now) :
    Steady C f view base layout now := by
  induction reached with
  | start => exact steady
  | step call _ ih =>
      have goes := wp_perform readable ih call
      unfold Goes wp at goes
      split at goes
      · rename_i ran
        rw [ran]
        exact goes
      · rename_i ran
        rw [ran]
        exact goes.1

end Calls

end Readers

end Lkv
