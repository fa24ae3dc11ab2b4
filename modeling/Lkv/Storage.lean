/-
# Lkv.Storage — the file behind a database handle

`Disk` is a database file as one handle uses it: the file, the cursor, the
unflushed bytes of the `BufWriter` that currently wraps it, the effects issued
so far, and what the environment will do to the next fallible calls.  Each call
takes one `Fault` from that list; an exhausted list means no further failure.
A failing write has applied a prefix of its bytes, every other failing call has
done nothing.

A mapping (`BaseBytes.mapped`) is a range of the file, read through the file as
it is when the mapping is used: mapped pages show later writes.
-/
import Lkv.Basic
import Lkv.Theory.Effect

namespace Lkv

open Lkv.Theory

set_option autoImplicit false

inductive Fault where
  | pass
  | fail (applied : Nat) (error : IoError)
  deriving DecidableEq

structure Disk where
  file : File
  position : Nat
  buffer : Bytes
  trace : List Effect
  faults : List Fault

namespace Disk

/-- A file just opened, with the failures to come. -/
def ofFile (file : File) (faults : List Fault) : Disk := ⟨file, 0, [], [], faults⟩

/-- No call fails from here on. -/
def Quiet (d : Disk) : Prop := ∀ fault ∈ d.faults, fault = .pass

/-- None of the calls made between `d` and `d'` failed. -/
def Passed (d d' : Disk) : Prop :=
  ∃ n, d'.faults = d.faults.drop n ∧ ∀ fault ∈ d.faults.take n, fault = .pass

/-- How a call fails: because a failure was due, and with an error. -/
def Failed (d : Disk) (e : Stop) : Prop := ¬d.Quiet ∧ ∃ error, e = .err error

def issue (d : Disk) (e : Effect) : Disk :=
  { d with file := e.apply d.file, trace := d.trace ++ [e] }

/-- The failures left after one call. -/
def tick (d : Disk) : Disk := { d with faults := d.faults.tail }

/-- Nothing issued yet, and these failures to come. -/
def afresh (faults : List Fault) (d : Disk) : Disk := { d with trace := [], faults := faults }

end Disk

abbrev Io (α : Type) := Prog Disk Stop α

namespace Io

/-! ## Calls -/

/-- Whether this call fails, and after how much of its work. -/
def nextFault : Io (Option (Nat × IoError)) := fun d =>
  match d.faults with
  | .fail applied error :: _ => (.ok (some (applied, error)), d.tick)
  | _ => (.ok none, d.tick)

/-- A call that fails without effect or does `act`. -/
def call {α : Type} (act : Io α) : Io α := do
  match ← nextFault with
  | some (_, error) => Prog.stop (.err (.ofIo error))
  | none => act

def seekStart (position : Nat) : Io Unit :=
  call (Prog.modify fun d => { d with position := position })

def seekEnd : Io Nat :=
  call do
    Prog.modify fun d => { d with position := d.file.len }
    return (← Prog.state).file.len

/-- `write_all` on the file itself.  Writing nothing makes no call. -/
def writeAll (bytes : Bytes) : Io Unit :=
  if bytes = [] then pure () else do
    match ← nextFault with
    | some (applied, error) =>
        Prog.modify fun d =>
          { d.issue (.write d.position (bytes.take applied)) with
            position := d.position + (bytes.take applied).length }
        Prog.stop (.err (.ofIo error))
    | none =>
        Prog.modify fun d =>
          { d.issue (.write d.position bytes) with position := d.position + bytes.length }

def readExact (count : Nat) : Io Bytes :=
  call do
    let d ← Prog.state
    if d.position + count ≤ d.file.len then
      Prog.modify fun d => { d with position := d.position + count }
      return d.file.slice d.position count
    else
      Prog.stop (.err (.ofIo ⟨.unexpectedEof, "failed to fill whole buffer"⟩))

/-- `metadata()?.len()`. -/
def len : Io Nat := call (return (← Prog.state).file.len)

def setLen (len : Nat) : Io Unit := call (Prog.modify fun d => d.issue (.setLen len))

def syncData : Io Unit := call (Prog.modify fun d => d.issue .sync)

def syncAll : Io Unit := call (Prog.modify fun d => d.issue .sync)

/-- `try_reserve` and its kind: an allocation whose failure is reported as `error`. -/
def reserve (error : Error) : Io Unit := do
  match ← nextFault with
  | some _ => Prog.stop (.err error)
  | none => pure ()

/-! ## Mappings -/

end Io

/-- Immutable bytes behind an installed Base or Overlay. -/
inductive BaseBytes where
  | mapped (offset size : Nat)
  | memory (bytes : Bytes)
  deriving DecidableEq

namespace BaseBytes

/-- The bytes read through a mapping of `file` now. -/
def deref (file : File) : BaseBytes → Bytes
  | .mapped offset size => file.slice offset size
  | .memory bytes => bytes

end BaseBytes

namespace Io

/-- `segment::map`. -/
def map (offset size : Nat) : Io BaseBytes := do
  if size = 0 then
    Prog.stop (.err (.fromIo .invalidData "cannot map an empty segment"))
  else
    let stop ← Prog.lift (orFail (checkedAdd offset size)
      (.invalidBase "segment range overflows file offsets"))
    if stop > (← len) then
      Prog.stop (.err (.invalidBase "segment extends beyond the database file"))
    else
      call (pure (.mapped offset size))

/-! ## `BufWriter` -/

/-- `flush_buf`: on failure the unwritten bytes stay in the buffer. -/
def flushBuf : Io Unit := do
  if (← Prog.state).buffer = [] then pure () else
    match ← nextFault with
    | some (applied, error) =>
        Prog.modify fun d =>
          { d.issue (.write d.position (d.buffer.take applied)) with
            position := d.position + (d.buffer.take applied).length
            buffer := d.buffer.drop applied }
        Prog.stop (.err (.ofIo error))
    | none =>
        Prog.modify fun d =>
          { d.issue (.write d.position d.buffer) with
            position := d.position + d.buffer.length
            buffer := [] }

/-- `BufWriter::write_all`: bytes that fit are buffered, a full buffer is
flushed first, and what is too long for the buffer is written past it. -/
def bufWrite (capacity : Nat) (bytes : Bytes) : Io Unit := do
  let spare := capacity - (← Prog.state).buffer.length
  if bytes.length < spare then
    Prog.modify fun d => { d with buffer := d.buffer ++ bytes }
  else do
    Prog.onlyIf (spare < bytes.length) flushBuf
    if capacity ≤ bytes.length then writeAll bytes
    else Prog.modify fun d => { d with buffer := d.buffer ++ bytes }

/-- Dropping a `BufWriter` flushes it once more and ignores a failure. -/
def dropWriter (d : Disk) : Disk := { (flushBuf d).2 with buffer := [] }

/-- Run `body` with a fresh `BufWriter` around the file, dropped at its end. -/
def withBufWriter {α : Type} (body : Io α) : Io α := fun d =>
  match body { d with buffer := [] } with
  | (r, d') => (r, dropWriter d')

end Io

/-! ## What the calls establish

Each rule gives the state a call leaves when it goes through and says that it
fails only when a failure was due (`¬d.Quiet`). -/

namespace Disk

variable {d d' d'' : Disk}

/-- Between `d` and `d'` exactly these effects were issued. -/
structure Issued (effects : List Effect) (d d' : Disk) : Prop where
  file : d'.file = Effect.applyAll d.file effects
  trace : d'.trace = d.trace ++ effects
  quiet : d.Quiet → d'.Quiet

theorem Issued.refl (d : Disk) : Issued [] d d := ⟨rfl, by simp, id⟩

theorem Issued.trans {first second : List Effect} (one : Issued first d d')
    (two : Issued second d' d'') : Issued (first ++ second) d d'' where
  file := by rw [two.file, one.file, Effect.applyAll_append]
  trace := by rw [two.trace, one.trace, List.append_assoc]
  quiet := two.quiet ∘ one.quiet

theorem Issued.kept (kept : Issued [] d d') : d'.file = d.file := kept.file

theorem Issued.failed {effects : List Effect} {e : Stop} (issued : Issued effects d d')
    (failed : d'.Failed e) : d.Failed e :=
  ⟨fun quiet => failed.1 (issued.quiet quiet), failed.2⟩

/-- Between `d` and `d'` only bytes of `[lo, hi)` were written, and without a failure
no write was empty. -/
def Touched (lo hi : Nat) (d d' : Disk) : Prop :=
  ∃ effects, Issued effects d d' ∧ (∀ e ∈ effects, e.WritesWithin lo hi) ∧
    (d.Quiet → ∀ e ∈ effects, e.Solid)

theorem Issued.touched {lo hi : Nat} (kept : Issued [] d d') : Touched lo hi d d' :=
  ⟨[], kept, nofun, nofun⟩

theorem Touched.trans {lo hi : Nat} (one : Touched lo hi d d') (two : Touched lo hi d' d'') :
    Touched lo hi d d'' := by
  obtain ⟨first, issued1, within1, solid1⟩ := one
  obtain ⟨second, issued2, within2, solid2⟩ := two
  refine ⟨first ++ second, issued1.trans issued2, ?_, fun quiet => ?_⟩
  · exact fun e member => (List.mem_append.mp member).elim (within1 e) (within2 e)
  · exact fun e member => (List.mem_append.mp member).elim (solid1 quiet e)
      (solid2 (issued1.quiet quiet) e)

theorem Touched.mono {lo hi lo' hi' : Nat} (touched : Touched lo hi d d') (below : lo' ≤ lo)
    (above : hi ≤ hi') : Touched lo' hi' d d' := by
  obtain ⟨effects, issued, within, solid⟩ := touched
  exact ⟨effects, issued, fun e member => (within e member).mono below above, solid⟩

theorem Touched.quiet {lo hi : Nat} (touched : Touched lo hi d d') (quiet : d.Quiet) : d'.Quiet :=
  touched.choose_spec.1.quiet quiet

theorem Touched.failed {lo hi : Nat} {e : Stop} (touched : Touched lo hi d d')
    (failed : d'.Failed e) : d.Failed e :=
  touched.choose_spec.1.failed failed

theorem Touched.agrees {lo hi : Nat} (touched : Touched lo hi d d') :
    File.AgreesOutside lo hi d.file d'.file := by
  obtain ⟨effects, issued, within, _⟩ := touched
  rw [issued.file]
  exact Effect.applyAll_agrees within d.file

/-- Wherever what was issued between `d` and `d'` is cut short, the file has the property. -/
def Keeps (P : File → Prop) (d d' : Disk) : Prop :=
  ∃ effects, Issued effects d d' ∧ Effect.Survives P d.file effects

theorem Issued.keeps {P : File → Prop} (kept : Issued [] d d') (now : P d.file) : Keeps P d d' :=
  ⟨[], kept, Effect.survives_nil now⟩

theorem Keeps.now {P : File → Prop} (keeps : Keeps P d d') : P d'.file := by
  obtain ⟨effects, issued, survives⟩ := keeps
  rw [issued.file]
  exact survives.final

theorem Keeps.crash {P : File → Prop} {faults : List Fault} (keeps : Keeps P (d.afresh faults) d')
    (k n : Nat) : P (Effect.crashImage d.file d'.trace k n) := by
  obtain ⟨effects, issued, survives⟩ := keeps
  have traced : d'.trace = effects := issued.trace
  rw [traced]
  exact survives k n

theorem Keeps.trans {P : File → Prop} (one : Keeps P d d') (two : Keeps P d' d'') :
    Keeps P d d'' := by
  obtain ⟨first, issued1, survives1⟩ := one
  obtain ⟨second, issued2, survives2⟩ := two
  exact ⟨first ++ second, issued1.trans issued2, survives1.append (issued1.file ▸ survives2)⟩

theorem quiet_tick (quiet : d.Quiet) : d.tick.Quiet := fun fault member =>
  quiet fault (List.mem_of_mem_tail member)

theorem issued_tick (d : Disk) : Issued [] d d.tick := ⟨rfl, by simp [tick], quiet_tick⟩

theorem issued_seek (d : Disk) (position : Nat) :
    Issued [] d { d.tick with position := position } :=
  ⟨rfl, by simp [tick], quiet_tick⟩

theorem issued_issue (d : Disk) (e : Effect) : Issued [e] d (d.tick.issue e) :=
  ⟨rfl, rfl, fun quiet => quiet_tick quiet⟩

theorem issued_write (d : Disk) (offset : Nat) (bytes : Bytes) (position : Nat) :
    Issued [.write offset bytes] d
      { d.tick.issue (.write offset bytes) with position := position } :=
  ⟨rfl, rfl, fun quiet => quiet_tick quiet⟩

theorem length_lt_issue (d : Disk) (e : Effect) : d.trace.length < (d.issue e).trace.length := by
  rw [issue, List.length_append]
  exact Nat.lt_succ_self _

@[simp] theorem ofFile_file (file : File) (faults : List Fault) :
    (ofFile file faults).file = file := rfl

@[simp] theorem ofFile_trace (file : File) (faults : List Fault) :
    (ofFile file faults).trace = [] := rfl

theorem quiet_afresh (d : Disk) : (d.afresh []).Quiet := List.forall_mem_nil _

theorem quiet_ofFile (file : File) : (ofFile file []).Quiet := by
  simp [Quiet, ofFile]

end Disk

namespace Io

open Lkv.Theory.Prog

variable {α : Type} {d : Disk} {Q : α → Disk → Prop} {E : Stop → Disk → Prop}

theorem wp_nextFault {Q : Option (Nat × IoError) → Disk → Prop} (ok : Q none d.tick)
    (failed : ∀ applied error, ¬d.Quiet → Q (some (applied, error)) d.tick) :
    wp nextFault Q E d := by
  unfold wp nextFault
  split
  · rename_i ran
    split at ran
    · rename_i applied error rest due
      cases ran
      refine failed applied error fun quiet => ?_
      cases quiet (.fail applied error) (by simp [due])
    · cases ran
      exact ok
  · rename_i ran
    split at ran <;> cases ran

theorem wp_call {act : Io α} (ok : wp act Q E d.tick)
    (failed : ∀ error, ¬d.Quiet → E (.err error) d.tick) : wp (call act) Q E d := by
  refine wp_bind (wp_nextFault ok fun applied error due => ?_)
  exact wp_stop (failed _ due)

theorem wp_seekStart {Q : Unit → Disk → Prop} {position : Nat}
    (ok : Q () { d.tick with position := position })
    (failed : ∀ error, ¬d.Quiet → E (.err error) d.tick) : wp (seekStart position) Q E d :=
  wp_call (wp_modify ok) failed

theorem wp_seekEnd {Q : Nat → Disk → Prop}
    (ok : Q d.file.len { d.tick with position := d.file.len })
    (failed : ∀ error, ¬d.Quiet → E (.err error) d.tick) : wp seekEnd Q E d :=
  wp_call (wp_bind (wp_modify (wp_bind (wp_state ok)))) failed

theorem wp_writeAll {Q : Unit → Disk → Prop} {bytes : Bytes} (some : bytes ≠ [])
    (ok : Q () { d.tick.issue (.write d.position bytes) with
      position := d.position + bytes.length })
    (failed : ∀ error applied, ¬d.Quiet →
      E (.err error) { d.tick.issue (.write d.position (bytes.take applied)) with
        position := d.position + (bytes.take applied).length }) :
    wp (writeAll bytes) Q E d := by
  unfold writeAll
  rw [if_neg some]
  refine wp_bind (wp_nextFault (wp_modify ok) fun applied error due => ?_)
  exact wp_bind (wp_modify (wp_stop (failed _ applied due)))

theorem wp_readExact {Q : Bytes → Disk → Prop} {count : Nat}
    (ok : d.position + count ≤ d.file.len →
      Q (d.file.slice d.position count) { d.tick with position := d.position + count })
    (eof : d.file.len < d.position + count →
      E (.err (.ofIo ⟨.unexpectedEof, "failed to fill whole buffer"⟩)) d.tick)
    (failed : ∀ error, ¬d.Quiet → E (.err error) d.tick) : wp (readExact count) Q E d := by
  refine wp_call (wp_bind (wp_state ?_)) failed
  split
  · rename_i inside
    exact wp_bind (wp_modify (ok inside))
  · rename_i outside
    exact wp_stop (eof (by simpa [Disk.tick] using outside))

theorem wp_len {Q : Nat → Disk → Prop} (ok : Q d.file.len d.tick)
    (failed : ∀ error, ¬d.Quiet → E (.err error) d.tick) : wp len Q E d :=
  wp_call (wp_bind (wp_state ok)) failed

theorem wp_setLen {Q : Unit → Disk → Prop} {n : Nat} (ok : Q () (d.tick.issue (.setLen n)))
    (failed : ∀ error, ¬d.Quiet → E (.err error) d.tick) : wp (setLen n) Q E d :=
  wp_call (wp_modify ok) failed

theorem wp_syncData {Q : Unit → Disk → Prop} (ok : Q () (d.tick.issue .sync))
    (failed : ∀ error, ¬d.Quiet → E (.err error) d.tick) : wp syncData Q E d :=
  wp_call (wp_modify ok) failed

theorem wp_syncAll {Q : Unit → Disk → Prop} (ok : Q () (d.tick.issue .sync))
    (failed : ∀ error, ¬d.Quiet → E (.err error) d.tick) : wp syncAll Q E d :=
  wp_call (wp_modify ok) failed

theorem wp_reserve {Q : Unit → Disk → Prop} {error : Error} (ok : Q () d.tick)
    (failed : ¬d.Quiet → E (.err error) d.tick) : wp (reserve error) Q E d :=
  wp_bind (wp_nextFault (wp_pure ok) fun _ _ due => wp_stop (failed due))

/-- Mapping a range of the file reads it, and fails only when a call does. -/
theorem wp_map (d : Disk) {offset size : Nat} (some : size ≠ 0) (word : offset + size < 2 ^ 64)
    (inside : offset + size ≤ d.file.len) :
    wp (map offset size) (fun mapping d' => mapping = .mapped offset size ∧ Disk.Issued [] d d')
      (fun e d' => d.Failed e ∧ Disk.Issued [] d d') d := by
  unfold map
  rw [if_neg some, checkedAdd_some word]
  refine wp_bind (wp_lift ?_ nofun)
  rintro _ ⟨⟩
  have once := Disk.issued_tick d
  refine wp_bind (wp_len ?_ fun error due => ⟨⟨due, error, rfl⟩, once⟩)
  rw [if_neg (Nat.not_lt.mpr inside)]
  have twice := once.trans (Disk.issued_tick _)
  exact wp_call (wp_pure ⟨rfl, twice⟩) fun error due =>
    ⟨once.failed ⟨due, error, rfl⟩, twice⟩

/-- What is left of a write that was cut short, or never started. -/
def Torn (offset : Nat) (bytes : Bytes) (effects : List Effect) : Prop :=
  effects = [] ∨ ∃ n, effects = [.write offset (bytes.take n)]

/-- A seek and a write: all of it, or a prefix when a failure was due. -/
theorem wp_writeAt (d : Disk) (offset : Nat) {bytes : Bytes} (some : bytes ≠ []) :
    wp (do seekStart offset; writeAll bytes)
      (fun _ d' => Disk.Issued [.write offset bytes] d d')
      (fun e d' => d.Failed e ∧ ∃ effects, Torn offset bytes effects ∧ Disk.Issued effects d d') d := by
  refine wp_bind (wp_seekStart ?_ fun error due => ⟨⟨due, error, rfl⟩, [], .inl rfl, Disk.issued_tick d⟩)
  have seeked := Disk.issued_seek d offset
  refine wp_writeAll some (seeked.trans (Disk.issued_write _ _ _ _)) fun error applied due => ?_
  exact ⟨⟨fun quiet => due (seeked.quiet quiet), error, rfl⟩, _, .inr ⟨applied, rfl⟩,
    seeked.trans (Disk.issued_write _ _ _ _)⟩

/-- A seek, a write, and then going on. -/
theorem wp_writeAt_bind {d : Disk} {offset : Nat} {bytes : Bytes} {k : Unit → Io α} (some : bytes ≠ [])
    (next : ∀ d', Disk.Issued [.write offset bytes] d d' → wp (k ()) Q E d')
    (torn : ∀ e d', d.Failed e → (∃ effects, Torn offset bytes effects ∧ Disk.Issued effects d d') →
      E e d') :
    wp (seekStart offset >>= fun _ => writeAll bytes >>= k) Q E d := by
  refine wp_bind (wp_seekStart ?_ fun error due =>
    torn _ _ ⟨due, error, rfl⟩ ⟨[], .inl rfl, Disk.issued_tick d⟩)
  have seeked := Disk.issued_seek d offset
  refine wp_bind (wp_writeAll some (next _ (seeked.trans (Disk.issued_write _ _ _ _)))
    fun error applied due => torn _ _ ⟨fun quiet => due (seeked.quiet quiet), error, rfl⟩
      ⟨_, .inr ⟨applied, rfl⟩, seeked.trans (Disk.issued_write _ _ _ _)⟩)

theorem Torn.touched {d d' : Disk} {offset : Nat} {bytes : Bytes} {effects : List Effect} {e : Stop}
    (torn : Torn offset bytes effects) (failed : d.Failed e) (issued : Disk.Issued effects d d') :
    Disk.Touched offset (offset + bytes.length) d d' := by
  refine ⟨effects, issued, fun e member => ?_, fun quiet => absurd quiet failed.1⟩
  rcases torn with rfl | ⟨n, rfl⟩
  · cases member
  · cases List.mem_singleton.mp member
    simp only [Effect.WritesWithin, List.length_take]
    omega

/-- A property of every front part of a write survives one that was cut short. -/
theorem Torn.survives {P : File → Prop} {f : File} {offset : Nat} {bytes : Bytes} {effects : List Effect}
    (torn : Torn offset bytes effects) (all : ∀ n, P (f.write offset (bytes.take n))) :
    Effect.Survives P f effects := by
  rcases torn with rfl | ⟨n, rfl⟩
  · have none := all 0
    rw [List.take_zero, File.write_nil] at none
    exact Effect.survives_nil none
  · refine Effect.survives_cons (fun k => ?_) (Effect.survives_nil (all n))
    show P (f.write offset ((bytes.take n).take k))
    rw [List.take_take]
    exact all _

end Io

end Lkv
