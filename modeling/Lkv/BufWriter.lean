/-
# Lkv.BufWriter — bytes on their way through a `BufWriter`

`Streaming d₀ start done d`: since the writer was put around the file in state
`d₀` at position `start`, the bytes `done` were given to it.  A front part of them
is in the file, the rest is in the buffer.  A failing call keeps this true of a
front part of what was to be written, and dropping the writer can only move
more of the buffer into the file.
-/
import Lkv.Storage

namespace Lkv

open Lkv.Theory Lkv.Theory.Prog

set_option autoImplicit false

namespace Io

/-- `flushed` was written in `chunks`; what is missing from `done` is in the buffer. -/
structure StreamedBy (chunks : List Bytes) (d₀ : Disk) (start : Nat) (done : Bytes) (d : Disk) :
    Prop where
  whole : done = chunks.flatten ++ d.buffer
  issued : Disk.Issued (Effect.chunked start chunks) d₀ d
  position : d.position = start + chunks.flatten.length
  solid : d₀.Quiet → ∀ chunk ∈ chunks, chunk ≠ []

def Streaming (d₀ : Disk) (start : Nat) (done : Bytes) (d : Disk) : Prop :=
  ∃ chunks, StreamedBy chunks d₀ start done d

/-- What a failing call leaves: a front part of `wanted` is on its way, and something was
tried on the file. -/
structure Broken (d₀ : Disk) (start : Nat) (wanted : Bytes) (e : Stop) (d : Disk) : Prop where
  failed : d₀.Failed e
  begun : d₀.trace.length < d.trace.length
  streaming : ∃ done, done <+: wanted ∧ Streaming d₀ start done d

section Stream

variable {d₀ d : Disk} {start : Nat} {done bytes wanted : Bytes} {chunks : List Bytes} {stop : Stop}

theorem streaming_start (d₀ : Disk) :
    Streaming d₀ d₀.position [] { d₀ with buffer := [] } :=
  ⟨[], rfl, ⟨rfl, by simp [Effect.chunked], id⟩, rfl, nofun⟩

theorem StreamedBy.file (streamed : StreamedBy chunks d₀ start done d) :
    d.file = d₀.file.write start chunks.flatten := by
  rw [streamed.issued.file, Effect.applyAll_chunked]

theorem Broken.mono (broken : Broken d₀ start bytes stop d) (front : bytes <+: wanted) :
    Broken d₀ start wanted stop d := by
  obtain ⟨due, begun, done, isFront, streaming⟩ := broken
  exact ⟨due, begun, done, isFront.trans front, streaming⟩

theorem StreamedBy.length_le (streamed : StreamedBy chunks d₀ start done d) :
    d₀.trace.length ≤ d.trace.length := by
  rw [streamed.issued.trace, List.length_append]
  exact Nat.le_add_right _ _

/-- Bytes written at the position follow those already written. -/
theorem StreamedBy.write (streamed : StreamedBy chunks d₀ start done d) (bytes rest : Bytes)
    (real : d₀.Quiet → bytes ≠ []) :
    StreamedBy (chunks ++ [bytes]) d₀ start (chunks.flatten ++ bytes ++ rest)
      { d.tick.issue (.write d.position bytes) with
        position := d.position + bytes.length, buffer := rest } where
  whole := by simp
  issued := by
    rw [Effect.chunked_append, ← streamed.position]
    exact streamed.issued.trans ⟨rfl, rfl, fun quiet => Disk.quiet_tick quiet⟩
  position := by
    rw [List.flatten_append, List.length_append, streamed.position]
    simp only [List.flatten_singleton]
    omega
  solid quiet chunk member := by
    rcases List.mem_append.mp member with old | new
    · exact streamed.solid quiet chunk old
    · cases List.mem_singleton.mp new
      exact real quiet

theorem wp_flushBuf (streaming : Streaming d₀ start done d) :
    wp flushBuf (fun _ d' => Streaming d₀ start done d' ∧ d'.buffer = []) (Broken d₀ start done) d := by
  obtain ⟨chunks, streamed⟩ := streaming
  refine wp_bind (wp_state ?_)
  split
  · rename_i empty
    exact wp_pure ⟨⟨chunks, streamed⟩, empty⟩
  · rename_i some
    have split_done : ∀ n, done = chunks.flatten ++ d.buffer.take n ++ d.buffer.drop n := by
      intro n
      rw [List.append_assoc, List.take_append_drop, streamed.whole]
    have all := streamed.write d.buffer [] fun _ => some
    rw [List.append_nil, ← streamed.whole] at all
    refine wp_bind (wp_nextFault (wp_modify ⟨⟨_, all⟩, rfl⟩) fun applied error due => ?_)
    have due' : ¬d₀.Quiet := fun quiet => due (streamed.issued.quiet quiet)
    have part := streamed.write (d.buffer.take applied) (d.buffer.drop applied)
      fun quiet => absurd quiet due'
    rw [← split_done] at part
    refine wp_bind (wp_modify (wp_stop ⟨⟨due', _, rfl⟩, ?_, _, List.prefix_rfl, _, part⟩))
    exact lt_of_le_of_lt streamed.length_le (d.tick.length_lt_issue _)

/-- Bytes that only go to the buffer. -/
theorem Streaming.buffer (streaming : Streaming d₀ start done d) (bytes : Bytes) :
    Streaming d₀ start (done ++ bytes) { d with buffer := d.buffer ++ bytes } := by
  obtain ⟨chunks, streamed⟩ := streaming
  refine ⟨chunks, ?_, ⟨streamed.issued.file, streamed.issued.trace, streamed.issued.quiet⟩,
    streamed.position, streamed.solid⟩
  rw [streamed.whole, List.append_assoc]

/-- Bytes that bypass an empty buffer. -/
theorem wp_writeThrough (streaming : Streaming d₀ start done d) (empty : d.buffer = [])
    (some : bytes ≠ []) :
    wp (writeAll bytes) (fun _ d' => Streaming d₀ start (done ++ bytes) d')
      (Broken d₀ start (done ++ bytes)) d := by
  obtain ⟨chunks, streamed⟩ := streaming
  have whole : done = chunks.flatten := by rw [streamed.whole, empty, List.append_nil]
  have step : ∀ part : Bytes, (d₀.Quiet → part ≠ []) →
      Streaming d₀ start (done ++ part)
        { d.tick.issue (.write d.position part) with position := d.position + part.length } := by
    intro part real
    have := streamed.write part [] real
    refine ⟨_, ?_, ⟨this.issued.file, this.issued.trace, this.issued.quiet⟩, this.position,
      this.solid⟩
    change _ = _ ++ d.buffer
    rw [empty, whole]
    simp
  refine wp_writeAll some (step bytes fun _ => some) fun error applied due => ?_
  have due' : ¬d₀.Quiet := fun quiet => due (streamed.issued.quiet quiet)
  exact ⟨⟨due', error, rfl⟩, lt_of_le_of_lt streamed.length_le (d.tick.length_lt_issue _), _,
    (List.prefix_append_right_inj done).mpr (List.take_prefix applied bytes),
    step _ fun quiet => absurd quiet due'⟩

theorem wp_bufWrite {capacity : Nat} (streaming : Streaming d₀ start done d) (room : 0 < capacity) :
    wp (bufWrite capacity bytes) (fun _ d' => Streaming d₀ start (done ++ bytes) d')
      (Broken d₀ start (done ++ bytes)) d := by
  refine wp_bind (wp_state ?_)
  dsimp only
  split
  · exact wp_modify (streaming.buffer bytes)
  · rename_i full
    have flushed : wp (onlyIf (decide (capacity - d.buffer.length < bytes.length)) flushBuf)
        (fun _ d' => Streaming d₀ start done d' ∧ (capacity ≤ bytes.length → d'.buffer = []))
        (Broken d₀ start (done ++ bytes)) d := by
      refine wp_onlyIf (fun _ => wp_mono (wp_flushBuf streaming) ?_ ?_) fun stays => ⟨streaming, ?_⟩
      · rintro _ d' ⟨streaming', empty⟩
        exact ⟨streaming', fun _ => empty⟩
      · exact fun e d' broken => broken.mono (List.prefix_append done bytes)
      · intro large
        simp only [decide_eq_false_iff_not] at stays
        exact List.length_eq_zero_iff.mp (by omega)
    refine wp_bind (wp_mono flushed ?_ fun _ _ => id)
    rintro _ d' ⟨streaming', empty⟩
    split
    · rename_i large
      exact wp_writeThrough streaming' (empty large)
        (List.ne_nil_of_length_pos (by omega))
    · exact wp_modify (streaming'.buffer bytes)

/-- Writing `bytes` and then going on. -/
theorem wp_bufWrite_bind {α : Type} {capacity : Nat} {k : Unit → Io α} {Q : α → Disk → Prop}
    {E : Stop → Disk → Prop} (streaming : Streaming d₀ start done d) (room : 0 < capacity)
    (broken : ∀ e d', Broken d₀ start (done ++ bytes) e d' → E e d')
    (next : ∀ d', Streaming d₀ start (done ++ bytes) d' → wp (k ()) Q E d') :
    wp (bufWrite capacity bytes >>= k) Q E d :=
  wp_bind (wp_mono (wp_bufWrite streaming room) (fun _ d' streaming' => next d' streaming')
    fun e d' stopped => broken e d' stopped)

/-- What a finished stream leaves behind. -/
def Written (d₀ : Disk) (start : Nat) (bytes : Bytes) (d : Disk) : Prop :=
  ∃ chunks : List Bytes, chunks.flatten = bytes ∧
    Disk.Issued (Effect.chunked start chunks) d₀ d ∧ (d₀.Quiet → ∀ chunk ∈ chunks, chunk ≠ [])

theorem Written.file (written : Written d₀ start bytes d) : d.file = d₀.file.write start bytes := by
  obtain ⟨chunks, rfl, issued, _⟩ := written
  rw [issued.file, Effect.applyAll_chunked]

theorem Written.touched (written : Written d₀ start bytes d) :
    Disk.Touched start (start + bytes.length) d₀ d := by
  obtain ⟨chunks, rfl, issued, solid⟩ := written
  exact ⟨_, issued, Effect.chunked_within start chunks, fun quiet => Effect.chunked_solid (solid quiet)⟩

/-- A front part of a stream. -/
def Partly (d₀ : Disk) (start : Nat) (wanted : Bytes) (d : Disk) : Prop :=
  ∃ flushed, flushed <+: wanted ∧ Written d₀ start flushed d

theorem Partly.touched (partly : Partly d₀ start wanted d) :
    Disk.Touched start (start + wanted.length) d₀ d := by
  obtain ⟨flushed, front, written⟩ := partly
  have := front.length_le
  exact written.touched.mono le_rfl (by omega)

/-- What a broken stream leaves behind once the writer is dropped. -/
structure Stranded (d₀ : Disk) (start : Nat) (wanted : Bytes) (e : Stop) (d : Disk) : Prop where
  failed : d₀.Failed e
  begun : d₀.trace.length < d.trace.length
  partly : Partly d₀ start wanted d

/-- Dropping the writer leaves a front part of the stream in the file. -/
theorem Streaming.drop (streaming : Streaming d₀ start done d) (front : done <+: wanted) :
    Partly d₀ start wanted (dropWriter d) := by
  have after : ∃ done', done' <+: done ∧ Streaming d₀ start done' (flushBuf d).2 :=
    @wp_final _ _ _ _ _ (fun d' => ∃ done', done' <+: done ∧ Streaming d₀ start done' d')
      (wp_mono (wp_flushBuf streaming) (fun _ _ flushed => ⟨done, List.prefix_rfl, flushed.1⟩)
        fun _ _ broken => broken.streaming)
  obtain ⟨done', sooner, chunks, streamed⟩ := after
  have flushed : chunks.flatten <+: done' := ⟨_, streamed.whole.symm⟩
  exact ⟨_, (flushed.trans sooner).trans front, chunks, rfl,
    ⟨streamed.issued.file, streamed.issued.trace, streamed.issued.quiet⟩, streamed.solid⟩

theorem length_le_dropWriter (d : Disk) : d.trace.length ≤ (dropWriter d).trace.length := by
  refine wp_final (m := flushBuf) (P := fun d' => d.trace.length ≤ d'.trace.length) ?_
  refine wp_bind (wp_state ?_)
  split
  · exact wp_pure le_rfl
  · refine wp_bind (wp_nextFault (wp_modify (d.tick.length_lt_issue _).le) fun _ _ _ => ?_)
    exact wp_bind (wp_modify (wp_stop (d.tick.length_lt_issue _).le))

theorem dropWriter_flushed (empty : d.buffer = []) : dropWriter d = d := by
  unfold dropWriter flushBuf
  rw [bind_run, state_run]
  cases d
  cases empty
  rfl

/-- Pieces that fill the buffer at most, and none of which would fill it alone, stay there
together. -/
theorem wp_forM_bufWrite {capacity : Nat} (chunks : List Bytes)
    (small : ∀ chunk ∈ chunks, chunk.length < capacity)
    (fits : d.buffer.length + chunks.flatten.length ≤ capacity) :
    wp (chunks.forM (bufWrite capacity))
      (fun _ d' => d' = { d with buffer := d.buffer ++ chunks.flatten }) (fun _ _ => False) d := by
  induction chunks generalizing d with
  | nil =>
      refine wp_pure ?_
      rw [List.flatten_nil, List.append_nil]
  | cons chunk chunks ih =>
      rw [List.flatten_cons, List.length_append] at fits
      have buffered : wp (bufWrite capacity chunk) (fun _ d' => d' = { d with buffer := d.buffer ++ chunk })
          (fun _ _ => False) d := by
        refine wp_bind (wp_state ?_)
        dsimp only
        split
        · exact wp_modify rfl
        · -- the buffer is filled exactly, which does not flush it
          refine wp_bind (wp_onlyIf (fun full => ?_) fun _ => ?_)
          · have := of_decide_eq_true full
            omega
          · rw [if_neg (Nat.not_le.mpr (small chunk List.mem_cons_self))]
            exact wp_modify rfl
      refine wp_bind (wp_mono buffered ?_ fun _ _ => id)
      rintro _ _ rfl
      refine wp_mono (ih (fun _ member => small _ (List.mem_cons_of_mem _ member)) ?_) ?_ fun _ _ => id
      · rw [List.length_append]
        omega
      · rintro _ _ rfl
        rw [List.flatten_cons, List.append_assoc]

/-- A body that ends with a flush. -/
theorem wp_withBufWriter {α : Type} {body : Io α} {Q : α → Disk → Prop} {E : Stop → Disk → Prop}
    (runs : wp body (fun a d' => d'.buffer = [] ∧ Q a d') (fun e d' => E e (dropWriter d'))
      { d₀ with buffer := [] }) :
    wp (withBufWriter body) Q E d₀ := by
  unfold wp at runs ⊢
  unfold withBufWriter
  revert runs
  rcases body { d₀ with buffer := [] } with ⟨⟨e⟩ | ⟨a⟩, d'⟩
  · exact id
  · rintro ⟨empty, post⟩
    dsimp only
    rw [dropWriter_flushed empty]
    exact post

theorem Streaming.written (streaming : Streaming d₀ start bytes d) (empty : d.buffer = []) :
    Written d₀ start bytes d := by
  obtain ⟨chunks, streamed⟩ := streaming
  exact ⟨chunks, by rw [streamed.whole, empty, List.append_nil], streamed.issued, streamed.solid⟩

theorem Broken.stranded (broken : Broken d₀ start wanted stop d) :
    Stranded d₀ start wanted stop (dropWriter d) := by
  obtain ⟨failed, begun, done, front, streaming⟩ := broken
  exact ⟨failed, lt_of_lt_of_le begun (length_le_dropWriter d), streaming.drop front⟩

/-- What a writer streams into an empty file is what the file then holds. -/
theorem slice_withBufWriter {write : Io Unit}
    (streams : wp write (fun _ d => Streaming (Disk.ofFile File.empty []) 0 bytes d)
      (fun e _ => (Disk.ofFile File.empty []).Failed e) (Disk.ofFile File.empty [])) :
    let d := (withBufWriter (do write; flushBuf) (Disk.ofFile File.empty [])).2
    d.file.slice 0 d.file.len = bytes := by
  have spec : wp (withBufWriter (do write; flushBuf))
      (fun _ d => d.file = File.empty.write 0 bytes)
      (fun e _ => (Disk.ofFile File.empty []).Failed e) (Disk.ofFile File.empty []) := by
    refine wp_withBufWriter (wp_bind (wp_mono streams ?_ fun _ _ => id))
    intro _ d1 streaming
    refine wp_mono (wp_flushBuf streaming) ?_ fun _ _ stopped => stopped.1
    rintro _ d2 ⟨streaming, empty⟩
    exact ⟨empty, (streaming.written empty).file⟩
  obtain ⟨_, d, ran, file⟩ := wp_returns spec fun _ _ failed =>
    failed.1 (Disk.quiet_ofFile File.empty)
  dsimp only
  rw [ran, file, File.slice_write_empty]

end Stream

end Io

end Lkv
