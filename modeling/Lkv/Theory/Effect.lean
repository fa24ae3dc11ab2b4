/-
# Lkv.Theory.Effect — what a program does to a file, in order

The calls that change a file, and the syncs between them, are recorded as a
list of effects.  `applyAll` replays such a list.  Three readings of one list:

* all of it, in order: the file after the program ran;
* a prefix whose last write is cut short (`crashImage`): the file after a crash
  of the process, when writes reach the file in order;
* everything up to a completed sync and then any sublist of what was issued
  since (`Remains`): the file after power was lost.

`WritesWithin lo hi` and `AgreesOutside lo hi` are the frame conditions: effects
that write only inside a range leave every other byte of the file alone, also
when they are cut short or partly lost.
-/
import Lkv.Theory.File

namespace Lkv.Theory

set_option autoImplicit false

inductive Effect where
  | write (offset : Nat) (bytes : Bytes)
  | setLen (len : Nat)
  | sync
  deriving DecidableEq

namespace Effect

def apply (f : File) : Effect → File
  | .write offset bytes => f.write offset bytes
  | .setLen len => f.setLen len
  | .sync => f

/-- The part of an interrupted effect that took place: a prefix of a write, and
nothing of a truncation. -/
def cut (n : Nat) : Effect → Effect
  | .write offset bytes => .write offset (bytes.take n)
  | .setLen _ => .sync
  | .sync => .sync

def applyAll (f : File) (effects : List Effect) : File :=
  effects.foldl apply f

@[simp] theorem applyAll_nil (f : File) : applyAll f [] = f := rfl

@[simp] theorem applyAll_cons (f : File) (e : Effect) (effects : List Effect) :
    applyAll f (e :: effects) = applyAll (e.apply f) effects := rfl

theorem applyAll_append (f : File) (as bs : List Effect) :
    applyAll f (as ++ bs) = applyAll (applyAll f as) bs := by
  simp [applyAll]

/-- The file after a crash inside effect `k`, of which `n` bytes were written. -/
def crashImage (f : File) (effects : List Effect) (k n : Nat) : File :=
  applyAll f (effects.take k ++ ((effects.drop k).take 1).map (cut n))

/-- What is left of effects when power is lost among them: those that a completed sync made
durable, and some of those issued since. -/
inductive Remains (effects : List Effect) : List Effect → List Effect → Prop
  | lost {durable pending kept rest : List Effect}
      (issued : effects = durable ++ (pending ++ rest))
      (synced : durable = [] ∨ durable.getLast? = some .sync)
      (unsynced : .sync ∉ pending)
      (subset : kept.Sublist pending) : Remains effects durable kept

/-! ## Frame conditions -/

/-- A write inside `[lo, hi)`. -/
def WritesWithin (lo hi : Nat) : Effect → Prop
  | .write offset bytes => lo ≤ offset ∧ offset + bytes.length ≤ hi
  | .setLen _ => False
  | .sync => True

/-- An effect for which a file of `limit` bytes is long enough. -/
def Below (limit : Nat) : Effect → Prop
  | .write offset bytes => offset + bytes.length ≤ limit
  | .setLen len => len ≤ limit
  | .sync => True

/-- A write of at least one byte. -/
def Solid : Effect → Prop
  | .write _ bytes => bytes ≠ []
  | _ => False

theorem WritesWithin.cut {lo hi : Nat} {e : Effect} (within : e.WritesWithin lo hi) (n : Nat) :
    (e.cut n).WritesWithin lo hi := by
  cases e with
  | write offset bytes =>
      simp only [Effect.cut, WritesWithin, List.length_take] at within ⊢
      omega
  | setLen len => exact within.elim
  | sync => trivial

theorem WritesWithin.mono {lo hi lo' hi' : Nat} {e : Effect} (within : e.WritesWithin lo hi)
    (below : lo' ≤ lo) (above : hi ≤ hi') : e.WritesWithin lo' hi' := by
  cases e with
  | write offset bytes =>
      simp only [WritesWithin] at within ⊢
      omega
  | setLen len => exact within.elim
  | sync => trivial

theorem WritesWithin.below {lo hi limit : Nat} {e : Effect} (within : e.WritesWithin lo hi)
    (room : hi ≤ limit) : e.Below limit := by
  cases e with
  | write offset bytes => exact within.2.trans room
  | setLen len => exact within.elim
  | sync => trivial

theorem Below.cut {limit : Nat} {e : Effect} (below : e.Below limit) (n : Nat) :
    (e.cut n).Below limit := by
  cases e with
  | write offset bytes =>
      simp only [Effect.cut, Below, List.length_take] at below ⊢
      omega
  | setLen len => trivial
  | sync => trivial

theorem Below.mono {limit limit' : Nat} {e : Effect} (below : e.Below limit) (le : limit ≤ limit') :
    e.Below limit' := by
  cases e with
  | write offset bytes => exact Nat.le_trans below le
  | setLen len => exact Nat.le_trans below le
  | sync => trivial

theorem Below.len_le {limit : Nat} {e : Effect} (below : e.Below limit) {f : File}
    (short : f.len ≤ limit) : (e.apply f).len ≤ limit := by
  cases e with
  | write offset bytes => exact (f.write_len_le offset bytes).trans (max_le short below)
  | setLen len => exact below
  | sync => exact short

end Effect

namespace File

/-- `g` is `f` with only bytes of `[lo, hi)` changed, and not shorter. -/
structure AgreesOutside (lo hi : Nat) (f g : File) : Prop where
  byte : ∀ i, i < lo ∨ hi ≤ i → g.byte i = f.byte i
  le_len : f.len ≤ g.len
  len_le : g.len ≤ max f.len hi

namespace AgreesOutside

variable {lo hi : Nat} {f g h : File}

theorem refl (lo hi : Nat) (f : File) : AgreesOutside lo hi f f :=
  ⟨fun _ _ => rfl, le_rfl, le_max_left _ _⟩

theorem trans (first : AgreesOutside lo hi f g) (second : AgreesOutside lo hi g h) :
    AgreesOutside lo hi f h where
  byte i outside := (second.byte i outside).trans (first.byte i outside)
  le_len := first.le_len.trans second.le_len
  len_le := by
    have a := first.len_le
    have b := second.len_le
    omega

theorem mono {lo' hi' : Nat} (agrees : AgreesOutside lo hi f g) (below : lo' ≤ lo)
    (above : hi ≤ hi') : AgreesOutside lo' hi' f g where
  byte i outside := agrees.byte i (by omega)
  le_len := agrees.le_len
  len_le := by
    have := agrees.len_le
    omega

theorem write {off : Nat} {bs : Bytes} (f : File) (above : lo ≤ off)
    (below : off + bs.length ≤ hi) : AgreesOutside lo hi f (f.write off bs) where
  byte i outside := f.write_byte_of_outside (by omega)
  le_len := f.le_write_len off bs
  len_le := by
    have := f.write_len_le off bs
    omega

theorem holds (agrees : AgreesOutside lo hi f g) {off : Nat} {bs : Bytes} (held : f.Holds off bs)
    (apart : off + bs.length ≤ lo ∨ hi ≤ off) : g.Holds off bs :=
  held.congr fun i above below => agrees.byte i (by omega)

theorem slice (agrees : AgreesOutside lo hi f g) {off n : Nat} (apart : off + n ≤ lo ∨ hi ≤ off) :
    g.slice off n = f.slice off n :=
  slice_congr fun i above below => agrees.byte i (by omega)

end AgreesOutside

end File

namespace Effect

theorem WritesWithin.agrees {lo hi : Nat} {e : Effect} (within : e.WritesWithin lo hi) (f : File) :
    File.AgreesOutside lo hi f (e.apply f) := by
  cases e with
  | write offset bytes => exact File.AgreesOutside.write f within.1 within.2
  | setLen len => exact within.elim
  | sync => exact File.AgreesOutside.refl lo hi f

theorem applyAll_agrees {lo hi : Nat} {effects : List Effect}
    (within : ∀ e ∈ effects, e.WritesWithin lo hi) (f : File) :
    File.AgreesOutside lo hi f (applyAll f effects) := by
  induction effects generalizing f with
  | nil => exact File.AgreesOutside.refl lo hi f
  | cons e effects ih =>
      exact ((within e (by simp)).agrees f).trans
        (ih (fun e' member => within e' (by simp [member])) (e.apply f))

/-! ## Writing in chunks -/

/-- A file only gets shorter by a truncation. -/
theorem le_applyAll_len {lo : Nat} {f : File} {effects : List Effect}
    (floor : ∀ n, .setLen n ∈ effects → lo ≤ n) (long : lo ≤ f.len) : lo ≤ (applyAll f effects).len := by
  induction effects generalizing f with
  | nil => exact long
  | cons e effects ih =>
      rw [applyAll_cons]
      refine ih (fun n member => floor n (List.mem_cons_of_mem _ member)) ?_
      cases e with
      | write offset bytes => exact long.trans (f.le_write_len offset bytes)
      | setLen n => exact floor n List.mem_cons_self
      | sync => exact long

/-- Consecutive writes, the first at `offset`. -/
def chunked : Nat → List Bytes → List Effect
  | _, [] => []
  | offset, chunk :: rest => .write offset chunk :: chunked (offset + chunk.length) rest

theorem chunked_append (offset : Nat) (as bs : List Bytes) :
    chunked offset (as ++ bs) = chunked offset as ++ chunked (offset + as.flatten.length) bs := by
  induction as generalizing offset with
  | nil => rfl
  | cons a as ih =>
      rw [List.cons_append, chunked, ih, chunked, List.flatten_cons, List.length_append,
        Nat.add_assoc, List.cons_append]

theorem applyAll_chunked (f : File) (offset : Nat) (chunks : List Bytes) :
    applyAll f (chunked offset chunks) = f.write offset chunks.flatten := by
  induction chunks generalizing f offset with
  | nil => simp [chunked]
  | cons a as ih => rw [chunked, applyAll_cons, ih, apply, File.write_write, List.flatten_cons]

theorem chunked_within (offset : Nat) (chunks : List Bytes) :
    ∀ e ∈ chunked offset chunks, e.WritesWithin offset (offset + chunks.flatten.length) := by
  induction chunks generalizing offset with
  | nil => exact nofun
  | cons a as ih =>
      intro e member
      rw [List.flatten_cons, List.length_append]
      rcases List.mem_cons.mp member with rfl | later
      · exact ⟨le_rfl, by omega⟩
      · exact (ih _ e later).mono (by omega) (by omega)

theorem chunked_solid {offset : Nat} {chunks : List Bytes} (some : ∀ c ∈ chunks, c ≠ []) :
    ∀ e ∈ chunked offset chunks, e.Solid := by
  induction chunks generalizing offset with
  | nil => exact nofun
  | cons a as ih =>
      intro e member
      rcases List.mem_cons.mp member with rfl | later
      · exact some a (List.mem_cons_self ..)
      · exact ih (fun c rest => some c (List.mem_cons_of_mem _ rest)) e later

/-- A crash among consecutive writes leaves a front part of what they write. -/
theorem crashImage_chunked (f : File) (offset : Nat) (chunks : List Bytes) (k n : Nat) :
    ∃ flushed, flushed <+: chunks.flatten ∧
      crashImage f (chunked offset chunks) k n = f.write offset flushed := by
  induction chunks generalizing f offset k with
  | nil => exact ⟨[], List.nil_prefix, by simp [chunked, crashImage]⟩
  | cons a as ih =>
      cases k with
      | zero =>
          refine ⟨a.take n, (List.take_prefix n a).trans ?_, by simp [chunked, crashImage, cut, apply]⟩
          rw [List.flatten_cons]
          exact List.prefix_append a _
      | succ k =>
          obtain ⟨flushed, front, image⟩ := ih (f.write offset a) (offset + a.length) k
          refine ⟨a ++ flushed, ?_, ?_⟩
          · rw [List.flatten_cons]
            exact (List.prefix_append_right_inj a).mpr front
          · rw [← File.write_write, ← image]
            simp [chunked, crashImage, apply]

/-! ## What holds after a crash, and after power was lost

`Survives P f effects`: `P` holds of the file whenever the process ends, from `f` on,
among `effects`.  `Endures P f effects` is the same for power loss.  The first composes
along any split of the effects, the second along the syncs among them. -/

def Survives (P : File → Prop) (f : File) (effects : List Effect) : Prop :=
  ∀ k n, P (crashImage f effects k n)

def Endures (P : File → Prop) (f : File) (effects : List Effect) : Prop :=
  ∀ durable kept, Remains effects durable kept → P (applyAll f (durable ++ kept))

section Survives

variable {P Q : File → Prop} {f : File} {as bs effects : List Effect} {lo hi : Nat}

/-- The last crash comes after everything. -/
theorem Survives.final (survives : Survives P f effects) : P (applyAll f effects) := by
  have last := survives effects.length 0
  rwa [crashImage, List.take_length, List.drop_length, List.take_nil, List.map_nil,
    List.append_nil] at last

theorem survives_nil (now : P f) : Survives P f [] := by
  intro k n
  simpa [crashImage] using now

theorem survives_cons {e : Effect} (torn : ∀ n, P ((e.cut n).apply f))
    (later : Survives P (e.apply f) effects) : Survives P f (e :: effects) := by
  intro k n
  cases k with
  | zero => simpa [crashImage] using torn n
  | succ k => simpa [crashImage] using later k n

theorem Survives.append (first : Survives P f as) (second : Survives P (applyAll f as) bs) :
    Survives P f (as ++ bs) := by
  induction as generalizing f with
  | nil => exact second
  | cons e as ih =>
      refine survives_cons (fun n => ?_) (ih (fun k n => ?_) second)
      · simpa [crashImage] using first 0 n
      · simpa [crashImage] using first (k + 1) n

/-- Nothing outside the range is touched, wherever the crash falls. -/
theorem survives_within (within : ∀ e ∈ effects, e.WritesWithin lo hi)
    (all : ∀ g, File.AgreesOutside lo hi f g → P g) : Survives P f effects := by
  intro k n
  refine all _ (applyAll_agrees (fun e member => ?_) f)
  rcases List.mem_append.mp member with before | last
  · exact within e (List.mem_of_mem_take before)
  · obtain ⟨whole, next, rfl⟩ := List.mem_map.mp last
    exact (within whole (List.mem_of_mem_drop (List.mem_of_mem_take next))).cut n

/-- A file stays short if nothing goes beyond the limit. -/
theorem survives_below {limit : Nat} (below : ∀ e ∈ effects, e.Below limit) (short : f.len ≤ limit) :
    Survives (fun g => g.len ≤ limit) f effects := by
  induction effects generalizing f with
  | nil => exact survives_nil short
  | cons e effects ih =>
      have first := below e List.mem_cons_self
      exact survives_cons (fun n => (first.cut n).len_le short)
        (ih (fun e' member => below e' (List.mem_cons_of_mem _ member)) (first.len_le short))

theorem survives_sync (now : P f) (later : Survives P f effects) :
    Survives P f (.sync :: effects) :=
  survives_cons (fun _ => now) later

theorem survives_write_sync {offset : Nat} {bytes : Bytes}
    (all : ∀ n, P (f.write offset (bytes.take n))) : Survives P f [.write offset bytes, .sync] := by
  have whole := all bytes.length
  rw [List.take_length] at whole
  exact survives_cons all (survives_sync whole (survives_nil whole))

end Survives

section Endures

variable {P : File → Prop} {f : File} {as bs effects durable kept : List Effect} {lo hi : Nat}

theorem Remains.mem (remains : Remains effects durable kept) {e : Effect}
    (member : e ∈ durable ++ kept) : e ∈ effects := by
  obtain ⟨rfl, -, -, subset⟩ := remains
  rcases List.mem_append.mp member with old | new
  · exact List.mem_append_left _ old
  · exact List.mem_append_right _ (List.mem_append_left _ (subset.subset new))

theorem remains_nil (remains : Remains [] durable kept) : durable = [] ∧ kept = [] := by
  have nothing : ∀ e, e ∉ durable ++ kept := fun e member => List.not_mem_nil (remains.mem member)
  exact List.append_eq_nil_iff.mp (List.eq_nil_iff_forall_not_mem.mpr nothing)

/-- A completed sync makes what came before it durable; without it any of that may be lost. -/
theorem remains_sync (unsynced : .sync ∉ as) (remains : Remains (as ++ .sync :: bs) durable kept) :
    durable = [] ∧ kept.Sublist as ∨
      ∃ later, durable = as ++ .sync :: later ∧ Remains bs later kept := by
  obtain ⟨issued, synced, loose, subset⟩ := remains
  rcases synced with rfl | ends
  · -- What is pending has no sync, so it ends within `as`.
    refine .inl ⟨rfl, subset.trans ?_⟩
    rw [List.nil_append] at issued
    rcases List.append_eq_append_iff.mp issued with ⟨excess, rfl, tail⟩ | ⟨short, rfl, -⟩
    · cases excess with
      | nil => exact (List.append_nil as).symm ▸ List.Sublist.refl _
      | cons e excess =>
          obtain ⟨rfl, -⟩ := List.cons.inj tail
          exact absurd (List.mem_append_right _ List.mem_cons_self) loose
    · exact List.sublist_append_left _ _
  · -- What is durable ends with a sync, so it contains the first one.
    rcases List.append_eq_append_iff.mp issued with ⟨excess, rfl, tail⟩ | ⟨short, rfl, -⟩
    · cases excess with
      | nil =>
          rw [List.append_nil] at ends
          exact absurd (List.mem_of_getLast? ends) unsynced
      | cons e later =>
          obtain ⟨rfl, rfl⟩ := List.cons.inj tail
          refine .inr ⟨later, rfl, rfl, ?_, loose, subset⟩
          rcases List.eq_nil_or_concat later with rfl | ⟨front, e, rfl⟩
          · exact .inl rfl
          · refine .inr ?_
            simpa [List.getLast?_cons] using ends
    · exact absurd (List.mem_append_left _ (List.mem_of_getLast? ends)) unsynced

theorem endures_nil (now : P f) : Endures P f [] := by
  intro durable kept remains
  obtain ⟨rfl, rfl⟩ := remains_nil remains
  exact now

theorem Endures.sync (unsynced : .sync ∉ as) (first : ∀ kept, kept.Sublist as → P (applyAll f kept))
    (second : Endures P (applyAll f as) bs) : Endures P f (as ++ .sync :: bs) := by
  intro durable kept remains
  rcases remains_sync unsynced remains with ⟨rfl, subset⟩ | ⟨later, rfl, left⟩
  · exact first kept subset
  · have after := second later kept left
    rwa [List.append_assoc, List.cons_append, applyAll_append]

/-- A single effect before a sync took place or not. -/
theorem endures_single {e : Effect} (write : e ≠ .sync) (lost : P f)
    (later : Endures P (e.apply f) bs) (took : P (e.apply f)) : Endures P f ([e] ++ .sync :: bs) := by
  refine Endures.sync (fun member => write (List.mem_singleton.mp member).symm) (fun kept subset => ?_) later
  rcases List.sublist_singleton.mp subset with rfl | rfl
  · exact lost
  · exact took

/-- A write in the range makes the file reach into it. -/
theorem lt_applyAll_len (within : ∀ e ∈ effects, e.WritesWithin lo hi)
    (solid : ∀ e ∈ effects, e.Solid) (some : effects ≠ []) : lo < (applyAll f effects).len := by
  obtain ⟨e, effects, rfl⟩ := List.exists_cons_of_ne_nil some
  have first := within e List.mem_cons_self
  have wrote := solid e List.mem_cons_self
  have later := (applyAll_agrees (fun e member => within e (List.mem_cons_of_mem _ member)) (e.apply f)).le_len
  rw [applyAll_cons]
  refine lt_of_lt_of_le ?_ later
  cases e with
  | write offset bytes =>
      have := List.length_pos_iff.mpr wrote
      have above := first.1
      rw [apply, File.write_len f offset wrote]
      omega
  | setLen len => exact wrote.elim
  | sync => exact wrote.elim

end Endures

end Effect

end Lkv.Theory
