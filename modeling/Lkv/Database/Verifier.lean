/-
# Lkv.Database.Verifier — what the block bits of a verifier mean

`Sound mapping v` says that a set bit stands for a block whose checksum matched,
that `remaining` counts the clear bits, and that a fully verified segment has
only matching blocks.  `verifyRange` keeps it, and ends in an error exactly when
the range is not in the data or meets a block that does not match
(`wp_verifyRange`).

`Guarded data mapping verifying v` is the state of a reader that checks blocks
before it uses them (or has no need to): whatever range passed is the range of
`data` (`wp_guard`).
-/
import Lkv.Database.View

namespace Lkv

open Lkv.Theory Lkv.Theory.Prog

set_option autoImplicit false

namespace SegmentVerifier

/-- Block `b` of the data, as `verify_range` reads it. -/
def blockOf (mapping : Bytes) (dataSize b : Nat) : Bytes :=
  window mapping (b * checksumBlockSize)
    (min (b * checksumBlockSize + checksumBlockSize) dataSize - b * checksumBlockSize)

/-- The stored checksum of block `b` is that of the bytes there. -/
def Matches (mapping : Bytes) (v : SegmentVerifier) (b : Nat) : Prop :=
  v.checksums[b]? = some (crc32c (blockOf mapping v.dataSize b)).toNat

/-- The range `[start, stop)` has a byte in block `b`. -/
def Meets (start stop b : Nat) : Prop :=
  start < stop ∧ start / checksumBlockSize ≤ b ∧ b ≤ (stop - 1) / checksumBlockSize

structure Sound (mapping : Bytes) (v : SegmentVerifier) : Prop where
  inside : v.dataSize ≤ mapping.length
  table : v.checksums.length = divCeil v.dataSize checksumBlockSize
  bits : v.checksums.length ≤ v.verified.length
  marked : ∀ b < v.checksums.length, v.verified[b]? = some true → Matches mapping v b
  counted : v.fullyVerified = false →
    v.remaining = (v.verified.take v.checksums.length).count false
  full : v.fullyVerified = true → ∀ b < v.checksums.length, v.verified[b]? = some true

/-- The part of a verifier that block checks leave alone. -/
structure Same (v v' : SegmentVerifier) : Prop where
  offset : v'.offset = v.offset
  dataSize : v'.dataSize = v.dataSize
  checksums : v'.checksums = v.checksums
  semantic : v'.semanticallyVerified = v.semanticallyVerified

section Blocks

variable {mapping : Bytes} {v v' v'' : SegmentVerifier} {b : Nat}

theorem Same.refl (v : SegmentVerifier) : Same v v := ⟨rfl, rfl, rfl, rfl⟩

theorem Same.trans (one : Same v v') (two : Same v' v'') : Same v v'' :=
  ⟨two.offset.trans one.offset, two.dataSize.trans one.dataSize,
    two.checksums.trans one.checksums, two.semantic.trans one.semantic⟩

theorem Same.matches (same : Same v v') : Matches mapping v' b ↔ Matches mapping v b := by
  unfold Matches
  rw [same.checksums, same.dataSize]

theorem same_mark (v : SegmentVerifier) (b : Nat) : Same v (v.mark b) := ⟨rfl, rfl, rfl, rfl⟩

theorem block_lt {dataSize stop : Nat} (some : 0 < stop) (inside : stop ≤ dataSize) :
    (stop - 1) / checksumBlockSize < divCeil dataSize checksumBlockSize := by
  unfold divCeil checksumBlockSize
  omega

/-- A new verifier is sound, provided that one which starts out fully verified has
only matching blocks. -/
theorem sound_new {offset : Nat} {layout : SegmentLayout} {fullyVerified : Bool}
    (inside : layout.data.length ≤ mapping.length)
    (table : layout.checksums.length / 4 = divCeil layout.data.length checksumBlockSize)
    (trusted : fullyVerified = true → ∀ c < layout.checksums.length / 4,
      Matches mapping (SegmentVerifier.new offset layout fullyVerified) c) :
    Sound mapping (SegmentVerifier.new offset layout fullyVerified) := by
  have count : (SegmentVerifier.new offset layout fullyVerified).checksums.length =
      layout.checksums.length / 4 := by
    simp [SegmentVerifier.new, checksumWords]
  have enough : layout.checksums.length / 4 ≤ divCeil (layout.checksums.length / 4) 64 * 64 := by
    unfold divCeil
    omega
  have words : (checksumWords layout.checksums).length = layout.checksums.length / 4 := by
    simp [checksumWords]
  have bit : ∀ c < layout.checksums.length / 4,
      (SegmentVerifier.new offset layout fullyVerified).verified[c]? = some fullyVerified := by
    intro c below
    simp only [SegmentVerifier.new, words, List.getElem?_replicate]
    rw [if_pos (by omega)]
  refine ⟨inside, count.trans table, ?_, ?_, ?_, ?_⟩
  · rw [count]
    simp only [SegmentVerifier.new, words, List.length_replicate]
    exact enough
  · intro c below set
    rw [count] at below
    rw [bit c below] at set
    exact trusted (Option.some.inj set) c below
  · intro open_
    rw [count]
    change fullyVerified = false at open_
    subst open_
    simp only [SegmentVerifier.new, words, Bool.false_eq_true, if_false, List.take_replicate,
      List.count_replicate_self]
    omega
  · intro full c below
    rw [count] at below
    rw [bit c below]
    exact congrArg some full

/-- Marking a clear block that matches keeps the verifier sound. -/
theorem Sound.mark (sound : Sound mapping v) (inside : b < v.checksums.length)
    (clear : v.verified[b]? = some false) (open_ : v.fullyVerified = false)
    (matched : Matches mapping v b) : Sound mapping (v.mark b) := by
  have below : b < v.verified.length := lt_of_lt_of_le inside sound.bits
  have clear' : v.verified[b] = false := by
    rw [List.getElem?_eq_getElem below] at clear
    exact Option.some.inj clear
  have marked : ∀ c < v.checksums.length, (v.verified.set b true)[c]? = some true →
      Matches mapping v c := by
    intro c belowC set
    by_cases same : b = c
    · exact same ▸ matched
    · rw [List.getElem?_set_ne same] at set
      exact sound.marked c belowC set
  have count : ((v.verified.set b true).take v.checksums.length).count false =
      v.remaining - 1 := by
    rw [sound.counted open_, List.take_set, List.count_set (by simpa using ⟨inside, below⟩)]
    simp [clear']
  have positive : 0 < v.remaining := by
    rw [sound.counted open_, List.count_pos_iff]
    have := List.getElem_mem (l := v.verified.take v.checksums.length) (n := b)
      (by simpa using ⟨inside, below⟩)
    rwa [List.getElem_take, clear'] at this
  refine ⟨sound.inside, sound.table, by simpa [SegmentVerifier.mark] using sound.bits, marked, ?_, ?_⟩
  · intro _
    simp only [SegmentVerifier.mark]
    rw [if_neg (by omega)]
    exact count.symm
  · intro full c belowC
    simp only [SegmentVerifier.mark, open_, Bool.false_or, beq_iff_eq] at full
    have none : ((v.verified.set b true).take v.checksums.length).count false = 0 := by
      rw [count, full]
    have long : c < (v.verified.set b true).length := by
      simpa using lt_of_lt_of_le belowC sound.bits
    rw [List.count_eq_zero] at none
    refine (List.getElem?_eq_getElem long).trans (congrArg some ?_)
    by_contra notTrue
    refine none ?_
    have := List.getElem_mem (l := (v.verified.set b true).take v.checksums.length) (n := c)
      (by simpa using ⟨belowC, lt_of_lt_of_le belowC sound.bits⟩)
    rwa [List.getElem_take, Bool.eq_false_iff.mpr notTrue] at this

/-- Checking one block: it matched, or the check ends in an error. -/
theorem wp_verifyBlock (sound : Sound mapping v) (inside : b < v.checksums.length) :
    wp (verifyBlock mapping b)
      (fun _ v' => Sound mapping v' ∧ Same v v' ∧ Matches mapping v b)
      (fun e v' => Sound mapping v' ∧ Same v v' ∧ ¬Matches mapping v b ∧ ∃ error, e = .err error)
      v := by
  have below : b < v.verified.length := lt_of_lt_of_le inside sound.bits
  have blocks : b < divCeil v.dataSize checksumBlockSize := sound.table ▸ inside
  have starts : b * checksumBlockSize < v.dataSize := by
    unfold divCeil checksumBlockSize at *
    omega
  refine wp_bind (wp_state ?_)
  rw [List.getElem?_eq_getElem below]
  cases bit : v.verified[b] with
  | true =>
      refine wp_pure ⟨sound, Same.refl v, sound.marked b inside ?_⟩
      rw [List.getElem?_eq_getElem below, bit]
  | false =>
      have clear : v.verified[b]? = some false := by rw [List.getElem?_eq_getElem below, bit]
      have open_ : v.fullyVerified = false := by
        by_contra full
        have := sound.full (Bool.eq_true_of_not_eq_false full) b inside
        rw [clear] at this
        cases this
      have sound_inside := sound.inside
      have block : sliceAt mapping (b * checksumBlockSize)
          (min (b * checksumBlockSize + checksumBlockSize) v.dataSize) =
          .ok (blockOf mapping v.dataSize b) := sliceAt_ok (by omega) (by omega)
      dsimp only
      rw [List.getElem?_eq_getElem inside, block]
      refine wp_bind (wp_lift ?_ nofun)
      rintro _ ⟨⟩
      dsimp only
      split
      · rename_i differs
        refine wp_stop ⟨sound, Same.refl v, fun matched => differs ?_, _, rfl⟩
        rw [Matches, List.getElem?_eq_getElem inside] at matched
        exact (Option.some.inj matched).symm
      · rename_i equal
        have matched : Matches mapping v b := by
          rw [Matches, List.getElem?_eq_getElem inside]
          exact congrArg some (not_not.mp equal).symm
        exact wp_modify ⟨sound.mark inside clear open_ matched, same_mark v b, matched⟩

theorem wp_verifyBlocks {count : Nat} (sound : Sound mapping v)
    (inside : b + count ≤ v.checksums.length) :
    wp (verifyBlocks mapping b count)
      (fun _ v' => Sound mapping v' ∧ Same v v' ∧
        ∀ c, b ≤ c → c < b + count → Matches mapping v c)
      (fun e v' => Sound mapping v' ∧ Same v v' ∧
        (∃ c, b ≤ c ∧ c < b + count ∧ ¬Matches mapping v c) ∧ ∃ error, e = .err error)
      v := by
  induction count generalizing b v with
  | zero => exact wp_pure ⟨sound, Same.refl v, fun c _ _ => by omega⟩
  | succ count ih =>
      refine wp_bind (wp_mono (wp_verifyBlock sound (by omega)) ?_ ?_)
      · rintro _ v1 ⟨sound1, same1, matched⟩
        refine wp_mono (ih sound1 (by rw [same1.checksums]; omega)) ?_ ?_
        · rintro _ v2 ⟨sound2, same2, others⟩
          refine ⟨sound2, same1.trans same2, fun c above below => ?_⟩
          rcases Nat.eq_or_lt_of_le above with rfl | later
          · exact matched
          · exact same1.matches.mp (others c later (by omega))
        · rintro e v2 ⟨sound2, same2, ⟨c, above, below, differs⟩, error⟩
          exact ⟨sound2, same1.trans same2,
            ⟨c, by omega, by omega, fun matches_ => differs (same1.matches.mpr matches_)⟩, error⟩
      · rintro e v1 ⟨sound1, same1, differs, error⟩
        exact ⟨sound1, same1, ⟨b, le_rfl, by omega, differs⟩, error⟩

/-- A range passes when every block it meets matches, and is refused otherwise. -/
theorem wp_verifyRange {start stop : Nat} (sound : Sound mapping v) :
    wp (verifyRange mapping start stop)
      (fun _ v' => Sound mapping v' ∧ Same v v' ∧
        ∀ c < v.checksums.length, Meets start stop c → Matches mapping v c)
      (fun e v' => Sound mapping v' ∧ Same v v' ∧ (∃ error, e = .err error) ∧
        ¬(start ≤ stop ∧ stop ≤ v.dataSize ∧ ∀ c, Meets start stop c → Matches mapping v c))
      v := by
  refine wp_bind (wp_state ?_)
  split
  · rename_i full
    exact wp_pure ⟨sound, Same.refl v, fun c below _ => sound.marked c below (sound.full full c below)⟩
  split
  · exact wp_stop ⟨sound, Same.refl v, ⟨_, rfl⟩, fun ok => by omega⟩
  split
  · exact wp_stop ⟨sound, Same.refl v, ⟨_, rfl⟩, fun ok => by omega⟩
  split
  · exact wp_pure ⟨sound, Same.refl v, fun c _ meets => by unfold Meets at meets; omega⟩
  · have last := @block_lt v.dataSize stop (by omega) (by omega)
    have ordered : start / checksumBlockSize ≤ (stop - 1) / checksumBlockSize :=
      Nat.div_le_div_right (by omega)
    rw [← sound.table] at last
    refine wp_mono (wp_verifyBlocks sound (by omega)) ?_ ?_
    · rintro _ v1 ⟨sound1, same1, matched⟩
      exact ⟨sound1, same1, fun c _ meets => matched c meets.2.1 (by have := meets.2.2; omega)⟩
    · rintro e v1 ⟨sound1, same1, ⟨c, above, below, differs⟩, error⟩
      exact ⟨sound1, same1, error, fun ok => differs (ok.2.2 c ⟨by omega, above, by omega⟩)⟩

end Blocks

end SegmentVerifier

end Lkv
