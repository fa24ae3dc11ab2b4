/-
# Lkv.Database.Concurrent — readers that verify blocks at the same time

`verify_range` takes `&self`: any number of readers may be in it at once.  Here a call is
a thread that makes one atomic access at a time — it loads the flag, loads a bit, checks a
block, sets the bit, counts it off, stores the flag — and the accesses of different calls
may come in any order.

Left alone, a call does what the sequential `verifyRange` says (`verifyRange_alone`).
Among others, a set bit still stands for a block that matched, and `remaining` is the
number of clear bits and of calls that have set a bit and not counted it off yet
(`concurrent_verification`).  So the call that counts off the last one knows that every
bit is set.
-/
import Lkv.Database.Reading
import Lkv.Theory.Interleaving

namespace Lkv
open Lkv.Theory Lkv.Theory.Prog

set_option autoImplicit false

/-- Where a call of `verify_range` is. -/
inductive VerifyStage where
  | entered
  | loading (block : Nat)
  | checking (block : Nat)
  | marking (block : Nat)
  /-- The bit was clear before; `remaining` does not know yet. -/
  | counting (block : Nat)
  | storing (block : Nat)
  | returned (result : Res Unit)

structure VerifyCall where
  start : Nat
  stop : Nat
  stage : VerifyStage

namespace VerifyCall

open SegmentVerifier

def new (start stop : Nat) : VerifyCall := ⟨start, stop, .entered⟩

def lastBlock (call : VerifyCall) : Nat := (call.stop - 1) / checksumBlockSize

def moveTo (call : VerifyCall) (stage : VerifyStage) : VerifyCall := { call with stage := stage }

/-- The loop goes on behind `block`. -/
def past (call : VerifyCall) (block : Nat) : VerifyCall :=
  call.moveTo (if block = call.lastBlock then .returned (.ok ()) else .loading (block + 1))

@[simp] theorem moveTo_stage (call : VerifyCall) (stage : VerifyStage) :
    (call.moveTo stage).stage = stage := rfl

@[simp] theorem moveTo_moveTo (call : VerifyCall) (one two : VerifyStage) :
    (call.moveTo one).moveTo two = call.moveTo two := rfl

@[simp] theorem moveTo_past (call : VerifyCall) (stage : VerifyStage) (block : Nat) :
    (call.moveTo stage).past block = call.past block := rfl

/-- The comparison of a block with its stored checksum. -/
def checkBlock (mapping : Bytes) (v : SegmentVerifier) (block : Nat) : Res Unit := do
  let bytes ← sliceAt mapping (block * checksumBlockSize)
    (min (block * checksumBlockSize + checksumBlockSize) v.dataSize)
  match v.checksums[block]? with
  | none => panic "index out of bounds"
  | some expected =>
      if (crc32c bytes).toNat ≠ expected then fail (.corruptedBlock v.offset block) else .ok ()

/-- What the flag and the range decide before the loop. -/
def entering (start stop : Nat) (v : SegmentVerifier) : VerifyStage :=
  if v.fullyVerified then .returned (.ok ())
  else if start > stop then .returned (fail (.invalidBase "read range lies outside segment"))
  else if stop > v.dataSize then
    .returned (fail (.invalidBase "read range lies outside segment data"))
  else if start = stop then .returned (.ok ())
  else .loading (start / checksumBlockSize)

/-- The next atomic access of a call; none once it has returned. -/
def move (mapping : Bytes) (call : VerifyCall) (v : SegmentVerifier) :
    Option (VerifyCall × SegmentVerifier) :=
  match call.stage with
  | .entered => some (call.moveTo (entering call.start call.stop v), v)
  | .loading block =>
      match v.verified[block]? with
      | none => some (call.moveTo (.returned (panic "index out of bounds")), v)
      | some true => some (call.past block, v)
      | some false => some (call.moveTo (.checking block), v)
  | .checking block =>
      match checkBlock mapping v block with
      | .ok () => some (call.moveTo (.marking block), v)
      | .error stop => some (call.moveTo (.returned (.error stop)), v)
  | .marking block =>
      some (if v.verified[block]? = some true then call.past block else call.moveTo (.counting block),
        { v with verified := v.verified.set block true })
  | .counting block =>
      some (if v.remaining = 1 then call.moveTo (.storing block) else call.past block,
        { v with remaining := if v.remaining = 0 then 2 ^ 64 - 1 else v.remaining - 1 })
  | .storing block => some (call.past block, { v with fullyVerified := true })
  | .returned _ => none

theorem move_checking {mapping : Bytes} {call : VerifyCall} {v : SegmentVerifier} {block : Nat}
    (is : call.stage = .checking block) (passes : checkBlock mapping v block = .ok ()) :
    call.move mapping v = some (call.moveTo (.marking block), v) := by
  unfold move
  rw [is]
  dsimp only
  rw [passes]

/-- The call has set a bit and not counted it off. -/
def owes (call : VerifyCall) : Bool :=
  match call.stage with
  | .counting _ => true
  | _ => false

end VerifyCall

abbrev VerifyPool := Pool SegmentVerifier VerifyCall

/-- Any calls on one verifier, and any order of their accesses. -/
def VerifyRuns (mapping : Bytes) : VerifyPool → VerifyPool → Prop :=
  Pool.Runs (fun call => ∃ start stop, call = .new start stop) (VerifyCall.move mapping)

/-! ## One call alone -/

namespace VerifyCall

open SegmentVerifier

/-- Accesses of one call that nobody interrupts. -/
inductive Alone (mapping : Bytes) : VerifyCall × SegmentVerifier → VerifyCall × SegmentVerifier → Prop
  | refl (now : VerifyCall × SegmentVerifier) : Alone mapping now now
  | step {call : VerifyCall} {v : SegmentVerifier} {next last : VerifyCall × SegmentVerifier}
      (made : call.move mapping v = some next) (rest : Alone mapping next last) :
      Alone mapping (call, v) last

section Alone

variable {mapping : Bytes} {call : VerifyCall} {v v' : SegmentVerifier} {block : Nat}
variable {last : VerifyCall × SegmentVerifier}

/-- What the sequential check of one block does, in terms of the accesses. -/
theorem wp_verifyBlock_accesses (mapping : Bytes) (block : Nat) (v : SegmentVerifier) :
    wp (verifyBlock mapping block)
      (fun _ v' => v.verified[block]? = some true ∧ v' = v ∨
        v.verified[block]? = some false ∧ checkBlock mapping v block = .ok () ∧ v' = v.mark block)
      (fun e v' => v' = v ∧ (v.verified[block]? = none ∧ (Except.error e : Res Unit) = panic "index out of bounds" ∨
        v.verified[block]? = some false ∧ checkBlock mapping v block = .error e)) v := by
  refine wp_bind (wp_state ?_)
  cases bit : v.verified[block]? with
  | none => exact wp_lift nofun fun e stopped => ⟨rfl, .inl ⟨rfl, stopped.symm⟩⟩
  | some set =>
      cases set with
      | true => exact wp_pure (.inl ⟨rfl, rfl⟩)
      | false =>
          unfold checkBlock
          dsimp only
          cases sliceAt mapping (block * checksumBlockSize)
              (min (block * checksumBlockSize + checksumBlockSize) v.dataSize) with
          | error e =>
              refine wp_bind (wp_lift nofun ?_)
              rintro _ ⟨⟩
              exact ⟨rfl, .inr ⟨rfl, rfl⟩⟩
          | ok bytes =>
              refine wp_bind (wp_lift ?_ nofun)
              rintro _ ⟨⟩
              cases v.checksums[block]? with
              | none => exact wp_lift nofun fun e stopped => ⟨rfl, .inr ⟨rfl, stopped⟩⟩
              | some expected =>
                  by_cases equal : (crc32c bytes).toNat = expected
                  · dsimp only
                    rw [ok_bind, if_neg (not_not.mpr equal), if_neg (not_not.mpr equal)]
                    exact wp_modify (.inr ⟨rfl, rfl, rfl⟩)
                  · dsimp only
                    rw [ok_bind, if_pos equal, if_pos equal]
                    exact wp_stop ⟨rfl, .inr ⟨rfl, rfl⟩⟩

/-- A block that passes the check takes the call past it. -/
theorem alone_verifyBlock_ok (ran : verifyBlock mapping block v = (.ok (), v'))
    (rest : Alone mapping (call.past block, v') last) :
    Alone mapping (call.moveTo (.loading block), v) last := by
  rcases wp_ok (wp_verifyBlock_accesses mapping block v) ran with
    ⟨set, rfl⟩ | ⟨clear, checked, rfl⟩
  · have loaded : (call.moveTo (.loading block)).move mapping v' = some (call.past block, v') := by
      simp only [move, moveTo_stage, set, moveTo_past]
    exact .step loaded rest
  -- The check, the bit, the count, and for the last block the flag.
  have loaded : (call.moveTo (.loading block)).move mapping v =
      some (call.moveTo (.checking block), v) := by
    simp only [move, moveTo_stage, clear, moveTo_moveTo]
  have matched : (call.moveTo (.checking block)).move mapping v =
      some (call.moveTo (.marking block), v) := move_checking rfl checked
  have marked : (call.moveTo (.marking block)).move mapping v =
      some (call.moveTo (.counting block), { v with verified := v.verified.set block true }) := by
    simp [move, clear]
  refine .step loaded (.step matched (.step marked ?_))
  by_cases one : v.remaining = 1
  · have counted : (call.moveTo (.counting block)).move mapping
        { v with verified := v.verified.set block true } = some (call.moveTo (.storing block),
          { v with verified := v.verified.set block true, remaining := 0 }) := by
      simp [move, one]
    refine .step counted (.step ?_ rest)
    simp [move, SegmentVerifier.mark, one]
  · refine .step ?_ rest
    simp [move, SegmentVerifier.mark, one]

/-- A block that does not pass ends the call. -/
theorem alone_verifyBlock_error {stop : Stop} (ran : verifyBlock mapping block v = (.error stop, v'))
    (rest : Alone mapping (call.moveTo (.returned (.error stop)), v') last) :
    Alone mapping (call.moveTo (.loading block), v) last := by
  obtain ⟨rfl, ⟨outside, why⟩ | ⟨clear, differs⟩⟩ :=
    wp_error (wp_verifyBlock_accesses mapping block v) ran
  · refine .step ?_ rest
    simp only [move, moveTo_stage, outside, ← why, moveTo_moveTo]
  · have loaded : (call.moveTo (.loading block)).move mapping v' =
        some (call.moveTo (.checking block), v') := by
      simp only [move, moveTo_stage, clear, moveTo_moveTo]
    refine .step loaded (.step ?_ rest)
    simp only [move, moveTo_stage, differs, moveTo_moveTo]

/-- The loop from `block` to the last one. -/
theorem alone_verifyBlocks {count : Nat} (ends : block + count = call.lastBlock) :
    Alone mapping (call.moveTo (.loading block), v)
      (call.moveTo (.returned (verifyBlocks mapping block (count + 1) v).1),
        (verifyBlocks mapping block (count + 1) v).2) := by
  induction count generalizing block v with
  | zero =>
      rw [verifyBlocks, bind_run]
      cases ran : verifyBlock mapping block v with
      | mk result v' =>
          cases result with
          | ok _ =>
              refine alone_verifyBlock_ok ran ?_
              rw [past, if_pos (by omega)]
              exact .refl _
          | error stop => exact alone_verifyBlock_error ran (.refl _)
  | succ count ih =>
      rw [verifyBlocks, bind_run]
      cases ran : verifyBlock mapping block v with
      | mk result v' =>
          cases result with
          | ok _ =>
              refine alone_verifyBlock_ok ran ?_
              rw [past, if_neg (by omega)]
              exact ih (by omega)
          | error stop => exact alone_verifyBlock_error ran (.refl _)

end Alone

/-- A call that nobody interrupts does what the sequential function does. -/
theorem verifyRange_alone (mapping : Bytes) (start stop : Nat) (v : SegmentVerifier) :
    Alone mapping (.new start stop, v) (⟨start, stop, .returned (verifyRange mapping start stop v).1⟩,
      (verifyRange mapping start stop v).2) := by
  unfold verifyRange
  rw [bind_run, state_run]
  have entered : (new start stop).move mapping v = some (⟨start, stop, entering start stop v⟩, v) := rfl
  refine .step entered ?_
  unfold entering
  dsimp only
  by_cases full : v.fullyVerified = true
  · rw [if_pos full, if_pos full]
    exact .refl _
  rw [if_neg full, if_neg full]
  by_cases reversed : start > stop
  · rw [if_pos reversed, if_pos reversed]
    exact .refl _
  rw [if_neg reversed, if_neg reversed]
  by_cases outside : stop > v.dataSize
  · rw [if_pos outside, if_pos outside]
    exact .refl _
  rw [if_neg outside, if_neg outside]
  by_cases empty : start = stop
  · rw [if_pos empty, if_pos empty]
    exact .refl _
  rw [if_neg empty, if_neg empty]
  have ordered : start / checksumBlockSize ≤ (stop - 1) / checksumBlockSize :=
    Nat.div_le_div_right (by omega)
  have count : (stop - 1) / checksumBlockSize + 1 - start / checksumBlockSize =
      (stop - 1) / checksumBlockSize - start / checksumBlockSize + 1 := by omega
  rw [count]
  refine @alone_verifyBlocks mapping ⟨start, stop, .entered⟩ v _ _ ?_
  exact Nat.add_sub_of_le ordered

end VerifyCall

/-! ## Many calls -/

namespace SegmentVerifier

/-- How many blocks have a clear bit. -/
def clearBits (v : SegmentVerifier) : Nat := (v.verified.take v.checksums.length).count false

def AllSet (v : SegmentVerifier) : Prop := ∀ b < v.checksums.length, v.verified[b]? = some true

section Bits

variable {v : SegmentVerifier} {b : Nat}

theorem allSet_of_clearBits (bits : v.checksums.length ≤ v.verified.length) (none : v.clearBits = 0) :
    v.AllSet := by
  intro c below
  have long : c < v.verified.length := lt_of_lt_of_le below bits
  rw [List.getElem?_eq_getElem long]
  refine congrArg some (Bool.eq_true_of_not_eq_false fun clear => ?_)
  refine List.count_eq_zero.mp none (List.mem_take_iff_getElem.mpr ⟨c, by omega, clear⟩)

/-- Setting a clear bit leaves one clear bit less. -/
theorem clearBits_set (bits : v.checksums.length ≤ v.verified.length) (below : b < v.checksums.length)
    (clear : v.verified[b]? ≠ some true) :
    ({ v with verified := v.verified.set b true } : SegmentVerifier).clearBits + 1 = v.clearBits := by
  have long : b < v.verified.length := lt_of_lt_of_le below bits
  have clear' : v.verified[b] = false := by
    rw [List.getElem?_eq_getElem long] at clear
    exact Bool.eq_false_iff.mpr fun set => clear (congrArg some set)
  have positive : 0 < v.clearBits := List.count_pos_iff.mpr
    (List.mem_take_iff_getElem.mpr ⟨b, by omega, clear'⟩)
  unfold clearBits at *
  dsimp only
  rw [List.take_set, List.count_set (by simpa using ⟨below, long⟩)]
  simp only [List.getElem_take, clear', beq_self_eq_true, if_true, Bool.true_eq_false, beq_iff_eq,
    if_false]
  omega

theorem set_of_set (set : v.verified[b]? = some true) : v.verified.set b true = v.verified := by
  obtain ⟨long, bit⟩ := List.getElem?_eq_some_iff.mp set
  rw [← bit, List.set_getElem_self]

/-- Bits are only ever set. -/
def Grows (v v' : SegmentVerifier) : Prop :=
  Same v v' ∧ ∀ c : Nat, v.verified[c]? = some true → v'.verified[c]? = some true

theorem grows_refl (v : SegmentVerifier) : Grows v v := ⟨Same.refl v, fun _ => id⟩

theorem grows_set (v : SegmentVerifier) (b : Nat) :
    Grows v { v with verified := v.verified.set b true } := by
  refine ⟨⟨rfl, rfl, rfl, rfl⟩, fun c set => ?_⟩
  show (v.verified.set b true)[c]? = some true
  by_cases same : b = c
  · subst same
    obtain ⟨long, -⟩ := List.getElem?_eq_some_iff.mp set
    exact List.getElem?_set_self long
  · rwa [List.getElem?_set_ne same]

theorem Grows.allSet {v' : SegmentVerifier} (grows : Grows v v') (all : v.AllSet) : v'.AllSet := by
  intro c below
  rw [grows.1.checksums] at below
  exact grows.2 c (all c below)

end Bits

end SegmentVerifier

section Concurrent

open SegmentVerifier VerifyCall

variable {mapping : Bytes} {v₀ v v' : SegmentVerifier} {calls before after : List VerifyCall}
variable {call call' : VerifyCall} {block : Nat}

/-- What holds of a verifier that began as `v₀`, with these calls at work on it. -/
structure Tracks (mapping : Bytes) (v₀ v : SegmentVerifier) (calls : List VerifyCall) : Prop where
  same : Same v₀ v
  bits : v.checksums.length ≤ v.verified.length
  marked : ∀ b < v.checksums.length, v.verified[b]? = some true → v₀.Matches mapping b
  counted : v.remaining = v.clearBits + calls.countP owes
  full : v.fullyVerified = true → v.AllSet

/-- The call is in its loop, and every block before `upto` matched. -/
structure MatchedUpTo (mapping : Bytes) (v₀ : SegmentVerifier) (call : VerifyCall) (block upto : Nat) :
    Prop where
  some : call.start < call.stop
  inside : call.stop ≤ v₀.dataSize
  above : call.start / checksumBlockSize ≤ block
  below : block ≤ call.lastBlock
  matched : ∀ c, call.start / checksumBlockSize ≤ c → c < upto → v₀.Matches mapping c

/-- What a call knows at each of its accesses. -/
def Knows (mapping : Bytes) (v₀ v : SegmentVerifier) (call : VerifyCall) : Prop :=
  match call.stage with
  | .entered => True
  | .loading block => MatchedUpTo mapping v₀ call block block
  | .checking block => MatchedUpTo mapping v₀ call block block
  | .marking block => MatchedUpTo mapping v₀ call block (block + 1)
  | .counting block => MatchedUpTo mapping v₀ call block (block + 1)
  | .storing block => MatchedUpTo mapping v₀ call block (block + 1) ∧ v.AllSet
  | .returned (.ok ()) => ∀ c < v₀.checksums.length, Meets call.start call.stop c → v₀.Matches mapping c
  | .returned (.error why) => ∃ error, why = .err error

theorem Knows.stable (grows : Grows v v') (knows : Knows mapping v₀ v call) : Knows mapping v₀ v' call := by
  unfold Knows at *
  split at knows
  case h_6 => exact ⟨knows.1, grows.allSet knows.2⟩
  all_goals exact knows

theorem MatchedUpTo.moveTo {upto : Nat} (scanned : MatchedUpTo mapping v₀ call block upto)
    (stage : VerifyStage) : MatchedUpTo mapping v₀ (call.moveTo stage) block upto :=
  ⟨scanned.some, scanned.inside, scanned.above, scanned.below, scanned.matched⟩

theorem MatchedUpTo.succ (scanned : MatchedUpTo mapping v₀ call block block)
    (matched : v₀.Matches mapping block) : MatchedUpTo mapping v₀ call block (block + 1) := by
  refine ⟨scanned.some, scanned.inside, scanned.above, scanned.below, fun c above upto => ?_⟩
  rcases Nat.lt_succ_iff_lt_or_eq.mp upto with earlier | rfl
  · exact scanned.matched c above earlier
  · exact matched

/-- Behind a block that matched. -/
theorem MatchedUpTo.past (scanned : MatchedUpTo mapping v₀ call block (block + 1)) :
    Knows mapping v₀ v (call.past block) := by
  by_cases last : block = call.lastBlock
  · rw [VerifyCall.past, if_pos last]
    show ∀ c < v₀.checksums.length, Meets call.start call.stop c → v₀.Matches mapping c
    intro c below meets
    refine scanned.matched c meets.2.1 ?_
    have : c ≤ call.lastBlock := meets.2.2
    omega
  · rw [VerifyCall.past, if_neg last]
    have := scanned.below
    exact ⟨scanned.some, scanned.inside, Nat.le_succ_of_le scanned.above,
      show block + 1 ≤ call.lastBlock by omega, scanned.matched⟩

theorem MatchedUpTo.lt (sound : v₀.Sound mapping) {upto : Nat} (scanned : MatchedUpTo mapping v₀ call block upto) :
    block < v₀.checksums.length := by
  have last := @block_lt v₀.dataSize call.stop (Nat.zero_lt_of_lt scanned.some) scanned.inside
  rw [sound.table]
  exact lt_of_le_of_lt scanned.below last

/-- The check of a block decides whether it matches. -/
theorem checkBlock_cases (sound : v₀.Sound mapping) (same : Same v₀ v)
    (below : block < v₀.checksums.length) :
    checkBlock mapping v block = .ok () ∧ v₀.Matches mapping block ∨
      ∃ error, checkBlock mapping v block = fail error := by
  have blocks : block < divCeil v₀.dataSize checksumBlockSize := sound.table ▸ below
  have starts : block * checksumBlockSize < v₀.dataSize := by
    unfold divCeil checksumBlockSize at *
    omega
  have inside := sound.inside
  have bytes : sliceAt mapping (block * checksumBlockSize)
      (min (block * checksumBlockSize + checksumBlockSize) v₀.dataSize) =
      .ok (blockOf mapping v₀.dataSize block) := sliceAt_ok (by omega) (by omega)
  unfold checkBlock
  rw [same.dataSize, same.checksums, bytes, ok_bind, List.getElem?_eq_getElem below]
  dsimp only
  by_cases equal : (crc32c (blockOf mapping v₀.dataSize block)).toNat = v₀.checksums[block]
  · refine .inl ⟨if_neg (not_not.mpr equal), ?_⟩
    rw [Matches, List.getElem?_eq_getElem below, equal]
  · exact .inr ⟨_, if_pos equal⟩

theorem past_owes (call : VerifyCall) (block : Nat) : (call.past block).owes = false := by
  unfold VerifyCall.past
  split <;> rfl

theorem countP_owes (before after : List VerifyCall) (call : VerifyCall) :
    (before ++ call :: after).countP owes = (before ++ after).countP owes + call.owes.toNat := by
  rw [List.countP_append, List.countP_cons, List.countP_append]
  cases call.owes
  · simp
  · simp
    omega

/-- A call that only moved on. -/
theorem Tracks.replace (tracks : Tracks mapping v₀ v (before ++ call :: after))
    (owes : call'.owes = call.owes) : Tracks mapping v₀ v (before ++ call' :: after) := by
  refine ⟨tracks.same, tracks.bits, tracks.marked, ?_, tracks.full⟩
  rw [tracks.counted, countP_owes, countP_owes, owes]

/-- Setting a bit: a call that set it first owes a decrement. -/
theorem Tracks.mark (tracks : Tracks mapping v₀ v (before ++ call :: after)) (idle : call.owes = false)
    (below : block < v₀.checksums.length) (matched : v₀.Matches mapping block)
    (owes : call'.owes = !(v.verified[block]? = some true : Bool)) :
    Tracks mapping v₀ { v with verified := v.verified.set block true } (before ++ call' :: after) := by
  have len : v.checksums.length = v₀.checksums.length := congrArg List.length tracks.same.checksums
  by_cases set : v.verified[block]? = some true
  · rw [set_of_set set]
    exact tracks.replace (by rw [owes, idle, decide_eq_true set]; rfl)
  · refine ⟨tracks.same.trans ⟨rfl, rfl, rfl, rfl⟩, ?_, fun c belowC setC => ?_, ?_, fun full => ?_⟩
    · show v.checksums.length ≤ (v.verified.set block true).length
      rw [List.length_set]
      exact tracks.bits
    · by_cases same : block = c
      · exact same ▸ matched
      · exact tracks.marked c belowC ((List.getElem?_set_ne same).symm.trans setC)
    · have fewer := clearBits_set tracks.bits (len ▸ below) set
      have counted := tracks.counted
      rw [countP_owes, idle] at counted
      rw [countP_owes, owes, decide_eq_false set]
      show v.remaining = _
      simp only [Bool.not_false, Bool.toNat_true, Bool.toNat_false] at *
      omega
    · exact absurd (tracks.full full block (len ▸ below)) set

/-- Counting a bit off: whoever comes to zero knows that all bits are set. -/
theorem Tracks.count (tracks : Tracks mapping v₀ v (before ++ call :: after)) (due : call.owes = true)
    (owes : call'.owes = false) :
    0 < v.remaining ∧ (v.remaining = 1 → v.AllSet) ∧
      Tracks mapping v₀ { v with remaining := if v.remaining = 0 then 2 ^ 64 - 1 else v.remaining - 1 }
        (before ++ call' :: after) := by
  have counted := tracks.counted
  rw [countP_owes, due, Bool.toNat_true] at counted
  refine ⟨by omega, fun one => allSet_of_clearBits tracks.bits (by omega),
    tracks.same.trans ⟨rfl, rfl, rfl, rfl⟩, tracks.bits, tracks.marked, ?_, tracks.full⟩
  rw [countP_owes, owes]
  show (if v.remaining = 0 then _ else _) = v.clearBits + _
  rw [if_neg (by omega), Bool.toNat_false]
  omega

theorem owes_of_stage {stage : VerifyStage} (is : call.stage = stage) :
    call.owes = (call.moveTo stage).owes := by
  unfold owes moveTo
  rw [is]

/-- Before the loop: a call that finds the flag set has nothing to check. -/
theorem entering_knows (tracks : Tracks mapping v₀ v calls) (call : VerifyCall) :
    (call.moveTo (entering call.start call.stop v)).owes = false ∧
      Knows mapping v₀ v (call.moveTo (entering call.start call.stop v)) := by
  have size := tracks.same.dataSize
  have len : v.checksums.length = v₀.checksums.length := congrArg List.length tracks.same.checksums
  unfold entering
  split
  · rename_i full
    exact ⟨rfl, fun c below _ => tracks.marked c (len ▸ below) (tracks.full full c (len ▸ below))⟩
  split
  · exact ⟨rfl, _, rfl⟩
  split
  · exact ⟨rfl, _, rfl⟩
  split
  · rename_i empty
    exact ⟨rfl, fun c _ meets => absurd meets.1 (Nat.not_lt.mpr empty.ge)⟩
  · refine ⟨rfl, ?_⟩
    exact ⟨show call.start < call.stop by omega, show call.stop ≤ v₀.dataSize by omega, le_rfl,
      Nat.div_le_div_right (show call.start ≤ call.stop - 1 by omega),
      fun c above upto => absurd above (Nat.not_le.mpr upto)⟩

theorem Tracks.moves (sound : v₀.Sound mapping) (tracks : Tracks mapping v₀ v (before ++ call :: after))
    (knows : Knows mapping v₀ v call) (made : call.move mapping v = some (call', v')) :
    Tracks mapping v₀ v' (before ++ call' :: after) ∧ Knows mapping v₀ v' call' ∧ Grows v v' := by
  have len : v.checksums.length = v₀.checksums.length := congrArg List.length tracks.same.checksums
  unfold VerifyCall.move at made
  unfold Knows at knows
  cases is : call.stage with
  | entered =>
      rw [is] at made
      cases made
      have idle : call.owes = false := owes_of_stage is
      obtain ⟨owes, knows⟩ := entering_knows tracks call
      exact ⟨tracks.replace (owes.trans idle.symm), knows, grows_refl v⟩
  | loading block =>
      rw [is] at made knows
      dsimp only at made knows
      have idle : call.owes = false := owes_of_stage is
      have below := knows.lt sound
      have long : block < v.verified.length := lt_of_lt_of_le (len ▸ below) tracks.bits
      rw [List.getElem?_eq_getElem long] at made
      cases bit : v.verified[block] with
      | true =>
          rw [bit] at made
          cases made
          have set : v.verified[block]? = some true := by rw [List.getElem?_eq_getElem long, bit]
          exact ⟨tracks.replace ((past_owes _ _).trans idle.symm),
            (knows.succ (tracks.marked block (len ▸ below) set)).past, grows_refl v⟩
      | false =>
          rw [bit] at made
          cases made
          exact ⟨tracks.replace idle.symm, knows.moveTo _, grows_refl v⟩
  | checking block =>
      rw [is] at made knows
      dsimp only at made knows
      have idle : call.owes = false := owes_of_stage is
      rcases checkBlock_cases sound tracks.same (knows.lt sound) with
        ⟨checked, matched⟩ | ⟨error, differs⟩
      · rw [checked] at made
        cases made
        exact ⟨tracks.replace idle.symm, (knows.succ matched).moveTo _, grows_refl v⟩
      · rw [differs] at made
        cases made
        exact ⟨tracks.replace idle.symm, ⟨error, rfl⟩, grows_refl v⟩
  | marking block =>
      rw [is] at made knows
      dsimp only at made knows
      cases made
      have idle : call.owes = false := owes_of_stage is
      have below := knows.lt sound
      have matched := knows.matched block knows.above (Nat.lt_succ_self block)
      by_cases set : v.verified[block]? = some true
      · rw [if_pos set]
        exact ⟨tracks.mark idle below matched (by rw [past_owes, decide_eq_true set]; rfl), knows.past,
          grows_set v block⟩
      · rw [if_neg set]
        exact ⟨tracks.mark idle below matched (by rw [decide_eq_false set]; rfl), knows.moveTo _,
          grows_set v block⟩
  | counting block =>
      rw [is] at made knows
      dsimp only at made knows
      cases made
      have due : call.owes = true := owes_of_stage is
      have grows : Grows v { v with remaining := if v.remaining = 0 then 2 ^ 64 - 1 else v.remaining - 1 } :=
        ⟨⟨rfl, rfl, rfl, rfl⟩, fun _ => id⟩
      by_cases one : v.remaining = 1
      · rw [if_pos one]
        have storing : (call.moveTo (.storing block)).owes = false := rfl
        obtain ⟨-, all, tracks'⟩ := tracks.count due storing
        exact ⟨tracks', ⟨knows.moveTo _, grows.allSet (all one)⟩, grows⟩
      · rw [if_neg one]
        obtain ⟨-, -, tracks'⟩ := tracks.count due (past_owes call block)
        exact ⟨tracks', knows.past, grows⟩
  | storing block =>
      rw [is] at made knows
      dsimp only at made knows
      cases made
      have idle : call.owes = false := owes_of_stage is
      have moved := tracks.replace ((past_owes call block).trans idle.symm)
      exact ⟨⟨moved.same.trans ⟨rfl, rfl, rfl, rfl⟩, moved.bits, moved.marked, moved.counted,
        fun _ => knows.2⟩, knows.1.past, ⟨⟨rfl, rfl, rfl, rfl⟩, fun _ => id⟩⟩
  | returned result =>
      rw [is] at made
      cases made

theorem tracks_keeps (sound : v₀.Sound mapping) :
    Pool.Keeps (fun call => ∃ start stop, call = .new start stop) (VerifyCall.move mapping)
      (Tracks mapping v₀) (Knows mapping v₀) Grows where
  enters := by
    rintro v calls _ tracks ⟨start, stop, rfl⟩
    refine ⟨⟨tracks.same, tracks.bits, tracks.marked, ?_, tracks.full⟩, trivial⟩
    rw [tracks.counted, List.countP_cons]
    rfl
  moves := fun tracks knows made => tracks.moves sound knows made
  stable := fun grows knows => knows.stable grows

/-- What holds at every point of every interleaving of calls on a verifier that began as
`v₀`. -/
structure SafelyShared (mapping : Bytes) (v₀ v : SegmentVerifier) (calls : List VerifyCall) : Prop where
  marked : ∀ b < v₀.checksums.length, v.verified[b]? = some true → v₀.Matches mapping b
  counted : v.remaining = v.clearBits + calls.countP owes
  /-- No decrement takes `remaining` below zero. -/
  positive : ∀ call ∈ calls, call.owes = true → 0 < v.remaining
  full : v.fullyVerified = true → ∀ b < v₀.checksums.length, v₀.Matches mapping b
  passed : ∀ call ∈ calls, call.stage = .returned (.ok ()) → ∀ b < v₀.checksums.length,
    Meets call.start call.stop b → v₀.Matches mapping b
  returns : ∀ call ∈ calls, ∀ why, call.stage = .returned (.error why) → ∃ error, why = .err error

theorem concurrent_verification {layout : SegmentLayout} (laid : segmentLayout mapping = .ok layout)
    (offset : Nat) {pool : VerifyPool}
    (runs : VerifyRuns mapping ⟨SegmentVerifier.new offset layout false, []⟩ pool) :
    SafelyShared mapping (.new offset layout false) pool.shared pool.threads := by
  have sound : Sound mapping (SegmentVerifier.new offset layout false) :=
    sound_of_layout (segmentLayout_laidOut laid) offset nofun
  obtain ⟨tracks, knows⟩ := runs.holds (tracks_keeps sound)
    ⟨Same.refl _, sound.bits, sound.marked, sound.counted rfl, sound.full⟩ nofun
  have len := congrArg List.length tracks.same.checksums
  refine
    { marked := fun b below set => tracks.marked b (len ▸ below) set
      counted := tracks.counted
      positive := fun call member due => ?_
      full := fun full b below => tracks.marked b (len ▸ below) (tracks.full full b (len ▸ below))
      passed := fun call member is => ?_
      returns := fun call member why is => ?_ }
  · have some : 0 < pool.threads.countP owes := List.countP_pos_iff.mpr ⟨call, member, due⟩
    rw [tracks.counted]
    omega
  · have known := knows call member
    unfold Knows at known
    rw [is] at known
    exact known
  · have known := knows call member
    unfold Knows at known
    rw [is] at known
    exact known

/-- Two readers check the one block of a segment at once: both find its bit clear and its checksum
right.  One sets the bit (`racing`) and counts it off; the other finds it set and counts nothing. -/
theorem concurrent_verification_two : ∃ (mapping : Bytes) (layout : SegmentLayout) (racing pool : VerifyPool),
    segmentLayout mapping = .ok layout ∧
    VerifyRuns mapping ⟨SegmentVerifier.new 0 layout false, []⟩ racing ∧
    racing.threads.map VerifyCall.stage = [.marking 0, .counting 0] ∧
    racing.shared.verified[0]? = some true ∧ racing.shared.remaining = 1 ∧
    SafelyShared mapping (.new 0 layout false) racing.shared racing.threads ∧
    VerifyRuns mapping ⟨SegmentVerifier.new 0 layout false, []⟩ pool ∧
    pool.threads.map VerifyCall.stage = [.returned (.ok ()), .returned (.ok ())] ∧
    pool.shared.remaining = 0 ∧ pool.shared.fullyVerified = true ∧
    SafelyShared mapping (.new 0 layout false) pool.shared pool.threads := by
  have laid := @segmentLayout_written [7] [2260154298] rfl (by decide)
  let new := SegmentVerifier.new 0 ⟨[7], [2260154298].flatMap (leBytes 4)⟩ false
  let marked := { new with verified := new.verified.set 0 true }
  let reader (stage : VerifyStage) : VerifyCall := ⟨0, 1, stage⟩
  have passes : checkBlock ([7] ++ checksumMetadata 1 [2260154298]) new 0 = .ok () := by decide
  have checks : (reader (.checking 0)).move ([7] ++ checksumMetadata 1 [2260154298]) new =
      some (reader (.marking 0), new) := move_checking rfl passes
  have both : VerifyRuns ([7] ++ checksumMetadata 1 [2260154298]) ⟨new, []⟩
      ⟨new, [reader (.checking 0), reader (.checking 0)]⟩ :=
    (((((Pool.Runs.start.step (.enter _ _ _ ⟨0, 1, rfl⟩)).step (.enter _ _ _ ⟨0, 1, rfl⟩)).step
      (.move [] [_] rfl)).step (.move [_] [] rfl)).step (.move [] [_] rfl)).step (.move [_] [] rfl)
  have racing : VerifyRuns ([7] ++ checksumMetadata 1 [2260154298]) ⟨new, []⟩
      ⟨marked, [reader (.marking 0), reader (.counting 0)]⟩ :=
    ((both.step (.move [] [_] checks)).step (.move [_] [] checks)).step (.move [_] [] rfl)
  have returns (stage : VerifyStage) : (reader stage).past 0 = reader (.returned (.ok ())) :=
    congrArg (reader stage).moveTo (if_pos (Nat.zero_div _).symm)
  have set : marked.verified[0]? = some true := rfl
  have finds : (reader (.marking 0)).move ([7] ++ checksumMetadata 1 [2260154298]) marked =
      some (reader (.returned (.ok ())), marked) := by
    show some (if marked.verified[0]? = some true then _ else _,
      { marked with verified := marked.verified.set 0 true }) = _
    rw [if_pos set, set_of_set set, returns]
  have second : VerifyRuns ([7] ++ checksumMetadata 1 [2260154298]) ⟨new, []⟩
      ⟨marked, [reader (.returned (.ok ())), reader (.counting 0)]⟩ :=
    racing.step (.move [] [_] finds)
  have first : VerifyRuns ([7] ++ checksumMetadata 1 [2260154298]) ⟨new, []⟩
      ⟨{ marked with remaining := 0 }, [reader (.returned (.ok ())), reader (.storing 0)]⟩ :=
    second.step (.move [_] [] rfl)
  have done : VerifyRuns ([7] ++ checksumMetadata 1 [2260154298]) ⟨new, []⟩
      ⟨{ marked with remaining := 0, fullyVerified := true },
        [reader (.returned (.ok ())), reader (.returned (.ok ()))]⟩ :=
    first.step (.move [_] [] (congrArg (fun call => some (call, _)) (returns (.storing 0))))
  exact ⟨_, _, _, _, laid, racing, rfl, rfl, rfl, concurrent_verification laid 0 racing, done, rfl, rfl,
    rfl, concurrent_verification laid 0 done⟩

end Concurrent

end Lkv
