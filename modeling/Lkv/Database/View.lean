/-
# Lkv.Database.View — point reads

`database/view.rs`.  A read takes the overlay first and then probes the Base.
In `OnRead` mode a block is checked before its bytes are used and remembered in
the verifier, so a read is a program on the verifier's state.
-/
import Lkv.Database.State

namespace Lkv

open Lkv.Theory

set_option autoImplicit false

structure BaseView where
  mapping : BaseBytes
  offset : Nat
  slots : Nat
  /-- `verifier.data_size()`, which never changes. -/
  dataSize : Nat
  deriving DecidableEq

structure ReadView where
  base : BaseView
  overlay : OverlayMap
  verification : VerificationMode
  deriving DecidableEq

/-- `if verify_on_read { verifier.verify_range(..)? }`. -/
def verifyOnReadRange (verifyOnRead : Bool) (mapping : Bytes) (start stop : Nat) :
    Prog SegmentVerifier Stop Unit :=
  Prog.onlyIf verifyOnRead (SegmentVerifier.verifyRange mapping start stop)

/-- Compare the key of the record a slot points to.  `some` ends the lookup,
`none` goes on to the next slot. -/
def probeRecord (mapping : Bytes) (verifyOnRead : Bool) (segmentOffset : Nat) (key : Bytes)
    (absoluteOffset : Nat) : Prog SegmentVerifier Stop (Option (Option Bytes)) := do
  let dataSize := (← Prog.state).dataSize
  match checkedSub absoluteOffset segmentOffset with
  | none => return some none
  | some offset =>
    match checkedAdd offset 8 with
    | none => return some none
    | some headerEnd =>
      match getRange mapping offset headerEnd with
      | none => return some none
      | some header =>
        if headerEnd > dataSize then return some none
        else
          match checkedAdd headerEnd (leNat (window header 0 4)) with
          | none => return some none
          | some valueStart =>
            match checkedAdd valueStart (leNat (window header 4 4)) with
            | none => return some none
            | some valueEnd =>
                verifyOnReadRange verifyOnRead mapping offset valueEnd
                if valueEnd ≤ dataSize ∧ getRange mapping headerEnd valueStart = some key then
                  return some (getRange mapping valueStart valueEnd)
                else return none

/-- `count` more probes, the next at distance `probe` from the key's home slot. -/
def lookupFrom (mapping : Bytes) (verifyOnRead : Bool) (segmentOffset slots : Nat) (key : Bytes)
    (keyHash : Nat) : Nat → Nat → Prog SegmentVerifier Stop (Option Bytes)
  | 0, _ => return none
  | count + 1, probe => do
      let slot := ((keyHash + probe) % 2 ^ 64) &&& (slots - 1)
      let slotOffset := baseHeader + slot * slotSize
      verifyOnReadRange verifyOnRead mapping slotOffset (slotOffset + slotSize)
      let storedFingerprint ← Prog.lift (u32At mapping slotOffset)
      let absoluteOffset ← Prog.lift (u64At mapping (slotOffset + 4))
      if absoluteOffset = 0 then return none
      else if storedFingerprint = keyHash >>> 32 then
        match ← probeRecord mapping verifyOnRead segmentOffset key absoluteOffset with
        | some result => return result
        | none => lookupFrom mapping verifyOnRead segmentOffset slots key keyHash count (probe + 1)
      else lookupFrom mapping verifyOnRead segmentOffset slots key keyHash count (probe + 1)

def lookupSegment (mapping : Bytes) (verification : VerificationMode) (segmentOffset slots : Nat)
    (key : Bytes) (keyHash : Nat) : Prog SegmentVerifier Stop (Option Bytes) := do
  if slots = 0 then return none
  else
    let verifyOnRead := verification = .onRead && !(← Prog.state).fullyVerified
    lookupFrom mapping verifyOnRead segmentOffset slots key keyHash slots 0

/-- `Database::read_view` and `Snapshot::read_view`. -/
def ActiveBase.readView (base : ActiveBase) (overlay : OverlayMap)
    (verification : VerificationMode) : ReadView :=
  ⟨⟨base.mapping, base.offset, base.slots, base.verifier.dataSize⟩, overlay, verification⟩

namespace ReadView

def get (C : Crates) (file : File) (view : ReadView) (key : Bytes) :
    Prog SegmentVerifier Stop (Option Bytes) := do
  match ← Prog.lift (view.overlay.getHashed file key) with
  | some value => return value
  | none =>
      lookupSegment (view.base.mapping.deref file) view.verification view.base.offset
        view.base.slots key (C.hash key)

/-- `verify_pair`; `range` is where the pair lies in the Base, if it does (`pair_range`). -/
def verifyPair (file : File) (view : ReadView) (range : Option (Nat × Nat)) :
    Prog SegmentVerifier Stop Unit :=
  if view.verification ≠ .onRead then pure ()
  else
    match range with
    | some (start, stop) =>
        SegmentVerifier.verifyRange (view.base.mapping.deref file) start stop
    | none => pure ()

end ReadView

end Lkv
