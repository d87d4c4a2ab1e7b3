import Preverification.Body.Encode
import Preverification.Typing.Frames
import Preverification.Typing.Reachability

/-!
# Code with frames

The last step in the treatment of a method: what type inference has found out is put into the code.
Unreachable operations go, the declared numbers of slots are raised to what is needed, and a frame
is written down for every operation to which control may jump.
-/

namespace Preverification

open MonadExcept (ofExcept)

/-- A body under work, and the pool that holds its constants. -/
structure MethodDraft where
  body : Body
  constants : Pool

/-- A change to a draft. When it fails the draft keeps what was done before. -/
abbrev Emission := EStateM StructuralError MethodDraft

namespace Emission

/-- Changes the pool. -/
def edit {α : Type} (change : Pool.Edit α) : Emission α := fun draft =>
  match change draft.constants with
  | .ok value constants => .ok value { draft with constants }
  | .error error constants => .error error { draft with constants }

/-- Replaces the body. -/
def setBody (body : Body) : Emission Unit := modify fun draft => { draft with body }

/-- A number of slots in the form of a class file. -/
def slots (needed : Nat) (tooMany : Nat → StructuralError) : Emission UInt16 :=
  if needed ≤ 65535 then return UInt16.ofNat needed else throw (tooMany needed)

/-- Raises the declared numbers of slots to those that are needed. -/
def raiseSlots (analysis : Analysis) : Emission Unit := do
  let body := (← get).body
  let maxStack ← slots (max analysis.maxStack body.maxStack.toNat) .stackTooHigh
  setBody { body with maxStack }
  let maxLocals ← slots (max analysis.maxLocals body.maxLocals.toNat) .tooManyLocals
  setBody { body with maxStack, maxLocals }

/-- Whether an attribute holds frames. -/
def holdsFrames (pool : Pool) (attr : Attribute) : Except StructuralError Bool := do
  return (← attr.holds StackMapTable pool) || (← attr.holds StackMap pool)

/-- Leaves out attributes that hold frames. When one has no name all of them are lost. -/
def dropFrames : Emission Unit := do
  let { body, constants } ← get
  setBody { body with attributes := [] }
  let attributes ← ofExcept (body.attributes.filterM fun attr =>
    return !(← holdsFrames constants attr))
  setBody { body with attributes }

/-- Writes down the frame of an operation, given its layout and what is known in front of it. -/
def placeFrame (layout : Layout) (offset : Nat) (state : TypeState) : Pool.Edit PlacedFrame :=
  return ⟨UInt16.ofNat offset, ← state.toFrame.serialize layout⟩

/-- What is known in front of the operations to which control may jump, by offset. The nodes of the
layout are those at some positions of the body that was analysed. -/
def frameStates (analysis : Analysis) (targets : List Nat) (positions : List Nat)
    (layout : Layout) : List (Nat × TypeState) :=
  let wanted : Std.HashSet Nat := .ofList targets
  (positions.zip layout.nodes).filterMap fun (position, _, offset, _) =>
    if wanted.contains position then (analysis.state? position).map ((offset, ·)) else none

/-- Turns the body into code with frames, when it was analysed from an entry state on. -/
def emit (analysis : Analysis) (entry : TypeState) (format : FrameFormat) : Emission Code := do
  let body := (← get).body
  let targets ← ofExcept body.frameTargets
  let positions := analysis.keptPositions body.nodes
  setBody (← ofExcept (body.removeUnreachable analysis))
  raiseSlots analysis
  dropFrames
  let body := (← get).body
  let layout ← ofExcept body.layout
  let states := frameStates analysis targets positions layout
  let frames ← edit (states.mapM fun (offset, state) => placeFrame layout offset state)
  let extra ← edit (Pool.addFrames format layout entry.toFrame frames)
  edit (body.encode layout extra)

end Emission

end Preverification
