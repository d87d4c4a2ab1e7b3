import Preverification.Attribute.StackMap
import Preverification.Body.Layout
import Preverification.Typing.State

/-!
# Frames in class files

How frames are written down. Classes become constants and allocations become offsets, which gives a
frame of serialized types. A list of frames by offset is then put into one of the two attributes: a
`StackMap` holds each frame in full, and a `StackMapTable` the shortest way to say how it differs
from the frame in front of it.
-/

namespace Preverification

/-- A type as it stands in a class file. Classes that are missing in the pool are added to it. -/
def InferredType.serialize (layout : Layout) : InferredType → Pool.Edit SerializedType
  | .top => return .top
  | .integer => return .integer
  | .float => return .float
  | .double => return .double
  | .long => return .long
  | .null => return .null
  | .uninitializedThis => return .uninitializedThis
  | .object type => return .object (← Pool.addRefType type)
  | .uninitialized site =>
    return .uninitialized (UInt16.ofNat (← Pool.Edit.check (layout.labelOffset site)))

/-- A frame as it stands in a class file. Its stack comes first, and then its locals. -/
def Frame.serialize (layout : Layout) (frame : Frame InferredType) :
    Pool.Edit (Frame SerializedType) := do
  let stack ← frame.stack.toList.mapM (InferredType.serialize layout)
  let locals ← frame.locals.toList.mapM (InferredType.serialize layout)
  return ⟨.ofList locals, .ofList stack⟩

/-- A frame at an offset of the code. -/
structure PlacedFrame where
  offset : UInt16
  frame : Frame SerializedType
deriving Inhabited

namespace FrameDelta

/-- The most locals that a delta adds or removes without giving all of them. -/
def maxLocalChange : Nat := 3

/-- The shortest delta from one frame to another, at a distance from it. -/
def between (previous current : Frame SerializedType) (distance : UInt16) : FrameDelta :=
  let before := previous.locals.toList
  let after := current.locals.toList
  let inFull := full distance after current.stack.toList
  match current.stack.toList with
  | [] =>
    if after.isPrefixOf before ∧ before.length ≤ after.length + maxLocalChange then
      if before.length = after.length then same distance
      else chop distance (UInt8.ofNat (before.length - after.length))
    else if before.isPrefixOf after ∧ after.length ≤ before.length + maxLocalChange then
      append distance (after.drop before.length)
    else inFull
  | [type] => if after = before then sameOneStack distance type else inFull
  | _ => inFull

end FrameDelta

namespace StackMapTable

/-- The deltas of frames that follow a frame at an offset. -/
def deltasFrom (previous : PlacedFrame) : List PlacedFrame → List FrameDelta
  | [] => []
  | current :: rest =>
    FrameDelta.between previous.frame current.frame (current.offset - previous.offset - 1) ::
      deltasFrom current rest

/-- The table of frames in the order of their offsets. The frame with which the method is entered is
known; the first distance is counted from the start of the code, every other one from the byte
behind the offset of the frame in front. -/
def ofFrames (entry : Frame SerializedType) : List PlacedFrame → StackMapTable
  | [] => ⟨[]⟩
  | first :: rest =>
    ⟨FrameDelta.between entry first.frame first.offset :: deltasFrom first rest⟩

end StackMapTable

/-- The map of frames in the order of their offsets. -/
def StackMap.ofFrames (frames : List PlacedFrame) : StackMap :=
  ⟨frames.map fun placed =>
    ⟨placed.offset, placed.frame.locals.toList, placed.frame.stack.toList⟩⟩

/-- The attribute in which the frames of a method are kept. -/
inductive FrameFormat where
  | stackMapTable
  | stackMap
deriving DecidableEq, Repr

/-- The attribute that holds some frames, unless there are none. A table depends on what is known
where the method is entered; that frame is written down behind the others. -/
def Pool.addFrames (format : FrameFormat) (layout : Layout) (entry : Frame InferredType)
    (frames : List PlacedFrame) : Pool.Edit (List Attribute) := do
  if frames.isEmpty then return []
  match format with
  | .stackMapTable =>
    let entry ← entry.serialize layout
    return [← Pool.addAttribute (StackMapTable.ofFrames entry frames)]
  | .stackMap => return [← Pool.addAttribute (StackMap.ofFrames frames)]

end Preverification
