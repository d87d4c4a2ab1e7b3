import Preverification.Attribute.Basic
import Preverification.VerificationType

/-!
# Stack maps

Two attributes of code hold the types of locals and stack at certain offsets. A `StackMap` stores
each frame in full at its offset. A `StackMapTable` stores how each frame differs from the one in
front of it, and the distance between the two.
-/

namespace Preverification

/-- How a frame is given by the frame in front of it. The stack is empty unless it is named. The
locals stay as they are, some of the last ones are gone, there are more, or all are given. -/
inductive FrameDelta where
  | same (distance : UInt16)
  | sameOneStack (distance : UInt16) (type : SerializedType)
  | chop (distance : UInt16) (count : UInt8)
  | append (distance : UInt16) (types : List SerializedType)
  | full (distance : UInt16) (locals stack : List SerializedType)
deriving DecidableEq, Repr

namespace FrameDelta

/-- The form of a frame. The tag tells the kind, and short distances are part of it. -/
def write : FrameDelta → Bytes
  | same distance =>
    if distance ≤ 63 then [distance.toUInt8] else 251 :: Bytes.ofUInt16 distance
  | sameOneStack distance type =>
    (if distance ≤ 63 then [distance.toUInt8 + 64] else 247 :: Bytes.ofUInt16 distance) ++
      type.write
  | chop distance count => (251 - count) :: Bytes.ofUInt16 distance
  | append distance types =>
    (251 + UInt8.ofNat types.length) :: Bytes.ofUInt16 distance ++
      types.flatMap SerializedType.write
  | full distance locals stack =>
    255 :: Bytes.ofUInt16 distance ++ Bytes.ofList SerializedType.write locals ++
      Bytes.ofList SerializedType.write stack

/-- Reads a frame. -/
def read : Reader FrameDelta := do
  let tag ← Reader.uint8
  if tag ≤ 63 then return same tag.toUInt16
  else if tag ≤ 127 then return sameOneStack (tag.toUInt16 - 64) (← SerializedType.read)
  else if tag ≤ 246 then throw (.malformedAttribute "StackMapTable")
  else
    let distance ← Reader.uint16
    if tag = 247 then return sameOneStack distance (← SerializedType.read)
    else if tag ≤ 250 then return chop distance (251 - tag)
    else if tag = 251 then return same distance
    else if tag ≤ 254 then
      return append distance (← Reader.many SerializedType.read [] (tag.toNat - 251))
    else
      return full distance (← Reader.list SerializedType.read)
        (← Reader.list SerializedType.read)

end FrameDelta

/-- The frames of a method, each given by the one in front of it. -/
structure StackMapTable where
  frames : List FrameDelta
deriving DecidableEq, Repr

instance : AttributeContents StackMapTable where
  name := "StackMapTable"
  read := return ⟨← Reader.list FrameDelta.read⟩
  write table := Bytes.ofList FrameDelta.write table.frames

/-- A frame in full, for the instruction at an offset. -/
structure StackMapEntry where
  offset : UInt16
  locals : List SerializedType
  stack : List SerializedType
deriving DecidableEq, Repr

namespace StackMapEntry

/-- The form of a frame. -/
def write (entry : StackMapEntry) : Bytes :=
  Bytes.ofUInt16 entry.offset ++ Bytes.ofList SerializedType.write entry.locals ++
    Bytes.ofList SerializedType.write entry.stack

/-- Reads a frame. -/
def read : Reader StackMapEntry := do
  let offset ← Reader.uint16
  let locals ← Reader.list SerializedType.read
  return ⟨offset, locals, ← Reader.list SerializedType.read⟩

end StackMapEntry

/-- The frames of a method, each in full. -/
structure StackMap where
  entries : List StackMapEntry
deriving DecidableEq, Repr

instance : AttributeContents StackMap where
  name := "StackMap"
  read := return ⟨← Reader.list StackMapEntry.read⟩
  write map := Bytes.ofList StackMapEntry.write map.entries

end Preverification
