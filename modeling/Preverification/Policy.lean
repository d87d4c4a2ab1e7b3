import Preverification.Subroutine.Inline
import Preverification.Typing.Frames

/-!
# Policies

A `Policy` tells which features a class may use, and how it is written. The two presets are those of
the two configurations for small devices; they differ in whether `float` and `double` are allowed.
-/

namespace Preverification

/-- Which features a class may use, and how it is written: in which attribute frames are kept,
whether fields that are not static lose their constant values, which have no effect, and how much
code inlining may give. -/
structure Policy where
  allowsNative : Bool
  allowsFinalizers : Bool
  allowsFloatingPoint : Bool
  frameFormat : FrameFormat
  stripsInstanceConstants : Bool
  inliningLimits : InliningLimits
deriving DecidableEq, Repr

namespace Policy

/-- The limits of the presets. -/
def defaultLimits : InliningLimits := ⟨16, 65535⟩

/-- The first configuration: no native methods, no finalizers, and no floating point. -/
def cldc10 : Policy where
  allowsNative := false
  allowsFinalizers := false
  allowsFloatingPoint := false
  frameFormat := .stackMap
  stripsInstanceConstants := true
  inliningLimits := defaultLimits

/-- The second configuration: as the first one, but with floating point. -/
def cldc11 : Policy := { cldc10 with allowsFloatingPoint := true }

instance : Inhabited Policy := ⟨cldc11⟩

end Policy

end Preverification
