/-!
# Access flags

Sixteen bits that say how a class, a field or a method may be used. Bits without a meaning are
cleared when a class file is read.
-/

namespace Preverification

/-- The flags of a class, a field or a method. -/
structure AccessFlags where
  bits : UInt16
deriving DecidableEq, Repr, Inhabited

namespace AccessFlags

/-- Whether a flag is set. -/
def has (flags : AccessFlags) (flag : UInt16) : Bool := flags.bits &&& flag == flag

/-- The flag of static fields and methods. -/
def static : UInt16 := 0x0008

/-- The flag of native methods. -/
def native : UInt16 := 0x0100

/-- The flag of interfaces. -/
def interface : UInt16 := 0x0200

/-- The bits that mean something on a class. -/
def classMask : UInt16 := 0xF631

/-- The bits that mean something on a field. -/
def fieldMask : UInt16 := 0x50DF

/-- The bits that mean something on a method. -/
def methodMask : UInt16 := 0x1DFF

/-- The flags that are left of some bits when those outside a mask are cleared. -/
def ofBits (mask bits : UInt16) : AccessFlags := ⟨bits &&& mask⟩

/-- The flags of an ordinary public class. -/
def publicClass : AccessFlags := ⟨0x0021⟩

end AccessFlags

end Preverification
