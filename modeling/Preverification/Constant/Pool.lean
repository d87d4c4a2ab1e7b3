import Preverification.Constant.Basic
import Std.Data.HashMap

/-!
# Constant pools

A `Pool` holds the constants of a class, the first one at index one. Pools only grow: an index that
was given out keeps its meaning. Texts and classes are added once and found again afterwards; all
other constants are added each time. Adding fails when the pool has no room, and what was added
before the failure stays.
-/

namespace Preverification

open MonadExcept (ofExcept)

/-- The constants of a class by index, with the first index of each text, and of the class whose
name is at an index. -/
structure Pool where
  constants : WidthVector Constant
  texts : Std.HashMap String PoolIndex
  classes : Std.HashMap PoolIndex PoolIndex

namespace Pool

/-- The pool without constants. -/
def empty : Pool := ⟨.emptyAt 1, ∅, ∅⟩

instance : EmptyCollection Pool := ⟨empty⟩

instance : Inhabited Pool := ⟨empty⟩

/-- The number of indices that are taken, and one more for index zero. -/
def count (pool : Pool) : Nat := pool.constants.offsetLength

/-- The constants in order, each with its index. -/
def entries (pool : Pool) : List (Nat × Constant) := pool.constants.entries.toList

/-- Notes the index of a text or a class, unless an earlier one is known. -/
def remember (pool : Pool) (index : PoolIndex) : Constant → Pool
  | .utf8 text => { pool with texts := pool.texts.insertIfNew text index }
  | .classRef name => { pool with classes := pool.classes.insertIfNew name index }
  | _ => pool

/-- Adds a constant at the end, whether there is room or not. -/
def push (pool : Pool) (constant : Constant) : Pool :=
  let noted := pool.remember (UInt16.ofNat pool.count) constant
  { noted with constants := noted.constants.push constant }

/-! ### Adding constants -/

/-- A change to a pool that answers with a value, often an index. When it fails the pool keeps what
was added before. -/
abbrev Edit := EStateM StructuralError Pool

/-- Lets a check decide whether a change goes on. -/
abbrev Edit.check {α : Type} (result : Except StructuralError α) : Edit α := ofExcept result

/-- Adds a constant at the end. The highest index that may be taken is 65534. -/
def add (constant : Constant) : Edit PoolIndex := fun pool =>
  if pool.count + width constant ≤ 65535 then
    .ok (UInt16.ofNat pool.count) (pool.push constant)
  else .error (.poolOverflow pool.count) pool

/-- The index of a text, which is added if it is not there. -/
def addUtf8 (text : String) : Edit PoolIndex := do
  match (← get).texts[text]? with
  | some index => return index
  | none => add (.utf8 text)

/-- The index of a class, given by the text of its constant; what is not there is added. -/
def addClass (name : String) : Edit PoolIndex := do
  let name ← addUtf8 name
  match (← get).classes[name]? with
  | some index => return index
  | none => add (.classRef name)

/-- The index of the class constant of a type. -/
def addRefType (type : RefType) : Edit PoolIndex := addClass type.classConstant

/-- Adds a string constant. -/
def addString (text : String) : Edit PoolIndex := do add (.string (← addUtf8 text))

/-- Adds a name with a descriptor. -/
def addNameAndType (name descriptor : String) : Edit PoolIndex := do
  add (.nameAndType (← addUtf8 name) (← addUtf8 descriptor))

/-- Adds a field of a class. -/
def addFieldRef (owner name descriptor : String) : Edit PoolIndex := do
  add (.fieldRef (← addClass owner) (← addNameAndType name descriptor))

/-- Adds a method of a class or of an interface. -/
def addMethodRef (owner name descriptor : String) (ofInterface : Bool) : Edit PoolIndex := do
  let owner ← addClass owner
  add (.methodRef owner (← addNameAndType name descriptor) ofInterface)

/-! ### Looking constants up -/

/-- The constant at an index. -/
def get? (pool : Pool) (index : PoolIndex) : Option Constant :=
  (pool.constants.lookup index.toNat).toOption

/-- The constant at an index, with the words for what is wrong if there is none. -/
def get (pool : Pool) (index : PoolIndex) (expected : Expectation) :
    Except StructuralError Constant :=
  match pool.get? index with
  | some constant => pure constant
  | none => throw (.badConstantIndex index expected)

/-- The text at an index. -/
def utf8 (pool : Pool) (index : PoolIndex) : Except StructuralError String :=
  match pool.get? index with
  | some (.utf8 text) => pure text
  | _ => throw (.badConstantIndex index .utf8)

/-- The text of the class constant at an index. -/
def className (pool : Pool) (index : PoolIndex) : Except StructuralError String :=
  match pool.get? index with
  | some (.classRef name) => pool.utf8 name
  | _ => throw (.badConstantIndex index .classRef)

/-- The type that the class constant at an index stands for. -/
def classType (pool : Pool) (index : PoolIndex) : Except StructuralError RefType := do
  RefType.ofClassConstant (← pool.className index)

/-- The name of the class at an index, which must not be an array. -/
def binaryName (pool : Pool) (index : PoolIndex) : Except StructuralError BinaryName := do
  (BinaryName.ofString (← pool.className index)).mapError .badName

/-- The name and the descriptor at an index. -/
def nameAndType (pool : Pool) (index : PoolIndex) : Except StructuralError (String × String) :=
  match pool.get? index with
  | some (.nameAndType name descriptor) => return (← pool.utf8 name, ← pool.utf8 descriptor)
  | _ => throw (.badConstantIndex index .nameAndType)

/-- A field or a method of a class, which is a constant. -/
structure MemberRef where
  owner : PoolIndex
  name : String
  descriptor : String
deriving DecidableEq, Repr

/-- The field at an index. -/
def fieldRef (pool : Pool) (index : PoolIndex) : Except StructuralError MemberRef :=
  match pool.get? index with
  | some (.fieldRef owner member) => do
    let (name, descriptor) ← pool.nameAndType member
    pure ⟨owner, name, descriptor⟩
  | _ => throw (.badConstantIndex index .fieldRef)

/-- The method at an index. -/
def methodRef (pool : Pool) (index : PoolIndex) : Except StructuralError MemberRef :=
  match pool.get? index with
  | some (.methodRef owner member _) => do
    let (name, descriptor) ← pool.nameAndType member
    pure ⟨owner, name, descriptor⟩
  | _ => throw (.badConstantIndex index .methodRef)

/-- The descriptor of the dynamic call at an index. -/
def invokeDynamicDescriptor (pool : Pool) (index : PoolIndex) : Except StructuralError String :=
  match pool.get? index with
  | some (.invokeDynamic _ member) => return (← pool.nameAndType member).2
  | _ => throw (.badConstantIndex index .invokeDynamic)

/-! ### Checking indices -/

/-- Checks that there is a text at an index, and answers with the index. -/
def utf8Index (pool : Pool) (index : PoolIndex) : Except StructuralError PoolIndex :=
  match pool.get? index with
  | some (.utf8 _) => pure index
  | _ => throw (.badConstantIndex index .utf8)

/-- Checks that there is a class at an index. -/
def classIndex (pool : Pool) (index : PoolIndex) : Except StructuralError PoolIndex :=
  match pool.get? index with
  | some (.classRef _) => pure index
  | _ => throw (.badConstantIndex index .classRef)

/-- Checks that there is a class at an index; zero stands for no class. -/
def optionalClassIndex (pool : Pool) (index : PoolIndex) :
    Except StructuralError (Option PoolIndex) :=
  if index = 0 then pure none else some <$> pool.classIndex index

/-- Checks that there is a field at an index. -/
def fieldRefIndex (pool : Pool) (index : PoolIndex) : Except StructuralError PoolIndex :=
  match pool.get? index with
  | some (.fieldRef ..) => pure index
  | _ => throw (.badConstantIndex index .fieldRef)

/-- Checks that there is a method at an index. -/
def methodRefIndex (pool : Pool) (index : PoolIndex) : Except StructuralError PoolIndex :=
  match pool.get? index with
  | some (.methodRef ..) => pure index
  | _ => throw (.badConstantIndex index .methodRef)

/-- Checks that there is a dynamic call at an index. -/
def invokeDynamicIndex (pool : Pool) (index : PoolIndex) : Except StructuralError PoolIndex :=
  match pool.get? index with
  | some (.invokeDynamic ..) => pure index
  | _ => throw (.badConstantIndex index .invokeDynamic)

/-- Checks that the constant at an index can be loaded as a value of two slots, if `isWide`, or of
one slot. The width of a dynamic constant is that of its descriptor. -/
def loadableIndex (pool : Pool) (index : PoolIndex) (isWide : Bool) :
    Except StructuralError PoolIndex := do
  let expected := if isWide then Expectation.wideLoadable else .loadable
  let unexpected := StructuralError.badConstantIndex index expected
  let foundWide ← match pool.get? index with
    | some (.long _) | some (.double _) => pure true
    | some (.integer _) | some (.float _) | some (.string _) | some (.classRef _)
    | some (.methodHandle ..) | some (.methodType _) => pure false
    | some (.dynamic _ member) => do
      let descriptor := (← pool.nameAndType member).2
      pure (descriptor == "J" || descriptor == "D")
    | _ => throw unexpected
  if foundWide = isWide then pure index else throw unexpected

/-- Checks that a constant refers to constants of the right kinds. -/
def checkReferences (pool : Pool) : Constant → Except StructuralError Unit
  | .classRef name | .string name | .moduleRef name | .packageRef name | .methodType name =>
    discard (pool.utf8 name)
  | .fieldRef owner member | .methodRef owner member _ => do
    discard (pool.className owner)
    discard (pool.nameAndType member)
  | .nameAndType name descriptor => do
    discard (pool.utf8 name)
    discard (pool.utf8 descriptor)
  | .methodHandle kind member =>
    if kind.isFieldAccess then discard (pool.fieldRefIndex member)
    else discard (pool.methodRefIndex member)
  | .dynamic _ member | .invokeDynamic _ member => discard (pool.nameAndType member)
  | .integer _ | .float _ | .long _ | .double _ | .utf8 _ => pure ()

/-! ### The form in a class file -/

/-- A count, which is one more than the last index, and the constants. -/
def write (pool : Pool) : Bytes :=
  Bytes.ofCount pool.count ++ pool.constants.toList.flatMap Constant.write

/-- Reads constants until `count` is reached. Each takes up at least one index, so `count` rounds
are enough. -/
def readConstants (count : Nat) : (rounds : Nat) → Pool → Reader Pool
  | 0, pool => return pool
  | rounds + 1, pool => do
    if count ≤ pool.count then return pool
    let index := UInt16.ofNat pool.count
    let constant ← Constant.read index
    if count < pool.count + width constant then throw (.badConstantIndex index .insidePool)
    readConstants count rounds (pool.push constant)

/-- Reads a pool and checks that its constants refer to each other as they should. -/
def read : Reader Pool := do
  let count ← Reader.nat 2
  let pool ← readConstants count count empty
  ofExcept (pool.constants.toList.forM pool.checkReferences)
  return pool

end Pool

end Preverification
