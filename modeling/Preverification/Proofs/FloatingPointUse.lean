import Preverification.Proofs.SameReports
import Preverification.Proofs.Validations

/-!
# What uses floating point

The types and the operations that use floating point, told by opcodes and by chains of superclasses.
When a policy rules out floating point, a validation objects to these and to no others, whatever it
found out before.

* `Instruction.isFloatingPoint_iff`: the instructions that work on floating point are told by their
  opcodes.
* `Headers.FloatingPoint`, `Operation.UsesFloatingPoint`: the types and operations that have to do
  with it.
* `Policy.checkType_ok`, `Policy.checkOperation_ok`: a validation objects to these and to no others.
-/

namespace Preverification

/-! ### Opcodes -/

namespace Instruction

/-- The opcode of an instruction. It may stand behind the `wide` opcode. -/
def opcode? (instruction : Instruction) : Option UInt8 :=
  match instruction.write with
  | [] => none
  | first :: rest => if first = wide then rest.head? else some first

/-- The opcodes of the instructions that push, load, store, compute with, convert or compare `float`
or `double` values. -/
def floatingPointOpcodes : List UInt8 :=
  [0x0B, 0x0C, 0x0D, 0x0E, 0x0F,
    0x17, 0x18, 0x22, 0x23, 0x24, 0x25, 0x26, 0x27, 0x28, 0x29, 0x30, 0x31,
    0x38, 0x39, 0x43, 0x44, 0x45, 0x46, 0x47, 0x48, 0x49, 0x4A, 0x51, 0x52,
    0x62, 0x63, 0x66, 0x67, 0x6A, 0x6B, 0x6E, 0x6F, 0x72, 0x73, 0x76, 0x77,
    0x86, 0x87, 0x89, 0x8A, 0x8B, 0x8C, 0x8D, 0x8E, 0x8F, 0x90,
    0x95, 0x96, 0x97, 0x98]

/-- The opcode of a load or a store is the normal one or one of four short ones. -/
theorem writeLocal_cases (normal short : UInt8) (slot : UInt16) :
    (∃ near ∈ [0, 1, 2, 3], writeLocal normal short slot = [short + near]) ∨
      (writeLocal normal short slot = [normal, slot.toUInt8]) ∨
      writeLocal normal short slot = wide :: normal :: Bytes.ofUInt16 slot := by
  unfold writeLocal
  split
  · rename_i hnear
    have hall : ∀ near : Fin 4, UInt8.ofNat near ∈ ([0, 1, 2, 3] : List UInt8) := by decide
    have hlt : slot.toNat < 4 := Nat.lt_succ_of_le (UInt16.le_iff_toNat_le.1 hnear)
    have hmem := hall ⟨slot.toNat, hlt⟩
    rw [UInt8.ofNat_uInt16ToNat] at hmem
    exact .inl ⟨slot.toUInt8, hmem, rfl⟩
  · split
    · exact .inr (.inl rfl)
    · exact .inr (.inr rfl)

/-- Whatever the slot is, what is true of all opcodes of an instruction is true of the one it has.
-/
theorem any_opcode?_local (P : UInt8 → Bool) {instruction : Instruction} {normal short : UInt8}
    {slot : UInt16} {answer : Bool} (h : instruction.write = writeLocal normal short slot)
    (hwide : normal ≠ wide) (hnormal : P normal = answer)
    (hshort : ∀ near ∈ [0, 1, 2, 3], short + near ≠ wide ∧ P (short + near) = answer) :
    instruction.opcode?.any P = answer := by
  unfold opcode?
  rw [h]
  rcases writeLocal_cases normal short slot with ⟨near, hmem, hwrite⟩ | hwrite | hwrite
  · obtain ⟨hwide', hnear⟩ := hshort near hmem
    rw [hwrite]
    dsimp only
    rw [if_neg hwide']
    exact hnear
  · rw [hwrite]
    dsimp only
    rw [if_neg hwide]
    exact hnormal
  · rw [hwrite]
    exact hnormal

/-- Which instructions work on floating-point values can be told by their opcodes. -/
theorem isFloatingPoint_eq (instruction : Instruction) :
    instruction.isFloatingPoint = instruction.opcode?.any (floatingPointOpcodes.contains ·) := by
  symm
  cases instruction with
  | intConst choice => revert choice; decide +kernel
  | longConst value => revert value; decide +kernel
  | floatConst value => revert value; decide +kernel
  | doubleConst value => revert value; decide +kernel
  -- two opcodes, by the size of the index
  | loadConstant constant =>
    unfold opcode?
    by_cases h : constant ≤ 255
    · rw [write, if_pos h]
      rfl
    · rw [write, if_neg h]
      rfl
  -- whatever the slot is, the kind decides
  | load kind slot =>
    change _ = (decide (kind = .float) || decide (kind = .double))
    refine any_opcode?_local _ rfl ?_ ?_ ?_
    all_goals cases kind <;> decide +kernel
  | store kind slot =>
    change _ = (decide (kind = .float) || decide (kind = .double))
    refine any_opcode?_local _ rfl ?_ ?_ ?_
    all_goals cases kind <;> decide +kernel
  | arrayLoad kind => cases kind <;> decide +kernel
  | arrayStore kind => cases kind <;> decide +kernel
  | shuffle op => cases op <;> decide +kernel
  | arithmetic op kind => cases op <;> cases kind <;> decide +kernel
  | negate kind => cases kind <;> decide +kernel
  | shift op kind => cases op <;> cases kind <;> decide +kernel
  | bitwise op kind => cases op <;> cases kind <;> decide +kernel
  -- two opcodes again, by the size of both operands
  | increment slot amount =>
    unfold opcode?
    by_cases h : slot ≤ 255 ∧ -128 ≤ amount ∧ amount ≤ 127
    · rw [write, if_pos h]
      rfl
    · rw [write, if_neg h]
      rfl
  | convert source target distinct => cases source <;> cases target <;> rfl
  | narrow target => cases target <;> decide +kernel
  | compareFloats unordered => cases unordered <;> decide +kernel
  | compareDoubles unordered => cases unordered <;> decide +kernel
  | invoke kind method => cases kind <;> rfl
  | _ => rfl

/-- An instruction is about floating point exactly if its opcode is in the list of such opcodes. -/
theorem isFloatingPoint_iff {instruction : Instruction} : instruction.isFloatingPoint = true ↔
    ∃ opcode ∈ floatingPointOpcodes, instruction.opcode? = some opcode := by
  rw [isFloatingPoint_eq, Option.any_eq_true]
  simp only [List.contains_iff_mem, and_comm]

end Instruction

/-! ### Types and operations -/

/-- The types that have to do with floating point: the values, the classes that wrap them, and the
classes with one of these as a superclass. The root is none of them, whatever its header is. -/
inductive Headers.FloatingPoint (headers : Headers) : FieldType → Prop where
  | float : FloatingPoint headers (.base .float)
  | double : FloatingPoint headers (.base .double)
  | floatWrapper : FloatingPoint headers (.object .float)
  | doubleWrapper : FloatingPoint headers (.object .double)
  | extends {name : BinaryName} {looked chain : List BinaryName} (hroot : name ≠ .object)
    (hchain : headers.Chain [] name looked (.ok chain))
    (h : BinaryName.float ∈ chain ∨ BinaryName.double ∈ chain) :
    FloatingPoint headers (.object name)

/-- The operations that use floating point: by their opcode, as a return of such a value, or as they
make an array of which the innermost elements have to do with floating point. -/
inductive Operation.UsesFloatingPoint {L : Type} (headers : Headers) (pool : Pool) :
    Operation L → Prop where
  | opcode {instruction : Instruction} {opcode : UInt8} (h : instruction.opcode? = some opcode)
    (hmem : opcode ∈ Instruction.floatingPointOpcodes) :
    UsesFloatingPoint headers pool (.step instruction)
  | returnFloat : UsesFloatingPoint headers pool (.branch (.returnValue .float))
  | returnDouble : UsesFloatingPoint headers pool (.branch (.returnValue .double))
  | newFloats : UsesFloatingPoint headers pool (.step (.newArray .float))
  | newDoubles : UsesFloatingPoint headers pool (.step (.newArray .double))
  | newRefArray {index : PoolIndex} {type : RefType} (h : pool.classType index = .ok type)
    (htype : headers.FloatingPoint type.innermost) :
    UsesFloatingPoint headers pool (.step (.newRefArray index))
  | newMultiArray {index : PoolIndex} {type : RefType} (dimensions : UInt8)
    (h : pool.classType index = .ok type) (htype : headers.FloatingPoint type.innermost) :
    UsesFloatingPoint headers pool (.step (.newMultiArray index dimensions))

namespace Operation

variable {L : Type} {headers : Headers} {pool : Pool}

/-- A branch uses floating point if it returns such a value. -/
theorem usesFloatingPoint_branch {b : Branch L} :
    (branch b).UsesFloatingPoint headers pool ↔ b.isFloatingPoint = true := by
  constructor
  · rintro (_ | _)
    · rfl
    · rfl
  · intro h
    cases b with
    | returnValue kind =>
      cases kind with
      | float => exact .returnFloat
      | double => exact .returnDouble
      | _ => cases h
    | _ => cases h

/-- An array of numbers does if its elements do. -/
theorem usesFloatingPoint_newArray {element : BaseType} :
    (step (L := L) (.newArray element)).UsesFloatingPoint headers pool ↔
      element.isFloatingPoint = true := by
  constructor
  · rintro (⟨hopcode, hmem⟩ | _ | _)
    · cases Instruction.isFloatingPoint_iff.2 ⟨_, hmem, hopcode⟩
    · rfl
    · rfl
  · intro h
    cases element with
    | float => exact .newFloats
    | double => exact .newDoubles
    | _ => cases h

variable {index : PoolIndex} {type : RefType}

/-- An array of objects does if the class of these has to do with floating point. -/
theorem usesFloatingPoint_newRefArray (h : pool.classType index = .ok type) :
    (step (L := L) (.newRefArray index)).UsesFloatingPoint headers pool ↔
      headers.FloatingPoint type.innermost := by
  refine ⟨fun huses => ?_, .newRefArray h⟩
  cases huses with
  | opcode hopcode hmem => cases Instruction.isFloatingPoint_iff.2 ⟨_, hmem, hopcode⟩
  | newRefArray h' htype =>
    cases h.symm.trans h'
    exact htype

/-- A new array of several dimensions uses floating point exactly if its elements do. -/
theorem usesFloatingPoint_newMultiArray (dimensions : UInt8) (h : pool.classType index = .ok type) :
    (step (L := L) (.newMultiArray index dimensions)).UsesFloatingPoint headers pool ↔
      headers.FloatingPoint type.innermost := by
  refine ⟨fun huses => ?_, .newMultiArray dimensions h⟩
  cases huses with
  | opcode hopcode hmem => cases Instruction.isFloatingPoint_iff.2 ⟨_, hmem, hopcode⟩
  | newMultiArray _ h' htype =>
    cases h.symm.trans h'
    exact htype

end Operation

/-! ### What a policy objects to -/

namespace Policy

open Validation

variable {policy : Policy} {headers : Headers}

/-- A policy that rules out floating point objects to whatever uses it. -/
theorem floatingPointViolation_eq (hpolicy : policy.allowsFloatingPoint = false)
    (isFloatingPoint : Bool) : policy.floatingPointViolation isFloatingPoint =
      if isFloatingPoint then some .floatingPoint else none := by
  unfold floatingPointViolation
  rw [hpolicy]
  cases isFloatingPoint <;> rfl

theorem floatingPointViolation_iff (hpolicy : policy.allowsFloatingPoint = false)
    {isFloatingPoint : Bool} : policy.floatingPointViolation isFloatingPoint =
      some .floatingPoint ↔ isFloatingPoint = true := by
  rw [floatingPointViolation_eq hpolicy]
  cases isFloatingPoint with
  | true => exact iff_of_true rfl rfl
  | false => exact iff_of_false nofun nofun

/-- The only classes for floating point numbers are those of `float` and `double` objects. -/
theorem isFloatingPointWrapper_iff {name : BinaryName} :
    name.isFloatingPointWrapper = true ↔ name = .float ∨ name = .double := by
  unfold BinaryName.isFloatingPointWrapper
  rw [Bool.or_eq_true, decide_eq_true_iff, decide_eq_true_iff]

/-- A class that is no wrapper itself stands for floating-point values if it extends a wrapper. -/
theorem floatingPoint_object_iff {name : BinaryName}
    (hwrapper : ¬ name.isFloatingPointWrapper = true) :
    Headers.FloatingPoint headers (.object name) ↔
      name ≠ .object ∧ ∃ looked chain, Headers.Chain headers [] name looked (.ok chain) ∧
        (BinaryName.float ∈ chain ∨ BinaryName.double ∈ chain) := by
  constructor
  · intro h
    generalize htype : FieldType.object name = type at h
    cases h with
    | float => cases htype
    | double => cases htype
    | floatWrapper => cases htype; exact absurd rfl hwrapper
    | doubleWrapper => cases htype; exact absurd rfl hwrapper
    | «extends» hroot hchain h => cases htype; exact ⟨hroot, _, _, hchain, h⟩
  · rintro ⟨hroot, looked, chain, hchain, h⟩
    exact .extends hroot hchain h

/-- A policy that rules out floating point objects to the classes that have to do with it. -/
theorem judgeClass_iff (hpolicy : policy.allowsFloatingPoint = false) (name : BinaryName)
    (resolver : Resolver) : (policy.judgeClass name resolver).1 = some .floatingPoint ↔
      Headers.FloatingPoint resolver.header? (.object name) := by
  unfold judgeClass
  split
  · rename_i hwrapper
    refine iff_of_true ((floatingPointViolation_iff hpolicy).2 rfl) ?_
    -- a wrapper stands for such values itself
    rcases isFloatingPointWrapper_iff.1 hwrapper with rfl | rfl
    · exact .floatWrapper
    · exact .doubleWrapper
  · rename_i hwrapper
    -- what is left is told by the chain, and there is one chain only
    rw [floatingPoint_object_iff hwrapper]
    split
    · rename_i hroot
      exact iff_of_false nofun fun h => h.1 hroot
    · rename_i hroot
      obtain ⟨looked, answer, hchain, resolver', hrun, -⟩ :=
        Resolver.ancestorChain_gives name resolver
      rw [hrun]
      cases answer with
      | ok chain =>
        simp only [Resolver.outcome]
        rw [floatingPointViolation_iff hpolicy, List.any_eq_true]
        simp only [isFloatingPointWrapper_iff]
        constructor
        · rintro ⟨other, hmem, rfl | rfl⟩
          · exact ⟨hroot, looked, chain, hchain, .inl hmem⟩
          · exact ⟨hroot, looked, chain, hchain, .inr hmem⟩
        · -- the chain that tells is the one that was found
          rintro ⟨-, looked', chain', hchain', h⟩
          cases (hchain.unique hchain').2
          rcases h with h | h
          · exact ⟨_, h, .inl rfl⟩
          · exact ⟨_, h, .inr rfl⟩
      | error error =>
        refine iff_of_false nofun ?_
        rintro ⟨-, looked', chain', hchain', -⟩
        cases (hchain.unique hchain').2

/-- What is answered about a type, from all that was found out before. -/
theorem checkType_ok {validator after : Validator} {type : FieldType}
    {violation : Option TypeViolation} (hpolicy : policy.allowsFloatingPoint = false)
    (hfaithful : validator.Faithful policy headers)
    (h : policy.checkType type validator = .ok violation after) :
    violation = some .floatingPoint ↔ headers.FloatingPoint type.innermost := by
  -- a floating-point base type is asked about as its wrapper class
  have hclass : ∀ name, policy.checkClass name validator = .ok violation after →
      (violation = some .floatingPoint ↔ headers.FloatingPoint (.object name)) := by
    intro name hrun
    obtain ⟨after', -, hanswer⟩ := checkClass_eq hfaithful name
    rw [hanswer] at hrun
    cases hrun
    rw [judgeClass_iff hpolicy, hfaithful.header?_eq]
  have hnone : (pure none : Validation (Option TypeViolation)) validator = .ok violation after →
      violation ≠ some .floatingPoint := by
    intro hrun
    obtain ⟨rfl, -⟩ := state_pure_ok.1 hrun
    nofun
  unfold checkType at h
  generalize type.innermost = innermost at h ⊢
  cases innermost with
  | base element =>
    cases element with
    | float => exact (hclass _ h).trans (iff_of_true .floatWrapper .float)
    | double => exact (hclass _ h).trans (iff_of_true .doubleWrapper .double)
    | _ => exact iff_of_false (hnone h) nofun
  | ref array =>
    cases array with
    | object name => exact hclass name h
    | _ => exact iff_of_false (hnone h) nofun

/-- What is answered about an operation, from all that was found out before. -/
theorem checkOperation_ok {L : Type} {validator after : Validator} {pool : Pool}
    {operation : Operation L} {violation : Option TypeViolation}
    (hpolicy : policy.allowsFloatingPoint = false) (hfaithful : validator.Faithful policy headers)
    (h : policy.checkOperation pool operation validator = .ok violation after) :
    violation = some .floatingPoint ↔ operation.UsesFloatingPoint headers pool := by
  -- three instructions are judged by a type that a constant names
  have hconstant : ∀ index, policy.checkClassConstant pool index validator = .ok violation after →
      ∃ type, pool.classType index = .ok type ∧
        (violation = some .floatingPoint ↔ headers.FloatingPoint type.innermost) := by
    intro index hrun
    obtain ⟨type, middle, htype, hrun⟩ := state_bind_ok.1 hrun
    obtain ⟨hfound, rfl⟩ := ofExcept_ok.1 htype
    exact ⟨type, hfound, checkType_ok hpolicy hfaithful hrun⟩
  -- all others are judged by what they are
  have hplain : ∀ isFloatingPoint, (pure (policy.floatingPointViolation isFloatingPoint) :
      Validation (Option TypeViolation)) validator = .ok violation after →
        (violation = some .floatingPoint ↔ isFloatingPoint = true) := by
    intro isFloatingPoint hrun
    obtain ⟨rfl, -⟩ := state_pure_ok.1 hrun
    exact floatingPointViolation_iff hpolicy
  unfold checkOperation at h
  cases operation with
  | branch b => exact (hplain _ h).trans Operation.usesFloatingPoint_branch.symm
  | step instruction =>
    cases instruction with
    | newArray element => exact (hplain _ h).trans Operation.usesFloatingPoint_newArray.symm
    | newRefArray index =>
      obtain ⟨type, htype, hiff⟩ := hconstant index h
      exact hiff.trans (Operation.usesFloatingPoint_newRefArray htype).symm
    | newMultiArray index dimensions =>
      obtain ⟨type, htype, hiff⟩ := hconstant index h
      exact hiff.trans (Operation.usesFloatingPoint_newMultiArray dimensions htype).symm
    | _ =>
      -- by the opcode alone
      refine (hplain _ h).trans ?_
      rw [Operation.isFloatingPoint, Instruction.isFloatingPoint_iff]
      constructor
      · rintro ⟨opcode, hmem, hopcode⟩
        exact .opcode hopcode hmem
      · rintro ⟨hopcode, hmem⟩
        exact ⟨_, hmem, hopcode⟩

end Policy

end Preverification
