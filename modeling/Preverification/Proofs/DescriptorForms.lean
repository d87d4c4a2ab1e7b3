import Preverification.Descriptor.Basic
import Mathlib.Data.List.Forall2

/-!
# The grammar of descriptors

Which texts stand for types, told by recursion: a bracket stands in front of the text of the
elements of an array. The texts that types are given count the brackets instead, and both are the
same.

* `FieldType.Form`, `MethodDescriptor.Form`, `RefType.ConstantForm`: the texts, by rules.
* `FieldType.form_iff`, `MethodDescriptor.form_iff`, `RefType.constantForm_iff`: each type has one
  text, and it is the one with brackets in front.
-/

namespace Preverification

/-! ### Texts by rules -/

/-- The texts of field types: the letter of a primitive type, the name of a class between `L` and a
semicolon, or a bracket in front of the text of the elements. -/
inductive FieldType.Form : List Char → FieldType → Prop where
  | byte : Form ['B'] (.base .byte)
  | char : Form ['C'] (.base .char)
  | double : Form ['D'] (.base .double)
  | float : Form ['F'] (.base .float)
  | int : Form ['I'] (.base .int)
  | long : Form ['J'] (.base .long)
  | short : Form ['S'] (.base .short)
  | boolean : Form ['Z'] (.base .boolean)
  | object (name : BinaryName) : Form ('L' :: name.text.toList ++ [';']) (.object name)
  | array {s : List Char} {element : FieldType} (h : Form s element) :
    Form ('[' :: s) (.ref (.arrayOf element))

/-- The texts of what a method gives back: `V` for nothing, or the text of a type. -/
inductive FieldType.ResultForm : List Char → Option FieldType → Prop where
  | nothing : ResultForm ['V'] none
  | type {s : List Char} {type : FieldType} (h : Form s type) : ResultForm s (some type)

/-- The text of a method: those of the parameters in parentheses, and that of the result. -/
inductive MethodDescriptor.Form : List Char → MethodDescriptor → Prop where
  | method {texts : List (List Char)} {parameters : List FieldType} {result : List Char}
    {returnType : Option FieldType} (hparameters : List.Forall₂ FieldType.Form texts parameters)
    (hresult : FieldType.ResultForm result returnType) :
    Form ('(' :: texts.flatten ++ ')' :: result) ⟨parameters, returnType⟩

/-- The texts that name types in class constants: the name of a class, or the text of an array. -/
inductive RefType.ConstantForm : List Char → RefType → Prop where
  | object (name : BinaryName) : ConstantForm name.text.toList (.object name)
  | array {s : List Char} {element : FieldType} (h : FieldType.Form s element) :
    ConstantForm ('[' :: s) (.arrayOf element)

/-! ### Texts by brackets -/

/-- A bracket stands in front of the text of the elements. -/
theorem RefType.descriptor_arrayOf (element : FieldType) :
    (arrayOf element).descriptor = '[' :: element.descriptor := by
  match element with
  | .base type => rfl
  | .ref (.object name) => rfl
  | .ref (.objectArray extra name) => rfl
  | .ref (.primitiveArray extra type) => rfl

/-- An array has elements, of which it is the array. -/
theorem RefType.object_or_arrayOf (type : RefType) :
    (∃ name, type = object name) ∨ ∃ element, type = arrayOf element := by
  match type with
  | object name => exact .inl ⟨name, rfl⟩
  | objectArray 0 name => exact .inr ⟨.object name, rfl⟩
  | objectArray (extra + 1) name => exact .inr ⟨.ref (objectArray extra name), rfl⟩
  | primitiveArray 0 type => exact .inr ⟨.base type, rfl⟩
  | primitiveArray (extra + 1) type => exact .inr ⟨.ref (primitiveArray extra type), rfl⟩

theorem FieldType.form_descriptor (type : FieldType) : Form type.descriptor type := by
  cases type with
  | base type =>
    cases type with
    | byte => exact .byte
    | char => exact .char
    | double => exact .double
    | float => exact .float
    | int => exact .int
    | long => exact .long
    | short => exact .short
    | boolean => exact .boolean
  | ref type =>
    cases type with
    | object name => exact .object name
    | objectArray extra name =>
      -- one bracket for each dimension more
      induction extra with
      | zero => exact .array (.object name)
      | succ extra ih => exact .array ih
    | primitiveArray extra element =>
      have hbase : Form [element.letter] (.base element) := form_descriptor (.base element)
      induction extra with
      | zero => exact .array hbase
      | succ extra ih => exact .array ih

/-- A field type has one text. -/
theorem FieldType.form_iff {s : List Char} {type : FieldType} :
    Form s type ↔ type.descriptor = s := by
  constructor
  · intro h
    induction h with
    | array h ih => exact (RefType.descriptor_arrayOf _).trans (congrArg _ ih)
    | _ => rfl
  · rintro rfl
    exact form_descriptor type

/-- Several types have their texts one after the other. -/
theorem FieldType.forms_iff {texts : List (List Char)} {types : List FieldType} :
    List.Forall₂ Form texts types ↔ types.map descriptor = texts := by
  constructor
  · intro h
    induction h with
    | nil => rfl
    | cons hform _ ih => rw [List.map_cons, form_iff.1 hform, ih]
  · rintro rfl
    rw [List.forall₂_map_left_iff, List.forall₂_same]
    exact fun type _ => form_descriptor type

/-- The declaration of a method has one text. -/
theorem MethodDescriptor.form_iff {s : List Char} {method : MethodDescriptor} :
    Form s method ↔ method.descriptor = s := by
  constructor
  · rintro ⟨hparameters, hresult⟩
    rw [descriptor, List.flatMap_def, FieldType.forms_iff.1 hparameters]
    cases hresult with
    | nothing => rfl
    | type htype =>
      dsimp only
      rw [FieldType.form_iff.1 htype]
  · rintro rfl
    rcases method with ⟨parameters, returnType⟩
    rw [descriptor, List.flatMap_def]
    refine .method (FieldType.forms_iff.2 rfl) ?_
    cases returnType with
    | none => exact .nothing
    | some type => exact .type type.form_descriptor

/-- An array is named by its text, where a class is named without the letter and the semicolon. -/
theorem RefType.classConstant_arrayOf (element : FieldType) :
    (arrayOf element).classConstant = (arrayOf element).render := by
  match element with
  | .base type => rfl
  | .ref (.object name) => rfl
  | .ref (.objectArray extra name) => rfl
  | .ref (.primitiveArray extra type) => rfl

/-- A class or array has one name. -/
theorem RefType.constantForm_iff {s : List Char} {type : RefType} :
    ConstantForm s type ↔ type.classConstant = String.ofList s := by
  constructor
  · rintro (name | h)
    · exact String.ofList_toList.symm
    · rw [classConstant_arrayOf, render, descriptor_arrayOf, FieldType.form_iff.1 h]
  · intro h
    rcases type.object_or_arrayOf with ⟨name, rfl⟩ | ⟨element, rfl⟩
    · rw [← String.toList_inj, String.toList_ofList] at h
      exact h ▸ .object name
    · rw [classConstant_arrayOf, render, descriptor_arrayOf] at h
      exact String.ofList_injective h ▸ .array element.form_descriptor

end Preverification
