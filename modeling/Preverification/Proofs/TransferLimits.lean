import Mathlib.Data.String.Basic
import Preverification.Proofs.DescriptorTexts
import Preverification.Proofs.Effects
import Preverification.Proofs.Monotone
import Preverification.Typing.Analysis

/-!
# What an instruction can bring about

The types that an instruction puts into a state have no more dimensions than a text in the pool has
characters, and one more for the elements of a new array. It reaches no further into the locals than
its operands can, and it leaves at most two values more on the stack than there were.

* `Transfer.Stays`: a part of an instruction stays within limits, and says how many values it may
  still add to the stack.
* `Transfer.stays_instruction`: one case for each instruction, put together from its parts.
* `Transfer.stays_operation`: operations keep the limits of a state.
-/

namespace Preverification

section Highest

variable {α : Type} {f : Nat → α → Nat}

/-- A number that each step leaves or raises is not lowered by a run. -/
theorem foldl_grows (h : ∀ n a, n ≤ f n a) (l : List α) (n : Nat) : n ≤ l.foldl f n := by
  induction l generalizing n with
  | nil => exact Nat.le_refl n
  | cons a l ih => exact Nat.le_trans (h n a) (ih (f n a))

/-- The highest number over a list is no less than the number of an element. -/
theorem le_foldl (h : ∀ n a, n ≤ f n a) {l : List α} {a : α} (hmem : a ∈ l) {number : Nat}
    (hnumber : ∀ n, number ≤ f n a) (n : Nat) : number ≤ l.foldl f n := by
  induction l generalizing n with
  | nil => cases hmem
  | cons b l ih =>
    rcases List.mem_cons.1 hmem with rfl | hmem
    · exact Nat.le_trans (hnumber n) (foldl_grows h l _)
    · exact ih hmem _

end Highest

/-! ### Types in texts -/

/-- A text has no fewer bytes than characters. -/
theorem length_toList_le (text : String) : text.toList.length ≤ text.utf8ByteSize := by
  have hchars : ∀ chars : List Char, chars.length ≤ String.utf8Len chars := by
    intro chars
    induction chars with
    | nil => exact Nat.zero_le _
    | cons c chars ih =>
      have hpos := Char.utf8Size_pos c
      rw [String.utf8Len_cons, List.length_cons]
      omega
  rw [← String.ofList_toList (s := text), String.utf8ByteSize_ofList]
  simpa using hchars text.toList

/-- Each dimension is a bracket. -/
theorem RefType.dimensions_le (type : RefType) : type.dimensions ≤ type.descriptor.length := by
  cases type with
  | object name => exact Nat.zero_le _
  | objectArray extra name =>
    rw [descriptor, List.length_append, List.length_replicate]
    exact Nat.le_add_right _ _
  | primitiveArray extra element =>
    rw [descriptor, List.length_append, List.length_replicate]
    exact Nat.le_add_right _ _

/-- The dimensions of the values of a field, a parameter or a result. -/
theorem FieldType.dimensions_le (type : FieldType) :
    type.verificationType.dimensions ≤ type.descriptor.length := by
  cases type with
  | base element => cases element <;> exact Nat.zero_le _
  | ref type => exact type.dimensions_le

/-- A descriptor has a bracket for each dimension of its type. -/
theorem FieldType.dimensions_of_descriptor {text : String} {type : FieldType}
    (h : FieldType.ofDescriptor text = .ok type) :
    type.verificationType.dimensions ≤ text.utf8ByteSize := by
  have htext := FieldType.exact_read.run_ok.1 (except_mapError_ok.1 h)
  refine type.dimensions_le.trans (le_of_eq_of_le ?_ (length_toList_le text))
  -- the text is that of the type, character by character
  rw [← htext, String.toList_ofList]

/-- The result of a method is a part of its descriptor. -/
theorem MethodDescriptor.dimensions_of_descriptor {text : String} {signature : MethodDescriptor}
    (h : MethodDescriptor.ofDescriptor text = .ok signature) :
    ∀ type ∈ signature.returnType, type.verificationType.dimensions ≤ text.utf8ByteSize := by
  have htext := MethodDescriptor.exact_read.run_ok.1 (except_mapError_ok.1 h)
  intro type htype
  refine (type.dimensions_le.trans ?_).trans (length_toList_le text)
  rw [← htext, String.toList_ofList, descriptor, Option.mem_def.1 htype]
  simp only [List.length_append, List.length_cons]
  omega

/-- The name of a class has no dimensions, and that of an array type is a descriptor. -/
theorem RefType.dimensions_of_classConstant {text : String} {type : RefType}
    (h : RefType.ofClassConstant text = .ok type) : type.dimensions ≤ text.utf8ByteSize := by
  have htext := RefType.ofClassConstant_ok.1 h
  rcases type.object_or_arrayOf with ⟨name, rfl⟩ | ⟨element, rfl⟩
  · exact Nat.zero_le _
  · rw [classConstant_arrayOf, render] at htext
    refine (dimensions_le _).trans (le_of_eq_of_le ?_ (length_toList_le text))
    rw [← htext, String.toList_ofList]

/-! ### Types in pools -/

namespace Pool

variable {pool : Pool} {index : PoolIndex}

/-- A constant that is found is stored at some offset. -/
theorem mem_entries_of_get? {constant : Constant} (h : pool.get? index = some constant) :
    ∃ offset, (offset, constant) ∈ pool.entries := by
  unfold get? WidthVector.lookup WidthVector.missed at h
  split at h
  · split at h <;> cases h
  · split at h
    · rename_i offset found hentry
      split at h
      · cases h
        exact ⟨offset, Array.mem_toList_iff.2 (Array.mem_of_getElem? hentry)⟩
      · split at h <;> cases h
    · split at h <;> cases h

/-- No text in a pool is longer than the longest one. -/
theorem size_le_longestText {text : String} {offset : Nat}
    (h : (offset, Constant.utf8 text) ∈ pool.entries) : text.utf8ByteSize ≤ pool.longestText := by
  unfold longestText
  rw [← Array.foldl_toList]
  refine le_foldl ?_ h ?_ 0
  · rintro longest ⟨_, constant⟩
    cases constant with
    | utf8 text => exact Nat.le_max_left _ _
    | _ => exact Nat.le_refl _
  · exact fun longest => Nat.le_max_right longest _

theorem utf8_le_longestText {text : String} (h : pool.utf8 index = .ok text) :
    text.utf8ByteSize ≤ pool.longestText := by
  unfold utf8 at h
  split at h
  · rename_i found hget
    cases h
    obtain ⟨offset, hmem⟩ := mem_entries_of_get? hget
    exact size_le_longestText hmem
  · cases h

/-- The name of a class is a text in the pool. -/
theorem className_le_longestText {text : String} (h : pool.className index = .ok text) :
    text.utf8ByteSize ≤ pool.longestText := by
  unfold className at h
  split at h
  · exact utf8_le_longestText h
  · cases h

/-- The type of a class has no more dimensions than the longest text has characters. -/
theorem dimensions_classType {type : RefType} (h : pool.classType index = .ok type) :
    type.dimensions ≤ pool.longestText := by
  obtain ⟨text, htext, h⟩ := except_bind_ok.1 h
  exact Nat.le_trans (RefType.dimensions_of_classConstant h) (className_le_longestText htext)

/-- Descriptors are texts in the pool too. -/
theorem nameAndType_le_longestText {texts : String × String}
    (h : pool.nameAndType index = .ok texts) : texts.2.utf8ByteSize ≤ pool.longestText := by
  unfold nameAndType at h
  split at h
  · obtain ⟨name, _, h⟩ := except_bind_ok.1 h
    obtain ⟨descriptor, hdescriptor, h⟩ := except_bind_ok.1 h
    cases h
    exact utf8_le_longestText hdescriptor
  · cases h

theorem fieldRef_le_longestText {member : MemberRef} (h : pool.fieldRef index = .ok member) :
    member.descriptor.utf8ByteSize ≤ pool.longestText := by
  unfold fieldRef at h
  split at h
  · obtain ⟨texts, htexts, h⟩ := except_bind_ok.1 h
    cases h
    exact nameAndType_le_longestText htexts
  · cases h

theorem methodRef_le_longestText {member : MemberRef} (h : pool.methodRef index = .ok member) :
    member.descriptor.utf8ByteSize ≤ pool.longestText := by
  unfold methodRef at h
  split at h
  · obtain ⟨texts, htexts, h⟩ := except_bind_ok.1 h
    cases h
    exact nameAndType_le_longestText htexts
  · cases h

theorem invokeDynamicDescriptor_le_longestText {text : String}
    (h : pool.invokeDynamicDescriptor index = .ok text) :
    text.utf8ByteSize ≤ pool.longestText := by
  unfold invokeDynamicDescriptor at h
  split at h
  · obtain ⟨texts, htexts, h⟩ := except_bind_ok.1 h
    cases h
    exact nameAndType_le_longestText htexts
  · cases h

end Pool

/-- No type in a list has more dimensions than a number. -/
def DimensionsWithin (most : Nat) (types : List InferredType) : Prop :=
  ∀ type ∈ types, type.dimensions ≤ most

/-- What a slot holds is within the limit, which is nothing where there is no slot. -/
theorem DimensionsWithin.localAt {most : Nat} {types : List InferredType}
    (h : DimensionsWithin most types) (slot : Nat) : (localAt types slot).dimensions ≤ most := by
  rcases Nat.lt_or_ge slot types.length with hlt | hle
  · exact h _ (List.mem_of_getElem? (localAt_of_lt hlt))
  · rw [localAt_of_le hle]
    exact Nat.zero_le _

/-- A state whose types have no more dimensions than a number, and whose locals have some room. -/
structure TypeState.Within (most room : Nat) (state : TypeState) : Prop where
  locals : DimensionsWithin most state.locals
  stack : DimensionsWithin most state.stack.values
  room : state.locals.length ≤ room

namespace Transfer

/-- A part of an instruction stays within limits. When some values may still be added to the stack
in front of it, it tells how many may be added behind it. -/
def Stays {α : Type} (most room : Nat) (credit left : Nat) (P : α → Prop) (action : Transfer α) :
    Prop :=
  ∀ state value state', state.Within most room → action state = .ok value state' →
    state'.Within most room ∧ state'.stack.size + left ≤ state.stack.size + credit ∧ P value

variable {most room credit left rest : Nat} {α β : Type}

/-! ### Putting parts together -/

/-- An answer changes nothing. -/
theorem Stays.pure {P : α → Prop} {value : α} (h : P value) :
    Stays most room credit credit P (pure value) := by
  intro state found state' hwithin hrun
  obtain ⟨rfl, rfl⟩ := state_pure_ok.1 hrun
  exact ⟨hwithin, Nat.le_refl _, h⟩

theorem Stays.throw {P : α → Prop} {error : TypeError} :
    Stays most room credit left P (throw error) := by
  intro state value state' _ hrun
  exact absurd hrun state_throw_ok

/-- What the first part leaves of the credit is what the second one may use. -/
theorem Stays.bind {P : α → Prop} {Q : β → Prop} {action : Transfer α} {next : α → Transfer β}
    (h : Stays most room credit left P action)
    (hnext : ∀ value, P value → Stays most room left rest Q (next value)) :
    Stays most room credit rest Q (action >>= next) := by
  intro state found state'' hwithin hrun
  obtain ⟨value, state', hfirst, hsecond⟩ := state_bind_ok.1 hrun
  obtain ⟨hwithin', hsize, hvalue⟩ := h state value state' hwithin hfirst
  obtain ⟨hwithin'', hsize', hfound⟩ := hnext value hvalue state' found state'' hwithin' hsecond
  exact ⟨hwithin'', by omega, hfound⟩

/-- What may still be added may also be left out. -/
theorem Stays.drop {P : α → Prop} {action : Transfer α} (h : Stays most room credit left P action)
    (hle : rest ≤ left) : Stays most room credit rest P action := by
  intro state value state' hwithin hrun
  obtain ⟨hwithin', hsize, hvalue⟩ := h state value state' hwithin hrun
  exact ⟨hwithin', by omega, hvalue⟩

theorem Stays.discard {P : α → Prop} {action : Transfer α}
    (h : Stays most room credit left P action) :
    Stays most room credit left (fun _ => True) (discard action) := by
  intro state value state' hwithin hrun
  change EStateM.map (fun _ => ()) action state = _ at hrun
  unfold EStateM.map at hrun
  cases hfound : action state with
  | error error state'' => simp [hfound] at hrun
  | ok found state'' =>
    simp only [hfound, EStateM.Result.ok.injEq] at hrun
    obtain ⟨-, rfl⟩ := hrun
    obtain ⟨hwithin', hsize, -⟩ := h state found state'' hwithin hfound
    exact ⟨hwithin', hsize, trivial⟩

/-- Going through a list adds nothing if no step does. -/
theorem Stays.forM {l : List β} {action : β → Transfer Unit}
    (h : ∀ b ∈ l, Stays most room credit credit (fun _ => True) (action b)) :
    Stays most room credit credit (fun _ => True) (l.forM action) := by
  induction l with
  | nil => exact .pure trivial
  | cons b l ih =>
    exact .bind (h b List.mem_cons_self) fun _ _ => ih fun c hc => h c (List.mem_cons_of_mem _ hc)

/-! ### The stack -/

/-- A value that is put on the stack is paid for. -/
theorem stays_push {type : InferredType} (h : type.dimensions ≤ most) :
    Stays most room (credit + 1) credit (fun _ => True) (push type) := by
  intro state value state' hwithin hrun
  cases hrun
  refine ⟨⟨hwithin.locals, ?_, hwithin.room⟩, ?_, trivial⟩
  · rw [OperandStack.values_push]
    exact List.forall_mem_cons.2 ⟨h, hwithin.stack⟩
  · rw [OperandStack.size_push]
    omega

/-- Several values are, if there is credit for all of them. -/
theorem stays_pushAll {types : List InferredType} (h : DimensionsWithin most types)
    (hcredit : types.length ≤ credit) :
    Stays most room credit 0 (fun _ => True) (pushAll types) := by
  induction types generalizing credit with
  | nil => exact (Stays.pure trivial).drop (Nat.zero_le _)
  | cons type types ih =>
    obtain ⟨htype, htypes⟩ := List.forall_mem_cons.1 h
    obtain ⟨credit, rfl⟩ : ∃ more, credit = more + 1 := ⟨credit - 1, by simp at hcredit; omega⟩
    exact .bind (stays_push htype) fun _ _ => ih htypes (Nat.le_of_succ_le_succ hcredit)

/-- A value that is taken off the stack may be put back later. -/
theorem stays_pop : Stays most room credit (credit + 1) (·.dimensions ≤ most) pop := by
  intro state type state' hwithin hrun
  obtain ⟨hvalues, hlocals⟩ := pop_ok.1 hrun
  have hstack := hwithin.stack
  rw [hvalues] at hstack
  obtain ⟨htype, hrest⟩ := List.forall_mem_cons.1 hstack
  refine ⟨⟨?_, hrest, ?_⟩, ?_, htype⟩
  · rw [hlocals]
    exact hwithin.locals
  · rw [hlocals]
    exact hwithin.room
  · rw [OperandStack.size_eq, OperandStack.size_eq, hvalues, List.length_cons]
    omega

theorem stays_popWidth (expected : Nat) :
    Stays most room credit (credit + 1) (·.dimensions ≤ most) (popWidth expected) := by
  refine .bind stays_pop fun type htype => ?_
  split
  · exact .pure htype
  · exact .throw

theorem stays_popType (expected : InferredType) :
    Stays most room credit (credit + 1) (fun _ => True) (popType expected) := by
  refine .bind stays_pop fun type _ => ?_
  split
  · exact .pure trivial
  · exact .throw

theorem stays_popReference :
    Stays most room credit (credit + 1) (·.dimensions ≤ most) popReference := by
  refine .bind stays_pop fun type htype => ?_
  split
  · exact .pure htype
  · exact .throw

theorem stays_popCompatible (expected : InferredType) :
    Stays most room credit (credit + 1) (fun _ => True) (popCompatible expected) := by
  refine .bind stays_pop fun type _ => ?_
  split
  · exact .pure trivial
  · exact .throw

/-- What arguments leave is not needed. -/
theorem stays_popArguments (parameters : List FieldType) :
    Stays most room credit credit (fun _ => True) (popArguments parameters) :=
  .forM fun _ _ => (stays_popCompatible _).drop (Nat.le_succ _)

/-! ### Locals -/

/-- A local variable has no more dimensions than all of them. -/
theorem stays_getLocal (slot : UInt16) :
    Stays most room credit credit (·.dimensions ≤ most) (getLocal slot) := by
  intro state type state' hwithin hrun
  obtain ⟨rfl, -, rfl⟩ := getLocal_ok.1 hrun
  exact ⟨hwithin, Nat.le_refl _, hwithin.locals.localAt _⟩

theorem stays_expectLocal (slot : UInt16) (expected : InferredType) :
    Stays most room credit credit (fun _ => True) (expectLocal slot expected) := by
  refine .bind (stays_getLocal slot) fun type _ => ?_
  split
  · exact .pure trivial
  · exact .throw

/-- Writing a local puts nothing into the locals but its type and unusable ones. -/
theorem mem_setLocal {slot : Nat} {type found : InferredType} {locals : List InferredType}
    (h : found ∈ TypeState.setLocal slot type locals) :
    found = type ∨ found = .top ∨ found ∈ locals := by
  have hlong : ∀ found ∈ locals ++ List.replicate (slot + width type - locals.length)
      (.top : InferredType), found = .top ∨ found ∈ locals := by
    intro found hfound
    rcases List.mem_append.1 hfound with hmem | hmem
    · exact .inr hmem
    · exact .inl (List.eq_of_mem_replicate hmem)
  -- each of the two slots around the written one stays or becomes unusable
  have hset : ∀ (l : List InferredType) (place : Nat) (found : InferredType),
      found ∈ l.set place .top → found = .top ∨ found ∈ l := by
    intro l place found hfound
    exact (List.mem_or_eq_of_mem_set hfound).symm
  unfold TypeState.setLocal at h
  rcases List.mem_or_eq_of_mem_set h with h | rfl
  · refine .inr ?_
    split at h
    · rcases hset _ _ _ h with rfl | h
      · exact .inl rfl
      · split at h
        · rcases hset _ _ _ h with rfl | h
          · exact .inl rfl
          · exact hlong _ h
        · exact hlong _ h
    · split at h
      · rcases hset _ _ _ h with rfl | h
        · exact .inl rfl
        · exact hlong _ h
      · exact hlong _ h
  · exact .inl rfl

/-- The locals become as long as the written slots ask for. -/
theorem length_setLocal (slot : Nat) (type : InferredType) (locals : List InferredType) :
    (TypeState.setLocal slot type locals).length = max locals.length (slot + width type) := by
  unfold TypeState.setLocal
  simp only [List.length_set, apply_ite List.length, List.length_append, List.length_replicate,
    ite_self]
  omega

/-- A slot has a number of two bytes, so that there is room for a value of two slots. -/
theorem stays_setLocal (hroom : 65537 ≤ room) (slot : UInt16) {type : InferredType}
    (h : type.dimensions ≤ most) :
    Stays most room credit credit (fun _ => True) (setLocal slot type) := by
  intro state value state' hwithin hrun
  cases hrun
  refine ⟨⟨?_, hwithin.stack, ?_⟩, Nat.le_refl _, trivial⟩
  · intro found hfound
    rcases mem_setLocal hfound with rfl | rfl | hmem
    · exact h
    · exact Nat.zero_le _
    · exact hwithin.locals found hmem
  · -- the room is for the greatest slot, and for a wide value there
    have hslot := slot.toNat_lt
    have hwidth : width type ≤ 2 := by rcases type.width_cases with h | h <;> omega
    have hlength := hwithin.room
    rw [length_setLocal]
    omega

/-- An object that was constructed is replaced in place. -/
theorem stays_replaceAll {old new : InferredType} (hwidth : width new = width old)
    (h : new.dimensions ≤ most) :
    Stays most room credit credit (fun _ => True) (replaceAll old new hwidth) := by
  intro state value state' hwithin hrun
  cases hrun
  -- locals and stack are replaced in the same way
  have hmap : ∀ {types : List InferredType}, DimensionsWithin most types →
      DimensionsWithin most (types.map fun type => if type = old then new else type) := by
    intro types htypes found hfound
    obtain ⟨type, hmem, rfl⟩ := List.mem_map.1 hfound
    split
    · exact h
    · exact htypes type hmem
  refine ⟨⟨hmap hwithin.locals, ?_, ?_⟩, ?_, trivial⟩
  · rw [OperandStack.values_replace]
    exact hmap hwithin.stack
  · rw [List.length_map]
    exact hwithin.room
  · rw [OperandStack.size_replace]

/-! ### Constants -/

/-- What a look-up answers is known. -/
theorem stays_constant (index : PoolIndex) (result : Except StructuralError α) :
    Stays most room credit credit (result = .ok ·) (constant index result) := by
  unfold constant
  split
  · exact .pure rfl
  · exact .throw

section Instructions

variable {context : MethodContext}

/-- A class that is named has room for one more dimension. -/
theorem stays_classType (hmost : context.constants.longestText + 1 ≤ most) (index : PoolIndex) :
    Stays most room credit credit (·.dimensions + 1 ≤ most)
      (classType context.constants index) := by
  intro state type state' hwithin hrun
  obtain ⟨hwithin', hsize, htype⟩ := stays_constant index _ state type state' hwithin hrun
  have hle := Pool.dimensions_classType htype
  exact ⟨hwithin', hsize, by omega⟩

/-- Constants that are loaded have types without dimensions, or with those of a class. -/
theorem dimensions_constantType {pool : Pool} {index : PoolIndex} {type : InferredType}
    (h : constantType pool index = .ok type) : type.dimensions ≤ pool.longestText := by
  unfold constantType at h
  -- only a class and a dynamic value have a type from a text
  split at h
  case h_9 =>
    obtain ⟨texts, htexts, h⟩ := except_bind_ok.1 h
    obtain ⟨found, hfound, h⟩ := except_bind_ok.1 h
    cases h
    exact Nat.le_trans (FieldType.dimensions_of_descriptor hfound)
      (Pool.nameAndType_le_longestText htexts)
  all_goals
    cases h
    try exact Nat.zero_le _

theorem stays_fieldType (hmost : context.constants.longestText + 1 ≤ most) (index : PoolIndex) :
    Stays most room credit credit (·.dimensions ≤ most) (fieldType context.constants index) := by
  intro state type state' hwithin hrun
  obtain ⟨hwithin', hsize, htype⟩ := stays_constant index _ state type state' hwithin hrun
  obtain ⟨field, hfield, h⟩ := except_bind_ok.1 htype
  obtain ⟨found, hfound, h⟩ := except_bind_ok.1 h
  cases h
  have hle := Nat.le_trans (FieldType.dimensions_of_descriptor hfound)
    (Pool.fieldRef_le_longestText hfield)
  exact ⟨hwithin', hsize, by omega⟩

/-! ### Instructions -/

theorem stays_loadConstant (hmost : context.constants.longestText + 1 ≤ most) (index : PoolIndex)
    (expected : Nat) :
    Stays most room 2 1 (fun _ => True) (loadConstant context.constants index expected) := by
  refine .bind (stays_constant index _) fun type htype => ?_
  have hle := dimensions_constantType htype
  split
  · exact stays_push (by omega)
  · exact .throw

theorem dimensions_valueType {kind : ValueKind} {type : InferredType}
    (h : valueType? kind = some type) : type.dimensions = 0 := by
  cases kind <;> cases h <;> rfl

theorem dimensions_elementType {kind : ElementKind} {type : InferredType}
    (h : elementType? kind = some type) : type.dimensions = 0 := by
  cases kind <;> cases h <;> rfl

/-- What is loaded was in the locals, or is primitive. -/
theorem stays_load (kind : ValueKind) (slot : UInt16) :
    Stays most room 2 1 (fun _ => True) (load kind slot) := by
  unfold load
  cases h : valueType? kind with
  | some type =>
    refine .bind (stays_expectLocal slot type) fun _ _ => stays_push ?_
    rw [dimensions_valueType h]
    exact Nat.zero_le _
  | none =>
    refine .bind (stays_getLocal slot) fun type htype => ?_
    split
    · exact stays_push htype
    · exact .throw

theorem stays_store (hroom : 65537 ≤ room) (kind : ValueKind) (slot : UInt16) :
    Stays most room 2 3 (fun _ => True) (store kind slot) := by
  unfold store
  cases h : valueType? kind with
  | some type =>
    refine .bind (stays_popType type) fun _ _ => stays_setLocal hroom slot ?_
    rw [dimensions_valueType h]
    exact Nat.zero_le _
  | none => exact .bind stays_popReference fun type htype => stays_setLocal hroom slot htype

/-- An element of an array has one dimension less than the array. -/
theorem stays_arrayLoad (kind : ElementKind) :
    Stays most room 2 3 (fun _ => True) (arrayLoad kind) := by
  refine .bind (stays_popType _) fun _ _ => ?_
  cases h : elementType? kind with
  | some type =>
    refine .bind stays_popReference.discard fun _ _ => stays_push ?_
    rw [dimensions_elementType h]
    exact Nat.zero_le _
  -- what is loaded from an array of references has a dimension less
  | none =>
    refine .bind stays_pop fun array harray => ?_
    split
    · exact stays_push (Nat.zero_le _)
    · split
      · rename_i helement
        exact stays_push (Nat.le_trans (Nat.le_of_lt (RefType.dimensions_of_element? helement))
          harray)
      · exact .throw
    · exact .throw

theorem stays_arrayStore (kind : ElementKind) :
    Stays most room 2 5 (fun _ => True) (arrayStore kind) := by
  have hrest : Stays most room 3 5 (fun _ => True) (do popType .integer; discard popReference) :=
    .bind (stays_popType _) fun _ _ => stays_popReference.discard
  unfold arrayStore
  cases elementType? kind with
  | some type => exact .bind (stays_popType type) fun _ _ => hrest
  | none => exact .bind stays_popReference.discard fun _ _ => hrest

/-- What is pushed at the end of an instruction was popped before. -/
theorem stays_shuffle (op : StackShuffle) :
    Stays most room 2 0 (fun _ => True) (shuffle op) := by
  -- types are put back as often as twice, from slots that were freed or within the credit
  cases op with
  | pop => exact (stays_popWidth 1).discard.drop (Nat.zero_le _)
  | pop2 =>
    refine .bind stays_pop fun first h₁ => ?_
    split
    · exact (stays_popWidth 1).discard.drop (Nat.zero_le _)
    · exact (Stays.pure trivial).drop (Nat.zero_le _)
  | dup =>
    refine .bind (stays_popWidth 1) fun first h₁ => stays_pushAll ?_ (by simp)
    simp [DimensionsWithin, h₁]
  | dupX1 =>
    refine .bind (stays_popWidth 1) fun first h₁ => .bind (stays_popWidth 1) fun second h₂ =>
      stays_pushAll ?_ (by simp)
    simp [DimensionsWithin, h₁, h₂]
  | dupX2 =>
    refine .bind (stays_popWidth 1) fun first h₁ => .bind stays_pop fun second h₂ => ?_
    split
    · refine .bind (stays_popWidth 1) fun third h₃ => stays_pushAll ?_ (by simp)
      simp [DimensionsWithin, h₁, h₂, h₃]
    · refine stays_pushAll ?_ (by simp)
      simp [DimensionsWithin, h₁, h₂]
  | dup2 =>
    refine .bind stays_pop fun first h₁ => ?_
    split
    · refine .bind (stays_popWidth 1) fun second h₂ => stays_pushAll ?_ (by simp)
      simp [DimensionsWithin, h₁, h₂]
    · refine stays_pushAll ?_ (by simp)
      simp [DimensionsWithin, h₁]
  | dup2X1 =>
    refine .bind stays_pop fun first h₁ => .bind (stays_popWidth 1) fun second h₂ => ?_
    split
    · refine .bind (stays_popWidth 1) fun third h₃ => stays_pushAll ?_ (by simp)
      simp [DimensionsWithin, h₁, h₂, h₃]
    · refine stays_pushAll ?_ (by simp)
      simp [DimensionsWithin, h₁, h₂]
  | dup2X2 =>
    refine .bind stays_pop fun first h₁ => .bind stays_pop fun second h₂ => ?_
    split
    · split
      · refine .bind stays_pop fun third h₃ => ?_
        split
        · refine .bind (stays_popWidth 1) fun fourth h₄ => stays_pushAll ?_ (by simp)
          simp [DimensionsWithin, h₁, h₂, h₃, h₄]
        · refine stays_pushAll ?_ (by simp)
          simp [DimensionsWithin, h₁, h₂, h₃]
      · exact .throw
    · split
      · refine .bind (stays_popWidth 1) fun third h₃ => stays_pushAll ?_ (by simp)
        simp [DimensionsWithin, h₁, h₂, h₃]
      · refine stays_pushAll ?_ (by simp)
        simp [DimensionsWithin, h₁, h₂]
  | swap =>
    refine .bind (stays_popWidth 1) fun first h₁ => .bind (stays_popWidth 1) fun second h₂ =>
      stays_pushAll ?_ (by simp)
    simp [DimensionsWithin, h₁, h₂]

theorem stays_pushResult {result : Option FieldType}
    (h : ∀ type ∈ result, type.verificationType.dimensions ≤ most) :
    Stays most room (credit + 1) credit (fun _ => True)
      (result.forM fun type => push type.verificationType) := by
  cases result with
  | none => exact (Stays.pure trivial).drop (Nat.le_succ _)
  | some type => exact stays_push (h type rfl)

theorem stays_invoke (hmost : context.constants.longestText + 1 ≤ most) (kind : InvokeKind)
    (index : PoolIndex) : Stays most room 2 0 (fun _ => True) (invoke context kind index) := by
  refine .bind (stays_constant index _) fun method hmethod => ?_
  refine .bind (stays_constant index _) fun signature hsignature => ?_
  have hresult : ∀ type ∈ signature.returnType, type.verificationType.dimensions ≤ most := by
    intro type htype
    have hle := MethodDescriptor.dimensions_of_descriptor hsignature type htype
    have hle' := Pool.methodRef_le_longestText hmethod
    omega
  refine .bind (stays_popArguments _) fun _ _ => ?_
  split
  · -- a constructor turns its receiver into an object
    refine .bind stays_pop fun receiver _ => ?_
    split
    · exact (stays_replaceAll _ (Nat.zero_le _)).drop (Nat.zero_le _)
    · refine .bind (stays_constant index _) fun type htype => ?_
      have hle := Pool.dimensions_classType htype
      have hdimensions : InferredType.dimensions (.object type) ≤ most :=
        Nat.le_trans hle (Nat.le_of_succ_le hmost)
      exact (stays_replaceAll _ hdimensions).drop (Nat.zero_le _)
    · exact .throw
  · dsimp only
    split
    · refine .bind stays_pop fun receiver _ => ?_
      split
      · exact (stays_pushResult hresult).drop (Nat.zero_le _)
      · exact (stays_pushResult hresult).drop (Nat.zero_le _)
      · have hthrow : Stays most room 3 0 (fun _ : Unit => False)
            (throw (.invalidType .initializedReference receiver)) := .throw
        exact .bind hthrow fun _ h => h.elim
    · exact (stays_pushResult hresult).drop (Nat.zero_le _)

theorem stays_invokeDynamic (hmost : context.constants.longestText + 1 ≤ most) (index : PoolIndex) :
    Stays most room 2 0 (fun _ => True) (invokeDynamic context.constants index) := by
  refine .bind (stays_constant index _) fun signature hsignature => ?_
  obtain ⟨text, htext, hsignature⟩ := except_bind_ok.1 hsignature
  refine .bind (stays_popArguments _) fun _ _ =>
    (stays_pushResult fun type htype => ?_).drop (Nat.zero_le _)
  have hle := MethodDescriptor.dimensions_of_descriptor hsignature type htype
  have hle' := Pool.invokeDynamicDescriptor_le_longestText htext
  omega

theorem stays_numbers (kind kind' result : InferredType) (h : result.dimensions ≤ most) :
    Stays most room 2 3 (fun _ => True) (do popType kind; popType kind'; push result) :=
  .bind (stays_popType kind) fun _ _ => .bind (stays_popType kind') fun _ _ => stays_push h

theorem stays_number (kind result : InferredType) (h : result.dimensions ≤ most) :
    Stays most room 2 2 (fun _ => True) (do popType kind; push result) :=
  .bind (stays_popType kind) fun _ _ => stays_push h

theorem dimensions_numberType (kind : NumberKind) : (numberType kind).dimensions ≤ most := by
  cases kind <;> exact Nat.zero_le _

theorem dimensions_integralType (kind : IntegralKind) : (integralType kind).dimensions ≤ most := by
  cases kind <;> exact Nat.zero_le _

theorem dimensions_arrayOf (type : FieldType) :
    (RefType.arrayOf type).dimensions = type.verificationType.dimensions + 1 := by
  cases type with
  | base type => cases type <;> rfl
  | ref type => cases type <;> rfl

/-- An instruction adds at most two values to the stack. -/
theorem stays_instruction (hmost : context.constants.longestText + 1 ≤ most)
    (hroom : 65537 ≤ room) (allocation : Option Label) (i : Instruction) :
    Stays most room 2 0 (fun _ => True) (instruction context allocation i) := by
  have hzero : (0 : Nat) ≤ most := Nat.zero_le most
  -- a reference that is popped makes room for one value
  have hreference : ∀ {credit : Nat},
      Stays most room credit (credit + 1) (fun _ => True) (discard popReference) :=
    stays_popReference.discard
  cases i with
  | nop => exact (Stays.pure trivial).drop (Nat.zero_le 2)
  | nullConst | intConst | longConst | floatConst | doubleConst | pushByte | pushShort =>
    exact (stays_push hzero).drop (Nat.zero_le 1)
  | loadConstant index | loadWideConstant index =>
    exact (stays_loadConstant hmost index _).drop (Nat.zero_le 1)
  | load kind slot => exact (stays_load kind slot).drop (Nat.zero_le 1)
  | store kind slot => exact (stays_store hroom kind slot).drop (Nat.zero_le 3)
  | arrayLoad kind => exact (stays_arrayLoad kind).drop (Nat.zero_le 3)
  | arrayStore kind => exact (stays_arrayStore kind).drop (Nat.zero_le 5)
  | shuffle op => exact stays_shuffle op
  | arithmetic op kind =>
    exact (stays_numbers _ _ _ (dimensions_numberType kind)).drop (Nat.zero_le 3)
  | negate kind => exact (stays_number _ _ (dimensions_numberType kind)).drop (Nat.zero_le 2)
  | shift op kind =>
    exact (stays_numbers _ _ _ (dimensions_integralType kind)).drop (Nat.zero_le 3)
  | bitwise op kind =>
    exact (stays_numbers _ _ _ (dimensions_integralType kind)).drop (Nat.zero_le 3)
  | increment slot amount => exact (stays_expectLocal slot _).drop (Nat.zero_le 2)
  | convert source target distinct =>
    exact (stays_number _ _ (dimensions_numberType target)).drop (Nat.zero_le 2)
  | narrow target => exact (stays_number _ _ hzero).drop (Nat.zero_le 2)
  | compareLongs | compareFloats unordered | compareDoubles unordered =>
    exact (stays_numbers _ _ _ hzero).drop (Nat.zero_le 3)
  | getStatic index =>
    refine .bind (stays_fieldType hmost index) fun type htype => ?_
    exact (stays_push htype).drop (Nat.zero_le 1)
  | putStatic index =>
    refine .bind (stays_fieldType hmost index) fun type _ => ?_
    exact (stays_popCompatible type).drop (Nat.zero_le 3)
  | getField index =>
    refine .bind (stays_fieldType hmost index) fun type htype => .bind hreference fun _ _ => ?_
    exact (stays_push htype).drop (Nat.zero_le 2)
  | putField index =>
    refine .bind (stays_fieldType hmost index) fun type _ =>
      .bind (stays_popCompatible type) fun _ _ => ?_
    exact hreference.drop (Nat.zero_le 4)
  | invoke kind index => exact stays_invoke hmost kind index
  | invokeDynamic index => exact stays_invokeDynamic hmost index
  | new type =>
    cases allocation with
    | none => exact .throw
    | some site => exact (stays_push hzero).drop (Nat.zero_le 1)
  -- the only types with a dimension more than their constant are those of new arrays
  | newArray element =>
    have hone : InferredType.dimensions (.object (.arrayOf (.base element))) ≤ most := by
      change (RefType.arrayOf (.base element)).dimensions ≤ most
      rw [dimensions_arrayOf]
      cases element <;> exact Nat.le_trans (Nat.le_add_left 1 _) hmost
    exact (stays_number _ _ hone).drop (Nat.zero_le 2)
  | newRefArray index =>
    refine .bind (stays_popType _) fun _ _ =>
      .bind (stays_classType hmost index) fun type htype => ?_
    have hmore : InferredType.dimensions (.object (.arrayOf (.ref type))) ≤ most := by
      change (RefType.arrayOf (.ref type)).dimensions ≤ most
      rw [dimensions_arrayOf]
      exact htype
    exact (stays_push hmore).drop (Nat.zero_le 2)
  | arrayLength | instanceOf type =>
    exact .bind hreference fun _ _ => (stays_push hzero).drop (Nat.zero_le 2)
  | checkCast index =>
    refine .bind hreference fun _ _ => .bind (stays_classType hmost index) fun type htype => ?_
    exact (stays_push (Nat.le_of_succ_le htype)).drop (Nat.zero_le 2)
  | monitorEnter | monitorExit => exact hreference.drop (Nat.zero_le 3)
  | newMultiArray index dimensions =>
    refine .bind (.forM fun _ _ => (stays_popType _).drop (Nat.le_succ _)) fun _ _ =>
      .bind (stays_classType hmost index) fun type htype => ?_
    exact (stays_push (Nat.le_of_succ_le htype)).drop (Nat.zero_le 1)

/-- A value that is returned is taken off the stack. -/
theorem stays_returnValue (context : MethodContext) (kind : ValueKind) :
    Stays most room 2 3 (fun _ => True) (returnValue context kind) := by
  unfold returnValue
  cases valueType? kind with
  | some expected =>
    refine .bind stays_pop fun found _ => ?_
    split
    · exact .throw
    · exact .pure trivial
  | none =>
    refine .bind stays_popReference fun found _ => ?_
    split
    · exact .pure trivial
    · exact .throw

/-- Branches only take values off the stack. -/
theorem stays_branch {L : Type} (context : MethodContext) (b : Branch L) :
    Stays most room 2 2 (fun _ => True) (branch context b) := by
  have hreference : ∀ {credit : Nat},
      Stays most room credit (credit + 1) (fun _ => True) (discard popReference) :=
    stays_popReference.discard
  cases b with
  | ifInt | tableSwitch | lookupSwitch => exact (stays_popType _).drop (Nat.le_succ 2)
  | ifInts =>
    exact (Stays.bind (stays_popType _) fun _ _ => stays_popType _).drop (Nat.le_add_right 2 2)
  | ifRefs => exact (Stays.bind hreference fun _ _ => hreference).drop (Nat.le_add_right 2 2)
  | ifNull | throwException => exact hreference.drop (Nat.le_succ 2)
  | goto => exact .pure trivial
  | returnValue kind => exact (stays_returnValue context kind).drop (Nat.le_succ 2)
  | returnVoid =>
    unfold branch
    cases context.returnType with
    | none => exact .pure trivial
    | some type => exact .throw
  -- subroutines are not executed
  | jsr | ret => exact .throw

/-- An operation stays within the limits of its state, and adds at most two values to the stack. -/
theorem stays_operation {L : Type} (hmost : context.constants.longestText + 1 ≤ most)
    (hroom : 65537 ≤ room) (allocation : Option Label) (operation : Operation L) :
    Stays most room 2 0 (fun _ => True) (Transfer.operation context allocation operation) := by
  cases operation with
  | step i => exact stays_instruction hmost hroom allocation i
  | branch b => exact (stays_branch context b).drop (Nat.zero_le 2)

end Instructions

end Transfer

end Preverification
