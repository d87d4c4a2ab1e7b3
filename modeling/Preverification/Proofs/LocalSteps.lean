import Preverification.Proofs.RelatedStates
import Preverification.Proofs.StackSlots

/-!
# What operations do to local variables

Local variables change in two ways: a value from the stack is written into one of them, or an object
is initialized wherever it is. All other operations leave them as they are. Loads and increments
read one of them.

* `LocalStep`: what an operation may do to local variables.
* `Transfer.invoke_locals`: a call changes them only by initializing an object.
* `Transfer.operation_locals`: the local variables behind an operation that can run.
-/

namespace Preverification

/-- The number of slots of the values of a kind. -/
def ValueKind.width : ValueKind → Nat
  | .int | .float | .reference => 1
  | .long | .double => 2

/-- The local variable that an operation reads or writes: its slot and the number of its slots. -/
def Operation.local? {L : Type} : Operation L → Option (UInt16 × Nat)
  | .step (.load kind slot) | .step (.store kind slot) => some (slot, kind.width)
  | .step (.increment slot _) => some (slot, 1)
  | _ => none

/-- Values of a type are of a kind. -/
def InferredType.IsOfKind (type : InferredType) (kind : ValueKind) : Prop :=
  match Transfer.valueType? kind with
  | some expected => type = expected
  | none => type.isReference

/-- The local variables behind an operation, when `state` is known in front of it. -/
inductive LocalStep {L : Type} (state : TypeState) : Operation L → List InferredType → Prop where
  -- they stay as they are
  | keep (operation : Operation L) : LocalStep state operation state.locals
  -- the value on top of the stack is written into one of them
  | write {kind : ValueKind} {slot : UInt16} {type : InferredType}
      (holds : state.stack.values.head? = some type) (kind_eq : type.IsOfKind kind) :
      LocalStep state (.step (.store kind slot))
        (TypeState.setLocal slot.toNat type state.locals)
  -- an object is initialized
  | construct {index : PoolIndex} {object : InferredType} (class' : RefType)
      (uninitialized : object.IsUninitialized) :
      LocalStep state (.step (.invoke .special index))
        (state.locals.map fun type => if type = object then .object class' else type)

/-- A value of a kind takes up the slots of the kind. -/
theorem InferredType.IsOfKind.width_eq {type : InferredType} {kind : ValueKind}
    (h : type.IsOfKind kind) : width type = kind.width := by
  cases kind with
  | int | long | float | double =>
    cases h
    rfl
  | reference =>
    cases type with
    | null | uninitializedThis | object | uninitialized => rfl
    | top | integer | float | double | long => cases h

/-- A value of a kind is no unusable one. -/
theorem InferredType.IsOfKind.ne_top {type : InferredType} {kind : ValueKind}
    (h : type.IsOfKind kind) : type ≠ .top := by
  rintro rfl
  cases kind <;> cases h

namespace Transfer

/-- The local variables stay as they are. -/
def SameLocals (before after : TypeState) : Prop := after.locals = before.locals

instance : IsPreorder TypeState SameLocals where
  refl _ := rfl
  trans _ _ _ h h' := Eq.trans h' h

theorem sameLocals_pop : Respects SameLocals pop := fun _ _ _ hrun => (pop_ok.1 hrun).2

theorem sameLocals_pushAll (types : List InferredType) : Respects SameLocals (pushAll types) := by
  apply Respects.forM
  rintro type state value after ⟨⟩
  rfl

/-- Values are popped and pushed without a look at the local variables. -/
theorem sameLocals_popsThenPushes : PopsThenPushes SameLocals SameLocals where
  pop := sameLocals_pop
  push types _ := sameLocals_pushAll types
  comp _ _ _ h h' := trans_of SameLocals h h'

section Steps

variable {L : Type} {context : MethodContext} {state after : TypeState}

/-- The type that is popped was on top. -/
theorem popType_head {expected : InferredType} (h : popType expected state = .ok () after) :
    state.stack.values.head? = some expected := by
  rcases state_bind_ok.1 h with ⟨type, popped, hpop, hcheck⟩
  split at hcheck
  · rename_i heq
    rw [(pop_ok.1 hpop).1, heq]
    rfl
  · cases hcheck

/-- The reference that is popped was on top. -/
theorem popReference_head {type : InferredType} (h : popReference state = .ok type after) :
    state.stack.values.head? = some type ∧ type.isReference := by
  rcases state_bind_ok.1 h with ⟨found, popped, hpop, hcheck⟩
  split at hcheck
  · rename_i hreference
    cases hcheck
    rw [(pop_ok.1 hpop).1]
    exact ⟨rfl, hreference⟩
  · cases hcheck

/-- A local variable that is expected to have a type has it. -/
theorem expectLocal_ok {slot : UInt16} {expected : InferredType}
    (h : expectLocal slot expected state = .ok () after) :
    localAt state.locals slot.toNat = expected := by
  rcases state_bind_ok.1 h with ⟨type, between, hget, hcheck⟩
  rcases getLocal_ok.1 hget with ⟨rfl, -, -⟩
  split at hcheck
  · rename_i heq
    exact heq
  · cases hcheck

/-- A store writes what it takes from the stack. -/
theorem store_ok {kind : ValueKind} {slot : UInt16} (h : store kind slot state = .ok () after) :
    ∃ type, state.stack.values.head? = some type ∧ type.IsOfKind kind ∧
      after.locals = TypeState.setLocal slot.toNat type state.locals := by
  have hwrite : ∀ type between, setLocal slot type between = .ok () after →
      between.locals = state.locals →
        after.locals = TypeState.setLocal slot.toNat type state.locals := by
    rintro type between ⟨⟩ hsame
    rw [← hsame]
  unfold store at h
  cases hkind : valueType? kind with
  | some expected =>
    simp only [hkind] at h
    rcases state_bind_ok.1 h with ⟨_, between, hpop, h⟩
    refine ⟨expected, popType_head hpop, ?_, hwrite _ _ h (sameLocals_pop.popType _ _ _ _ hpop)⟩
    simp only [InferredType.IsOfKind, hkind]
  | none =>
    simp only [hkind] at h
    rcases state_bind_ok.1 h with ⟨type, between, hpop, h⟩
    rcases popReference_head hpop with ⟨hhead, hreference⟩
    refine ⟨type, hhead, ?_, hwrite _ _ h (sameLocals_pop.popReference _ _ _ hpop)⟩
    simp only [InferredType.IsOfKind, hkind]
    exact hreference

/-- A load reads a local variable of its kind. -/
theorem load_ok {kind : ValueKind} {slot : UInt16} (h : load kind slot state = .ok () after) :
    (localAt state.locals slot.toNat).IsOfKind kind := by
  unfold load at h
  cases hkind : valueType? kind with
  | some expected =>
    simp only [hkind] at h
    rcases state_bind_ok.1 h with ⟨_, _, hget, _⟩
    simp only [InferredType.IsOfKind, hkind]
    exact expectLocal_ok hget
  | none =>
    simp only [hkind] at h
    rcases state_bind_ok.1 h with ⟨type, between, hget, hcheck⟩
    rcases getLocal_ok.1 hget with ⟨rfl, -, -⟩
    split at hcheck
    · rename_i hreference
      simp only [InferredType.IsOfKind, hkind]
      exact hreference
    · cases hcheck

/-- The parts of a call leave local variables as they are, but for the one that initializes an
object. -/
theorem localStep_popsThenPushes (kind : InvokeKind) (index : PoolIndex) :
    PopsThenPushes SameLocals fun before after =>
      LocalStep before (.step (.invoke kind index) : Operation L) after.locals where
  pop := sameLocals_pop
  push types _ := by
    intro before value after hrun
    rw [sameLocals_pushAll types before value after hrun]
    exact .keep _
  comp before between after hsame hstep := by
    have hlocals : between.locals = before.locals := hsame
    generalize after.locals = locals at hstep ⊢
    cases hstep with
    | keep =>
      rw [hlocals]
      exact .keep _
    | construct class' huninitialized =>
      rw [hlocals]
      exact .construct class' huninitialized

/-- A call changes local variables only by initializing an object. -/
theorem invoke_locals {kind : InvokeKind} {index : PoolIndex}
    (h : invoke context kind index state = .ok () after) :
    LocalStep state (.step (.invoke kind index) : Operation L) after.locals := by
  refine (localStep_popsThenPushes kind index).invoke context kind index ?_ state () after h
  rintro rfl object class' hwidth huninitialized before value after' ⟨⟩
  exact .construct class' huninitialized

/-- The local variables behind an operation that can run. -/
theorem operation_locals {allocation : Option Label} {op : Operation L}
    (h : operation context allocation op state = .ok () after) : LocalStep state op after.locals := by
  have hkeeps : Respects SameLocals (operation context allocation op) →
      LocalStep state op after.locals := by
    intro hkeeps
    rw [hkeeps state () after h]
    exact .keep op
  -- besides stores, only calls of constructors change local variables
  cases op with
  | branch b => exact hkeeps (sameLocals_popsThenPushes.branch context b)
  | step i =>
    cases i with
    | store kind slot =>
      rcases store_ok h with ⟨type, htop, hkind, hlocals⟩
      rw [hlocals]
      exact .write htop hkind
    | invoke kind index => exact invoke_locals h
    | _ => exact hkeeps (sameLocals_popsThenPushes.operation context allocation nofun nofun)

end Steps

end Transfer

end Preverification
