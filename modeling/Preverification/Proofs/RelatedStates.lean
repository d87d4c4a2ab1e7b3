import Mathlib.Order.RelClasses
import Preverification.Proofs.Monotone

/-!
# Relations between the states around an instruction

The effect of an instruction is put together from a few parts: values are popped and pushed, local
variables and constants are read. What a part does to a state is told by a relation between the
state in front of it and the one behind it. A relation that is reflexive and transitive is respected
by a sequence of parts if each of them respects it, so that a property of all instructions takes one
lemma for each part.

* `Respects.bind`: parts that respect a relation respect it one after the other.
* `Respects.comp`: the same for two relations that compose.
* `Respects.popType` and the lemmas beside it: whatever is popped, it is popped as a value is.
-/

namespace Preverification

/-- Objects of a type are not initialized yet. -/
inductive InferredType.IsUninitialized : InferredType → Prop where
  | receiver : IsUninitialized .uninitializedThis
  | allocated (site : Label) : IsUninitialized (.uninitialized site)

namespace Transfer

/-- Where a part of an instruction can run, the states around it are related. -/
def Respects (R : TypeState → TypeState → Prop) {α : Type} (action : Transfer α) : Prop :=
  ∀ state value after, action state = .ok value after → R state after

variable {R S T : TypeState → TypeState → Prop} {α β : Type}

/-! ## Putting parts together -/

/-- A part that fails relates nothing. -/
theorem Respects.throw (error : TypeError) : Respects R (throw error : Transfer α) := by
  intro state value after hrun
  exact absurd hrun state_throw_ok

/-- Two parts lead through a state between them. -/
theorem Respects.comp {action : Transfer α} {next : α → Transfer β} (h : Respects R action)
    (hnext : ∀ value, Respects S (next value))
    (hcomp : ∀ state between after, R state between → S between after → T state after) :
    Respects T (action >>= next) := by
  intro state found after hrun
  obtain ⟨value, between, hfirst, hsecond⟩ := state_bind_ok.1 hrun
  apply hcomp state between after
  · exact h state value between hfirst
  · exact hnext value between found after hsecond

/-- Of two ways, one is taken. -/
theorem Respects.ite {condition : Prop} [Decidable condition] {yes no : Transfer α}
    (hyes : Respects R yes) (hno : Respects R no) :
    Respects R (if condition then yes else no) := by
  split
  · exact hyes
  · exact hno

section Preorder

variable [IsPreorder TypeState R]

/-- An answer leaves the state as it is. -/
theorem Respects.pure (value : α) : Respects R (pure value : Transfer α) := by
  intro state found after hrun
  obtain ⟨-, rfl⟩ := state_pure_ok.1 hrun
  exact refl_of R state

/-- Parts that respect a relation respect it one after the other. -/
theorem Respects.bind {action : Transfer α} {next : α → Transfer β} (h : Respects R action)
    (hnext : ∀ value, Respects R (next value)) : Respects R (action >>= next) :=
  h.comp hnext fun _ _ _ hfirst hsecond => trans_of R hfirst hsecond

theorem Respects.discard {action : Transfer α} (h : Respects R action) :
    Respects R (discard action) :=
  h.bind fun _ => .pure ()

/-- Parts for the elements of a list respect a relation that each of them respects. -/
theorem Respects.forM {l : List β} {action : β → Transfer Unit}
    (h : ∀ b, Respects R (action b)) : Respects R (l.forM action) := by
  induction l with
  | nil => exact .pure ()
  | cons b l ih => exact (h b).bind fun _ => ih

/-! ## Parts that only read -/

/-- A look-up in the pool leaves the state as it is. -/
theorem respects_constant (index : PoolIndex) (result : Except StructuralError α) :
    Respects R (constant index result) := by
  intro state value after hrun
  obtain ⟨-, rfl⟩ := constant_ok.1 hrun
  exact refl_of R state

/-- A look at a local variable leaves the state as it is. -/
theorem respects_getLocal (slot : UInt16) : Respects R (getLocal slot) := by
  intro state type after hrun
  obtain ⟨-, -, hsame⟩ := getLocal_ok.1 hrun
  rw [hsame]
  exact refl_of R state

/-- What a local variable is expected to hold is only looked at. -/
theorem respects_expectLocal (slot : UInt16) (expected : InferredType) :
    Respects R (expectLocal slot expected) :=
  (respects_getLocal slot).bind fun _ => .ite (.pure _) (.throw _)

/-! ## Values that are popped -/

/-- Values of a width, of a type, or that are compatible with one are popped as a value is. -/
theorem Respects.popWidth (h : Respects R pop) (expected : Nat) :
    Respects R (popWidth expected) :=
  h.bind fun _ => .ite (.pure _) (.throw _)

theorem Respects.popType (h : Respects R pop) (expected : InferredType) :
    Respects R (popType expected) :=
  h.bind fun _ => .ite (.pure _) (.throw _)

theorem Respects.popReference (h : Respects R pop) : Respects R popReference :=
  h.bind fun _ => .ite (.pure _) (.throw _)

theorem Respects.popCompatible (h : Respects R pop) (expected : InferredType) :
    Respects R (popCompatible expected) :=
  h.bind fun _ => .ite (.pure _) (.throw _)

/-- Arguments are popped one by one. -/
theorem Respects.popArguments (h : Respects R pop) (parameters : List FieldType) :
    Respects R (popArguments parameters) :=
  .forM fun _ => h.popCompatible _

end Preorder

/-! ## Instructions -/

/-- One relation is respected while values are popped, and another one when values are pushed behind
them. No instruction pushes more than six values. -/
structure PopsThenPushes (R S : TypeState → TypeState → Prop) : Prop where
  pop : Respects R pop
  push : ∀ types : List InferredType, types.length ≤ 6 → Respects S (pushAll types)
  comp : ∀ state between after, R state between → S between after → S state after

namespace PopsThenPushes

variable (h : PopsThenPushes R S)
include h

/-- Values may be popped first. -/
theorem andThen {action : Transfer α} {next : α → Transfer β} (hfirst : Respects R action)
    (hnext : ∀ value, Respects S (next value)) : Respects S (action >>= next) :=
  hfirst.comp hnext h.comp

/-- One value is fewer than six. -/
theorem pushOne (type : InferredType) : Respects S (Transfer.push type) :=
  h.push [type] (by simp)

/-- Values need not be pushed. -/
theorem ends {action : Transfer α} (haction : Respects R action) : Respects S action := by
  intro state value after hrun
  have hpushed : S after after := h.push [] (Nat.zero_le _) after () after rfl
  exact h.comp state after after (haction state value after hrun) hpushed

/-- A result is pushed, if there is one. -/
theorem pushResult (result : Option FieldType) :
    Respects S (result.forM fun type => Transfer.push type.verificationType) := by
  cases result with
  | none => exact h.push [] (Nat.zero_le _)
  | some type => exact h.pushOne _

variable [IsPreorder TypeState R]

theorem loadConstant (pool : Pool) (index : PoolIndex) (expected : Nat) :
    Respects S (loadConstant pool index expected) :=
  h.andThen (respects_constant _ _) fun _ => .ite (h.pushOne _) (.throw _)

/-- What is loaded was read before it is pushed. -/
theorem load (kind : ValueKind) (slot : UInt16) : Respects S (load kind slot) := by
  unfold Transfer.load
  split
  · exact h.andThen (respects_expectLocal slot _) fun _ => h.pushOne _
  · exact h.andThen (respects_getLocal slot) fun _ => .ite (h.pushOne _) (.throw _)

/-- The element of an array is pushed behind the array and the index. -/
theorem arrayLoad (kind : ElementKind) : Respects S (arrayLoad kind) := by
  refine h.andThen (h.pop.popType _) fun _ => ?_
  split
  · exact h.andThen h.pop.popReference.discard fun _ => h.pushOne _
  · refine h.andThen h.pop fun array => ?_
    split
    · exact h.pushOne _
    · split
      · exact h.pushOne _
      · exact .throw _
    · exact .throw _

/-- An element that is stored is popped with its array. -/
theorem arrayStore (kind : ElementKind) : Respects S (arrayStore kind) := by
  have hrest : Respects R (do Transfer.popType .integer; discard Transfer.popReference) :=
    (h.pop.popType _).bind fun _ => h.pop.popReference.discard
  unfold Transfer.arrayStore
  split
  · exact h.ends ((h.pop.popType _).bind fun _ => hrest)
  · exact h.ends (h.pop.popReference.discard.bind fun _ => hrest)

/-- What a shuffle pushes was popped before; four values make six at most. -/
theorem shuffle (op : StackShuffle) : Respects S (shuffle op) := by
  have hone : Respects R (popWidth 1) := h.pop.popWidth 1
  -- however many values were popped, no more than six are pushed
  have hpush : ∀ types : List InferredType, types.length ≤ 6 → Respects S (pushAll types) := h.push
  cases op with
  | pop => exact h.ends hone.discard
  | pop2 => exact h.ends (h.pop.bind fun _ => .ite hone.discard (.pure ()))
  | dup => exact h.andThen hone fun _ => hpush _ (by simp)
  | dupX1 =>
    exact h.andThen hone fun _ => h.andThen hone fun _ => hpush _ (by simp)
  | dupX2 =>
    refine h.andThen hone fun _ => h.andThen h.pop fun _ => .ite ?_ ?_
    · exact h.andThen hone fun _ => hpush _ (by simp)
    · exact hpush _ (by simp)
  | dup2 =>
    refine h.andThen h.pop fun _ => .ite ?_ ?_
    · exact h.andThen hone fun _ => hpush _ (by simp)
    · exact hpush _ (by simp)
  | dup2X1 =>
    refine h.andThen h.pop fun _ => h.andThen hone fun _ => .ite ?_ ?_
    · exact h.andThen hone fun _ => hpush _ (by simp)
    · exact hpush _ (by simp)
  | dup2X2 =>
    refine h.andThen h.pop fun _ => h.andThen h.pop fun _ => .ite (.ite ?_ (.throw _)) (.ite ?_ ?_)
    · refine h.andThen h.pop fun _ => .ite ?_ ?_
      · exact h.andThen hone fun _ => hpush _ (by simp)
      · exact hpush _ (by simp)
    · exact h.andThen hone fun _ => hpush _ (by simp)
    · exact hpush _ (by simp)
  | swap =>
    exact h.andThen hone fun _ => h.andThen hone fun _ => hpush _ (by simp)

/-- Two numbers make a third one. -/
theorem numbers (first second result : InferredType) :
    Respects S (do popType first; popType second; Transfer.push result) :=
  h.andThen (h.pop.popType _) fun _ => h.andThen (h.pop.popType _) fun _ => h.pushOne _

theorem number (operand result : InferredType) :
    Respects S (do popType operand; Transfer.push result) :=
  h.andThen (h.pop.popType _) fun _ => h.pushOne _

/-- What a call does to the object of a constructor is not known here. -/
theorem invoke (context : MethodContext) (kind : InvokeKind) (index : PoolIndex)
    (hreplace : kind = .special → ∀ (object : InferredType) (class' : RefType)
      (hwidth : width (.object class' : InferredType) = width object),
      InferredType.IsUninitialized object → Respects S (replaceAll object (.object class') hwidth)) :
    Respects S (invoke context kind index) := by
  refine h.andThen (respects_constant _ _) fun method => ?_
  refine h.andThen (respects_constant _ _) fun signature => ?_
  refine h.andThen (h.pop.popArguments _) fun _ => ?_
  split
  · rename_i hinit
    refine h.andThen h.pop fun receiver => ?_
    split
    · exact hreplace hinit.1 _ _ _ .receiver
    · exact h.andThen (respects_constant _ _) fun _ => hreplace hinit.1 _ _ _ (.allocated _)
    · exact .throw _
  · dsimp only
    split
    · refine h.andThen h.pop fun receiver => ?_
      split
      · exact h.pushResult _
      · exact h.pushResult _
      · exact h.andThen (.throw _) fun _ => h.pushResult _
    · exact h.pushResult _

/-- A value that is returned is popped. -/
theorem returnValue (context : MethodContext) (kind : ValueKind) :
    Respects S (returnValue context kind) := by
  apply h.ends
  unfold Transfer.returnValue
  split
  · exact h.pop.bind fun _ => .ite (.throw _) (.pure _)
  · refine h.pop.popReference.bind fun _ => ?_
    split
    · exact .pure _
    · exact .throw _

/-- Branches pop their operands, and push nothing. -/
theorem branch {L : Type} (context : MethodContext) (b : Branch L) :
    Respects S (branch context b) := by
  have hreference : Respects R (discard Transfer.popReference) := h.pop.popReference.discard
  cases b with
  | ifInt | tableSwitch | lookupSwitch => exact h.ends (h.pop.popType _)
  | ifInts => exact h.ends ((h.pop.popType _).bind fun _ => h.pop.popType _)
  | ifRefs => exact h.ends (hreference.bind fun _ => hreference)
  | ifNull | throwException => exact h.ends hreference
  | goto => exact h.ends (.pure ())
  | returnValue kind => exact h.returnValue context kind
  | returnVoid =>
    unfold Transfer.branch
    dsimp only
    split
    · exact h.ends (.pure ())
    · exact .throw _
  | jsr | ret => exact .throw _

/-- All operations but stores and calls are made of such parts. -/
theorem operation {L : Type} {op : Operation L} (context : MethodContext)
    (allocation : Option Label) (hstore : ∀ kind slot, op ≠ .step (.store kind slot))
    (hinvoke : ∀ kind index, op ≠ .step (.invoke kind index)) :
    Respects S (operation context allocation op) := by
  have hreference : Respects R (discard Transfer.popReference) := h.pop.popReference.discard
  cases op with
  | branch b => exact h.branch context b
  | step i =>
    -- one case for each instruction, by the values that it pops in front of those that it pushes
    cases i with
    | store kind slot => exact absurd rfl (hstore kind slot)
    | invoke kind index => exact absurd rfl (hinvoke kind index)
    | nop => exact h.ends (.pure ())
    | nullConst | intConst | longConst | floatConst | doubleConst | pushByte | pushShort =>
      exact h.pushOne _
    | loadConstant index | loadWideConstant index => exact h.loadConstant _ _ _
    | load kind slot => exact h.load kind slot
    | arrayLoad kind => exact h.arrayLoad kind
    | arrayStore kind => exact h.arrayStore kind
    | shuffle op => exact h.shuffle op
    | arithmetic | shift | bitwise | compareLongs | compareFloats | compareDoubles =>
      exact h.numbers _ _ _
    | negate | convert | narrow | newArray => exact h.number _ _
    | increment slot amount => exact h.ends (respects_expectLocal slot _)
    | getStatic index => exact h.andThen (respects_constant _ _) fun _ => h.pushOne _
    | putStatic index =>
      exact h.ends ((respects_constant _ _).bind fun _ => h.pop.popCompatible _)
    | getField index =>
      exact h.andThen (respects_constant _ _) fun _ => h.andThen hreference fun _ => h.pushOne _
    -- in front of the value, there is the object that holds it
    | putField index =>
      exact h.ends ((respects_constant _ _).bind fun _ =>
        (h.pop.popCompatible _).bind fun _ => hreference)
    | invokeDynamic index =>
      exact h.andThen (respects_constant _ _) fun _ =>
        h.andThen (h.pop.popArguments _) fun _ => h.pushResult _
    | new type =>
      cases allocation with
      | none => exact .throw _
      | some site => exact h.pushOne _
    | newRefArray index =>
      exact h.andThen (h.pop.popType _) fun _ =>
        h.andThen (respects_constant _ _) fun _ => h.pushOne _
    | arrayLength | instanceOf => exact h.andThen hreference fun _ => h.pushOne _
    | checkCast index =>
      exact h.andThen hreference fun _ => h.andThen (respects_constant _ _) fun _ => h.pushOne _
    | monitorEnter | monitorExit => exact h.ends hreference
    -- one length is popped for each dimension
    | newMultiArray index dimensions =>
      exact h.andThen (.forM fun _ => h.pop.popType _) fun _ =>
        h.andThen (respects_constant _ _) fun _ => h.pushOne _

end PopsThenPushes

end Transfer

end Preverification
