import Preverification.Proofs.Causes
import Preverification.Proofs.Inference
import Preverification.Proofs.LabelHygiene

/-!
# What failing type inference is blamed on

Type inference trusts the stages in front of it in two ways: there are no calls and returns of
subroutines, and there is a label in front of every allocation. Where that holds, and where all
labels that something refers to were placed, types that do not line up are the fault of the input.

* `Transfer.blames_operation`: the effect of an operation, where a label is in front of each
  allocation.
* `Merge.blames_states`: a merge.
* `Body.blames_analyze`: the inference of the types of a body that was prepared.
-/

namespace Preverification

/-- The input can cause an error, unless a stage in front of type inference excludes it. -/
def TypeError.CausedByInput : TypeError → Prop
  | subroutine | unlabelledAllocation => False
  | _ => True

/-- The input can cause an error of a merge. -/
def MergeError.CausedByInput : MergeError → Prop
  | type error => error.CausedByInput
  | resolve _ => True

/-- The input can cause an error of type inference. -/
def AnalysisError.CausedByInput : AnalysisError → Prop
  | type _ error => error.CausedByInput
  | structural error => error.CausedByInput
  | resolve _ | divergent => True

/-! ### Instructions -/

namespace Transfer

variable {α : Type} (pool : Pool) (index : PoolIndex)

/-- A change of a type state fails because of the input. -/
abbrev BlamesInput (action : Transfer α) : Prop := StepBlames TypeError.CausedByInput action

theorem blames_push (type : InferredType) : BlamesInput (push type) := .modify _

theorem blames_pushAll (types : List InferredType) : BlamesInput (pushAll types) :=
  .forM fun type _ => blames_push type

/-- An empty stack is the fault of the input. -/
theorem blames_pop : BlamesInput pop := by
  intro state error state' hrun
  unfold pop at hrun
  split at hrun
  · cases hrun
  · cases hrun
    trivial

/-- A value that takes up another number of slots is a fault of the input. -/
theorem blames_popWidth (expected : Nat) : BlamesInput (popWidth expected) :=
  .bind blames_pop fun _ => .ite (.pure _) (.throw trivial)

theorem blames_popType (expected : InferredType) : BlamesInput (popType expected) :=
  .bind blames_pop fun _ => .ite (.pure _) (.throw trivial)

theorem blames_popReference : BlamesInput popReference :=
  .bind blames_pop fun _ => .ite (.pure _) (.throw trivial)

/-- A value that another one cannot stand for is the fault of the input. -/
theorem blames_popCompatible (expected : InferredType) : BlamesInput (popCompatible expected) :=
  .bind blames_pop fun _ => .ite (.pure _) (.throw trivial)

/-- Arguments are taken off the stack one by one. -/
theorem blames_popArguments (parameters : List FieldType) : BlamesInput (popArguments parameters) :=
  .forM fun _ _ => blames_popCompatible _

/-- A local variable that holds nothing is the fault of the input. -/
theorem blames_getLocal (slot : UInt16) : BlamesInput (getLocal slot) := by
  intro state error state' hrun
  unfold getLocal at hrun
  split at hrun
  · cases hrun
    trivial
  · cases hrun
    trivial
  · cases hrun

theorem blames_expectLocal (slot : UInt16) (expected : InferredType) :
    BlamesInput (expectLocal slot expected) :=
  .bind (blames_getLocal slot) fun _ => .ite (.pure _) (.throw trivial)

theorem blames_setLocal (slot : UInt16) (type : InferredType) : BlamesInput (setLocal slot type) :=
  .modify _

/-- An object that was constructed is replaced without looking at anything. -/
theorem blames_replaceAll {old new : InferredType} (h : width new = width old) :
    BlamesInput (replaceAll old new h) :=
  .modify _

/-- A constant that does not fit its instruction is the fault of the input. -/
theorem blames_constant (result : Except StructuralError α) : BlamesInput (constant index result) := by
  unfold constant
  split
  · exact .pure _
  · exact .throw trivial

theorem blames_loadConstant (expected : Nat) : BlamesInput (loadConstant pool index expected) :=
  .bind (blames_constant index _) fun type => .ite (blames_push type) (.throw trivial)

/-- Loading and storing fail if the local variable, or the value, is of another kind. -/
theorem blames_load (kind : ValueKind) (slot : UInt16) : BlamesInput (load kind slot) := by
  unfold load
  split
  · exact .bind (blames_expectLocal slot _) fun _ => blames_push _
  · exact .bind (blames_getLocal slot) fun type => .ite (blames_push type) (.throw trivial)

theorem blames_store (kind : ValueKind) (slot : UInt16) : BlamesInput (store kind slot) := by
  unfold store
  split
  · exact .bind (blames_popType _) fun _ => blames_setLocal slot _
  · exact .bind blames_popReference fun type => blames_setLocal slot type

/-- The elements of arrays are of the kind that the instruction names, or the input is wrong. -/
theorem blames_arrayLoad (kind : ElementKind) : BlamesInput (arrayLoad kind) := by
  refine .bind (blames_popType .integer) fun _ => ?_
  split
  · exact .bind (.discard blames_popReference) fun _ => blames_push _
  · refine .bind blames_pop fun array => ?_
    split
    · exact blames_push .null
    · split
      · exact blames_push _
      · exact .throw trivial
    · exact .throw trivial

theorem blames_arrayStore (kind : ElementKind) : BlamesInput (arrayStore kind) := by
  have hindex : BlamesInput (do popType .integer; discard popReference) :=
    .bind (blames_popType .integer) fun _ => .discard blames_popReference
  unfold arrayStore
  split
  · exact .bind (blames_popType _) fun _ => hindex
  · exact .bind (.discard blames_popReference) fun _ => hindex

/-- The values that are moved have to take up the numbers of slots that one of the forms asks for.
-/
theorem blames_shuffle (op : StackShuffle) : BlamesInput (shuffle op) := by
  have hone : BlamesInput (popWidth 1) := blames_popWidth 1
  -- each form pops some values, and pushes them again or not
  cases op with
  | pop => exact .discard hone
  | pop2 => exact .bind blames_pop fun _ => .ite (.discard hone) (.pure _)
  | dup => exact .bind hone fun _ => blames_pushAll _
  | dupX1 | swap => exact .bind hone fun _ => .bind hone fun _ => blames_pushAll _
  | dupX2 =>
    refine .bind hone fun first => .bind blames_pop fun second => ?_
    exact .ite (.bind hone fun _ => blames_pushAll _) (blames_pushAll _)
  | dup2 =>
    refine .bind blames_pop fun first => ?_
    exact .ite (.bind hone fun _ => blames_pushAll _) (blames_pushAll _)
  | dup2X1 =>
    refine .bind blames_pop fun first => .bind hone fun second => ?_
    exact .ite (.bind hone fun _ => blames_pushAll _) (blames_pushAll _)
  | dup2X2 =>
    refine .bind blames_pop fun first => .bind blames_pop fun second => ?_
    refine .ite (.ite ?_ (.throw trivial)) ?_
    · refine .bind blames_pop fun third => ?_
      exact .ite (.bind hone fun _ => blames_pushAll _) (blames_pushAll _)
    · exact .ite (.bind hone fun _ => blames_pushAll _) (blames_pushAll _)

/-- A method that returns nothing pushes nothing. -/
theorem blames_pushResult (result : Option FieldType) :
    BlamesInput (result.forM fun type => push type.verificationType) := by
  cases result with
  | none => exact .pure ()
  | some type => exact blames_push _

/-- A call fails for what it calls, its arguments, or its receiver. -/
theorem blames_invoke (context : MethodContext) (kind : InvokeKind) :
    BlamesInput (invoke context kind index) := by
  refine .bind (blames_constant index _) fun method => ?_
  refine .bind (blames_constant index _) fun signature => ?_
  refine .bind (blames_popArguments _) fun _ => .ite ?_ ?_
  · refine .bind blames_pop fun receiver => ?_
    -- only objects that were allocated and the receiver of a constructor are constructed
    split
    · exact blames_replaceAll _
    · exact .bind (blames_constant index _) fun _ => blames_replaceAll _
    · exact .throw trivial
  · refine .ite ?_ (blames_pushResult _)
    refine .bind blames_pop fun receiver => ?_
    split
    · exact .bind (.pure ()) fun _ => blames_pushResult _
    · exact .bind (.pure ()) fun _ => blames_pushResult _
    · exact .bind (.throw trivial) fun _ => blames_pushResult _

theorem blames_invokeDynamic : BlamesInput (invokeDynamic pool index) :=
  .bind (blames_constant index _) fun _ => .bind (blames_popArguments _) fun _ =>
    blames_pushResult _

/-- The operands are taken off the stack, and a result is put on it. -/
theorem blames_unary (operand result : InferredType) :
    BlamesInput (do popType operand; push result) :=
  .bind (blames_popType operand) fun _ => blames_push result

/-- Two operands are taken off the stack, and a result is put on it. -/
theorem blames_binary (first second result : InferredType) :
    BlamesInput (do popType first; popType second; push result) :=
  .bind (blames_popType first) fun _ => blames_unary second result

/-- An instruction fails because of the input, if it is no allocation or there is a label for it. -/
theorem blames_instruction (context : MethodContext) (allocation : Option Label)
    (i : Instruction) (hallocation : ∀ type, i = .new type → allocation.isSome) :
    BlamesInput (instruction context allocation i) := by
  -- classes and fields that an instruction names are looked up in one way
  have hclass : ∀ (index : PoolIndex) (make : RefType → RefType), BlamesInput (do
      push (.object (make (← classType context.constants index)))) :=
    fun index make => .bind (blames_constant index _) fun type => blames_push (.object (make type))
  have hfield : ∀ index : PoolIndex, BlamesInput (fieldType context.constants index) :=
    fun index => blames_constant index _
  cases i with
  | nop => exact .pure ()
  | nullConst | intConst | pushByte | pushShort | longConst | floatConst | doubleConst =>
    exact blames_push _
  | loadConstant index | loadWideConstant index => exact blames_loadConstant _ index _
  | load kind slot => exact blames_load kind slot
  | store kind slot => exact blames_store kind slot
  | arrayLoad kind => exact blames_arrayLoad kind
  | arrayStore kind => exact blames_arrayStore kind
  | shuffle op => exact blames_shuffle op
  | arithmetic | shift | bitwise | compareLongs | compareFloats | compareDoubles =>
    exact blames_binary _ _ _
  | negate | convert | narrow => exact blames_unary _ _
  | increment slot amount => exact blames_expectLocal slot .integer
  | getStatic index => exact .bind (hfield index) fun _ => blames_push _
  | putStatic index => exact .bind (hfield index) fun _ => blames_popCompatible _
  | getField index =>
    exact .bind (hfield index) fun _ => .bind (.discard blames_popReference) fun _ => blames_push _
  | putField index =>
    exact .bind (hfield index) fun _ => .bind (blames_popCompatible _) fun _ =>
      .discard blames_popReference
  | invoke kind index => exact blames_invoke index context kind
  | invokeDynamic index => exact blames_invokeDynamic context.constants index
  | new type =>
    -- the label that is missing would be the only reason
    obtain ⟨site, rfl⟩ := Option.isSome_iff_exists.1 (hallocation type rfl)
    exact blames_push (.uninitialized site)
  | newArray element => exact blames_unary _ _
  | newRefArray index =>
    exact .bind (blames_popType .integer) fun _ => hclass index fun type => .arrayOf (.ref type)
  | arrayLength | instanceOf => exact .bind (.discard blames_popReference) fun _ => blames_push _
  | checkCast index => exact .bind (.discard blames_popReference) fun _ => hclass index id
  | monitorEnter | monitorExit => exact .discard blames_popReference
  | newMultiArray index dimensions =>
    exact .bind (.forM fun _ _ => blames_popType .integer) fun _ => hclass index id

/-- A value has to be of the type that the method returns. -/
theorem blames_returnValue (context : MethodContext) (kind : ValueKind) :
    BlamesInput (returnValue context kind) := by
  unfold returnValue
  dsimp only
  split
  · exact .bind blames_pop fun _ => .ite (.throw trivial) (.pure _)
  · refine .bind blames_popReference fun found => ?_
    split
    · exact .pure _
    · exact .throw trivial

/-- A branch that calls no subroutine and returns from none takes its operands off the stack. -/
theorem blames_branch {L : Type} (context : MethodContext) (b : Branch L)
    (hsubroutine : b.isSubroutine = false) : BlamesInput (branch context b) := by
  -- calls and returns of subroutines would be the fault of an earlier stage
  cases b with
  | ifInt | tableSwitch | lookupSwitch => exact blames_popType .integer
  | ifInts => exact .bind (blames_popType .integer) fun _ => blames_popType .integer
  | ifRefs => exact .bind (.discard blames_popReference) fun _ => .discard blames_popReference
  | ifNull | throwException => exact .discard blames_popReference
  | goto => exact .pure ()
  | returnValue kind => exact blames_returnValue context kind
  | returnVoid =>
    unfold branch
    dsimp only
    split
    · exact .pure ()
    · exact .throw trivial
  | jsr | ret => cases hsubroutine

/-- An operation fails because of the input, if it is none of those that are excluded. -/
theorem blames_operation {L : Type} (context : MethodContext) (allocation : Option Label)
    (operation : Operation L) (hsubroutine : operation.isSubroutine = false)
    (hallocation : ∀ type, operation = .step (.new type) → allocation.isSome) :
    BlamesInput (Transfer.operation context allocation operation) := by
  cases operation with
  | step i =>
    exact blames_instruction context allocation i fun type heq =>
      hallocation type (congrArg Operation.step heq)
  | branch b => exact blames_branch context b hsubroutine

end Transfer

/-! ### Merges -/

namespace Merge

/-- A merge fails because of the input. -/
abbrev BlamesInput {α : Type} (merge : Merge α) : Prop := StepBlames MergeError.CausedByInput merge

/-- A class that is not found is the fault of the input. -/
theorem blames_query {α : Type} (question : Resolver.Query α) : BlamesInput (query question) := by
  intro resolver error resolver' hrun
  unfold query at hrun
  split at hrun
  · cases hrun
  · cases hrun
    trivial

theorem blames_types (first second : InferredType) : BlamesInput (types first second) := by
  unfold types
  refine .ite (.pure _) ?_
  split
  · exact .pure _
  · exact .pure _
  · exact .bind (blames_query _) fun _ => .pure _
  · exact .pure _

/-- Values at one place of the stack that have nothing in common are the fault of the input. -/
theorem blames_stackTypes (first second : InferredType) : BlamesInput (stackTypes first second) := by
  refine .bind (blames_types first second) fun found => ?_
  split
  · exact .pure _
  · exact .throw trivial

/-- Stacks with different numbers of values are a fault of the input. -/
theorem blames_operandStacks (first second : OperandStack) :
    BlamesInput (operandStacks first second) := by
  refine .ite (.bind (.throw trivial) fun _ => ?_) ?_
  all_goals exact .bind (.mapM fun _ _ => blames_stackTypes _ _) fun _ => .pure _

/-- Local variables that have nothing in common cannot be used, and blame nothing. -/
theorem blames_locals (first second : List InferredType) : BlamesInput (locals first second) :=
  .bind (.mapM fun _ _ => .bind (blames_types _ _) fun _ => .pure _) fun _ => .pure _

/-- Type states are merged by their stacks and their local variables. -/
theorem blames_states (first second : TypeState) : BlamesInput (states first second) :=
  .bind (blames_operandStacks _ _) fun _ => .bind (blames_locals _ _) fun _ => .pure _

end Merge

/-! ### Labels that are placed -/

namespace Body

variable {body : Body} {flow : Flow} {label : Label}

/-- The control flow of a hygienic body is found. -/
theorem Hygienic.exists_flow (h : body.Hygienic) : ∃ flow, body.flow = .ok flow := by
  obtain ⟨positions, hpositions⟩ := exists_labelPositions (nodup_of_label_unique h.unique)
  exact ⟨_, except_bind_ok.2 ⟨positions, hpositions, rfl⟩⟩

/-- A label that is placed has a position. -/
theorem exists_position (hflow : flow.Describes body.nodes) (hlabel : .label label ∈ body.nodes) :
    ∃ position, flow.position label = .ok position := by
  obtain ⟨position, hnode⟩ := List.mem_iff_getElem?.1 hlabel
  exact ⟨position, (hflow.position_ok label position).2 hnode⟩

/-- Behind a label that is placed there may be an operation, and looking for it does not fail. -/
theorem exists_operationAt (hflow : flow.Describes body.nodes)
    (hlabel : .label label ∈ body.nodes) : ∃ target, flow.operationAt label = .ok target := by
  obtain ⟨position, hposition⟩ := exists_position hflow hlabel
  exact ⟨_, except_bind_ok.2 ⟨position, hposition, rfl⟩⟩

/-- A body that type inference can trust. -/
structure Prepared (body : Body) : Prop extends body.Hygienic where
  no_subroutines : ∀ operation, .operation operation ∈ body.nodes → operation.isSubroutine = false
  labelled : ∀ (position : Nat) (type : PoolIndex),
    body.nodes[position]? = some (.operation (.step (.new type))) →
      (labelBefore body.nodes position).isSome

end Body

/-! ### Type inference -/

namespace Inference

/-- A step of a type inference fails because of the input. -/
abbrev BlamesInput {α : Type} (step : Step α) : Prop := StepBlames AnalysisError.CausedByInput step

/-- A merge is the only part of passing on a state that may fail. -/
theorem blames_mergeInto (flow : Flow) (target : Nat) (incoming : TypeState) :
    BlamesInput (mergeInto flow target incoming) := by
  intro inference error later hrun
  rcases mergeInto_error hrun with ⟨known, resolver, -, ⟨cause, hmerge, rfl⟩ | ⟨cause, -, rfl⟩⟩
  · exact Merge.blames_states known incoming _ _ resolver hmerge
  · trivial

end Inference

namespace AnalysisProblem

variable {problem : AnalysisProblem} {body : Body} {context : MethodContext} {position : Nat}
  {operation : Operation Label}

/-- Running an operation fails because of the input, if the body was prepared. -/
theorem blames_execute (hp : problem.Poses body context) (hbody : body.Prepared)
    (ho : body.nodes[position]? = some (.operation operation)) (state : TypeState) :
    Blames AnalysisError.CausedByInput (problem.execute position operation state) := by
  intro error hrun
  -- the label in front of an allocation is where the inference looks for it
  have hblames : Transfer.BlamesInput
      (Transfer.operation problem.context (problem.allocation? position) operation) := by
    refine Transfer.blames_operation _ _ operation
      (hbody.no_subroutines operation (List.mem_of_getElem? ho)) ?_
    rintro type rfl
    rw [hp.allocation?_eq]
    exact hbody.labelled position type ho
  unfold execute at hrun
  split at hrun
  · cases hrun
  · rename_i found later htransfer
    cases hrun
    exact hblames _ found later htransfer

/-- A label without an operation behind it is the fault of the input, one that is not placed would
not be. -/
theorem blames_jumpTarget (hp : problem.Poses body context) {label : Label}
    (hlabel : .label label ∈ body.nodes) :
    Blames AnalysisError.CausedByInput (problem.jumpTarget position label) := by
  intro error hrun
  obtain ⟨target, htarget⟩ := Body.exists_operationAt hp.flow hlabel
  unfold jumpTarget at hrun
  rw [htarget] at hrun
  cases target with
  | none =>
    cases hrun
    trivial
  | some target => cases hrun

/-- Code that goes on behind its last operation is the fault of the input. -/
theorem blames_fallThrough : Blames AnalysisError.CausedByInput (problem.fallThrough position) := by
  intro error hrun
  unfold fallThrough at hrun
  split at hrun
  · cases hrun
  · cases hrun
    trivial

/-- All ways on are looked for, by jumps and by falling through. -/
theorem blames_successors (hp : problem.Poses body context) (hbody : body.Prepared)
    (ho : body.nodes[position]? = some (.operation operation)) :
    Blames AnalysisError.CausedByInput (problem.successors position operation) := by
  refine .bind (.mapM fun label hlabel => ?_) fun targets _ => ?_
  · exact blames_jumpTarget hp (hbody.placed label
      (Body.mem_referencedLabels (List.mem_of_getElem? ho) hlabel))
  · split
    · exact .bind blames_fallThrough fun _ _ => .pure _
    · exact .pure _

/-- A visit runs an operation and passes on what is known. -/
theorem blames_visit (hp : problem.Poses body context) (hbody : body.Prepared) :
    Inference.BlamesInput (problem.visit position) := by
  refine .bind .get fun inference => ?_
  split
  · rename_i before operation hbefore ho
    rw [hp.nodes_eq] at ho
    refine .bind (.modify _) fun _ => ?_
    refine .bind (.ofExcept (blames_execute hp hbody ho before)) fun after => ?_
    refine .bind (.ofExcept (blames_successors hp hbody ho)) fun successors => ?_
    refine .bind (.modify _) fun _ => .bind (.forM fun handler _ => ?_) fun _ => ?_
    · exact .bind (Inference.blames_mergeInto _ _ _) fun _ => Inference.blames_mergeInto _ _ _
    · exact .forM fun successor _ => Inference.blames_mergeInto _ _ _
  · exact .pure _

/-- When the visits run out, no label is to blame. -/
theorem blames_solve (hp : problem.Poses body context) (hbody : body.Prepared) (visits : Nat) :
    Inference.BlamesInput (problem.solve visits) := by
  induction visits with
  | zero => exact .bind .get fun _ => .ite (.throw trivial) (.pure _)
  | succ visits ih =>
    refine .bind .get fun inference => ?_
    split
    · exact .pure _
    · exact .bind (.modify _) fun _ => .bind (blames_visit hp hbody) fun _ => ih

/-- The range of a handler and its code are placed, and what it catches is looked up. -/
theorem blames_placeHandler {flow : Flow} (hflow : flow.Describes body.nodes) (pool : Pool)
    {handler : Handler}
    (hplaced : ∀ label ∈ [handler.start, handler.stop, handler.handler], .label label ∈ body.nodes) :
    Blames AnalysisError.CausedByInput (placeHandler flow pool handler) := by
  obtain ⟨start, hstart⟩ := Body.exists_position hflow (hplaced handler.start (by simp))
  obtain ⟨stop, hstop⟩ := Body.exists_position hflow (hplaced handler.stop (by simp))
  obtain ⟨target, htarget⟩ := Body.exists_operationAt hflow (hplaced handler.handler (by simp))
  refine .bind (.of_ok (except_mapError_ok.2 hstart)) fun start _ => ?_
  refine .bind (.of_ok (except_mapError_ok.2 hstop)) fun stop _ => ?_
  rw [htarget]
  -- behind the label of the handler there may be no operation
  cases target with
  | none => exact .bind (.throw trivial) fun _ => nofun
  | some target =>
    refine .bind (.pure target) fun _ _ => ?_
    dsimp only
    split
    · exact .bind (.mapError (pool.blames_classType _)) fun _ _ => .pure _
    · exact .bind (.pure _) fun _ _ => .pure _

/-- Setting up an inference looks up labels that are placed. -/
theorem blames_ofBody (hbody : body.Prepared) :
    Blames AnalysisError.CausedByInput (ofBody body context) := by
  obtain ⟨flow, hflow⟩ := hbody.exists_flow
  refine .bind (.of_ok (except_mapError_ok.2 hflow)) fun found hfound => ?_
  have hdescribes := Body.flow_describes (except_mapError_ok.1 hfound)
  refine .bind (.mapM fun handler hhandler => ?_) fun _ _ => .pure _
  exact blames_placeHandler hdescribes _ fun label hlabel =>
    hbody.placed label (Body.mem_referencedLabels_of_handler hhandler hlabel)

end AnalysisProblem

/-- Type inference of a body that can be trusted fails because of the input. -/
theorem Body.blames_analyze {body : Body} (hbody : body.Prepared) (entry : TypeState)
    (context : MethodContext) :
    StepBlames AnalysisError.CausedByInput (body.analyze entry context) := by
  intro resolver error later hrun
  rcases analyze_error hrun with
    hproblem | ⟨problem, hproblem, rfl | ⟨first, inference, -, hsolve⟩⟩
  · exact AnalysisProblem.blames_ofBody hbody error hproblem
  · trivial
  · exact AnalysisProblem.blames_solve (AnalysisProblem.ofBody_ok hproblem) hbody _ _ error
      inference hsolve

end Preverification
