import Preverification.Proofs.FloatingPointUse
import Preverification.Proofs.LinesInForce

/-!
# What is found in each member

The problems of a class are those of its members, the fields first, and those of a method are of its
declaration, its local variables and its operations. Each part has the problems that it has alone: a
validator that has found out nothing yet lists the same ones. So what a validator found out before,
in the class or in others, changes no answer.

* `Validation.Alone`: the answer of a validator that has found out nothing yet.
* `Blind.alone`, `Blind.of_alone`: what a validator found out before changes no answer.
* `Policy.Reports`: what the problems of a method say about its parts.
* `ClassFile.validate_members`: the problems of a class are those that its members have alone.
* `makesArray_root_unreported`: an array of root objects is not reported.
-/

namespace Preverification

/-! ### Questions asked alone -/

/-- A validator was made for a resolver and has validated some classes since, whatever came of it.
Others may have asked the resolver in between, as long as no class got another header. -/
inductive Validator.Reached (policy : Policy) (resolver : Resolver) : Validator → Prop where
  | start : Reached policy resolver (.ofResolver resolver)
  | validated {validator : Validator} (h : Reached policy resolver validator)
    (classFile : ClassFile) :
    Reached policy resolver (resultState (classFile.validate policy validator))
  | asked {validator : Validator} (h : Reached policy resolver validator) {later : Resolver}
    (hlater : later.header? = validator.resolver.header?) :
    Reached policy resolver ⟨later, validator.checked⟩

/-- What a validator answers that has found out nothing yet. -/
def Validation.Alone {α : Type} (question : Validation α) (resolver : Resolver) (answer : α) :
    Prop :=
  ∃ validator, question (.ofResolver resolver) = .ok answer validator

section Alone

open Validation Validator

variable {policy : Policy} {headers : Headers} {resolver : Resolver} {validator after : Validator}
  {α β : Type}

/-- Whatever a validator was asked before, what it keeps is what the headers tell. -/
theorem Validator.Reached.faithful (h : Reached policy resolver validator) :
    validator.Faithful policy resolver.header? := by
  induction h with
  | start => exact faithful_ofResolver rfl
  | @validated validator _ classFile ih =>
    have hends := classFile.blind_validate policy _ _ ⟨ih, ih⟩
    generalize classFile.validate policy validator = ended at hends ⊢
    cases hends with
    | ok _ halike => exact halike.first
    | error _ halike => exact halike.first
  | asked _ hlater ih =>
    refine ⟨hlater.trans ih.header?_eq, fun name violation hknown => ?_⟩
    rw [(policy.judgeClass_eq name ⟨hlater, rfl⟩).1]
    exact ih.checked name violation hknown

/-- An answer is also the one that the question has alone. -/
theorem Blind.alone {question : Validation α} {answer : α}
    (hblind : Blind (Alike policy headers) question) (hfaithful : validator.Faithful policy headers)
    (hresolver : resolver.header? = headers) (h : question validator = .ok answer after) :
    after.Faithful policy headers ∧ Alone question resolver answer := by
  have hends := hblind _ _ ⟨hfaithful, faithful_ofResolver hresolver⟩
  rw [h] at hends
  generalize hrun : question (.ofResolver resolver) = ended at hends
  cases hends with
  | ok _ halike => exact ⟨halike.first, _, hrun⟩

/-- The answer that a question has alone is given by every validator. -/
theorem Blind.of_alone {question : Validation α} {answer : α}
    (hblind : Blind (Alike policy headers) question) (hfaithful : validator.Faithful policy headers)
    (hresolver : resolver.header? = headers) (h : Alone question resolver answer) :
    ∃ after, question validator = .ok answer after ∧ after.Faithful policy headers := by
  obtain ⟨alone, hrun⟩ := h
  have hends := hblind _ _ ⟨hfaithful, faithful_ofResolver hresolver⟩
  rw [hrun] at hends
  generalize hrun' : question validator = ended at hends
  cases hends with
  | ok _ halike => exact ⟨_, rfl, halike.first⟩

/-- The elements of a list have the answers that they have alone. -/
theorem Blind.mapM_alone {step : α → Validation β} {l : List α} {answers : List β}
    (hblind : ∀ a, Blind (Alike policy headers) (step a))
    (hfaithful : validator.Faithful policy headers) (hresolver : resolver.header? = headers)
    (h : l.mapM step validator = .ok answers after) : after.Faithful policy headers ∧
      List.Forall₂ (fun a answer => Alone (step a) resolver answer) l answers :=
  state_mapM_ok (·.Faithful policy headers) _
    (fun a _ _ _ _ hfaithful hrun => (hblind a).alone hfaithful hresolver hrun) hfaithful h

/-- If the elements of a list have answers alone, the list has these. -/
theorem Blind.mapM_of_alone {step : α → Validation β} {l : List α} {answers : List β}
    (hblind : ∀ a, Blind (Alike policy headers) (step a))
    (hfaithful : validator.Faithful policy headers) (hresolver : resolver.header? = headers)
    (h : List.Forall₂ (fun a answer => Alone (step a) resolver answer) l answers) :
    ∃ after, l.mapM step validator = .ok answers after ∧ after.Faithful policy headers := by
  induction h generalizing validator with
  | nil => exact ⟨validator, rfl, hfaithful⟩
  | @cons a answer l answers hfirst _ ih =>
    obtain ⟨middle, hrun, hfaithful'⟩ := (hblind a).of_alone hfaithful hresolver hfirst
    obtain ⟨after, hrest, hfaithful''⟩ := ih hfaithful'
    refine ⟨after, ?_, hfaithful''⟩
    rw [List.mapM_cons]
    exact state_bind_ok.2 ⟨answer, middle, hrun, state_bind_ok.2 ⟨answers, after, hrest, rfl⟩⟩

end Alone

/-! ### Operations in order -/

namespace Body

/-- The operation at a position, with the number of operations in front of it and its line. -/
def linedOperationAt (nodes : List Node) (position : Nat) :
    Option (Nat × Option UInt16 × Operation Label) :=
  match nodes[position]? with
  | some (.operation operation) =>
    some ((nodes.take position).countP Node.isOperation, lineInForce nodes position, operation)
  | _ => none

/-- The number of an operation is that of the operations in front of it, and its line is the last
one there. -/
theorem linedOperationAt_append (front rest : List Node) (node : Node) :
    linedOperationAt (front ++ node :: rest) front.length = match node with
      | .operation operation => some (front.countP Node.isOperation,
          (front.filterMap Node.lineNumber?).getLast?, operation)
      | _ => none := by
  have hpassed : (front ++ node :: rest).take (front.length + 1) = front ++ [node] := by
    rw [List.take_length_add_append, List.take_succ_cons, List.take_zero]
  unfold linedOperationAt lineInForce
  rw [List.getElem?_append_right (Nat.le_refl _), Nat.sub_self, List.getElem?_cons_zero, hpassed,
    List.take_left, List.filterMap_append]
  cases node with
  | operation operation => simp [Node.lineNumber?]
  | _ => rfl

/-- Operations are numbered while the nodes are gone through, and the last line is kept. -/
theorem linedOperationsFrom_eq (found : List (Nat × Option UInt16 × Operation Label))
    (front rest : List Node) :
    linedOperationsFrom found (front.countP Node.isOperation)
      (front.filterMap Node.lineNumber?).getLast? rest =
        found.reverse ++ (List.range' front.length rest.length).filterMap
          (linedOperationAt (front ++ rest)) := by
  induction rest generalizing found front with
  | nil => simp [linedOperationsFrom]
  | cons node rest ih =>
    have hnext := fun found => ih found (front ++ [node])
    rw [List.countP_append, List.filterMap_append, List.length_append, List.length_singleton,
      List.append_assoc, List.singleton_append] at hnext
    rw [List.length_cons, List.range'_succ, List.filterMap_cons, linedOperationAt_append]
    cases node with
    | label label =>
      rw [linedOperationsFrom]
      simpa [Node.lineNumber?, Node.isOperation] using hnext found
    | line later =>
      rw [linedOperationsFrom]
      simpa [Node.lineNumber?, Node.isOperation] using hnext found
    | operation operation =>
      rw [linedOperationsFrom]
      simpa [Node.lineNumber?, Node.isOperation] using hnext
        ((front.countP Node.isOperation, (front.filterMap Node.lineNumber?).getLast?, operation)
          :: found)

/-- The operations of a body with their lines are those at its positions, in order. -/
theorem linedOperations_eq (body : Body) : body.linedOperations =
    (List.range body.nodes.length).filterMap (linedOperationAt body.nodes) := by
  rw [List.range_eq_range']
  exact linedOperationsFrom_eq [] [] body.nodes

end Body

/-! ### Problems at one place -/

namespace Problem

/-- Whether the problem is that a type has to do with floating point or is missing. -/
def isTypeProblem (problem : Problem) : Bool :=
  problem.kind = .floatingPoint || problem.kind = .missingType

/-- Whether the problem is one with the types that a method is declared with. -/
def isSignatureProblem (owner : BinaryName) (member : MemberName) (problem : Problem) : Bool :=
  problem.location = .method owner member && problem.isTypeProblem

/-- Whether the problem is that an operation uses floating point. -/
def isFloatingPointUse (problem : Problem) : Bool :=
  match problem.kind, problem.location with
  | .floatingPoint, .instruction .. => true
  | _, _ => false

/-- A use of floating point is a problem of that kind with an instruction. -/
theorem isFloatingPointUse_iff {problem : Problem} : problem.isFloatingPointUse = true ↔
    problem.kind = .floatingPoint ∧
      ∃ owner member number line, problem.location = .instruction owner member number line := by
  unfold isFloatingPointUse
  split
  · rename_i hkind hlocation
    exact iff_of_true rfl ⟨hkind, _, _, _, _, hlocation⟩
  · rename_i hnot
    refine iff_of_false nofun ?_
    rintro ⟨hkind, owner, member, number, line, hlocation⟩
    exact hnot owner member number line hkind hlocation

/-- The problem that the operation at a position uses floating point. -/
def floatingPointUse (owner : BinaryName) (member : MemberName) (nodes : List Node)
    (position : Nat) : Problem where
  kind := .floatingPoint
  location := .instruction owner member ((nodes.take position).countP Node.isOperation)
    (lineInForce nodes position)

end Problem

/-- The problems that are found at a location if there is one with a type, or none. -/
abbrev Location.problems (location : Location) (violation : Option TypeViolation) : List Problem :=
  violation.toList.map (·.problem location)

namespace Location

variable {location : Location} {violation : Option TypeViolation}

/-- There is one problem at one place at most. -/
theorem length_problems_le : (location.problems violation).length ≤ 1 := by
  cases violation with
  | none => exact Nat.zero_le 1
  | some violation => exact Nat.le_refl 1

/-- Problems that are made of a violation tell the place where it was found. -/
theorem location_eq_of_mem_problems {problem : Problem}
    (h : problem ∈ location.problems violation) : problem.location = location := by
  obtain ⟨found, -, rfl⟩ := List.mem_map.1 h
  cases found <;> rfl

end Location

namespace Policy

open Validation Validator

variable {policy : Policy} {resolver : Resolver} {owner : BinaryName} {member : MemberName}
  {pool : Pool} {found : List Problem}

/-- A field or variable has a problem with its type at most. -/
theorem alone_validateDeclaration {name descriptor : PoolIndex} {location : MemberName → Location}
    (h : Alone (policy.validateDeclaration pool name descriptor location) resolver found) :
    ∃ declared violation, found = (location declared).problems violation := by
  obtain ⟨after, hrun⟩ := h
  obtain ⟨nameText, _, -, hrun⟩ := state_bind_ok.1 hrun
  obtain ⟨descriptorText, _, -, hrun⟩ := state_bind_ok.1 hrun
  obtain ⟨type, _, -, hrun⟩ := state_bind_ok.1 hrun
  obtain ⟨violation, _, -, hrun⟩ := state_bind_ok.1 hrun
  exact ⟨⟨nameText, descriptorText⟩, violation, (state_pure_ok.1 hrun).1.symm⟩

/-- The declaration of a method has one problem with its types at most. -/
theorem alone_validateSignature {access : AccessFlags} {signature : MethodDescriptor}
    (h : Alone (policy.validateSignature owner member access signature) resolver found) :
    ∃ others violation, found = others ++ (Location.method owner member).problems violation ∧
      ∀ problem ∈ others, problem.isTypeProblem = false := by
  obtain ⟨after, hrun⟩ := h
  obtain ⟨violation, _, -, hrun⟩ := state_bind_ok.1 hrun
  refine ⟨_, violation, (state_pure_ok.1 hrun).1.symm, fun problem hmem => ?_⟩
  rcases List.mem_append.1 hmem with hnative | hfinalizer
  · split at hnative
    · cases List.mem_singleton.1 hnative
      rfl
    · cases hnative
  · split at hfinalizer
    · cases List.mem_singleton.1 hfinalizer
      rfl
    · cases hfinalizer

/-- A single operation has one problem at most, and it is about floating point if the operation uses
that. -/
theorem alone_validateOperation {lined : Nat × Option UInt16 × Operation Label}
    (h : Alone (policy.validateOperation owner member pool lined) resolver found) :
    ∃ violation, found = (Location.instruction owner member lined.1 lined.2.1).problems violation ∧
      (policy.allowsFloatingPoint = false → (violation = some .floatingPoint ↔
        lined.2.2.UsesFloatingPoint resolver.header? pool)) := by
  obtain ⟨after, hrun⟩ := h
  obtain ⟨violation, _, hfirst, hrun⟩ := state_bind_ok.1 hrun
  refine ⟨violation, (state_pure_ok.1 hrun).1.symm, fun hpolicy => ?_⟩
  exact checkOperation_ok hpolicy (faithful_ofResolver rfl) hfirst

end Policy

/-! ### Uses of floating point, in order -/

/-- The operation at a position uses floating point. -/
def UsesFloatingPointAt (headers : Headers) (pool : Pool) (nodes : List Node) (position : Nat) :
    Prop :=
  ∃ operation, nodes[position]? = some (.operation operation) ∧
    operation.UsesFloatingPoint headers pool

namespace Policy

open Validation Validator

variable {policy : Policy} {resolver : Resolver} {owner : BinaryName} {member : MemberName}
  {pool : Pool}

open Classical in
/-- Operations that use floating point have one problem that tells so, and others have none. -/
theorem filter_isFloatingPointUse {lined : List (Nat × Option UInt16 × Operation Label)}
    {found : List (List Problem)} (hpolicy : policy.allowsFloatingPoint = false)
    (h : List.Forall₂ (fun operation found =>
      Alone (policy.validateOperation owner member pool operation) resolver found) lined found) :
    found.flatten.filter Problem.isFloatingPointUse =
      (lined.filter fun operation => operation.2.2.UsesFloatingPoint resolver.header? pool).map
        fun (number, line, _) => ⟨.floatingPoint, .instruction owner member number line, none⟩ := by
  induction h with
  | nil => rfl
  | @cons operation found lined rest hfirst _ ih =>
    obtain ⟨violation, rfl, hiff⟩ := alone_validateOperation hfirst
    rw [List.flatten_cons, List.filter_append, ih, List.filter_cons]
    by_cases huses : operation.2.2.UsesFloatingPoint resolver.header? pool
    · rw [(hiff hpolicy).2 huses, if_pos (decide_eq_true huses)]
      rfl
    · rw [if_neg (by simpa using huses)]
      -- what is wrong, if anything, is that a class is missing
      cases violation with
      | none => rfl
      | some violation =>
        cases violation with
        | floatingPoint => exact absurd ((hiff hpolicy).1 rfl) huses
        | missing name => rfl

end Policy

open Classical in
/-- The operations that use floating point, with their numbers and lines, are those at the positions
where one does. -/
theorem Body.filter_linedOperations (body : Body) (headers : Headers) (pool : Pool)
    (owner : BinaryName) (member : MemberName) :
    ((body.linedOperations.filter fun operation => operation.2.2.UsesFloatingPoint headers pool).map
        fun (number, line, _) =>
          (⟨.floatingPoint, .instruction owner member number line, none⟩ : Problem)) =
      ((List.range body.nodes.length).filter fun position =>
        UsesFloatingPointAt headers pool body.nodes position).map
          (Problem.floatingPointUse owner member body.nodes) := by
  rw [linedOperations_eq, List.filter_filterMap, List.map_filterMap, ← List.filterMap_eq_map,
    List.filterMap_filter]
  congr 1
  funext position
  unfold linedOperationAt UsesFloatingPointAt
  rcases body.nodes[position]? with _ | label | line | operation
  · simp
  · simp
  · simp
  · by_cases huses : operation.UsesFloatingPoint headers pool
    · simp [huses, Problem.floatingPointUse]
    · simp [huses]

/-! ### Methods -/

/-- The body of a method, if it has code. -/
inductive Member.HasBody (method : Member) (pool : Pool) : Option Body → Prop where
  | none (h : method.code pool = .ok none) : HasBody method pool none
  | some {code : Code} {body : Body} (h : method.code pool = .ok (some code))
    (hdecode : Body.decode code pool = .ok body) : HasBody method pool (some body)

/-- A method, and the problems of its parts. -/
structure MethodFindings where
  member : MemberName
  signature : MethodDescriptor
  body : Option Body
  -- the problems of the declaration
  declaration : List Problem
  -- the problems of each local variable
  localVariables : List (List Problem)
  -- the problems of each operation
  operations : List (List Problem)

namespace MethodFindings

/-- All problems, in order. -/
def problems (findings : MethodFindings) : List Problem :=
  findings.declaration ++ findings.localVariables.flatten ++ findings.operations.flatten

/-- The nodes of the body. -/
def nodes (findings : MethodFindings) : List Node := findings.body.elim [] (·.nodes)

end MethodFindings

open Validation in
/-- The problems of the parts of a method are those that each part has alone. At most one is with
the types of the declaration, and at most one with each local variable and each operation. If
floating point is ruled out, there is exactly one for each operation that uses it, in order. -/
structure Policy.Reports (policy : Policy) (resolver : Resolver) (owner : BinaryName) (pool : Pool)
    (method : Member) (findings : MethodFindings) : Prop where
  name : method.nameIn pool = .ok findings.member.name
  descriptor : method.descriptorIn pool = .ok findings.member.descriptor
  signature : MethodDescriptor.ofDescriptor findings.member.descriptor = .ok findings.signature
  body : method.HasBody pool findings.body
  declaration : Alone (policy.validateSignature owner findings.member method.access
    findings.signature) resolver findings.declaration
  localVariables : List.Forall₂ (fun range found =>
      Alone (policy.validateVariable owner findings.member pool range) resolver found ∧
        found.length ≤ 1)
    (findings.body.elim [] (·.localVariables)) findings.localVariables
  operations : List.Forall₂ (fun operation found =>
      Alone (policy.validateOperation owner findings.member pool operation) resolver found ∧
        found.length ≤ 1)
    (findings.body.elim [] (·.linedOperations)) findings.operations
  types : (findings.problems.filter (Problem.isSignatureProblem owner findings.member)).length ≤ 1
  uses : policy.allowsFloatingPoint = false → ∃ positions : List Nat,
    positions.Pairwise (· < ·) ∧
    (∀ position, position ∈ positions ↔
      UsesFloatingPointAt resolver.header? pool findings.nodes position) ∧
    findings.problems.filter Problem.isFloatingPointUse =
      positions.map (Problem.floatingPointUse owner findings.member findings.nodes)

namespace Policy

open Validation Validator

variable {policy : Policy} {resolver : Resolver} {owner : BinaryName} {pool : Pool}
  {method : Member} {findings : MethodFindings}

/-- The declaration of a method has one problem with its types at most, and no operations. -/
theorem filter_declaration {member : MemberName} {access : AccessFlags}
    {signature : MethodDescriptor} {found : List Problem}
    (h : Alone (policy.validateSignature owner member access signature) resolver found) :
    (found.filter (Problem.isSignatureProblem owner member)).length ≤ 1 ∧
      found.filter Problem.isFloatingPointUse = [] := by
  obtain ⟨others, violation, rfl, hothers⟩ := alone_validateSignature h
  constructor
  · have hnone : others.filter (Problem.isSignatureProblem owner member) = [] :=
      List.filter_eq_nil_iff.2 fun problem hmem => by
        simp [Problem.isSignatureProblem, hothers problem hmem]
    rw [List.filter_append, hnone, List.nil_append]
    exact (List.length_filter_le _ _).trans Location.length_problems_le
  · refine List.filter_eq_nil_iff.2 fun problem hmem huse => ?_
    obtain ⟨hkind, _, _, _, _, hlocation⟩ := Problem.isFloatingPointUse_iff.1 huse
    rcases List.mem_append.1 hmem with hother | htype
    · have hfalse := hothers problem hother
      simp [Problem.isTypeProblem, hkind] at hfalse
    · cases (Location.location_eq_of_mem_problems htype).symm.trans hlocation

/-- The problems with local variables have locations of their own. -/
theorem filter_localVariables {member : MemberName} {ranges : List VariableRange}
    {found : List (List Problem)} (h : List.Forall₂ (fun range found =>
      Alone (policy.validateVariable owner member pool range) resolver found) ranges found) :
    found.flatten.filter (Problem.isSignatureProblem owner member) = [] ∧
      found.flatten.filter Problem.isFloatingPointUse = [] := by
  have hlocation : ∀ problem ∈ found.flatten,
      ∃ declared, problem.location = .localVariable owner member declared := by
    intro problem hmem
    obtain ⟨part, hpart, hmem⟩ := List.mem_flatten.1 hmem
    obtain ⟨range, -, halone⟩ := forall₂_exists h.flip hpart
    obtain ⟨declared, violation, rfl⟩ := alone_validateDeclaration halone
    exact ⟨declared, Location.location_eq_of_mem_problems hmem⟩
  constructor
  · refine List.filter_eq_nil_iff.2 fun problem hmem => ?_
    obtain ⟨declared, hdeclared⟩ := hlocation problem hmem
    simp [Problem.isSignatureProblem, hdeclared]
  · refine List.filter_eq_nil_iff.2 fun problem hmem huse => ?_
    obtain ⟨declared, hdeclared⟩ := hlocation problem hmem
    obtain ⟨-, _, _, _, _, hlocation⟩ := Problem.isFloatingPointUse_iff.1 huse
    cases hdeclared.symm.trans hlocation

/-- The problems with operations have locations of their own. -/
theorem filter_operations {member : MemberName}
    {lined : List (Nat × Option UInt16 × Operation Label)} {found : List (List Problem)}
    (h : List.Forall₂ (fun operation found =>
      Alone (policy.validateOperation owner member pool operation) resolver found) lined found) :
    found.flatten.filter (Problem.isSignatureProblem owner member) = [] := by
  refine List.filter_eq_nil_iff.2 fun problem hmem => ?_
  obtain ⟨part, hpart, hmem⟩ := List.mem_flatten.1 hmem
  obtain ⟨operation, -, halone⟩ := forall₂_exists h.flip hpart
  obtain ⟨violation, rfl, -⟩ := alone_validateOperation halone
  simp [Problem.isSignatureProblem, Location.location_eq_of_mem_problems hmem]

/-- The operations that use floating point are one problem each, in order. -/
theorem uses_of_alone {member : MemberName} {body : Option Body} {found : List (List Problem)}
    (hpolicy : policy.allowsFloatingPoint = false)
    (h : List.Forall₂ (fun operation found =>
        Alone (policy.validateOperation owner member pool operation) resolver found)
      (body.elim [] (·.linedOperations)) found) :
    ∃ positions : List Nat, positions.Pairwise (· < ·) ∧
      (∀ position, position ∈ positions ↔
        UsesFloatingPointAt resolver.header? pool (body.elim [] (·.nodes)) position) ∧
      found.flatten.filter Problem.isFloatingPointUse =
        positions.map (Problem.floatingPointUse owner member (body.elim [] (·.nodes))) := by
  classical
  cases body with
  | none =>
    cases h
    refine ⟨[], .nil, fun position => iff_of_false nofun ?_, rfl⟩
    rintro ⟨operation, hnode, -⟩
    cases hnode
  | some body =>
    refine ⟨(List.range body.nodes.length).filter fun position =>
      UsesFloatingPointAt resolver.header? pool body.nodes position,
      List.pairwise_lt_range.filter _, fun position => ?_, ?_⟩
    · rw [List.mem_filter, List.mem_range, decide_eq_true_iff]
      refine ⟨And.right, fun huses => ⟨?_, huses⟩⟩
      obtain ⟨operation, hnode, -⟩ := huses
      exact (List.getElem?_eq_some_iff.1 hnode).1
    · rw [filter_isFloatingPointUse hpolicy h]
      exact body.filter_linedOperations _ _ _ _

/-- The problems of the parts tell that a method reports what it should. -/
theorem reports_of_alone (hname : method.nameIn pool = .ok findings.member.name)
    (hdescriptor : method.descriptorIn pool = .ok findings.member.descriptor)
    (hsignature : MethodDescriptor.ofDescriptor findings.member.descriptor =
      .ok findings.signature)
    (hbody : method.HasBody pool findings.body)
    (hdeclaration : Alone (policy.validateSignature owner findings.member method.access
      findings.signature) resolver findings.declaration)
    (hvariables : List.Forall₂ (fun range found =>
        Alone (policy.validateVariable owner findings.member pool range) resolver found)
      (findings.body.elim [] (·.localVariables)) findings.localVariables)
    (hoperations : List.Forall₂ (fun operation found =>
        Alone (policy.validateOperation owner findings.member pool operation) resolver found)
      (findings.body.elim [] (·.linedOperations)) findings.operations) :
    policy.Reports resolver owner pool method findings := by
  obtain ⟨htypes, hnone⟩ := filter_declaration hdeclaration
  obtain ⟨hnotSignature, hnotUse⟩ := filter_localVariables hvariables
  refine ⟨hname, hdescriptor, hsignature, hbody, hdeclaration, ?_, ?_, ?_, fun hpolicy => ?_⟩
  · refine hvariables.imp fun range found halone => ⟨halone, ?_⟩
    obtain ⟨declared, violation, rfl⟩ := alone_validateDeclaration halone
    exact Location.length_problems_le
  · refine hoperations.imp fun operation found halone => ⟨halone, ?_⟩
    obtain ⟨violation, rfl, -⟩ := alone_validateOperation halone
    exact Location.length_problems_le
  · rw [MethodFindings.problems, List.filter_append, List.filter_append, hnotSignature,
      filter_operations hoperations, List.append_nil, List.append_nil]
    exact htypes
  · rw [MethodFindings.problems, List.filter_append, List.filter_append, hnone, hnotUse]
    exact uses_of_alone hpolicy hoperations

/-- The problems of a method are those of its declaration, of its local variables and of its
operations, in this order. -/
theorem alone_validateMethod {problems : List Problem}
    (halone : Alone (policy.validateMethod owner pool method) resolver problems) :
    ∃ findings : MethodFindings, findings.problems = problems ∧
      policy.Reports resolver owner pool method findings := by
  have hfaithful : (ofResolver resolver).Faithful policy resolver.header? := faithful_ofResolver rfl
  obtain ⟨after, h⟩ := halone
  -- the method is named before anything is looked at
  obtain ⟨name, _, hfound, h⟩ := state_bind_ok.1 h
  obtain ⟨hname, rfl⟩ := ofExcept_ok.1 hfound
  obtain ⟨descriptor, _, hfound, h⟩ := state_bind_ok.1 h
  obtain ⟨hdescriptor, rfl⟩ := ofExcept_ok.1 hfound
  obtain ⟨signature, _, hfound, h⟩ := state_bind_ok.1 h
  obtain ⟨hsignature, rfl⟩ := ofExcept_ok.1 hfound
  obtain ⟨declaration, middle, hrun, h⟩ := state_bind_ok.1 h
  obtain ⟨hfaithful', hdeclaration⟩ :=
    (policy.blind_validateSignature owner _ _ _).alone hfaithful rfl hrun
  obtain ⟨code, _, hfound, h⟩ := state_bind_ok.1 h
  obtain ⟨hcode, rfl⟩ := ofExcept_ok.1 hfound
  -- without code there is nothing but the declaration to find fault with
  cases code with
  | none =>
    obtain ⟨rfl, -⟩ := state_pure_ok.1 h
    exact ⟨⟨⟨name, descriptor⟩, signature, none, declaration, [], []⟩, by
      simp [MethodFindings.problems],
      reports_of_alone hname hdescriptor hsignature (.none hcode) hdeclaration .nil .nil⟩
  | some code =>
    obtain ⟨body, _, hfound, h⟩ := state_bind_ok.1 h
    obtain ⟨hdecode, rfl⟩ := ofExcept_ok.1 hfound
    obtain ⟨found, _, hbody, h⟩ := state_bind_ok.1 h
    obtain ⟨rfl, -⟩ := state_pure_ok.1 h
    obtain ⟨ranges, middle', hrun, hbody⟩ := state_bind_ok.1 hbody
    obtain ⟨hfaithful'', hvariables⟩ := Blind.mapM_alone
      (policy.blind_validateVariable owner _ pool) hfaithful' rfl hrun
    obtain ⟨operations, _, hrun, hbody⟩ := state_bind_ok.1 hbody
    obtain ⟨-, hoperations⟩ := Blind.mapM_alone
      (policy.blind_validateOperation owner _ pool) hfaithful'' rfl hrun
    obtain ⟨rfl, -⟩ := state_pure_ok.1 hbody
    exact ⟨⟨⟨name, descriptor⟩, signature, some body, declaration, ranges, operations⟩,
      List.append_assoc _ _ _, reports_of_alone hname hdescriptor hsignature (.some hcode hdecode)
        hdeclaration hvariables hoperations⟩

end Policy

/-! ### Classes -/

open Validation Validator in
/-- A class has a list of problems exactly if its members have their own lists alone and it consists
of these, the fields first. A field has one problem at most, and a method reports what it should.
Neither what the validator found out before nor what its resolver keeps changes any of this. -/
theorem ClassFile.validate_members {policy : Policy} {resolver fresh : Resolver}
    {validator : Validator} (hreached : validator.Reached policy resolver)
    (hfresh : fresh.header? = resolver.header?) (classFile : ClassFile) (problems : List Problem) :
    (∃ after, classFile.validate policy validator = .ok problems after) ↔
      ∃ owner fields methods, classFile.name = .ok owner ∧
        problems = fields.flatten ++ methods.flatten ∧
        List.Forall₂ (fun field found =>
            Alone (policy.validateField owner classFile.constants field) fresh found ∧
              found.length ≤ 1)
          classFile.fields fields ∧
        List.Forall₂ (fun method found =>
            Alone (policy.validateMethod owner classFile.constants method) fresh found ∧
              ∃ findings : MethodFindings, findings.problems = found ∧
                policy.Reports fresh owner classFile.constants method findings)
          classFile.methods methods := by
  constructor
  · rintro ⟨after, h⟩
    obtain ⟨owner, _, hfound, h⟩ := state_bind_ok.1 h
    obtain ⟨hname, rfl⟩ := ofExcept_ok.1 hfound
    obtain ⟨fields, middle, hrun, h⟩ := state_bind_ok.1 h
    -- the fields leave a faithful validator behind, and the methods are asked about with it
    obtain ⟨hfaithful, hfields⟩ := Blind.mapM_alone
      (policy.blind_validateField owner classFile.constants) hreached.faithful hfresh hrun
    obtain ⟨methods, _, hrun, h⟩ := state_bind_ok.1 h
    obtain ⟨-, hmethods⟩ := Blind.mapM_alone
      (policy.blind_validateMethod owner classFile.constants) hfaithful hfresh hrun
    obtain ⟨rfl, -⟩ := state_pure_ok.1 h
    refine ⟨owner, fields, methods, hname, rfl, ?_, ?_⟩
    · refine hfields.imp fun field found halone => ⟨halone, ?_⟩
      obtain ⟨declared, violation, rfl⟩ := Policy.alone_validateDeclaration halone
      exact Location.length_problems_le
    · exact hmethods.imp fun method found halone => ⟨halone, Policy.alone_validateMethod halone⟩
  · rintro ⟨owner, fields, methods, hname, rfl, hfields, hmethods⟩
    obtain ⟨middle, hfieldsRun, hfaithful⟩ := Blind.mapM_of_alone
      (policy.blind_validateField owner classFile.constants) hreached.faithful hfresh
      (hfields.imp fun _ _ => And.left)
    obtain ⟨after, hmethodsRun, -⟩ := Blind.mapM_of_alone
      (policy.blind_validateMethod owner classFile.constants) hfaithful hfresh
      (hmethods.imp fun _ _ => And.left)
    refine ⟨after, state_bind_ok.2 ⟨owner, validator, ofExcept_ok.2 ⟨hname, rfl⟩, ?_⟩⟩
    exact state_bind_ok.2 ⟨fields, middle, hfieldsRun,
      state_bind_ok.2 ⟨methods, after, hmethodsRun, rfl⟩⟩

/-! ### An array of root objects -/

/-- Makes an array of objects, and then pushes a `float`. -/
def makesArray : Code where
  maxStack := 1
  maxLocals := 0
  bytecode := [3, 189, 0, 2, 87, 11, 87, 177]
  exceptions := []
  attributes := []

/-- The body of `makesArray`. -/
def makesArrayBody : Body where
  maxStack := 1
  maxLocals := 0
  nodes :=
    [.operation (.step (.intConst 1)), .operation (.step (.newRefArray 2)),
      .operation (.step (.shuffle .pop)), .operation (.step (.floatConst 0)),
      .operation (.step (.shuffle .pop)), .operation (.branch .returnVoid)]
  handlers := []
  localVariables := []
  variableTypes := []
  attributes := []
  issued := 0

/-- The static method m of `makesArrayClass`. -/
def makesArrayMethod : Member := ⟨⟨8⟩, 4, 5, [⟨3, AttributeContents.write makesArray⟩]⟩

/-- The class C with a method that does `makesArray`. -/
def makesArrayClass : ClassFile where
  version := ⟨0, 49⟩
  constants := .ofConstants [.utf8 "java/lang/Object", .classRef 1, .utf8 "Code", .utf8 "m",
    .utf8 "()V", .utf8 "C", .classRef 6]
  identity := ⟨⟨0x21⟩, 7, some 2, []⟩
  fields := []
  methods := [makesArrayMethod]
  attributes := []

/-- The name of `makesArrayClass`. -/
def makesArrayName : BinaryName := ⟨"C", by decide⟩

/-- What is wrong with `makesArrayClass`. -/
def makesArrayProblem : Problem :=
  ⟨.floatingPoint, .instruction makesArrayName ⟨"m", "()V"⟩ 3 none, none⟩

/-- It was told that the root extends the class of `float` objects, which extends no class. -/
def oddResolver : Resolver :=
  ((Resolver.ofClassPath ∅).register ⟨⟨0x21⟩, .float, none, []⟩).register
    ⟨⟨0x21⟩, .object, some .float, []⟩

/-- The layout of `makesArrayBody`. -/
def makesArrayLayout : Layout where
  nodes := makesArrayBody.nodes.zip
    [(0, false), (1, false), (4, false), (5, false), (6, false), (7, false)]
  codeLength := 8
  labels := ∅

theorem makesArrayBody_layout : makesArrayBody.layout = .ok makesArrayLayout :=
  Body.layout_of_short [0, 1, 4, 5, 6, 7] (Body.checkLabels_of_placed (by decide) (by decide)) rfl
    rfl rfl (by decide) (by decide) (by decide)

/-- The code makes an array of root objects, and then loads a `float`. -/
theorem makesArray_decode :
    Body.decode makesArray makesArrayClass.constants = .ok makesArrayBody := by
  have hclass : makesArrayClass.constants.classIndex 2 = .ok 2 := by decide +kernel
  -- the only operand is the class of the elements
  have hleads : makesArrayLayout.Leads makesArrayBody makesArrayClass.constants := by
    intro operation hmem
    simp only [makesArrayBody, List.mem_cons, Node.operation.injEq, List.not_mem_nil,
      or_false] at hmem
    rcases hmem with rfl | rfl | rfl | rfl | rfl | rfl
    · exact ⟨trivial, nofun⟩
    · exact ⟨hclass, nofun⟩
    · exact ⟨trivial, nofun⟩
    · exact ⟨trivial, nofun⟩
    · exact ⟨trivial, nofun⟩
    · exact ⟨trivial, nofun⟩
  obtain ⟨decoded, hdecoded⟩ : ∃ decoded : DecodedCode, decoded =
    ⟨8, [(0, .step (.intConst 1)), (1, .step (.newRefArray 2)), (4, .step (.shuffle .pop)),
      (5, .step (.floatConst 0)), (6, .step (.shuffle .pop)), (7, .branch .returnVoid)],
      .ofList [0, 1, 4, 5, 6, 7]⟩ := ⟨_, rfl⟩
  have hbytes : DecodedCode.ofBytes makesArrayClass.constants makesArray.bytecode =
      .ok decoded := by
    rw [hdecoded]
    exact (Body.layout_ok makesArrayBody_layout).ofBytes_eq hleads rfl
  have htargets : decoded.checkTargets = .ok () := by
    rw [hdecoded]
    rfl
  -- nothing is referred to, so there are no labels
  have htable : Body.labelTable makesArray decoded {} = .ofList [] := by
    rw [hdecoded]
    simp [Body.labelTable, Body.labelledOffsets, Body.labelOffsets, Body.referencedOffsets,
      makesArray, Operation.targets, Branch.targets]
  have hexceptions : ∀ entry ∈ makesArray.exceptions, decoded.checkException entry = .ok () :=
    fun _ hentry => absurd hentry List.not_mem_nil
  refine Body.decode_ok.2 ⟨decoded, {}, hbytes, htargets, hexceptions, rfl, ?_⟩
  unfold Body.assemble
  rw [htable, hdecoded]
  simp [Body.assembleWith, Body.operationNodes, Body.linesByOffset, Operation.map, Branch.map,
    makesArray, makesArrayBody]

/-- With what it was told, the chain of the root goes on to the wrapper. -/
theorem oddResolver_chain : Headers.Chain oddResolver.header? [] .object [.object, .float]
    (.ok [.object, .float]) := by
  have hdistinct : BinaryName.object ≠ .float := by decide +kernel
  have hfloat : ((Resolver.ofClassPath ∅).register ⟨⟨0x21⟩, .float, none, []⟩) =
      { Resolver.ofClassPath ∅ with
        headers := (∅ : Std.HashMap _ _).insert .float (some ⟨⟨0x21⟩, .float, none, []⟩) } :=
    Resolver.register_of_not_found fun found => by simp [Resolver.ofClassPath]
  -- two headers were told, and the rest is as it was
  have hheaders : oddResolver.header? = Function.update
      (Function.update (Resolver.ofClassPath ∅).header? .float (some ⟨⟨0x21⟩, .float, none, []⟩))
      .object (some ⟨⟨0x21⟩, .object, some .float, []⟩) := by
    unfold oddResolver
    rw [Resolver.register_of_not_found, Resolver.header?_insert, hfloat]
    · congr 1
      exact Resolver.header?_insert (.ofClassPath ∅) ⟨⟨0x21⟩, .float, none, []⟩
    · intro found
      rw [hfloat]
      simp [hdistinct.symm]
  have hroot : oddResolver.header? .object = some ⟨⟨0x21⟩, .object, some .float, []⟩ := by
    rw [hheaders, Function.update_self]
  have hwrapper : oddResolver.header? .float = some ⟨⟨0x21⟩, .float, none, []⟩ := by
    rw [hheaders, Function.update_of_ne hdistinct.symm, Function.update_self]
  exact .extends (by simp) hroot rfl (.root (by simpa using hdistinct.symm) hwrapper rfl)

/-- What loads the `float` is reported, and the array is not. -/
theorem makesArray_validate {validator : Validator} {headers : Headers}
    (hfaithful : validator.Faithful .cldc10 headers) :
    ∃ after, makesArrayClass.validate .cldc10 validator = .ok [makesArrayProblem] after := by
  have hname : makesArrayClass.name = .ok makesArrayName := by decide +kernel
  have hmethodName : makesArrayMethod.nameIn makesArrayClass.constants = .ok "m" := by
    decide +kernel
  have hdescriptor : makesArrayMethod.descriptorIn makesArrayClass.constants = .ok "()V" := by
    decide +kernel
  have hsignature : MethodDescriptor.ofDescriptor "()V" = .ok ⟨[], none⟩ := by decide +kernel
  have hcode : makesArrayMethod.code makesArrayClass.constants = .ok (some makesArray) := by
    decide +kernel
  have hclass : makesArrayClass.constants.classType 2 = .ok (.object .object) := by decide +kernel
  -- the root is judged by its name
  obtain ⟨after, -, hroot⟩ := Policy.checkClass_eq hfaithful .object
  have harray : Policy.cldc10.validateOperation makesArrayName ⟨"m", "()V"⟩
      makesArrayClass.constants (1, none, .step (.newRefArray 2)) validator =
        .ok [] after := by
    refine state_bind_ok.2 ⟨none, after, ?_, rfl⟩
    exact state_bind_ok.2 ⟨_, _, ofExcept_ok.2 ⟨hclass, rfl⟩, hroot⟩
  -- the other operations have no types
  have hbody : Policy.cldc10.validateBody makesArrayName ⟨"m", "()V"⟩ makesArrayClass.constants
      makesArrayBody validator = .ok [makesArrayProblem] after := by
    refine state_bind_ok.2 ⟨[], _, rfl, ?_⟩
    refine state_bind_ok.2 ⟨[[], [], [], [makesArrayProblem], [], []], after, ?_, rfl⟩
    exact state_bind_ok.2 ⟨[], _, rfl, state_bind_ok.2 ⟨[], after, harray, rfl⟩⟩
  -- there are no parameters and no result
  have hmethod : Policy.cldc10.validateMethod makesArrayName makesArrayClass.constants
      makesArrayMethod validator = .ok [makesArrayProblem] after := by
    refine state_bind_ok.2 ⟨_, _, ofExcept_ok.2 ⟨hmethodName, rfl⟩, ?_⟩
    refine state_bind_ok.2 ⟨_, _, ofExcept_ok.2 ⟨hdescriptor, rfl⟩, ?_⟩
    refine state_bind_ok.2 ⟨_, _, ofExcept_ok.2 ⟨hsignature, rfl⟩, ?_⟩
    refine state_bind_ok.2 ⟨[], validator, ?_, ?_⟩
    · exact state_bind_ok.2 ⟨none, _, rfl, rfl⟩
    · refine state_bind_ok.2 ⟨_, _, ofExcept_ok.2 ⟨hcode, rfl⟩, ?_⟩
      refine state_bind_ok.2 ⟨_, _, ofExcept_ok.2 ⟨makesArray_decode, rfl⟩, ?_⟩
      exact state_bind_ok.2 ⟨_, after, hbody, rfl⟩
  refine ⟨after, ?_⟩
  unfold ClassFile.validate
  refine state_bind_ok.2 ⟨_, _, ofExcept_ok.2 ⟨hname, rfl⟩, ?_⟩
  refine state_bind_ok.2 ⟨[], _, rfl, ?_⟩
  exact state_bind_ok.2 ⟨[_], after, state_bind_ok.2 ⟨_, _, hmethod, rfl⟩, rfl⟩

/-- A class that is validated a second time has the same problems. -/
theorem makesArray_members :
    let validator := resultState (makesArrayClass.validate .cldc10 (.ofResolver oddResolver))
    (∃ after, makesArrayClass.validate .cldc10 validator = .ok [makesArrayProblem] after) ∧
      ∃ findings : MethodFindings, findings.problems = [makesArrayProblem] ∧
        Policy.cldc10.Reports oddResolver makesArrayName makesArrayClass.constants makesArrayMethod
          findings := by
  intro validator
  have hreached : validator.Reached .cldc10 oddResolver := .validated .start makesArrayClass
  obtain ⟨after, h⟩ := makesArray_validate hreached.faithful
  refine ⟨⟨after, h⟩, ?_⟩
  obtain ⟨owner, fields, methods, hname, hproblems, hfields, hmethods⟩ :=
    (ClassFile.validate_members hreached rfl _ _).1 ⟨after, h⟩
  have howner : makesArrayClass.name = .ok makesArrayName := by decide +kernel
  cases howner.symm.trans hname
  cases hfields
  rcases hmethods with _ | ⟨⟨-, findings, rfl, hreports⟩, ⟨⟩⟩
  exact ⟨findings, by simpa using hproblems.symm, hreports⟩

/-- An array of root objects is not reported, although the chain of the root is complete and has the
class of `float` objects in it. -/
theorem makesArray_root_unreported :
    makesArrayMethod.code makesArrayClass.constants = .ok (some makesArray) ∧
      Body.decode makesArray makesArrayClass.constants = .ok makesArrayBody ∧
      makesArrayBody.nodes[1]? = some (.operation (.step (.newRefArray 2))) ∧
      makesArrayClass.constants.classType 2 = .ok (.object .object) ∧
      Headers.Chain oddResolver.header? [] .object [.object, .float] (.ok [.object, .float]) ∧
      ∃ after, makesArrayClass.validate .cldc10 (.ofResolver oddResolver) =
        .ok [⟨.floatingPoint, .instruction makesArrayName ⟨"m", "()V"⟩ 3 none, none⟩] after :=
  ⟨by decide +kernel, makesArray_decode, rfl, by decide +kernel, oddResolver_chain,
    makesArray_validate (Validator.faithful_ofResolver rfl)⟩

end Preverification
