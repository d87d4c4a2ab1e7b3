import Preverification.Proofs.EmissionCauses
import Preverification.Proofs.LabelledAllocations
import Preverification.Proofs.PassThrough
import Preverification.Proofs.SubroutineCauses

/-!
# Methods that are preverified cleanly

Each stage in the preverification of a method leaves a hygienic body behind, and that is all that
the next one needs: so whatever fails does so because of the input. No label is found to be missing
or placed twice, and type inference comes across neither subroutines nor allocations without a
label.

* `Policy.blames_preverifyCode`, `Policy.blames_preverifyMethod`: each of them fails because of the
  input only.
* `Policy.method_runsCleanly`: every method of a class is preverified cleanly.
-/

namespace Preverification

/-- When a method is entered, there is no object that it has allocated. -/
theorem TypeState.lacks_methodEntry (owner : BinaryName) (isStatic isConstructor : Bool)
    (signature : MethodDescriptor) (maxLocals : Nat) (site : Label) :
    (methodEntry owner isStatic isConstructor signature maxLocals).Lacks site where
  locals hmem := by
    unfold methodEntry at hmem
    dsimp only at hmem
    -- the locals are the receiver, the parameters, and what is not used yet
    rcases List.mem_append.1 hmem with hused | htop
    · rcases List.mem_append.1 hused with hreceiver | hparameter
      · split at hreceiver
        · cases hreceiver
        · split at hreceiver
          · cases List.mem_singleton.1 hreceiver
          · cases List.mem_singleton.1 hreceiver
      · obtain ⟨parameter, -, hslot⟩ := List.mem_flatMap.1 hparameter
        have hfree := parameter.siteFree_verificationType site
        unfold slots at hslot
        split at hslot
        · rcases List.mem_cons.1 hslot with heq | hsecond
          · exact hfree heq.symm
          · cases List.mem_singleton.1 hsecond
        · exact hfree (List.mem_singleton.1 hslot).symm
    · cases (List.mem_replicate.1 htop).2
  stack := List.not_mem_nil

/-! ### Stages of a method -/

/-- The input can cause an error, unless it is about what an earlier stage has to ensure. -/
def MethodError.CausedByInput : MethodError → Prop
  | structural error => error.CausedByInput
  | subroutine error => error.CausedByInput
  | analysis error => error.CausedByInput

namespace MethodPass

variable {α : Type} {workspace : Workspace}

/-- A stage fails because of the input. -/
abbrev BlamesInput (pass : MethodPass α) (workspace : Workspace) : Prop :=
  StepBlamesAt MethodError.CausedByInput pass workspace

/-- Type inference looks at classes, and fails as it does alone. -/
theorem blames_analyze {body : Body} {entry : TypeState} {context : MethodContext}
    (h : StepBlames AnalysisError.CausedByInput (body.analyze entry context)) :
    BlamesInput (analyze body entry context) workspace := by
  intro error later hrun
  unfold analyze at hrun
  split at hrun
  · cases hrun
  · rename_i found resolver hfound
    cases hrun
    exact h _ found resolver hfound

/-- Emission fails in a workspace only because of the input if it does so with the pool in there. -/
theorem blames_emit {body : Body} {analysis : Analysis} {entry : TypeState} {format : FrameFormat}
    (h : StepBlamesAt StructuralError.CausedByInput (Emission.emit analysis entry format)
      ⟨body, workspace.constants⟩) :
    BlamesInput (emit body analysis entry format) workspace := by
  intro error later hrun
  unfold emit at hrun
  split at hrun
  · cases hrun
  · rename_i found draft hfound
    cases hrun
    exact h found draft hfound

theorem blames_edit {change : Pool.Edit α} (h : StepBlamesInput change) :
    BlamesInput (edit change) workspace := by
  intro error later hrun
  unfold edit at hrun
  split at hrun
  · cases hrun
  · rename_i found pool hfound
    cases hrun
    exact h _ found pool hfound

end MethodPass

/-- Objects are inferred only if the label in front of their allocation is placed. -/
theorem Body.analyze_placed {body : Body} {entry : TypeState} {context : MethodContext}
    {resolver resolver' : Resolver} {analysis : Analysis}
    (h : body.analyze entry context resolver = .ok analysis resolver')
    (hentry : ∀ site, entry.Lacks site) (position : Nat) (state : TypeState) (site : Label)
    (hstate : analysis.state? position = some state) (hsite : ¬ state.Lacks site) :
    .label site ∈ body.nodes := by
  obtain ⟨place, type, -, -, hlabel⟩ := analyze_exists_allocation h hstate (hentry site) hsite
  obtain ⟨previous, -, hprevious⟩ := labelBefore_eq_some.1 hlabel
  exact List.mem_of_getElem? hprevious

/-! ### Methods -/

namespace Policy

variable {policy : Policy} {owner : BinaryName} {method : Member} {workspace : Workspace}

/-- The preverification of code fails because of the input. -/
theorem blames_preverifyCode (policy : Policy) (owner : BinaryName) (method : Member) (code : Code)
    (workspace : Workspace) :
    MethodPass.BlamesInput (policy.preverifyCode owner method code) workspace := by
  unfold preverifyCode
  refine .bind (StepBlames.get workspace) fun _ _ hget => ?_
  cases hget
  refine .bind (.ofExcept (.mapError (Body.blames_decode _ _))) fun decoded _ hcheck => ?_
  obtain ⟨hdecoded, rfl⟩ := ofExcept_mapError_ok.1 hcheck
  -- what was decoded can be inlined, and what was inlined can be trusted by type inference
  have hhygienic := Body.decode_hygienic hdecoded
  refine .bind (.ofExcept (.mapError (Body.blames_inline hhygienic _))) ?_
  rintro ⟨copies, inlined⟩ _ hcheck
  obtain ⟨hinlined, rfl⟩ := ofExcept_mapError_ok.1 hcheck
  have hprepared := (hhygienic.cleanlyInlined hinlined).prepared
  refine .bind (.ofExcept (.mapError (Pool.blames_utf8 _ _))) fun descriptor _ _ => ?_
  refine .bind (.ofExcept (.mapError (blames_methodDescriptor _))) fun signature _ _ => ?_
  refine .bind (.ofExcept (.mapError (Pool.blames_utf8 _ _))) fun name _ _ => ?_
  refine .bind (MethodPass.blames_analyze (Body.blames_analyze hprepared _ _)) ?_
  intro analysis _ hanalyze
  obtain ⟨resolver, hanalysis, rfl⟩ := MethodPass.analyze_ok.1 hanalyze
  -- objects are inferred only behind labels that are placed, so that frames can name them
  have hentry := TypeState.lacks_methodEntry owner (method.access.has AccessFlags.static)
    (name == UnqualifiedName.init) signature inlined.labelAllocations.maxLocals.toNat
  exact MethodPass.blames_emit (Emission.blames_emit hprepared.toHygienic hentry
    (Body.analyze_placed hanalysis hentry) _)

/-- The preverification of a method fails because of the input. -/
theorem blames_preverifyMethod (policy : Policy) (owner : BinaryName) (method : Member)
    (workspace : Workspace) :
    MethodPass.BlamesInput (policy.preverifyMethod owner method) workspace := by
  unfold preverifyMethod
  refine .bind (StepBlames.get workspace) fun _ _ hget => ?_
  cases hget
  refine .bind (.ofExcept (.mapError (method.blames_codePosition _))) fun found _ _ => ?_
  cases found with
  | none => exact StepBlames.pure _ _
  | some position =>
    dsimp only
    split
    · exact StepBlames.pure _ _
    · rename_i attr _
      refine .bind (.ofExcept (.mapError (attr.blames_decode Code.blames_read))) ?_
      intro code _ _
      refine .bind (policy.blames_preverifyCode owner method code _) fun preverified _ _ => ?_
      refine .bind (MethodPass.blames_edit (Pool.blames_addAttribute preverified)) fun _ _ _ => ?_
      exact StepBlames.pure _ _

/-- In the frames of preverified code, objects that are not initialized have the offsets of
allocations. -/
theorem preverifyCode_framesAllocations {code code' : Code} {workspace' : Workspace}
    (hvalid : workspace.constants.Valid)
    (h : policy.preverifyCode owner method code workspace = .ok code' workspace') :
    code'.FramesAllocations workspace'.constants policy.frameFormat := by
  obtain ⟨decoded, copies, inlined, isConstructor, signature, _, analysis, draft, rfl, hdecoded,
    hinlined, hanalysis, hemit, hconstants⟩ := preverifyCode_ok h
  have hdrawn := (Body.inline_drawnFrom hinlined).labelAllocations
  rw [hconstants]
  exact Emission.emit_framesAllocations hvalid
    (fun _ hmem => hdrawn.fits (fun hnode => Body.decode_fits hdecoded hnode) hmem)
    (TypeState.lacks_methodEntry _ _ _ _ _) hanalysis hemit

/-- A method is preverified cleanly. Whether its code is preverified or it as a whole, what fails
does so because of the input. Once the code is decoded and inlined, allocations are labelled and
nothing else is changed, and frames of the code that is emitted have the offsets of its allocations.
-/
structure RunsCleanly (policy : Policy) (owner : BinaryName) (method : Member)
    (workspace : Workspace) : Prop where
  method_error : ∀ error later, policy.preverifyMethod owner method workspace = .error error later →
    error.CausedByInput
  code_error : ∀ code error later,
    policy.preverifyCode owner method code workspace = .error error later → error.CausedByInput
  labels : ∀ (code : Code) (decoded : Body) (copies : Nat) (inlined : Body),
    Body.decode code workspace.constants = .ok decoded →
      decoded.inline policy.inliningLimits = .ok (copies, inlined) →
        inlined.LabelsAllocations inlined.labelAllocations
  frames : ∀ (code code' : Code) (workspace' : Workspace),
    policy.preverifyCode owner method code workspace = .ok code' workspace' →
      code'.FramesAllocations workspace'.constants policy.frameFormat

/-- What a class is read from and its methods in front have added leaves a valid pool. -/
theorem valid_of_comesTo {bytes : Bytes} {classFile : ClassFile} {resolver : Resolver}
    (hparse : ClassFile.parse bytes = .ok classFile)
    (hcomes : ComesTo (ClassPass.method policy owner) classFile.methods
      ⟨classFile.constants, resolver⟩ method workspace) : workspace.constants.Valid := by
  obtain ⟨front, back, preverified, -, hfront⟩ := hcomes
  obtain ⟨hleads, -⟩ := ClassPass.mapM_method_ok hfront
  exact hleads.valid (ClassFile.fits_of_parse hparse).valid

/-- **Every method of a class is preverified cleanly**, whatever the policy is and whatever the
resolver knows. -/
theorem method_runsCleanly {bytes : Bytes} {classFile : ClassFile} {resolver : Resolver}
    (hparse : ClassFile.parse bytes = .ok classFile)
    (hcomes : ComesTo (ClassPass.method policy owner) classFile.methods
      ⟨classFile.constants, resolver⟩ method workspace) :
    policy.RunsCleanly owner method workspace where
  method_error := policy.blames_preverifyMethod owner method workspace
  code_error code := policy.blames_preverifyCode owner method code workspace
  labels _ _ _ _ hdecoded hinlined :=
    ((Body.decode_hygienic hdecoded).cleanlyInlined hinlined).hygienic.labelsAllocations
  frames _ _ _ h := preverifyCode_framesAllocations (valid_of_comesTo hparse hcomes) h

/-- Code that calls a subroutine twice, which makes an object and drops it. -/
def allocatesTwice : Code := ⟨1, 1, [168, 0, 7, 168, 0, 4, 177, 75, 187, 0, 2, 87, 169, 0], [], []⟩

/-- The static method m of `allocatingClass`. -/
def allocatingMethod : Member := ⟨⟨8⟩, 4, 5, [⟨3, AttributeContents.write allocatesTwice⟩]⟩

/-- The class A with a method that makes two objects in a subroutine. -/
def allocatingClass : ClassFile where
  version := ⟨0, 49⟩
  constants := .ofConstants [.utf8 "A", .classRef 1, .utf8 "Code", .utf8 "m", .utf8 "()V"]
  identity := ⟨⟨0x21⟩, 2, none, []⟩
  fields := []
  methods := [allocatingMethod]
  attributes := []

theorem allocatingClass_fits : allocatingClass.Fits where
  valid := ⟨⟨Pool.built_ofConstants _, by decide +kernel⟩, by decide +kernel⟩
  constants := by
    have hconstants : allocatingClass.constants.constants.toList =
        [.utf8 "A", .classRef 1, .utf8 "Code", .utf8 "m", .utf8 "()V"] := Pool.toList_ofConstants _
    rw [hconstants]
    simp only [List.forall_mem_cons, List.not_mem_nil, false_imp_iff, implies_true, Constant.Fits]
    decide +kernel
  identity := ⟨by decide +kernel, by decide +kernel, by decide, nofun⟩
  fields := ⟨by decide, nofun⟩
  methods := by
    refine ⟨by decide, List.forall_mem_singleton.2 ⟨by decide +kernel, by decide +kernel, ?_⟩⟩
    exact ⟨by decide, List.forall_mem_singleton.2 ⟨by decide +kernel, by decide +kernel⟩⟩
  attributes := ⟨by decide, nofun⟩

/-- The method of `allocatingClass` is preverified cleanly. -/
theorem allocatingMethod_runsCleanly :
    ClassFile.parse allocatingClass.write = .ok allocatingClass ∧
      ComesTo (ClassPass.method .cldc10 holdsConstantName) allocatingClass.methods
        ⟨allocatingClass.constants, .ofClassPath ∅⟩ allocatingMethod
        ⟨allocatingClass.constants, .ofClassPath ∅⟩ ∧
      RunsCleanly .cldc10 holdsConstantName allocatingMethod
        ⟨allocatingClass.constants, .ofClassPath ∅⟩ := by
  have hparse : ClassFile.parse allocatingClass.write = .ok allocatingClass :=
    ClassFile.parse_ok.2 ⟨allocatingClass, rfl, allocatingClass_fits, rfl⟩
  have hcomes : ComesTo (ClassPass.method .cldc10 holdsConstantName) allocatingClass.methods
      ⟨allocatingClass.constants, .ofClassPath ∅⟩ allocatingMethod
      ⟨allocatingClass.constants, .ofClassPath ∅⟩ := ⟨[], [], [], rfl, rfl⟩
  exact ⟨hparse, hcomes, method_runsCleanly hparse hcomes⟩

end Policy

end Preverification
