import Preverification.Preverifier
import Preverification.Proofs.Decoding
import Preverification.Proofs.Emitted
import Preverification.Proofs.Exploration
import Preverification.Proofs.ValidPools

/-!
# Preverifications that succeed

What the preverification of a class goes through when it succeeds: the class is read and validated,
and its methods are preverified one after the other, each in stages that all succeed. Meanwhile the
pool only gets constants, and the resolver only headers.

* `Policy.CodeRun`, `Policy.MethodRun`, `ClassRun`, `Policy.FileRun`: the stages of preverifications
  that succeed.
* `Policy.preverifyCode_ok`, `Policy.preverifyMethod_cases`: when code and methods are preverified.
* `ClassPass.mapM_method_ok`: methods are preverified one after the other, and the workspace leads
  on.
* `Policy.exists_fileRun`: a preverification that has a result went through all of these stages.
-/

namespace Preverification

/-! ### Writing the code of a method -/

/-- The attribute of a table has the name of the table. -/
theorem Pool.HoldsTable.utf8 {α β : Type} [AttributeContents β] {pool : Pool} {table : List α → β}
    {entries : List α} {attributes : List Attribute} (h : pool.HoldsTable table entries attributes)
    (hp : pool.Formed) :
    ∀ attr ∈ attributes, pool.utf8 attr.name = .ok (AttributeContents.name β) := by
  rcases h with ⟨_, rfl⟩ | ⟨_, index, hnoted, rfl⟩
  · nofun
  · refine List.forall_mem_singleton.2 (Pool.utf8_ok.2 ?_)
    exact hp.built.get?_eq_some.2 (hp.noted.mem_entries hnoted)

namespace Emission.Run

variable {analysis : Analysis} {entry : TypeState} {format : FrameFormat}
  {draft draft' : MethodDraft} {code : Code}

/-- Writing the frames down only adds constants. -/
theorem framed_valid (run : Run analysis entry format draft draft' code)
    (hvalid : draft.constants.Valid) :
    run.framed.Valid ∧ draft.constants.Extends run.framed := by
  have hplaced : ∀ found pool, Pool.Adds pool
      (placeFrame run.layout (Prod.fst found) (Prod.snd found)) fun _ _ => True := by
    intro found pool
    unfold placeFrame
    exact (Pool.adds_serializeFrame _ _ pool).bind fun _ _ _ _ _ => Pool.adds_pure trivial
  rcases (Pool.adds_mapM hplaced _).ok hvalid _ _ run.written_ok with ⟨hframed, hextends, _⟩
  exact ⟨hframed, hextends⟩

/-- The constants of the frames are added first, and then the names of the debug tables. -/
theorem pools (run : Run analysis entry format draft draft' code)
    (hvalid : draft.constants.Valid) :
    run.named.Valid ∧ draft.constants.Extends run.named ∧ draft'.constants.Valid ∧
      run.named.Extends draft'.constants ∧
      ∀ attr ∈ run.extra, ∃ name ∈ Pool.frameNames, draft'.constants.utf8 attr.name = .ok name := by
  rcases run.framed_valid hvalid with ⟨hframed, hextends⟩
  rcases (Pool.adds_addFrames _ _ _ _ _).ok hframed _ _ run.extra_ok with
    ⟨hnamed, hextends', hnames⟩
  rcases (Pool.adds_encode _ _ _ _).ok hnamed _ _ run.code_ok with ⟨hvalid', hextends'', _⟩
  refine ⟨hnamed, hextends.trans hextends', hvalid', hextends'', fun attr hattr => ?_⟩
  rcases hnames attr hattr with ⟨name, hname, hutf8⟩
  exact ⟨name, hname, hextends''.utf8 hnamed.built hutf8⟩

/-- The code is that of the body at its layout. -/
theorem writes (run : Run analysis entry format draft draft' code)
    (hvalid : draft.constants.Valid) :
    run.layout.Writes draft'.body run.extra code draft'.constants := by
  rcases run.pools hvalid with ⟨hnamed, _⟩
  exact ((Body.layout_ok run.layout_ok).encode_ok hnamed.toFormed run.code_ok).2.2

end Emission.Run

/-! ### Finding the code of a method -/

namespace Member

/-- There is one attribute that holds code, and it has a position. -/
def HoldsCodeAt (pool : Pool) (attributes : List Attribute) (position : Nat) : Prop :=
  (∃ attr, attributes[position]? = some attr ∧ attr.holds Code pool = .ok true) ∧
    ∀ (other : Nat) (attr : Attribute), other ≠ position → attributes[other]? = some attr →
      attr.holds Code pool = .ok false

section HoldsCodeAt

variable {pool : Pool} {attr : Attribute} {attributes : List Attribute}

/-- The first attribute holds code, and no other one does. -/
theorem holdsCodeAt_cons_zero : HoldsCodeAt pool (attr :: attributes) 0 ↔
    attr.holds Code pool = .ok true ∧ ∀ found ∈ attributes, found.holds Code pool = .ok false := by
  constructor
  · rintro ⟨⟨_, ⟨⟩, hfirst⟩, hother⟩
    refine ⟨hfirst, fun found hfound => ?_⟩
    rcases List.mem_iff_getElem?.1 hfound with ⟨other, hget⟩
    exact hother (other + 1) found (Nat.succ_ne_zero other) hget
  · rintro ⟨hfirst, hrest⟩
    refine ⟨⟨attr, rfl, hfirst⟩, fun other found hne hfound => ?_⟩
    cases other with
    | zero => exact absurd rfl hne
    | succ other => exact hrest found (List.mem_of_getElem? hfound)

/-- The first attribute holds something else. -/
theorem holdsCodeAt_cons_succ {offset : Nat} :
    HoldsCodeAt pool (attr :: attributes) (offset + 1) ↔
      attr.holds Code pool = .ok false ∧ HoldsCodeAt pool attributes offset := by
  constructor
  · rintro ⟨hthere, hother⟩
    exact ⟨hother 0 attr (Nat.succ_ne_zero offset).symm rfl, hthere, fun other found hne =>
      hother (other + 1) found fun heq => hne (Nat.succ.inj heq)⟩
  · rintro ⟨hfirst, hthere, hother⟩
    refine ⟨hthere, fun other found hne hfound => ?_⟩
    cases other with
    | zero =>
      cases hfound
      exact hfirst
    | succ other => exact hother other found (fun heq => hne (congrArg Nat.succ heq)) hfound

/-- If there is just one attribute that holds code, it is known of the first one whether it is that.
-/
theorem HoldsCodeAt.head {offset : Nat} (h : HoldsCodeAt pool (attr :: attributes) offset) :
    ∃ answer, attr.holds Code pool = .ok answer := by
  cases offset with
  | zero => exact ⟨true, (holdsCodeAt_cons_zero.1 h).1⟩
  | succ offset => exact ⟨false, (holdsCodeAt_cons_succ.1 h).1⟩

end HoldsCodeAt

/-- A search goes on to the end, so that a second attribute with code is noticed. -/
theorem findCode_ok {pool : Pool} {attributes : List Attribute} {found result : Option Nat}
    {position : Nat} : findCode pool found position attributes = .ok result ↔
      result = found ∧ (∀ attr ∈ attributes, attr.holds Code pool = .ok false) ∨
        found = none ∧ ∃ offset, result = some (position + offset) ∧
          HoldsCodeAt pool attributes offset := by
  induction attributes generalizing found position with
  | nil =>
    constructor
    · rintro ⟨⟩
      exact .inl ⟨rfl, nofun⟩
    · rintro (⟨rfl, _⟩ | ⟨_, _, _, ⟨_, hnone, _⟩, _⟩)
      · rfl
      · cases hnone
  | cons attr attributes ih =>
    unfold findCode
    cases hholds : attr.holds Code pool with
    -- an attribute whose name is not found ends the search
    | error error =>
      refine ⟨nofun, ?_⟩
      rintro (⟨_, hall⟩ | ⟨_, offset, _, h⟩)
      · cases hholds.symm.trans (hall attr List.mem_cons_self)
      · rcases h.head with ⟨answer, hanswer⟩
        cases hholds.symm.trans hanswer
    | ok holds =>
      cases holds with
      | false =>
        change findCode pool found (position + 1) attributes = .ok result ↔ _
        rw [ih, List.forall_mem_cons]
        refine or_congr ?_ (and_congr_right fun _ => ?_)
        · rw [and_iff_right hholds]
        · constructor
          · rintro ⟨offset, rfl, h⟩
            exact ⟨offset + 1, by rw [Nat.add_right_comm, Nat.add_assoc],
              holdsCodeAt_cons_succ.2 ⟨hholds, h⟩⟩
          · rintro ⟨_ | offset, rfl, h⟩
            · cases hholds.symm.trans (holdsCodeAt_cons_zero.1 h).1
            · exact ⟨offset, by rw [Nat.add_right_comm, Nat.add_assoc],
                (holdsCodeAt_cons_succ.1 h).2⟩
      | true =>
        have hnot : ¬ ∀ found ∈ attr :: attributes, found.holds Code pool = .ok false := by
          intro hall
          cases hholds.symm.trans (hall attr List.mem_cons_self)
        cases found with
        | some first =>
          -- a second attribute with code is an error
          refine iff_of_false nofun ?_
          rintro (⟨_, hall⟩ | ⟨hnone, _⟩)
          · exact hnot hall
          · cases hnone
        | none =>
          -- the first one is kept, and the others are looked at for a second one
          change findCode pool (some position) (position + 1) attributes = .ok result ↔ _
          rw [ih]
          constructor
          · rintro (⟨rfl, hrest⟩ | ⟨hnone, _⟩)
            · exact .inr ⟨rfl, 0, rfl, holdsCodeAt_cons_zero.2 ⟨hholds, hrest⟩⟩
            · cases hnone
          · rintro (⟨_, hall⟩ | ⟨_, _ | offset, rfl, h⟩)
            · exact absurd hall hnot
            · exact .inl ⟨rfl, (holdsCodeAt_cons_zero.1 h).2⟩
            · cases hholds.symm.trans (holdsCodeAt_cons_succ.1 h).1

/-- A method has its code in the only attribute that holds code. -/
theorem codePosition_some {method : Member} {pool : Pool} {position : Nat} :
    method.codePosition pool = .ok (some position) ↔
      HoldsCodeAt pool method.attributes position := by
  unfold codePosition
  rw [findCode_ok]
  constructor
  · rintro (⟨hnone, _⟩ | ⟨_, offset, hposition, h⟩)
    · cases hnone
    · rw [Nat.zero_add] at hposition
      cases hposition
      exact h
  · exact fun h => .inr ⟨rfl, position, by rw [Nat.zero_add], h⟩

/-- A method has no code if none of its attributes holds any. -/
theorem codePosition_none {method : Member} {pool : Pool} :
    method.codePosition pool = .ok none ↔
      ∀ attr ∈ method.attributes, attr.holds Code pool = .ok false := by
  unfold codePosition
  rw [findCode_ok]
  constructor
  · rintro (⟨_, hall⟩ | ⟨_, _, hnone, _⟩)
    · exact hall
    · cases hnone
  · exact fun hall => .inl ⟨rfl, hall⟩

end Member

/-! ### Stages of a method -/

/-- From one workspace on, another one is come to: its pool has more constants, and its resolver
more headers. -/
structure Workspace.Leads (old new : Workspace) : Prop where
  valid : old.constants.Valid → new.constants.Valid
  constants : old.constants.Valid → old.constants.Extends new.constants
  resolver : old.resolver.Later new.resolver

theorem Workspace.Leads.refl (workspace : Workspace) : workspace.Leads workspace :=
  ⟨id, fun _ => .refl _, .refl _⟩

theorem Workspace.Leads.trans (first second third : Workspace) (h : first.Leads second)
    (h' : second.Leads third) : first.Leads third where
  valid hvalid := h'.valid (h.valid hvalid)
  constants hvalid := (h.constants hvalid).trans (h'.constants (h.valid hvalid))
  resolver := h.resolver.trans h'.resolver

namespace MethodPass

variable {workspace workspace' : Workspace}

/-- While types are inferred classes are looked up, and the pool stays. -/
theorem analyze_ok {body : Body} {entry : TypeState} {context : MethodContext}
    {analysis : Analysis} : analyze body entry context workspace = .ok analysis workspace' ↔
      ∃ resolver, body.analyze entry context workspace.resolver = .ok analysis resolver ∧
        { workspace with resolver } = workspace' := by
  unfold analyze
  constructor
  · intro h
    split at h
    · rename_i found resolver hrun
      cases h
      exact ⟨resolver, hrun, rfl⟩
    · cases h
  · rintro ⟨resolver, hrun, rfl⟩
    rw [hrun]

/-- While code is emitted the resolver stays. -/
theorem emit_ok {body : Body} {analysis : Analysis} {entry : TypeState} {format : FrameFormat}
    {code : Code} : emit body analysis entry format workspace = .ok code workspace' ↔
      ∃ draft, Emission.emit analysis entry format ⟨body, workspace.constants⟩ = .ok code draft ∧
        { workspace with constants := draft.constants } = workspace' := by
  unfold emit
  constructor
  · intro h
    split at h
    · rename_i found draft hrun
      cases h
      exact ⟨draft, hrun, rfl⟩
    · cases h
  · rintro ⟨draft, hrun, rfl⟩
    rw [hrun]

/-- A change of the pool runs in a workspace as it does on the pool. -/
theorem edit_ok {α : Type} {change : Pool.Edit α} {value : α} :
    edit change workspace = .ok value workspace' ↔
      ∃ pool, change workspace.constants = .ok value pool ∧
        { workspace with constants := pool } = workspace' := by
  unfold edit
  constructor
  · intro h
    split at h
    · rename_i found pool hrun
      cases h
      exact ⟨pool, hrun, rfl⟩
    · cases h
  · rintro ⟨pool, hrun, rfl⟩
    rw [hrun]

end MethodPass

namespace Policy

/-- The preverification of some code that succeeds. The code is decoded, subroutines are inlined,
and allocations get labels; then types are inferred, and the body is emitted. -/
structure CodeRun (policy : Policy) (owner : BinaryName) (method : Member) (code code' : Code)
    (workspace workspace' : Workspace) where
  decoded : Body
  copies : Nat
  inlined : Body
  signature : MethodDescriptor
  entry : TypeState
  analysis : Analysis
  draft : MethodDraft
  run : Emission.Run analysis entry policy.frameFormat
    ⟨inlined.labelAllocations, workspace.constants⟩ draft code'
  decoded_ok : Body.decode code workspace.constants = .ok decoded
  inlined_ok : decoded.inline policy.inliningLimits = .ok (copies, inlined)
  analysis_ok : inlined.labelAllocations.analyze entry
    ⟨workspace.constants, owner, signature.returnType⟩ workspace.resolver =
      .ok analysis workspace'.resolver
  constants_eq : workspace'.constants = draft.constants

/-- The preverification of a method with code that succeeds. -/
structure MethodRun (policy : Policy) (owner : BinaryName) (method method' : Member)
    (workspace workspace' : Workspace) where
  position : Nat
  -- the attribute that held the code, and the one that holds it now
  attr : Attribute
  attr' : Attribute
  code : Code
  code' : Code
  middle : Workspace
  written_ok : policy.preverifyCode owner method code workspace = .ok code' middle
  run : policy.CodeRun owner method code code' workspace middle
  position_ok : method.codePosition workspace.constants = .ok (some position)
  attr_ok : method.attributes[position]? = some attr
  code_ok : attr.decode Code = .ok code
  replaced_ok : Pool.addAttribute code' middle.constants = .ok attr' workspace'.constants
  resolver_eq : workspace'.resolver = middle.resolver
  method_eq : method' = { method with attributes := method.attributes.set position attr' }

variable {policy : Policy} {owner : BinaryName} {method method' : Member} {code code' : Code}
  {workspace workspace' : Workspace}

/-- The stages that code goes through when it is preverified. Types are inferred from what is known
when the method is entered. -/
theorem preverifyCode_ok
    (h : policy.preverifyCode owner method code workspace = .ok code' workspace') :
    ∃ (decoded : Body) (copies : Nat) (inlined : Body) (isConstructor : Bool)
      (signature : MethodDescriptor) (entry : TypeState) (analysis : Analysis) (draft : MethodDraft),
      entry = .methodEntry owner (method.access.has AccessFlags.static) isConstructor signature
        inlined.labelAllocations.maxLocals.toNat ∧
      Body.decode code workspace.constants = .ok decoded ∧
      decoded.inline policy.inliningLimits = .ok (copies, inlined) ∧
      inlined.labelAllocations.analyze entry
        ⟨workspace.constants, owner, signature.returnType⟩ workspace.resolver =
          .ok analysis workspace'.resolver ∧
      Emission.emit analysis entry policy.frameFormat
        ⟨inlined.labelAllocations, workspace.constants⟩ = .ok code' draft ∧
      workspace'.constants = draft.constants := by
  unfold preverifyCode at h
  rcases state_bind_ok.1 h with ⟨_, _, ⟨⟩, h⟩
  rcases state_bind_ok.1 h with ⟨decoded, _, hcheck, h⟩
  rcases ofExcept_mapError_ok.1 hcheck with ⟨hdecoded, rfl⟩
  rcases state_bind_ok.1 h with ⟨⟨copies, inlined⟩, _, hcheck, h⟩
  rcases ofExcept_mapError_ok.1 hcheck with ⟨hinlined, rfl⟩
  rcases state_bind_ok.1 h with ⟨descriptor, _, hcheck, h⟩
  rcases ofExcept_mapError_ok.1 hcheck with ⟨_, rfl⟩
  rcases state_bind_ok.1 h with ⟨signature, _, hcheck, h⟩
  rcases ofExcept_mapError_ok.1 hcheck with ⟨_, rfl⟩
  rcases state_bind_ok.1 h with ⟨name, _, hcheck, h⟩
  rcases ofExcept_mapError_ok.1 hcheck with ⟨_, rfl⟩
  rcases state_bind_ok.1 h with ⟨analysis, _, hanalyze, h⟩
  rcases MethodPass.analyze_ok.1 hanalyze with ⟨resolver, hanalysis, rfl⟩
  rcases MethodPass.emit_ok.1 h with ⟨draft, hemit, rfl⟩
  exact ⟨decoded, copies, inlined, _, signature, _, analysis, draft, rfl, hdecoded, hinlined,
    hanalysis, hemit, rfl⟩

/-- Code that was preverified went through all stages. -/
theorem exists_codeRun
    (h : policy.preverifyCode owner method code workspace = .ok code' workspace') :
    Nonempty (policy.CodeRun owner method code code' workspace workspace') := by
  obtain ⟨decoded, copies, inlined, _, signature, entry, analysis, draft, -, hdecoded, hinlined,
    hanalysis, hemit, hconstants⟩ := preverifyCode_ok h
  obtain ⟨run⟩ := Emission.exists_run hemit
  exact ⟨⟨decoded, copies, inlined, signature, entry, analysis, draft, run, hdecoded, hinlined,
    hanalysis, hconstants⟩⟩

/-- A method without code stays as it is. -/
theorem preverifyMethod_cases
    (h : policy.preverifyMethod owner method workspace = .ok method' workspace') :
    (method.codePosition workspace.constants = .ok none ∧ method' = method ∧
      workspace' = workspace) ∨
      Nonempty (policy.MethodRun owner method method' workspace workspace') := by
  unfold preverifyMethod at h
  rcases state_bind_ok.1 h with ⟨_, _, ⟨⟩, h⟩
  rcases state_bind_ok.1 h with ⟨found, _, hcheck, h⟩
  rcases ofExcept_mapError_ok.1 hcheck with ⟨hposition, rfl⟩
  cases found with
  | none =>
    rcases state_pure_ok.1 h with ⟨rfl, rfl⟩
    exact .inl ⟨hposition, rfl, rfl⟩
  | some position =>
    cases hattr : method.attributes[position]? with
    | none =>
      -- the position was found by looking for the attribute
      rcases (Member.codePosition_some.1 hposition).1 with ⟨attr, hsome, _⟩
      cases hattr.symm.trans hsome
    | some attr =>
      simp only [hattr] at h
      rcases state_bind_ok.1 h with ⟨code, _, hcheck, h⟩
      rcases ofExcept_mapError_ok.1 hcheck with ⟨hcode, rfl⟩
      rcases state_bind_ok.1 h with ⟨code', middle, hrun, h⟩
      rcases state_bind_ok.1 h with ⟨attr', _, hedit, h⟩
      rcases MethodPass.edit_ok.1 hedit with ⟨pool, hreplaced, rfl⟩
      rcases state_pure_ok.1 h with ⟨rfl, rfl⟩
      rcases exists_codeRun hrun with ⟨run⟩
      exact .inr ⟨⟨position, attr, attr', code, code', middle, hrun, run, hposition, hattr, hcode,
        hreplaced, rfl, rfl⟩⟩

/-- Its stages add constants and headers only. -/
theorem CodeRun.leads (run : policy.CodeRun owner method code code' workspace workspace') :
    workspace.Leads workspace' where
  valid hvalid := by
    rw [run.constants_eq]
    exact (run.run.pools hvalid).2.2.1
  constants hvalid := by
    rcases run.run.pools hvalid with ⟨_, hextends, _, hextends', _⟩
    rw [run.constants_eq]
    exact hextends.trans hextends'
  resolver := (Body.analyze_explored run.analysis_ok).2

/-- Putting the new code in its place leads to a valid and larger pool. -/
theorem MethodRun.leads_middle
    (run : policy.MethodRun owner method method' workspace workspace') :
    run.middle.Leads workspace' where
  valid hvalid := ((Pool.adds_addAttribute _ _).ok hvalid _ _ run.replaced_ok).1
  constants hvalid := ((Pool.adds_addAttribute _ _).ok hvalid _ _ run.replaced_ok).2.1
  resolver := by
    rw [run.resolver_eq]
    exact .refl _

/-- Preverifying a method leads to a larger pool and a later resolver. -/
theorem preverifyMethod_leads
    (h : policy.preverifyMethod owner method workspace = .ok method' workspace') :
    workspace.Leads workspace' := by
  rcases preverifyMethod_cases h with ⟨_, _, rfl⟩ | ⟨⟨run⟩⟩
  · exact .refl _
  · exact .trans _ _ _ run.run.leads run.leads_middle

end Policy

/-! ### Stages of a class -/

namespace ClassPass

variable {policy : Policy} {owner : BinaryName} {workspace workspace' : Workspace}

/-- Errors of a method are reported with its name. When there are none the method was preverified.
-/
theorem method_ok {found preverified : Member}
    (h : method policy owner found workspace = .ok preverified workspace') :
    policy.preverifyMethod owner found workspace = .ok preverified workspace' := by
  unfold method at h
  rcases state_bind_ok.1 h with ⟨_, _, ⟨⟩, h⟩
  rcases state_bind_ok.1 h with ⟨name, _, hcheck, h⟩
  rcases ofExcept_mapError_ok.1 hcheck with ⟨_, rfl⟩
  rcases state_bind_ok.1 h with ⟨descriptor, _, hcheck, h⟩
  rcases ofExcept_mapError_ok.1 hcheck with ⟨_, rfl⟩
  cases hrun : policy.preverifyMethod owner found workspace with
  | ok found' middle =>
    rw [hrun] at h
    cases h
    rfl
  | error error middle =>
    rw [hrun] at h
    cases h

/-- Methods are preverified one after the other, and the workspace leads on. -/
theorem mapM_method_ok {methods preverified : List Member}
    (h : methods.mapM (method policy owner) workspace = .ok preverified workspace') :
    workspace.Leads workspace' ∧ List.Forall₂ (fun found found' => ∃ before after,
      ComesTo (method policy owner) methods workspace found before ∧ workspace.Leads before ∧
        policy.preverifyMethod owner found before = .ok found' after ∧ after.Leads workspace')
      methods preverified := by
  rcases state_mapM_steps Workspace.Leads.refl Workspace.Leads.trans
    (fun _ _ _ _ _ hrun => Policy.preverifyMethod_leads (method_ok hrun)) h with ⟨hleads, hall⟩
  refine ⟨hleads, hall.imp ?_⟩
  rintro found found' ⟨before, after, hcomes, hbefore, hrun, hafter⟩
  exact ⟨before, after, hcomes, hbefore, method_ok hrun, hafter⟩

end ClassPass

/-- The preverification of the members of a class that succeeds. -/
structure ClassRun (policy : Policy) (owner : BinaryName) (resolver : Resolver)
    (classFile preverified : ClassFile) (workspace : Workspace) : Prop where
  leads : Workspace.Leads ⟨classFile.constants, resolver⟩ workspace
  class_eq : preverified = { classFile with
    constants := workspace.constants, fields := preverified.fields, methods := preverified.methods }
  fields : if policy.stripsInstanceConstants then
      classFile.fields.mapM (·.stripConstant classFile.constants) = .ok preverified.fields
    else preverified.fields = classFile.fields
  methods : List.Forall₂ (fun method method' => ∃ before after,
    ComesTo (ClassPass.method policy owner) classFile.methods ⟨classFile.constants, resolver⟩ method
        before ∧
      Workspace.Leads ⟨classFile.constants, resolver⟩ before ∧
      policy.preverifyMethod owner method before = .ok method' after ∧ after.Leads workspace)
    classFile.methods preverified.methods

/-- Fields are passed on or stripped, and methods are preverified in order. -/
theorem ClassPass.members_ok {policy : Policy} {owner : BinaryName} {resolver : Resolver}
    {classFile preverified : ClassFile} {workspace : Workspace}
    (h : members policy owner classFile ⟨classFile.constants, resolver⟩ =
      .ok preverified workspace) :
    ClassRun policy owner resolver classFile preverified workspace := by
  -- whatever becomes of the fields, the methods follow
  have hfinish : ∀ fields, (if policy.stripsInstanceConstants then
        classFile.fields.mapM (·.stripConstant classFile.constants) = .ok fields
      else fields = classFile.fields) →
      (do
        let methods ← classFile.methods.mapM (method policy owner)
        return { classFile with constants := (← get).constants, fields, methods } :
          ClassPass ClassFile) ⟨classFile.constants, resolver⟩ = .ok preverified workspace →
      ClassRun policy owner resolver classFile preverified workspace := by
    intro fields hfields h
    rcases state_bind_ok.1 h with ⟨methods, last, hmethods, h⟩
    rcases state_bind_ok.1 h with ⟨_, _, ⟨⟩, h⟩
    rcases state_pure_ok.1 h with ⟨rfl, rfl⟩
    rcases mapM_method_ok hmethods with ⟨hleads, hall⟩
    exact ⟨hleads, rfl, hfields, hall⟩
  unfold members at h
  split at h
  · rename_i hstrips
    rcases state_bind_ok.1 h with ⟨fields, _, hcheck, h⟩
    rcases ofExcept_mapError_ok.1 hcheck with ⟨hok, rfl⟩
    exact hfinish fields (by rwa [if_pos hstrips]) h
  · rename_i hstrips
    rcases state_bind_ok.1 h with ⟨fields, _, hpure, h⟩
    rcases state_pure_ok.1 hpure with ⟨rfl, rfl⟩
    exact hfinish classFile.fields (by rw [if_neg hstrips]) h

/-- The preverification of a class file that succeeds: the class is read, there is nothing to say
against it, and its members are preverified. -/
structure Policy.FileRun (policy : Policy) (bytes : Bytes) (resolver : Resolver) where
  classFile : ClassFile
  owner : BinaryName
  header : ClassHeader
  validator : Validator
  -- the class whose bytes are written
  written : ClassFile
  workspace : Workspace
  parse_ok : ClassFile.parse bytes = .ok classFile
  name_ok : classFile.name = .ok owner
  header_ok : classFile.header = .ok header
  validate_ok : classFile.validate policy (.ofResolver (Resolver.register header resolver)) =
    .ok [] validator
  written_ok : ClassPass.members policy owner classFile ⟨classFile.constants, validator.resolver⟩ =
    .ok written workspace

/-- There is only one way in which the preverification of a class file succeeds. -/
theorem Policy.FileRun.unique {policy : Policy} {bytes : Bytes} {resolver : Resolver}
    (run run' : policy.FileRun bytes resolver) : run = run' := by
  rcases run with ⟨classFile, owner, header, validator, written, workspace, hparse, hname, hheader,
    hvalidate, hwritten⟩
  rcases run' with ⟨classFile', owner', header', validator', written', workspace', hparse', hname',
    hheader', hvalidate', hwritten'⟩
  cases hparse.symm.trans hparse'
  cases hname.symm.trans hname'
  cases hheader.symm.trans hheader'
  cases hvalidate.symm.trans hvalidate'
  cases hwritten.symm.trans hwritten'
  rfl

/-- A class file for which bytes are given back was read and validated, and its members were
preverified. -/
theorem Policy.exists_fileRun {policy : Policy} {bytes output : Bytes}
    {resolver resolver' : Resolver} {report : ClassReport}
    (h : policy.preverify bytes resolver = (report, resolver'))
    (hresult : report.result = .ok output) :
    ∃ run : policy.FileRun bytes resolver,
      output = run.written.write ∧ resolver' = run.workspace.resolver := by
  unfold preverify at h
  -- stage by stage, none of which may fail
  cases hparse : ClassFile.parse bytes with
  | error error =>
    rw [hparse] at h
    cases h
    cases hresult
  | ok classFile =>
    rw [hparse] at h
    dsimp only at h
    cases hname : classFile.name with
    | error error =>
      rw [hname] at h
      cases h
      cases hresult
    | ok owner =>
      rw [hname] at h
      dsimp only at h
      cases hheader : classFile.header with
      | error error =>
        rw [hheader] at h
        cases h
        cases hresult
      | ok header =>
        rw [hheader] at h
        change policy.processClass owner classFile (Resolver.register header resolver) = _ at h
        unfold processClass at h
        split at h
        · rename_i validator hvalidate
          unfold preverifyClass at h
          split at h
          · rename_i written workspace hwritten
            cases h
            cases hresult
            exact ⟨⟨classFile, owner, header, validator, written, workspace, hparse, hname, hheader,
              hvalidate, hwritten⟩, rfl, rfl⟩
          · cases h
            cases hresult
        · cases h
          cases hresult
        · cases h
          cases hresult

/-- A class is preverified if no step fails. -/
theorem Policy.preverify_of_members {policy : Policy} {bytes : Bytes} {resolver : Resolver}
    {classFile preverified : ClassFile} {owner : BinaryName} {header : ClassHeader}
    {validator : Validator} {workspace : Workspace} (hparse : ClassFile.parse bytes = .ok classFile)
    (hname : classFile.name = .ok owner) (hheader : classFile.header = .ok header)
    (hvalidate : classFile.validate policy (.ofResolver (Resolver.register header resolver)) =
      .ok [] validator)
    (hmembers : ClassPass.members policy owner classFile ⟨classFile.constants, validator.resolver⟩ =
      .ok preverified workspace) :
    policy.preverify bytes resolver = (⟨some owner, .ok preverified.write⟩, workspace.resolver) := by
  unfold preverify
  rw [hparse]
  dsimp only
  rw [hname]
  dsimp only
  rw [hheader]
  change policy.processClass owner classFile (Resolver.register header resolver) = _
  unfold processClass
  rw [hvalidate]
  dsimp only
  unfold preverifyClass
  rw [hmembers]

end Preverification
