import Preverification.Proofs.WrittenCode

/-!
# Classes that are written

The bytes of a class that was preverified are those of a class file, unless something in it is too
long to be counted. All of its code can be decoded and is reached, and nothing is wrong with the
class: it declares what the class had before, and its operations are operations of that class.

* `Policy.MethodRun.decodes`: the code that is written can be decoded with all constants of the
  class.
* `Policy.preverifyMethod_clean`: all code that a method has after it was preverified is clean.
* `Policy.FileRun.admits`: nothing is wrong with a class after it was preverified.
* `preverify_wellFormed`: what is written is a class file that needs no further treatment.
-/

namespace Preverification

/-! ### What stays admitted -/

namespace Policy

variable {policy : Policy} {resolver later : Resolver} {pool pool' : Pool}

/-- A declaration stays admitted when more classes are known and constants are added. -/
theorem AdmitsDeclaration.mono {name descriptor : PoolIndex}
    (h : policy.AdmitsDeclaration resolver pool name descriptor) (hlater : resolver.Later later)
    (hextends : pool.Extends pool') (hbuilt : pool.Built) :
    policy.AdmitsDeclaration later pool' name descriptor := by
  rcases h with ⟨nameText, descriptorText, type, hname, hdescriptor, hof, htype⟩
  exact ⟨nameText, descriptorText, type, hextends.utf8 hbuilt hname,
    hextends.utf8 hbuilt hdescriptor, hof, htype.mono hlater⟩

/-- An operation that is admitted still is with a later resolver and a larger pool. -/
theorem AdmitsOperation.mono {L : Type} {operation : Operation L}
    (h : policy.AdmitsOperation resolver pool operation) (hlater : resolver.Later later)
    (hextends : pool.Extends pool') (hbuilt : pool.Built) :
    policy.AdmitsOperation later pool' operation := by
  -- what a constant names is the same in a larger pool
  have hclass : ∀ {index}, (∃ type, pool.classType index = .ok type ∧
      policy.AdmitsType resolver (.ref type)) →
        ∃ type, pool'.classType index = .ok type ∧ policy.AdmitsType later (.ref type) := by
    rintro index ⟨type, htype, hadmits⟩
    exact ⟨type, hextends.classType hbuilt htype, hadmits.mono hlater⟩
  unfold AdmitsOperation at h ⊢
  cases operation with
  | branch b => exact h
  | step instruction =>
    cases instruction with
    | newRefArray index => exact hclass h
    | newMultiArray index _ => exact hclass h
    | _ => exact h

/-- Copies of operations use no types that these do not use. -/
theorem AdmitsOperation.copied {operation : Operation Label}
    (h : policy.AdmitsOperation resolver pool operation) (names : Label → Label)
    (continuation : Label) :
    policy.AdmitsOperation resolver pool (operation.copied names continuation) := by
  cases operation with
  | step instruction => exact h
  | branch b => cases b <;> exact h

/-- A body that is drawn from another one is admitted with it. -/
theorem AdmitsBody.drawn {body drawn : Body} (h : policy.AdmitsBody resolver pool body)
    (hdrawn : drawn.DrawnFrom body) (hlater : resolver.Later later)
    (hextends : pool.Extends pool') (hbuilt : pool.Built) :
    policy.AdmitsBody later pool' drawn where
  localVariables := by
    intro range hrange
    rcases hdrawn.localVariables range hrange with ⟨original, horiginal, hname, hdescriptor⟩
    rw [← hname, ← hdescriptor]
    exact (h.localVariables original horiginal).mono hlater hextends hbuilt
  operations := by
    intro operation hmem
    rcases hdrawn.operations hmem with ⟨original, names, continuation, horiginal, rfl⟩
    exact ((h.operations original horiginal).mono hlater hextends hbuilt).copied names continuation

/-- A signature that is admitted still is with a later resolver. -/
theorem AdmitsSignature.mono {name : String} {access : AccessFlags} {signature : MethodDescriptor}
    (h : policy.AdmitsSignature resolver name access signature) (hlater : resolver.Later later) :
    policy.AdmitsSignature later name access signature :=
  ⟨h.native, h.finalizer, fun type htype => (h.types type htype).mono hlater⟩

end Policy

/-! ### What stays in its form -/

section Extends

variable {pool pool' : Pool} (hextends : pool.Extends pool') (hbuilt : pool.Built)

include hextends hbuilt

theorem Attribute.Fits.extends {attr : Attribute} (h : attr.Fits pool) : attr.Fits pool' :=
  ⟨hextends.utf8Index hbuilt h.name, h.contents⟩

/-- A member fits with more constants, too. -/
theorem Member.Fits.extends {member : Member} (h : member.Fits pool) : member.Fits pool' where
  name := hextends.utf8Index hbuilt h.name
  descriptor := hextends.utf8Index hbuilt h.descriptor
  attributes := ⟨h.attributes.1, fun attr hattr => (h.attributes.2 attr hattr).extends hextends hbuilt⟩

theorem Identity.Fits.extends {identity : Identity} (h : identity.Fits pool) :
    identity.Fits pool' where
  thisClass := hextends.classIndex hbuilt h.thisClass
  superclass := hextends.optionalClassIndex hbuilt h.superclass
  interfaces := ⟨h.interfaces.1, fun index hindex =>
    hextends.classIndex hbuilt (h.interfaces.2 index hindex)⟩

end Extends

/-! ### Methods -/

namespace Member

variable {method : Member} {pool pool' : Pool}

theorem code_none (h : method.codePosition pool = .ok none) : method.code pool = .ok none :=
  except_bind_ok.2 ⟨none, h, rfl⟩

/-- The code of a method is what its attribute is decoded as. -/
theorem code_some {position : Nat} {attr : Attribute} {code : Code}
    (h : method.codePosition pool = .ok (some position))
    (hattr : method.attributes[position]? = some attr) (hcode : attr.decode Code = .ok code) :
    method.code pool = .ok (some code) := by
  refine except_bind_ok.2 ⟨some position, h, ?_⟩
  rw [Option.bind_some, hattr]
  exact except_bind_ok.2 ⟨code, hcode, rfl⟩

/-- A method has the same code when constants are added. -/
theorem code_extends {found : Option Code} (hextends : pool.Extends pool') (hbuilt : pool.Built)
    (h : method.code pool = .ok found) : method.code pool' = .ok found := by
  rcases except_bind_ok.1 h with ⟨position, hposition, hcode⟩
  exact except_bind_ok.2 ⟨position, codePosition_extends hextends hbuilt hposition, hcode⟩

end Member

/-- A method without code needs nothing but its declaration to be admitted. -/
theorem Policy.AdmitsMethod.mono {policy : Policy} {resolver later : Resolver} {pool middle pool' : Pool}
    {method : Member} (h : policy.AdmitsMethod resolver pool method)
    (hcode : method.code middle = .ok none) (hlater : resolver.Later later)
    (hextends : pool.Extends middle) (hextends' : middle.Extends pool') (hbuilt : pool.Built) :
    policy.AdmitsMethod later pool' method := by
  have hall := hextends.trans hextends'
  rcases h with ⟨name, descriptor, signature, found, hname, hdescriptor, hof, hsignature, hfound, _⟩
  cases (Member.code_extends hextends hbuilt hfound).symm.trans hcode
  exact ⟨name, descriptor, signature, none, hall.utf8 hbuilt hname, hall.utf8 hbuilt hdescriptor, hof,
    hsignature.mono hlater, Member.code_extends hall hbuilt hfound, nofun⟩

namespace Policy

variable {policy : Policy} {owner : BinaryName} {method method' : Member} {pool pool' : Pool}
  {workspace workspace' : Workspace} {resolver later : Resolver}

namespace MethodRun

theorem code_eq (run : policy.MethodRun owner method method' workspace workspace') :
    method.code workspace.constants = .ok (some run.code) :=
  Member.code_some run.position_ok run.attr_ok run.code_ok

/-- The code that is written is held where the code was. -/
theorem holds (run : policy.MethodRun owner method method' workspace workspace')
    (hvalid : workspace.constants.Valid) (hextends : workspace'.constants.Extends pool') :
    method'.attributes[run.position]? = some run.attr' ∧
      pool'.utf8 run.attr'.name = .ok (AttributeContents.name Code) ∧
      run.attr'.contents = AttributeContents.write run.code' ∧
      method'.codePosition pool' = .ok (some run.position) := by
  have hmiddle := run.run.leads.valid hvalid
  rcases (Pool.adds_addAttribute _ _).ok hmiddle _ _ run.replaced_ok with
    ⟨hvalid', hreplaced, hname, hcontents⟩
  have hname' := hextends.utf8 hvalid'.built hname
  have hplace : (method.attributes.set run.position run.attr')[run.position]? = some run.attr' := by
    have hlt := (List.getElem?_eq_some_iff.1 run.attr_ok).1
    rw [List.getElem?_set_self hlt]
  -- the pool has only grown, from the start of the method to the end of the class
  have hall := ((run.run.leads.constants hvalid).trans hreplaced).trans hextends
  rcases Member.codePosition_some.1 run.position_ok with ⟨_, hother⟩
  have hattributes : method'.attributes = method.attributes.set run.position run.attr' :=
    congrArg Member.attributes run.method_eq
  rw [Member.codePosition_some, hattributes]
  refine ⟨hplace, hname', hcontents, ⟨run.attr', hplace, ?_⟩, ?_⟩
  · exact Attribute.holds_true.2 hname'
  · intro other attr hne hattr
    rw [List.getElem?_set_ne (Ne.symm hne)] at hattr
    exact Attribute.holds_extends hall hvalid.built (hother other attr hne hattr)

/-- The attribute that is written is decoded as the code that was written, if that can be counted.
-/
theorem decode_eq (run : policy.MethodRun owner method method' workspace workspace')
    (hvalid : workspace.constants.Valid) (hextends : workspace'.constants.Extends pool')
    (hcounted : run.code'.Counted pool') : run.attr'.decode Code = .ok run.code' := by
  rcases run.holds hvalid hextends with ⟨_, _, hcontents, _⟩
  have hdecode := Attribute.decode_write run.attr'.name Code.inverts_read.restores
    (run.run.fits hvalid hcounted)
  rw [← hcontents] at hdecode
  exact hdecode

/-- The code that is written can be decoded with all constants of the class. -/
theorem decodes (run : policy.MethodRun owner method method' workspace workspace')
    (hvalid : workspace.constants.Valid) (hextends : workspace'.constants.Extends pool')
    (hcounted : run.code'.Counted pool') :
    ∃ body, Body.decode run.code' pool' = .ok body ∧ body.DrawnFrom run.run.decoded ∧
      ∀ (place : Nat) operation, body.nodes[place]? = some (.operation operation) →
        body.Reached place := by
  have hmiddle := run.run.leads.valid hvalid
  have hbehind := (run.leads_middle.constants hmiddle).trans hextends
  rcases run.run.decodes hvalid (hcounted.mono hbehind hmiddle.built) with
    ⟨body, hdecode, hdrawn, hreached⟩
  exact ⟨body, Body.decode_extends hbehind hmiddle.built hdecode, hdrawn, hreached⟩

/-- Nothing is wrong with a method after it was preverified if nothing was wrong before. -/
theorem admits (run : policy.MethodRun owner method method' workspace workspace')
    (h : policy.AdmitsMethod resolver pool method) (hbuilt : pool.Built)
    (hextends : pool.Extends workspace.constants) (hvalid : workspace.constants.Valid)
    (hextends' : workspace'.constants.Extends pool') (hlater : resolver.Later later)
    (hcounted : run.code'.Counted pool') : policy.AdmitsMethod later pool' method' := by
  rcases h with ⟨name, descriptor, signature, found, hname, hdescriptor, hof, hsignature, hcode, hbody⟩
  -- the body that was validated is the one that was preverified
  cases (Member.code_extends hextends hbuilt hcode).symm.trans run.code_eq
  rcases hbody run.code rfl with ⟨before, hbefore, hadmits⟩
  have hsame := (Body.decode_extends hextends hbuilt hbefore).symm.trans run.run.decoded_ok
  cases hsame
  have hall := (hextends.trans ((run.run.leads.constants hvalid).trans
    (run.leads_middle.constants (run.run.leads.valid hvalid)))).trans hextends'
  rcases run.holds hvalid hextends' with ⟨hplace, _, _, hposition⟩
  rcases run.decodes hvalid hextends' hcounted with ⟨body, hdecode, hdrawn, _⟩
  have hcode' := Member.code_some hposition hplace (run.decode_eq hvalid hextends' hcounted)
  refine ⟨name, descriptor, signature, some run.code', ?_, ?_, hof, ?_, hcode', ?_⟩
  · rw [run.method_eq]
    exact hall.utf8 hbuilt hname
  · rw [run.method_eq]
    exact hall.utf8 hbuilt hdescriptor
  · rw [run.method_eq]
    exact hsignature.mono hlater
  · rintro _ ⟨⟩
    exact ⟨body, hdecode, hadmits.drawn hdrawn hlater hall hbuilt⟩

end MethodRun

section Written

variable (h : policy.preverifyMethod owner method workspace = .ok method' workspace')
  (hworkspace : workspace.constants.Valid) (hextends' : workspace'.constants.Extends pool')
  (hcounted : ∀ code code' after, method.code workspace.constants = .ok (some code) →
    policy.preverifyCode owner method code workspace = .ok code' after → code'.Counted pool')

include h hworkspace hextends' hcounted

variable (hbuilt : pool.Built) (hextends : pool.Extends workspace.constants)

include hbuilt hextends

/-- A method stays in its form, with or without code. -/
theorem preverifyMethod_fits (hfits : method.Fits pool) : method'.Fits pool' := by
  have hall := (hextends.trans ((preverifyMethod_leads h).constants hworkspace)).trans hextends'
  have hkept := hfits.extends hall hbuilt
  rcases preverifyMethod_cases h with ⟨_, rfl, _⟩ | ⟨⟨run⟩⟩
  · exact hkept
  · rcases run.holds hworkspace hextends' with ⟨_, hname, hcontents, _⟩
    -- only the attribute of the code is another one
    have hattr' : run.attr'.Fits pool' := by
      refine ⟨Pool.utf8Index_ok.2 ⟨rfl, _, Pool.utf8_ok.1 hname⟩, ?_⟩
      rw [hcontents]
      exact (hcounted _ _ _ run.code_eq run.written_ok).bytes
    rw [run.method_eq]
    refine ⟨hkept.name, hkept.descriptor, ?_, fun attr hattr => ?_⟩
    · rw [List.length_set]
      exact hkept.attributes.1
    · rcases List.mem_or_eq_of_mem_set hattr with hattr | rfl
      · exact hkept.attributes.2 attr hattr
      · exact hattr'

/-- Nothing is wrong with a method after it was preverified if nothing was wrong before. -/
theorem preverifyMethod_admits (hadmits : policy.AdmitsMethod resolver pool method)
    (hlater : resolver.Later later) : policy.AdmitsMethod later pool' method' := by
  rcases preverifyMethod_cases h with ⟨hposition, rfl, rfl⟩ | ⟨⟨run⟩⟩
  · exact hadmits.mono (Member.code_none hposition) hlater hextends hextends' hbuilt
  · exact run.admits hadmits hbuilt hextends hworkspace hextends' hlater
      (hcounted _ _ _ run.code_eq run.written_ok)

end Written

end Policy

/-! ### Access flags -/

namespace ClassFile.PassesOn

variable {policy : Policy} {classFile preverified : ClassFile}

/-- Each field is passed on, or loses its constant value. -/
theorem fields_forall₂ (h : classFile.PassesOn policy preverified) :
    List.Forall₂ (fun field field' => field' = field ∨ field' = field.stripped classFile.constants)
      classFile.fields preverified.fields := by
  rw [h.fields]
  split
  · exact List.forall₂_map_right_iff.2 (List.forall₂_same.2 fun _ _ => .inr rfl)
  · exact List.forall₂_same.2 fun _ _ => .inl rfl

end ClassFile.PassesOn

/-! ### Class files -/

/-- A field fits without its constant value as well. -/
theorem Member.Fits.stripped {pool : Pool} {field : Member} (h : field.Fits pool)
    (constants : Pool) : (field.stripped constants).Fits pool := by
  unfold Member.stripped
  split
  · exact h
  · refine ⟨h.name, h.descriptor, ?_, fun attr hattr => ?_⟩
    · exact Nat.lt_of_le_of_lt (List.length_filter_le _ _) h.attributes.1
    · exact h.attributes.2 attr (List.mem_filter.1 hattr).1

namespace Policy.FileRun

variable {policy : Policy} {bytes : Bytes} {resolver : Resolver}

/-- Code is written for a method once the methods in front of it were preverified. -/
def WritesCode (run : policy.FileRun bytes resolver) (code' : Code) : Prop :=
  ∃ method before code after,
    ComesTo (ClassPass.method policy run.owner) run.classFile.methods
      ⟨run.classFile.constants, run.validator.resolver⟩ method before ∧
    method.code before.constants = .ok (some code) ∧
    policy.preverifyCode run.owner method code before = .ok code' after

/-- Everything that is written can be counted: the bytes of texts and the entries of tables in two
bytes, and the bytes of code in four. -/
structure Counted (run : policy.FileRun bytes resolver) : Prop where
  texts : ∀ constant ∈ run.written.constants.constants.toList, constant.Fits
  codes : ∀ code, run.WritesCode code → code.Counted run.written.constants

theorem constants_eq (run : policy.FileRun bytes resolver) :
    run.written.constants = run.workspace.constants :=
  congrArg ClassFile.constants (ClassPass.members_ok run.written_ok).class_eq

theorem valid (run : policy.FileRun bytes resolver) : run.classFile.constants.Valid :=
  (ClassFile.fits_of_parse run.parse_ok).valid

theorem leads (run : policy.FileRun bytes resolver) :
    Workspace.Leads ⟨run.classFile.constants, run.validator.resolver⟩ run.workspace :=
  (ClassPass.members_ok run.written_ok).leads

theorem extends_constants (run : policy.FileRun bytes resolver) :
    run.classFile.constants.Extends run.written.constants := by
  rw [run.constants_eq]
  exact run.leads.constants run.valid

/-- Each method that is written was preverified, and all that is said about that can be used. -/
theorem exists_method (run : policy.FileRun bytes resolver) (hcounted : run.Counted)
    {method' : Member} (hmethod' : method' ∈ run.written.methods) :
    ∃ method ∈ run.classFile.methods, ∃ before after,
      policy.preverifyMethod run.owner method before = .ok method' after ∧
      before.constants.Valid ∧ run.classFile.constants.Extends before.constants ∧
      after.constants.Extends run.written.constants ∧
      ∀ code code' later, method.code before.constants = .ok (some code) →
        policy.preverifyCode run.owner method code before = .ok code' later →
          code'.Counted run.written.constants := by
  have hclass := ClassPass.members_ok run.written_ok
  rcases forall₂_exists hclass.methods.flip hmethod' with
    ⟨method, hmethod, before, after, hcomes, hbefore, hrun, hafter⟩
  have hvalid := hbefore.valid run.valid
  have hvalid' := (preverifyMethod_leads hrun).valid hvalid
  refine ⟨method, hmethod, before, after, hrun, hvalid, hbefore.constants run.valid, ?_, ?_⟩
  · rw [run.constants_eq]
    exact hafter.constants hvalid'
  · exact fun code code' later hcode hwritten =>
      hcounted.codes code' ⟨method, before, code, later, hcomes, hcode, hwritten⟩

/-- What is written is in the form of a class file. -/
theorem fits (run : policy.FileRun bytes resolver) (hcounted : run.Counted) : run.written.Fits := by
  have hfits := ClassFile.fits_of_parse run.parse_ok
  have hpasses := run.passesOn
  have hbuilt := run.valid.built
  have hextends := run.extends_constants
  constructor
  · rw [run.constants_eq]
    exact run.leads.valid run.valid
  · exact hcounted.texts
  · rw [hpasses.identity]
    exact hfits.identity.extends hextends hbuilt
  · -- fields lose attributes at most
    have hfields := hpasses.fields_forall₂
    refine ⟨hfields.length_eq ▸ hfits.fields.1, fun field' hfield' => ?_⟩
    rcases forall₂_exists hfields.flip hfield' with ⟨field, hfield, hsame⟩
    have hkept := (hfits.fields.2 field hfield).extends hextends hbuilt
    rcases hsame with rfl | rfl
    · exact hkept
    · exact hkept.stripped _
  · refine ⟨hpasses.methods.length_eq ▸ hfits.methods.1, fun method' hmethod' => ?_⟩
    rcases run.exists_method hcounted hmethod' with
      ⟨method, hmethod, before, after, hrun, hbefore, hfront, hbehind, hcodes⟩
    exact preverifyMethod_fits hrun hbefore hbehind hcodes hbuilt hfront (hfits.methods.2 method hmethod)
  · rw [hpasses.attributes]
    exact ⟨hfits.attributes.1, fun attr hattr =>
      (hfits.attributes.2 attr hattr).extends hextends hbuilt⟩

/-- Nothing is wrong with a class after it was preverified. -/
theorem admits (run : policy.FileRun bytes resolver) (hcounted : run.Counted) :
    policy.AdmitsClass run.workspace.resolver run.written := by
  rcases Policy.validate_admits run.validate_ok with ⟨hadmits, _⟩
  have hbuilt := run.valid.built
  have hlater := run.leads.resolver
  have hextends := run.extends_constants
  constructor
  · rcases hadmits.name with ⟨owner, howner⟩
    refine ⟨owner, ?_⟩
    unfold ClassFile.name
    rw [run.passesOn.identity]
    exact hextends.binaryName hbuilt howner
  · intro field' hfield'
    rcases forall₂_exists run.passesOn.fields_forall₂.flip hfield' with ⟨field, hfield, hsame⟩
    have hkept := (hadmits.fields field hfield).mono hlater hextends hbuilt
    -- a field is kept, or loses attributes, which no policy reads
    rcases hsame with rfl | rfl
    · exact hkept
    · rwa [Member.stripped_name, Member.stripped_descriptor]
  · intro method' hmethod'
    rcases run.exists_method hcounted hmethod' with
      ⟨method, hmethod, before, after, hrun, hbefore, hfront, hbehind, hcodes⟩
    exact preverifyMethod_admits hrun hbefore hbehind hcodes hbuilt hfront
      (hadmits.methods method hmethod) hlater

end Policy.FileRun

end Preverification
