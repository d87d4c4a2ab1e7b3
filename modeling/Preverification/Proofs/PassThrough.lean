import Preverification.Proofs.ClassFiles
import Preverification.Proofs.CopiedCode
import Preverification.Proofs.MethodRuns
import Preverification.Proofs.MoreConstants
import Preverification.Proofs.Validations

/-!
# What is passed on

Preverification writes code anew, and where the policy asks for it leaves out constant values.
Everything else in a class is passed on as it is. Within code these are the attributes that are
neither debug tables nor stack maps.

* `Policy.CodeRun.otherAttributes_eq`: the attributes of code that are no tables are passed on.
* `Policy.MethodRun.recodes`: of a method, nothing but its code is written anew.
* `preverify_passesOn`: what is not rewritten is passed on, for every class that is preverified.
* `holdsConstant_passesOn`: a class whose constant value goes.
-/

namespace Preverification

/-! ### Attributes by their names -/

namespace Attribute

variable {attr : Attribute} {pool pool' : Pool} {name : String} {names : List String}

/-- Whether an attribute has one of these names. -/
def isNamed (names : List String) (pool : Pool) (attr : Attribute) : Bool :=
  match attr.nameIn pool with
  | .ok name => names.contains name
  | .error _ => false

theorem isNamed_eq (h : attr.nameIn pool = .ok name) :
    attr.isNamed names pool = names.contains name := by
  unfold isNamed
  rw [h]

/-- The name of an attribute is the same in a pool with more constants. -/
theorem isNamed_extends (hextends : pool.Extends pool') (hbuilt : pool.Built)
    (h : attr.nameIn pool = .ok name) : attr.isNamed names pool' = attr.isNamed names pool := by
  rw [isNamed_eq h, isNamed_eq (hextends.utf8 hbuilt h)]

/-- Attributes with other names are all kept. -/
theorem filter_not_named {attributes : List Attribute} (h : ∀ attr ∈ attributes, ∃ name,
    attr.nameIn pool = .ok name ∧ name ∉ names) :
    attributes.filter (fun attr => !attr.isNamed names pool) = attributes := by
  refine List.filter_eq_self.2 fun attr hattr => ?_
  rcases h attr hattr with ⟨name, hname, hother⟩
  rw [isNamed_eq hname]
  simp [hother]

/-- Attributes with those names all go. -/
theorem filter_named {attributes : List Attribute} (h : ∀ attr ∈ attributes, ∃ name ∈ names,
    attr.nameIn pool = .ok name) : attributes.filter (fun attr => !attr.isNamed names pool) = [] := by
  refine List.filter_eq_nil_iff.2 fun attr hattr => ?_
  rcases h attr hattr with ⟨name, hnamed, hname⟩
  rw [isNamed_eq hname]
  simp [hnamed]

/-- The contents are known by the name of the attribute. -/
theorem holds_true {α : Type} [AttributeContents α] : attr.holds α pool = .ok true ↔
    attr.nameIn pool = .ok (AttributeContents.name α) := by
  unfold holds
  rw [except_bind_ok]
  constructor
  · rintro ⟨found, hfound, hanswer⟩
    rw [hfound, eq_of_beq (Except.ok.inj hanswer)]
  · exact fun h => ⟨_, h, congrArg Except.ok (beq_self_eq_true _)⟩

end Attribute

namespace CodeAttributes

variable {pool : Pool} {attributes : List Attribute} {parts : CodeAttributes}

/-- Attributes that are sorted have names. -/
theorem exists_name (h : ofList pool attributes = .ok parts) :
    ∀ attr ∈ attributes, ∃ name, attr.nameIn pool = .ok name := by
  rcases except_bind_ok.1 h with ⟨all, hall, _⟩
  intro attr hattr
  rcases forall₂_exists (except_mapM_ok hall) hattr with ⟨part, _, hpart⟩
  unfold ofAttribute at hpart
  rcases except_bind_ok.1 hpart with ⟨_, hholds, _⟩
  rcases except_bind_ok.1 hholds with ⟨name, hname, _⟩
  exact ⟨name, hname⟩

/-- An attribute that is no table is kept as it is. -/
theorem ofAttribute_others_eq {attr : Attribute} (h : ofAttribute pool attr = .ok parts) :
    parts.others = [attr].filter fun attr => !attr.isNamed tableNames pool := by
  cases hname : attr.nameIn pool with
  | error error =>
    unfold ofAttribute Attribute.holds at h
    rw [hname] at h
    cases h
  | ok name =>
    rw [List.filter_singleton, Attribute.isNamed_eq hname]
    by_cases htable : name ∈ tableNames
    · rw [ofAttribute_table hname htable h]
      simp [htable]
    · rcases ofAttribute_others hname htable ▸ h with ⟨⟩
      simp [htable]

/-- All attributes are passed on but those with the names of tables. -/
theorem others_eq (h : ofList pool attributes = .ok parts) :
    parts.others = attributes.filter fun attr => !attr.isNamed tableNames pool := by
  rcases except_bind_ok.1 h with ⟨all, hall, hparts⟩
  cases hparts
  have hsorted := except_mapM_ok hall
  clear h hall
  change all.flatMap others = _
  induction hsorted with
  | nil => rfl
  | cons hattr _ ih =>
    rw [List.flatMap_cons, ih, ofAttribute_others_eq hattr, ← List.filter_append]
    rfl

end CodeAttributes

/-- The attributes of code that are neither debug tables nor stack maps. -/
def Code.otherAttributes (pool : Pool) (code : Code) : List Attribute :=
  code.attributes.filter fun attr => !attr.isNamed CodeAttributes.tableNames pool

/-- A decoded body keeps the attributes of its code that are no tables, and all of them had names.
-/
theorem Body.decode_attributes {code : Code} {pool : Pool} {body : Body}
    (h : decode code pool = .ok body) :
    body.attributes = code.otherAttributes pool ∧
      ∀ attr ∈ code.attributes, ∃ name, attr.nameIn pool = .ok name := by
  rcases decode_ok.1 h with ⟨decoded, parts, _, _, _, hparts, rfl⟩
  exact ⟨CodeAttributes.others_eq hparts, CodeAttributes.exists_name hparts⟩

/-- The attributes of code have the same names in a pool with more constants. -/
theorem Code.otherAttributes_extends {code : Code} {pool pool' : Pool}
    (hextends : pool.Extends pool') (hbuilt : pool.Built)
    (hnames : ∀ attr ∈ code.attributes, ∃ name, attr.nameIn pool = .ok name) :
    code.otherAttributes pool' = code.otherAttributes pool := by
  refine List.filter_congr fun attr hattr => ?_
  rcases hnames attr hattr with ⟨name, hname⟩
  rw [Attribute.isNamed_extends hextends hbuilt hname]

/-! ### Attributes of code -/

namespace Layout

variable {layout : Layout} {body : Body} {extra : List Attribute} {code : Code} {pool : Pool}

/-- What is written behind the attributes of a body are tables. -/
theorem Writes.otherAttributes_eq (h : layout.Writes body extra code pool) (hp : pool.Formed)
    (hbody : ∀ attr ∈ body.attributes, ∃ name, attr.nameIn pool = .ok name ∧
      name ∉ CodeAttributes.tableNames)
    (hextra : ∀ attr ∈ extra, ∃ name ∈ Pool.frameNames, attr.nameIn pool = .ok name) :
    code.otherAttributes pool = body.attributes ∧
      ∀ attr ∈ code.attributes, ∃ name, attr.nameIn pool = .ok name := by
  rcases h with ⟨lines, localVariables, variableTypes, hlines, hvariables, htypes, rfl⟩
  -- all that is written for a body, and for frames, is named as a table
  have htables : ∀ attr ∈ lines ++ localVariables ++ variableTypes ++ extra,
      ∃ name ∈ CodeAttributes.tableNames, attr.nameIn pool = .ok name := by
    intro attr hattr
    simp only [List.mem_append] at hattr
    rcases hattr with ((hattr | hattr) | hattr) | hattr
    · exact ⟨_, by decide, hlines.utf8 hp attr hattr⟩
    · exact ⟨_, by decide, hvariables.utf8 hp attr hattr⟩
    · exact ⟨_, by decide, htypes.utf8 hp attr hattr⟩
    · rcases hextra attr hattr with ⟨name, hname, hutf8⟩
      have hframes : Pool.frameNames ⊆ CodeAttributes.tableNames := by decide
      exact ⟨name, hframes hname, hutf8⟩
  have hattributes : body.attributes ++ lines ++ localVariables ++ variableTypes ++ extra =
      body.attributes ++ (lines ++ localVariables ++ variableTypes ++ extra) := by
    simp only [List.append_assoc]
  unfold Code.otherAttributes
  dsimp only
  rw [hattributes, List.filter_append]
  constructor
  · rw [Attribute.filter_not_named hbody, Attribute.filter_named htables, List.append_nil]
  · intro attr hattr
    rcases List.mem_append.1 hattr with hattr | hattr
    · rcases hbody attr hattr with ⟨name, hname, _⟩
      exact ⟨name, hname⟩
    · rcases htables attr hattr with ⟨name, _, hname⟩
      exact ⟨name, hname⟩

end Layout

namespace Emission.Run

variable {analysis : Analysis} {entry : TypeState} {format : FrameFormat}
  {draft draft' : MethodDraft} {code : Code}

/-- There are no frames among attributes that are passed on. -/
theorem attributes_eq (run : Run analysis entry format draft draft' code)
    (hnames : ∀ attr ∈ draft.body.attributes, ∃ name, attr.nameIn draft.constants = .ok name ∧
      name ∉ CodeAttributes.tableNames) : draft'.body.attributes = draft.body.attributes := by
  -- leaving out unreachable code leaves attributes alone
  have hpruned : run.pruned.attributes = draft.body.attributes := by
    have hremoved := run.pruned_ok
    unfold Body.removeUnreachable at hremoved
    rcases except_bind_ok.1 hremoved with ⟨_, _, hbody⟩
    rw [← Except.ok.inj hbody]
  -- and none of them is named as frames are
  have hfilter : run.pruned.attributes.filterM
      (fun attr => return !(← holdsFrames draft.constants attr)) =
        .ok (run.pruned.attributes.filter fun _ => true) := by
    rw [hpruned]
    refine except_filterM_eq fun attr hattr => ?_
    rcases hnames attr hattr with ⟨name, hname, hother⟩
    have htables : name ≠ "StackMapTable" ∧ name ≠ "StackMap" := by
      constructor
      · rintro rfl
        exact hother (by decide)
      · rintro rfl
        exact hother (by decide)
    have hholds : holdsFrames draft.constants attr = .ok false :=
      except_bind_ok.2 ⟨false, CodeAttributes.holds_ok hname (beq_false_of_ne htables.1),
        except_bind_ok.2 ⟨false, CodeAttributes.holds_ok hname (beq_false_of_ne htables.2), rfl⟩⟩
    exact except_bind_ok.2 ⟨false, hholds, rfl⟩
  rw [run.body_eq]
  change run.attributes = _
  rw [Except.ok.inj (run.attributes_ok.symm.trans hfilter), List.filter_true, hpruned]

end Emission.Run

namespace Policy

variable {policy : Policy} {owner : BinaryName} {method method' : Member} {code code' : Code}
  {workspace workspace' : Workspace}

/-- The attributes that are passed on are neither debug tables nor stack maps. -/
theorem CodeRun.attributes_named
    (run : policy.CodeRun owner method code code' workspace workspace') :
    ∀ attr ∈ run.inlined.labelAllocations.attributes, ∃ name,
      attr.nameIn workspace.constants = .ok name ∧ name ∉ CodeAttributes.tableNames := by
  rcases Body.decode_ok.1 run.decoded_ok with ⟨_, parts, _, _, _, hparts, hbody⟩
  rw [(Body.inline_drawnFrom run.inlined_ok).labelAllocations.attributes, hbody]
  exact CodeAttributes.others_ok hparts

/-- The attributes that are no tables are the same in front of preverification and behind it. -/
theorem CodeRun.otherAttributes_eq
    (run : policy.CodeRun owner method code code' workspace workspace')
    (hvalid : workspace.constants.Valid) :
    code'.otherAttributes workspace'.constants = code.otherAttributes workspace.constants ∧
      ∀ attr ∈ code'.attributes, ∃ name, attr.nameIn workspace'.constants = .ok name := by
  have hlabeled : run.inlined.labelAllocations.attributes =
      code.otherAttributes workspace.constants :=
    (Body.inline_drawnFrom run.inlined_ok).labelAllocations.attributes.trans
      (Body.decode_attributes run.decoded_ok).1
  have hnames := run.attributes_named
  rcases run.run.pools hvalid with ⟨hnamed, hextends, hvalid', hextends', hextra⟩
  have hkept : run.draft.body.attributes = run.inlined.labelAllocations.attributes :=
    run.run.attributes_eq hnames
  rw [run.constants_eq, ← hlabeled, ← hkept]
  refine (run.run.writes hvalid).otherAttributes_eq hvalid'.toFormed (fun attr hattr => ?_) hextra
  rw [hkept] at hattr
  rcases hnames attr hattr with ⟨name, hname, hother⟩
  exact ⟨name, (hextends.trans hextends').utf8 hvalid.built hname, hother⟩

end Policy

/-! ### Members -/

namespace Attribute

/-- An attribute holds code that is written anew in another one. It has the same name, which may be
stored elsewhere: at the first place where the pool has it. All attributes of the code are kept but
debug tables and stack maps. -/
structure Recodes (pool pool' : Pool) (attr attr' : Attribute) : Prop where
  name : attr.nameIn pool = .ok (AttributeContents.name Code)
  name' : pool.firstIndex (.utf8 (AttributeContents.name Code)) = some attr'.name.toNat
  contents : ∃ code code' : Code, attr.decode Code = .ok code ∧
    attr'.contents = AttributeContents.write code' ∧
    code'.otherAttributes pool' = code.otherAttributes pool

end Attribute

/-- A method is passed on: its attributes stay in their places as they are, but for the code. -/
structure Member.Recodes (pool pool' : Pool) (method method' : Member) : Prop where
  access : method'.access = method.access
  name : method'.name = method.name
  descriptor : method'.descriptor = method.descriptor
  attributes : List.Forall₂ (fun attr attr' => attr' = attr ∨ attr.Recodes pool pool' attr')
    method.attributes method'.attributes

/-- A field without its constant value, unless it is static. -/
def Member.stripped (pool : Pool) (field : Member) : Member :=
  if field.access.has AccessFlags.static then field
  else { field with
    attributes := field.attributes.filter fun attr => !attr.isNamed [constantValueName] pool }

@[simp] theorem Member.stripped_name (field : Member) (pool : Pool) :
    (field.stripped pool).name = field.name := by
  unfold stripped
  split <;> rfl

@[simp] theorem Member.stripped_descriptor (field : Member) (pool : Pool) :
    (field.stripped pool).descriptor = field.descriptor := by
  unfold stripped
  split <;> rfl

/-- What is left of a field is the field without the attribute that holds its constant value. -/
theorem Member.stripConstant_ok {pool : Pool} {field field' : Member}
    (h : field.stripConstant pool = .ok field')
    (hnames : ∀ attr ∈ field.attributes, ∃ name, attr.nameIn pool = .ok name) :
    field' = field.stripped pool := by
  unfold stripConstant at h
  unfold stripped
  split at h
  · rename_i hstatic
    rw [if_pos hstatic]
    exact (Except.ok.inj h).symm
  · rename_i hstatic
    rw [if_neg hstatic]
    rcases except_bind_ok.1 h with ⟨attributes, hattributes, hfield⟩
    have hpicked : ∀ attr ∈ field.attributes,
        (do return (← attr.nameIn pool) != constantValueName) =
          Except.ok (ε := StructuralError) (!attr.isNamed [constantValueName] pool) := by
      intro attr hattr
      rcases hnames attr hattr with ⟨name, hname⟩
      rw [hname, Attribute.isNamed_eq hname, List.contains_cons, List.contains_nil, Bool.or_false]
      rfl
    rw [← Except.ok.inj hfield, Except.ok.inj (hattributes.symm.trans (except_filterM_eq hpicked))]

/-- The code of a method is at the same position in a pool with more constants. -/
theorem Member.codePosition_extends {method : Member} {pool pool' : Pool} {position : Option Nat}
    (hextends : pool.Extends pool') (hbuilt : pool.Built)
    (h : method.codePosition pool = .ok position) : method.codePosition pool' = .ok position := by
  cases position with
  | none =>
    have hall := codePosition_none.1 h
    exact codePosition_none.2 fun attr hattr =>
      Attribute.holds_extends hextends hbuilt (hall attr hattr)
  | some position =>
    rcases codePosition_some.1 h with ⟨⟨attr, hattr, hholds⟩, hother⟩
    refine codePosition_some.2 ⟨⟨attr, hattr, Attribute.holds_extends hextends hbuilt hholds⟩, ?_⟩
    exact fun other found hne hfound =>
      Attribute.holds_extends hextends hbuilt (hother other found hne hfound)

/-- A method whose code can be decoded has it at a position, unless it has none. -/
theorem Member.Decodes.exists_code {method : Member} {pool : Pool} (h : method.Decodes pool) :
    ∃ position, method.codePosition pool = .ok position ∧
      ∀ place attr, position = some place → method.attributes[place]? = some attr →
        ∃ code body, attr.decode Code = .ok code ∧ Body.decode code pool = .ok body := by
  rcases h with ⟨found, hfound, hbody⟩
  rcases except_bind_ok.1 hfound with ⟨position, hposition, hcode⟩
  refine ⟨position, hposition, ?_⟩
  rintro place attr rfl hattr
  rw [Option.bind_some, hattr] at hcode
  rcases except_bind_ok.1 hcode with ⟨code, hdecode, hsome⟩
  rcases hbody code (Except.ok.inj hsome).symm with ⟨body, hbody⟩
  exact ⟨code, body, hdecode, hbody⟩

namespace Policy

variable {policy : Policy} {owner : BinaryName} {method method' : Member}
  {workspace workspace' : Workspace} {pool pool' : Pool}

/-- The code of a method is written anew, and its other attributes are passed on. -/
theorem MethodRun.recodes (run : policy.MethodRun owner method method' workspace workspace')
    (hvalid : pool.Valid) (hworkspace : workspace.constants.Valid)
    (hextends : pool.Extends workspace.constants) (hdecodes : method.Decodes pool)
    (hlater : workspace'.constants.Extends pool') : run.attr.Recodes pool pool' run.attr' := by
  rcases hdecodes.exists_code with ⟨position, hposition, hcode⟩
  have hsame := (Member.codePosition_extends hextends hvalid.built hposition).symm.trans
    run.position_ok
  cases hsame
  rcases hcode _ _ rfl run.attr_ok with ⟨code, body, hdecode, hbody⟩
  cases hdecode.symm.trans run.code_ok
  have hname : run.attr.nameIn pool = .ok (AttributeContents.name Code) := by
    rcases (Member.codePosition_some.1 hposition).1 with ⟨attr, hattr, hholds⟩
    cases hattr.symm.trans run.attr_ok
    exact Attribute.holds_true.1 hholds
  rcases hvalid.toFormed.noted.exists_index hvalid.built hname with ⟨first, hnoted, hfirst⟩
  -- the name of the attribute is known already, so the pool stays as it is
  have hadd := Pool.addUtf8_of_noted
    ((hextends.trans (run.run.leads.constants hworkspace)).texts hnoted)
  rcases state_bind_ok.1 run.replaced_ok with ⟨index, _, hindex, hpure⟩
  cases hadd.symm.trans hindex
  rcases state_pure_ok.1 hpure with ⟨hattr', hconstants⟩
  rcases run.run.otherAttributes_eq hworkspace with ⟨hothers, hnames⟩
  have hmiddle := run.run.leads.valid hworkspace
  refine ⟨hname, ?_, run.code, run.code', run.code_ok, ?_, ?_⟩
  · rw [← hattr']
    exact hfirst
  · rw [← hattr']
  · rw [← Code.otherAttributes_extends hextends hvalid.built (Body.decode_attributes hbody).2,
      ← hothers]
    rw [← hconstants] at hlater
    exact Code.otherAttributes_extends hlater hmiddle.built hnames

/-- A method that is preverified has at most its code replaced; without code it is passed on as it
is. -/
theorem preverifyMethod_recodes
    (h : policy.preverifyMethod owner method workspace = .ok method' workspace')
    (hvalid : pool.Valid) (hworkspace : workspace.constants.Valid)
    (hextends : pool.Extends workspace.constants) (hdecodes : method.Decodes pool)
    (hlater : workspace'.constants.Extends pool') : method.Recodes pool pool' method' := by
  rcases preverifyMethod_cases h with ⟨_, rfl, _⟩ | ⟨⟨run⟩⟩
  · exact ⟨rfl, rfl, rfl, List.forall₂_same.2 fun _ _ => .inl rfl⟩
  · rw [run.method_eq]
    exact ⟨rfl, rfl, rfl, forall₂_set (fun _ => .inl rfl) run.attr_ok
      (.inr (run.recodes hvalid hworkspace hextends hdecodes hlater))⟩

end Policy

/-! ### Classes -/

/-- What one class has in common with the class that is made of it. -/
structure ClassFile.PassesOn (policy : Policy) (classFile preverified : ClassFile) : Prop where
  version : preverified.version = classFile.version
  identity : preverified.identity = classFile.identity
  attributes : preverified.attributes = classFile.attributes
  -- new constants come behind the others
  entries : classFile.constants.entries <+: preverified.constants.entries
  constants : ∀ index constant, classFile.constants.get? index = some constant →
    preverified.constants.get? index = some constant
  fields : preverified.fields = if policy.stripsInstanceConstants
    then classFile.fields.map (Member.stripped classFile.constants) else classFile.fields
  methods : List.Forall₂ (Member.Recodes classFile.constants preverified.constants)
    classFile.methods preverified.methods

/-- The attributes of members have names. -/
theorem Member.Fits.exists_name {pool : Pool} {member : Member} (h : member.Fits pool) :
    ∀ attr ∈ member.attributes, ∃ name, attr.nameIn pool = .ok name := by
  intro attr hattr
  rcases (Pool.utf8Index_ok.1 (h.attributes.2 attr hattr).name).2 with ⟨name, hname⟩
  exact ⟨name, Pool.utf8_ok.2 hname⟩

/-- Members are treated one by one, in order, while constants are added to the pool. -/
theorem ClassRun.passesOn {policy : Policy} {owner : BinaryName} {resolver : Resolver}
    {classFile preverified : ClassFile} {workspace : Workspace}
    (run : ClassRun policy owner resolver classFile preverified workspace)
    (hfits : classFile.Fits) (hdecodes : ∀ method ∈ classFile.methods,
      method.Decodes classFile.constants) : classFile.PassesOn policy preverified := by
  have hvalid := hfits.valid
  have hextends : classFile.constants.Extends workspace.constants := run.leads.constants hvalid
  have hconstants : preverified.constants = workspace.constants := by rw [run.class_eq]
  refine ⟨by rw [run.class_eq], by rw [run.class_eq], by rw [run.class_eq], ?_, ?_, ?_, ?_⟩
  · rw [hconstants]
    exact hextends.entries_prefix
  · rw [hconstants]
    exact fun _ _ => hextends.get? hvalid.built
  · have hfields := run.fields
    split
    · rename_i hstrips
      rw [if_pos hstrips] at hfields
      have hall := except_mapM_ok hfields
      have hstripped := except_mapM_eq_map (f := (·.stripConstant classFile.constants))
        (g := Member.stripped classFile.constants) fun field hfield => by
          rcases forall₂_exists hall hfield with ⟨field', _, hfield'⟩
          rw [hfield', Member.stripConstant_ok hfield' (hfits.fields.2 field hfield).exists_name]
      exact Except.ok.inj (hfields.symm.trans hstripped)
    · rename_i hstrips
      rwa [if_neg hstrips] at hfields
  · rw [hconstants]
    refine ((List.forall₂_and_left _ _).2 ⟨hdecodes, run.methods⟩).imp ?_
    -- before the method and after it, constants were only added
    rintro method method' ⟨hdecode, before, after, _, hbefore, hmethod, hafter⟩
    have hworkspace := hbefore.valid hvalid
    exact Policy.preverifyMethod_recodes hmethod hvalid hworkspace (hbefore.constants hvalid)
      hdecode (hafter.constants ((Policy.preverifyMethod_leads hmethod).valid hworkspace))

/-- A class file that was read and written passes on what it does not rewrite. -/
theorem Policy.FileRun.passesOn {policy : Policy} {bytes : Bytes} {resolver : Resolver}
    (run : policy.FileRun bytes resolver) : run.classFile.PassesOn policy run.written := by
  rcases validate_admits run.validate_ok with ⟨hadmits, _⟩
  exact (ClassPass.members_ok run.written_ok).passesOn (ClassFile.fits_of_parse run.parse_ok)
    fun method hmethod => (hadmits.methods method hmethod).decodes

/-- **What is not rewritten is passed on**: a class that is preverified is written with the version,
the place in the hierarchy and the attributes that it was read with. Its constants keep their
indices, its fields lose constant values at most, and its methods keep everything but their code;
the code keeps all attributes but debug tables and stack maps. -/
theorem preverify_passesOn {policy : Policy} {bytes output : Bytes} {resolver : Resolver}
    (h : (policy.preverify bytes resolver).1.result = .ok output) :
    ∃ classFile preverified : ClassFile, ClassFile.parse bytes = .ok classFile ∧
      output = preverified.write ∧ classFile.PassesOn policy preverified := by
  rcases Policy.exists_fileRun rfl h with ⟨run, houtput, _⟩
  exact ⟨run.classFile, run.written, run.parse_ok, houtput, run.passesOn⟩

/-! ### A class with a constant value -/

/-- Code that returns at once. -/
def returns : Code := ⟨0, 0, [177], [], []⟩

/-- The body of `returns`. -/
def returnsBody : Body where
  maxStack := 0
  maxLocals := 0
  nodes := [.operation (.branch .returnVoid)]
  handlers := []
  localVariables := []
  variableTypes := []
  attributes := []
  issued := 0

/-- The constants of `holdsConstant`. -/
def holdsConstantPool : Pool :=
  .ofConstants [.utf8 "A", .classRef 1, .utf8 "Code", .utf8 "f", .utf8 "I", .utf8 "ConstantValue",
    .integer 7, .utf8 "m", .utf8 "()V"]

/-- The static method m of `holdsConstant`. -/
def returnsMethod : Member := ⟨⟨8⟩, 8, 9, [⟨3, AttributeContents.write returns⟩]⟩

/-- The class A with a field that has a constant value without being static, and a method that
returns at once. -/
def holdsConstant : ClassFile where
  version := ⟨0, 49⟩
  constants := holdsConstantPool
  identity := ⟨⟨0x21⟩, 2, none, []⟩
  fields := [⟨⟨0⟩, 4, 5, [⟨6, [0, 7]⟩]⟩]
  methods := [returnsMethod]
  attributes := []

theorem holdsConstant_fits : holdsConstant.Fits where
  valid := ⟨⟨Pool.built_ofConstants _, by decide +kernel⟩, by decide +kernel⟩
  constants := by
    have hconstants : holdsConstant.constants.constants.toList =
        [.utf8 "A", .classRef 1, .utf8 "Code", .utf8 "f", .utf8 "I", .utf8 "ConstantValue",
          .integer 7, .utf8 "m", .utf8 "()V"] := Pool.toList_ofConstants _
    rw [hconstants]
    simp only [List.forall_mem_cons, List.not_mem_nil, false_imp_iff, implies_true, Constant.Fits]
    decide +kernel
  identity := ⟨by decide +kernel, by decide +kernel, by decide, nofun⟩
  fields := by
    refine ⟨by decide, List.forall_mem_singleton.2 ⟨by decide +kernel, by decide +kernel, ?_⟩⟩
    exact ⟨by decide, List.forall_mem_singleton.2 ⟨by decide +kernel, by decide +kernel⟩⟩
  methods := by
    refine ⟨by decide, List.forall_mem_singleton.2 ⟨by decide +kernel, by decide +kernel, ?_⟩⟩
    exact ⟨by decide, List.forall_mem_singleton.2 ⟨by decide +kernel, by decide +kernel⟩⟩
  attributes := ⟨by decide, nofun⟩

theorem holdsConstant_parse : ClassFile.parse holdsConstant.write = .ok holdsConstant :=
  ClassFile.parse_ok.2 ⟨holdsConstant, rfl, holdsConstant_fits, rfl⟩

/-- The name of `holdsConstant`. -/
def holdsConstantName : BinaryName := ⟨"A", by decide⟩

theorem returnsBody_layout :
    returnsBody.layout = .ok ⟨[(.operation (.branch .returnVoid), 0, false)], 1, ∅⟩ := by
  have hsettle : Layout.settle returnsBody.nodes [false] = [false] := by
    rw [Layout.settle]
    rfl
  have hlongs : (returnsBody.nodes.map fun _ => false) = [false] := rfl
  unfold Body.layout
  rw [hlongs, hsettle]
  rfl

/-- The code is decoded as a body of one operation. -/
theorem returns_decode (pool : Pool) : Body.decode returns pool = .ok returnsBody := by
  have hplaces := Body.layout_ok returnsBody_layout
  have hleads : Layout.Leads ⟨[(.operation (.branch .returnVoid), 0, false)], 1, ∅⟩ returnsBody
      pool := by
    intro operation hmem
    cases List.mem_singleton.1 hmem
    exact ⟨trivial, nofun⟩
  have hbytes : DecodedCode.ofBytes pool returns.bytecode =
      .ok ⟨1, [(0, .branch .returnVoid)], .ofList [0]⟩ := hplaces.ofBytes_eq hleads rfl
  have htable : Body.labelTable returns ⟨1, [(0, .branch .returnVoid)], .ofList [0]⟩ {} =
      .ofList [] := by
    simp [Body.labelTable, Body.labelledOffsets, Body.labelOffsets, Body.referencedOffsets, returns,
      Operation.targets, Branch.targets]
  have hexceptions : ∀ entry ∈ returns.exceptions,
      DecodedCode.checkException ⟨1, [(0, .branch .returnVoid)], .ofList [0]⟩ entry = .ok () :=
    fun _ hentry => absurd hentry List.not_mem_nil
  refine Body.decode_ok.2 ⟨_, {}, hbytes, rfl, hexceptions, rfl, ?_⟩
  unfold Body.assemble
  rw [htable]
  simp [Body.assembleWith, Body.operationNodes, Body.linesByOffset, Operation.map, Branch.map,
    returns, returnsBody]

/-- Nothing is known in front of the operation, as there are no locals. -/
theorem returnsBody_analyze (pool : Pool) (owner : BinaryName) (resolver : Resolver) :
    returnsBody.analyze ⟨[], ∅⟩ ⟨pool, owner, none⟩ resolver =
      .ok ⟨#[some ⟨[], ∅⟩], 0, 0⟩ resolver := by
  have hproblem : AnalysisProblem.ofBody returnsBody ⟨pool, owner, none⟩ =
      .ok ⟨⟨#[.operation (.branch .returnVoid)], ∅, #[some 0, none], #[0, 1]⟩, [],
        ⟨pool, owner, none⟩⟩ := rfl
  refine Body.analyze_of_solve ⟨⟨#[some ⟨[], ∅⟩], 0, 0⟩, [], resolver⟩ hproblem rfl
    fun visits hle => ?_
  rcases Nat.exists_eq_add_of_le' hle with ⟨more, rfl⟩
  exact AnalysisProblem.solve_of_visit _ rfl (AnalysisProblem.visit_of_merges
    (.branch .returnVoid) ⟨[], ∅⟩ ⟨[], ∅⟩ [] rfl rfl rfl rfl rfl) (AnalysisProblem.solve_done rfl more)

theorem returnsBody_frameTargets : returnsBody.frameTargets = .ok [] := by
  have hflow : returnsBody.flow =
      .ok ⟨#[.operation (.branch .returnVoid)], ∅, #[some 0, none], #[0, 1]⟩ := rfl
  have hlabels : returnsBody.jumpLabels = [] := rfl
  unfold Body.frameTargets
  rw [hflow]
  simp [hlabels, bind, Except.bind, pure, Except.pure]

/-- The code is written as it was. -/
theorem returnsBody_emit (format : FrameFormat) (pool : Pool) :
    Emission.emit ⟨#[some ⟨[], ∅⟩], 0, 0⟩ ⟨[], ∅⟩ format ⟨returnsBody, pool⟩ =
      .ok returns ⟨returnsBody, pool⟩ := by
  have hpruned : returnsBody.removeUnreachable ⟨#[some ⟨[], ∅⟩], 0, 0⟩ = .ok returnsBody := rfl
  have hraised : Emission.raiseSlots ⟨#[some ⟨[], ∅⟩], 0, 0⟩ ⟨returnsBody, pool⟩ =
      .ok () ⟨returnsBody, pool⟩ := rfl
  have hdropped : Emission.dropFrames ⟨returnsBody, pool⟩ = .ok () ⟨returnsBody, pool⟩ := rfl
  have hwritten : (Emission.frameStates ⟨#[some ⟨[], ∅⟩], 0, 0⟩ [] [0]
      ⟨[(.operation (.branch .returnVoid), 0, false)], 1, ∅⟩).mapM (fun found =>
        Emission.placeFrame ⟨[(.operation (.branch .returnVoid), 0, false)], 1, ∅⟩ found.1 found.2)
          pool = .ok [] pool := by
    have hstates : Emission.frameStates ⟨#[some ⟨[], ∅⟩], 0, 0⟩ [] [0]
        ⟨[(.operation (.branch .returnVoid), 0, false)], 1, ∅⟩ = [] := by
      simp [Emission.frameStates]
    rw [hstates]
    rfl
  exact Emission.emit_of_parts returnsBody_frameTargets hpruned hraised hdropped returnsBody_layout
    hwritten rfl rfl

/-- Preverification leaves the code of `returns` as it is. -/
theorem returns_preverifyCode (policy : Policy) (owner : BinaryName) (resolver : Resolver) :
    policy.preverifyCode owner returnsMethod returns ⟨holdsConstantPool, resolver⟩ =
      .ok returns ⟨holdsConstantPool, resolver⟩ := by
  have hdescriptor : returnsMethod.descriptorIn holdsConstantPool = .ok "()V" := by decide +kernel
  have hname : returnsMethod.nameIn holdsConstantPool = .ok "m" := by decide +kernel
  have hsignature : MethodDescriptor.ofDescriptor "()V" = .ok ⟨[], none⟩ := by decide +kernel
  have hanalyze := returnsBody_analyze holdsConstantPool owner resolver
  unfold Policy.preverifyCode
  refine state_bind_ok.2 ⟨_, _, rfl, ?_⟩
  refine state_bind_ok.2 ⟨_, _, ofExcept_mapError_ok.2 ⟨returns_decode _, rfl⟩, ?_⟩
  refine state_bind_ok.2 ⟨(0, returnsBody), ⟨holdsConstantPool, resolver⟩, rfl, ?_⟩
  refine state_bind_ok.2 ⟨_, _, ofExcept_mapError_ok.2 ⟨hdescriptor, rfl⟩, ?_⟩
  refine state_bind_ok.2 ⟨_, _, ofExcept_mapError_ok.2 ⟨hsignature, rfl⟩, ?_⟩
  refine state_bind_ok.2 ⟨_, _, ofExcept_mapError_ok.2 ⟨hname, rfl⟩, ?_⟩
  refine state_bind_ok.2 ⟨_, _, MethodPass.analyze_ok.2 ⟨resolver, hanalyze, rfl⟩, ?_⟩
  exact MethodPass.emit_ok.2 ⟨_, returnsBody_emit _ _, rfl⟩

/-- Preverification leaves `returnsMethod` as it is. -/
theorem returnsMethod_preverify (policy : Policy) (owner : BinaryName) (resolver : Resolver) :
    policy.preverifyMethod owner returnsMethod ⟨holdsConstantPool, resolver⟩ =
      .ok returnsMethod ⟨holdsConstantPool, resolver⟩ := by
  have hposition : returnsMethod.codePosition holdsConstantPool = .ok (some 0) := by decide +kernel
  have hcode : Attribute.decode Code ⟨3, AttributeContents.write returns⟩ = .ok returns := by
    decide +kernel
  have hnoted : holdsConstantPool.texts["Code"]? = some 3 := by
    have hformed := holdsConstant_fits.valid.toFormed
    have hname : holdsConstantPool.utf8 3 = .ok "Code" := by decide +kernel
    have hfirst : holdsConstantPool.firstIndex (.utf8 "Code") = some 3 := by decide +kernel
    rcases hformed.noted.exists_index hformed.built hname with ⟨first, hnoted, hindex⟩
    have hthird : (3 : PoolIndex) = first :=
      UInt16.toNat_inj.1 (Option.some.inj (hfirst.symm.trans hindex))
    rwa [← hthird] at hnoted
  unfold Policy.preverifyMethod
  refine state_bind_ok.2 ⟨_, _, rfl, ?_⟩
  refine state_bind_ok.2 ⟨_, _, ofExcept_mapError_ok.2 ⟨hposition, rfl⟩, ?_⟩
  refine state_bind_ok.2 ⟨_, _, ofExcept_mapError_ok.2 ⟨hcode, rfl⟩, ?_⟩
  refine state_bind_ok.2 ⟨_, _, returns_preverifyCode policy owner resolver, ?_⟩
  have hadd : Pool.addAttribute returns holdsConstantPool =
    .ok ⟨3, AttributeContents.write returns⟩ holdsConstantPool :=
    state_bind_ok.2 ⟨3, _, Pool.addUtf8_of_noted hnoted, rfl⟩
  exact state_bind_ok.2 ⟨_, _, MethodPass.edit_ok.2 ⟨_, hadd, rfl⟩, rfl⟩

/-- There is no problem with the class. -/
theorem holdsConstant_validate (validator : Validator) :
    holdsConstant.validate .cldc10 validator = .ok [] validator := by
  -- what is read from the pool is computed, and the checks are put together from it
  have hname : holdsConstant.name = .ok holdsConstantName := by decide +kernel
  have hfieldName : holdsConstantPool.utf8 4 = .ok "f" := by decide +kernel
  have hfieldDescriptor : holdsConstantPool.utf8 5 = .ok "I" := by decide +kernel
  have hfieldType : FieldType.ofDescriptor "I" = .ok (.base .int) := by decide +kernel
  have hdescriptor : returnsMethod.descriptorIn holdsConstantPool = .ok "()V" := by decide +kernel
  have hmethodName : returnsMethod.nameIn holdsConstantPool = .ok "m" := by decide +kernel
  have hsignature : MethodDescriptor.ofDescriptor "()V" = .ok ⟨[], none⟩ := by decide +kernel
  have hcode : returnsMethod.code holdsConstantPool = .ok (some returns) := by decide +kernel
  have hfield : Policy.cldc10.validateField holdsConstantName holdsConstantPool
      ⟨⟨0⟩, 4, 5, [⟨6, [0, 7]⟩]⟩ validator = .ok [] validator := by
    refine state_bind_ok.2 ⟨_, _, ofExcept_ok.2 ⟨hfieldName, rfl⟩, ?_⟩
    refine state_bind_ok.2 ⟨_, _, ofExcept_ok.2 ⟨hfieldDescriptor, rfl⟩, ?_⟩
    refine state_bind_ok.2 ⟨_, _, ofExcept_ok.2 ⟨hfieldType, rfl⟩, ?_⟩
    exact state_bind_ok.2 ⟨none, validator, rfl, rfl⟩
  have hmethod : Policy.cldc10.validateMethod holdsConstantName holdsConstantPool returnsMethod
      validator = .ok [] validator := by
    refine state_bind_ok.2 ⟨_, _, ofExcept_ok.2 ⟨hmethodName, rfl⟩, ?_⟩
    refine state_bind_ok.2 ⟨_, _, ofExcept_ok.2 ⟨hdescriptor, rfl⟩, ?_⟩
    refine state_bind_ok.2 ⟨_, _, ofExcept_ok.2 ⟨hsignature, rfl⟩, ?_⟩
    refine state_bind_ok.2 ⟨[], validator, ?_, ?_⟩
    · exact state_bind_ok.2 ⟨none, validator, rfl, rfl⟩
    · refine state_bind_ok.2 ⟨_, _, ofExcept_ok.2 ⟨hcode, rfl⟩, ?_⟩
      refine state_bind_ok.2 ⟨_, _, ofExcept_ok.2 ⟨returns_decode _, rfl⟩, ?_⟩
      exact state_bind_ok.2 ⟨[], validator, rfl, rfl⟩
  unfold ClassFile.validate
  refine state_bind_ok.2 ⟨_, _, ofExcept_ok.2 ⟨hname, rfl⟩, ?_⟩
  refine state_bind_ok.2 ⟨[[]], validator, ?_, ?_⟩
  · exact state_bind_ok.2 ⟨_, _, hfield, rfl⟩
  · exact state_bind_ok.2 ⟨[[]], validator, state_bind_ok.2 ⟨_, _, hmethod, rfl⟩, rfl⟩

/-- What `holdsConstant` becomes. -/
def holdsNothing : ClassFile := { holdsConstant with fields := [⟨⟨0⟩, 4, 5, []⟩] }

theorem holdsConstant_name : holdsConstant.name = .ok holdsConstantName := by decide +kernel

theorem holdsConstant_header :
    holdsConstant.header = .ok ⟨⟨0x21⟩, holdsConstantName, none, []⟩ := by decide +kernel

/-- The attribute of the field goes, and the method stays. -/
theorem holdsConstant_members (resolver : Resolver) :
    ClassPass.members .cldc10 holdsConstantName holdsConstant ⟨holdsConstantPool, resolver⟩ =
      .ok holdsNothing ⟨holdsConstantPool, resolver⟩ := by
  have hmethodName : returnsMethod.nameIn holdsConstantPool = .ok "m" := by decide +kernel
  have hdescriptor : returnsMethod.descriptorIn holdsConstantPool = .ok "()V" := by decide +kernel
  have hfields : holdsConstant.fields.mapM (·.stripConstant holdsConstantPool) =
      .ok [⟨⟨0⟩, 4, 5, []⟩] := by decide +kernel
  have hmethod : ClassPass.method .cldc10 holdsConstantName returnsMethod
      ⟨holdsConstantPool, resolver⟩ = .ok returnsMethod ⟨holdsConstantPool, resolver⟩ := by
    refine state_bind_ok.2 ⟨_, _, rfl, ?_⟩
    refine state_bind_ok.2 ⟨_, _, ofExcept_mapError_ok.2 ⟨hmethodName, rfl⟩, ?_⟩
    refine state_bind_ok.2 ⟨_, _, ofExcept_mapError_ok.2 ⟨hdescriptor, rfl⟩, ?_⟩
    rw [returnsMethod_preverify]
  have hmethods : [returnsMethod].mapM (ClassPass.method .cldc10 holdsConstantName)
      ⟨holdsConstantPool, resolver⟩ = .ok [returnsMethod] ⟨holdsConstantPool, resolver⟩ := by
    rw [List.mapM_cons, List.mapM_nil]
    exact state_bind_ok.2 ⟨_, _, hmethod, rfl⟩
  have hstrips : Policy.cldc10.stripsInstanceConstants = true := rfl
  unfold ClassPass.members
  rw [if_pos hstrips]
  refine state_bind_ok.2 ⟨_, _, ofExcept_mapError_ok.2 ⟨hfields, rfl⟩, ?_⟩
  exact state_bind_ok.2 ⟨_, _, hmethods, state_bind_ok.2 ⟨_, _, rfl, rfl⟩⟩

theorem holdsConstant_preverify (resolver : Resolver) :
    (Policy.cldc10.preverify holdsConstant.write resolver).1 =
      ⟨some holdsConstantName, .ok holdsNothing.write⟩ := by
  rw [Policy.preverify_of_members holdsConstant_parse holdsConstant_name holdsConstant_header
    (holdsConstant_validate _) (holdsConstant_members _)]

/-- The constant value of the field goes, and everything else is passed on. -/
theorem holdsConstant_passesOn :
    (Policy.cldc10.preverify holdsConstant.write (.ofClassPath ∅)).1.result =
        .ok holdsNothing.write ∧
      ∃ classFile preverified : ClassFile,
        ClassFile.parse holdsConstant.write = .ok classFile ∧
        holdsNothing.write = preverified.write ∧ classFile.PassesOn .cldc10 preverified := by
  have hresult : (Policy.cldc10.preverify holdsConstant.write (.ofClassPath ∅)).1.result =
      .ok holdsNothing.write := by rw [holdsConstant_preverify]
  exact ⟨hresult, preverify_passesOn hresult⟩

end Preverification
