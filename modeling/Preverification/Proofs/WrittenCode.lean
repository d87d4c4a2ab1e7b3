import Preverification.Proofs.PassThrough
import Preverification.Proofs.ReachedCode

/-!
# Code that is written

The code that is written for a method can be decoded again, unless one of its tables is too long to
be counted. What is decoded has no subroutines, control comes to all of its operations, and these
are operations of the method as it was before, with other targets.

* `Code.Counted`: the tables of code can be counted.
* `Emission.Run.decode_eq`, `Emission.Run.reached_decoded`: the code can be decoded, and control
  comes to all of it.
* `Policy.CodeRun.decodes`: what is decoded has no subroutines, and its operations are operations of
  the method.
-/

namespace Preverification

/-! ### Tables that can be counted -/

/-- A table does not have more entries, each of some bytes, than can be counted. -/
def Attribute.Counts (α : Type) [AttributeContents α] (bytes : Nat) (pool : Pool)
    (attr : Attribute) : Prop :=
  attr.holds α pool = .ok true → attr.contents.length ≤ 2 + bytes * 65535

/-- The entries of all tables of some code can be counted in two bytes, and the bytes of all of it
in four. Entries of frames do not matter, since they are not decoded. -/
structure Code.Counted (pool : Pool) (code : Code) : Prop where
  exceptions : code.exceptions.length ≤ 65535
  attributes : code.attributes.length ≤ 65535
  lines : ∀ attr ∈ code.attributes, attr.Counts LineNumberTable 4 pool
  localVariables : ∀ attr ∈ code.attributes, attr.Counts LocalVariableTable 10 pool
  variableTypes : ∀ attr ∈ code.attributes, attr.Counts LocalVariableTypeTable 10 pool
  bytes : (AttributeContents.write code).length < Bytes.limit 4

/-- A list of entries takes up the room of its entries, and two bytes. -/
theorem Bytes.length_ofList {α : Type} {write : α → Bytes} {bytes : Nat}
    (h : ∀ a, (write a).length = bytes) (values : List α) :
    (Bytes.ofList write values).length = 2 + bytes * values.length := by
  have hflat : (values.flatMap write).length = bytes * values.length := by
    induction values with
    | nil => rfl
    | cons value values ih =>
      rw [List.flatMap_cons, List.length_append, h, ih, List.length_cons, Nat.mul_succ,
        Nat.add_comm]
  unfold Bytes.ofList
  rw [List.length_append, length_ofCount, hflat]

/-- Some tables are known to be tables only when there are more constants. -/
theorem Code.Counted.mono {code : Code} {pool pool' : Pool} (h : code.Counted pool')
    (hextends : pool.Extends pool') (hbuilt : pool.Built) : code.Counted pool where
  exceptions := h.exceptions
  attributes := h.attributes
  lines attr hattr hholds := h.lines attr hattr (attr.holds_extends hextends hbuilt hholds)
  localVariables attr hattr hholds :=
    h.localVariables attr hattr (attr.holds_extends hextends hbuilt hholds)
  variableTypes attr hattr hholds :=
    h.variableTypes attr hattr (attr.holds_extends hextends hbuilt hholds)
  bytes := h.bytes

/-- What is written for an element is a part of what is written for a list. -/
theorem Bytes.length_le_ofList {α : Type} (write : α → Bytes) {a : α} {values : List α}
    (h : a ∈ values) : (write a).length ≤ (Bytes.ofList write values).length := by
  have hflat := (List.sublist_flatten_of_mem (List.mem_map_of_mem (f := write) h)).length_le
  unfold Bytes.ofList
  rw [List.length_append, List.flatMap_def]
  exact Nat.le_trans hflat (Nat.le_add_left _ _)

/-- The contents of an attribute are a part of it. -/
theorem Attribute.length_contents_le (attr : Attribute) :
    attr.contents.length ≤ attr.write.length := by
  unfold write
  rw [List.length_append]
  exact Nat.le_add_left _ _

theorem Code.length_bytecode_le (code : Code) :
    code.bytecode.length ≤ (AttributeContents.write code).length := by
  change _ ≤ code.write.length
  unfold write
  simp only [List.length_append]
  omega

theorem Code.length_attributes_le (code : Code) :
    (Bytes.ofList Attribute.write code.attributes).length ≤ (AttributeContents.write code).length := by
  change _ ≤ code.write.length
  unfold write
  rw [List.length_append]
  exact Nat.le_add_left _ _

theorem LineEntry.length_write (entry : LineEntry) : entry.write.length = 4 := by
  simp [write]

theorem VariableEntry.length_write (entry : VariableEntry) : entry.write.length = 10 := by
  simp [write]

/-- A table that is held by attributes does not have more entries than can be counted. -/
theorem Pool.HoldsTable.length_lt {α β : Type} [AttributeContents β] {pool : Pool}
    {table : List α → β} {entries : List α} {attributes : List Attribute} {bytes : Nat}
    (h : pool.HoldsTable table entries attributes) (hp : pool.Formed) (hpos : 0 < bytes)
    (hbytes : ∀ entries, (AttributeContents.write (table entries)).length = 2 + bytes * entries.length)
    (hcounts : ∀ attr ∈ attributes, attr.Counts β bytes pool) : entries.length < 65536 := by
  have hname := h.utf8 hp
  rcases h with ⟨rfl, _⟩ | ⟨_, index, _, rfl⟩
  · exact Nat.zero_lt_succ _
  · have hself : ∀ attr ∈ [Attribute.mk index (AttributeContents.write (table entries))],
        attr.contents.length ≤ 2 + bytes * 65535 :=
      fun attr hattr => hcounts attr hattr (Attribute.holds_true.2 (hname attr hattr))
    have hle := hself _ (List.mem_singleton.2 rfl)
    rw [hbytes] at hle
    exact Nat.lt_succ_of_le (Nat.le_of_mul_le_mul_left (Nat.add_le_add_iff_left.1 hle) hpos)

theorem Layout.Writes.exceptions_eq {layout : Layout} {body : Body} {extra : List Attribute}
    {code : Code} {pool : Pool} (h : layout.Writes body extra code pool) :
    code.exceptions = body.handlers.filterMap layout.guarded? := by
  rcases h with ⟨_, _, _, _, _, _, rfl⟩
  rfl

/-- The debug tables of code that can be counted are decoded as they are. -/
theorem Layout.Writes.lengths_lt {layout : Layout} {body : Body} {extra : List Attribute}
    {code : Code} {pool : Pool} (h : layout.Writes body extra code pool) (hp : pool.Formed)
    (hcounted : code.Counted pool) : layout.lineEntries.length < 65536 ∧
      (body.localVariables.filterMap layout.ranged?).length < 65536 ∧
      (body.variableTypes.filterMap layout.ranged?).length < 65536 := by
  rcases h with ⟨lines, localVariables, variableTypes, hlines, hvariables, htypes, rfl⟩
  refine ⟨?_, ?_, ?_⟩
  · exact hlines.length_lt hp (by decide) (Bytes.length_ofList LineEntry.length_write)
      fun attr hattr => hcounted.lines attr (by simp [hattr])
  · exact hvariables.length_lt hp (by decide) (Bytes.length_ofList VariableEntry.length_write)
      fun attr hattr => hcounted.localVariables attr (by simp [hattr])
  · exact htypes.length_lt hp (by decide) (Bytes.length_ofList VariableEntry.length_write)
      fun attr hattr => hcounted.variableTypes attr (by simp [hattr])

/-- Frames are dropped when code is decoded. -/
theorem CodeAttributes.ofAttribute_frames {pool : Pool} {attr : Attribute} {name : String}
    (h : attr.nameIn pool = .ok name) (hframes : name ∈ Pool.frameNames) :
    ofAttribute pool attr = .ok {} := by
  unfold ofAttribute
  rcases List.mem_cons.1 hframes with rfl | hframes
  · refine except_bind_ok.2 ⟨false, holds_ok h (by decide), ?_⟩
    refine except_bind_ok.2 ⟨false, holds_ok h (by decide), ?_⟩
    refine except_bind_ok.2 ⟨false, holds_ok h (by decide), ?_⟩
    refine except_bind_ok.2 ⟨true, holds_ok h (by decide), ?_⟩
    exact except_bind_ok.2 ⟨false, holds_ok h (by decide), rfl⟩
  · cases List.mem_singleton.1 hframes
    refine except_bind_ok.2 ⟨false, holds_ok h (by decide), ?_⟩
    refine except_bind_ok.2 ⟨false, holds_ok h (by decide), ?_⟩
    refine except_bind_ok.2 ⟨false, holds_ok h (by decide), ?_⟩
    refine except_bind_ok.2 ⟨false, holds_ok h (by decide), ?_⟩
    exact except_bind_ok.2 ⟨true, holds_ok h (by decide), rfl⟩

/-! ### Bodies that are emitted -/

/-- Operations stand in front of the end of the code. -/
theorem Layout.Places.offset_lt {layout : Layout} {body : Body} (h : layout.Places body)
    {place offset : Nat} {operation : Operation Label}
    (hnode : body.nodes[place]? = some (.operation operation))
    (ho : layout.offset? place = some offset) : offset < layout.codeLength := by
  have hmem : (offset, operation.map layout.offsetOf) ∈ layout.operations :=
    h.mem_operations.2 ⟨place, operation, hnode, ho, rfl⟩
  rcases List.pairwise_append.1 (h.laid.ascends layout).1 with ⟨_, _, hend⟩
  exact hend offset (List.mem_map_of_mem hmem) _ (List.mem_singleton.2 rfl)

/-- Labels that lead to operations stand in front of the end of the code. -/
theorem Layout.Places.offsetOf_lt {layout : Layout} {body : Body} (h : layout.Places body)
    {place : Nat} {label : Label} (hlabel : label ∈ body.referencedLabels)
    (hleads : label.LeadsTo body.nodes place) : layout.offsetOf label < layout.codeLength := by
  rcases hleads with ⟨labelled, hlabelled, harrives⟩
  rcases harrives.operation with ⟨operation, hnode⟩
  rcases h.exists_offset hnode with ⟨offset, ho⟩
  rw [h.offsetOf_of_leadsTo hlabel ⟨labelled, hlabelled, harrives⟩ ho]
  exact h.offset_lt hnode ho

namespace Emission.Run

variable {analysis : Analysis} {entry : TypeState} {format : FrameFormat}
  {draft draft' : MethodDraft} {code : Code}

/-- What emission leaves are the nodes that stay. -/
theorem keeps (run : Run analysis entry format draft draft' code) :
    analysis.Keeps draft.body.nodes draft'.body.nodes (analysis.keptPositions draft.body.nodes) := by
  rw [run.body_eq]
  exact (Body.removeUnreachable_ok run.pruned_ok).1

theorem places (run : Run analysis entry format draft draft' code) :
    run.layout.Places draft'.body := Body.layout_ok run.layout_ok

/-- The handlers are those whose code can be reached. -/
theorem mem_handlers (run : Run analysis entry format draft draft' code)
    (he : analysis.Explored draft.body) (handler : Handler) : handler ∈ draft'.body.handlers ↔
      handler ∈ draft.body.handlers ∧
        ∃ target, handler.handler.LeadsTo draft.body.nodes target ∧ analysis.isLive target := by
  rcases he.flow with ⟨flow, hflow⟩
  rcases Body.exists_removeUnreachable hflow analysis with
    ⟨pruned, hpruned, _, stays, hhandlers, hstays⟩
  cases hpruned.symm.trans run.pruned_ok
  rw [run.body_eq]
  change handler ∈ run.pruned.handlers ↔ _
  rw [hhandlers, List.mem_filter, hstays]

/-- Control comes to each operation that is left. -/
theorem reached (run : Run analysis entry format draft draft' code)
    (he : analysis.Explored draft.body) {place : Nat} {operation : Operation Label}
    (hnode : draft'.body.nodes[place]? = some (.operation operation)) :
    draft'.body.Reached place := by
  rcases run.keeps.exists_position hnode with ⟨position, hposition, ho⟩
  have hreached := (he.isLive_iff position).1 (run.keeps.isLive hposition ho)
  exact he.reached run.keeps
    (fun handler hhandler hleads => (run.mem_handlers he handler).2 ⟨hhandler, hleads⟩) hreached
    hposition

/-- What is kept jumps to what is kept. -/
theorem leads (run : Run analysis entry format draft draft' code)
    (he : analysis.Explored draft.body) {pool : Pool}
    (hfits : ∀ operation, .operation operation ∈ draft.body.nodes → operation.Fits pool) :
    run.layout.Leads draft'.body pool := by
  intro operation hmem
  rcases List.mem_iff_getElem?.1 hmem with ⟨place, hnode⟩
  rcases run.keeps.exists_position hnode with ⟨position, hposition, ho⟩
  refine ⟨hfits operation (List.mem_of_getElem? ho), fun label hlabel => ?_⟩
  have hgoes := he.goesOn position (run.keeps.isLive hposition ho)
  rcases hgoes.jumps operation label ho hlabel with ⟨target, labelled, hlabelled, harrives⟩
  have hlive := hgoes.next target (.jump ho hlabel hlabelled harrives)
  rcases run.keeps.leadsAlike ⟨labelled, hlabelled, harrives⟩ hlive with ⟨_, next, _, _, hleads⟩
  exact run.places.offsetOf_lt (Body.mem_referencedLabels hmem hlabel) hleads

/-- Each handler that is left leads to an operation. -/
theorem handlers_lead (run : Run analysis entry format draft draft' code)
    (he : analysis.Explored draft.body) :
    ∀ handler ∈ draft'.body.handlers, ∃ target, handler.handler.LeadsTo draft'.body.nodes target := by
  intro handler hhandler
  rcases (run.mem_handlers he handler).1 hhandler with ⟨_, target, hleads, hlive⟩
  rcases run.keeps.leadsAlike hleads hlive with ⟨_, next, _, _, hleads'⟩
  exact ⟨next, hleads'⟩

/-- The code of a handler stands in front of the end of what is written. -/
theorem handlers_inside (run : Run analysis entry format draft draft' code)
    (he : analysis.Explored draft.body) : ∀ handler ∈ draft'.body.handlers,
      run.layout.offsetOf handler.handler < run.layout.codeLength := by
  intro handler hhandler
  rcases run.handlers_lead he handler hhandler with ⟨target, htarget⟩
  exact run.places.offsetOf_lt (Body.referenced_of_handler hhandler).2.2 htarget

/-- The operations make sense in the pool that has all constants. -/
theorem leads_behind (run : Run analysis entry format draft draft' code)
    (he : analysis.Explored draft.body) (hvalid : draft.constants.Valid)
    (hfits : ∀ operation, .operation operation ∈ draft.body.nodes → operation.Fits draft.constants) :
    run.layout.Leads draft'.body draft'.constants := by
  rcases run.pools hvalid with ⟨_, hextends, _, hextends', _⟩
  exact run.leads he fun operation hmem =>
    (hfits operation hmem).extends (hextends.trans hextends') hvalid.built

/-- What emission writes can be decoded. -/
theorem decode_eq (run : Run analysis entry format draft draft' code)
    (he : analysis.Explored draft.body) (hvalid : draft.constants.Valid)
    (hfits : ∀ operation, .operation operation ∈ draft.body.nodes → operation.Fits draft.constants)
    (hnames : ∀ attr ∈ draft.body.attributes, ∃ name, attr.nameIn draft.constants = .ok name ∧
      name ∉ CodeAttributes.tableNames)
    (hcounted : code.Counted draft'.constants) :
    Body.decode code draft'.constants = .ok (Body.assemble code run.layout.decoded
      (run.layout.decodedAttributes draft'.body)) := by
  rcases run.pools hvalid with ⟨_, hextends, hvalid', hextends', hextra⟩
  have hothers : ∀ attr ∈ draft'.body.attributes,
      CodeAttributes.ofAttribute draft'.constants attr = .ok { others := [attr] } := by
    intro attr hattr
    rw [run.attributes_eq hnames] at hattr
    rcases hnames attr hattr with ⟨name, hname, hother⟩
    exact CodeAttributes.ofAttribute_others ((hextends.trans hextends').utf8 hvalid.built hname)
      hother
  have hframes : ∀ attr ∈ run.extra, CodeAttributes.ofAttribute draft'.constants attr = .ok {} := by
    intro attr hattr
    rcases hextra attr hattr with ⟨name, hframe, hname⟩
    exact CodeAttributes.ofAttribute_frames hname hframe
  have hwrites := run.writes hvalid
  rcases hwrites.lengths_lt hvalid'.toFormed hcounted with ⟨hlines, hvariables, htypes⟩
  exact run.places.decode_eq hvalid'.toFormed (run.leads_behind he hvalid hfits)
    (run.handlers_inside he) hlines hvariables htypes hothers hframes hwrites

/-- Control comes to all operations that are decoded. -/
theorem reached_decoded (run : Run analysis entry format draft draft' code)
    (he : analysis.Explored draft.body) (hvalid : draft.constants.Valid)
    (hfits : ∀ operation, .operation operation ∈ draft.body.nodes → operation.Fits draft.constants)
    {attributes : CodeAttributes} {place : Nat} {operation : Operation Label}
    (hnode : (Body.assemble code run.layout.decoded attributes).nodes[place]? =
      some (.operation operation)) :
    (Body.assemble code run.layout.decoded attributes).Reached place := by
  have hleads : run.layout.Leads draft'.body draft'.constants := run.leads_behind he hvalid hfits
  have hwrites := run.writes hvalid
  have hchecked : run.layout.decoded.Checked code draft'.constants :=
    DecodedCode.checked (run.places.ofBytes_eq hleads (hwrites.bytecode run.places))
      (run.places.checkTargets hleads) (hwrites.checkExceptions run.places (run.handlers_inside he))
  have htables := run.places.tables (run.handlers_lead he) run.code_ok
  rw [← Body.map_assembled, List.getElem?_map, Option.map_eq_some_iff] at hnode
  rcases hnode with ⟨⟨_, offset⟩, hplace, rfl⟩
  -- the operation stands where one was laid out
  rcases Body.mem_standing_operation.1 (List.mem_of_getElem? hplace) with ⟨entry, hentry, rfl, _⟩
  rcases run.places.mem_operations.1 hentry with ⟨place', operation', hnode', ho, _⟩
  have hreaches := run.places.reaches htables (run.reached he hnode') ho
  exact Body.reached_assemble hchecked hreaches hplace

end Emission.Run

/-! ### What the code is made of -/

namespace Operation

variable {operation : Operation Label} {pool : Pool}

/-- Labels may be replaced before or after an operation is copied. -/
theorem map_copied (f names : Label → Label) (continuation : Label) (operation : Operation Label) :
    (operation.copied names continuation).map f =
      operation.copied (fun label => f (names label)) (f continuation) := by
  cases operation with
  | step instruction => rfl
  | branch b => cases b <;> simp [copied, Operation.map, Branch.map, Function.comp_def]

/-- Copies of operations that make sense make sense. -/
theorem Fits.copied (h : operation.Fits pool) (names : Label → Label) (continuation : Label) :
    (operation.copied names continuation).Fits pool := by
  cases operation with
  | step instruction => exact h
  | branch b => cases b <;> first | trivial | exact fits_map.2 h

end Operation

namespace Body

variable {code : Code} {pool : Pool} {body drawn : Body}

/-- The operations of a decoded body make sense. -/
theorem decode_fits (h : decode code pool = .ok body) {operation : Operation Label}
    (hmem : .operation operation ∈ body.nodes) : operation.Fits pool := by
  rcases decode_ok.1 h with ⟨decoded, attributes, hbytes, _, _, _, rfl⟩
  rcases exists_entry hmem with ⟨entry, hentry, rfl⟩
  exact Operation.fits_map.2 ((DecodedCode.ofBytes_ok hbytes).sound entry hentry).1

theorem DrawnFrom.fits (h : drawn.DrawnFrom body)
    (hfits : ∀ {operation}, .operation operation ∈ body.nodes → operation.Fits pool)
    {operation : Operation Label} (hmem : .operation operation ∈ drawn.nodes) :
    operation.Fits pool := by
  rcases h.operations hmem with ⟨original, names, continuation, horiginal, rfl⟩
  exact (hfits horiginal).copied names continuation

/-- What is decoded from the code of a body is drawn from the body. -/
theorem DrawnFrom.assemble {layout : Layout} (h : drawn.DrawnFrom body)
    (hplaces : layout.Places drawn) (code : Code) :
    (assemble code layout.decoded (layout.decodedAttributes drawn)).DrawnFrom body where
  operations := by
    intro operation hmem
    rcases exists_entry hmem with ⟨entry, hentry, rfl⟩
    rcases hplaces.mem_operations.1 hentry with ⟨place, placed, hnode, _, hplaced⟩
    rcases h.operations (List.mem_of_getElem? hnode) with
      ⟨original, names, continuation, horiginal, rfl⟩
    rw [hplaced, Operation.map_map, Operation.map_copied]
    exact ⟨original, _, _, horiginal, rfl⟩
  localVariables := by
    intro range hrange
    rcases List.mem_map.1 hrange with ⟨entry, hentry, rfl⟩
    rcases List.mem_filterMap.1 (List.mem_filter.1 hentry).1 with ⟨found, hfound, hranged⟩
    rcases h.localVariables found hfound with ⟨original, horiginal, hname, hdescriptor⟩
    refine ⟨original, horiginal, ?_⟩
    unfold Layout.ranged? at hranged
    split at hranged
    · cases hranged
    · cases hranged
      exact ⟨hname, hdescriptor⟩
  attributes := h.attributes

end Body

namespace Policy

variable {policy : Policy} {owner : BinaryName} {method : Member} {code code' : Code}
  {workspace workspace' : Workspace}

/-- Handlers do not catch the class at index zero. -/
theorem CodeRun.caught_ne (run : policy.CodeRun owner method code code' workspace workspace')
    (hvalid : workspace.constants.Valid) : ∀ entry ∈ code'.exceptions, entry.caught ≠ some 0 := by
  intro entry hentry hzero
  have he := (Body.analyze_explored run.analysis_ok).1
  rw [(run.run.writes hvalid).exceptions_eq] at hentry
  rcases List.mem_filterMap.1 hentry with ⟨handler, hhandler, hguarded⟩
  have hcaught : handler.caught = some 0 := by
    unfold Layout.guarded? at hguarded
    split at hguarded
    · cases hguarded
    · cases hguarded
      exact hzero
  rcases (run.run.mem_handlers he handler).1 hhandler with ⟨hdrawn, _⟩
  rcases Body.analyze_catches run.analysis_ok handler hdrawn with ⟨type, hcatches⟩
  unfold Handler.Catches at hcatches
  rw [hcaught] at hcatches
  rcases hcatches with ⟨class', hclass, _⟩
  rcases except_bind_ok.1 hclass with ⟨name, hname, _⟩
  rcases Pool.className_ok.1 hname with ⟨place, hget, _⟩
  cases hvalid.built.get?_zero.symm.trans hget

/-- The code that is written can be read again. -/
theorem CodeRun.fits (run : policy.CodeRun owner method code code' workspace workspace')
    (hvalid : workspace.constants.Valid) {pool : Pool} (hcounted : code'.Counted pool) :
    code'.Fits where
  bytecode := Nat.lt_of_le_of_lt code'.length_bytecode_le hcounted.bytes
  exceptions := ⟨Nat.lt_succ_of_le hcounted.exceptions, run.caught_ne hvalid⟩
  attributes := by
    refine ⟨Nat.lt_succ_of_le hcounted.attributes, fun attr hattr => ?_⟩
    have hwritten := Bytes.length_le_ofList Attribute.write hattr
    have hcontents := attr.length_contents_le
    have hwhole := code'.length_attributes_le
    have hbytes := hcounted.bytes
    omega

/-- The body that is emitted is drawn from the body of the method. -/
theorem CodeRun.drawnFrom (run : policy.CodeRun owner method code code' workspace workspace') :
    run.draft.body.DrawnFrom run.decoded := by
  have hdrawn := (Body.inline_drawnFrom run.inlined_ok).labelAllocations
  have hpruned := run.run.pruned_ok
  unfold Body.removeUnreachable at hpruned
  rcases except_bind_ok.1 hpruned with ⟨_, _, hsame⟩
  have hvariables : run.draft.body.localVariables = run.inlined.labelAllocations.localVariables := by
    rw [run.run.body_eq]
    change run.run.pruned.localVariables = _
    rw [← Except.ok.inj hsame]
  refine ⟨fun {operation} hmem => ?_, ?_, ?_⟩
  · rcases List.mem_iff_getElem?.1 hmem with ⟨place, hnode⟩
    rcases run.run.keeps.exists_position hnode with ⟨position, _, ho⟩
    exact hdrawn.operations (List.mem_of_getElem? ho)
  · rw [hvariables]
    exact hdrawn.localVariables
  · exact (run.run.attributes_eq run.attributes_named).trans hdrawn.attributes

/-- The code that is written for a method is decoded as a body without subroutines, all of which can
be reached, and which is drawn from the body of the method. -/
theorem CodeRun.decodes (run : policy.CodeRun owner method code code' workspace workspace')
    (hvalid : workspace.constants.Valid) (hcounted : code'.Counted workspace'.constants) :
    ∃ body, Body.decode code' workspace'.constants = .ok body ∧ body.DrawnFrom run.decoded ∧
      ∀ (place : Nat) operation, body.nodes[place]? = some (.operation operation) →
        body.Reached place := by
  have he := (Body.analyze_explored run.analysis_ok).1
  have hdrawn := (Body.inline_drawnFrom run.inlined_ok).labelAllocations
  have hfits : ∀ operation, .operation operation ∈ run.inlined.labelAllocations.nodes →
      operation.Fits workspace.constants :=
    fun operation hmem => hdrawn.fits (Body.decode_fits run.decoded_ok) hmem
  rw [run.constants_eq] at hcounted ⊢
  exact ⟨_, run.run.decode_eq he hvalid hfits run.attributes_named hcounted,
    run.drawnFrom.assemble run.run.places code',
    fun _ _ hnode => run.run.reached_decoded he hvalid hfits hnode⟩

end Policy

end Preverification
