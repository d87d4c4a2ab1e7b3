import Preverification.Proofs.AllocatedObjects
import Preverification.Proofs.Tiling
import Preverification.Proofs.WrittenFrames

/-!
# New objects in frames

The type of an object whose constructor has not run comes from the allocation behind its label.
Where such a type is inferred, control has come by way of the allocation, so that the allocation is
kept when unreachable code is left out, and it stands where its label is placed. In a frame of the
emitted code the type has the offset at which the allocation is read.

* `Body.typesAcross_congr`: only in front of an allocation does a label matter.
* `Body.analyze_exists_allocation`: an object is inferred only where control has come by way of its
  allocation.
* `Emission.emit_framesAllocations`: in frames, objects that are not initialized have the offsets of
  allocations.
-/

namespace Preverification

/-- Where the frames of some code have an object that is not initialized, its offset is that of an
allocation among the operations that fill the code. -/
def Code.FramesAllocations (code : Code) (pool : Pool) (format : FrameFormat) : Prop :=
  ∃ (entries : List (Nat × Operation Nat)) (layout : Layout) (entry : TypeState)
    (frames : List FullFrame), Operation.Tiles pool code.bytecode 0 entries ∧
      code.ShowsFrames pool format layout entry frames ∧
      ∀ frame ∈ frames, ∀ offset, .uninitialized offset ∈ frame.locals ++ frame.stack →
        ∃ type, (offset.toNat, .step (.new type)) ∈ entries

/-! ### Where objects come from -/

/-- Only an allocation asks for the label in front of it. -/
theorem Transfer.operation_allocation {L : Type} (context : MethodContext) {operation : Operation L}
    (h : ∀ type, operation ≠ .step (.new type)) (allocation allocation' : Option Label) :
    Transfer.operation context allocation operation =
      Transfer.operation context allocation' operation := by
  cases operation with
  | branch b => rfl
  | step i =>
    cases i with
    | new type => exact absurd rfl (h type)
    | _ => rfl

namespace Body

variable {body : Body} {context : MethodContext} {nodes nodes' : List Node} {position : Nat}
  {state after entry : TypeState} {way : Way} {site : Label}

/-- Other operations do not look at labels. -/
theorem typesBehind_congr (hnode : nodes'[position]? = nodes[position]?)
    (hnew : ∀ type, nodes[position]? ≠ some (.operation (.step (.new type)))) :
    typesBehind context nodes' position state = typesBehind context nodes position state := by
  unfold typesBehind
  rw [hnode]
  split
  · rename_i operation ho
    rw [Transfer.operation_allocation context (fun type heq => hnew type (heq ▸ ho))
      (labelBefore nodes' position) (labelBefore nodes position)]
  · rfl

theorem typesAcross_congr (hnode : nodes'[position]? = nodes[position]?)
    (hnew : ∀ type, nodes[position]? ≠ some (.operation (.step (.new type)))) :
    typesAcross context nodes' position way state = typesAcross context nodes position way state := by
  cases way with
  | next => exact typesBehind_congr hnode hnew
  | caughtBefore type => rfl
  | caughtBehind type =>
    unfold typesAcross
    dsimp only
    rw [typesBehind_congr hnode hnew]

/-- Where a step makes an object from a place, there is an allocation right behind that place. -/
theorem allocates_of_typesAcross (hway : way.SiteFree) (hlacks : state.Lacks site)
    (h : typesAcross context nodes position way state = .ok after) (hafter : ¬ after.Lacks site) :
    labelBefore nodes position = some site ∧
      ∃ type, nodes[position]? = some (.operation (.step (.new type))) := by
  have hlabel : labelBefore nodes position = some site := by
    by_contra hne
    exact hafter (typesAcross_lacks hway hne hlacks h)
  refine ⟨hlabel, ?_⟩
  by_contra hnot
  -- another label in front of the operation would make no difference
  obtain ⟨hnode, hmark⟩ := labelledBefore_spec hlabel ⟨site.number + 1⟩
  have hnew : ∀ type, nodes[position]? ≠ some (.operation (.step (.new type))) :=
    fun type hnode => hnot ⟨type, hnode⟩
  rw [← typesAcross_congr hnode hnew] at h
  refine hafter (typesAcross_lacks hway ?_ hlacks h)
  rw [hmark]
  intro heq
  have hnumber : site.number + 1 = site.number := congrArg Label.number (Option.some.inj heq)
  omega

/-- Where there is an object from a place at the end of a path, the path has passed the allocation.
-/
theorem Path.exists_allocation {pool : Pool} {first stop : Nat} {steps : List (Nat × Way)}
    (hpath : body.Path pool first steps stop) (hentry : entry.Lacks site)
    (h : typesAlong context body.nodes steps entry = .ok state) (hsite : ¬ state.Lacks site) :
    ∃ place type, (∃ before, body.Path pool first before place) ∧
      body.nodes[place]? = some (.operation (.step (.new type))) ∧
      labelBefore body.nodes place = some site := by
  induction hpath generalizing state with
  | here =>
    cases h
    exact absurd hentry hsite
  | @step middle stop steps way hbefore hleads ih =>
    obtain ⟨between, hbetween, hlast⟩ := typesAlong_append.1 h
    by_cases hlacks : between.Lacks site
    · -- the object is made in the last step
      obtain ⟨hlabel, type, hnew⟩ :=
        allocates_of_typesAcross hleads.siteFree hlacks hlast hsite
      exact ⟨middle, type, ⟨steps, hbefore⟩, hnew, hlabel⟩
    · exact ih hbetween hlacks

/-- An object that is not initialized is inferred only where control has come by way of its
allocation. -/
theorem analyze_exists_allocation {resolver resolver' : Resolver} {analysis : Analysis}
    (h : body.analyze entry context resolver = .ok analysis resolver')
    (hstate : analysis.state? position = some state) (hentry : entry.Lacks site)
    (hsite : ¬ state.Lacks site) :
    ∃ place type, analysis.isLive place ∧
      body.nodes[place]? = some (.operation (.step (.new type))) ∧
      labelBefore body.nodes place = some site := by
  obtain ⟨problem, first, inference, hposes, harrives, rfl, hdone, hc⟩ := analyze_ok h
  obtain ⟨steps, hpath⟩ := hc.reached position state hstate
  obtain ⟨found, hfound, known, hknown, hle⟩ := hc.along hdone hpath
  cases hknown.symm.trans hstate
  obtain ⟨place, type, ⟨before, hpath'⟩, hnew, hlabel⟩ :=
    hpath.exists_allocation hentry hfound fun hlacks => hsite (hlacks.under hle)
  obtain ⟨-, -, known', hknown', -⟩ := hc.along hdone hpath'
  refine ⟨place, type, ?_, hnew, hlabel⟩
  unfold Analysis.isLive
  rw [hknown']
  rfl

end Body

/-! ### Objects in frames -/

theorem TypeState.localEntries_subset (paired : Bool) (locals : List InferredType) :
    localEntries paired locals ⊆ locals := by
  induction locals generalizing paired with
  | nil => cases paired <;> exact fun _ h => h
  | cons type locals ih =>
    cases paired with
    | true => exact List.subset_cons_of_subset type (ih false)
    | false => exact List.cons_subset_cons type (ih _)

/-- The types in a frame are those of its state. -/
theorem TypeState.not_lacks_of_mem_frame {state : TypeState} {site : Label}
    (h : .uninitialized site ∈ state.toFrame.locals.toList ++ state.stack.toList) :
    ¬ state.Lacks site := by
  intro hlacks
  rcases List.mem_append.1 h with hlocal | hstack
  · unfold toFrame at hlocal
    rw [WidthVector.toList_ofList, localEntriesFrom_eq, List.append_nil, List.mem_reverse] at hlocal
    have hentry := (List.dropWhile_sublist _).subset hlocal
    exact hlacks.locals (localEntries_subset false _ (List.mem_reverse.1 hentry))
  · exact hlacks.stack (List.mem_reverse.2 hstack)

/-- The type of such an object is written with the offset of its label. -/
theorem Layout.Serializes.site {layout : Layout} {type : InferredType} {offset : UInt16}
    (h : layout.Serializes type (.uninitialized offset)) : ∃ site number,
      type = .uninitialized site ∧ layout.labelOffset site = .ok number ∧
        offset = UInt16.ofNat number := by
  obtain ⟨pool, pool', h⟩ := h
  cases type with
  | object class' =>
    obtain ⟨index, _, _, h⟩ := state_bind_ok.1 h
    cases (state_pure_ok.1 h).1
  | uninitialized site =>
    obtain ⟨number, _, hnumber, h⟩ := state_bind_ok.1 h
    cases (state_pure_ok.1 h).1
    exact ⟨site, number, rfl, (ofExcept_ok.1 hnumber).1, rfl⟩
  | _ => cases (state_pure_ok.1 h).1

namespace Emission.Run

variable {analysis : Analysis} {entry : TypeState} {format : FrameFormat}
  {draft draft' : MethodDraft} {code : Code}

/-- An allocation to which control comes is emitted, and its label has its offset. -/
theorem mem_operations_of_site (run : Run analysis entry format draft draft' code)
    (he : analysis.Explored draft.body) {place : Nat} {type : PoolIndex} {site : Label}
    (hlive : analysis.isLive place)
    (hnew : draft.body.nodes[place]? = some (.operation (.step (.new type))))
    (hsite : Body.labelBefore draft.body.nodes place = some site) {number : Nat}
    (hnumber : run.layout.labelOffset site = .ok number) :
    (number, .step (.new type)) ∈ run.layout.operations := by
  obtain ⟨previous, rfl, hlabel⟩ := Body.labelBefore_eq_some.1 hsite
  have hleads : site.LeadsTo draft.body.nodes (previous + 1) :=
    ⟨previous, hlabel, (arrives_succ hlabel rfl).2 (.self hnew)⟩
  obtain ⟨target, next, hnext, hleads', labelled, hlabelled, harrives⟩ :=
    run.keeps.leadsAlike hleads hlive
  obtain rfl := hleads.unique he.uniqueLabels hleads'
  obtain ⟨labelled', hlabelled', hoffset⟩ := run.places.exists_place hnumber
  obtain rfl := run.places.unique hlabelled hlabelled'
  -- only labels and lines stand between the label and the allocation
  have hnode := (run.keeps.node hnext).trans hnew
  obtain ⟨offset, hoffset'⟩ := run.places.exists_offset hnode
  obtain rfl := run.places.offset_eq_of_arrives harrives hoffset hoffset'
  exact run.places.mem_operations.2 ⟨next, _, hnode, hoffset', rfl⟩

/-- The code of a layout is filled by its operations. -/
theorem tiles (run : Run analysis entry format draft draft' code)
    (he : analysis.Explored draft.body) (hvalid : draft.constants.Valid)
    (hfits : ∀ operation, .operation operation ∈ draft.body.nodes → operation.Fits draft.constants) :
    Operation.Tiles draft'.constants code.bytecode 0 run.layout.operations := by
  have hread := run.places.ofBytes_eq (run.leads_behind he hvalid hfits)
    ((run.writes hvalid).bytecode run.places)
  obtain ⟨entries, htiles, heq⟩ := DecodedCode.ofBytes_ok_iff.1 hread
  injection heq with _ hoperations _
  rwa [hoperations]

end Emission.Run

namespace Emission

variable {analysis : Analysis} {entry : TypeState} {format : FrameFormat}
  {draft draft' : MethodDraft} {code : Code}

/-- In the frames of emitted code, objects that are not initialized have the offsets of allocations.
-/
theorem emit_framesAllocations (hvalid : draft.constants.Valid) {context : MethodContext}
    {resolver resolver' : Resolver}
    (hfits : ∀ operation, .operation operation ∈ draft.body.nodes → operation.Fits draft.constants)
    (hentry : ∀ site, entry.Lacks site)
    (hanalyze : draft.body.analyze entry context resolver = .ok analysis resolver')
    (hemit : emit analysis entry format draft = .ok code draft') :
    code.FramesAllocations draft'.constants format := by
  have he := (Body.analyze_explored hanalyze).1
  obtain ⟨run, frames, hshows, hframes⟩ := emit_showsFrames hvalid hanalyze hemit
  refine ⟨_, run.layout, entry, frames, run.tiles he hvalid hfits, hshows, ?_⟩
  intro frame hframe offset hoffset
  obtain ⟨⟨start, state⟩, hstate, hof⟩ := forall₂_exists hframes.flip hframe
  obtain ⟨place, position, hposition, htarget, hstart, hknown⟩ := run.mem_states.1 hstate
  -- the type was written for one of the state
  have htypes : List.Forall₂ run.layout.Serializes
      (state.toFrame.locals.toList ++ state.stack.toList) (frame.locals ++ frame.stack) :=
    List.rel_append hof.locals hof.stack
  obtain ⟨type, htype, hwritten⟩ := forall₂_exists htypes.flip hoffset
  obtain ⟨site, number, rfl, hnumber, rfl⟩ := Layout.Serializes.site hwritten
  obtain ⟨allocated, index, hlive, hnew, hsite⟩ := Body.analyze_exists_allocation hanalyze hknown
    (hentry site) (TypeState.not_lacks_of_mem_frame htype)
  have hmem := run.mem_operations_of_site he hlive hnew hsite hnumber
  have hlt : number < 65536 := by
    obtain ⟨place, operation, hnode, ho, -⟩ := run.places.mem_operations.1 hmem
    have hless := run.places.offset_lt hnode ho
    have hlength := run.places.codeLength_le
    unfold Layout.maxCodeLength at hlength
    omega
  refine ⟨index, ?_⟩
  rw [UInt16.toNat_ofNat_of_lt' hlt]
  exact hmem

end Emission

end Preverification
