import Preverification.Proofs.ControlFlow
import Preverification.Proofs.RegionScan

/-!
# How regions cut a body

The end of a scan says how regions cut a body: where they start and end, what is inside of them, and
that the region changes only at the entry of a subroutine and behind a return. What is checked
besides is where control may go from one region to another.

* `Regions.Cuts`: how regions cut a body.
* `Regions.cuts_of_scan`: a scan in which no subroutine is left running cuts the body.
* `Regions.Checked`: where control may go from one region to another.
* `Body.regions_keep`: what a scan establishes, and handlers and ranges keep, is true of the regions
  of a body.
* `Body.regions_ok`: the regions of a body cut it, and are entered as was checked.
-/

namespace Preverification

/-- A label is called somewhere in a body. -/
def Body.Calls (body : Body) (label : Label) : Prop :=
  .operation (.branch (.jsr label)) ∈ body.nodes

namespace Region

/-- A region that notes a range keeps its bounds and its handlers, and has no ranges but those from
before and the one that it notes. -/
structure Notes (note : VariableRange → Region → Region) : Prop where
  bounds : ∀ range region, (note range region).entry = region.entry ∧
    (note range region).start = region.start ∧ (note range region).stop = region.stop
  handlers : ∀ range region, (note range region).handlers = region.handlers
  ranges : ∀ range region,
    ∀ found ∈ (note range region).localVariables.toList ++ (note range region).variableTypes.toList,
      found ∈ region.localVariables.toList ++ region.variableTypes.toList ∨ found = range

/-- The range of a variable changes the list of such ranges only. -/
theorem notes_variable : Notes noteVariable where
  bounds _ _ := ⟨rfl, rfl, rfl⟩
  handlers _ _ := rfl
  ranges range region found hfound := by
    simp only [noteVariable, Array.toList_push, List.mem_append, List.mem_singleton] at hfound ⊢
    tauto

/-- The range of the type of a variable is noted without a change to the bounds of a region. -/
theorem notes_variableType : Notes noteVariableType where
  bounds _ _ := ⟨rfl, rfl, rfl⟩
  handlers _ _ := rfl
  ranges range region found hfound := by
    simp only [noteVariableType, Array.toList_push, List.mem_append, List.mem_singleton] at hfound ⊢
    tauto

end Region

namespace Regions

/-- How regions cut a body. -/
structure Cuts (regions : Regions) (body : Body) : Prop where
  flow : regions.flow.Describes body.nodes
  size : regions.owners.size = body.nodes.length
  some_region : outer < regions.regions.size
  known : ∀ position < body.nodes.length, regions.owner position < regions.regions.size
  -- the outer region is the whole body
  whole : (regions.region outer).start = 0 ∧ (regions.region outer).stop = body.nodes.length
  entry : ∀ number, number ≠ outer → number < regions.regions.size →
    (regions.region number).entry.isSome
  -- nodes are in the range of their region
  owned : ∀ position < body.nodes.length,
    (regions.region (regions.owner position)).start ≤ position ∧
      position < (regions.region (regions.owner position)).stop
  -- nodes in the range of a subroutine belong to it, or to one inside of it
  inside : ∀ number, number ≠ outer → number < regions.regions.size → ∀ position,
    (regions.region number).start ≤ position → position < (regions.region number).stop →
      number ≤ regions.owner position
  -- a subroutine starts wherever a label is called
  entered : ∀ position label, body.nodes[position]? = some (.label label) → body.Calls label →
    regions.owner position ≠ outer ∧
      (regions.region (regions.owner position)).start = position ∧
      (regions.region (regions.owner position)).entry = some label
  -- going on from one node to the next one stays in a region, except behind a return
  stays : ∀ position before after, body.nodes[position]? = some before →
    before.isReturn = false → body.nodes[position + 1]? = some after →
      (∀ label, after = .label label → ¬ body.Calls label) →
      regions.owner (position + 1) = regions.owner position
  -- at the entry of a subroutine a new region starts
  starts : ∀ position before label, body.nodes[position]? = some before →
    before.isReturn = false → body.nodes[position + 1]? = some (.label label) →
      body.Calls label → regions.owner position < regions.owner (position + 1)
  -- the body starts in the outer region, except with a subroutine
  first : ∀ node, body.nodes[0]? = some node →
    (∀ label, node = .label label → ¬ body.Calls label) → regions.owner 0 = outer
  -- every label that is called is placed
  placed : ∀ label, body.Calls label → ∃ place : Nat, body.nodes[place]? = some (.label label)
  -- a subroutine ends with a return of its own
  ended : ∀ number, number ≠ outer → number < regions.regions.size →
    ∃ position node, (regions.region number).stop = position + 1 ∧
      body.nodes[position]? = some node ∧ node.isReturn ∧ regions.owner position = number

/-- The labels that are called are those that a call names. -/
theorem mem_calledLabels {body : Body} {label : Label} :
    label ∈ body.calledLabels ↔ body.Calls label := by
  unfold Body.calledLabels Body.Calls
  rw [List.mem_filterMap]
  constructor
  · rintro ⟨node, hmem, hnode⟩
    split at hnode
    · cases hnode
      exact hmem
    · cases hnode
  · intro hmem
    exact ⟨_, hmem, rfl⟩

/-- A subroutine is entered at a label that is called. -/
theorem isEntry_iff {body : Body} {node : Node} :
    node.isEntry (.ofList body.calledLabels) ↔ ∃ label, node = .label label ∧ body.Calls label := by
  cases node with
  | label label => simp [Node.isEntry, mem_calledLabels]
  | line | operation => simp [Node.isEntry]

/-- A scan in which no subroutine is left running cuts the body. -/
theorem cuts_of_scan {body : Body} {flow : Flow} {scan : RegionScan}
    (hd : flow.Describes body.nodes)
    (hreads : scan.Reads (.ofList body.calledLabels) body.nodes)
    (houter : scan.region outer = { entry := none, start := 0, stop := body.nodes.length })
    (hrunning : scan.running = [])
    (hplaced : ∀ label, body.Calls label →
      ∃ place : Nat, body.nodes[place]? = some (.label label)) :
    Cuts ⟨flow, scan.regions, scan.owners⟩ body := by
  have hn := hreads.nested
  have hsize := hreads.size
  -- all that has started has ended
  have hruns : ∀ number, ¬ scan.Runs number := by
    rintro number ⟨entry, hmem⟩
    rw [hrunning] at hmem
    cases hmem
  have hentry : ∀ node : Node, (∀ label, node = .label label → ¬ body.Calls label) →
      node.isEntry (.ofList body.calledLabels) = false := by
    intro node hno
    rw [Bool.eq_false_iff, Ne, isEntry_iff]
    rintro ⟨label, rfl, hcalls⟩
    exact hno label rfl hcalls
  refine ⟨hd, hsize, hn.some_region, fun position hlt => hn.known position (hsize ▸ hlt), ?_, ?_,
    ?_, ?_, ?_, ?_, ?_, ?_, hplaced, ?_⟩
  · -- the outer region
    change (scan.region outer).start = 0 ∧ (scan.region outer).stop = body.nodes.length
    rw [houter]
    exact ⟨rfl, rfl⟩
  · intro number hne hlt
    exact (hn.started number (Nat.pos_of_ne_zero hne) hlt).2.2
  · intro position hlt
    change (scan.region (scan.owner position)).start ≤ position ∧
      position < (scan.region (scan.owner position)).stop
    -- the outer region reaches everywhere, and the others up to where they ended
    by_cases ho : scan.owner position = outer
    · rw [ho, houter]
      exact ⟨Nat.zero_le _, hlt⟩
    · rcases hn.owned position (hsize ▸ hlt) ho with ⟨hstart, hstop⟩
      exact ⟨hstart, hstop.resolve_left (hruns _)⟩
  · intro number hne hlt position hstart hstop
    have hle := (hn.started number (Nat.pos_of_ne_zero hne) hlt).2.1
    exact hn.inside number (Nat.pos_of_ne_zero hne) hlt position (Nat.lt_of_lt_of_le hstop hle)
      ⟨hstart, .inr hstop⟩
  · intro position label hlabel hcalls
    exact hreads.entered position label hlabel (by simpa using mem_calledLabels.2 hcalls)
  · -- going on past a node that is no entry
    intro position before after hbefore hreturn hafter hno
    have hnext := hreads.next position before after hbefore hreturn hafter
    rw [hentry after hno] at hnext
    exact hnext
  · -- going on past an entry
    intro position before label hbefore hreturn hafter hcalls
    have hnext := hreads.next position before (.label label) hbefore hreturn hafter
    rw [if_pos (isEntry_iff.2 ⟨label, rfl, hcalls⟩)] at hnext
    exact hnext
  · intro node hnode hno
    have hfirst := hreads.first
    rw [if_neg (by rintro heq; rw [heq] at hnode; cases hnode)] at hfirst
    exact hfirst node hnode (hentry node hno)
  · intro number hne hlt
    exact hreads.ended number (Nat.pos_of_ne_zero hne) hlt (hruns number)

/-- What a scan starts with: the outer region, to which no node belongs yet. -/
abbrev startScan (body : Body) : RegionScan :=
  ⟨#[{ entry := none, start := 0, stop := body.nodes.length }], #[], []⟩

/-- The regions to which nothing was given yet are those of a scan that leaves no subroutine
running. -/
theorem ofNodes_ok {body : Body} {regions : Regions} : ofNodes body = .ok regions ↔
    body.flow = .ok regions.flow ∧
      (∀ label ∈ body.calledLabels, ∃ place, regions.flow.position label = .ok place) ∧
      body.nodes.foldl (RegionScan.add (.ofList body.calledLabels)) (startScan body) =
        ⟨regions.regions, regions.owners, []⟩ := by
  unfold ofNodes
  constructor
  · intro h
    obtain ⟨flow, hflow, h⟩ := except_bind_ok.1 h
    obtain ⟨_, hcalled, h⟩ := except_bind_ok.1 h
    -- a label without a place would have been an error
    have hplaced : ∀ label ∈ body.calledLabels, ∃ place, flow.position label = .ok place := by
      intro label hmem
      have hlabel := except_forM_ok.1 hcalled label hmem
      cases hposition : flow.position label with
      | error error =>
        rw [hposition] at hlabel
        cases hlabel
      | ok place => exact ⟨place, rfl⟩
    dsimp only at h
    -- from here on only what is left running matters
    generalize body.nodes.foldl _ _ = scan at h ⊢
    rcases scan with ⟨found, owners, running⟩
    cases running with
    | nil =>
      cases h
      exact ⟨except_mapError_ok.1 hflow, hplaced, rfl⟩
    | cons inner rest => cases h
  · rintro ⟨hflow, hplaced, hscan⟩
    rw [hflow]
    refine except_bind_ok.2 ⟨_, rfl, except_bind_ok.2 ⟨(), ?_, ?_⟩⟩
    · refine except_forM_ok.2 fun label hmem => ?_
      obtain ⟨place, hplace⟩ := hplaced label hmem
      rw [hplace]
      rfl
    · dsimp only
      rw [hscan]
      rfl

/-- The regions of a scan cut the body, if they are found. -/
theorem ofNodes_cuts {body : Body} {regions : Regions} (h : ofNodes body = .ok regions) :
    regions.Cuts body := by
  obtain ⟨hflow, hplaced, hscan⟩ := ofNodes_ok.1 h
  have hd := Body.flow_describes hflow
  obtain ⟨hreads, houter⟩ := RegionScan.reads_foldl (.ofList body.calledLabels)
    { entry := none, start := 0, stop := body.nodes.length } body.nodes
  rw [hscan] at hreads houter
  refine cuts_of_scan hd hreads houter rfl fun label hcalls => ?_
  obtain ⟨place, hplace⟩ := hplaced label (mem_calledLabels.2 hcalls)
  exact ⟨place, (hd.position_ok label place).1 hplace⟩

/-! ### A scan gives no handlers and ranges -/

/-- What holds of all regions and of an empty one holds of the region with any number. -/
theorem forall_region {regions : Regions} {P : Region → Prop} (hdefault : P default)
    (h : ∀ region ∈ regions.regions, P region) (number : Nat) : P (regions.region number) := by
  unfold region
  rw [Array.getD_eq_getD_getElem?]
  cases hregion : regions.regions[number]? with
  | none => exact hdefault
  | some found => exact h found (Array.mem_of_getElem? hregion)

end Regions

/-- A region has no handlers and ranges. -/
structure Region.Bare (region : Region) : Prop where
  handlers : region.handlers = #[]
  localVariables : region.localVariables = #[]
  variableTypes : region.variableTypes = #[]

namespace Regions

/-- A scan gives no handlers and no ranges to any region. -/
theorem ofNodes_bare {body : Body} {regions : Regions} (h : ofNodes body = .ok regions) :
    ∀ region ∈ regions.regions, region.Bare := by
  have hstart : ∀ region ∈ (startScan body).regions, region.Bare := by
    intro region hregion
    obtain rfl : region = { entry := none, start := 0, stop := body.nodes.length } := by
      simpa using hregion
    exact ⟨rfl, rfl, rfl⟩
  have hfound := RegionScan.forall_regions_foldl (fun _ _ _ => ⟨rfl, rfl, rfl⟩)
    (fun _ _ h => ⟨h.handlers, h.localVariables, h.variableTypes⟩) (.ofList body.calledLabels)
    body.nodes hstart
  rw [(ofNodes_ok.1 h).2.2] at hfound
  exact hfound

/-! ### Entries are checked -/

/-- What is checked about going from one node to another one. -/
structure Checked (regions : Regions) (body : Body) : Prop where
  jumps : ∀ position operation label, body.nodes[position]? = some (.operation operation) →
    operation.isSubroutine = false → label ∈ operation.targets →
      ∃ place : Nat, body.nodes[place]? = some (.label label) ∧
        mayEnter (regions.owner position) (regions.owner place)
  falls : ∀ position operation target, body.nodes[position]? = some (.operation operation) →
    operation.fallsThrough → Arrives body.nodes (position + 1) target →
      mayEnter (regions.owner position) (regions.owner target)
  returns : ∀ position slot, body.nodes[position]? = some (.operation (.branch (.ret slot))) →
    regions.owner position ≠ outer

/-- The owner of a label is the region at the place of the label. -/
theorem ownerOf_ok {regions : Regions} {body : Body} (hc : regions.Cuts body) {label : Label}
    {number : Nat} : regions.ownerOf label = .ok number ↔
      ∃ place : Nat, body.nodes[place]? = some (.label label) ∧ regions.owner place = number := by
  unfold ownerOf
  rw [except_bind_ok]
  simp only [except_mapError_ok, hc.flow.position_ok, pure, Except.pure, Except.ok.injEq]

/-- A jump that passes leads to a region that may be entered. -/
theorem checkJump_ok {regions : Regions} {body : Body} (hc : regions.Cuts body) {source : Nat}
    {label : Label} (h : regions.checkJump source label = .ok ()) :
    ∃ place : Nat, body.nodes[place]? = some (.label label) ∧
      mayEnter source (regions.owner place) := by
  unfold checkJump at h
  rcases except_bind_ok.1 h with ⟨number, hnumber, h⟩
  rcases (ownerOf_ok hc).1 hnumber with ⟨place, hplace, rfl⟩
  refine ⟨place, hplace, ?_⟩
  cases hm : mayEnter source (regions.owner place) with
  | true => rfl
  | false =>
    rw [hm] at h
    cases h

/-- Falling into the next operation is allowed only if its region may be entered. -/
theorem checkFallThrough_ok {regions : Regions} {body : Body} (hc : regions.Cuts body)
    {source position target : Nat} (h : regions.checkFallThrough source position = .ok ())
    (ht : Arrives body.nodes (position + 1) target) :
    mayEnter source (regions.owner target) := by
  unfold checkFallThrough at h
  rw [(hc.flow.operationFrom_eq _ _).2 ht] at h
  -- the outer region may be entered from everywhere
  by_cases houter : regions.owner target = outer
  · simp [mayEnter, houter]
  · have hentry := hc.entry _ houter (hc.known target ht.lt_length)
    rcases Option.isSome_iff_exists.1 hentry with ⟨entry, hentry⟩
    simp only [hentry] at h
    split at h
    · assumption
    · cases h

/-- Operations other than calls and returns are checked alike. -/
theorem checkOperation_eq (regions : Regions) (position : Nat) {operation : Operation Label}
    (h : operation.isSubroutine = false) :
    regions.checkOperation position operation = (do
      operation.targets.forM (regions.checkJump (regions.owner position))
      if operation.fallsThrough then
        regions.checkFallThrough (regions.owner position) position) := by
  cases operation with
  | step instruction => rfl
  | branch b =>
    cases b with
    | jsr | ret => cases h
    | _ => rfl

/-- If all operations pass, regions are entered only as they may be. -/
theorem checkEntries_ok {regions : Regions} {body : Body} (hc : regions.Cuts body)
    (h : regions.checkEntries body.nodes = .ok ()) : regions.Checked body := by
  have hall : ∀ position operation, body.nodes[position]? = some (.operation operation) →
      regions.checkOperation position operation = .ok () := by
    intro position operation ho
    exact except_forM_ok.1 h (.operation operation, position) (List.mk_mem_zipIdx_iff_getElem?.2 ho)
  refine ⟨?_, ?_, ?_⟩
  · intro position operation label ho hsub hlabel
    have hcheck := hall position operation ho
    rw [checkOperation_eq regions position hsub] at hcheck
    rcases except_bind_ok.1 hcheck with ⟨_, htargets, _⟩
    exact checkJump_ok hc (except_forM_ok.1 htargets label hlabel)
  · intro position operation target ho hf ht
    have hcheck := hall position operation ho
    -- what falls through neither calls nor returns
    have hsub : operation.isSubroutine = false := by
      cases operation with
      | step => rfl
      | branch b => cases b <;> first | rfl | cases hf
    rw [checkOperation_eq regions position hsub] at hcheck
    rcases except_bind_ok.1 hcheck with ⟨_, _, hfall⟩
    rw [if_pos hf] at hfall
    exact checkFallThrough_ok hc hfall ht
  · -- a return in the outer region is an error
    intro position slot ho houter
    have hcheck := hall position _ ho
    unfold checkOperation at hcheck
    rw [houter] at hcheck
    cases hcheck

/-! ### Handlers and ranges change no region -/

/-- Two descriptions of regions differ in handlers and ranges at most. -/
structure Agrees (regions regions' : Regions) : Prop where
  flow_eq : regions'.flow = regions.flow
  owners_eq : regions'.owners = regions.owners
  size_eq : regions'.regions.size = regions.regions.size
  region_eq : ∀ number, (regions'.region number).entry = (regions.region number).entry ∧
    (regions'.region number).start = (regions.region number).start ∧
    (regions'.region number).stop = (regions.region number).stop

theorem Agrees.refl (regions : Regions) : regions.Agrees regions :=
  ⟨rfl, rfl, rfl, fun _ => ⟨rfl, rfl, rfl⟩⟩

/-- Regions that agree with the same ones agree. -/
theorem Agrees.trans {first second third : Regions} (h : first.Agrees second)
    (h' : second.Agrees third) : first.Agrees third where
  flow_eq := h'.flow_eq.trans h.flow_eq
  owners_eq := h'.owners_eq.trans h.owners_eq
  size_eq := h'.size_eq.trans h.size_eq
  region_eq number := by
    rcases h.region_eq number with ⟨hentry, hstart, hstop⟩
    rcases h'.region_eq number with ⟨hentry', hstart', hstop'⟩
    exact ⟨hentry'.trans hentry, hstart'.trans hstart, hstop'.trans hstop⟩

/-- A region that keeps its entry and its ends agrees with what it was. -/
theorem agrees_update (regions : Regions) (number : Nat) {f : Region → Region}
    (hf : ∀ region, (f region).entry = region.entry ∧ (f region).start = region.start ∧
      (f region).stop = region.stop) : regions.Agrees (regions.update number f) where
  flow_eq := rfl
  owners_eq := rfl
  size_eq := Array.size_modify
  region_eq other := by
    unfold update region
    simp only [Array.getD_eq_getD_getElem?, Array.getElem?_modify]
    by_cases heq : number = other
    · rw [if_pos heq]
      cases regions.regions[other]? with
      | none => exact ⟨rfl, rfl, rfl⟩
      | some region => exact hf region
    · rw [if_neg heq]
      exact ⟨rfl, rfl, rfl⟩

/-- A handler is given to a region in which its range starts and its code is. -/
theorem addHandler_cases {regions regions' : Regions} {handler : Handler}
    (h : regions.addHandler handler = .ok regions') :
    ∃ home, regions.ofRange handler.start handler.stop = .ok (some home) ∧
      regions.ownerOf handler.handler = .ok home ∧
      regions' = regions.update home fun found =>
        { found with handlers := found.handlers.push handler } := by
  unfold addHandler at h
  obtain ⟨home, hrange, h⟩ := except_bind_ok.1 h
  cases home with
  | none => cases h
  | some home =>
    obtain ⟨number, hnumber, h⟩ := except_bind_ok.1 h
    split at h
    · rename_i heq
      cases h
      exact ⟨home, hrange, heq ▸ hnumber, rfl⟩
    · cases h

/-- The range of a variable is noted in a region in which it starts, or lost. -/
theorem addRange_cases {note : VariableRange → Region → Region} {regions regions' : Regions}
    {range : VariableRange} (h : regions.addRange note range = .ok regions') :
    regions' = regions ∨ ∃ home, regions.ofRange range.start range.stop = .ok (some home) ∧
      regions' = regions.update home (note range) := by
  unfold addRange at h
  obtain ⟨home, hrange, h⟩ := except_bind_ok.1 h
  cases home with
  | none =>
    cases h
    exact .inl rfl
  | some home =>
    cases h
    exact .inr ⟨home, hrange, rfl⟩

/-- Handlers change no region. -/
theorem addHandler_agrees {regions regions' : Regions} {handler : Handler}
    (h : regions.addHandler handler = .ok regions') : regions.Agrees regions' := by
  obtain ⟨home, -, -, rfl⟩ := addHandler_cases h
  exact agrees_update regions home fun _ => ⟨rfl, rfl, rfl⟩

/-- Ranges of variables change none either. -/
theorem addRange_agrees {note : VariableRange → Region → Region} {regions regions' : Regions}
    {range : VariableRange} (hnote : Region.Notes note)
    (h : regions.addRange note range = .ok regions') : regions.Agrees regions' := by
  rcases addRange_cases h with rfl | ⟨home, -, rfl⟩
  · exact .refl regions'
  · exact agrees_update regions home (hnote.bounds range)

/-- Nor do several of either kind. -/
theorem foldlM_agrees {α : Type} {step : Regions → α → Except SubroutineError Regions}
    (hstep : ∀ regions a regions', step regions a = .ok regions' → regions.Agrees regions')
    {l : List α} {regions regions' : Regions} (h : l.foldlM step regions = .ok regions') :
    regions.Agrees regions' :=
  except_foldlM_keeps (fun a _ middle later hmiddle hlater =>
    hmiddle.trans (hstep middle a later hlater)) (.refl regions) h

theorem foldlM_addRange_agrees {note : VariableRange → Region → Region} (hnote : Region.Notes note)
    {ranges : List VariableRange} {regions regions' : Regions}
    (h : ranges.foldlM (addRange note) regions = .ok regions') : regions.Agrees regions' :=
  foldlM_agrees (fun _ _ _ => addRange_agrees hnote) h

namespace Agrees

variable {regions regions' : Regions} {body : Body}

theorem owner_eq (h : regions.Agrees regions') : regions'.owner = regions.owner := by
  unfold owner
  rw [h.owners_eq]

/-- Regions that agree with some that cut the body cut it too. -/
theorem cuts (h : regions.Agrees regions') (hc : regions.Cuts body) : regions'.Cuts body where
  -- regions that agree differ in their handlers and notes, which no field reads
  flow := h.flow_eq ▸ hc.flow
  size := h.owners_eq ▸ hc.size
  some_region := h.size_eq ▸ hc.some_region
  known := by
    rw [h.owner_eq, h.size_eq]
    exact hc.known
  whole := by
    rcases h.region_eq outer with ⟨_, hstart, hstop⟩
    rw [hstart, hstop]
    exact hc.whole
  entry number := by
    rw [h.size_eq, (h.region_eq number).1]
    exact hc.entry number
  owned position := by
    rcases h.region_eq (regions.owner position) with ⟨_, hstart, hstop⟩
    rw [h.owner_eq, hstart, hstop]
    exact hc.owned position
  inside number := by
    rcases h.region_eq number with ⟨_, hstart, hstop⟩
    rw [h.owner_eq, h.size_eq, hstart, hstop]
    exact hc.inside number
  entered position := by
    rcases h.region_eq (regions.owner position) with ⟨hentry, hstart, _⟩
    rw [h.owner_eq, hentry, hstart]
    exact hc.entered position
  stays := h.owner_eq ▸ hc.stays
  starts := h.owner_eq ▸ hc.starts
  first := h.owner_eq ▸ hc.first
  placed := hc.placed
  ended number := by
    rw [h.owner_eq, h.size_eq, (h.region_eq number).2.2]
    exact hc.ended number

/-- Regions that agree are entered in the same way. -/
theorem checked (h : regions.Agrees regions') (hc : regions.Checked body) :
    regions'.Checked body where
  jumps := h.owner_eq ▸ hc.jumps
  falls := h.owner_eq ▸ hc.falls
  returns := h.owner_eq ▸ hc.returns

end Agrees

end Regions

/-- The regions of a body are those of a scan, to which handlers, then ranges of variables, and then
ranges of their types were given. -/
theorem Body.regions_stages {body : Body} {regions : Regions} (h : body.regions = .ok regions) :
    ∃ bare guarded ranged, Regions.ofNodes body = .ok bare ∧
      bare.checkEntries body.nodes = .ok () ∧
      body.handlers.foldlM Regions.addHandler bare = .ok guarded ∧
      body.localVariables.foldlM (Regions.addRange Region.noteVariable) guarded = .ok ranged ∧
      body.variableTypes.foldlM (Regions.addRange Region.noteVariableType) ranged = .ok regions := by
  unfold Body.regions at h
  rcases except_bind_ok.1 h with ⟨bare, hbare, h⟩
  rcases except_bind_ok.1 h with ⟨_, hentries, h⟩
  rcases except_bind_ok.1 h with ⟨guarded, hhandlers, h⟩
  rcases except_bind_ok.1 h with ⟨ranged, hvariables, htypes⟩
  exact ⟨bare, guarded, ranged, hbare, hentries, hhandlers, hvariables, htypes⟩

/-- What holds of the regions that a scan finds, and is kept when a handler or a range is given to
them, holds of the regions of a body. -/
theorem Body.regions_keep {P : Regions → Prop} {body : Body} {regions : Regions}
    (h : body.regions = .ok regions) (hbare : ∀ bare, Regions.ofNodes body = .ok bare → P bare)
    (hhandler : ∀ handler ∈ body.handlers, ∀ old new : Regions, P old →
      old.addHandler handler = .ok new → P new)
    (hvariable : ∀ range ∈ body.localVariables, ∀ old new : Regions, P old →
      old.addRange Region.noteVariable range = .ok new → P new)
    (htype : ∀ range ∈ body.variableTypes, ∀ old new : Regions, P old →
      old.addRange Region.noteVariableType range = .ok new → P new) : P regions := by
  rcases regions_stages h with ⟨bare, guarded, ranged, hscan, -, hhandlers, hvariables, htypes⟩
  have hguarded := except_foldlM_keeps hhandler (hbare bare hscan) hhandlers
  exact except_foldlM_keeps htype (except_foldlM_keeps hvariable hguarded hvariables) htypes

/-- The regions of a body agree with those of a scan. -/
theorem Body.regions_agrees {body : Body} {regions : Regions} (h : body.regions = .ok regions) :
    ∃ bare, Regions.ofNodes body = .ok bare ∧ bare.checkEntries body.nodes = .ok () ∧
      bare.Agrees regions := by
  rcases regions_stages h with ⟨bare, _, _, hbare, hentries, hhandlers, hvariables, htypes⟩
  exact ⟨bare, hbare, hentries,
    ((Regions.foldlM_agrees (fun _ _ _ => Regions.addHandler_agrees) hhandlers).trans
      (Regions.foldlM_addRange_agrees Region.notes_variable hvariables)).trans
        (Regions.foldlM_addRange_agrees Region.notes_variableType htypes)⟩

/-- The regions of a body cut it, and are entered as was checked. -/
theorem Body.regions_ok {body : Body} {regions : Regions} (h : body.regions = .ok regions) :
    regions.Cuts body ∧ regions.Checked body := by
  obtain ⟨bare, hbare, hentries, hagrees⟩ := regions_agrees h
  have hc := Regions.ofNodes_cuts hbare
  exact ⟨hagrees.cuts hc, hagrees.checked (Regions.checkEntries_ok hc hentries)⟩

/-- The regions to which nothing was given yet are those that the scan finds. -/
theorem Regions.ofNodes_of_scan {body : Body} {regions : Regions}
    (hflow : body.flow = .ok regions.flow)
    (hplaced : ∀ label ∈ body.calledLabels, ∃ place, regions.flow.position label = .ok place)
    (hscan : body.nodes.foldl (RegionScan.add (.ofList body.calledLabels))
      ⟨#[{ entry := none, start := 0, stop := body.nodes.length }], #[], []⟩ =
        ⟨regions.regions, regions.owners, []⟩) : Regions.ofNodes body = .ok regions :=
  Regions.ofNodes_ok.2 ⟨hflow, hplaced, hscan⟩

/-- The regions of a body without handlers and ranges are those that the scan finds, if entries are
as they should be. -/
theorem Body.regions_of_scan {body : Body} {regions : Regions}
    (hflow : body.flow = .ok regions.flow)
    (hplaced : ∀ label ∈ body.calledLabels, ∃ place, regions.flow.position label = .ok place)
    (hscan : body.nodes.foldl (RegionScan.add (.ofList body.calledLabels))
      ⟨#[{ entry := none, start := 0, stop := body.nodes.length }], #[], []⟩ =
        ⟨regions.regions, regions.owners, []⟩)
    (hentries : regions.checkEntries body.nodes = .ok ()) (hhandlers : body.handlers = [])
    (hvariables : body.localVariables = []) (htypes : body.variableTypes = []) :
    body.regions = .ok regions := by
  unfold Body.regions
  rw [Regions.ofNodes_of_scan hflow hplaced hscan, hhandlers, hvariables, htypes]
  exact except_bind_ok.2 ⟨_, rfl, except_bind_ok.2 ⟨(), hentries, rfl⟩⟩

end Preverification
