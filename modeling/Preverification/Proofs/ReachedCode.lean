import Preverification.Proofs.LiveFlow
import Preverification.Proofs.RoundTrip

/-!
# Reachable code

Control comes to the same operations of a method at every stage of its treatment: to those that stay
when unreachable ones go, to those at their offsets in the code that is written, and to those that
are decoded from there.

* `Analysis.Explored.reached`: control comes to an operation that stays as it did before.
* `Layout.Places.reaches`: control comes to the offsets of the operations to which it comes in the
  body.
* `Body.reached_assemble`: control comes to the operations at the offsets to which it comes.
-/

namespace Preverification

/-! ### Operations that stay -/

namespace Analysis

variable {analysis : Analysis} {body body' : Body} {positions : List Nat} {place position : Nat}

/-- Each position has one place among those that stay. -/
theorem Keeps.place_unique {nodes nodes' : List Node} (hk : analysis.Keeps nodes nodes' positions)
    {place' : Nat} (h : positions[place]? = some position)
    (h' : positions[place']? = some position) : place = place' := by
  have hle := hk.le_iff h h'
  have hle' := hk.le_iff h' h
  omega

/-- Where control comes when it follows a label, it comes to when it follows the label to what
stays. -/
theorem Keeps.leadsTo {nodes nodes' : List Node} (hk : analysis.Keeps nodes nodes' positions)
    {label : Label} {target : Nat} (h : label.LeadsTo nodes target) (hlive : analysis.isLive target)
    (hplace : positions[place]? = some target) : label.LeadsTo nodes' place := by
  rcases h with ⟨labelled, hnode, harrives⟩
  rcases hk.exists_label hnode with ⟨labelled', hlabelled, hnode'⟩
  rcases hk.arrives_from hlabelled harrives hlive with ⟨place', hplace', harrives'⟩
  cases hk.place_unique hplace hplace'
  exact ⟨labelled', hnode', harrives'⟩

/-- A handler goes on to protect what stays. -/
theorem Keeps.guards {nodes nodes' : List Node} (hk : analysis.Keeps nodes nodes' positions)
    {handler : Handler} {before target : Nat} (h : handler.Guards nodes position target)
    (hbefore : positions[before]? = some position) (hlive : analysis.isLive target)
    (hplace : positions[place]? = some target) : handler.Guards nodes' before place := by
  rcases h with ⟨⟨start, stop, hstart, hstop, hle, hlt⟩, hcode⟩
  rcases hk.exists_label hstart with ⟨start', hstartPlace, hstart'⟩
  rcases hk.exists_label hstop with ⟨stop', hstopPlace, hstop'⟩
  have hfirst := (hk.le_iff hstartPlace hbefore).2 hle
  have hlast := hk.le_iff hstopPlace hbefore
  exact ⟨⟨start', stop', hstart', hstop', hfirst, by omega⟩, hk.leadsTo hcode hlive hplace⟩

/-- Control comes to an operation that stays as it did before. -/
theorem Explored.reached (he : analysis.Explored body)
    (hk : analysis.Keeps body.nodes body'.nodes positions)
    (hhandlers : ∀ handler ∈ body.handlers, (∃ target, handler.handler.LeadsTo body.nodes target ∧
      analysis.isLive target) → handler ∈ body'.handlers)
    (hreached : body.Reached position) (hplace : positions[place]? = some position) :
    body'.Reached place := by
  -- an operation to which control comes stays, and so it has a place
  have hstays : ∀ {position}, body.Reached position → ∃ place : Nat,
      positions[place]? = some position := by
    intro position hreached
    rcases hreached.arrives with ⟨_, harrives⟩
    rcases harrives.operation with ⟨operation, ho⟩
    exact hk.exists_place (stays_of_arrives ho (.self ho) ((he.isLive_iff position).2 hreached))
  induction hreached generalizing place with
  | @start target harrives =>
    have hlive := (he.isLive_iff target).2 (.start harrives)
    have hzero : ∀ (later found : Nat), positions[later]? = some found → (0 ≤ later ↔ 0 ≤ found) :=
      fun later found _ => iff_of_true (Nat.zero_le later) (Nat.zero_le found)
    rcases hk.arrives hzero harrives hlive with ⟨place', hplace', harrives'⟩
    cases hk.place_unique hplace hplace'
    exact .start harrives'
  | @next position target hreached hsuccessor ih =>
    have hlive := (he.isLive_iff target).2 (.next hreached hsuccessor)
    rcases hstays hreached with ⟨before, hbefore⟩
    refine .next (ih hbefore) ?_
    cases hsuccessor with
    | @jump operation label labelled ho hlabel hnode harrives =>
      rcases hk.leadsTo ⟨labelled, hnode, harrives⟩ hlive hplace with
        ⟨labelled', hnode', harrives'⟩
      exact .jump ((hk.node hbefore).trans ho) hlabel hnode' harrives'
    | @fallThrough operation ho hfalls harrives =>
      rcases hk.arrives_behind hbefore harrives hlive with ⟨place', hplace', harrives'⟩
      cases hk.place_unique hplace hplace'
      exact .fallThrough ((hk.node hbefore).trans ho) hfalls harrives'
  | @caught position target handler hreached hhandler hguards ih =>
    have hlive := (he.isLive_iff target).2 (.caught hreached hhandler hguards)
    rcases hstays hreached with ⟨before, hbefore⟩
    exact .caught (ih hbefore) (hhandlers handler hhandler ⟨target, hguards.code, hlive⟩)
      (hk.guards hguards hbefore hlive hplace)

end Analysis

/-! ### Offsets to which control comes -/

namespace DecodedCode

/-- Control comes to an offset of some code: to the first one, and from an operation to which it
comes to the next one, to the targets of its jumps, and to the handlers around it. -/
inductive Reaches (decoded : DecodedCode) (exceptions : List ExceptionEntry) : Nat → Prop where
  | start : Reaches decoded exceptions 0
  | falls {entry next : Nat × Operation Nat} : Reaches decoded exceptions entry.1 →
      entry ∈ decoded.operations → entry.2.fallsThrough → next ∈ decoded.operations →
      entry.1 < next.1 → (∀ other ∈ decoded.operations, other.1 ≤ entry.1 ∨ next.1 ≤ other.1) →
      Reaches decoded exceptions next.1
  | jumps {entry : Nat × Operation Nat} {target : Nat} : Reaches decoded exceptions entry.1 →
      entry ∈ decoded.operations → target ∈ entry.2.targets → Reaches decoded exceptions target
  | caught {entry : Nat × Operation Nat} {exception : ExceptionEntry} :
      Reaches decoded exceptions entry.1 → entry ∈ decoded.operations → exception ∈ exceptions →
      exception.protects entry.1 → Reaches decoded exceptions exception.handler.toNat

end DecodedCode

namespace Layout

variable {layout : Layout} {body : Body} {place offset : Nat}

/-- The operations of a layout are those of its body, at their offsets. -/
theorem Places.mem_operations (h : layout.Places body) {entry : Nat × Operation Nat} :
    entry ∈ layout.operations ↔ ∃ (place : Nat) (operation : Operation Label),
      body.nodes[place]? = some (.operation operation) ∧ layout.offset? place = some entry.1 ∧
      entry.2 = operation.map layout.offsetOf := by
  unfold operations
  rw [List.mem_filterMap]
  constructor
  · rintro ⟨⟨node, offset, long⟩, hentry, hplaced⟩
    rcases List.mem_iff_getElem?.1 hentry with ⟨place, hplace⟩
    cases node with
    | label _ | line _ => cases hplaced
    | operation operation =>
      cases hplaced
      refine ⟨place, operation, ?_, by simp [offset?, hplace], rfl⟩
      rw [← h.nodes_eq, List.getElem?_map, hplace]
      rfl
  · rintro ⟨place, operation, hnode, ho, hoperation⟩
    rw [← h.nodes_eq, List.getElem?_map, Option.map_eq_some_iff] at hnode
    rcases hnode with ⟨⟨node, offset, long⟩, hplace, hsame⟩
    unfold offset? at ho
    rw [hplace] at ho
    cases ho
    cases hsame
    exact ⟨_, List.mem_of_getElem? hplace, by rw [← Prod.mk.eta (p := entry), hoperation]; rfl⟩

theorem Places.offset?_zero (h : layout.Places body) (hlt : 0 < body.nodes.length) :
    layout.offset? 0 = some 0 := by
  rcases h.exists_offset (List.getElem?_eq_getElem hlt) with ⟨offset, ho⟩
  cases (h.laid.cut ho).1
  exact ho

/-- The offset of a label is that of the operation to which it leads. -/
theorem Places.offsetOf_of_leadsTo (h : layout.Places body) {label : Label}
    (hlabel : label ∈ body.referencedLabels) (hleads : label.LeadsTo body.nodes place)
    (ho : layout.offset? place = some offset) : layout.offsetOf label = offset := by
  rcases hleads with ⟨labelled, hnode, harrives⟩
  rcases h.exists_place (h.labelOffset hlabel) with ⟨labelled', hnode', ho'⟩
  cases h.unique hnode hnode'
  exact (h.offset_eq_of_arrives harrives ho' ho).symm

/-- No operation stands between an operation and the next one. -/
theorem Places.not_between (h : layout.Places body) {position target before : Nat}
    (harrives : Arrives body.nodes (position + 1) target)
    (hbefore : layout.offset? position = some before) (ho : layout.offset? target = some offset)
    {other : Nat × Operation Nat} (hother : other ∈ layout.operations) :
    other.1 ≤ before ∨ offset ≤ other.1 := by
  rcases h.mem_operations.1 hother with ⟨passed, operation, hpassed, hpassedOffset, _⟩
  rcases Nat.lt_or_ge position passed with hlt | hge
  · rcases Nat.lt_or_ge passed target with hlt' | hge'
    · exact absurd hpassed (harrives.between passed hlt hlt' operation)
    · exact .inr (h.le hge' ho hpassedOffset)
  · exact .inl (h.le hge hpassedOffset hbefore)

/-- Control comes to the offsets of the operations to which it comes in the body. -/
theorem Places.reaches (h : layout.Places body) {exceptions : List ExceptionEntry}
    (htables : layout.Tables body exceptions) (hreached : body.Reached place)
    (ho : layout.offset? place = some offset) : layout.decoded.Reaches exceptions offset := by
  have hoffset : ∀ {place}, body.Reached place → ∃ (operation : Operation Label) (offset : Nat),
      body.nodes[place]? = some (.operation operation) ∧ layout.offset? place = some offset := by
    intro place hreached
    rcases hreached.arrives with ⟨_, harrives⟩
    rcases harrives.operation with ⟨operation, hnode⟩
    rcases h.exists_offset hnode with ⟨offset, ho⟩
    exact ⟨operation, offset, hnode, ho⟩
  -- each way to come to a place of the body is one to come to its offset
  induction hreached generalizing offset with
  | @start target harrives =>
    have hzero := h.offset?_zero (Nat.zero_lt_of_lt harrives.lt_length)
    rw [h.offset_eq_of_arrives harrives hzero ho]
    exact .start
  | @next position target hreached hsuccessor ih =>
    rcases hoffset hreached with ⟨operation, before, hnode, hbefore⟩
    have hentry : (before, operation.map layout.offsetOf) ∈ layout.operations :=
      h.mem_operations.2 ⟨position, operation, hnode, hbefore, rfl⟩
    cases hsuccessor with
    | @jump found label labelled hnode' hlabel hlabelled harrives =>
      cases hnode.symm.trans hnode'
      refine .jumps (ih hbefore) hentry ?_
      have hreferenced := Body.mem_referencedLabels (List.mem_of_getElem? hnode) hlabel
      rw [Operation.targets_map,
        ← h.offsetOf_of_leadsTo hreferenced ⟨labelled, hlabelled, harrives⟩ ho]
      exact List.mem_map_of_mem hlabel
    | @fallThrough found hnode' hfalls harrives =>
      cases hnode.symm.trans hnode'
      rcases harrives.operation with ⟨next, hnext⟩
      have hle : position ≤ target := Nat.le_trans (Nat.le_succ position) harrives.le
      have hnextEntry : (offset, next.map layout.offsetOf) ∈ layout.operations :=
        h.mem_operations.2 ⟨target, next, hnext, ho, rfl⟩
      refine .falls (ih hbefore) hentry ((Operation.fallsThrough_map _ _).trans hfalls) hnextEntry
        ?_ fun other hother => h.not_between harrives hbefore ho hother
      exact (h.lt_iff hle hbefore ho).2 ⟨position, operation, Nat.le_refl _, harrives.le, hnode⟩
  | @caught position target handler hreached hhandler hguards ih =>
    rcases hoffset hreached with ⟨operation, before, hnode, hbefore⟩
    have hentry : (before, operation.map layout.offsetOf) ∈ layout.operations :=
      h.mem_operations.2 ⟨position, operation, hnode, hbefore, rfl⟩
    rcases hguards with ⟨⟨start, stop, hstart, hstop, hrange⟩, hcode⟩
    have hprotects := (h.uniqueLabels.protects_iff hstart hstop).2 hrange
    rcases forall₂_exists (htables.around position before operation hnode hbefore)
      (List.mem_filter.2 ⟨hhandler, hprotects⟩) with ⟨exception, hexception, henters⟩
    rcases List.mem_filter.1 hexception with ⟨hmem, hprotects'⟩
    rcases henters.code with ⟨target', hcode', ho'⟩
    cases Label.LeadsTo.unique hcode h.uniqueLabels hcode'
    cases ho.symm.trans ho'
    exact .caught (ih hbefore) hentry hmem hprotects'

end Layout

/-! ### Operations that are decoded -/

/-- Nodes stand at offsets that ascend, and operations take up room. -/
def Ascends (standing : List (Node × Nat)) : Prop :=
  standing.Pairwise fun before behind =>
    before.2 ≤ behind.2 ∧ (before.1.isOperation = true → before.2 < behind.2)

namespace Ascends

variable {standing : List (Node × Nat)} {place place' offset offset' : Nat} {node : Node}
  {operation operation' : Operation Label}

/-- What stands further on has no lower offset, and behind an operation it has a higher one. -/
theorem le_and_lt (h : Ascends standing) {before behind : Node × Nat} (hlt : place < place')
    (hbefore : standing[place]? = some before) (hbehind : standing[place']? = some behind) :
    before.2 ≤ behind.2 ∧ (before.1.isOperation = true → before.2 < behind.2) := by
  rcases List.getElem?_eq_some_iff.1 hbefore with ⟨hplace, rfl⟩
  rcases List.getElem?_eq_some_iff.1 hbehind with ⟨hplace', rfl⟩
  exact List.pairwise_iff_getElem.1 h place place' hplace hplace' hlt

/-- Operations are in the order of their offsets. -/
theorem lt_iff (h : Ascends standing) (ho : standing[place]? = some (.operation operation, offset))
    (ho' : standing[place']? = some (.operation operation', offset')) :
    place < place' ↔ offset < offset' := by
  constructor
  · exact fun hlt => (h.le_and_lt hlt ho ho').2 rfl
  · intro hlt
    rcases Nat.lt_trichotomy place place' with hless | rfl | hless
    · exact hless
    · cases ho.symm.trans ho'
      exact absurd hlt (Nat.lt_irrefl _)
    · exact absurd ((h.le_and_lt hless ho' ho).2 rfl) (Nat.lt_asymm hlt)

theorem le_iff (h : Ascends standing) {label : Label}
    (hlabel : standing[place]? = some (.label label, offset))
    (ho : standing[place']? = some (.operation operation, offset')) :
    place ≤ place' ↔ offset ≤ offset' := by
  constructor
  · intro hle
    rcases Nat.lt_or_eq_of_le hle with hlt | rfl
    · exact (h.le_and_lt hlt hlabel ho).1
    · cases hlabel.symm.trans ho
  · intro hle
    by_contra hlt
    have hless := (h.le_and_lt (Nat.lt_of_not_le hlt) ho hlabel).2 rfl
    exact absurd hle (Nat.not_le_of_lt hless)

/-- From a place on, control arrives at the operation with the least offset from `low` on. -/
theorem arrives (h : Ascends standing)
    (ho : standing[place']? = some (.operation operation, offset)) {low : Nat} (hlow : low ≤ offset)
    (hplace : ∀ (passed found : Nat) (operation : Operation Label),
      standing[passed]? = some (.operation operation, found) → (place ≤ passed ↔ low ≤ found))
    (hleast : ∀ (passed found : Nat) (operation : Operation Label),
      standing[passed]? = some (.operation operation, found) → low ≤ found → offset ≤ found) :
    Arrives (standing.map (·.1)) place place' := by
  refine ⟨(hplace place' offset operation ho).2 hlow, ⟨operation, ?_⟩, ?_⟩
  · rw [List.getElem?_map, ho]
    rfl
  · intro passed hle hlt operation' hpassed
    rw [List.getElem?_map, Option.map_eq_some_iff] at hpassed
    rcases hpassed with ⟨⟨_, found⟩, hfound, rfl⟩
    have hless := (h.lt_iff hfound ho).1 hlt
    have hge := hleast passed found operation' hfound ((hplace passed found operation' hfound).1 hle)
    exact absurd hge (Nat.not_le_of_lt hless)

end Ascends

namespace Body

variable {code : Code} {decoded : DecodedCode} {attributes : CodeAttributes} {pool : Pool}
  {labels : Std.HashMap Nat Label} {lines : Std.HashMap Nat (List UInt16)} {offset : Nat}

/-- The nodes of an operation at its offset. -/
def standingAt (labels : Std.HashMap Nat Label) (lines : Std.HashMap Nat (List UInt16))
    (entry : Nat × Operation Nat) : List (Node × Nat) :=
  (operationNodes labels lines entry.1 entry.2).map (·, entry.1)

/-- The nodes of some code, each with the offset at which it stands. -/
def standing (labels : Std.HashMap Nat Label) (lines : Std.HashMap Nat (List UInt16))
    (decoded : DecodedCode) : List (Node × Nat) :=
  decoded.operations.flatMap (standingAt labels lines) ++
    labels[decoded.length]?.toList.map fun label => (.label label, decoded.length)

theorem map_standing : (standing labels lines decoded).map (·.1) =
    decoded.operations.flatMap (fun entry => operationNodes labels lines entry.1 entry.2) ++
      labels[decoded.length]?.toList.map .label := by
  simp [standing, standingAt, List.map_flatMap, Function.comp_def]

theorem mem_standingAt {entry : Nat × Operation Nat} {found : Node × Nat}
    (h : found ∈ standingAt labels lines entry) : found.2 = entry.1 := by
  rcases List.mem_map.1 h with ⟨_, _, rfl⟩
  rfl

/-- Labels and lines stand at the offset of their operation, in front of it. -/
theorem standingAt_ascends (entry : Nat × Operation Nat) :
    Ascends (standingAt labels lines entry) := by
  have hheads : ∀ before ∈ (labels[entry.1]?.toList.map Node.label ++
      (lines.getD entry.1 []).map Node.line).map (·, entry.1), ∀ behind : Node × Nat,
        behind.2 = entry.1 →
          before.2 ≤ behind.2 ∧ (before.1.isOperation = true → before.2 < behind.2) := by
    rintro before hbefore behind hbehind
    rcases List.mem_map.1 hbefore with ⟨node, hnode, rfl⟩
    refine ⟨Nat.le_of_eq hbehind.symm, fun hoperation => ?_⟩
    cases (Layout.silent_heads _ _ node hnode).symm.trans hoperation
  unfold Ascends standingAt operationNodes
  rw [List.map_append, List.pairwise_append]
  refine ⟨List.pairwise_of_forall_mem_list fun before hbefore behind hbehind => ?_,
    List.pairwise_singleton _ _, fun before hbefore behind hbehind => ?_⟩
  · rcases List.mem_map.1 hbehind with ⟨_, _, rfl⟩
    exact hheads before hbefore _ rfl
  · rcases List.mem_map.1 hbehind with ⟨_, _, rfl⟩
    exact hheads before hbefore _ rfl

/-- The nodes of decoded code stand at ascending offsets. -/
theorem standing_ascends (h : decoded.Read pool) : Ascends (standing labels lines decoded) := by
  have hplaces := h.places_ascend
  unfold DecodedCode.places at hplaces
  rcases List.pairwise_append.1 hplaces with ⟨hoperations, _, hend⟩
  unfold Ascends standing
  rw [List.pairwise_append, List.pairwise_flatMap]
  refine ⟨⟨fun entry _ => standingAt_ascends entry, ?_⟩, ?_, ?_⟩
  · -- operations stand at ascending offsets, with their labels and lines in front of them
    refine (List.pairwise_map.1 hoperations).imp ?_
    intro entry later hlt before hbefore behind hbehind
    rw [mem_standingAt hbefore, mem_standingAt hbehind]
    exact ⟨Nat.le_of_lt hlt, fun _ => hlt⟩
  · refine List.pairwise_of_forall_mem_list ?_
    rintro before hbefore behind hbehind
    rcases List.mem_map.1 hbefore with ⟨_, _, rfl⟩
    rcases List.mem_map.1 hbehind with ⟨_, _, rfl⟩
    exact ⟨Nat.le_refl _, nofun⟩
  · rintro before hbefore behind hbehind
    rcases List.mem_flatMap.1 hbefore with ⟨entry, hentry, hbefore⟩
    rcases List.mem_map.1 hbehind with ⟨_, _, rfl⟩
    have hlt := hend entry.1 (List.mem_map_of_mem hentry) _ (List.mem_singleton.2 rfl)
    rw [mem_standingAt hbefore]
    exact ⟨Nat.le_of_lt hlt, fun _ => hlt⟩

/-- Operations stand at their offsets. -/
theorem mem_standing_operation {operation : Operation Label} :
    (.operation operation, offset) ∈ standing labels lines decoded ↔
      ∃ entry ∈ decoded.operations, offset = entry.1 ∧
        operation = entry.2.map (labels.getD · default) := by
  unfold standing
  rw [List.mem_append, List.mem_flatMap]
  constructor
  · rintro (⟨entry, hentry, hmem⟩ | hmem)
    · rcases List.mem_map.1 hmem with ⟨node, hnode, hsame⟩
      cases hsame
      rcases List.mem_append.1 hnode with hhead | hlast
      · cases Layout.silent_heads _ _ _ hhead
      · exact ⟨entry, hentry, rfl, Node.operation.inj (List.mem_singleton.1 hlast)⟩
    · rcases List.mem_map.1 hmem with ⟨_, _, hsame⟩
      cases hsame
  · rintro ⟨entry, hentry, rfl, rfl⟩
    refine .inl ⟨entry, hentry, List.mem_map_of_mem ?_⟩
    exact List.mem_append_right _ (List.mem_singleton.2 rfl)

/-- Labels stand at the offsets that they have. -/
theorem exists_standing_label {label : Label} (hoffset : offset ∈ decoded.places)
    (hlabel : labels[offset]? = some label) :
    (.label label, offset) ∈ standing labels lines decoded := by
  unfold standing
  rcases List.mem_append.1 hoffset with hstart | hend
  · rcases List.mem_map.1 hstart with ⟨entry, hentry, rfl⟩
    refine List.mem_append_left _ (List.mem_flatMap.2 ⟨entry, hentry, List.mem_map_of_mem ?_⟩)
    unfold operationNodes
    simp [hlabel]
  · cases List.mem_singleton.1 hend
    refine List.mem_append_right _ ?_
    simp [hlabel]

/-- The nodes of a body that is made of some code, each with the offset at which it stands. -/
def assembled (code : Code) (decoded : DecodedCode) (attributes : CodeAttributes) :
    List (Node × Nat) :=
  standing (labelTable code decoded attributes) (linesByOffset decoded attributes.lines) decoded

theorem map_assembled :
    (assembled code decoded attributes).map (·.1) = (assemble code decoded attributes).nodes :=
  map_standing

/-- What refers to a place has the label that stands there. -/
theorem exists_assembled_label (h : decoded.Read pool) (hoffset : offset ∈ decoded.places)
    (hreferenced : offset ∈ labelledOffsets code decoded attributes) :
    ∃ labelled : Nat, (assembled code decoded attributes)[labelled]? =
        some (.label ((labelTable code decoded attributes).getD offset default), offset) ∧
      (assemble code decoded attributes).nodes[labelled]? =
        some (.label ((labelTable code decoded attributes).getD offset default)) := by
  have hlabel := labelTable_eq_some h.places_ascend hoffset hreferenced
  rcases List.mem_iff_getElem?.1 (exists_standing_label hoffset hlabel) with ⟨labelled, hlabelled⟩
  refine ⟨labelled, hlabelled, ?_⟩
  rw [← map_assembled, List.getElem?_map]
  exact congrArg (Option.map Prod.fst) hlabelled

/-- Each operation of the code has its place in the body. -/
theorem exists_assembled_operation {entry : Nat × Operation Nat}
    (hentry : entry ∈ decoded.operations) :
    ∃ place : Nat, (assembled code decoded attributes)[place]? = some (.operation (entry.2.map
        ((labelTable code decoded attributes).getD · default)), entry.1) ∧
      (assemble code decoded attributes).nodes[place]? = some (.operation (entry.2.map
        ((labelTable code decoded attributes).getD · default))) := by
  rcases List.mem_iff_getElem?.1 (mem_standing_operation.2 ⟨entry, hentry, rfl, rfl⟩) with
    ⟨place, hplace⟩
  refine ⟨place, hplace, ?_⟩
  rw [← map_assembled, List.getElem?_map]
  exact congrArg (Option.map Prod.fst) hplace

variable {place : Nat} {operation : Operation Label}

/-- The label of the offset of an operation leads to the operation. -/
theorem leadsTo_assemble (h : decoded.Read pool)
    (hreferenced : offset ∈ labelledOffsets code decoded attributes)
    (hplace : (assembled code decoded attributes)[place]? = some (.operation operation, offset)) :
    ((labelTable code decoded attributes).getD offset default).LeadsTo
      (assemble code decoded attributes).nodes place := by
  have hascends : Ascends (assembled code decoded attributes) := standing_ascends h
  rcases mem_standing_operation.1 (List.mem_of_getElem? hplace) with ⟨entry, hentry, rfl, _⟩
  have hoffset : entry.1 ∈ decoded.places := List.mem_append_left _ (List.mem_map_of_mem hentry)
  rcases exists_assembled_label h hoffset hreferenced with ⟨labelled, hlabelled, hnode⟩
  refine ⟨labelled, hnode, ?_⟩
  rw [← map_assembled]
  exact hascends.arrives hplace (Nat.le_refl _)
    (fun _ _ _ hpassed => hascends.le_iff hlabelled hpassed) fun _ _ _ _ hle => hle

/-- The handler that an entry of the exception table becomes protects what the entry protects. -/
theorem guards_assemble (h : decoded.Checked code pool) {exception : ExceptionEntry}
    (hexception : exception ∈ code.exceptions) {before : Nat} {entry : Nat × Operation Nat}
    {operation' : Operation Label}
    (hbefore : (assembled code decoded attributes)[before]? = some (.operation operation', entry.1))
    (hprotects : exception.protects entry.1)
    (hplace : (assembled code decoded attributes)[place]? =
      some (.operation operation, exception.handler.toNat)) :
    (handler ((labelTable code decoded attributes).getD · default) exception).Guards
      (assemble code decoded attributes).nodes before place := by
  have hascends : Ascends (assembled code decoded attributes) := standing_ascends h.toRead
  have hreferenced : ∀ offset ∈ [exception.start.toNat, exception.stop.toNat,
      exception.handler.toNat], offset ∈ labelledOffsets code decoded attributes :=
    fun offset hoffset => mem_referencedOffsets_of_exception hexception hoffset
  rcases h.stands hexception with ⟨hstart, hstop, _⟩
  rcases exists_assembled_label h.toRead hstart (hreferenced _ (by simp)) with
    ⟨start, hstartPlace, hstartNode⟩
  rcases exists_assembled_label h.toRead hstop (hreferenced _ (by simp)) with
    ⟨stop, hstopPlace, hstopNode⟩
  unfold ExceptionEntry.protects at hprotects
  rw [Bool.and_eq_true, decide_eq_true_iff, decide_eq_true_iff] at hprotects
  have hfirst := (hascends.le_iff hstartPlace hbefore).2 hprotects.1
  have hlast := hascends.le_iff hstopPlace hbefore
  exact ⟨⟨start, stop, hstartNode, hstopNode, hfirst, by omega⟩,
    leadsTo_assemble h.toRead (hreferenced _ (by simp)) hplace⟩

/-- Control comes to the operations at the offsets to which it comes. -/
theorem reached_assemble (h : decoded.Checked code pool)
    (hreaches : decoded.Reaches code.exceptions offset)
    (hplace : (assembled code decoded attributes)[place]? = some (.operation operation, offset)) :
    (assemble code decoded attributes).Reached place := by
  have hascends : Ascends (assembled code decoded attributes) := standing_ascends h.toRead
  -- the other way round: each way to come to an offset is one to come to its place
  induction hreaches generalizing place operation with
  | start =>
    refine .start ?_
    rw [← map_assembled]
    exact hascends.arrives hplace (Nat.zero_le _)
      (fun passed found _ _ => iff_of_true (Nat.zero_le passed) (Nat.zero_le found))
      fun _ found _ _ _ => Nat.zero_le found
  | @falls entry next _ hentry hfalls hnext hlt hleast ih =>
    rcases exists_assembled_operation hentry with ⟨before, hbefore, hnode⟩
    refine .next (ih hbefore) (.fallThrough hnode ((Operation.fallsThrough_map _ _).trans hfalls) ?_)
    rw [← map_assembled]
    refine hascends.arrives hplace hlt (fun _ _ _ hpassed => hascends.lt_iff hbefore hpassed) ?_
    intro passed found operation hpassed hbehind
    rcases mem_standing_operation.1 (List.mem_of_getElem? hpassed) with ⟨other, hother, rfl, _⟩
    exact (hleast other hother).resolve_left (Nat.not_le_of_lt hbehind)
  | @jumps entry target _ hentry htarget ih =>
    rcases exists_assembled_operation hentry with ⟨before, hbefore, hnode⟩
    rcases leadsTo_assemble h.toRead (mem_referencedOffsets_of_target hentry htarget) hplace with
      ⟨labelled, hlabelled, harrives⟩
    refine .next (ih hbefore) (.jump hnode ?_ hlabelled harrives)
    rw [Operation.targets_map]
    exact List.mem_map_of_mem htarget
  | @caught entry exception _ hentry hexception hprotects ih =>
    rcases exists_assembled_operation hentry with ⟨before, hbefore, hnode⟩
    exact .caught (ih hbefore) (List.mem_map_of_mem hexception)
      (guards_assemble h hexception hbefore hprotects hplace)

end Body

end Preverification
