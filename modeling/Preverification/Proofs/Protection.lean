import Preverification.Proofs.Origins
import Preverification.Proofs.MovedCode

/-!
# Handlers around copies

The handlers of a region are copied with it. In a copy, the range of such a handler covers the
copies of the nodes that it covered, and all that is copied for the calls among them. So a copied
operation is protected by the handlers of its own region that protected it, then by those of the
region of the call for which it was copied that protected the call, and so on outwards.

* `Regions.Houses`: the region of a handler, and the places of its labels.
* `Regions.Houses.protects_iff`: a copied handler protects what was copied from the positions that
  the handler protects.
* `Regions.traced_copyRegion`: copies of a region are traced if copies of what it calls are.
* `Regions.copyBody_adds`: the copy of a whole body is traced.
-/

namespace Preverification

namespace Regions

variable {regions : Regions} {body : Body} {nodes : List Node} {trail : List (List Nat)}

/-- The labels of a handler of a region are placed in the region, and its range ends there or right
behind it. -/
structure Houses (regions : Regions) (body : Body) (number : Nat) (handler : Handler)
    (start stop code : Nat) : Prop where
  start_eq : body.nodes[start]? = some (.label handler.start)
  stop_eq : body.nodes[stop]? = some (.label handler.stop)
  code_eq : body.nodes[code]? = some (.label handler.handler)
  owner_start : regions.owner start = number
  owner_code : regions.owner code = number
  start_lt : start < stop
  stop_le : stop ≤ (regions.region number).stop

/-- All handlers of regions are at home there. -/
def Housed (regions : Regions) (body : Body) : Prop :=
  ∀ {number : Nat}, ∀ handler ∈ (regions.region number).handlers.toList,
    ∃ start stop code, regions.Houses body number handler start stop code

/-! ### Copies in progress -/

/-- What has been copied when a region has been copied up to each position. -/
structure Steps (regions : Regions) (copy : CopySubroutine) (number : Nat) (names : Renaming)
    (continuation : Label) (inlining : Inlining) (state : Nat → Inlining) : Prop where
  start : state (regions.region number).start = inlining
  succ : ∀ {position : Nat}, (regions.region number).start ≤ position →
    state (position + 1) =
      regions.copyAt copy number names continuation (state position) position

section Steps

variable {copy : CopySubroutine} {inside : List Nat → Nat → List (List Nat)} {number : Nat}
  {names : Renaming} {continuation : Label} {inlining : Inlining} {calls : List Nat}
  {state : Nat → Inlining} {position position' : Nat}

/-- A region is copied from position to position. -/
theorem exists_steps (hc : regions.Cuts body) (hlt : number < regions.regions.size) :
    ∃ state, regions.Steps copy number names continuation inlining state ∧
      regions.copyRegion copy number names continuation inlining =
        regions.copyRanges number names (state (regions.region number).stop) := by
  refine ⟨fun position => (List.range' (regions.region number).start
    (position - (regions.region number).start)).foldl
      (regions.copyAt copy number names continuation) inlining, ⟨?_, ?_⟩, ?_⟩
  · rw [Nat.sub_self]
    rfl
  · intro position hle
    rw [Nat.succ_sub hle, List.range'_1_concat, List.foldl_append, Nat.add_sub_cancel' hle]
    rfl
  · exact copyRegion_eq hc (hc.stop_le hlt) copy names continuation inlining

/-- The positions of a region are those in front of one, this one, and those behind it. -/
theorem span_eq (hle : (regions.region number).start ≤ position)
    (hlt : position < (regions.region number).stop) : regions.span number =
      List.range' (regions.region number).start (position - (regions.region number).start) ++
        position :: List.range' (position + 1) ((regions.region number).stop - (position + 1)) := by
  have happend := @List.range'_append_1 (regions.region number).start
    (position - (regions.region number).start) ((regions.region number).stop - position)
  rw [Nat.add_sub_cancel' hle] at happend
  have hrest : (regions.region number).stop - position =
      (regions.region number).stop - (position + 1) + 1 := by omega
  rw [← List.range'_succ, ← hrest, happend]
  unfold span
  congr 1
  omega

/-- A partition into consecutive intervals. -/
theorem exists_interval {places : Nat → Nat} {start stop place : Nat} (hle : start ≤ stop)
    (hlow : places start ≤ place) (hhigh : place < places stop) :
    ∃ position, start ≤ position ∧ position < stop ∧ places position ≤ place ∧
      place < places (position + 1) := by
  induction stop, hle using Nat.le_induction with
  | base => omega
  | succ stop hle ih =>
    by_cases hless : place < places stop
    · obtain ⟨position, hstart, hstop, hrange⟩ := ih hless
      exact ⟨position, hstart, Nat.lt_succ_of_lt hstop, hrange⟩
    · exact ⟨stop, hle, Nat.lt_succ_self stop, Nat.not_lt.1 hless, hhigh⟩

variable (h : regions.Steps copy number names continuation inlining state)

include h

/-- What was copied stays when later positions are copied. -/
theorem Steps.extends (honly : OnlyAdds copy) (hle : (regions.region number).start ≤ position)
    (hle' : position ≤ position') : Inlining.Extends (state position) (state position') := by
  induction position', hle' using Nat.le_induction with
  | base => exact .refl _
  | succ position' hle' ih =>
    rw [h.succ (Nat.le_trans hle hle')]
    exact ih.trans (extends_copyAt honly number names continuation _ position')

theorem Steps.size_le (honly : OnlyAdds copy) (hle : (regions.region number).start ≤ position)
    (hle' : position ≤ position') :
    (state position).nodes.size ≤ (state position').nodes.size := by
  have hlength := (h.extends honly hle hle').nodes.length_le
  rwa [Array.length_toList, Array.length_toList] at hlength

/-- A place belongs to what was copied from a position only. -/
theorem Steps.unique (honly : OnlyAdds copy) {place : Nat}
    (hle : (regions.region number).start ≤ position)
    (hle' : (regions.region number).start ≤ position')
    (hplace : (state position).nodes.size ≤ place) (hplace' : place < (state (position + 1)).nodes.size)
    (hother : (state position').nodes.size ≤ place)
    (hother' : place < (state (position' + 1)).nodes.size) : position = position' := by
  rcases Nat.lt_trichotomy position position' with hlt | heq | hlt
  · have hsize : (state (position + 1)).nodes.size ≤ (state position').nodes.size :=
      h.size_le honly (Nat.le_succ_of_le hle) hlt
    omega
  · exact heq
  · have hsize : (state (position' + 1)).nodes.size ≤ (state position).nodes.size :=
      h.size_le honly (Nat.le_succ_of_le hle') hlt
    omega

/-- What is expected at the places of what was copied from the positions of a region. -/
def StepExpects (regions : Regions) (body : Body) (trail : List (List Nat)) (calls : List Nat)
    (number : Nat) (state : Nat → Inlining) (place : Nat) (entries : List (Handler × List Nat)) :
    Prop :=
  ∃ position, (regions.region number).start ≤ position ∧ (state position).nodes.size ≤ place ∧
    place < (state (position + 1)).nodes.size ∧
    regions.Expects body trail (position :: calls) place entries

/-- What is copied from the positions of a region is traced to them. -/
theorem Steps.adds (hc : regions.Cuts body) (hu : UniqueLabels nodes) (honly : OnlyAdds copy)
    (hcopy : regions.Traced body nodes trail copy inside)
    (hle : (regions.region number).start ≤ position)
    (hbegins : (state position).nodes.toList <+: nodes)
    (hfound : FoundFrom trail inlining.nodes.size
      ((List.range' (regions.region number).start (position - (regions.region number).start)).flatMap
        (regions.trailAt inside calls number))) :
    Adds body nodes trail (regions.StepExpects body trail calls number state) inlining
      (state position)
      ((List.range' (regions.region number).start (position - (regions.region number).start)).flatMap
        (regions.trailAt inside calls number)).length := by
  -- one position more adds the copies for it behind all others
  induction position, hle using Nat.le_induction with
  | base =>
    rw [h.start, Nat.sub_self]
    exact .refl inlining
  | succ position hle ih =>
    rw [Nat.succ_sub hle, List.range'_1_concat, Nat.add_sub_cancel' hle, List.flatMap_append,
      List.flatMap_singleton] at hfound ⊢
    obtain ⟨hfront, hlast⟩ := foundFrom_append.1 hfound
    have hextends := h.extends honly hle (Nat.le_succ position)
    have hbefore := ih (hextends.nodes.trans hbegins) hfront
    rw [h.succ hle] at hbegins
    have hat := copyAt_adds hc hu honly hcopy hbegins (hbefore.size ▸ hlast)
    rw [← h.succ hle] at hat
    rw [List.length_append]
    refine hbefore.trans hu (hat.mono ?_)
    rintro place entries hlow hhigh ⟨position', hstart', hlow', hhigh', hexpects⟩
    -- a place is in the copy of one position
    obtain rfl := h.unique honly hle hstart' hlow hhigh hlow' hhigh'
    exact hexpects

/-- The label at a position of a region is copied by the name that it has in the copy. -/
theorem Steps.label (hc : regions.Cuts body) (honly : OnlyAdds copy)
    (hle : (regions.region number).start ≤ position) (hlt : position < (regions.region number).stop)
    (hbegins : (state (regions.region number).stop).nodes.toList <+: nodes) {label : Label}
    (hlabel : body.nodes[position]? = some (.label label)) :
    nodes[(state position).nodes.size]? = some (.label (names.apply label)) ∧
      (state (position + 1)).nodes.size = (state position).nodes.size + 1 := by
  have hcontent : regions.content? number position = some (.label label) :=
    hc.content?_eq_some.2 ⟨hlabel, .inr rfl⟩
  have hnext : state (position + 1) = (state position).push (.label (names.apply label)) := by
    rw [h.succ hle]
    unfold copyAt
    rw [hcontent]
    rfl
  have hextends := h.extends honly (Nat.le_succ_of_le hle) (Nat.succ_le_of_lt hlt)
  have hpushed : ((state position).push (.label (names.apply label))).nodes.toList <+: nodes := by
    rw [← hnext]
    exact hextends.nodes.trans hbegins
  exact ⟨getElem?_of_push hpushed, by rw [hnext]; exact Array.size_push _⟩

/-- The trail at the places of what was copied from a position is that of the position. -/
theorem Steps.foundFrom (hc : regions.Cuts body) (hu : UniqueLabels nodes) (honly : OnlyAdds copy)
    (hcopy : regions.Traced body nodes trail copy inside)
    (hle : (regions.region number).start ≤ position) (hlt : position < (regions.region number).stop)
    (hbegins : (state (regions.region number).stop).nodes.toList <+: nodes)
    (hfound : FoundFrom trail inlining.nodes.size
      ((regions.span number).flatMap (regions.trailAt inside calls number))) :
    FoundFrom trail (state position).nodes.size (regions.trailAt inside calls number position) ∧
      (state (position + 1)).nodes.size = (state position).nodes.size +
        (regions.trailAt inside calls number position).length := by
  rw [span_eq hle hlt, List.flatMap_append, List.flatMap_cons] at hfound
  obtain ⟨hfront, hrest⟩ := foundFrom_append.1 hfound
  obtain ⟨hat, -⟩ := foundFrom_append.1 hrest
  have hbefore := (h.extends honly hle (Nat.le_of_lt hlt)).nodes.trans hbegins
  have hnext := (h.extends honly (Nat.le_succ_of_le hle) (Nat.succ_le_of_lt hlt)).nodes.trans hbegins
  have hsize := (h.adds hc hu honly hcopy hle hbefore hfront).size
  rw [← hsize] at hat
  refine ⟨hat, ?_⟩
  rw [Nat.succ_eq_add_one, h.succ hle] at hnext
  have hadds := copyAt_adds hc hu honly hcopy hnext hat
  rw [h.succ hle]
  exact hadds.size

end Steps

/-! ### Where ranges end -/

section Stops

variable {number : Nat} {names : Renaming} {inlining : Inlining} {label : Label} {calls : List Nat}

/-- Behind a copy there is a label if one of its ranges ends there. -/
theorem copyStops_snd (hnamed : regions.NamedBy calls number names) :
    ((regions.endsBehind number = false ∧
        (regions.copyStops number names inlining).2.nodes = inlining.nodes) ∨
      (regions.endsBehind number = true ∧ ∃ label,
        (regions.copyStops number names inlining).2.nodes = inlining.nodes.push (.label label))) ∧
      (regions.copyStops number names inlining).2.handlers = inlining.handlers := by
  rcases hnamed with ⟨rfl, rfl⟩ | ⟨hne, -, own, others, rfl, hown⟩
  · exact ⟨.inl ⟨rfl, rfl⟩, rfl⟩
  · have hall : (regions.stops number).all own.contains =
        (regions.stops number).all (regions.labels number).contains :=
      congrArg _ (funext hown)
    unfold copyStops endsBehind
    dsimp only
    rw [hall]
    cases (regions.stops number).all (regions.labels number).contains with
    | true => simp
    | false => exact ⟨.inr ⟨by simp [hne], _, rfl⟩, rfl⟩

/-- Where a range ends that ends inside of a region. -/
theorem copyStops_fst_of_mem (hnamed : regions.NamedBy calls number names)
    (hmem : label ∈ regions.labels number) :
    (regions.copyStops number names inlining).1 label = names.apply label := by
  rcases hnamed with ⟨rfl, rfl⟩ | ⟨hne, -, own, others, rfl, hown⟩
  · rfl
  · unfold copyStops
    dsimp only
    split
    · rfl
    · -- the label was given a new name in this copy
      have hcontains : own.contains label = true := by
        rw [hown]
        simpa using hmem
      rw [Std.HashMap.contains_eq_isSome_getElem?, Option.isSome_iff_exists] at hcontains
      obtain ⟨found, hfound⟩ := hcontains
      dsimp only
      unfold Renaming.apply
      rw [Std.HashMap.getD_eq_getD_getElem?, List.findSome?_cons, hfound]
      rfl

/-- Where a range ends that ends behind a region. -/
theorem copyStops_fst_of_not_mem (hnamed : regions.NamedBy calls number names) (hne : number ≠ outer)
    (hstop : label ∈ regions.stops number) (hnot : label ∉ regions.labels number) :
    (regions.copyStops number names inlining).2.nodes =
      inlining.nodes.push (.label ((regions.copyStops number names inlining).1 label)) := by
  rcases hnamed with ⟨rfl, rfl⟩ | ⟨-, -, own, others, rfl, hown⟩
  · exact absurd rfl hne
  · have hcontains : own.contains label = false := by
      rw [hown]
      simpa using hnot
    -- a stop without a new name is what makes the copy add one
    have hall : ¬ (regions.stops number).all own.contains = true := by
      intro hall
      have := List.all_eq_true.1 hall label hstop
      rw [hcontains] at this
      cases this
    have hnone : own[label]? = none := by
      rw [Std.HashMap.contains_eq_isSome_getElem?] at hcontains
      simpa using hcontains
    unfold copyStops
    dsimp only
    rw [if_neg hall]
    dsimp only
    rw [Std.HashMap.getD_eq_getD_getElem?, hnone]
    rfl

end Stops

/-! ### Handlers of a copy -/

/-- The copy of a handler of a region. -/
def copyHandler (regions : Regions) (number : Nat) (names : Renaming) (inlining : Inlining)
    (handler : Handler) : Handler :=
  { handler with
    start := names.apply handler.start
    stop := (regions.copyStops number names inlining).1 handler.stop
    handler := names.apply handler.handler }

/-- Behind the handlers of inner copies there are those of the region, copied. -/
theorem handlers_copyRanges (number : Nat) (names : Renaming) (inlining : Inlining) :
    (regions.copyRanges number names inlining).handlers.toList =
      (regions.copyStops number names inlining).2.handlers.toList ++
        (regions.region number).handlers.toList.map (regions.copyHandler number names inlining) := by
  unfold copyRanges
  simp only [Array.toList_append, Array.toList_map]
  rfl

theorem Cuts.uniqueLabels (hc : regions.Cuts body) : UniqueLabels body.nodes :=
  ⟨hc.flow.label_unique⟩

section Houses

variable {copy : CopySubroutine} {inside : List Nat → Nat → List (List Nat)} {number : Nat}
  {names : Renaming} {continuation : Label} {inlining : Inlining} {calls : List Nat}
  {state : Nat → Inlining} {handler : Handler} {start stop code position place : Nat}

theorem Houses.lt_length (hhouses : regions.Houses body number handler start stop code) :
    start < body.nodes.length ∧ stop < body.nodes.length ∧ code < body.nodes.length :=
  ⟨(List.getElem?_eq_some_iff.1 hhouses.start_eq).1, (List.getElem?_eq_some_iff.1 hhouses.stop_eq).1,
    (List.getElem?_eq_some_iff.1 hhouses.code_eq).1⟩

/-- The range of a handler starts in its region, and its code is there. -/
theorem Houses.owned (hc : regions.Cuts body)
    (hhouses : regions.Houses body number handler start stop code) :
    ((regions.region number).start ≤ start ∧ start < (regions.region number).stop) ∧
      (regions.region number).start ≤ code ∧ code < (regions.region number).stop := by
  obtain ⟨hstart, -, hcode⟩ := hhouses.lt_length
  have hownedStart := hc.owned start hstart
  have hownedCode := hc.owned code hcode
  rw [hhouses.owner_start] at hownedStart
  rw [hhouses.owner_code] at hownedCode
  exact ⟨hownedStart, hownedCode⟩

/-- The range of a copied handler starts and ends where the range of the handler was copied to. -/
theorem Houses.copied (hc : regions.Cuts body) (honly : OnlyAdds copy)
    (h : regions.Steps copy number names continuation inlining state)
    (hlt : number < regions.regions.size) (hnamed : regions.NamedBy calls number names)
    (hbegins : (regions.copyRanges number names
      (state (regions.region number).stop)).nodes.toList <+: nodes)
    (hmem : handler ∈ (regions.region number).handlers.toList)
    (hhouses : regions.Houses body number handler start stop code) :
    nodes[(state start).nodes.size]? = some (.label
        (regions.copyHandler number names (state (regions.region number).stop) handler).start) ∧
      nodes[(state stop).nodes.size]? = some (.label
        (regions.copyHandler number names (state (regions.region number).stop) handler).stop) ∧
      nodes[(state code).nodes.size]? = some (.label
        (regions.copyHandler number names (state (regions.region number).stop) handler).handler) := by
  obtain ⟨⟨hstart, hstart'⟩, hcode, hcode'⟩ := hhouses.owned hc
  have hbefore := (extends_copyRanges number names _).nodes.trans hbegins
  refine ⟨(h.label hc honly hstart hstart' hbefore hhouses.start_eq).1, ?_,
    (h.label hc honly hcode hcode' hbefore hhouses.code_eq).1⟩
  have hstartLt := hhouses.start_lt
  have hstopLe := hhouses.stop_le
  unfold copyHandler
  dsimp only
  -- labels in front of the end of a subroutine are copied with it
  by_cases hinside : stop < (regions.region number).stop
  · have hlabel : handler.stop ∈ regions.labels number :=
      (hc.mem_labels hlt).2 ⟨stop, by omega, hinside, hhouses.stop_eq⟩
    rw [copyStops_fst_of_mem hnamed hlabel]
    exact (h.label hc honly (by omega) hinside hbefore hhouses.stop_eq).1
  · -- the range ends behind a subroutine, where a label is added
    obtain rfl : stop = (regions.region number).stop := by omega
    have hne : number ≠ outer := by
      rintro rfl
      have hlength := hhouses.lt_length.2.1
      rw [hc.whole.2] at hlength
      exact Nat.lt_irrefl _ hlength
    have hnot : handler.stop ∉ regions.labels number := by
      intro hlabel
      obtain ⟨place, -, hplace, hnode⟩ := (hc.mem_labels hlt).1 hlabel
      obtain rfl := hc.flow.label_unique hnode hhouses.stop_eq
      exact hinside hplace
    have hstops : handler.stop ∈ regions.stops number := by
      unfold stops
      simp only [Array.toList_append, Array.toList_map, List.append_assoc]
      exact List.mem_append_left _ (List.mem_map_of_mem hmem)
    have hpush := @copyStops_fst_of_not_mem regions number names
      (state (regions.region number).stop) handler.stop calls hnamed hne hstops hnot
    have hlast : ((state (regions.region number).stop).push (.label ((regions.copyStops number names
        (state (regions.region number).stop)).1 handler.stop))).nodes.toList <+: nodes := by
      change ((state (regions.region number).stop).nodes.push _).toList <+: nodes
      rw [← hpush]
      exact hbegins
    exact getElem?_of_push hlast

/-- A copied handler protects what was copied from the positions that the handler protects. -/
theorem Houses.protects_iff (hc : regions.Cuts body) (hu : UniqueLabels nodes)
    (honly : OnlyAdds copy) (h : regions.Steps copy number names continuation inlining state)
    (hlt : number < regions.regions.size) (hnamed : regions.NamedBy calls number names)
    (hbegins : (regions.copyRanges number names
      (state (regions.region number).stop)).nodes.toList <+: nodes)
    (hmem : handler ∈ (regions.region number).handlers.toList)
    (hhouses : regions.Houses body number handler start stop code)
    (hstart : (regions.region number).start ≤ position)
    (hplace : (state position).nodes.size ≤ place)
    (hplace' : place < (state (position + 1)).nodes.size) :
    (regions.copyHandler number names (state (regions.region number).stop) handler).protects nodes
        place = handler.protects body.nodes position := by
  obtain ⟨hstartNode, hstopNode, -⟩ := hhouses.copied hc honly h hlt hnamed hbegins hmem
  obtain ⟨⟨hfirst, -⟩, -⟩ := hhouses.owned hc
  have hstartLt := hhouses.start_lt
  have hbefore : ∀ other, (regions.region number).start ≤ other →
      ((state other).nodes.size ≤ place ↔ other ≤ position) := by
    intro other hother
    constructor
    · intro hle
      by_contra hgreater
      have hsize : (state (position + 1)).nodes.size ≤ (state other).nodes.size :=
        h.size_le honly (Nat.le_succ_of_le hstart) (Nat.not_le.1 hgreater)
      omega
    · intro hle
      have hsize := h.size_le honly hother hle
      omega
  have hstartIff := hbefore start hfirst
  have hstopIff := hbefore stop (by omega)
  rw [Bool.eq_iff_iff, hu.protects_iff hstartNode hstopNode,
    hc.uniqueLabels.protects_iff hhouses.start_eq hhouses.stop_eq]
  omega

/-- The handlers of a copy that protect what was copied from a position are copies of those that
protect the position. -/
theorem forall₂_own (hc : regions.Cuts body) (hu : UniqueLabels nodes) (hh : regions.Housed body)
    (honly : OnlyAdds copy) (hcopy : regions.Traced body nodes trail copy inside)
    (h : regions.Steps copy number names continuation inlining state)
    (hlt : number < regions.regions.size) (hnamed : regions.NamedBy calls number names)
    (hbegins : (regions.copyRanges number names
      (state (regions.region number).stop)).nodes.toList <+: nodes)
    (hfound : FoundFrom trail inlining.nodes.size
      ((regions.span number).flatMap (regions.trailAt inside calls number)))
    (hstart : (regions.region number).start ≤ position)
    (hplace : (state position).nodes.size ≤ place)
    (hplace' : place < (state (position + 1)).nodes.size) (howner : regions.owner position = number) :
    List.Forall₂ (CopiedHandler body nodes trail)
      (((regions.region number).handlers.toList.map
        (regions.copyHandler number names (state (regions.region number).stop))).filter
          (·.protects nodes place))
      ((regions.ownHandlers body position).map (·, calls)) := by
  -- copies protect the copy just where the handlers themselves protect the position
  have hsame : (regions.region number).handlers.toList.filter
      ((·.protects nodes place) ∘
        regions.copyHandler number names (state (regions.region number).stop)) =
      regions.ownHandlers body position := by
    unfold ownHandlers
    rw [howner]
    refine List.filter_congr fun handler hmem => ?_
    obtain ⟨start, stop, code, hhouses⟩ := hh handler hmem
    exact hhouses.protects_iff hc hu honly h hlt hnamed hbegins hmem hstart hplace hplace'
  rw [List.filter_map, hsame, List.forall₂_map_left_iff, List.forall₂_map_right_iff,
    List.forall₂_same]
  intro handler hmem
  unfold ownHandlers at hmem
  rw [howner] at hmem
  have hhandler := List.mem_of_mem_filter hmem
  obtain ⟨start, stop, code, hhouses⟩ := hh handler hhandler
  obtain ⟨-, hcode, hcode'⟩ := hhouses.owned hc
  have hcontent : regions.content? number code = some (.label handler.handler) :=
    hc.content?_eq_some.2 ⟨hhouses.code_eq, .inr rfl⟩
  have hbefore := (extends_copyRanges number names _).nodes.trans hbegins
  obtain ⟨hat, -⟩ := h.foundFrom hc hu honly hcopy hcode hcode' hbefore hfound
  rw [trailAt_of_not_call hcontent nofun] at hat
  obtain ⟨-, -, hcopied⟩ := hhouses.copied hc honly h hlt hnamed hbegins hhandler
  refine ⟨rfl, ⟨code, _, hhouses.code_eq, hat.head, hcopied⟩, fun hnil => ?_⟩
  rcases hnamed with ⟨rfl, rfl⟩ | ⟨-, hcalls, -⟩
  · rfl
  · exact absurd hnil hcalls

end Houses

theorem Cuts.start_le_stop (hc : regions.Cuts body) {number : Nat}
    (hlt : number < regions.regions.size) :
    (regions.region number).start ≤ (regions.region number).stop := by
  by_cases houter : number = outer
  · rw [houter, hc.whole.1]
    exact Nat.zero_le _
  · obtain ⟨position, node, hstop, hnode, -, howner⟩ := hc.ended number houter hlt
    have howned := hc.owned position (List.getElem?_eq_some_iff.1 hnode).1
    rw [howner] at howned
    omega

section Region

variable {copy : CopySubroutine} {inside : List Nat → Nat → List (List Nat)} {number : Nat}
  {names : Renaming} {continuation : Label} {inlining : Inlining} {calls : List Nat}
  {state : Nat → Inlining} {place : Nat}

/-- The ranges of the handlers of a copy are in the copy. -/
theorem within_copyHandler (hc : regions.Cuts body) (hh : regions.Housed body)
    (honly : OnlyAdds copy) (h : regions.Steps copy number names continuation inlining state)
    (hlt : number < regions.regions.size) (hnamed : regions.NamedBy calls number names)
    (hbegins : (regions.copyRanges number names
      (state (regions.region number).stop)).nodes.toList <+: nodes) {handler : Handler}
    (hmem : handler ∈ (regions.region number).handlers.toList) :
    (regions.copyHandler number names (state (regions.region number).stop) handler).Within nodes
      inlining.nodes.size
      (regions.copyRanges number names (state (regions.region number).stop)).nodes.size := by
  obtain ⟨start, stop, code, hhouses⟩ := hh handler hmem
  obtain ⟨⟨hfirst, -⟩, -⟩ := hhouses.owned hc
  obtain ⟨hstart, hstop, -⟩ := hhouses.copied hc honly h hlt hnamed hbegins hmem
  obtain ⟨-, hinside, -⟩ := hhouses.copied hc honly h hlt hnamed (List.prefix_refl _) hmem
  have hlow := h.size_le honly (Nat.le_refl _) hfirst
  rw [h.start] at hlow
  exact ⟨_, _, hstart, hstop, hlow, (List.getElem?_eq_some_iff.1 hinside).1⟩

/-- A node that was copied for some calls was copied from a position of the region. -/
theorem Steps.exists_position (hc : regions.Cuts body) (hu : UniqueLabels nodes)
    (honly : OnlyAdds copy) (hcopy : regions.Traced body nodes trail copy inside)
    (hinside : ∀ calls number, ∀ found ∈ inside calls number,
      found = [] ∨ ∃ inner, found = inner ++ calls)
    (h : regions.Steps copy number names continuation inlining state)
    (hlt : number < regions.regions.size)
    (hbegins : (state (regions.region number).stop).nodes.toList <+: nodes)
    (hfound : FoundFrom trail inlining.nodes.size
      ((regions.span number).flatMap (regions.trailAt inside calls number)))
    (hlow : inlining.nodes.size ≤ place)
    (hhigh : place < (state (regions.region number).stop).nodes.size)
    {entries : List (Handler × List Nat)} (hexpects : regions.Expects body trail calls place entries) :
    ∃ position expected, (regions.region number).start ≤ position ∧
      (state position).nodes.size ≤ place ∧ place < (state (position + 1)).nodes.size ∧
      regions.owner position = number ∧
      regions.Expects body trail (position :: calls) place expected ∧
      entries = expected ++ (regions.ownHandlers body position).map (·, calls) := by
  rw [← h.start] at hlow
  obtain ⟨position, hstart, hstop, hplace, hplace'⟩ :=
    @exists_interval (fun position => (state position).nodes.size) _ _ place
      (hc.start_le_stop hlt) hlow hhigh
  obtain ⟨hat, hsize⟩ := h.foundFrom hc hu honly hcopy hstart hstop hbegins hfound
  obtain ⟨inner, htrail, ⟨position', later, operation, hcons, hoperation⟩, rfl⟩ := hexpects
  rcases mem_trailAt hinside (hat.mem hplace (hsize ▸ hplace') htrail) with
    hnone | ⟨inner', node, heq, hcontent, hcall⟩
  · rw [hnone] at hcons
    cases hcons
  · rw [← List.singleton_append, ← List.append_assoc] at heq
    obtain rfl := List.append_cancel_right heq
    obtain ⟨hnode, howner⟩ := hc.content?_eq_some.1 hcontent
    rw [List.append_assoc, List.singleton_append] at hcons htrail
    refine ⟨position, _, hstart, hplace, hplace', ?_,
      ⟨inner', htrail, ⟨position', later, operation, hcons, hoperation⟩, rfl⟩,
      guarding_append regions body inner' position calls⟩
    refine howner.resolve_right fun hlabel => ?_
    -- a label is no operation, be it the last of the trail or a call for which it goes on
    by_cases hnil : inner' = []
    · rw [hnil, List.nil_append] at hcons
      obtain ⟨rfl, -⟩ := List.cons.inj hcons
      rw [hnode] at hoperation
      cases hoperation
      cases hlabel
    · obtain ⟨target, rfl⟩ := hcall hnil
      cases hlabel

/-- Copies of a region are traced if copies of the subroutines that it calls are. -/
theorem traced_copyRegion (hc : regions.Cuts body) (hu : UniqueLabels nodes)
    (hh : regions.Housed body) (honly : OnlyAdds copy)
    (hcopy : regions.Traced body nodes trail copy inside)
    (hinside : ∀ calls number, ∀ found ∈ inside calls number,
      found = [] ∨ ∃ inner, found = inner ++ calls) :
    regions.Traced body nodes trail (regions.copyRegion copy) (regions.trailOf inside) := by
  intro number names continuation inlining calls hlt hnamed hbegins hfound
  obtain ⟨state, hsteps, hregion⟩ := @exists_steps regions body copy number names continuation
    inlining hc hlt
  rw [hregion] at hbegins ⊢
  obtain ⟨hspan, htail⟩ := foundFrom_append.1 hfound
  have hbefore := (extends_copyRanges number names
    (state (regions.region number).stop)).nodes.trans hbegins
  -- the positions of the subroutine, with what is copied for its calls
  have hfold : Adds body nodes trail (regions.StepExpects body trail calls number state) inlining
      (state (regions.region number).stop)
      ((regions.span number).flatMap (regions.trailAt inside calls number)).length :=
    hsteps.adds hc hu honly hcopy (hc.start_le_stop hlt) hbefore hspan
  obtain ⟨hbehind, hkept⟩ := @copyStops_snd regions number names
    (state (regions.region number).stop) calls hnamed
  have hcopied : (regions.copyRanges number names (state (regions.region number).stop)).nodes =
      (regions.copyStops number names (state (regions.region number).stop)).2.nodes := rfl
  -- behind them there is one label more, or none
  have hnewSize : (regions.copyRanges number names
      (state (regions.region number).stop)).nodes.size =
        (state (regions.region number).stop).nodes.size +
          (if regions.endsBehind number then [[]] else ([] : List (List Nat))).length := by
    rw [hcopied]
    rcases hbehind with ⟨hends, hnodes⟩ | ⟨hends, label, hnodes⟩
    · rw [hends, hnodes]
      rfl
    · rw [hends, hnodes, Array.size_push]
      rfl
  rw [← hfold.size] at htail
  -- what is behind the copies of the positions comes from nowhere
  have hend : ∀ {place : Nat}, (state (regions.region number).stop).nodes.size ≤ place →
      place < (regions.copyRanges number names
        (state (regions.region number).stop)).nodes.size → trail[place]? = some [] ∧
          ∃ label, nodes[place]? = some (.label label) := by
    intro place hlow hhigh
    rw [hcopied] at hhigh
    rcases hbehind with ⟨-, hnodes⟩ | ⟨hends, label, hnodes⟩
    · rw [hnodes] at hhigh
      exact absurd hhigh (Nat.not_lt.2 hlow)
    · rw [hnodes, Array.size_push] at hhigh
      rw [hends] at htail
      obtain rfl : place = (state (regions.region number).stop).nodes.size :=
        Nat.le_antisymm (Nat.le_of_lt_succ hhigh) hlow
      refine ⟨htail.head, label, ?_⟩
      have hlast : ((state (regions.region number).stop).push
          (.label label)).nodes.toList <+: nodes := by
        change ((state (regions.region number).stop).nodes.push _).toList <+: nodes
        rw [← hnodes]
        exact hbegins
      exact getElem?_of_push hlast
  obtain ⟨added, heq, hwithin, hall⟩ := hfold.handlers
  refine ⟨?_, ?_, added ++ (regions.region number).handlers.toList.map
    (regions.copyHandler number names (state (regions.region number).stop)), ?_, ?_, ?_⟩
  · rw [hnewSize, hfold.size, Nat.add_assoc, ← List.length_append]
    rfl
  · intro place hlow hhigh
    by_cases hless : place < (state (regions.region number).stop).nodes.size
    · exact hfold.comes hlow hless
    · obtain ⟨hnone, label, hnode⟩ := hend (Nat.not_lt.1 hless) hhigh
      exact ⟨_, _, hnode, hnone, .made rfl⟩
  · rw [handlers_copyRanges, hkept, heq, List.append_assoc]
  · intro handler hmem
    rcases List.mem_append.1 hmem with hmem | hmem
    · obtain ⟨start, stop, hstart, hstop, hlow, hhigh⟩ := hwithin handler hmem
      exact ⟨start, stop, hstart, hstop, hlow, Nat.lt_of_lt_of_le hhigh (by omega)⟩
    · obtain ⟨original, horiginal, rfl⟩ := List.mem_map.1 hmem
      exact within_copyHandler hc hh honly hsteps hlt hnamed hbegins horiginal
  · intro place entries hlow hhigh hexpects
    have hless : place < (state (regions.region number).stop).nodes.size := by
      by_contra hnot
      obtain ⟨inner, hplace, ⟨position, later, -, hcons, -⟩, -⟩ := hexpects
      rw [(hend (Nat.not_lt.1 hnot) hhigh).1] at hplace
      rw [← Option.some.inj hplace] at hcons
      cases hcons
    obtain ⟨position, expected, hstart, hplace, hplace', howner, hinner, rfl⟩ :=
      hsteps.exists_position hc hu honly hcopy hinside hlt hbefore hspan hlow hless hexpects
    rw [List.filter_append]
    exact List.rel_append (hall hlow hless ⟨position, hstart, hplace, hplace', hinner⟩)
      (forall₂_own hc hu hh honly hcopy hsteps hlt hnamed hbegins hspan hstart hplace hplace' howner)

/-- Copies of subroutines are traced, at all depths. -/
theorem traced_copyInside (hc : regions.Cuts body) (hu : UniqueLabels nodes)
    (hh : regions.Housed body) (depth : Nat) :
    regions.Traced body nodes trail (regions.copyInside depth) (regions.trailInside depth) := by
  induction depth with
  | zero =>
    intro number names continuation inlining calls _ _ _ _
    exact .refl inlining
  | succ depth ih =>
    change regions.Traced body nodes trail (regions.copyToDepth depth) (regions.trail depth)
    rw [copyToDepth_eq, trail_eq]
    exact traced_copyRegion hc hu hh (onlyAdds_copyInside depth) ih (mem_trailInside depth)

/-- The copy of a whole body is traced. -/
theorem copyBody_adds (hc : regions.Cuts body) (hh : regions.Housed body) {depth issued : Nat}
    (hissued : ∀ label, .label label ∈ body.nodes → label.number < issued) :
    Adds body (regions.copyBody depth issued).nodes.toList (regions.trail depth [] outer)
      (regions.Expects body (regions.trail depth [] outer) []) (Inlining.nothing issued)
      (regions.copyBody depth issued) (regions.trail depth [] outer).length := by
  have hu : UniqueLabels (regions.copyBody depth issued).nodes.toList :=
    ⟨copyBody_label_unique hc hissued⟩
  rw [copyBody_eq, copyToDepth_eq, trail_eq] at *
  refine traced_copyRegion hc hu hh (onlyAdds_copyInside depth)
    (traced_copyInside hc hu hh depth) (mem_trailInside depth) hc.some_region (.inl ⟨rfl, rfl⟩)
    (List.prefix_refl _) ?_
  intro index _
  exact congrArg _ (Nat.zero_add index)

end Region

end Regions

end Preverification
