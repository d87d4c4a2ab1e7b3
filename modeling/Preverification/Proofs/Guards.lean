import Preverification.Proofs.ConsistentBodies
import Preverification.Proofs.Protection

/-!
# Homes of handlers

Each handler of a body is given to the region in which its range starts, and the handlers of a
region keep their order. Handlers of decoded bodies have ranges that are not empty.

* `Regions.Given`: handlers are given to the regions that are their homes, in order.
* `Regions.addHandler_ok`: a handler is given to the region in which its range starts.
* `Regions.given_of_regions`: all handlers of a body are given so, in order.
* `Body.decode_ordered`: the handlers of decoded bodies have ranges that are not empty.
-/

namespace Preverification

namespace Regions

variable {body : Body} {regions regions' : Regions}

/-! ### Homes of handlers -/

/-- Whether the range of a handler starts in a region. -/
def isHome (regions : Regions) (body : Body) (number : Nat) (handler : Handler) : Bool :=
  (body.nodes.idxOf? (.label handler.start)).map regions.owner == some number

/-- A handler has one home. -/
theorem Houses.isHome_iff (hc : regions.Cuts body) {number home start stop code : Nat}
    {handler : Handler} (h : regions.Houses body home handler start stop code) :
    regions.isHome body number handler = true ↔ home = number := by
  unfold isHome
  rw [hc.uniqueLabels.idxOf? h.start_eq, Option.map_some, h.owner_start, beq_iff_eq,
    Option.some_inj]

/-- Only the region that is changed is another one. -/
theorem region_update {number : Nat} (hlt : number < regions.regions.size) (f : Region → Region)
    (other : Nat) : (regions.update number f).region other =
      if other = number then f (regions.region other) else regions.region other := by
  unfold update region
  simp only [Array.getD_eq_getD_getElem?, Array.getElem?_modify]
  by_cases heq : number = other
  · subst heq
    rw [if_pos rfl, if_pos rfl, Array.getElem?_eq_getElem hlt]
    rfl
  · rw [if_neg heq, if_neg (Ne.symm heq)]

/-- The home of a range is the region of its start, and it ends in there. -/
theorem ofRange_ok (hc : regions.Cuts body) {start stop : Label} {home : Nat}
    (h : regions.ofRange start stop = .ok (some home)) :
    ∃ place place' : Nat, body.nodes[place]? = some (.label start) ∧
      body.nodes[place']? = some (.label stop) ∧ regions.owner place = home ∧
      place' ≤ (regions.region home).stop := by
  unfold ofRange at h
  obtain ⟨place, hplace, h⟩ := except_bind_ok.1 h
  obtain ⟨place', hplace', h⟩ := except_bind_ok.1 h
  have hstart := (hc.flow.position_ok _ _).1 (except_mapError_ok.1 hplace)
  have hstop := (hc.flow.position_ok _ _).1 (except_mapError_ok.1 hplace')
  dsimp only at h
  split at h
  · cases h
  · rename_i hle
    split at h
    · cases h
      exact ⟨place, place', hstart, hstop, rfl, Nat.not_lt.1 hle⟩
    · cases h

/-- The ranges of some handlers are not empty. -/
def Forward (body : Body) (handlers : List Handler) : Prop :=
  ∀ handler ∈ handlers, ∀ start stop : Nat, body.nodes[start]? = some (.label handler.start) →
    body.nodes[stop]? = some (.label handler.stop) → start < stop

/-- A handler is given to the region in which its range starts. -/
theorem addHandler_ok (hc : regions.Cuts body) {handler : Handler}
    (hforward : Forward body [handler]) (h : regions.addHandler handler = .ok regions') :
    ∃ home start stop code, regions.Houses body home handler start stop code ∧
      regions' = regions.update home fun found =>
        { found with handlers := found.handlers.push handler } := by
  obtain ⟨home, hrange, hcode, rfl⟩ := addHandler_cases h
  obtain ⟨start, stop, hstart, hstop, howner, hle⟩ := ofRange_ok hc hrange
  obtain ⟨code, hcode, howner'⟩ := (ownerOf_ok hc).1 hcode
  exact ⟨home, start, stop, code, ⟨hstart, hstop, hcode, howner, howner',
    hforward handler (List.mem_singleton.2 rfl) start stop hstart hstop, hle⟩, rfl⟩

/-- A handler stays at home as long as regions do not change. -/
theorem Houses.agrees {number start stop code : Nat} {handler : Handler}
    (h : regions.Houses body number handler start stop code) (ha : regions.Agrees regions') :
    regions'.Houses body number handler start stop code where
  start_eq := h.start_eq
  stop_eq := h.stop_eq
  code_eq := h.code_eq
  owner_start := by rw [ha.owner_eq, h.owner_start]
  owner_code := by rw [ha.owner_eq, h.owner_code]
  start_lt := h.start_lt
  stop_le := by
    rw [(ha.region_eq number).2.2]
    exact h.stop_le

/-- The handlers of each region are those of a list whose range starts there, in the order of the
list. -/
structure Given (regions : Regions) (body : Body) (handlers : List Handler) : Prop where
  housed : ∀ handler ∈ handlers, ∃ home start stop code,
    regions.Houses body home handler start stop code
  handlers_eq : ∀ number, (regions.region number).handlers.toList =
    handlers.filter (regions.isHome body number)

/-- One more handler is given to its home, behind those that were given before. -/
theorem Given.add (hc : regions.Cuts body) {handlers : List Handler} {handler : Handler}
    (hgiven : regions.Given body handlers) (hforward : Forward body [handler])
    (h : regions.addHandler handler = .ok regions') :
    regions'.Given body (handlers ++ [handler]) := by
  have hagrees := addHandler_agrees h
  obtain ⟨home, start, stop, code, hhouses, rfl⟩ := addHandler_ok hc hforward h
  have hlt : home < regions.regions.size := by
    rw [← hhouses.owner_start]
    exact hc.known start hhouses.lt_length.1
  refine ⟨?_, fun number => ?_⟩
  · intro other hmem
    rcases List.mem_append.1 hmem with hmem | hmem
    · obtain ⟨home', start', stop', code', hhouses'⟩ := hgiven.housed other hmem
      exact ⟨home', start', stop', code', hhouses'.agrees hagrees⟩
    · obtain rfl := List.mem_singleton.1 hmem
      exact ⟨home, start, stop, code, hhouses.agrees hagrees⟩
  · -- the handler joins the list of its home, and no other list changes
    have hsame : ∀ other, (regions.update home fun found =>
        { found with handlers := found.handlers.push handler }).isHome body number other =
          regions.isHome body number other := by
      intro other
      unfold isHome
      rw [hagrees.owner_eq]
    rw [region_update hlt, List.filter_append, funext hsame, ← hgiven.handlers_eq number]
    by_cases heq : number = home
    · rw [if_pos heq, List.filter_cons_of_pos ((hhouses.isHome_iff hc).2 heq.symm)]
      simp
    · rw [if_neg heq, List.filter_cons_of_neg fun hhome =>
        heq ((hhouses.isHome_iff hc).1 hhome).symm]
      simp

/-- Handlers are given in order. -/
theorem Given.foldlM (hc : regions.Cuts body) {before handlers : List Handler}
    (hgiven : regions.Given body before) (hforward : Forward body handlers)
    (h : handlers.foldlM addHandler regions = .ok regions') :
    regions'.Given body (before ++ handlers) := by
  induction handlers generalizing regions before with
  | nil =>
    cases h
    rwa [List.append_nil]
  | cons handler handlers ih =>
    rw [List.foldlM_cons] at h
    obtain ⟨middle, hfirst, hrest⟩ := except_bind_ok.1 h
    obtain ⟨hforward', hforwards⟩ := List.forall_mem_cons.1 hforward
    have hadded := hgiven.add hc (List.forall_mem_singleton.2 hforward') hfirst
    have hall := ih ((addHandler_agrees hfirst).cuts hc) hadded hforwards hrest
    rwa [List.append_assoc] at hall

/-- Regions keep their handlers when something else is changed. -/
theorem Given.update {handlers : List Handler} (hgiven : regions.Given body handlers) (number : Nat)
    {f : Region → Region} (hf : ∀ region, (f region).handlers = region.handlers)
    (ha : regions.Agrees (regions.update number f)) :
    (regions.update number f).Given body handlers := by
  refine ⟨?_, fun other => ?_⟩
  · intro handler hmem
    obtain ⟨home, start, stop, code, hhouses⟩ := hgiven.housed handler hmem
    exact ⟨home, start, stop, code, hhouses.agrees ha⟩
  · have hhome : (regions.update number f).isHome body other = regions.isHome body other := by
      funext handler
      unfold isHome
      rw [ha.owner_eq]
    have hsame : ((regions.update number f).region other).handlers =
        (regions.region other).handlers := by
      unfold Regions.update region
      simp only [Array.getD_eq_getD_getElem?, Array.getElem?_modify]
      split
      · cases regions.regions[other]? with
        | none => rfl
        | some found => exact hf found
      · rfl
    rw [hsame, hhome]
    exact hgiven.handlers_eq other

/-- A region that notes the range of a variable keeps its handlers. -/
theorem Given.addRange {note : VariableRange → Region → Region} (hnote : Region.Notes note)
    {handlers : List Handler} {range : VariableRange} (hgiven : regions.Given body handlers)
    (h : regions.addRange note range = .ok regions') : regions'.Given body handlers := by
  have ha := addRange_agrees hnote h
  rcases addRange_cases h with rfl | ⟨home, -, rfl⟩
  · exact hgiven
  · exact hgiven.update home (hnote.handlers range) ha

/-- Nothing was given to the regions that a scan finds. -/
theorem ofNodes_given (h : ofNodes body = .ok regions) : regions.Given body [] := by
  refine ⟨nofun, fun number => ?_⟩
  have hbare := forall_region (P := Region.Bare) ⟨rfl, rfl, rfl⟩ (ofNodes_bare h) number
  rw [hbare.handlers]
  rfl

/-- All handlers of a body are given to the regions in which their ranges start. -/
theorem given_of_regions (hforward : Forward body body.handlers)
    (h : body.regions = .ok regions) : regions.Given body body.handlers := by
  obtain ⟨bare, guarded, ranged, hbare, -, hhandlers, hvariables, htypes⟩ := Body.regions_stages h
  have hgiven : guarded.Given body body.handlers :=
    (ofNodes_given hbare).foldlM (ofNodes_cuts hbare) hforward hhandlers
  have hranged := except_foldlM_keeps (P := (Given · body body.handlers))
    (fun _ _ _ _ => Given.addRange Region.notes_variable) hgiven hvariables
  exact except_foldlM_keeps (P := (Given · body body.handlers))
    (fun _ _ _ _ => Given.addRange Region.notes_variableType) hranged htypes

/-- All handlers of a region are at home. -/
theorem Given.isHoused {handlers : List Handler} (hgiven : regions.Given body handlers)
    (hc : regions.Cuts body) : regions.Housed body := by
  intro number handler hmem
  rw [hgiven.handlers_eq] at hmem
  obtain ⟨hhandler, hhome⟩ := List.mem_filter.1 hmem
  obtain ⟨home, start, stop, code, hhouses⟩ := hgiven.housed handler hhandler
  obtain rfl := (hhouses.isHome_iff hc).1 hhome
  exact ⟨start, stop, code, hhouses⟩

end Regions

/-! ### Handlers of decoded bodies -/

namespace Body

variable {code : Code} {pool : Pool} {decoded : DecodedCode} {attributes : CodeAttributes}
  {body : Body}

/-- What is known about the labels of a body that was decoded: they were handed out in the order of
their places, and so handlers have ranges that are not empty, and code. -/
structure Ordered (body : Body) : Prop where
  issued : ∀ label, .label label ∈ body.nodes → label.number < body.issued
  forward : Regions.Forward body body.handlers
  placed : ∀ handler ∈ body.handlers,
    ∃ place : Nat, body.nodes[place]? = some (.label handler.handler)

/-- Labels are numbered in the order of their offsets. -/
theorem number_lt_of_offset_lt {referenced : Std.HashSet Nat}
    (h : decoded.places.Pairwise (· < ·)) {offset offset' : Nat} {label label' : Label}
    (hlabel : (labelOffsets decoded referenced)[offset]? = some label)
    (hlabel' : (labelOffsets decoded referenced)[offset']? = some label') (hlt : offset < offset') :
    label.number < label'.number := by
  have hplace := (labelOffsets_eq_some h).1 hlabel
  have hplace' := (labelOffsets_eq_some h).1 hlabel'
  obtain ⟨hnumber, heq⟩ := List.getElem?_eq_some_iff.1 hplace
  obtain ⟨hnumber', heq'⟩ := List.getElem?_eq_some_iff.1 hplace'
  by_contra hnot
  rcases Nat.lt_or_eq_of_le (Nat.not_lt.1 hnot) with hless | hsame
  · have hgreater := List.pairwise_iff_getElem.1 (labelledPlaces_ascend h) _ _ hnumber' hnumber hless
    omega
  · rw [hsame, hplace] at hplace'
    exact absurd (Option.some.inj hplace') (Nat.ne_of_lt hlt)

/-- Labels that ascend are placed one behind the other. -/
theorem place_lt_of_number_lt {nodes : List Node}
    (h : (nodes.filterMap Node.label?).Pairwise fun label label' => label.number < label'.number)
    {start stop : Nat} {label label' : Label} (hstart : nodes[start]? = some (.label label))
    (hstop : nodes[stop]? = some (.label label')) (hlt : label.number < label'.number) :
    start < stop := by
  have hascends := List.pairwise_iff_getElem.1 (List.pairwise_filterMap.1 h)
  obtain ⟨hstart', heq⟩ := List.getElem?_eq_some_iff.1 hstart
  obtain ⟨hstop', heq'⟩ := List.getElem?_eq_some_iff.1 hstop
  rcases Nat.lt_trichotomy start stop with hless | rfl | hless
  · exact hless
  · rw [hstart] at hstop
    obtain rfl := Node.label.inj (Option.some.inj hstop)
    exact absurd hlt (Nat.lt_irrefl _)
  · have hgreater := hascends stop start hstop' hstart' hless label' (by rw [heq']; rfl) label
      (by rw [heq]; rfl)
    omega

/-- A decoded body has its labels handed out in order, and its handlers have ranges that are not
empty. -/
theorem decode_ordered (h : decode code pool = .ok body) : body.Ordered := by
  obtain ⟨decoded, attributes, hbytes, htargets, hexceptions, -, rfl⟩ := decode_ok.1 h
  have hchecked := DecodedCode.checked hbytes htargets hexceptions
  have hplaces := hchecked.places_ascend
  have hlabels := @labels_assembleWith code decoded attributes (labelTable code decoded attributes)
  -- labels are numbered in the order of the offsets at which they stand
  have hascend : (decoded.places.filterMap ((labelTable code decoded attributes)[·]?)).Pairwise
      fun label label' => label.number < label'.number :=
    List.pairwise_filterMap.2 (hplaces.imp fun hlt label hlabel label' hlabel' =>
      number_lt_of_offset_lt hplaces hlabel hlabel' hlt)
  refine ⟨?_, ?_, ?_⟩
  · -- every label is one of those that were handed out
    intro label hmem
    have hmem' : label ∈ decoded.places.filterMap ((labelTable code decoded attributes)[·]?) :=
      hlabels ▸ List.mem_filterMap.2 ⟨_, hmem, rfl⟩
    obtain ⟨offset, -, hoffset⟩ := List.mem_filterMap.1 hmem'
    have hnumber := (labelOffsets_eq_some hplaces).1 hoffset
    change label.number < (labelTable code decoded attributes).size
    unfold labelTable
    rw [size_labelOffsets hplaces]
    exact (List.getElem?_eq_some_iff.1 hnumber).1
  · -- a range that was checked is not empty, and its labels ascend with its offsets
    intro handler hhandler start stop hstart hstop
    obtain ⟨entry, hentry, rfl⟩ := List.mem_map.1 hhandler
    obtain ⟨hstartPlace, hstopPlace, -⟩ := hchecked.stands hentry
    obtain ⟨hlt, -⟩ := hchecked.isRange_iff.1 (hchecked.ranges entry hentry).1
    refine place_lt_of_number_lt (hlabels ▸ hascend) hstart hstop ?_
    have hlabel := fun {offset} (hplace : offset ∈ decoded.places) hoffset =>
      @labelTable_eq_some decoded offset code attributes hplaces hplace
        (mem_referencedOffsets_of_exception hentry hoffset)
    exact number_lt_of_offset_lt hplaces (hlabel hstartPlace (by simp)) (hlabel hstopPlace (by simp))
      hlt
  · intro handler hhandler
    obtain ⟨entry, hentry, rfl⟩ := List.mem_map.1 hhandler
    -- the code of a handler is at an operation, so it has a label
    obtain ⟨-, -, hplace⟩ := hchecked.stands hentry
    have hlabel := @labelTable_eq_some decoded _ code attributes hplaces hplace
      (mem_referencedOffsets_of_exception hentry (by simp))
    have hmem := hlabels ▸ List.mem_filterMap.2 ⟨_, hplace, hlabel⟩
    obtain ⟨node, hnode, heq⟩ := List.mem_filterMap.1 hmem
    obtain ⟨place, hplace⟩ := List.mem_iff_getElem?.1 hnode
    cases node with
    | label label =>
      obtain rfl : label = _ := Option.some.inj heq
      exact ⟨place, hplace⟩
    | line | operation => cases heq

end Body

end Preverification
