import Preverification.Proofs.Guards

/-!
# Handlers around inlined code

When the subroutines of a decoded body are inlined, a copied operation is protected by the handlers
of its own region that protected it, then by those of the region of the call for which it was copied
that protected the call, and so on outwards. Handlers that protect the original from further
outside, where its subroutine stands and not where it is called, do not protect the copy.

* `Body.guarding`: the handlers around a copy, told by the trail of calls for which it was made.
* `Body.isTrail_of_mem_trailInside`: trails lead from a subroutine to a call of it, and so on
  outwards.
* `Body.inline_guarded`: each operation of the inlined body is protected by the handlers of its
  trail, in order.
* `Body.guardedCall_not_preserved`: a handler that covers a call protects the copy, and not the
  original.
-/

namespace Preverification

namespace Body

variable {code : Code} {pool : Pool} {body : Body}

/-! ### Handlers around positions -/

/-- The number of the region of a position. -/
def regionAt (body : Body) (position : Nat) : Nat :=
  match body.regions with
  | .ok regions => regions.owner position
  | .error _ => Regions.outer

/-- The handlers that protect a position and have ranges that start in the region of it. -/
def ownHandlers (body : Body) (position : Nat) : List Handler :=
  body.handlers.filter fun handler => handler.protects body.nodes position &&
    (body.nodes.idxOf? (.label handler.start)).map body.regionAt == some (body.regionAt position)

/-- The handlers around a copy: those of the region of its position, then those of the region of the
call for which it was copied that protect the call, and so on outwards. With each handler there are
the calls for which its region was copied. -/
def guarding (body : Body) : (trail : List Nat) → List (Handler × List Nat)
  | [] => []
  | position :: calls => (body.ownHandlers position).map (·, calls) ++ body.guarding calls

/-- Where the nodes of the inlined body come from: the position of each of them, with the positions
of the calls for which it was copied, the innermost one first. Nodes that were made and not copied
come from nowhere. -/
def origins (body : Body) : List (List Nat) :=
  if body.hasSubroutines then
    match body.regions with
    | .error _ => []
    | .ok regions =>
      match regions.totalSize with
      | .error _ => []
      | .ok size => regions.trail size.depth [] Regions.outer
  else (List.range body.nodes.length).map fun position => [position]

/-- Each position of a trail is in the subroutine that is called from the next one, and the last one
is outside of subroutines. -/
def IsTrail (body : Body) : List Nat → Prop
  | [] => False
  | [position] => body.regionAt position = Regions.outer
  | position :: call :: calls =>
    (∃ target, ∃ place : Nat, body.nodes[call]? = some (.operation (.branch (.jsr target))) ∧
      body.nodes[place]? = some (.label target) ∧ body.regionAt place = body.regionAt position) ∧
    body.IsTrail (call :: calls)

section Regions

variable {regions : Regions} {calls : List Nat} {number position : Nat}

/-- The region of a position is the one that the cut found. -/
theorem regionAt_eq (h : body.regions = .ok regions) : body.regionAt = regions.owner := by
  funext position
  unfold regionAt
  rw [h]

/-- The handlers of a region are those whose ranges start in it. -/
theorem ownHandlers_eq (h : body.regions = .ok regions)
    (hgiven : regions.Given body body.handlers) (position : Nat) :
    regions.ownHandlers body position = body.ownHandlers position := by
  unfold Regions.ownHandlers ownHandlers
  rw [hgiven.handlers_eq, List.filter_filter, regionAt_eq h]
  rfl

/-- The handlers around a copy can be told from the body alone. -/
theorem guarding_eq (h : body.regions = .ok regions) (hgiven : regions.Given body body.handlers)
    (trail : List Nat) : regions.guarding body trail [] = body.guarding trail := by
  induction trail with
  | nil => rfl
  | cons position calls ih =>
    rw [Regions.guarding, guarding, ih, ownHandlers_eq h hgiven, List.append_nil]

/-! ### Trails lead out of subroutines -/

/-- A region is copied for some calls: it is the one that the innermost call enters, or the outer
one. -/
def Opens (body : Body) (regions : Regions) (number : Nat) : (calls : List Nat) → Prop
  | [] => number = Regions.outer
  | call :: calls => (∃ target, body.nodes[call]? = some (.operation (.branch (.jsr target))) ∧
      regions.callee target = number) ∧ body.IsTrail (call :: calls)

/-- A position in a subroutine that calls led to is the start of a trail. -/
theorem isTrail_of_opens (hregions : body.regions = .ok regions) (hc : regions.Cuts body)
    (hopens : body.Opens regions number calls) (howner : regions.owner position = number) :
    body.IsTrail (position :: calls) := by
  have hat := regionAt_eq hregions
  cases calls with
  | nil =>
    change body.regionAt position = Regions.outer
    rw [hat, howner]
    exact hopens
  | cons call calls =>
    obtain ⟨⟨target, hcall, hcallee⟩, htrail⟩ := hopens
    obtain ⟨place, hplace⟩ := hc.placed target (List.mem_of_getElem? hcall)
    refine ⟨⟨target, place, hcall, hplace, ?_⟩, htrail⟩
    rw [hat, howner, ← hcallee, Regions.callee_eq hc hplace]

/-- While a region is copied its calls are followed inwards, and each call becomes the next step of
the trail. -/
theorem isTrail_of_mem_trailInside (hregions : body.regions = .ok regions) (hc : regions.Cuts body)
    (depth : Nat) (hopens : body.Opens regions number calls) {later : List Nat}
    {operation : Operation Label} (hnode : body.nodes[position]? = some (.operation operation))
    (hmem : position :: later ∈ regions.trailInside depth calls number) :
    body.IsTrail (position :: later) := by
  -- a trail inside a copy goes through a call at each depth
  induction depth generalizing calls number with
  | zero => exact absurd hmem List.not_mem_nil
  | succ depth ih =>
    change position :: later ∈ regions.trail depth calls number at hmem
    rw [Regions.trail_eq] at hmem
    rcases List.mem_append.1 hmem with hmem | hmem
    · obtain ⟨position', -, hat⟩ := List.mem_flatMap.1 hmem
      -- what is copied at a place is owned there, unless it is a label
      have hown : ∀ {node : Node}, regions.content? number position' = some node →
          node.label? = none → body.IsTrail (position' :: calls) := by
        intro node hcontent hlabel
        refine isTrail_of_opens hregions hc hopens ?_
        refine (hc.content?_eq_some.1 hcontent).2.resolve_right ?_
        rw [hlabel]
        exact Bool.false_ne_true
      unfold Regions.trailAt at hat
      split at hat
      · cases hat
      · rename_i target hcontent
        have hcalls := hown hcontent rfl
        rcases List.mem_cons.1 hat with heq | hat
        · exact heq ▸ hcalls
        · rcases List.mem_append.1 hat with hat | hat
          · have hopens' : body.Opens regions (regions.callee target) (position' :: calls) :=
              ⟨⟨target, (hc.content?_eq_some.1 hcontent).1, rfl⟩, hcalls⟩
            exact ih hopens' hat
          · cases List.mem_singleton.1 hat
      · rename_i node _ hcontent
        obtain ⟨rfl, rfl⟩ := List.cons.inj (List.mem_singleton.1 hat)
        have hsame := (hc.content?_eq_some.1 hcontent).1
        rw [hnode] at hsame
        exact hown hcontent (Option.some.inj hsame ▸ rfl)
    · split at hmem
      · cases List.mem_singleton.1 hmem
      · cases hmem

/-! ### Handlers of inlined bodies -/

/-- Without subroutines everything is outside of them. -/
theorem regionAt_of_no_subroutines (h : body.hasSubroutines = false) (position : Nat) :
    body.regionAt position = Regions.outer := by
  unfold regionAt
  cases hregions : body.regions with
  | error error => rfl
  | ok regions =>
    obtain ⟨hc, -⟩ := regions_ok hregions
    -- a region other than the outer one ends with a return
    by_contra hne
    have hlt : position < body.nodes.length := by
      by_contra hnot
      refine hne ?_
      change regions.owners.getD position Regions.outer = Regions.outer
      rw [Array.getD_eq_getD_getElem?, Array.getElem?_eq_none (hc.size ▸ Nat.not_lt.1 hnot)]
      rfl
    obtain ⟨place, node, -, hnode, hreturn, -⟩ := hc.ended _ hne (hc.known position hlt)
    cases node with
    | label _ | line _ => cases hreturn
    | operation operation =>
      have hsub := isSubroutine_of_hasSubroutines h (List.mem_of_getElem? hnode)
      cases operation with
      | step _ => cases hreturn
      | branch b =>
        cases b with
        | ret slot => exact Bool.eq_false_iff.1 hsub rfl
        | _ => cases hreturn

/-- All handlers that protect a position outside of subroutines have ranges that start there too. -/
theorem ownHandlers_of_outer (hhome : ∀ handler ∈ body.handlers, handler.protects body.nodes position →
      (body.nodes.idxOf? (.label handler.start)).map body.regionAt = some (body.regionAt position)) :
    body.ownHandlers position = body.handlers.filter (·.protects body.nodes position) := by
  refine List.filter_congr fun handler hmem => ?_
  cases hprotects : handler.protects body.nodes position with
  | false => rfl
  | true => rw [hhome handler hmem hprotects, Bool.true_and, beq_self_eq_true]

/-- A handler that protects a position outside of subroutines starts outside of them. -/
theorem home_of_outer (hregions : body.regions = .ok regions) (hc : regions.Cuts body)
    (hgiven : regions.Given body body.handlers) (houter : body.regionAt position = Regions.outer)
    {handler : Handler} (hmem : handler ∈ body.handlers)
    (hprotects : handler.protects body.nodes position) :
    (body.nodes.idxOf? (.label handler.start)).map body.regionAt =
      some (body.regionAt position) := by
  obtain ⟨home, start, stop, code, hhouses⟩ := hgiven.housed handler hmem
  rw [hc.uniqueLabels.idxOf? hhouses.start_eq, Option.map_some, houter, regionAt_eq hregions,
    hhouses.owner_start]
  rw [regionAt_eq hregions] at houter
  congr 1
  -- the nodes in the range of a subroutine are in subroutines
  by_contra hne
  have hrange := (hc.uniqueLabels.protects_iff hhouses.start_eq hhouses.stop_eq).1 hprotects
  obtain ⟨⟨hstart, -⟩, -⟩ := hhouses.owned hc
  have hlt : home < regions.regions.size := by
    rw [← hhouses.owner_start]
    exact hc.known start hhouses.lt_length.1
  have hle := hhouses.stop_le
  have hinside := hc.inside home hne hlt position (by omega) (by omega)
  rw [houter] at hinside
  exact hne (Nat.le_zero.1 hinside)

end Regions

/-- An operation of an inlined body is a copy that was made for some calls of an operation of the
body, and the handlers that protect it are copies of those around its trail, in the same order.
Outside of calls these are all handlers that protect the original. -/
structure Guarded (body inlined : Body) (place : Nat) (operation : Operation Label)
    (position : Nat) (calls : List Nat) : Prop where
  origin : body.origins[place]? = some (position :: calls)
  isTrail : body.IsTrail (position :: calls)
  copied : ∃ original names continuation, body.nodes[position]? = some (.operation original) ∧
    operation = original.copied names continuation
  handlers : List.Forall₂ (Regions.CopiedHandler body inlined.nodes body.origins)
    (inlined.handlers.filter (·.protects inlined.nodes place)) (body.guarding (position :: calls))
  outside : calls = [] → body.guarding (position :: calls) =
    (body.handlers.filter (·.protects body.nodes position)).map (·, [])

section Inlined

variable {inlined : Body} {limits : InliningLimits} {copies : Nat}

/-- The origins of nodes are the trails along which regions are copied. -/
theorem origins_eq {regions : Regions} {size : ExpandedSize} (hsub : body.hasSubroutines)
    (hregions : body.regions = .ok regions) (hsize : regions.totalSize = .ok size) :
    body.origins = regions.trail size.depth [] Regions.outer := by
  unfold origins
  rw [if_pos hsub, hregions]
  dsimp only
  rw [hsize]

/-- Without subroutines each node comes from itself. -/
theorem guarded_of_no_subroutines (hordered : body.Ordered) (h : body.hasSubroutines = false)
    {place : Nat} {operation : Operation Label}
    (hplace : body.nodes[place]? = some (.operation operation)) :
    body.Guarded body place operation place [] := by
  have hat := regionAt_of_no_subroutines h
  have horigin : ∀ {position : Nat} {node : Node}, body.nodes[position]? = some node →
      body.origins[position]? = some [position] := by
    intro position node hnode
    unfold origins
    rw [h, if_neg Bool.false_ne_true, List.getElem?_map,
      List.getElem?_range (List.getElem?_eq_some_iff.1 hnode).1]
    rfl
  -- all handlers are those of the outer region
  have hown : body.ownHandlers place = body.handlers.filter (·.protects body.nodes place) := by
    refine ownHandlers_of_outer fun handler hmem hprotects => ?_
    unfold Handler.protects at hprotects
    cases hstart : body.nodes.idxOf? (.label handler.start) with
    | none =>
      rw [hstart] at hprotects
      cases hprotects
    | some start => rw [Option.map_some, hat, hat]
  have hguarding : body.guarding [place] =
      (body.handlers.filter (·.protects body.nodes place)).map (·, []) := by
    rw [guarding, guarding, hown, List.append_nil]
  refine ⟨horigin hplace, hat place, ⟨operation, id, default, hplace, ?_⟩, ?_, fun _ => hguarding⟩
  · rw [Operation.copied_eq (isSubroutine_of_hasSubroutines h (List.mem_of_getElem? hplace)),
      Operation.map_id]
  · rw [hguarding, List.forall₂_map_right_iff, List.forall₂_same]
    intro handler hmem
    obtain ⟨code, hcode⟩ := hordered.placed handler (List.mem_of_mem_filter hmem)
    exact ⟨rfl, ⟨code, code, hcode, horigin hcode, hcode⟩, fun _ => rfl⟩

/-- When the subroutines of a body with ordered labels are inlined, each operation of the result
comes from one of the body, and is protected by copies of the handlers around its trail. -/
theorem guarded_of_ordered (hordered : body.Ordered)
    (h : body.inline limits = .ok (copies, inlined)) {place : Nat} {operation : Operation Label}
    (hplace : inlined.nodes[place]? = some (.operation operation)) :
    ∃ position calls, body.Guarded inlined place operation position calls := by
  rcases inline_cases h with ⟨hno, rfl⟩ | ⟨regions, size, hsub, hregions, hsize, rfl⟩
  · exact ⟨place, [], guarded_of_no_subroutines hordered hno hplace⟩
  · obtain ⟨hc, -⟩ := regions_ok hregions
    have hgiven := Regions.given_of_regions hordered.forward hregions
    have horigins := origins_eq hsub hregions hsize
    have hadds := @Regions.copyBody_adds regions body hc (hgiven.isHoused hc) size.depth body.issued
      hordered.issued
    rw [← horigins] at hadds
    obtain ⟨added, heq, -, hall⟩ := hadds.handlers
    rw [withCopy_nodes] at hplace
    have hlt : place < (regions.copyBody size.depth body.issued).nodes.size := by
      rw [← Array.length_toList]
      exact (List.getElem?_eq_some_iff.1 hplace).1
    obtain ⟨node, found, hnode, hfound, hcomes⟩ := hadds.comes (Nat.zero_le place) hlt
    rw [hplace] at hnode
    obtain rfl := Option.some.inj hnode
    -- an operation is neither made by the copying nor passed over
    cases hcomes with
    | made hno => cases hno
    | passed _ _ hno => cases hno
    | @copied position calls original names continuation horiginal hcopied =>
      have htrail : body.IsTrail (position :: calls) := by
        refine isTrail_of_mem_trailInside hregions hc (size.depth + 1)
          (show body.Opens regions Regions.outer [] from rfl) horiginal ?_
        change position :: calls ∈ regions.trail size.depth [] Regions.outer
        rw [← horigins]
        exact List.mem_of_getElem? hfound
      refine ⟨position, calls, hfound, htrail, ⟨original, names, continuation, horiginal,
        Node.operation.inj hcopied⟩, ?_, ?_⟩
      · have hhandlers := hall (Nat.zero_le place) hlt ⟨position :: calls,
          by rw [List.append_nil]; exact hfound,
          ⟨position, calls, original, List.append_nil _, horiginal⟩, rfl⟩
        -- the handlers of the regions around a trail are those that guard it
        rw [guarding_eq hregions hgiven] at hhandlers
        change (regions.copyBody size.depth body.issued).handlers.toList = [] ++ added at heq
        rw [List.nil_append] at heq
        rw [withCopy_nodes, withCopy_handlers, heq]
        exact hhandlers
      · rintro rfl
        rw [guarding, guarding, List.append_nil, ownHandlers_of_outer]
        exact fun handler hmem hprotects => home_of_outer hregions hc hgiven htrail hmem hprotects

/-- Each origin belongs to a node, and those of operations belong to operations. -/
theorem origins_placed (hordered : body.Ordered) (h : body.inline limits = .ok (copies, inlined)) :
    body.origins.length = inlined.nodes.length ∧ ∀ {place position : Nat} {calls : List Nat}
      {original : Operation Label}, body.origins[place]? = some (position :: calls) →
        body.nodes[position]? = some (.operation original) →
          ∃ operation, inlined.nodes[place]? = some (.operation operation) := by
  rcases inline_cases h with ⟨hno, rfl⟩ | ⟨regions, size, hsub, hregions, hsize, rfl⟩
  · unfold origins
    rw [hno, if_neg Bool.false_ne_true]
    refine ⟨by rw [List.length_map, List.length_range], ?_⟩
    intro place position calls original hfound horiginal
    rw [List.getElem?_map] at hfound
    obtain ⟨position', hrange, heq⟩ := Option.map_eq_some_iff.1 hfound
    obtain ⟨rfl, -⟩ := List.cons.inj heq
    obtain ⟨hlt, hat⟩ := List.getElem?_eq_some_iff.1 hrange
    rw [List.getElem_range] at hat
    exact ⟨original, hat ▸ horiginal⟩
  · obtain ⟨hc, -⟩ := regions_ok hregions
    have hgiven := Regions.given_of_regions hordered.forward hregions
    have hadds := @Regions.copyBody_adds regions body hc (hgiven.isHoused hc) size.depth body.issued
      hordered.issued
    rw [← origins_eq hsub hregions hsize] at hadds
    have hlength : body.origins.length =
        (regions.copyBody size.depth body.issued).nodes.size :=
      (hadds.size.trans (Nat.zero_add _)).symm
    refine ⟨hlength.trans (Array.length_toList).symm, ?_⟩
    intro place position calls original hfound horiginal
    have hlt := (List.getElem?_eq_some_iff.1 hfound).1
    obtain ⟨node, found, hnode, hfound', hcomes⟩ :=
      hadds.comes (Nat.zero_le place) (hlength ▸ hlt)
    rw [hfound] at hfound'
    obtain rfl := Option.some.inj hfound'
    -- what was passed over is no operation
    cases hcomes with
    | passed horiginal' hno _ =>
      rw [horiginal] at horiginal'
      obtain rfl := Option.some.inj horiginal'
      cases hno
    | copied names continuation _ hcopied => exact ⟨_, hcopied ▸ hnode⟩

/-- When the subroutines of a decoded body are inlined, each operation of the result is a copy of
one of the body, and is protected by copies of the handlers around its trail. -/
theorem inline_guarded (hdecode : decode code pool = .ok body)
    (h : body.inline limits = .ok (copies, inlined)) :
    body.origins.length = inlined.nodes.length ∧
      (∀ (place : Nat) operation, inlined.nodes[place]? = some (.operation operation) →
        ∃ position calls, body.Guarded inlined place operation position calls) ∧
      ∀ (place position : Nat) calls original, body.origins[place]? = some (position :: calls) →
        body.nodes[position]? = some (.operation original) →
          ∃ operation, inlined.nodes[place]? = some (.operation operation) := by
  have hordered := decode_ordered hdecode
  obtain ⟨hlength, hplaced⟩ := origins_placed hordered h
  exact ⟨hlength, fun place operation hplace => guarded_of_ordered hordered h hplace,
    fun place position calls original hfound horiginal => hplaced hfound horiginal⟩

/-! ### A call in the range of a handler -/

/-- Calls a subroutine in the range of a handler that does not cover the subroutine. -/
def guardedCall : Code where
  maxStack := 1
  maxLocals := 2
  bytecode := [168, 0, 4, 177, 76, 169, 1]
  exceptions := [⟨0, 3, 3, none⟩]
  attributes := []

/-- The body of `guardedCall`. -/
def guardedCallBody : Body where
  maxStack := 1
  maxLocals := 2
  nodes :=
    [.label ⟨0⟩, .operation (.branch (.jsr ⟨2⟩)), .label ⟨1⟩, .operation (.branch .returnVoid),
      .label ⟨2⟩, .operation (.step (.store .reference 1)), .operation (.branch (.ret 1))]
  handlers := [⟨⟨0⟩, ⟨1⟩, ⟨1⟩, none⟩]
  localVariables := []
  variableTypes := []
  attributes := []
  issued := 3

/-- The regions of `guardedCallBody`. -/
def guardedCallRegions : Regions where
  flow :=
    { nodes := guardedCallBody.nodes.toArray
      positions := (((∅ : Std.HashMap Label Nat).insert ⟨0⟩ 0).insert ⟨1⟩ 2).insert ⟨2⟩ 4
      next := #[some 1, some 1, some 3, some 3, some 5, some 5, some 6, none]
      numbers := #[0, 0, 1, 1, 2, 2, 3, 4] }
  regions :=
    #[{ entry := none, start := 0, stop := 7, handlers := #[⟨⟨0⟩, ⟨1⟩, ⟨1⟩, none⟩] },
      { entry := some ⟨2⟩, start := 4, stop := 7 }]
  owners := #[0, 0, 0, 0, 1, 1, 1]

/-- The handler covers the call, and its range ends in front of the subroutine. -/
theorem guardedCall_decode : decode guardedCall (.ofConstants []) = .ok guardedCallBody := by
  obtain ⟨decoded, hdecoded⟩ : ∃ decoded : DecodedCode, decoded =
    ⟨7, [(0, .branch (.jsr 4)), (3, .branch .returnVoid), (4, .step (.store .reference 1)),
      (5, .branch (.ret 1))], .ofList [0, 3, 4, 5]⟩ := ⟨_, rfl⟩
  have hbytes : DecodedCode.ofBytes (.ofConstants []) guardedCall.bytecode = .ok decoded := by
    have hread : Reader.run (DecodedCode.readOperations (.ofConstants []) 7 [] 7)
        guardedCall.bytecode = .ok ([(0, .branch (.jsr 4)), (3, .branch .returnVoid),
          (4, .step (.store .reference 1)), (5, .branch (.ret 1))], []) := by decide +kernel
    exact except_bind_ok.2 ⟨_, hread, congrArg Except.ok hdecoded.symm⟩
  have hstart : ∀ offset ∈ [0, 3, 4, 5], decoded.isStart offset = true := by
    intro offset hoffset
    rw [hdecoded]
    simpa [DecodedCode.isStart] using hoffset
  have htargets : decoded.checkTargets = .ok () := by
    unfold DecodedCode.checkTargets
    rw [hdecoded] at hstart ⊢
    simp [Operation.targets, Branch.targets, hstart, bind, Except.bind, pure, Except.pure]
  have hexceptions : ∀ entry ∈ guardedCall.exceptions, decoded.checkException entry = .ok () := by
    refine List.forall_mem_singleton.2 ?_
    simp [DecodedCode.checkException, DecodedCode.isRange, DecodedCode.isStop, hstart]
    rfl
  have hlabels : labelTable guardedCall decoded {} =
      ((((∅ : Std.HashMap Nat Label).insert 0 ⟨0⟩).insert 3 ⟨1⟩).insert 4 ⟨2⟩) := by
    have hplaces : labelledPlaces decoded (.ofList [4, 0, 3, 3]) = [0, 3, 4] := by
      rw [hdecoded]
      simp [labelledPlaces, DecodedCode.places]
    have hoffsets : referencedOffsets guardedCall decoded [] = [4, 0, 3, 3] := by
      rw [hdecoded]
      rfl
    unfold labelTable labelledOffsets
    rw [List.filter_nil, List.append_nil, hoffsets, labelOffsets_eq, hplaces]
    rfl
  refine decode_ok.2 ⟨decoded, {}, hbytes, htargets, hexceptions, rfl, ?_⟩
  unfold assemble
  rw [hlabels, hdecoded]
  simp [assembleWith, operationNodes, linesByOffset_getD, Operation.map, Branch.map, guardedCall,
    guardedCallBody, handler, Std.HashMap.size_insert, Std.HashMap.getElem?_insert,
    Std.HashMap.getD_insert]

/-- There is one subroutine, and the handler belongs to the outermost region. -/
theorem guardedCall_regions : guardedCallBody.regions = .ok guardedCallRegions := by
  -- the regions of the scan, before the handler is given to one
  obtain ⟨bare, hbareEq⟩ : ∃ bare : Regions, bare = { guardedCallRegions with
    regions := #[{ entry := none, start := 0, stop := 7 },
      { entry := some ⟨2⟩, start := 4, stop := 7 }] } := ⟨_, rfl⟩
  have hpositions : guardedCallBody.labelPositions = .ok guardedCallRegions.flow.positions := by
    simp [guardedCallBody, guardedCallRegions, labelPositions, placeLabels, Node.label?]
  have hflow : guardedCallBody.flow = .ok guardedCallRegions.flow := by
    unfold flow
    rw [hpositions]
    rfl
  have hposition : ∀ {label : Label} {place : Nat},
      guardedCallBody.nodes[place]? = some (.label label) →
        bare.flow.position label = .ok place := by
    intro label place hplace
    rw [hbareEq]
    exact ((flow_describes hflow).position_ok _ _).2 hplace
  -- one label is called, and a subroutine starts there
  have hbare : Regions.ofNodes guardedCallBody = .ok bare := by
    refine Regions.ofNodes_of_scan (hbareEq ▸ hflow) ?_ ?_
    · intro label hmem
      obtain rfl : label = ⟨2⟩ := by simpa [guardedCallBody, calledLabels] using hmem
      exact ⟨4, hposition rfl⟩
    · have hcalled : guardedCallBody.calledLabels = [⟨2⟩] := rfl
      rw [hcalled, hbareEq]
      simp [guardedCallBody, guardedCallRegions, RegionScan.add, RegionScan.pass,
        RegionScan.enter, RegionScan.leave, RegionScan.current, Regions.outer, Array.modify,
        Array.modifyM]
  have hentries : bare.checkEntries guardedCallBody.nodes = .ok () := by
    rw [hbareEq]
    rfl
  -- the range of the handler starts in the outer region, and its code is there
  have hadded : bare.addHandler ⟨⟨0⟩, ⟨1⟩, ⟨1⟩, none⟩ = .ok guardedCallRegions := by
    have hrange : bare.ofRange ⟨0⟩ ⟨1⟩ = .ok (some 0) := by
      unfold Regions.ofRange
      rw [@hposition ⟨0⟩ 0 rfl, @hposition ⟨1⟩ 2 rfl, hbareEq]
      rfl
    have howner : bare.ownerOf ⟨1⟩ = .ok 0 := by
      unfold Regions.ownerOf
      rw [@hposition ⟨1⟩ 2 rfl, hbareEq]
      rfl
    unfold Regions.addHandler
    rw [hrange, howner, hbareEq]
    rfl
  unfold Body.regions
  rw [hbare]
  refine except_bind_ok.2 ⟨_, rfl, except_bind_ok.2 ⟨(), hentries, ?_⟩⟩
  exact except_bind_ok.2 ⟨_, except_bind_ok.2 ⟨_, hadded, rfl⟩, rfl⟩

theorem guardedCall_callee : guardedCallRegions.callee ⟨2⟩ = 1 := by
  simp [Regions.callee, guardedCallRegions, Regions.owner]

theorem guardedCall_totalSize : guardedCallRegions.totalSize = .ok ⟨1, 4⟩ := by
  have houter : guardedCallRegions.callees 0 = [1] := by
    have hcontents : guardedCallRegions.contents 0 =
        [.label ⟨0⟩, .operation (.branch (.jsr ⟨2⟩)), .label ⟨1⟩,
          .operation (.branch .returnVoid), .label ⟨2⟩] := rfl
    simp [Regions.callees, hcontents, guardedCall_callee]
  exact @Regions.totalSize_of_one_callee guardedCallRegions 1 0 (by decide) (by decide) houter rfl

theorem guardedCall_inline :
    ∃ copies inlined, guardedCallBody.inline ⟨1, 4⟩ = .ok (copies, inlined) :=
  exists_inline rfl guardedCall_regions guardedCall_totalSize (Nat.le_refl 1) (Nat.le_refl 4)

/-- The operations of the inlined form of `guardedCallBody` are guarded as their trails say. -/
theorem guardedCall_guarded : ∃ copies inlined,
    decode guardedCall (.ofConstants []) = .ok guardedCallBody ∧
      guardedCallBody.inline ⟨1, 4⟩ = .ok (copies, inlined) ∧
      guardedCallBody.origins.length = inlined.nodes.length ∧
      (∀ (place : Nat) operation, inlined.nodes[place]? = some (.operation operation) →
        ∃ position calls, guardedCallBody.Guarded inlined place operation position calls) ∧
      ∀ (place position : Nat) calls original,
        guardedCallBody.origins[place]? = some (position :: calls) →
          guardedCallBody.nodes[position]? = some (.operation original) →
            ∃ operation, inlined.nodes[place]? = some (.operation operation) := by
  obtain ⟨copies, inlined, hinline⟩ := guardedCall_inline
  exact ⟨copies, inlined, guardedCall_decode, hinline, inline_guarded guardedCall_decode hinline⟩

/-- The operations of the subroutine come from the call at position one. -/
theorem guardedCall_origins : guardedCallBody.origins =
    [[0], [1], [4, 1], [5, 1], [6, 1], [], [2], [3], [4]] := by
  have hcontent : guardedCallRegions.content? 0 1 = some (.operation (.branch (.jsr ⟨2⟩))) := rfl
  have hbehind : guardedCallRegions.endsBehind 1 = false := by
    simp [Regions.endsBehind, Regions.stops, Regions.region, guardedCallRegions]
  have hinner : guardedCallRegions.trail 0 [1] 1 = [[4, 1], [5, 1], [6, 1]] := by
    unfold Regions.trail Regions.trailOf
    rw [hbehind]
    rfl
  have hcall : guardedCallRegions.trailAt (guardedCallRegions.trail 0) [] 0 1 =
      [[1], [4, 1], [5, 1], [6, 1], []] := by
    rw [Regions.trailAt_of_call hcontent, guardedCall_callee, hinner]
    rfl
  have hspan : guardedCallRegions.span 0 = [0, 1, 2, 3, 4, 5, 6] := rfl
  rw [origins_eq rfl guardedCall_regions guardedCall_totalSize]
  unfold Regions.trail Regions.trailOf
  change (guardedCallRegions.span 0).flatMap (guardedCallRegions.trailAt
    (guardedCallRegions.trail 0) [] 0) ++ [] = _
  rw [hspan, List.flatMap_cons, List.flatMap_cons, hcall]
  rfl

/-- A handler that covers a call protects what was copied for the call, although it does not protect
the original. -/
theorem guardedCall_not_preserved : ∃ copies inlined, ∃ place : Nat, ∃ operation,
    decode guardedCall (.ofConstants []) = .ok guardedCallBody ∧
      guardedCallBody.inline ⟨1, 4⟩ = .ok (copies, inlined) ∧
      guardedCallBody.Guarded inlined place operation 5 [1] ∧
      operation = .step (.store .reference 1) ∧
      ¬ List.Forall₂ (fun found original : Handler => found.caught = original.caught)
        (inlined.handlers.filter (·.protects inlined.nodes place))
        (guardedCallBody.handlers.filter (·.protects guardedCallBody.nodes 5)) := by
  obtain ⟨copies, inlined, hinline⟩ := guardedCall_inline
  have hordered := decode_ordered guardedCall_decode
  have horigin : guardedCallBody.origins[3]? = some [5, 1] := by
    rw [guardedCall_origins]
    rfl
  obtain ⟨operation, hplace⟩ := (origins_placed hordered hinline).2 horigin rfl
  obtain ⟨position, calls, hguarded⟩ := guarded_of_ordered hordered hinline hplace
  obtain ⟨rfl, rfl⟩ : position = 5 ∧ calls = [1] := by
    have heq := hguarded.origin
    rw [horigin] at heq
    simpa using (Option.some.inj heq).symm
  refine ⟨copies, inlined, 3, operation, guardedCall_decode, hinline, hguarded, ?_, ?_⟩
  · obtain ⟨original, names, continuation, horiginal, rfl⟩ := hguarded.copied
    cases horiginal
    rfl
  · -- the handler covers the call at 1, and not what is at 5
    have hnone : guardedCallBody.handlers.filter (·.protects guardedCallBody.nodes 5) = [] := by
      decide
    have hone : (guardedCallBody.guarding [5, 1]).length = 1 := by
      unfold guarding guarding guarding ownHandlers
      rw [regionAt_eq guardedCall_regions]
      decide
    intro hcaught
    have hlength := hguarded.handlers.length_eq
    rw [hcaught.length_eq, hnone, hone] at hlength
    cases hlength

end Inlined

end Body

end Preverification
