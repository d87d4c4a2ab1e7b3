import Preverification.Proofs.Nesting

/-!
# Inlined bodies do the same

A body whose subroutines are entered by calls alone and its inlined form are bisimilar from their
first operations. Each step of the original is a step of the copy that the run has got to: a call
enters a new copy, a return leaves the innermost one, and a jump out of a subroutine leaves all
copies. Backwards it is enough that the original can go on in the same way, for the inlined body
goes on in one way only.

* `Regions.Follows`: where a run of the inlined body has got to.
* `Regions.Follows.forth`, `Regions.Follows.exists_step`: each step of one body can be followed in
  the other one.
* `Body.inline_bisimilar`: a body whose subroutines are entered by calls alone is bisimilar to its
  inlined form.
-/

namespace Preverification

/-- Where no label is placed twice, a run goes on in a certain way to one place only. -/
theorem Step.unique {nodes : List Node}
    (hunique : ∀ (label : Label) (place place' : Nat), nodes[place]? = some (.label label) →
      nodes[place']? = some (.label label) → place = place')
    {config stop stop' : Config} {choice : Choice} (h : Step nodes config choice stop)
    (h' : Step nodes config choice stop') : stop = stop' := by
  cases h with
  | next ho hf ht =>
    cases h' with
    | next _ _ ht' => rw [ht.unique ht']
    | call hcall =>
      -- what falls through is no call
      rw [ho] at hcall
      cases hcall
      cases hf
  | jump ho hsub htarget hplace ht =>
    cases h' with
    | jump ho' _ htarget' hplace' ht' =>
      rw [ho] at ho'
      cases ho'
      rw [htarget] at htarget'
      cases htarget'
      -- a jump by the same choice goes to the same label
      cases hunique _ _ _ hplace hplace'
      rw [ht.unique ht']
    | back hret =>
      rw [ho] at hret
      cases hret
      cases hsub
  | call hcall hplace ht =>
    cases h' with
    | next ho hf =>
      rw [hcall] at ho
      cases ho
      cases hf
    | call hcall' hplace' ht' =>
      rw [hcall] at hcall'
      cases hcall'
      cases hunique _ _ _ hplace hplace'
      rw [ht.unique ht']
  | back hret ht =>
    cases h' with
    | jump ho hsub =>
      rw [hret] at ho
      cases ho
      cases hsub
    | back _ ht' => rw [ht.unique ht']

namespace Regions

variable {regions : Regions} {body : Body} {nodes : List Node}

/-- A run of the inlined body has got to the copy of the operation that the original has got to, in
the copies of the calls that are in progress. -/
def Follows (regions : Regions) (body : Body) (nodes : List Node) (config config' : Config) :
    Prop :=
  ∃ names continuation places,
    regions.Nested body nodes (regions.owner config.position) names continuation places
      config.returns ∧
    (∃ operation, body.nodes[config.position]? = some (.operation operation)) ∧
    config'.position = places config.position

section Places

variable {names : Renaming} {continuation : Label} {places : Nat → Nat} {returns : List Nat}
  {position place target : Nat}

/-- A run that goes on behind a node goes on behind its copy. -/
theorem Nested.arrives_behind (hc : regions.Cuts body)
    (h : regions.Nested body nodes (regions.owner position) names continuation places returns)
    {before : Node} (hbefore : body.nodes[position]? = some before)
    (hreturn : before.isReturn = false) (ht : Arrives body.nodes (position + 1) target)
    (hmay : mayEnter (regions.owner position) (regions.owner target)) :
    regions.owner target = regions.owner position ∧
      Arrives nodes (places (position + 1)) (places target) := by
  have howner : ∀ passed, position + 1 ≤ passed → passed ≤ target →
      regions.owner passed = regions.owner position := fun passed hle hle' =>
    hc.owner_behind hbefore hreturn ht hmay (Nat.le_of_succ_le hle) hle'
  exact ⟨howner target ht.le (Nat.le_refl target), (h.copied.arrives_iff hc ht howner).2 rfl⟩

/-- A run that goes on at a label goes on at its copy. -/
theorem Nested.arrives_label (hc : regions.Cuts body) (hentered : regions.EnteredByCalls body.nodes)
    (h : regions.Nested body nodes (regions.owner place) names continuation places returns)
    {operation : Operation Label} {label : Label}
    (ho : body.nodes[position]? = some (.operation operation)) (hlabel : label ∈ operation.targets)
    (hplace : body.nodes[place]? = some (.label label)) (ht : Arrives body.nodes place target) :
    regions.owner target = regions.owner place ∧ Arrives nodes (places place) (places target) := by
  have ht' := (arrives_succ hplace rfl).1 ht
  rcases h.arrives_behind hc hplace rfl ht' (hentered _ _ (.onward ho hlabel hplace ht')) with
    ⟨howner, harrives⟩
  refine ⟨howner, (arrives_succ (h.copied.node hc hplace rfl).1 rfl).2 ?_⟩
  rw [← h.copied.behind hc hplace nofun rfl]
  exact harrives

/-- A jump stays in the innermost copy, or it goes to the outermost one. There its label stands
under the name that it has where the jump comes from. -/
theorem Nested.jump (hc : regions.Cuts body)
    (h : regions.Nested body nodes (regions.owner position) names continuation places returns)
    {label : Label} (hplace : body.nodes[place]? = some (.label label))
    (hmay : mayEnter (regions.owner position) (regions.owner place)) :
    ∃ names' continuation' places',
      regions.Nested body nodes (regions.owner place) names' continuation' places' returns ∧
      nodes[places' place]? = some (.label (names.apply label)) := by
  rcases Cuts.mayEnter_iff.1 hmay with hsame | houter
  · -- inside of the region
    rw [← hsame] at h
    exact ⟨names, continuation, places, h, (h.copied.node hc hplace rfl).1⟩
  · -- out of all subroutines, whatever calls are in progress
    rcases h.outermost returns with ⟨places', h'⟩
    rw [← houter] at h'
    refine ⟨[], default, places', h', ?_⟩
    rw [h.apply_of_outer hc hplace houter]
    exact (h'.copied.node hc hplace rfl).1

/-- A call goes to a new copy, which starts behind the null in its place. -/
theorem Nested.enter (hc : regions.Cuts body)
    (h : regions.Nested body nodes (regions.owner position) names continuation places returns)
    {label : Label} (hcall : body.nodes[position]? = some (.operation (.branch (.jsr label))))
    (hplace : body.nodes[place]? = some (.label label)) :
    ∃ names' continuation' places',
      regions.Nested body nodes (regions.owner place) names' continuation' places'
        ((position + 1) :: returns) ∧ places' place = places position + 1 := by
  rcases h.copied.node hc hcall rfl with
    ⟨_, labels, last, inside, hcopied, hstart, hlabels, stop, hstop, hbehind⟩
  rcases callee_entered hc hcall with ⟨found, hfound, _, _, hfirst⟩
  cases hc.flow.label_unique hplace hfound
  have hcallee := callee_eq hc hplace
  rw [hfirst] at hstart
  have hinner := Nested.call h hcall rfl hcopied hlabels hstop hbehind
  rw [hcallee] at hinner
  exact ⟨_, _, _, hinner, hstart⟩

/-- A return goes to where the copy around goes on behind its call. -/
theorem Nested.leave {number behind : Nat}
    (h : regions.Nested body nodes number names continuation places (behind :: returns))
    (hne : number ≠ Regions.outer) :
    ∃ caller names' continuation' places' label stop,
      behind = caller + 1 ∧
      regions.Nested body nodes (regions.owner caller) names' continuation' places' returns ∧
      body.nodes[caller]? = some (.operation (.branch (.jsr label))) ∧
      nodes[stop]? = some (.label continuation) ∧ places' (caller + 1) = stop + 1 := by
  cases h with
  | outer => exact absurd rfl hne
  | call h hcall howner _ _ hstop hbehind =>
    rw [← howner] at h
    exact ⟨_, _, _, _, _, _, rfl, h, hcall, hstop, hbehind⟩

/-- In a copy of a subroutine, there is a place to return to. -/
theorem Nested.exists_returns {number : Nat}
    (h : regions.Nested body nodes number names continuation places returns)
    (hne : number ≠ Regions.outer) : ∃ behind rest, returns = behind :: rest := by
  cases h with
  | outer => exact absurd rfl hne
  | call => exact ⟨_, _, rfl⟩

/-- Where a copy goes on behind a node, the original goes on as well. -/
theorem Nested.exists_at_label (hc : regions.Cuts body)
    (h : regions.Nested body nodes (regions.owner place) names continuation places returns)
    {label : Label} (hplace : body.nodes[place]? = some (.label label))
    (ht : Arrives nodes (places place) target) : ∃ target, Arrives body.nodes place target := by
  have ht' := (arrives_succ (h.copied.node hc hplace rfl).1 rfl).1 ht
  rw [← h.copied.behind hc hplace nofun rfl] at ht'
  rcases h.exists_arrives_behind hc hplace rfl rfl ht' with ⟨target', htarget⟩
  exact ⟨target', (arrives_succ hplace rfl).2 htarget⟩

/-- Where the copy of an operation goes on with the next one, the original falls through or calls a
subroutine. -/
theorem Nested.exists_next (hc : regions.Cuts body)
    (h : regions.Nested body nodes (regions.owner position) names continuation places returns)
    {operation : Operation Label} (ho : body.nodes[position]? = some (.operation operation))
    (hf : (operation.copied names.apply continuation).fallsThrough)
    (ht : Arrives nodes (places position + 1) target) :
    ∃ stop, Step body.nodes ⟨position, returns⟩ .next stop := by
  by_cases hsub : operation.isSubroutine
  · rcases Operation.jsr_or_ret hsub with ⟨label, rfl⟩ | ⟨slot, rfl⟩
    · -- a call goes on in the subroutine, which has a return at least
      rcases callee_entered hc ho with ⟨found, hfound, howner, hne, hstart⟩
      have hlt := (List.getElem?_eq_some_iff.1 hfound).1
      have hstop := (hc.owned found hlt).2
      rcases not_endsBefore_iff.1
        (hc.not_endsBefore (howner ▸ hne) (hc.known found hlt) hstop) with ⟨passed, hle, hpassed⟩
      rcases Preverification.exists_arrives hle hpassed with ⟨target', htarget⟩
      exact ⟨_, .call ho hfound htarget⟩
    · cases hf
  · have hsub : operation.isSubroutine = false := by simpa using hsub
    rw [Operation.copied_eq hsub, Operation.fallsThrough_map] at hf
    rw [← h.copied.behind hc ho (by rintro target ⟨⟩; cases hf) rfl] at ht
    rcases h.exists_arrives_behind hc ho (Operation.isReturn_of_not_isSubroutine hsub) rfl ht with
      ⟨target', htarget⟩
    exact ⟨_, .next ho hf htarget⟩

/-- Where the copy of an operation jumps, the original jumps or returns. -/
theorem Nested.exists_jump (hc : regions.Cuts body) (hk : regions.Checked body)
    (hunique : ∀ (label : Label) (place place' : Nat), nodes[place]? = some (.label label) →
      nodes[place']? = some (.label label) → place = place')
    (h : regions.Nested body nodes (regions.owner position) names continuation places returns)
    {operation : Operation Label} {label : Label} {index : Nat}
    (ho : body.nodes[position]? = some (.operation operation))
    (htarget : (operation.copied names.apply continuation).targets[index]? = some label)
    (hplace : nodes[place]? = some (.label label)) (ht : Arrives nodes place target) :
    ∃ stop, Step body.nodes ⟨position, returns⟩ (.target index) stop := by
  by_cases hsub : operation.isSubroutine
  · rcases Operation.jsr_or_ret hsub with ⟨called, rfl⟩ | ⟨slot, rfl⟩
    · cases htarget
    · obtain ⟨rfl, rfl⟩ : index = 0 ∧ continuation = label := by
        cases index with
        | zero => exact ⟨rfl, Option.some.inj htarget⟩
        | succ index => cases htarget
      -- a return goes to the end of the innermost copy
      have hne := hk.returns _ _ ho
      rcases h.exists_returns hne with ⟨_, rest, rfl⟩
      rcases h.leave hne with
        ⟨caller, names', continuation', places', label, stop, rfl, h', hcall, hstop, hbehind⟩
      cases hunique _ _ _ hplace hstop
      have ht' := (arrives_succ hstop rfl).1 ht
      rw [← hbehind] at ht'
      rcases h'.exists_arrives_behind hc hcall rfl rfl ht' with ⟨target', htarget'⟩
      exact ⟨_, .back ho htarget'⟩
  · have hsub : operation.isSubroutine = false := by simpa using hsub
    rw [Operation.copied_eq hsub, Operation.targets_map, List.getElem?_map,
      Option.map_eq_some_iff] at htarget
    -- any other jump goes where the original goes
    rcases htarget with ⟨original, horiginal, rfl⟩
    rcases hk.jumps _ _ _ ho hsub (List.mem_of_getElem? horiginal) with ⟨found, hfound, hmay⟩
    rcases h.jump hc hfound hmay with ⟨names', continuation', places', h', hlabel⟩
    cases hunique _ _ _ hplace hlabel
    rcases h'.exists_at_label hc hfound ht with ⟨target', htarget'⟩
    exact ⟨_, .jump ho hsub horiginal hfound htarget'⟩

end Places

/-- A run of the inlined body can follow a step of the original. -/
theorem Follows.forth (hc : regions.Cuts body) (hk : regions.Checked body)
    (hentered : regions.EnteredByCalls body.nodes) {config config' stop : Config} {choice : Choice}
    (h : regions.Follows body nodes config config') (hstep : Step body.nodes config choice stop) :
    ∃ stop', Step nodes config' choice stop' ∧ regions.Follows body nodes stop stop' := by
  rcases config' with ⟨position', returns'⟩
  rcases h with ⟨names, continuation, places, hnested, _, rfl⟩
  cases hstep with
  | next ho hf ht =>
    -- in the same copy
    have hsub := Operation.isSubroutine_of_fallsThrough hf
    rcases hnested.arrives_behind hc ho
      (Operation.isReturn_of_not_isSubroutine hsub) ht (hk.falls _ _ _ ho hf ht) with
      ⟨howner, harrives⟩
    rw [hnested.copied.behind hc ho (by rintro target ⟨⟩; cases hf) rfl] at harrives
    refine ⟨⟨_, returns'⟩, .next (hnested.copied.operation hc ho rfl) ?_ harrives, names,
      continuation, places, ?_, ht.operation, rfl⟩
    · rw [Operation.copied_eq hsub, Operation.fallsThrough_map]
      exact hf
    · rw [howner]
      exact hnested
  | jump ho hsub htarget hplace ht =>
    -- in the same copy, or in the outermost one
    have hmem := List.mem_of_getElem? htarget
    rcases hk.jumps _ _ _ ho hsub hmem with ⟨found, hfound, hmay⟩
    cases hc.flow.label_unique hplace hfound
    rcases hnested.jump hc hplace hmay with ⟨names', continuation', places', hnested', hlabel⟩
    rcases hnested'.arrives_label hc hentered ho hmem hplace ht with ⟨howner, harrives⟩
    refine ⟨⟨_, returns'⟩, .jump (hnested.copied.operation hc ho rfl)
      (Operation.isSubroutine_copied _ _ _) ?_ hlabel harrives, names', continuation', places', ?_,
      ht.operation, rfl⟩
    · rw [Operation.copied_eq hsub, Operation.targets_map, List.getElem?_map, htarget]
      rfl
    · rw [howner]
      exact hnested'
  | call hcall hplace ht =>
    -- into the copy for this call, over the null in its place
    rcases hnested.enter hc hcall hplace with ⟨names', continuation', places', hnested', hstart⟩
    rcases hnested'.arrives_label hc hentered hcall (List.mem_singleton.2 rfl) hplace ht with
      ⟨howner, harrives⟩
    rw [hstart] at harrives
    refine ⟨⟨_, returns'⟩, .next (hnested.copied.operation hc hcall rfl) rfl harrives, names',
      continuation', places', ?_, ht.operation, rfl⟩
    rw [howner]
    exact hnested'
  | back hret ht =>
    -- back to the copy around, over the label at the end of this one
    rcases hnested.leave (hk.returns _ _ hret) with
      ⟨caller, names', continuation', places', label, stop, rfl, hnested', hcall, hstop, hbehind⟩
    rcases hnested'.arrives_behind hc hcall rfl ht (hentered _ _ (.returned hcall ht)) with
      ⟨howner, harrives⟩
    rw [hbehind] at harrives
    refine ⟨⟨_, returns'⟩, .jump (hnested.copied.operation hc hret rfl) rfl rfl hstop
      ((arrives_succ hstop rfl).2 harrives), names', continuation', places', ?_, ht.operation, rfl⟩
    rw [howner]
    exact hnested'

/-- Where a run of the inlined body goes on, the original can go on in the same way. -/
theorem Follows.exists_step (hc : regions.Cuts body) (hk : regions.Checked body)
    (hunique : ∀ (label : Label) (place place' : Nat), nodes[place]? = some (.label label) →
      nodes[place']? = some (.label label) → place = place')
    {config config' stop' : Config} {choice : Choice}
    (h : regions.Follows body nodes config config') (hstep : Step nodes config' choice stop') :
    ∃ stop, Step body.nodes config choice stop := by
  rcases config with ⟨position, returns⟩
  rcases config' with ⟨position', returns'⟩
  rcases h with ⟨names, continuation, places, hnested, ⟨operation, ho⟩, rfl⟩
  have hcopied := hnested.copied.operation hc ho rfl
  cases hstep with
  -- inlined code has no calls and no returns
  | call hcall =>
    rw [hcopied] at hcall
    have hsub := Operation.isSubroutine_copied names.apply continuation operation
    rw [Node.operation.inj (Option.some.inj hcall)] at hsub
    cases hsub
  | back hret =>
    rw [hcopied] at hret
    have hsub := Operation.isSubroutine_copied names.apply continuation operation
    rw [Node.operation.inj (Option.some.inj hret)] at hsub
    cases hsub
  | next ho' hf ht =>
    rw [hcopied] at ho'
    cases ho'
    exact hnested.exists_next hc ho hf ht
  | jump ho' _ htarget hplace ht =>
    rw [hcopied] at ho'
    cases ho'
    exact hnested.exists_jump hc hk hunique ho htarget hplace ht

/-- Places where the copies of operations stand show what the operations show. -/
theorem Follows.shows (hc : regions.Cuts body) {config config' : Config}
    (h : regions.Follows body nodes config config') :
    ∃ seen, Shows body.nodes config seen ∧ Shows nodes config' seen := by
  rcases h with ⟨names, continuation, places, hnested, ⟨operation, ho⟩, hposition⟩
  refine ⟨operation.seen, ⟨operation, ho, rfl⟩,
    operation.copied names.apply continuation, ?_, Operation.seen_copied _ _ _⟩
  rw [hposition]
  exact hnested.copied.operation hc ho rfl

theorem follows_isBisimulation (hc : regions.Cuts body) (hk : regions.Checked body)
    (hentered : regions.EnteredByCalls body.nodes)
    (hunique : ∀ (label : Label) (place place' : Nat), nodes[place]? = some (.label label) →
      nodes[place']? = some (.label label) → place = place') :
    IsBisimulation body.nodes nodes (regions.Follows body nodes) where
  shows _ _ h := h.shows hc
  forth _ _ _ _ h hstep := h.forth hc hk hentered hstep
  back _ _ _ _ h hstep := by
    rcases h.exists_step hc hk hunique hstep with ⟨stop, hstop⟩
    rcases h.forth hc hk hentered hstop with ⟨stop', hstop', h'⟩
    -- the step of the copy is the only one
    cases hstep.unique hunique hstop'
    exact ⟨stop, hstop, h'⟩

/-- A run of the copy of a whole body starts with the copy of the first operation. -/
theorem Nested.start (hc : regions.Cuts body) (hentered : regions.EnteredByCalls body.nodes)
    {names : Renaming} {continuation : Label} {places : Nat → Nat} {first : Nat}
    (h : regions.Nested body nodes Regions.outer names continuation places [])
    (ht : Arrives body.nodes 0 first) :
    Arrives nodes (places 0) (places first) ∧
      regions.Follows body nodes ⟨first, []⟩ ⟨places first, []⟩ := by
  have hfirst : regions.owner first = Regions.outer :=
    (Cuts.mayEnter_iff.1 (hentered _ _ (.start ht))).elim id id
  have hno := (hc.owner_first_iff ht).1 hfirst
  refine ⟨(h.copied.arrives_iff hc ht fun passed _ hle => hc.owner_from_start ht hno hle).2 rfl,
    names, continuation, places, ?_, ht.operation, rfl⟩
  rw [hfirst]
  exact h

/-- Where the copy of a whole body starts with an operation, the body does. -/
theorem Nested.exists_start (hc : regions.Cuts body) {names : Renaming} {continuation : Label}
    {places : Nat → Nat} {first : Nat}
    (h : regions.Nested body nodes Regions.outer names continuation places [])
    (ht : Arrives nodes (places 0) first) : ∃ first, Arrives body.nodes 0 first := by
  refine h.exists_arrives hc (fun hne => absurd rfl hne) ?_ (Nat.zero_le _) ht
  -- without operations nothing is called
  intro hend hlt
  refine hc.first _ (List.getElem?_eq_getElem hlt) ?_
  intro label _ hcalls
  rcases List.mem_iff_getElem?.1 hcalls with ⟨position, hcall⟩
  exact hend position (Nat.zero_le position) _ hcall

/-- The copy of a whole body is bisimilar to it. -/
theorem copyBody_bisimilar (hc : regions.Cuts body) (hk : regions.Checked body)
    (hentered : regions.EnteredByCalls body.nodes) {size : ExpandedSize}
    (hsize : regions.totalSize = .ok size) {issued : Nat}
    (hissued : ∀ label, .label label ∈ body.nodes → label.number < issued) :
    Bisimilar body.nodes (regions.copyBody size.depth issued).nodes.toList := by
  rcases copyBody_copied hc hsize issued with ⟨places, hcopied, hstart, hstop⟩
  have hnested : regions.Nested body (regions.copyBody size.depth issued).nodes.toList outer []
      default places [] := .outer ⟨_, hcopied⟩ hstop
  refine ⟨_, follows_isBisimulation hc hk hentered fun label place place' =>
    copyBody_label_unique hc hissued, fun first ht => ?_, fun first' ht' => ?_⟩
  · rcases hnested.start hc hentered ht with ⟨harrives, hfollows⟩
    rw [hstart] at harrives
    exact ⟨_, harrives, hfollows⟩
  · rw [← hstart] at ht'
    rcases hnested.exists_start hc ht' with ⟨first, ht⟩
    rcases hnested.start hc hentered ht with ⟨harrives, hfollows⟩
    cases ht'.unique harrives
    exact ⟨first, ht, hfollows⟩

end Regions

namespace Body

variable {body inlined : Body} {limits : InliningLimits} {copies : Nat}

/-- A body whose labels were handed out before, and whose subroutines are entered by calls alone, is
bisimilar to its inlined form. So the runs of both show the same. -/
theorem inline_bisimilar (hissued : ∀ label, .label label ∈ body.nodes → label.number < body.issued)
    (hentered : ∀ regions, body.regions = .ok regions → regions.EnteredByCalls body.nodes)
    (h : body.inline limits = .ok (copies, inlined)) :
    Bisimilar body.nodes inlined.nodes ∧
      ∀ steps last, IsTrace body.nodes steps last ↔ IsTrace inlined.nodes steps last := by
  have hbisimilar : Bisimilar body.nodes inlined.nodes := by
    rcases inline_ok h with ⟨_, rfl⟩ | ⟨regions, size, hregions, hsize, hnodes⟩
    · exact .refl inlined.nodes
    · rcases regions_ok hregions with ⟨hc, hk⟩
      rw [hnodes]
      exact Regions.copyBody_bisimilar hc hk (hentered regions hregions) hsize hissued
  exact ⟨hbisimilar, hbisimilar.isTrace_iff⟩

/-! ### A subroutine that is called twice -/

/-- Calls a subroutine, calls it again, and returns. -/
def calledTwice : Body where
  maxStack := 1
  maxLocals := 2
  nodes :=
    [.operation (.branch (.jsr ⟨0⟩)), .operation (.branch (.jsr ⟨0⟩)),
      .operation (.branch .returnVoid), .label ⟨0⟩, .operation (.step (.store .reference 1)),
      .operation (.branch (.ret 1))]
  handlers := []
  localVariables := []
  variableTypes := []
  attributes := []
  issued := 1

/-- The regions of `calledTwice`. -/
def calledTwiceRegions : Regions where
  flow :=
    { nodes := calledTwice.nodes.toArray
      positions := (∅ : Std.HashMap Label Nat).insert ⟨0⟩ 3
      next := #[some 0, some 1, some 2, some 4, some 4, some 5, none]
      numbers := #[0, 1, 2, 3, 3, 4, 5] }
  regions :=
    #[{ entry := none, start := 0, stop := 6 }, { entry := some ⟨0⟩, start := 3, stop := 6 }]
  owners := #[0, 0, 0, 1, 1, 1]

theorem calledTwice_regions : calledTwice.regions = .ok calledTwiceRegions := by
  have hpositions : calledTwice.labelPositions = .ok calledTwiceRegions.flow.positions := by
    simp [calledTwice, calledTwiceRegions, labelPositions, placeLabels, Node.label?]
  have hflow : calledTwice.flow = .ok calledTwiceRegions.flow := by
    unfold flow
    rw [hpositions]
    rfl
  refine regions_of_scan hflow ?_ ?_ rfl rfl rfl rfl
  · intro label hmem
    have hlabel : label = ⟨0⟩ := by simpa [calledTwice, calledLabels] using hmem
    rw [hlabel]
    exact ⟨3, ((flow_describes hflow).position_ok _ _).2 rfl⟩
  · have hcalled : calledTwice.calledLabels = [⟨0⟩, ⟨0⟩] := rfl
    rw [hcalled]
    simp [calledTwice, calledTwiceRegions, RegionScan.add, RegionScan.pass, RegionScan.enter,
      RegionScan.leave, RegionScan.current, Regions.outer, Array.modify, Array.modifyM]

theorem calledTwice_inline :
    ∃ copies inlined, calledTwice.inline ⟨1, 7⟩ = .ok (copies, inlined) := by
  have hcallee : calledTwiceRegions.callee ⟨0⟩ = 1 := by
    simp [Regions.callee, calledTwiceRegions, Regions.owner]
  have houter : calledTwiceRegions.callees 0 = [1, 1] := by
    have hcontents : calledTwiceRegions.contents 0 =
        [.operation (.branch (.jsr ⟨0⟩)), .operation (.branch (.jsr ⟨0⟩)),
          .operation (.branch .returnVoid), .label ⟨0⟩] := rfl
    simp [Regions.callees, hcontents, hcallee]
  have hsize : calledTwiceRegions.totalSize = .ok ⟨1, 7⟩ :=
    @Regions.totalSize_of_one_callee calledTwiceRegions 1 1 (by decide) (by decide) houter rfl
  exact exists_inline rfl calledTwice_regions hsize (Nat.le_refl 1) (Nat.le_refl 7)

theorem calledTwice_enteredByCalls : calledTwiceRegions.EnteredByCalls calledTwice.nodes := by
  rcases regions_ok calledTwice_regions with ⟨hc, hk⟩
  refine (hc.enteredByCalls_iff hk).2 ?_
  intro place target hplace ht
  -- all places that count are operations
  have hself : Arrives calledTwice.nodes place place := by
    cases hplace with
    | start => exact .self rfl
    | @returned position label hcall =>
      rcases position with _ | _ | _ | _ | _ | _ | position
      · exact .self rfl
      · exact .self rfl
      all_goals cases hcall
    | @onward position found operation label _ _ hlabel =>
      rcases found with _ | _ | _ | _ | _ | _ | found
      case succ.succ.succ.zero => exact .self rfl
      all_goals cases hlabel
  rw [ht.unique hself]
  rintro ⟨position, label, hle, hlt, _⟩
  omega

/-- The runs of `calledTwice` are those of its inlined form, in which there are two copies. -/
theorem calledTwice_bisimilar : ∃ copies inlined,
    (∀ label, .label label ∈ calledTwice.nodes → label.number < calledTwice.issued) ∧
      (∀ regions, calledTwice.regions = .ok regions →
        regions.EnteredByCalls calledTwice.nodes) ∧
      calledTwice.inline ⟨1, 7⟩ = .ok (copies, inlined) ∧
      Bisimilar calledTwice.nodes inlined.nodes ∧
      ∀ steps last, IsTrace calledTwice.nodes steps last ↔ IsTrace inlined.nodes steps last := by
  rcases calledTwice_inline with ⟨copies, inlined, hinline⟩
  have hissued : ∀ label, .label label ∈ calledTwice.nodes → label.number < calledTwice.issued := by
    simp [calledTwice]
  have hentered : ∀ regions, calledTwice.regions = .ok regions →
      regions.EnteredByCalls calledTwice.nodes := by
    intro regions hregions
    rw [calledTwice_regions] at hregions
    cases hregions
    exact calledTwice_enteredByCalls
  exact ⟨copies, inlined, hissued, hentered, hinline, inline_bisimilar hissued hentered hinline⟩

end Body

end Preverification
