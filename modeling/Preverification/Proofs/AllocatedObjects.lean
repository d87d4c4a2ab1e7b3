import Mathlib.Data.Set.Finite.Basic
import Mathlib.Logic.Equiv.Basic
import Preverification.Proofs.Coverage

/-!
# An uninitialized type stands for one object

The type of an object that is not initialized yet only names the place where the object was
allocated. Where an allocation is about to run, no earlier object from there is left, so that the
type stands for the object that has been allocated there last. To tell objects apart, one
allocation on a path is given a label of its own: all that is inferred to be an object from that
place is found to be the object with that label.

* `TypeState.Lacks.under`: what no run has is not inferred either.
* `Body.typesAcross_lacks`: only an allocation at a place makes an object from there.
* `Inference.Covers.renamed_along`, `Inference.Covers.marked_along`: along a path, the object that
  is allocated may be given a label of its own.
* `Body.analyze_separates_objects`: an uninitialized type stands for one object.
* `Body.allocatesInLoop_two_objects`: an object that is there at the start has the same type.
-/

namespace Preverification

variable {superclass : Superclasses}

/-! ## Objects in a state -/

namespace TypeState

/-- No entry is an object that was allocated at a place and is not initialized yet. -/
structure Lacks (state : TypeState) (site : Label) : Prop where
  locals : .uninitialized site ∉ state.locals
  stack : .uninitialized site ∉ state.stack.values

/-- Wherever a state has a type, another state has a certain other type. -/
structure Matches (known state : TypeState) (type other : InferredType) : Prop where
  locals : ∀ slot, localAt known.locals slot = type → localAt state.locals slot = other
  stack : ∀ index : Nat, known.stack.values[index]? = some type →
    state.stack.values[index]? = some other

/-- A constructor is called on an object that lies under some arguments. All entries that have the
type of the object get another type. -/
structure Initializes (state after : TypeState) (arguments : Nat) (object type : InferredType) :
    Prop where
  receiver : state.stack.values[arguments]? = some object
  locals : after.locals = state.locals.map fun entry => if entry = object then type else entry
  stack : after.stack.values = (state.stack.values.drop (arguments + 1)).map fun entry =>
    if entry = object then type else entry

section Matches

variable {first second third state known : TypeState} {type other other' : InferredType}
  {site mark : Label}

theorem Matches.refl (state : TypeState) (type : InferredType) : state.Matches state type type :=
  ⟨fun _ h => h, fun _ h => h⟩

/-- What is found again in a second state and then in a third one is found in the third one. -/
theorem Matches.trans (h : first.Matches second type other)
    (h' : second.Matches third other other') : first.Matches third type other' :=
  ⟨fun slot hslot => h'.locals slot (h.locals slot hslot),
    fun index hindex => h'.stack index (h.stack index hindex)⟩

/-- A type that has no types below it is found again in all states below. -/
theorem Below.matches (h : Below superclass state known) (hrigid : type.IsRigid)
    (htop : type ≠ .top) : known.Matches state type type where
  locals slot hslot := by
    have hbelow := h.locals slot
    rw [hslot] at hbelow
    exact (hbelow.below htop).eq_of_rigid hrigid
  stack index hindex := by
    have hlt : index < state.stack.values.length := by
      rw [h.stack.length_eq]
      exact (List.getElem?_eq_some_iff.1 hindex).1
    have hbelow := forall₂_getElem? h.stack (List.getElem?_eq_getElem hlt) hindex
    rw [List.getElem?_eq_getElem hlt, hbelow.eq_of_rigid hrigid]

theorem Under.matches (h : Under superclass state known) (hrigid : type.IsRigid)
    (htop : type ≠ .top) : known.Matches state type type := by
  induction h with
  | refl => exact .refl state type
  | tail _ hlast ih => exact (hlast.matches hrigid htop).trans ih

/-- A place is lacking if no slot and no value on the stack has an object from it. -/
theorem lacks_iff :
    state.Lacks site ↔ (∀ slot, localAt state.locals slot ≠ .uninitialized site) ∧
      ∀ index : Nat, state.stack.values[index]? ≠ some (.uninitialized site) := by
  constructor
  · intro h
    constructor
    · intro slot hslot
      rcases Nat.lt_or_ge slot state.locals.length with hlt | hle
      · exact h.locals (List.mem_of_getElem? (hslot ▸ localAt_of_lt hlt))
      · -- nothing is behind the last local variable
        rw [localAt_of_le hle] at hslot
        cases hslot
    · intro index hindex
      exact h.stack (List.mem_of_getElem? hindex)
  · rintro ⟨hlocals, hstack⟩
    constructor
    · intro hmem
      rcases List.getElem?_of_mem hmem with ⟨slot, hslot⟩
      refine hlocals slot ?_
      -- the slot of a local variable has its type
      rw [localAt, List.getD_eq_getElem?_getD, hslot]
      rfl
    · intro hmem
      rcases List.getElem?_of_mem hmem with ⟨index, hindex⟩
      exact hstack index hindex

/-- An object that would be found again is not there if it is not found. -/
theorem Lacks.of_matches (h : state.Lacks mark)
    (hm : known.Matches state (.uninitialized site) (.uninitialized mark)) : known.Lacks site := by
  rcases lacks_iff.1 h with ⟨hlocals, hstack⟩
  exact lacks_iff.2 ⟨fun slot hslot => hlocals slot (hm.locals slot hslot),
    fun index hindex => hstack index (hm.stack index hindex)⟩

/-- What no run has is not inferred either. -/
theorem Lacks.under (h : state.Lacks site) (hle : Under superclass state known) :
    known.Lacks site :=
  h.of_matches (hle.matches (Transfer.rigid_uninitialized site) nofun)

/-- There are more places than some types name. -/
theorem exists_fresh (types : List InferredType) :
    ∃ site : Label, .uninitialized site ∉ types := by
  have hinjective : Function.Injective fun number : Nat =>
      (.uninitialized ⟨number⟩ : InferredType) := by
    intro number number' heq
    cases heq
    rfl
  rcases (Set.infinite_range_of_injective hinjective).exists_notMem_finite types.finite_toSet with
    ⟨_, ⟨number, rfl⟩, hnot⟩
  exact ⟨⟨number⟩, hnot⟩

end Matches

end TypeState

/-! ## Places are renamed in states that are ordered -/

theorem InferredType.Below.mapSites {type other : InferredType}
    (h : InferredType.Below superclass type other) (site : Label → Label) :
    InferredType.Below superclass (type.mapSites site) (other.mapSites site) := by
  cases h with
  | refl => exact .refl _
  | null class' => exact .null class'
  | object h => exact .object h

namespace TypeState

variable {site mark : Label} {state above : TypeState}

/-- States stay ordered when places are renamed. -/
theorem Below.mapSites (h : Below superclass state above) (site : Label → Label) :
    Below superclass (state.mapSites site) (above.mapSites site) where
  locals slot := by
    rw [localAt_mapSites, localAt_mapSites]
    rcases h.locals slot with htop | hbelow
    · exact .inl (InferredType.mapSites_eq_top.2 htop)
    · exact .inr (hbelow.mapSites site)
  stack := by
    rw [values_mapSites, values_mapSites, List.forall₂_map_left_iff, List.forall₂_map_right_iff]
    exact h.stack.imp fun _ _ hbelow => hbelow.mapSites site

theorem Under.mapSites (h : Under superclass state above) (site : Label → Label) :
    Under superclass (state.mapSites site) (above.mapSites site) := by
  induction h with
  | refl => exact .refl _
  | tail _ hlast ih => exact ih.trans (hlast.mapSites site).under

/-- Objects from a place are found under its new name. -/
theorem matches_mapSites (state : TypeState) (rename : Label → Label) (site : Label) :
    state.Matches (state.mapSites rename) (.uninitialized site) (.uninitialized (rename site)) where
  locals slot hslot := by
    rw [localAt_mapSites, hslot]
    rfl
  stack index hindex := by
    rw [values_mapSites, List.getElem?_map, hindex]
    rfl

/-- Two places may be exchanged in a state that has no object from them. -/
theorem Lacks.mapSites_swap (h : state.Lacks site) (h' : state.Lacks mark) :
    state.mapSites (Equiv.swap site mark) = state := by
  -- only objects from the two places are renamed
  have hsame : ∀ type : InferredType, type ≠ .uninitialized site → type ≠ .uninitialized mark →
      type.mapSites (Equiv.swap site mark) = type := by
    intro type hne hne'
    cases type with
    | uninitialized label =>
      have hlabel : label ≠ site := fun heq => hne (heq ▸ rfl)
      have hlabel' : label ≠ mark := fun heq => hne' (heq ▸ rfl)
      simp only [InferredType.mapSites, Equiv.swap_apply_of_ne_of_ne hlabel hlabel']
    | _ => rfl
  have hmap : ∀ types : List InferredType, .uninitialized site ∉ types →
      .uninitialized mark ∉ types →
      types.map (InferredType.mapSites (Equiv.swap site mark)) = types := by
    intro types hnot hnot'
    refine (List.map_congr_left fun type hmem => hsame type ?_ ?_).trans (List.map_id types)
    · rintro rfl
      exact hnot hmem
    · rintro rfl
      exact hnot' hmem
  unfold TypeState.mapSites
  rw [hmap _ h.locals h'.locals, hmap _ h.stack h'.stack, OperandStack.ofValues_values]

/-- What a handler catches names no place. -/
theorem handlerEntry_mapSites (state : TypeState) {caught : InferredType} (hc : caught.SiteFree)
    (site : Label → Label) :
    (state.handlerEntry caught).mapSites site = (state.mapSites site).handlerEntry caught := by
  have hvalues : (OperandStack.push caught ∅).values.map (InferredType.mapSites site) =
      (OperandStack.push caught ∅).values := by
    change [caught.mapSites site] = [caught]
    rw [hc.mapSites]
  unfold TypeState.mapSites handlerEntry
  rw [hvalues]
  rfl

end TypeState

/-! ## Calls of constructors -/

namespace Transfer

variable {state after : TypeState}

/-- Values that are popped one after the other are those on top of the stack. -/
theorem forM_popCompatible_ok {types : List FieldType} {state after : TypeState}
    (h : (types.forM fun type => popCompatible type.verificationType) state = .ok () after) :
    after.locals = state.locals ∧ after.stack.values = state.stack.values.drop types.length := by
  induction types generalizing state with
  | nil =>
    cases h
    exact ⟨rfl, rfl⟩
  | cons first rest ih =>
    rcases state_bind_ok.1 h with ⟨_, between, hfirst, hrest⟩
    rcases state_bind_ok.1 hfirst with ⟨type, popped, hpop, hcheck⟩
    rcases pop_ok.1 hpop with ⟨hvalues, hlocals⟩
    -- the check of the type leaves the stack as it is
    have hbetween : popped = between := by
      split at hcheck
      · exact (state_pure_ok.1 hcheck).2
      · exact absurd hcheck state_throw_ok
    subst hbetween
    rcases ih hrest with ⟨hlocals', hvalues'⟩
    refine ⟨hlocals'.trans hlocals, ?_⟩
    rw [hvalues', hvalues]
    rfl

/-- The arguments of a call are taken from the stack. -/
theorem popArguments_ok {parameters : List FieldType}
    (h : popArguments parameters state = .ok () after) :
    after.locals = state.locals ∧ after.stack.values = state.stack.values.drop parameters.length := by
  have hpopped := @forM_popCompatible_ok parameters.reverse state after h
  rwa [List.length_reverse] at hpopped

/-- A call of a constructor initializes an object. -/
theorem invoke_constructor_ok {context : MethodContext} {index : PoolIndex} {method : Pool.MemberRef}
    (hmethod : context.constants.methodRef index = .ok method)
    (hname : method.name = UnqualifiedName.init)
    (h : invoke context .special index state = .ok () after) :
    ∃ arguments object type, state.Initializes after arguments object type := by
  -- the method and its declaration are looked up, and its arguments are popped
  rcases state_bind_ok.1 h with ⟨found, _, hconstant, h⟩
  rcases constant_ok.1 hconstant with ⟨hfound, rfl⟩
  rw [hmethod] at hfound
  cases hfound
  rcases state_bind_ok.1 h with ⟨signature, _, hsignature, h⟩
  rcases constant_ok.1 hsignature with ⟨_, rfl⟩
  rcases state_bind_ok.1 h with ⟨_, called, harguments, h⟩
  rcases popArguments_ok harguments with ⟨hlocals, hvalues⟩
  rw [if_pos ⟨rfl, hname⟩] at h
  rcases state_bind_ok.1 h with ⟨receiver, popped, hpop, h⟩
  rcases pop_ok.1 hpop with ⟨hcalled, hpopped⟩
  -- what is left of the stack lies under the arguments and the object
  have hstack : state.stack.values.drop signature.parameters.length =
      receiver :: popped.stack.values := hvalues.symm.trans hcalled
  have hreceiver : state.stack.values[signature.parameters.length]? = some receiver := by
    rw [← List.head?_drop, hstack]
    rfl
  have hrest : state.stack.values.drop (signature.parameters.length + 1) =
      popped.stack.values := by
    rw [← List.tail_drop, hstack]
    rfl
  -- whatever the object becomes, it is replaced wherever it is
  have hreplaced : ∀ type (hwidth : width type = width receiver),
      replaceAll receiver type hwidth popped = .ok () after →
        state.Initializes after signature.parameters.length receiver type := by
    rintro type hwidth ⟨⟩
    refine ⟨hreceiver, ?_, ?_⟩
    · change List.map _ popped.locals = _
      rw [hpopped, hlocals]
    · rw [hrest, OperandStack.values_replace]
  -- which of the two it becomes depends on where it comes from
  cases receiver with
  | uninitializedThis => exact ⟨_, _, _, hreplaced (.object (.object context.thisClass)) rfl h⟩
  | uninitialized label =>
    rcases state_bind_ok.1 h with ⟨owner, _, howner, h⟩
    rcases constant_ok.1 howner with ⟨_, rfl⟩
    exact ⟨_, _, _, hreplaced (.object owner) rfl h⟩
  | _ => exact absurd h state_throw_ok

end Transfer

/-! ## Objects along paths -/

/-- What is caught on the way is initialized. -/
def Way.SiteFree : Way → Prop
  | .next => True
  | .caughtBefore type | .caughtBehind type => type.SiteFree

namespace Body

variable {body : Body} {context : MethodContext} {nodes nodes' : List Node} {position : Nat}
  {state after : TypeState} {way : Way} {site mark : Label}

/-- No way of going on leads to a type of the site. -/
theorem Leads.siteFree {pool : Pool} {target : Nat} (h : body.Leads pool position way target) :
    way.SiteFree := by
  have hcatches : ∀ {handler : Handler} {type : InferredType}, handler.Catches pool type →
      type.SiteFree := by
    intro handler type hc
    unfold Handler.Catches at hc
    split at hc
    · rcases hc with ⟨class', _, rfl⟩
      exact nofun
    · subst hc
      exact nofun
  cases h with
  | next => trivial
  | caughtBefore _ _ hc => exact hcatches hc
  | caughtBehind _ _ hc => exact hcatches hc

/-- The label of an allocation is right in front of it. -/
theorem labelBefore_eq_some :
    labelBefore nodes position = some site ↔
      ∃ previous, position = previous + 1 ∧ nodes[previous]? = some (.label site) := by
  unfold labelBefore
  cases position with
  | zero => simp
  | succ previous =>
    rw [if_neg (Nat.succ_ne_zero previous), Nat.add_sub_cancel]
    constructor
    · intro h
      rcases Option.bind_eq_some_iff.1 h with ⟨node, hnode, hlabel⟩
      cases node with
      | label found =>
        cases hlabel
        exact ⟨previous, rfl, hnode⟩
      | _ => cases hlabel
    · rintro ⟨_, ⟨⟩, hnode⟩
      rw [hnode]
      rfl

/-- An operation does the same with renamed places. -/
theorem typesBehind_mapSites {site : Label → Label} (hs : Function.Injective site)
    (hnode : nodes'[position]? = nodes[position]?)
    (hlabel : labelBefore nodes' position = (labelBefore nodes position).map site)
    (h : typesBehind context nodes position state = .ok after) :
    ∃ after', typesBehind context nodes' position (state.mapSites site) = .ok after' ∧
      TypeState.Below superclass after' (after.mapSites site) := by
  rcases typesBehind_ok.1 h with ⟨operation, ho, hrun⟩ | ⟨hnone, rfl⟩
  · rcases Transfer.follows_operation hs context (labelBefore nodes position) operation
      (state.mapSites site) state () after (.refl _) hrun with ⟨⟨_, after', hrun', _, hle⟩, _⟩
    rw [← hlabel] at hrun'
    exact ⟨after', typesBehind_ok.2 (.inl ⟨operation, hnode.trans ho, hrun'⟩), hle⟩
  · exact ⟨_, typesBehind_ok.2 (.inr ⟨hnode ▸ hnone, rfl⟩), .refl _⟩

/-- Whatever control does behind an operation, it does the same with renamed places. -/
theorem typesAcross_mapSites {site : Label → Label} (hs : Function.Injective site)
    (hnode : nodes'[position]? = nodes[position]?)
    (hlabel : labelBefore nodes' position = (labelBefore nodes position).map site)
    (hway : way.SiteFree) (h : typesAcross context nodes position way state = .ok after) :
    ∃ after', typesAcross context nodes' position way (state.mapSites site) = .ok after' ∧
      TypeState.Below superclass after' (after.mapSites site) := by
  cases way with
  | next => exact typesBehind_mapSites hs hnode hlabel h
  | caughtBefore type =>
    cases h
    refine ⟨_, rfl, ?_⟩
    rw [TypeState.handlerEntry_mapSites state hway]
    exact .refl _
  | caughtBehind type =>
    rcases except_bind_ok.1 h with ⟨found, hfound, h⟩
    cases h
    rcases typesBehind_mapSites hs hnode hlabel hfound with ⟨after', hafter', hle⟩
    refine ⟨_, except_bind_ok.2 ⟨after', hafter', rfl⟩, ?_⟩
    rw [TypeState.handlerEntry_mapSites found hway]
    exact hle.handlerEntry type

/-- Where neither of two places is right in front, exchanging them changes no label. -/
theorem labelBefore_swap (h : labelBefore nodes position ≠ some site)
    (h' : labelBefore nodes position ≠ some mark) :
    labelBefore nodes position = (labelBefore nodes position).map (Equiv.swap site mark) := by
  cases hlabel : labelBefore nodes position with
  | none => rfl
  | some label =>
    have hne : label ≠ site := fun heq => h (heq ▸ hlabel)
    have hne' : label ≠ mark := fun heq => h' (heq ▸ hlabel)
    rw [Option.map_some, Equiv.swap_apply_of_ne_of_ne hne hne']

/-- Only an allocation at a place makes an object from there. -/
theorem typesAcross_lacks (hway : way.SiteFree) (hlabel : labelBefore nodes position ≠ some site)
    (hlacks : state.Lacks site) (h : typesAcross context nodes position way state = .ok after) :
    after.Lacks site := by
  -- a place that does not occur anywhere cannot be told from the given one
  rcases TypeState.exists_fresh (.uninitialized site ::
    ((labelBefore nodes position).toList.map .uninitialized ++
      (state.locals ++ state.stack.values))) with ⟨mark, hmark⟩
  simp only [List.mem_cons, List.mem_append, not_or] at hmark
  rcases hmark with ⟨hne, hlabelled, hlocals, hstack⟩
  have hlabel' : labelBefore nodes position ≠ some mark := by
    intro heq
    rw [heq] at hlabelled
    exact hlabelled (List.mem_singleton_self _)
  obtain ⟨after', hafter', hle⟩ : ∃ after',
      typesAcross context nodes position way (state.mapSites (Equiv.swap site mark)) = .ok after' ∧
        TypeState.Below (fun _ => none) after' (after.mapSites (Equiv.swap site mark)) :=
    typesAcross_mapSites (Equiv.injective _) rfl (labelBefore_swap hlabel hlabel') hway h
  rw [hlacks.mapSites_swap ⟨hlocals, hstack⟩, h] at hafter'
  cases hafter'
  -- so an object from the one would be an object from the other
  have hmatches := (after.matches_mapSites (Equiv.swap site mark) site).trans
    (hle.matches (Transfer.rigid_uninitialized _) nofun)
  rw [Equiv.swap_apply_left] at hmatches
  refine TypeState.lacks_iff.2 ⟨fun slot hslot => hne ?_, fun index hindex => hne ?_⟩
  · exact (hmatches.locals slot hslot).symm.trans hslot
  · exact Option.some.inj ((hmatches.stack index hindex).symm.trans hindex)

/-- Where no allocation on a path is one at a place, there is no object from there at its end. -/
theorem Path.lacks {pool : Pool} {first stop : Nat} {steps : List (Nat × Way)}
    {entry : TypeState} (hpath : body.Path pool first steps stop) (hentry : entry.Lacks site)
    (hsteps : ∀ step ∈ steps, labelBefore body.nodes step.1 ≠ some site)
    (h : typesAlong context body.nodes steps entry = .ok state) : state.Lacks site := by
  induction hpath generalizing state with
  | here =>
    cases h
    exact hentry
  | step _ hleads ih =>
    rcases typesAlong_append.1 h with ⟨between, hbetween, hlast⟩
    have hlacks := ih (fun step hmem => hsteps step (List.mem_append_left _ hmem)) hbetween
    exact typesAcross_lacks hleads.siteFree
      (hsteps _ (List.mem_append_right _ (List.mem_singleton_self _))) hlacks hlast

/-- Some path to an operation does not pass it before. -/
theorem Path.exists_first {pool : Pool} {first stop : Nat} {steps : List (Nat × Way)}
    (hpath : body.Path pool first steps stop) :
    ∃ steps', body.Path pool first steps' stop ∧ ∀ step ∈ steps', step.1 ≠ stop := by
  -- a path passes the operation, or it may be taken as it is
  have hpasses : ∀ position, (∀ step ∈ steps, step.1 ≠ position) ∨
      ∃ steps', body.Path pool first steps' position ∧ ∀ step ∈ steps', step.1 ≠ position := by
    induction hpath with
    | here => exact fun _ => .inl nofun
    | @step middle stop steps way hbefore _ ih =>
      intro position
      rcases ih position with hnot | hfound
      · by_cases hmiddle : middle = position
        · subst hmiddle
          exact .inr ⟨steps, hbefore, hnot⟩
        · refine .inl fun step hmem => ?_
          rcases List.mem_append.1 hmem with hmem | hmem
          · exact hnot step hmem
          · cases List.mem_singleton.1 hmem
            exact hmiddle
      · exact .inr hfound
  rcases hpasses stop with hnot | hfound
  · exact ⟨steps, hpath, hnot⟩
  · exact hfound

/-- The nodes when another label stands right in front of a position. -/
def labelledBefore (nodes : List Node) (position : Nat) (mark : Label) : List Node :=
  nodes.set (position - 1) (.label mark)

/-- What is known at the end of some steps from an operation on, when an object that is allocated
there is given a label of its own. -/
def typesMarked (context : MethodContext) (nodes : List Node) (position : Nat) (mark : Label)
    (way : Way) (rest : List (Nat × Way)) (state : TypeState) : Except TypeError TypeState := do
  typesAlong context nodes rest
    (← typesAcross context (labelledBefore nodes position mark) position way state)

/-- Only that label is another one. -/
theorem labelledBefore_spec (h : labelBefore nodes position = some site) (mark : Label) :
    (labelledBefore nodes position mark)[position]? = nodes[position]? ∧
      labelBefore (labelledBefore nodes position mark) position = some mark := by
  rcases labelBefore_eq_some.1 h with ⟨previous, rfl, hnode⟩
  have hlt := (List.getElem?_eq_some_iff.1 hnode).1
  unfold labelledBefore
  rw [Nat.add_sub_cancel]
  constructor
  · exact List.getElem?_set_ne (Nat.ne_of_lt (Nat.lt_succ_self previous))
  · exact labelBefore_eq_some.2 ⟨previous, rfl, List.getElem?_set_self hlt⟩

end Body

namespace Inference.Covers

open Body

variable {body : Body} {context : MethodContext} {first : Nat} {entry : TypeState}
  {inference : Inference} {position : Nat} {state before : TypeState} {site mark : Label}

/-- Places may be renamed on a path, if no allocation on it is one at a place that is renamed. -/
theorem renamed_along (hc : Covers superclass body context first entry inference)
    (hdone : inference.pending = []) {rename : Label → Label} (hs : Function.Injective rename)
    {start stop : Nat} {steps : List (Nat × Way)}
    (hpath : body.Path context.constants start steps stop)
    (hsteps : ∀ step ∈ steps,
      labelBefore body.nodes step.1 = (labelBefore body.nodes step.1).map rename)
    {known : TypeState} (hknown : inference.analysis.state? start = some known)
    (hle : TypeState.Under superclass state (known.mapSites rename)) :
    ∃ after known', typesAlong context body.nodes steps state = .ok after ∧
      inference.analysis.state? stop = some known' ∧
      TypeState.Under superclass after (known'.mapSites rename) := by
  induction hpath with
  | here => exact ⟨state, known, rfl, hknown, hle⟩
  | @step middle stop steps way _ hleads ih =>
    rcases ih (fun step hmem => hsteps step (List.mem_append_left _ hmem)) with
      ⟨between, known', hbetween, hknown', hle'⟩
    have hlabel := hsteps (middle, way) (List.mem_append_right _ (List.mem_singleton_self _))
    -- the last step starts where nothing is pending
    have hsettled := hc.settled middle known' hknown' (by simp [hdone])
    rcases hsettled.arrives way stop hleads with ⟨found, hfound, later, hlater, hunder⟩
    rcases typesAcross_mapSites hs rfl hlabel hleads.siteFree hfound with
      ⟨found', hfound', hbelow⟩
    rcases typesAcross_under hle' hfound' with ⟨after, hafter, hle''⟩
    exact ⟨after, later, typesAlong_append.2 ⟨between, hbetween, hafter⟩, hlater,
      hle''.trans (hbelow.under.trans (hunder.mapSites rename))⟩

/-- The object that is allocated may be given a label of its own. Up to the next allocation at the
place, it is found wherever an object from there is inferred. -/
theorem marked_along (hc : Covers superclass body context first entry inference)
    (hdone : inference.pending = [])
    (hunique : ∀ other, labelBefore body.nodes other = some site → other = position)
    (hsite : labelBefore body.nodes position = some site)
    (hmark : ∀ other, labelBefore body.nodes other ≠ some mark)
    (hbefore : inference.analysis.state? position = some before)
    (hlacks : before.Lacks site) (hlacks' : before.Lacks mark)
    (hle : TypeState.Under superclass state before) {way : Way} {next stop : Nat}
    (hleads : body.Leads context.constants position way next) {rest : List (Nat × Way)}
    (hpath : body.Path context.constants next rest stop)
    (hrest : ∀ step ∈ rest, step.1 ≠ position) :
    ∃ marked known, typesMarked context body.nodes position mark way rest state = .ok marked ∧
      inference.analysis.state? stop = some known ∧
      known.Matches marked (.uninitialized site) (.uninitialized mark) := by
  have hs := (Equiv.swap site mark).injective
  have hsettled := hc.settled position before hbefore (by simp [hdone])
  rcases hsettled.arrives way next hleads with ⟨after, hafter, known, hknown, hunder⟩
  -- before the allocation, the two places cannot be told apart
  rcases labelledBefore_spec hsite mark with ⟨hnode, hlabel⟩
  have hlabel' : labelBefore (labelledBefore body.nodes position mark) position =
      (labelBefore body.nodes position).map (Equiv.swap site mark) := by
    rw [hlabel, hsite, Option.map_some, Equiv.swap_apply_left]
  rcases typesAcross_mapSites hs hnode hlabel' hleads.siteFree hafter with
    ⟨after', hafter', hbelow⟩
  rw [hlacks.mapSites_swap hlacks'] at hafter'
  rcases typesAcross_under hle hafter' with ⟨started, hstarted, hle'⟩
  -- behind it, the rest of the path is the same with the two places exchanged
  have hsteps : ∀ step ∈ rest, labelBefore body.nodes step.1 =
      (labelBefore body.nodes step.1).map (Equiv.swap site mark) := fun step hmem =>
    labelBefore_swap (fun heq => hrest step hmem (hunique step.1 heq)) (hmark step.1)
  rcases hc.renamed_along hdone hs hpath hsteps hknown
    (hle'.trans (hbelow.under.trans (hunder.mapSites _))) with
    ⟨marked, known', hmarked, hknown', hle''⟩
  refine ⟨marked, known', except_bind_ok.2 ⟨started, hstarted, hmarked⟩, hknown', ?_⟩
  have hmatches := (known'.matches_mapSites (Equiv.swap site mark) site).trans
    (hle''.matches (Transfer.rigid_uninitialized _) nofun)
  rw [Equiv.swap_apply_left] at hmatches
  exact hmatches

end Inference.Covers

namespace Body

variable {body : Body} {context : MethodContext} {entry : TypeState}
  {resolver resolver' : Resolver} {analysis : Analysis}

/-- An uninitialized type stands for one object, unless the entry state has an object with it
already. Where an allocation is about to run, no object from its place is left, so that the new one
on top of the stack is the only one. It can be given a label of its own: on every path from there,
up to the next allocation at the place, it is found wherever an object from the place is inferred.
A constructor retypes the entries that have the type of the object on which it is called, so it only
retypes copies of that object. -/
theorem analyze_separates_objects {position : Nat} {type : PoolIndex} {site : Label}
    {before : TypeState} (h : body.analyze entry context resolver = .ok analysis resolver')
    (hnew : body.nodes[position]? = some (.operation (.step (.new type))))
    (hsite : labelBefore body.nodes position = some site)
    (hbefore : analysis.state? position = some before) (hentry : entry.Lacks site) :
    before.Lacks site ∧
      typesBehind context body.nodes position before =
        .ok ⟨before.locals, before.stack.push (.uninitialized site)⟩ ∧
      (∃ first, Arrives body.nodes 0 first ∧
        ∀ (front : List (Nat × Way)) (mark : Label),
          body.Path context.constants first front position →
          entry.Lacks mark → .label mark ∉ body.nodes →
          ∃ state, typesAlong context body.nodes front entry = .ok state ∧
            ∀ (way : Way) (next : Nat) (rest : List (Nat × Way)) (stop : Nat),
              body.Leads context.constants position way next →
              body.Path context.constants next rest stop →
              (∀ step ∈ rest, step.1 ≠ position) →
              ∃ marked known,
                typesMarked context body.nodes position mark way rest state = .ok marked ∧
                analysis.state? stop = some known ∧
                known.Matches marked (.uninitialized site) (.uninitialized mark)) ∧
      ∀ (stop : Nat) (known after : TypeState) (index : PoolIndex) (method : Pool.MemberRef),
        analysis.state? stop = some known →
        body.nodes[stop]? = some (.operation (.step (.invoke .special index))) →
        context.constants.methodRef index = .ok method → method.name = UnqualifiedName.init →
        typesBehind context body.nodes stop known = .ok after →
        ∃ arguments object type, known.Initializes after arguments object type := by
  rcases analyze_ok h with ⟨problem, first, inference, hposes, harrives, rfl, hdone, hc⟩
  -- the label is placed once, so there is one allocation behind it
  have hunique : ∀ other, labelBefore body.nodes other = some site → other = position := by
    intro other hother
    rcases labelBefore_eq_some.1 hother with ⟨previous, rfl, hnode⟩
    rcases labelBefore_eq_some.1 hsite with ⟨previous', rfl, hnode'⟩
    rw [hposes.flow.label_unique hnode hnode']
  -- the first time that a path gets there, there is no object from there yet
  have hlacks : before.Lacks site := by
    rcases hc.reached position before hbefore with ⟨_, hpath⟩
    rcases hpath.exists_first with ⟨steps, hfirst, hsteps⟩
    rcases hc.along hdone hfirst with ⟨state, hstate, known, hknown, hle⟩
    cases hknown.symm.trans hbefore
    have hstate' := hfirst.lacks hentry
      (fun step hmem heq => hsteps step hmem (hunique step.1 heq)) hstate
    exact hstate'.under hle
  refine ⟨hlacks, ?_, ⟨first, harrives, ?_⟩, ?_⟩
  · simp only [typesBehind, hnew, hsite]
    rfl
  · -- a label that is placed nowhere is in front of no allocation
    intro front mark hfront hentry' hnot
    have hmark : ∀ other, labelBefore body.nodes other ≠ some mark := by
      intro other hother
      rcases labelBefore_eq_some.1 hother with ⟨_, _, hnode⟩
      exact hnot (List.mem_of_getElem? hnode)
    rcases hc.along hdone hfront with ⟨state, hstate, known, hknown, hle⟩
    cases hknown.symm.trans hbefore
    have hlacks' : before.Lacks mark :=
      (hfront.lacks hentry' (fun step _ => hmark step.1) hstate).under hle
    refine ⟨state, hstate, ?_⟩
    intro way next rest stop hleads hrest havoids
    -- from here on, the new object is known by the fresh label
    exact hc.marked_along hdone hunique hsite hmark hbefore hlacks hlacks' hle hleads hrest havoids
  · intro stop known after index method _ hcall hmethod hname hrun
    rcases typesBehind_ok.1 hrun with ⟨operation, ho, hinvoke⟩ | ⟨hnone, -⟩
    · cases hcall.symm.trans ho
      exact Transfer.invoke_constructor_ok hmethod hname hinvoke
    · exact absurd hcall (hnone _)

/-! ### A loop that allocates -/

/-- Allocates an object and puts it into a local, again and again. -/
def allocatesInLoop : Body where
  maxStack := 1
  maxLocals := 1
  nodes :=
    [.label ⟨0⟩, .operation (.step (.new 1)), .operation (.step (.store .reference 0)),
      .operation (.branch (.goto ⟨0⟩))]
  handlers := []
  localVariables := []
  variableTypes := []
  attributes := []
  issued := 1

/-- The method of which `allocatesInLoop` is the body. -/
def allocatesInLoopContext : MethodContext := ⟨∅, .object, none⟩

/-- The control flow of `allocatesInLoop`. -/
def allocatesInLoopFlow : Flow where
  nodes := allocatesInLoop.nodes.toArray
  positions := (∅ : Std.HashMap Label Nat).insert ⟨0⟩ 0
  next := #[some 1, some 1, some 2, some 3, none]
  numbers := #[0, 0, 1, 2, 3]

/-- The problem that `allocatesInLoop` poses. -/
def allocatesInLoopProblem : AnalysisProblem := ⟨allocatesInLoopFlow, [], allocatesInLoopContext⟩

/-- What type inference finds out about `allocatesInLoop`, if something is known about the first
local at the start. -/
def allocatesInLoopAnalysis (first : InferredType) : Analysis where
  states :=
    #[none, some ⟨[first], ∅⟩, some ⟨[first], .ofValues [.uninitialized ⟨0⟩]⟩,
      some ⟨[.uninitialized ⟨0⟩], ∅⟩]
  maxStack := 1
  maxLocals := 1

theorem allocatesInLoop_flow : allocatesInLoop.flow = .ok allocatesInLoopFlow := by
  have hpositions : allocatesInLoop.labelPositions = .ok allocatesInLoopFlow.positions := by
    simp [allocatesInLoop, allocatesInLoopFlow, labelPositions, placeLabels, Node.label?]
  unfold flow
  rw [hpositions]
  rfl

theorem allocatesInLoop_problem :
    AnalysisProblem.ofBody allocatesInLoop allocatesInLoopContext = .ok allocatesInLoopProblem := by
  unfold AnalysisProblem.ofBody
  rw [allocatesInLoop_flow]
  rfl

/-- What is known about the local does not change, since it is unusable or an object from there. -/
theorem allocatesInLoop_solve {first : InferredType}
    (hfirst : first = .top ∨ first = .uninitialized ⟨0⟩) (resolver : Resolver) (visits : Nat) :
    allocatesInLoopProblem.solve (visits + 3)
      (.start 4 1 ⟨[first], ∅⟩ resolver) =
        .ok () ⟨allocatesInLoopAnalysis first, [], resolver⟩ := by
  have hstart : allocatesInLoopFlow.position ⟨0⟩ = .ok 0 :=
    ((flow_describes allocatesInLoop_flow).position_ok _ _).2 rfl
  -- the jump leads back to the allocation
  have hsuccessors : allocatesInLoopProblem.successors 3 (.branch (.goto ⟨0⟩)) = .ok [1] := by
    simp only [AnalysisProblem.successors, Operation.targets, Branch.targets, List.mapM_cons,
      List.mapM_nil, AnalysisProblem.jumpTarget, allocatesInLoopProblem, Flow.operationAt, hstart]
    rfl
  -- the local counts from the start if it can be used there
  have hnew : allocatesInLoopProblem.visit 1
      ⟨⟨#[none, some ⟨[first], ∅⟩, none, none], 0, 0⟩, [], resolver⟩ = .ok ()
      ⟨⟨#[none, some ⟨[first], ∅⟩, some ⟨[first], .ofValues [.uninitialized ⟨0⟩]⟩, none], 1,
        if first = .top then 0 else 1⟩, [2], resolver⟩ := by
    refine AnalysisProblem.visit_of_merges (.step (.new 1)) ⟨[first], ∅⟩
      ⟨[first], .ofValues [.uninitialized ⟨0⟩]⟩ [2] rfl rfl rfl rfl ?_
    rcases hfirst with rfl | rfl
    · rfl
    · rfl
  -- the object goes to the local
  have hstore : allocatesInLoopProblem.visit 2
      ⟨⟨#[none, some ⟨[first], ∅⟩, some ⟨[first], .ofValues [.uninitialized ⟨0⟩]⟩, none], 1,
        if first = .top then 0 else 1⟩, [], resolver⟩ =
          .ok () ⟨allocatesInLoopAnalysis first, [3], resolver⟩ := by
    refine AnalysisProblem.visit_of_merges (.step (.store .reference 0))
      ⟨[first], .ofValues [.uninitialized ⟨0⟩]⟩ ⟨[.uninitialized ⟨0⟩], ∅⟩ [3] rfl rfl rfl rfl ?_
    rcases hfirst with rfl | rfl
    · rfl
    · rfl
  -- control comes back with what is known already, so that nothing is pending
  have hgoto : allocatesInLoopProblem.visit 3 ⟨allocatesInLoopAnalysis first, [], resolver⟩ =
      .ok () ⟨allocatesInLoopAnalysis first, [], resolver⟩ := by
    refine AnalysisProblem.visit_of_merges (.branch (.goto ⟨0⟩)) ⟨[.uninitialized ⟨0⟩], ∅⟩
      ⟨[.uninitialized ⟨0⟩], ∅⟩ [1] rfl rfl rfl hsuccessors ?_
    rcases hfirst with rfl | rfl
    · rfl
    · rfl
  exact AnalysisProblem.solve_of_visit _ rfl hnew (AnalysisProblem.solve_of_visit _ rfl hstore
    (AnalysisProblem.solve_of_visit _ rfl hgoto (AnalysisProblem.solve_done rfl visits)))

theorem allocatesInLoop_analyze {first : InferredType}
    (hfirst : first = .top ∨ first = .uninitialized ⟨0⟩) (resolver : Resolver) :
    allocatesInLoop.analyze ⟨[first], ∅⟩ allocatesInLoopContext resolver =
      .ok (allocatesInLoopAnalysis first) resolver := by
  refine analyze_of_solve ⟨allocatesInLoopAnalysis first, [], resolver⟩ allocatesInLoop_problem rfl
    fun visits hle => ?_
  obtain ⟨more, rfl⟩ : ∃ more, visits = more + 3 :=
    Nat.exists_eq_add_of_le' (Nat.le_trans (show 3 ≤ allocatesInLoop.nodes.length by decide) hle)
  exact allocatesInLoop_solve hfirst resolver more

/-- In the second round, the object that is allocated is the one in the local. -/
theorem allocatesInLoop_separates_objects : ∃ state,
    typesAlong allocatesInLoopContext allocatesInLoop.nodes
        [(1, .next), (2, .next), (3, .next)] ⟨[.top], ∅⟩ = .ok state ∧
      ∃ marked known, typesMarked allocatesInLoopContext allocatesInLoop.nodes 1 ⟨1⟩ .next
          [(2, .next)] state = .ok marked ∧
        (allocatesInLoopAnalysis .top).state? 3 = some known ∧
        known.Matches marked (.uninitialized ⟨0⟩) (.uninitialized ⟨1⟩) := by
  have hlacks : ∀ site, (⟨[.top], ∅⟩ : TypeState).Lacks site := by
    intro site
    constructor
    · intro hmem
      cases List.mem_singleton.1 hmem
    · exact List.not_mem_nil
  have hstart : Arrives allocatesInLoop.nodes 0 1 := (arrives_succ rfl rfl).2 (.self rfl)
  have hnew : allocatesInLoop.Leads ∅ 1 .next 2 := .next (.fallThrough rfl rfl (.self rfl))
  have hstore : allocatesInLoop.Leads ∅ 2 .next 3 := .next (.fallThrough rfl rfl (.self rfl))
  have hgoto : allocatesInLoop.Leads ∅ 3 .next 1 :=
    .next (.jump rfl (List.mem_singleton_self _) rfl hstart)
  have hnode : allocatesInLoop.nodes[1]? = some (.operation (.step (.new 1))) := rfl
  rcases analyze_separates_objects (allocatesInLoop_analyze (.inl rfl) (.ofClassPath ∅)) hnode rfl
    rfl (hlacks ⟨0⟩) with ⟨_, _, ⟨first, hfirst, halong⟩, _⟩
  cases hfirst.unique hstart
  -- a round leads back to the allocation, and from there the next one gets to the jump
  rcases halong [(1, .next), (2, .next), (3, .next)] ⟨1⟩
    (.step (.step (.step (.here 1) hnew) hstore) hgoto) (hlacks ⟨1⟩) (by decide) with
    ⟨state, hstate, hmarked⟩
  exact ⟨state, hstate, hmarked .next 2 [(2, .next)] 3 hnew (.step (.here 2) hstore) (by simp)⟩

/-- An object that is there at the start has the same type as the object that is allocated. -/
theorem allocatesInLoop_two_objects :
    allocatesInLoop.analyze ⟨[.uninitialized ⟨0⟩], ∅⟩ allocatesInLoopContext (.ofClassPath ∅) =
        .ok (allocatesInLoopAnalysis (.uninitialized ⟨0⟩)) (.ofClassPath ∅) ∧
      allocatesInLoop.nodes[1]? = some (.operation (.step (.new 1))) ∧
      labelBefore allocatesInLoop.nodes 1 = some ⟨0⟩ ∧
      (allocatesInLoopAnalysis (.uninitialized ⟨0⟩)).state? 1 =
        some ⟨[.uninitialized ⟨0⟩], ∅⟩ ∧
      typesBehind allocatesInLoopContext allocatesInLoop.nodes 1 ⟨[.uninitialized ⟨0⟩], ∅⟩ =
        .ok ⟨[.uninitialized ⟨0⟩], .ofValues [.uninitialized ⟨0⟩]⟩ :=
  ⟨allocatesInLoop_analyze (.inr rfl) _, rfl, rfl, rfl, rfl⟩

end Body

end Preverification
