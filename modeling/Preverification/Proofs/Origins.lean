import Preverification.Proofs.Nesting

/-!
# Where copied nodes come from

Each node of an inlined body was copied from a node of the original, for a call that was perhaps
copied for another call. The trail of an inlined body has these positions for each of its nodes:
that of the original of the node, and those of the calls, the innermost one first. What is added
while a region is copied is described by its trail: the operations are those at the positions of the
trail, and the handlers around a node are those of the regions from which its trail comes.

* `Regions.trail`: for each node of an inlined body the position of its original, and of the calls
  for which it was copied.
* `Regions.ComesFrom` and `Regions.CopiedHandler`: what it means for nodes and handlers to be
  copies.
* `Regions.Adds.trans`: what is added in two parts is described by its trail.
* `Regions.copyAt_adds`: the step lemma, by which what is copied from a position is traced to it.
-/

namespace Preverification

namespace Handler

/-- Whether a position is in the range of a handler. -/
def protects (handler : Handler) (nodes : List Node) (position : Nat) : Bool :=
  match nodes.idxOf? (.label handler.start), nodes.idxOf? (.label handler.stop) with
  | some start, some stop => decide (start ≤ position) && decide (position < stop)
  | _, _ => false

/-- A handler has its range between two places. -/
def Within (nodes : List Node) (low high : Nat) (handler : Handler) : Prop :=
  ∃ start stop : Nat, nodes[start]? = some (.label handler.start) ∧
    nodes[stop]? = some (.label handler.stop) ∧ low ≤ start ∧ stop < high

end Handler

/-- Labels are placed once. -/
structure UniqueLabels (nodes : List Node) : Prop where
  eq : ∀ {label : Label} {place place' : Nat}, nodes[place]? = some (Node.label label) →
    nodes[place']? = some (Node.label label) → place = place'

section Unique

variable {nodes : List Node} {handler : Handler} {start stop position low high : Nat}

/-- A label is found where it is placed. -/
theorem UniqueLabels.idxOf? (hu : UniqueLabels nodes) {label : Label} {place : Nat}
    (h : nodes[place]? = some (.label label)) : nodes.idxOf? (.label label) = some place := by
  obtain ⟨hlt, heq⟩ := List.getElem?_eq_some_iff.1 h
  refine List.idxOf?_eq_some_iff.2 ⟨hlt, heq, fun place' hless heq' => ?_⟩
  have hsame := hu.eq h (List.getElem?_eq_some_iff.2 ⟨Nat.lt_trans hless hlt, heq'⟩)
  omega

/-- A handler protects what is between its labels. -/
theorem UniqueLabels.protects_iff (hu : UniqueLabels nodes)
    (hstart : nodes[start]? = some (.label handler.start))
    (hstop : nodes[stop]? = some (.label handler.stop)) :
    handler.protects nodes position = true ↔ start ≤ position ∧ position < stop := by
  unfold Handler.protects
  rw [hu.idxOf? hstart, hu.idxOf? hstop]
  simp

/-- A handler protects nothing outside of where it lies. -/
theorem UniqueLabels.protects_iff_of_within (hu : UniqueLabels nodes)
    (h : handler.Within nodes low high) (hprotects : handler.protects nodes position = true) :
    low ≤ position ∧ position < high := by
  obtain ⟨start, stop, hstart, hstop, hlow, hhigh⟩ := h
  have hrange := (hu.protects_iff hstart hstop).1 hprotects
  omega

end Unique

namespace Regions

/-! ### Trails -/

/-- The trail of what is copied from a position of a region. -/
def trailAt (regions : Regions) (inside : List Nat → Nat → List (List Nat)) (calls : List Nat)
    (number position : Nat) : List (List Nat) :=
  match regions.content? number position with
  | none => []
  | some (.operation (.branch (.jsr target))) =>
    (position :: calls) :: (inside (position :: calls) (regions.callee target) ++ [[]])
  | some _ => [position :: calls]

/-- Whether a range of a region ends behind it, so that there is a label behind each copy. -/
def endsBehind (regions : Regions) (number : Nat) : Bool :=
  number ≠ outer && !(regions.stops number).all (regions.labels number).contains

/-- The trail of a copy of a region that was made for some calls. -/
def trailOf (regions : Regions) (inside : List Nat → Nat → List (List Nat)) (calls : List Nat)
    (number : Nat) : List (List Nat) :=
  (regions.span number).flatMap (regions.trailAt inside calls number) ++
    if regions.endsBehind number then [[]] else []

/-- The trail of a copy in which chains of calls are not longer than a depth. Nodes that were made
and not copied have empty trails. -/
def trail (regions : Regions) : (depth : Nat) → (calls : List Nat) → (number : Nat) →
    List (List Nat)
  | 0 => regions.trailOf fun _ _ => []
  | depth + 1 => regions.trailOf (regions.trail depth)

/-- The trails of copies inside of a copy up to a depth. -/
def trailInside (regions : Regions) : (depth : Nat) → List Nat → Nat → List (List Nat)
  | 0 => fun _ _ => []
  | depth + 1 => regions.trail depth

/-- At every depth a copy has the trail of a region around the trails of the copies inside. -/
theorem trail_eq (regions : Regions) (depth : Nat) :
    regions.trail depth = regions.trailOf (regions.trailInside depth) := by
  cases depth <;> rfl

/-! ### Handlers around a trail -/

/-- The handlers of the region of a position that protect it. -/
def ownHandlers (regions : Regions) (body : Body) (position : Nat) : List Handler :=
  (regions.region (regions.owner position)).handlers.toList.filter
    (·.protects body.nodes position)

/-- The handlers that protect a copy: those of the region of each position of its trail, with the
calls for which they were copied. The trail goes on with some calls whose handlers are left out. -/
def guarding (regions : Regions) (body : Body) : (trail calls : List Nat) →
    List (Handler × List Nat)
  | [], _ => []
  | position :: inner, calls =>
    (regions.ownHandlers body position).map (·, inner ++ calls) ++
      regions.guarding body inner calls

/-- The outermost position of a trail comes last, and has no calls of its own. -/
theorem guarding_append (regions : Regions) (body : Body) (inner : List Nat) (position : Nat)
    (calls : List Nat) : regions.guarding body (inner ++ [position]) calls =
      regions.guarding body inner (position :: calls) ++
        (regions.ownHandlers body position).map (·, calls) := by
  induction inner with
  | nil => exact List.append_nil _
  | cons first inner ih =>
    rw [List.cons_append, guarding, guarding, ih]
    simp

variable {regions : Regions} {body : Body} {nodes : List Node} {trail : List (List Nat)}

/-- A node comes from a position: it is a copy of what is there, made for certain calls. One that
comes from nowhere is no operation. -/
inductive ComesFrom (body : Body) (node : Node) : List Nat → Prop where
  | made : node.isOperation = false → ComesFrom body node []
  | passed {position : Nat} {calls : List Nat} {original : Node} :
    body.nodes[position]? = some original → original.isOperation = false →
      node.isOperation = false → ComesFrom body node (position :: calls)
  | copied {position : Nat} {calls : List Nat} {original : Operation Label}
    (names : Label → Label) (continuation : Label) :
    body.nodes[position]? = some (.operation original) →
      node = .operation (original.copied names continuation) →
        ComesFrom body node (position :: calls)

/-- A handler of a copy stands for one of the original, made for certain calls: it catches the same,
and its code is the copy that was made for these calls. Outside of calls it is the same code. -/
structure CopiedHandler (body : Body) (nodes : List Node) (trail : List (List Nat))
    (found : Handler) (original : Handler × List Nat) : Prop where
  caught : found.caught = original.1.caught
  code : ∃ position place : Nat, body.nodes[position]? = some (.label original.1.handler) ∧
    trail[place]? = some (position :: original.2) ∧ nodes[place]? = some (.label found.handler)
  kept : original.2 = [] → found.handler = original.1.handler

/-- What is expected of the handlers at a place of what was copied for some calls. -/
def Expects (regions : Regions) (body : Body) (trail : List (List Nat)) (calls : List Nat)
    (place : Nat) (entries : List (Handler × List Nat)) : Prop :=
  ∃ inner, trail[place]? = some (inner ++ calls) ∧
    (∃ position later operation, inner ++ calls = position :: later ∧
      body.nodes[position]? = some (.operation operation)) ∧
    entries = regions.guarding body inner calls

/-- What is added has a certain length, its nodes come from their trails, and the handlers that are
added are as expected. -/
structure Adds (body : Body) (nodes : List Node) (trail : List (List Nat))
    (expects : Nat → List (Handler × List Nat) → Prop) (old new : Inlining) (count : Nat) : Prop where
  size : new.nodes.size = old.nodes.size + count
  comes : ∀ {place : Nat}, old.nodes.size ≤ place → place < new.nodes.size →
    ∃ node found, nodes[place]? = some node ∧ trail[place]? = some found ∧ ComesFrom body node found
  handlers : ∃ added : List Handler, new.handlers.toList = old.handlers.toList ++ added ∧
    (∀ handler ∈ added, handler.Within nodes old.nodes.size new.nodes.size) ∧
    ∀ {place : Nat} {entries : List (Handler × List Nat)}, old.nodes.size ≤ place →
      place < new.nodes.size → expects place entries →
        List.Forall₂ (CopiedHandler body nodes trail) (added.filter (·.protects nodes place)) entries

namespace Adds

variable {expects expects' : Nat → List (Handler × List Nat) → Prop} {old middle new : Inlining}
  {count count' : Nat}

theorem refl (inlining : Inlining) : Adds body nodes trail expects inlining inlining 0 where
  size := rfl
  comes := fun hle hlt => absurd hlt (Nat.not_lt.2 hle)
  handlers := ⟨[], (List.append_nil _).symm, nofun, fun hle hlt => absurd hlt (Nat.not_lt.2 hle)⟩

/-- Fewer handlers may be expected. -/
theorem mono (h : Adds body nodes trail expects old new count)
    (hexpects : ∀ {place entries}, old.nodes.size ≤ place → place < new.nodes.size →
      expects' place entries → expects place entries) :
    Adds body nodes trail expects' old new count := by
  obtain ⟨added, heq, hwithin, hall⟩ := h.handlers
  exact ⟨h.size, h.comes, added, heq, hwithin,
    fun hle hlt hplace => hall hle hlt (hexpects hle hlt hplace)⟩

/-- What is added in two parts, one behind the other, is added. -/
theorem trans (hu : UniqueLabels nodes) (h : Adds body nodes trail expects old middle count)
    (h' : Adds body nodes trail expects middle new count') :
    Adds body nodes trail expects old new (count + count') := by
  have hsize := h.size
  have hsize' := h'.size
  obtain ⟨added, heq, hwithin, hall⟩ := h.handlers
  obtain ⟨added', heq', hwithin', hall'⟩ := h'.handlers
  refine ⟨by omega, ?_, added ++ added', by rw [heq', heq, List.append_assoc], ?_, ?_⟩
  · -- a node is in one of the two parts
    intro place hle hlt
    by_cases hmiddle : place < middle.nodes.size
    · exact h.comes hle hmiddle
    · exact h'.comes (Nat.not_lt.1 hmiddle) hlt
  · intro handler hmem
    rcases List.mem_append.1 hmem with hmem | hmem
    · obtain ⟨start, stop, hstart, hstop, hlow, hhigh⟩ := hwithin handler hmem
      exact ⟨start, stop, hstart, hstop, hlow, by omega⟩
    · obtain ⟨start, stop, hstart, hstop, hlow, hhigh⟩ := hwithin' handler hmem
      exact ⟨start, stop, hstart, hstop, by omega, hhigh⟩
  · -- only handlers that were added together with a node protect it
    intro place entries hle hlt hplace
    rw [List.filter_append]
    by_cases hmiddle : place < middle.nodes.size
    · have hnone : added'.filter (·.protects nodes place) = [] := by
        refine List.filter_eq_nil_iff.2 fun handler hmem hprotects => ?_
        have hrange := hu.protects_iff_of_within (hwithin' handler hmem) hprotects
        omega
      rw [hnone, List.append_nil]
      exact hall hle hmiddle hplace
    · have hnone : added.filter (·.protects nodes place) = [] := by
        refine List.filter_eq_nil_iff.2 fun handler hmem hprotects => ?_
        have hrange := hu.protects_iff_of_within (hwithin handler hmem) hprotects
        omega
      rw [hnone, List.nil_append]
      exact hall' (Nat.not_lt.1 hmiddle) hlt hplace

/-- A node is added, which no handler that is added with it protects. -/
theorem push {inlining new : Inlining} (hnodes : new.nodes.size = inlining.nodes.size + 1)
    (hhandlers : new.handlers = inlining.handlers)
    {node : Node} {found : List Nat} (hnode : nodes[inlining.nodes.size]? = some node)
    (hfound : trail[inlining.nodes.size]? = some found) (hcomes : ComesFrom body node found)
    (hexpects : ∀ {entries}, expects inlining.nodes.size entries → entries = []) :
    Adds body nodes trail expects inlining new 1 := by
  have hplace : ∀ {place : Nat}, inlining.nodes.size ≤ place → place < new.nodes.size →
      place = inlining.nodes.size := by
    intro place hle hlt
    omega
  refine ⟨hnodes, ?_, [], by rw [hhandlers, List.append_nil], nofun, ?_⟩
  · intro place hle hlt
    obtain rfl := hplace hle hlt
    exact ⟨node, found, hnode, hfound, hcomes⟩
  · intro place entries hle hlt hentries
    obtain rfl := hplace hle hlt
    rw [hexpects hentries]
    exact .nil

end Adds

/-! ### Trails of parts -/

/-- Some trails are found from a place on. -/
def FoundFrom (trail : List (List Nat)) (place : Nat) (part : List (List Nat)) : Prop :=
  ∀ index < part.length, trail[place + index]? = part[index]?

/-- Two parts are found one behind the other. -/
theorem foundFrom_append {place : Nat} {front back : List (List Nat)} :
    FoundFrom trail place (front ++ back) ↔
      FoundFrom trail place front ∧ FoundFrom trail (place + front.length) back := by
  constructor
  · intro h
    constructor
    · intro index hlt
      rw [h index (by rw [List.length_append]; omega), List.getElem?_append_left hlt]
    · intro index hlt
      rw [Nat.add_assoc, h _ (by rw [List.length_append]; omega),
        List.getElem?_append_right (Nat.le_add_right _ _), Nat.add_sub_cancel_left]
  · -- a place in the back is counted from the end of the front
    rintro ⟨hfront, hback⟩ index hlt
    rw [List.length_append] at hlt
    by_cases hless : index < front.length
    · rw [hfront index hless, List.getElem?_append_left hless]
    · have hrest := hback (index - front.length) (by omega)
      rw [List.getElem?_append_right (Nat.not_lt.1 hless), ← hrest]
      congr 1
      omega

/-- What is found in a part is in the part. -/
theorem FoundFrom.mem {place index : Nat} {part : List (List Nat)} {found : List Nat}
    (h : FoundFrom trail place part) (hle : place ≤ index) (hlt : index < place + part.length)
    (hfound : trail[index]? = some found) : found ∈ part := by
  have hindex := h (index - place) (by omega)
  rw [Nat.add_sub_cancel' hle, hfound] at hindex
  exact List.mem_of_getElem? hindex.symm

theorem FoundFrom.head {place : Nat} {found : List Nat} {part : List (List Nat)}
    (h : FoundFrom trail place (found :: part)) : trail[place]? = some found := by
  simpa using h 0 (Nat.zero_lt_succ _)

theorem trailAt_of_none {inside : List Nat → Nat → List (List Nat)} {calls : List Nat}
    {number position : Nat} (h : regions.content? number position = none) :
    regions.trailAt inside calls number position = [] := by
  unfold trailAt
  rw [h]

/-- A call leaves a null for itself, the copy, and a label that was made. -/
theorem trailAt_of_call {inside : List Nat → Nat → List (List Nat)} {calls : List Nat}
    {number position : Nat} {target : Label}
    (h : regions.content? number position = some (.operation (.branch (.jsr target)))) :
    regions.trailAt inside calls number position =
      [position :: calls] ++ (inside (position :: calls) (regions.callee target) ++ [[]]) := by
  unfold trailAt
  rw [h]
  rfl

/-- Any other node leaves itself. -/
theorem trailAt_of_not_call {inside : List Nat → Nat → List (List Nat)} {calls : List Nat}
    {number position : Nat} {node : Node} (h : regions.content? number position = some node)
    (hcall : ∀ target, node ≠ .operation (.branch (.jsr target))) :
    regions.trailAt inside calls number position = [position :: calls] := by
  unfold trailAt
  rw [h]
  split
  · rename_i hnone
    cases hnone
  · rename_i target heq
    exact absurd (Option.some.inj heq) (hcall target)
  · rfl

/-- What is copied from a position comes from it, and perhaps from positions inside of a call. -/
theorem mem_trailAt {inside : List Nat → Nat → List (List Nat)} {calls : List Nat}
    {number position : Nat} {found : List Nat}
    (hinside : ∀ calls number, ∀ found ∈ inside calls number,
      found = [] ∨ ∃ inner, found = inner ++ calls)
    (h : found ∈ regions.trailAt inside calls number position) :
    found = [] ∨ ∃ inner node, found = inner ++ position :: calls ∧
      regions.content? number position = some node ∧
      (inner ≠ [] → ∃ target, node = .operation (.branch (.jsr target))) := by
  unfold trailAt at h
  -- nothing, the copies for a call, or the copy of a node
  split at h
  · cases h
  · rename_i target hcontent
    rcases List.mem_cons.1 h with rfl | h
    · exact .inr ⟨[], _, rfl, hcontent, fun _ => ⟨target, rfl⟩⟩
    · rcases List.mem_append.1 h with h | h
      · rcases hinside _ _ found h with hnone | ⟨inner, heq⟩
        · exact .inl hnone
        · exact .inr ⟨inner, _, heq, hcontent, fun _ => ⟨target, rfl⟩⟩
      · exact .inl (List.mem_singleton.1 h)
  · rename_i node _ hcontent
    obtain rfl := List.mem_singleton.1 h
    exact .inr ⟨[], node, rfl, hcontent, fun hne => absurd rfl hne⟩

/-- A copy inside comes from positions in front of the calls for which it was made. -/
theorem mem_trailInside (depth : Nat) (calls : List Nat) (number : Nat) :
    ∀ found ∈ regions.trailInside depth calls number,
      found = [] ∨ ∃ inner, found = inner ++ calls := by
  -- the calls of a copy inside of another end with the ones around it
  induction depth generalizing calls number with
  | zero => exact nofun
  | succ depth ih =>
    intro found hmem
    change found ∈ regions.trail depth calls number at hmem
    rw [trail_eq] at hmem
    rcases List.mem_append.1 hmem with hmem | hmem
    · obtain ⟨position, -, hat⟩ := List.mem_flatMap.1 hmem
      rcases mem_trailAt ih hat with hnone | ⟨inner, -, heq, -⟩
      · exact .inl hnone
      · exact .inr ⟨inner ++ [position], by rw [heq, List.append_assoc, List.singleton_append]⟩
    · split at hmem
      · exact .inl (List.mem_singleton.1 hmem)
      · cases hmem

/-! ### Copies are traced -/

/-- The labels that a copy of a region hands out, which was made for some calls, are those of the
region; the outer one keeps its labels. -/
def NamedBy (regions : Regions) (calls : List Nat) (number : Nat) (names : Renaming) : Prop :=
  number = outer ∧ names = [] ∨ number ≠ outer ∧ calls ≠ [] ∧ ∃ own others, names = own :: others ∧
    ∀ label, own.contains label = (regions.labels number).contains label

/-- Copies of subroutines have certain trails. -/
def Traced (regions : Regions) (body : Body) (nodes : List Node) (trail : List (List Nat))
    (copy : CopySubroutine) (inside : List Nat → Nat → List (List Nat)) : Prop :=
  ∀ {number : Nat} {names : Renaming} {continuation : Label} {inlining : Inlining}
    {calls : List Nat}, number < regions.regions.size → regions.NamedBy calls number names →
      (copy number names continuation inlining).nodes.toList <+: nodes →
        FoundFrom trail inlining.nodes.size (inside calls number) →
          Adds body nodes trail (regions.Expects body trail calls) inlining
            (copy number names continuation inlining) (inside calls number).length

/-- A copy has a name of its own for each label of its region, and for no other. -/
theorem contains_freshLabels (number issued : Nat) (label : Label) :
    (regions.freshLabels number issued).contains label = (regions.labels number).contains label := by
  have hfirst : ((regions.labels number).zipIdx.map fun (placed : Label × Nat) =>
      (placed.1, (⟨issued + placed.2⟩ : Label))).map Prod.fst = regions.labels number := by
    rw [List.map_map]
    exact List.zipIdx_map_fst 0 _
  unfold freshLabels
  rw [Std.HashMap.contains_ofList]
  exact congrArg (List.contains · label) hfirst

section Traced

variable {copy : CopySubroutine} {inside : List Nat → Nat → List (List Nat)} {number : Nat}
  {names : Renaming} {continuation : Label} {inlining : Inlining} {calls : List Nat}
  {position : Nat}

/-- A node that is no call is copied by adding one node. -/
theorem copyNode_eq_push {node : Node}
    (hcall : ∀ target, node ≠ .operation (.branch (.jsr target))) :
    ∃ copied, regions.copyNode copy names continuation inlining node = inlining.push copied ∧
      (body.nodes[position]? = some node → ComesFrom body copied (position :: calls)) := by
  cases node with
  | label label => exact ⟨_, rfl, fun hnode => .passed hnode rfl rfl⟩
  | line number => exact ⟨_, rfl, fun hnode => .passed hnode rfl rfl⟩
  | operation operation =>
    cases operation with
    | step instruction => exact ⟨_, rfl, fun hnode => .copied names.apply continuation hnode rfl⟩
    | branch b =>
      cases b with
      | jsr target => exact absurd rfl (hcall target)
      | _ => exact ⟨_, rfl, fun hnode => .copied names.apply continuation hnode rfl⟩

/-- Where there is only a trail of calls, no handlers are expected. -/
theorem expects_nil {entries : List (Handler × List Nat)} {place : Nat}
    (hplace : trail[place]? = some calls) (h : regions.Expects body trail calls place entries) :
    entries = [] := by
  obtain ⟨inner, hfound, -, rfl⟩ := h
  have hnil : inner = [] := List.append_left_eq_self.1 (Option.some.inj (hfound.symm.trans hplace))
  rw [hnil]
  rfl

/-- A node is added that was copied from a position. -/
theorem adds_push {inlining new : Inlining} {copied : Node}
    (hnew : new.nodes = inlining.nodes.push copied) (hhandlers : new.handlers = inlining.handlers)
    (hbegins : new.nodes.toList <+: nodes) (hplace : trail[inlining.nodes.size]? = some calls)
    (hcomes : ComesFrom body copied calls) :
    Adds body nodes trail (regions.Expects body trail calls) inlining new 1 := by
  have hsize : new.nodes.size = inlining.nodes.size + 1 := by rw [hnew, Array.size_push]
  have hnode : nodes[inlining.nodes.size]? = some copied := by
    rw [hnew] at hbegins
    exact @getElem?_of_push nodes inlining copied hbegins
  exact .push hsize hhandlers hnode hplace hcomes fun h => expects_nil hplace h

/-- A call is copied by adding a null, a copy and a label. -/
theorem copyCall_adds (hc : regions.Cuts body) (hu : UniqueLabels nodes) (honly : OnlyAdds copy)
    (hcopy : regions.Traced body nodes trail copy inside) {target : Label}
    (hnode : body.nodes[position]? = some (.operation (.branch (.jsr target))))
    (hbegins : (regions.copyCall copy names target inlining).nodes.toList <+: nodes)
    (hfound : FoundFrom trail inlining.nodes.size
      ([position :: calls] ++ (inside (position :: calls) (regions.callee target) ++ [[]]))) :
    Adds body nodes trail (regions.Expects body trail (position :: calls)) inlining
      (regions.copyCall copy names target inlining)
      (1 + ((inside (position :: calls) (regions.callee target)).length + 1)) := by
  obtain ⟨_, _, _, hne, _⟩ := callee_entered hc hnode
  rw [copyCall_eq] at hbegins ⊢
  rw [foundFrom_append, foundFrom_append] at hfound
  obtain ⟨hfirst, hcallee, hlast⟩ := hfound
  set count := (regions.labels (regions.callee target)).length
  have hinner := (Inlining.extends_push _ _).nodes.trans hbegins
  have hnull : (inlining.called count).nodes.toList <+: nodes := (honly _ _ _ _).nodes.trans hinner
  have hsize : (inlining.called count).nodes.size = inlining.nodes.size + 1 := Array.size_push _
  have hnamed : regions.NamedBy (position :: calls) (regions.callee target)
      (regions.freshLabels (regions.callee target) inlining.issued :: names) :=
    .inr ⟨hne, List.cons_ne_nil _ _, _, _, rfl, contains_freshLabels _ _⟩
  have hlt : regions.callee target < regions.regions.size := owner_lt hc _
  have hadds := hcopy hlt hnamed hinner (hsize ▸ hcallee)
  have hcalled : Adds body nodes trail (regions.Expects body trail (position :: calls)) inlining
      (inlining.called count) 1 :=
    adds_push rfl rfl hnull hfirst.head (.copied id default hnode rfl)
  refine hcalled.trans hu (hadds.trans hu ?_)
  -- the label behind the copy comes from nowhere
  have hplace : trail[(copy (regions.callee target) (regions.freshLabels (regions.callee target)
      inlining.issued :: names) ⟨inlining.issued + count⟩ (inlining.called count)).nodes.size]? =
        some [] := by
    rw [hadds.size, hsize]
    exact hlast.head
  refine .push (by simp [Inlining.push]) rfl (getElem?_of_push hbegins) hplace (.made rfl) ?_
  rintro entries ⟨inner, hfound, -, -⟩
  rw [hplace] at hfound
  exact absurd (Option.some.inj hfound).symm (by simp)

/-- What is copied from a position is traced to it. -/
theorem copyAt_adds (hc : regions.Cuts body) (hu : UniqueLabels nodes) (honly : OnlyAdds copy)
    (hcopy : regions.Traced body nodes trail copy inside)
    (hbegins : (regions.copyAt copy number names continuation inlining position).nodes.toList <+:
      nodes)
    (hfound : FoundFrom trail inlining.nodes.size (regions.trailAt inside calls number position)) :
    Adds body nodes trail (regions.Expects body trail (position :: calls)) inlining
      (regions.copyAt copy number names continuation inlining position)
      (regions.trailAt inside calls number position).length := by
  -- the same three cases as in the trail
  rcases regions.content?_cases number position with
    hcontent | ⟨target, hcontent⟩ | ⟨node, hcontent, hno⟩
  · rw [copyAt_of_none hcontent, trailAt_of_none hcontent]
    exact .refl inlining
  · rw [copyAt_of_some hcontent] at hbegins ⊢
    rw [trailAt_of_call hcontent] at hfound ⊢
    rw [List.length_append, List.length_append]
    exact copyCall_adds hc hu honly hcopy (hc.content?_eq_some.1 hcontent).1 hbegins hfound
  · rw [copyAt_of_some hcontent] at hbegins ⊢
    obtain ⟨copied, hpush, hcomes⟩ := @copyNode_eq_push regions body copy names continuation
      inlining calls position node hno
    rw [trailAt_of_not_call hcontent hno] at hfound ⊢
    rw [hpush] at hbegins ⊢
    exact adds_push rfl rfl hbegins hfound.head (hcomes (hc.content?_eq_some.1 hcontent).1)

end Traced

end Regions

end Preverification
