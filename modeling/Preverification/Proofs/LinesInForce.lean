import Preverification.Proofs.InlinedHandlers
import Preverification.Proofs.LiveFlow

/-!
# Lines in force

A line marker belongs to the operation that comes after it: it is copied where that operation is
copied, and left out where that operation is left out. The line in force at an operation, that of
the last marker in front of it, is therefore the line of the last marker that came along with the
code so far. After the copy of a subroutine it may be a line of the subroutine, and where a marker
was left out it is the line of an earlier one.

* `Governs.lineInForce_eq`: the line in force is that of the last marker in front.
* `Body.inline_standsFor`: the nodes of an inlined body stand for their origins.
* `Body.lines_follow_markers`: which line is in force at an operation that is copied, or that stays.
* `Body.callsLined_skipsLine_other_line`: an operation may get another line in both ways.
-/

namespace Preverification

/-- The number of a line marker. -/
def Node.lineNumber? : Node → Option UInt16
  | line number => some number
  | label _ | operation _ => none

/-- The line that is in force at a place: that of the last marker up to there. -/
def lineInForce (nodes : List Node) (place : Nat) : Option UInt16 :=
  ((nodes.take (place + 1)).filterMap Node.lineNumber?).getLast?

/-- The line of the marker at a position. -/
def lineNumberAt (nodes : List Node) (position : Nat) : Option UInt16 :=
  nodes[position]?.bind Node.lineNumber?

/-- Only a marker has a line. -/
theorem lineNumberAt_eq {nodes : List Node} {position : Nat} {node : Node}
    (h : nodes[position]? = some node) : lineNumberAt nodes position = node.lineNumber? := by
  unfold lineNumberAt
  rw [h]
  rfl

/-- Where nodes come from others, so do their lines. -/
theorem filterMap_take_eq {α : Type} {R : Node → α → Prop} {number : α → Option UInt16}
    {nodes : List Node} {origins : List α} (h : List.Forall₂ R nodes origins)
    (hnumber : ∀ node origin, R node origin → node.lineNumber? = number origin) (count : Nat) :
    (nodes.take count).filterMap Node.lineNumber? = (origins.take count).filterMap number := by
  induction h generalizing count with
  | nil => simp
  | @cons node origin nodes origins hnode _ ih =>
    cases count with
    | zero => rfl
    | succ count =>
      rw [List.take_succ_cons, List.take_succ_cons, List.filterMap_cons, List.filterMap_cons,
        hnumber node origin hnode, ih count]

/-- The last line of some parts, of which those behind one that has a line have none. -/
theorem getLast?_filterMap_eq {α : Type} {number : α → Option UInt16} {front back : List α} {a : α}
    {line : UInt16} (ha : number a = some line) (hback : ∀ b ∈ back, number b = none) :
    ((front ++ a :: back).filterMap number).getLast? = some line := by
  rw [List.filterMap_append, List.filterMap_cons_some ha, List.filterMap_eq_nil_iff.2 hback,
    List.getLast?_append]
  rfl

/-- A marker governs a position when it is the last one up to there. -/
structure Governs (nodes : List Node) (marker position : Nat) (line : UInt16) : Prop where
  le : marker ≤ position
  node : nodes[marker]? = some (.line line)
  last : ∀ between, marker < between → between ≤ position → lineNumberAt nodes between = none

/-- The line in force is that of the last marker, if there is no other one behind it. -/
theorem Governs.lineInForce_eq {nodes : List Node} {marker position : Nat} {line : UInt16}
    (h : Governs nodes marker position line) : lineInForce nodes position = some line := by
  have hlt := (List.getElem?_eq_some_iff.1 h.node).1
  have hsplit : nodes.take (position + 1) = nodes.take marker ++
      Node.line line :: (nodes.drop (marker + 1)).take (position - marker) := by
    have hcount : position + 1 = marker + (position - marker + 1) := by
      have := h.le
      omega
    rw [hcount, List.take_add, List.drop_eq_getElem_cons hlt, List.take_succ_cons]
    congr 2
    exact (List.getElem?_eq_some_iff.1 h.node).2
  unfold lineInForce
  rw [hsplit]
  refine getLast?_filterMap_eq rfl fun node hnode => ?_
  obtain ⟨index, hindex⟩ := List.mem_iff_getElem?.1 hnode
  rw [List.getElem?_take, List.getElem?_drop] at hindex
  split at hindex
  · have hnone := h.last (marker + 1 + index) (by omega) (by omega)
    rw [lineNumberAt_eq hindex] at hnone
    exact hnone
  · cases hindex

/-- The marker that governs a position has the same owner, and no call of this owner stands in
between. -/
structure Accompanies (nodes : List Node) (owner : Nat → Nat) (marker position : Nat) (line : UInt16) :
    Prop where
  governs : Governs nodes marker position line
  owner_eq : owner marker = owner position
  steady : ∀ between target, marker < between → between < position →
    nodes[between]? = some (.operation (.branch (.jsr target))) → owner between ≠ owner position

/-! ### Lines of copied code -/

namespace Body

/-- The line of the marker at the first position of a trail. -/
def lineOf (body : Body) : (trail : List Nat) → Option UInt16
  | [] => none
  | position :: _ => lineNumberAt body.nodes position

/-- The lines of the markers that were copied up to a place of the inlined body. -/
def copiedLines (body : Body) (place : Nat) : List UInt16 :=
  (body.origins.take (place + 1)).filterMap body.lineOf

end Body

namespace Regions

variable {regions : Regions} {body : Body}

/-- A node comes from a trail, and has the line of the marker there. -/
structure StandsFor (body : Body) (node : Node) (trail : List Nat) : Prop where
  comes : ComesFrom body node trail
  line : node.lineNumber? = body.lineOf trail

/-- Nodes are added that are related to some trails. -/
def Grows (R : Node → List Nat → Prop) (old new : Inlining) (trail : List (List Nat)) : Prop :=
  ∃ added, new.nodes.toList = old.nodes.toList ++ added ∧ List.Forall₂ R added trail

section Grows

variable {R : Node → List Nat → Prop} {old middle new : Inlining} {trail trail' : List (List Nat)}

theorem Grows.refl (inlining : Inlining) : Grows R inlining inlining [] :=
  ⟨[], (List.append_nil _).symm, .nil⟩

/-- What is added in two steps stands for both trails. -/
theorem Grows.trans (h : Grows R old middle trail) (h' : Grows R middle new trail') :
    Grows R old new (trail ++ trail') := by
  rcases h with ⟨added, heq, hall⟩
  rcases h' with ⟨added', heq', hall'⟩
  exact ⟨added ++ added', by rw [heq', heq, List.append_assoc], List.rel_append hall hall'⟩

theorem grows_push {node : Node} {found : List Nat} (hnodes : new.nodes = old.nodes.push node)
    (hnode : R node found) : Grows R old new [found] :=
  ⟨[node], by rw [hnodes, Array.toList_push], .cons hnode .nil⟩

/-- Where each step adds nodes for a part of the trails, and keeps what the next one relies on. -/
theorem grows_foldl {P : Inlining → Prop} {step : Inlining → Nat → Inlining}
    {part : Nat → List (List Nat)}
    (hstep : ∀ inlining position, P inlining →
      P (step inlining position) ∧ Grows R inlining (step inlining position) (part position))
    (positions : List Nat) (inlining : Inlining) (h : P inlining) :
    Grows R inlining (positions.foldl step inlining) (positions.flatMap part) := by
  induction positions generalizing inlining with
  | nil => exact .refl inlining
  | cons position positions ih =>
    obtain ⟨hnext, hgrows⟩ := hstep inlining position h
    exact hgrows.trans (ih _ hnext)

end Grows

/-- What copies of subroutines add stands for certain trails. -/
def Tracks (regions : Regions) (body : Body) (copy : CopySubroutine)
    (inside : List Nat → Nat → List (List Nat)) : Prop :=
  ∀ number names continuation inlining calls,
    number < regions.regions.size → regions.NamedBy calls number names →
      Grows (StandsFor body) inlining (copy number names continuation inlining) (inside calls number)

section Tracks

variable {copy : CopySubroutine} {inside : List Nat → Nat → List (List Nat)} {number : Nat}
  {names : Renaming} {continuation : Label} {inlining : Inlining} {calls : List Nat}
  {position : Nat}

/-- A node that is no call is copied with its line; nothing else becomes a marker. -/
theorem grows_copyNode {node : Node} (hnode : body.nodes[position]? = some node)
    (hcall : ∀ target, node ≠ .operation (.branch (.jsr target))) :
    Grows (StandsFor body) inlining (regions.copyNode copy names continuation inlining node)
      [position :: calls] := by
  have hline : node.lineNumber? = body.lineOf (position :: calls) := (lineNumberAt_eq hnode).symm
  cases node with
  | label label => exact grows_push rfl ⟨.passed hnode rfl rfl, hline⟩
  | line number => exact grows_push rfl ⟨.passed hnode rfl rfl, hline⟩
  | operation operation =>
    cases operation with
    | step instruction =>
      exact grows_push rfl ⟨.copied names.apply continuation hnode rfl, hline⟩
    | branch b =>
      cases b with
      | jsr target => exact absurd rfl (hcall target)
      | _ => exact grows_push rfl ⟨.copied names.apply continuation hnode rfl, hline⟩

/-- For a call a null is added, what stands for the subroutine, and a label. -/
theorem grows_copyCall (hc : regions.Cuts body) (hcopy : regions.Tracks body copy inside)
    {target : Label} (hnode : body.nodes[position]? = some (.operation (.branch (.jsr target)))) :
    Grows (StandsFor body) inlining (regions.copyCall copy names target inlining)
      ([position :: calls] ++ (inside (position :: calls) (regions.callee target) ++ [[]])) := by
  obtain ⟨_, _, _, hne, _⟩ := callee_entered hc hnode
  have hnamed : regions.NamedBy (position :: calls) (regions.callee target)
      (regions.freshLabels (regions.callee target) inlining.issued :: names) :=
    .inr ⟨hne, List.cons_ne_nil _ _, _, _, rfl, contains_freshLabels _ _⟩
  have hnull : StandsFor body (.operation (.step .nullConst)) (position :: calls) :=
    ⟨.copied id default hnode rfl, (lineNumberAt_eq hnode).symm⟩
  rw [copyCall_eq]
  exact (grows_push rfl hnull).trans ((hcopy _ _ _ _ _ (owner_lt hc _) hnamed).trans
    (grows_push rfl ⟨.made rfl, rfl⟩))

/-- What is added for a position stands for its trail. -/
theorem grows_copyAt (hc : regions.Cuts body) (hcopy : regions.Tracks body copy inside) :
    Grows (StandsFor body) inlining (regions.copyAt copy number names continuation inlining position)
      (regions.trailAt inside calls number position) := by
  rcases regions.content?_cases number position with
    hcontent | ⟨target, hcontent⟩ | ⟨node, hcontent, hno⟩
  · rw [copyAt_of_none hcontent, trailAt_of_none hcontent]
    exact .refl inlining
  · rw [copyAt_of_some hcontent, trailAt_of_call hcontent]
    exact grows_copyCall hc hcopy (hc.content?_eq_some.1 hcontent).1
  · rw [copyAt_of_some hcontent, trailAt_of_not_call hcontent hno]
    exact grows_copyNode (hc.content?_eq_some.1 hcontent).1 hno

/-- What is added for a region stands for the trail of a copy of it. -/
theorem tracks_copyRegion (hc : regions.Cuts body) (hcopy : regions.Tracks body copy inside) :
    regions.Tracks body (regions.copyRegion copy) (regions.trailOf inside) := by
  intro number names continuation inlining calls hlt hnamed
  rw [copyRegion_eq hc (hc.stop_le hlt)]
  have hfold := grows_foldl (P := fun _ => True) (fun inlining position _ => ⟨trivial,
    @grows_copyAt regions body copy inside number names continuation inlining calls position hc
      hcopy⟩) (regions.span number) inlining trivial
  refine hfold.trans ?_
  obtain ⟨hstops, -⟩ := @copyStops_snd regions number names
    ((regions.span number).foldl (regions.copyAt copy number names continuation) inlining) calls hnamed
  rcases hstops with ⟨hends, hnodes⟩ | ⟨hends, label, hnodes⟩
  · rw [hends]
    exact ⟨[], by rw [List.append_nil]; exact congrArg Array.toList hnodes, .nil⟩
  · rw [hends]
    exact grows_push hnodes ⟨.made rfl, rfl⟩

/-- What is added at any depth stands for the trails up to that depth. -/
theorem tracks_copyInside (hc : regions.Cuts body) (depth : Nat) :
    regions.Tracks body (regions.copyInside depth) (regions.trailInside depth) := by
  induction depth with
  | zero =>
    intro number names continuation inlining calls _ _
    exact .refl inlining
  | succ depth ih =>
    change regions.Tracks body (regions.copyToDepth depth) (regions.trail depth)
    rw [copyToDepth_eq, trail_eq]
    exact tracks_copyRegion hc ih

/-- The nodes of the copy of a whole body stand for its trail. -/
theorem copyBody_standsFor (hc : regions.Cuts body) (depth issued : Nat) :
    List.Forall₂ (StandsFor body) (regions.copyBody depth issued).nodes.toList
      (regions.trail depth [] outer) := by
  have htracks := tracks_copyRegion hc (tracks_copyInside hc depth)
  rw [← trail_eq, ← copyToDepth_eq] at htracks
  obtain ⟨added, heq, hall⟩ := htracks outer [] default (Inlining.nothing issued) []
    hc.some_region (.inl ⟨rfl, rfl⟩)
  rw [copyBody_eq, heq]
  exact hall

end Tracks

end Regions

namespace Body

variable {body inlined : Body} {limits : InliningLimits} {copies : Nat}

/-- Without subroutines each node stands for itself. -/
theorem standsFor_self (hno : body.hasSubroutines = false) {position : Nat} {node : Node}
    (hnode : body.nodes[position]? = some node) : Regions.StandsFor body node [position] := by
  refine ⟨?_, (lineNumberAt_eq hnode).symm⟩
  cases node with
  | label _ | line _ => exact .passed hnode rfl rfl
  | operation operation =>
    refine .copied id default hnode ?_
    rw [Operation.copied_eq (isSubroutine_of_hasSubroutines hno (List.mem_of_getElem? hnode)),
      Operation.map_id]

/-- The nodes of an inlined body stand for its origins. -/
theorem inline_standsFor (h : body.inline limits = .ok (copies, inlined)) :
    List.Forall₂ (Regions.StandsFor body) inlined.nodes body.origins := by
  rcases inline_cases h with ⟨hno, rfl⟩ | ⟨regions, size, hsub, hregions, hsize, rfl⟩
  · unfold origins
    rw [hno, if_neg Bool.false_ne_true, List.forall₂_map_right_iff, List.forall₂_iff_get]
    refine ⟨List.length_range.symm, fun position hlt hlt' => ?_⟩
    rw [List.get_eq_getElem, List.get_eq_getElem, List.getElem_range]
    exact standsFor_self hno (List.getElem?_eq_getElem hlt)
  · rw [origins_eq hsub hregions hsize]
    exact Regions.copyBody_standsFor (regions_ok hregions).1 size.depth body.issued

end Body

/-! ### Markers that are copied along -/

/-- What is found in joined parts is found in one of them, behind all of those in front of it. -/
theorem exists_of_getElem?_flatMap {α β : Type} {part : α → List β} {l : List α} {place : Nat} {b : β}
    (h : (l.flatMap part)[place]? = some b) :
    ∃ front a back index, l = front ++ a :: back ∧ (part a)[index]? = some b ∧
      (l.flatMap part).take (place + 1) = front.flatMap part ++ (part a).take (index + 1) := by
  induction l generalizing place with
  | nil => simp at h
  | cons first l ih =>
    rw [List.flatMap_cons] at h ⊢
    by_cases hlt : place < (part first).length
    · rw [List.getElem?_append_left hlt] at h
      refine ⟨[], first, l, place, rfl, h, ?_⟩
      rw [List.take_append_of_le_length (Nat.succ_le_of_lt hlt)]
      rfl
    · have hle := Nat.not_lt.1 hlt
      rw [List.getElem?_append_right hle] at h
      obtain ⟨front, a, back, index, rfl, ha, htake⟩ := ih h
      refine ⟨first :: front, a, back, index, rfl, ha, ?_⟩
      rw [List.flatMap_cons, List.append_assoc, ← htake, List.take_append,
        List.take_of_length_le (by omega)]
      congr 2
      omega

namespace Regions

variable {regions : Regions} {body : Body} {inside : List Nat → Nat → List (List Nat)}
  {calls : List Nat} {number marker position : Nat} {line : UInt16}

/-- Trails up to one of an operation have that of the marker, and behind it no other marker. -/
def Marked (body : Body) (marker : Nat) (calls : List Nat) (trail : List (List Nat)) : Prop :=
  ∃ front back, trail = front ++ (marker :: calls) :: back ∧ ∀ found ∈ back, body.lineOf found = none

/-- A marker is found behind other trails, too. -/
theorem Marked.append {trail : List (List Nat)} (h : Marked body marker calls trail)
    (front : List (List Nat)) : Marked body marker calls (front ++ trail) := by
  obtain ⟨first, back, rfl, hback⟩ := h
  exact ⟨front ++ first, back, (List.append_assoc _ _ _).symm, hback⟩

/-- The marker of an operation is copied with the operation. -/
theorem marked_of_span (hc : regions.Cuts body) (h : Accompanies body.nodes regions.owner marker position line)
    (howner : regions.owner position = number) {node : Node}
    (hnode : body.nodes[position]? = some node) (hline : node.lineNumber? = none)
    {front back : List Nat} (hspan : regions.span number = front ++ position :: back) :
    Marked body marker calls
      (front.flatMap (regions.trailAt inside calls number) ++ [position :: calls]) := by
  have hascending : (front ++ position :: back).Pairwise (· < ·) := by
    rw [← hspan]
    exact List.pairwise_lt_range'
  obtain ⟨hfront, hback, hcross⟩ := List.pairwise_append.1 hascending
  have hne : marker ≠ position := by
    rintro rfl
    rw [h.governs.node] at hnode
    obtain rfl := Option.some.inj hnode
    cases hline
  -- the marker is in the region, in front of the operation
  have hmem : marker ∈ front := by
    have hlt := (List.getElem?_eq_some_iff.1 h.governs.node).1
    have hrange := hc.owned marker hlt
    have hinSpan : marker ∈ regions.span number := by
      unfold span
      rw [h.owner_eq, howner] at hrange
      rw [List.mem_range'_1]
      omega
    rw [hspan] at hinSpan
    rcases List.mem_append.1 hinSpan with hmem | hmem
    · exact hmem
    · rcases List.mem_cons.1 hmem with rfl | hmem
      · exact absurd rfl hne
      · have := List.rel_of_pairwise_cons hback hmem
        have := h.governs.le
        omega
  obtain ⟨first, between, rfl⟩ := List.append_of_mem hmem
  -- it is copied as it is, and then what is between the two
  have hcontent : regions.content? number marker = some (.line line) :=
    hc.content?_eq_some.2 ⟨h.governs.node, .inl (h.owner_eq.trans howner)⟩
  refine ⟨first.flatMap (regions.trailAt inside calls number),
    between.flatMap (regions.trailAt inside calls number) ++ [position :: calls], ?_, ?_⟩
  · rw [List.flatMap_append, List.flatMap_cons, trailAt_of_not_call hcontent (by simp)]
    simp
  · -- nothing that is copied in between is a marker
    intro found hfound
    rcases List.mem_append.1 hfound with hfound | hfound
    · obtain ⟨passed, hpassed, hat⟩ := List.mem_flatMap.1 hfound
      have hlow : marker < passed :=
        List.rel_of_pairwise_cons (List.pairwise_append.1 hfront).2.1 hpassed
      have hhigh : passed < position := hcross passed (by simp [hpassed]) position List.mem_cons_self
      unfold trailAt at hat
      split at hat
      · cases hat
      · -- a call of the region would stand in between
        rename_i target hcall
        obtain ⟨hcallNode, howned⟩ := hc.content?_eq_some.1 hcall
        refine absurd ?_ (h.steady passed target hlow hhigh hcallNode)
        rw [howner]
        exact howned.resolve_right (by simp [Node.label?])
      · obtain rfl := List.mem_singleton.1 hat
        exact h.governs.last passed hlow (Nat.le_of_lt hhigh)
    · obtain rfl := List.mem_singleton.1 hfound
      exact (lineNumberAt_eq hnode).trans hline

/-- What is copied from a position is the node there, or it is inside of a copy made for a call
there. -/
theorem trailAt_getElem? {passed index : Nat} {later : List Nat}
    (h : (regions.trailAt inside calls number passed)[index]? = some (position :: later)) :
    (position = passed ∧ later = calls ∧ (∃ node, regions.content? number passed = some node) ∧
        (regions.trailAt inside calls number passed).take (index + 1) = [passed :: calls]) ∨
      ∃ target inner, (inside (passed :: calls) (regions.callee target))[inner]? =
          some (position :: later) ∧
        (regions.trailAt inside calls number passed).take (index + 1) = [passed :: calls] ++
          (inside (passed :: calls) (regions.callee target)).take (inner + 1) := by
  rcases regions.content?_cases number passed with
    hcontent | ⟨target, hcontent⟩ | ⟨node, hcontent, hno⟩
  · rw [trailAt_of_none hcontent] at h
    cases h
  · rw [trailAt_of_call hcontent] at h ⊢
    cases index with
    | zero =>
      obtain ⟨rfl, rfl⟩ := List.cons.inj (Option.some.inj h)
      exact .inl ⟨rfl, rfl, ⟨_, hcontent⟩, rfl⟩
    | succ inner =>
      -- behind the null that stands for the call comes the copy, and then a label
      rw [List.singleton_append, List.getElem?_cons_succ] at h
      have hlt : inner < (inside (passed :: calls) (regions.callee target)).length := by
        by_contra hnot
        rw [List.getElem?_append_right (Nat.not_lt.1 hnot)] at h
        cases List.mem_singleton.1 (List.mem_of_getElem? h)
      rw [List.getElem?_append_left hlt] at h
      refine .inr ⟨target, inner, h, ?_⟩
      rw [List.singleton_append, List.take_succ_cons,
        List.take_append_of_le_length (Nat.succ_le_of_lt hlt)]
      rfl
  · rw [trailAt_of_not_call hcontent hno] at h ⊢
    obtain ⟨rfl, rfl⟩ := List.cons.inj (List.mem_singleton.1 (List.mem_of_getElem? h))
    exact .inl ⟨rfl, rfl, ⟨node, hcontent⟩, List.take_of_length_le (by simp)⟩

/-- The marker of an operation is copied along wherever the operation is copied. -/
theorem marked_of_trailInside (hc : regions.Cuts body)
    (h : Accompanies body.nodes regions.owner marker position line) {operation : Operation Label}
    (hnode : body.nodes[position]? = some (.operation operation)) (depth : Nat) (calls : List Nat)
    (number : Nat) {place : Nat} {later : List Nat}
    (hplace : (regions.trailInside depth calls number)[place]? = some (position :: later)) :
    Marked body marker later ((regions.trailInside depth calls number).take (place + 1)) := by
  induction depth generalizing calls number place with
  | zero => cases hplace
  | succ depth ih =>
    change (regions.trail depth calls number)[place]? = _ at hplace
    change Marked body marker later ((regions.trail depth calls number).take (place + 1))
    rw [trail_eq] at hplace ⊢
    unfold trailOf at hplace ⊢
    have hlt : place < ((regions.span number).flatMap
        (regions.trailAt (regions.trailInside depth) calls number)).length := by
      -- what is behind the copies of the positions comes from nowhere
      by_contra hnot
      rw [List.getElem?_append_right (Nat.not_lt.1 hnot)] at hplace
      split at hplace
      · cases List.mem_singleton.1 (List.mem_of_getElem? hplace)
      · cases hplace
    rw [List.getElem?_append_left hlt] at hplace
    rw [List.take_append_of_le_length (Nat.succ_le_of_lt hlt)]
    obtain ⟨front, passed, back, index, hspan, hat, htake⟩ := exists_of_getElem?_flatMap hplace
    rw [htake]
    rcases trailAt_getElem? hat with ⟨rfl, rfl, ⟨node, hcontent⟩, hown⟩ | ⟨_, _, hinner, hcall⟩
    · rw [hown]
      obtain ⟨hfound, howned⟩ := hc.content?_eq_some.1 hcontent
      obtain rfl := Option.some.inj (hnode.symm.trans hfound)
      exact marked_of_span hc h (howned.resolve_right (by simp [Node.label?])) hnode rfl hspan
    · rw [hcall, ← List.append_assoc]
      exact (ih _ _ hinner).append _

end Regions

namespace Body

variable {body inlined : Body} {limits : InliningLimits} {copies : Nat}

/-- The line in force at a place of an inlined body is that of the last marker that was copied. -/
theorem lineInForce_inlined (h : body.inline limits = .ok (copies, inlined)) (place : Nat) :
    lineInForce inlined.nodes place = (body.copiedLines place).getLast? := by
  unfold lineInForce copiedLines
  rw [filterMap_take_eq (inline_standsFor h) (fun _ _ hstands => hstands.line)]

/-- A copied operation keeps its line if the marker accompanies it. -/
theorem lineInForce_inlined_eq (h : body.inline limits = .ok (copies, inlined)) {place position : Nat}
    {calls : List Nat} {original : Operation Label} {marker : Nat} {line : UInt16}
    (horigin : body.origins[place]? = some (position :: calls))
    (horiginal : body.nodes[position]? = some (.operation original))
    (haccompanies : Accompanies body.nodes body.regionAt marker position line) :
    lineInForce inlined.nodes place = lineInForce body.nodes position := by
  rw [haccompanies.governs.lineInForce_eq]
  rcases inline_cases h with ⟨hno, rfl⟩ | ⟨regions, size, hsub, hregions, hsize, rfl⟩
  · unfold origins at horigin
    rw [hno, if_neg Bool.false_ne_true, List.getElem?_map, Option.map_eq_some_iff] at horigin
    obtain ⟨position', hrange, heq⟩ := horigin
    obtain ⟨rfl, -⟩ := List.cons.inj heq
    obtain ⟨hlt, hat⟩ := List.getElem?_eq_some_iff.1 hrange
    rw [List.getElem_range] at hat
    rw [hat]
    exact haccompanies.governs.lineInForce_eq
  · have horigins := origins_eq hsub hregions hsize
    rw [regionAt_eq hregions] at haccompanies
    rw [horigins] at horigin
    obtain ⟨front, back, htake, hback⟩ := Regions.marked_of_trailInside (regions_ok hregions).1
      haccompanies horiginal (size.depth + 1) [] Regions.outer horigin
    rw [lineInForce_inlined h, copiedLines, horigins]
    refine (congrArg (fun trail => (trail.filterMap body.lineOf).getLast?) htake).trans ?_
    exact getLast?_filterMap_eq (lineNumberAt_eq haccompanies.governs.node) hback

end Body

/-! ### Lines of code that stays -/

namespace Analysis

/-- The lines of the markers up to a position that stay, because they lead to an operation that can
be reached. -/
def keptLines (analysis : Analysis) (nodes : List Node) (position : Nat) : List UInt16 :=
  ((analysis.keptPositions nodes).filter (· ≤ position)).filterMap (lineNumberAt nodes)

/-- The first elements of an ascending list are those up to the last one of them. -/
theorem take_succ_eq_filter {positions : List Nat} (h : positions.Pairwise (· < ·))
    {place position : Nat} (hposition : positions[place]? = some position) :
    positions.take (place + 1) = positions.filter (· ≤ position) := by
  induction positions generalizing place with
  | nil => cases hposition
  | cons first positions ih =>
    obtain ⟨hfirst, hrest⟩ := List.pairwise_cons.1 h
    cases place with
    | zero =>
      obtain rfl := Option.some.inj hposition
      have hnone : positions.filter (· ≤ first) = [] := by
        refine List.filter_eq_nil_iff.2 fun later hlater => ?_
        have := hfirst later hlater
        simpa using this
      rw [List.filter_cons_of_pos (by simp), hnone]
      rfl
    | succ place =>
      have hlater := List.mem_of_getElem? (l := positions) hposition
      have hle := Nat.le_of_lt (hfirst position hlater)
      rw [List.take_succ_cons, ih hrest hposition, List.filter_cons_of_pos (by simpa using hle)]

/-- The line in force at a node that stays is that of the last marker in front of it that stays. -/
theorem Keeps.lineInForce_eq {analysis : Analysis} {nodes nodes' : List Node} {positions : List Nat}
    (hk : analysis.Keeps nodes nodes' positions) {place position : Nat}
    (hposition : positions[place]? = some position) : lineInForce nodes' place =
      ((positions.filter (· ≤ position)).filterMap (lineNumberAt nodes)).getLast? := by
  unfold lineInForce
  rw [filterMap_take_eq hk.nodes_eq.flip fun _ _ hnode => (lineNumberAt_eq hnode).symm,
    take_succ_eq_filter hk.ascending hposition]

/-- A node that stays keeps its line if the marker stays. -/
theorem Keeps.lineInForce_eq_of_stays {analysis : Analysis} {nodes nodes' : List Node}
    {positions : List Nat} (hk : analysis.Keeps nodes nodes' positions) {place position marker : Nat}
    {line : UInt16} (hposition : positions[place]? = some position)
    (hgoverns : Governs nodes marker position line) (hstays : analysis.Stays nodes marker) :
    lineInForce nodes' place = lineInForce nodes position := by
  rw [hgoverns.lineInForce_eq, hk.lineInForce_eq hposition]
  have hmem : marker ∈ positions.filter (· ≤ position) :=
    List.mem_filter.2 ⟨(hk.mem marker).2 hstays, by simpa using hgoverns.le⟩
  obtain ⟨front, back, hsplit⟩ := List.append_of_mem hmem
  have hascending := hk.ascending.filter (· ≤ position)
  rw [hsplit] at hascending ⊢
  refine getLast?_filterMap_eq (lineNumberAt_eq hgoverns.node) fun later hlater => ?_
  have hle : later ∈ positions.filter (· ≤ position) := by simp [hsplit, hlater]
  refine hgoverns.last later ?_ (by simpa using (List.mem_filter.1 hle).2)
  exact List.rel_of_pairwise_cons (List.pairwise_append.1 hascending).2.1 hlater

end Analysis

namespace Body

/-- A copied operation comes from one of the body. The line in force there is that of the last
marker that was copied; it is the line in force at the original if the marker accompanies the
original. What stays of a body has in force the line of the last marker that stays; it is the line
from before if the marker leads to an operation that can be reached. -/
theorem lines_follow_markers {body inlined whole pruned : Body} {limits : InliningLimits} {copies : Nat}
    {analysis : Analysis} (hinline : body.inline limits = .ok (copies, inlined))
    (hpruned : whole.removeUnreachable analysis = .ok pruned) :
    (∀ (place : Nat) operation, inlined.nodes[place]? = some (.operation operation) →
      ∃ position calls original names continuation,
        body.origins[place]? = some (position :: calls) ∧
        body.nodes[position]? = some (.operation original) ∧
        operation = original.copied names continuation ∧
        lineInForce inlined.nodes place = (body.copiedLines place).getLast? ∧
        ∀ marker line, Accompanies body.nodes body.regionAt marker position line →
          lineInForce inlined.nodes place = lineInForce body.nodes position) ∧
    ∀ (place : Nat) operation, pruned.nodes[place]? = some (.operation operation) →
      ∃ position, (analysis.keptPositions whole.nodes)[place]? = some position ∧
        whole.nodes[position]? = some (.operation operation) ∧
        lineInForce pruned.nodes place = (analysis.keptLines whole.nodes position).getLast? ∧
        ∀ marker line target, Governs whole.nodes marker position line →
          Arrives whole.nodes marker target → analysis.isLive target →
            lineInForce pruned.nodes place = lineInForce whole.nodes position := by
  constructor
  · intro place operation hplace
    have hstands := inline_standsFor hinline
    have hlt := (List.getElem?_eq_some_iff.1 hplace).1
    obtain ⟨trail, hfound⟩ : ∃ trail, body.origins[place]? = some trail :=
      ⟨_, List.getElem?_eq_getElem (hstands.length_eq ▸ hlt)⟩
    cases (forall₂_getElem? hstands hplace hfound).comes with
    | made hno => cases hno
    | passed _ _ hno => cases hno
    | @copied position calls original names continuation horiginal hcopied =>
      exact ⟨position, calls, original, names, continuation, hfound, horiginal,
        Node.operation.inj hcopied, lineInForce_inlined hinline place,
        fun marker line => lineInForce_inlined_eq hinline hfound horiginal⟩
  · intro place operation hplace
    obtain ⟨hkeeps, -⟩ := removeUnreachable_ok hpruned
    obtain ⟨position, hposition, hnode⟩ := hkeeps.exists_position hplace
    exact ⟨position, hposition, hnode, hkeeps.lineInForce_eq hposition,
      fun marker line target hgoverns harrives hlive => hkeeps.lineInForce_eq_of_stays hposition
        hgoverns (Analysis.stays_of_arrives hgoverns.node harrives hlive)⟩

/-! ### A call between two lines -/

/-- Returns behind a call, without a marker of its own. The subroutine has a line. -/
def callsLined : Body where
  maxStack := 1
  maxLocals := 2
  nodes :=
    [.line 1, .operation (.branch (.jsr ⟨0⟩)), .operation (.branch .returnVoid), .label ⟨0⟩, .line 2,
      .operation (.step (.store .reference 1)), .operation (.branch (.ret 1))]
  handlers := []
  localVariables := []
  variableTypes := []
  attributes := []
  issued := 1

/-- The regions of `callsLined`. -/
def callsLinedRegions : Regions where
  flow :=
    { nodes := callsLined.nodes.toArray
      positions := (∅ : Std.HashMap Label Nat).insert ⟨0⟩ 3
      next := #[some 1, some 1, some 2, some 5, some 5, some 5, some 6, none]
      numbers := #[0, 0, 1, 2, 2, 2, 3, 4] }
  regions :=
    #[{ entry := none, start := 0, stop := 7 }, { entry := some ⟨0⟩, start := 3, stop := 7 }]
  owners := #[0, 0, 0, 1, 1, 1, 1]

theorem callsLined_regions : callsLined.regions = .ok callsLinedRegions := by
  have hpositions : callsLined.labelPositions = .ok callsLinedRegions.flow.positions := by
    simp [callsLined, callsLinedRegions, labelPositions, placeLabels, Node.label?]
  have hflow : callsLined.flow = .ok callsLinedRegions.flow := by
    unfold flow
    rw [hpositions]
    rfl
  refine regions_of_scan hflow ?_ ?_ rfl rfl rfl rfl
  · intro label hmem
    obtain rfl : label = ⟨0⟩ := by simpa [callsLined, calledLabels] using hmem
    exact ⟨3, ((flow_describes hflow).position_ok _ _).2 rfl⟩
  · have hcalled : callsLined.calledLabels = [⟨0⟩] := rfl
    rw [hcalled]
    simp [callsLined, callsLinedRegions, RegionScan.add, RegionScan.pass, RegionScan.enter,
      RegionScan.leave, RegionScan.current, Regions.outer, Array.modify, Array.modifyM]

theorem callsLined_callee : callsLinedRegions.callee ⟨0⟩ = 1 := by
  simp [Regions.callee, callsLinedRegions, Regions.owner]

theorem callsLined_totalSize : callsLinedRegions.totalSize = .ok ⟨1, 4⟩ := by
  have houter : callsLinedRegions.callees 0 = [1] := by
    have hcontents : callsLinedRegions.contents 0 =
        [.line 1, .operation (.branch (.jsr ⟨0⟩)), .operation (.branch .returnVoid),
          .label ⟨0⟩] := rfl
    simp [Regions.callees, hcontents, callsLined_callee]
  exact @Regions.totalSize_of_one_callee callsLinedRegions 1 0 (by decide) (by decide) houter rfl

theorem callsLined_inline : ∃ copies inlined, callsLined.inline ⟨1, 4⟩ = .ok (copies, inlined) :=
  exists_inline rfl callsLined_regions callsLined_totalSize (Nat.le_refl 1) (Nat.le_refl 4)

theorem callsLined_origins : callsLined.origins =
    [[0], [1], [3, 1], [4, 1], [5, 1], [6, 1], [], [2], [3]] := by
  have hcontent : callsLinedRegions.content? 0 1 = some (.operation (.branch (.jsr ⟨0⟩))) := rfl
  have hbehind : callsLinedRegions.endsBehind 1 = false := by
    simp [Regions.endsBehind, Regions.stops, Regions.region, callsLinedRegions]
  have hinner : callsLinedRegions.trail 0 [1] 1 = [[3, 1], [4, 1], [5, 1], [6, 1]] := by
    unfold Regions.trail Regions.trailOf
    rw [hbehind]
    rfl
  have hcall : callsLinedRegions.trailAt (callsLinedRegions.trail 0) [] 0 1 =
      [[1], [3, 1], [4, 1], [5, 1], [6, 1], []] := by
    rw [Regions.trailAt_of_call hcontent, callsLined_callee, hinner]
    rfl
  have hspan : callsLinedRegions.span 0 = [0, 1, 2, 3, 4, 5, 6] := rfl
  rw [origins_eq rfl callsLined_regions callsLined_totalSize]
  unfold Regions.trail Regions.trailOf
  change (callsLinedRegions.span 0).flatMap (callsLinedRegions.trailAt
    (callsLinedRegions.trail 0) [] 0) ++ [] = _
  rw [hspan, List.flatMap_cons, List.flatMap_cons, hcall]
  rfl

/-- Jumps over code that has a line, and returns without a marker of its own. -/
def skipsLine : Body where
  maxStack := 1
  maxLocals := 0
  nodes :=
    [.line 1, .operation (.branch (.goto ⟨0⟩)), .line 2, .operation (.step .nullConst),
      .operation (.branch .throwException), .label ⟨0⟩, .operation (.branch .returnVoid)]
  handlers := []
  localVariables := []
  variableTypes := []
  attributes := []
  issued := 1

/-- What type inference finds out about `skipsLine`. -/
def skipsLineAnalysis : Analysis where
  states := #[none, some ⟨[], ∅⟩, none, none, none, none, some ⟨[], ∅⟩]
  maxStack := 0
  maxLocals := 0

/-- What stays of `skipsLine`. -/
def skipsLinePruned : Body :=
  { skipsLine with
    nodes := [.line 1, .operation (.branch (.goto ⟨0⟩)), .label ⟨0⟩, .operation (.branch .returnVoid)] }

theorem skipsLine_removeUnreachable :
    skipsLine.removeUnreachable skipsLineAnalysis = .ok skipsLinePruned := by
  unfold removeUnreachable
  simp [skipsLine, skipsLineAnalysis, skipsLinePruned, labelPositions, placeLabels, bind, Except.bind,
    pure, Except.pure, Analysis.kept, Analysis.nextIsLive, Analysis.isLive, Analysis.state?,
    Node.isOperation, Node.label?]

/-- The control flow of `skipsLine`. -/
def skipsLineFlow : Flow where
  nodes := skipsLine.nodes.toArray
  positions := (∅ : Std.HashMap Label Nat).insert ⟨0⟩ 5
  next := #[some 1, some 1, some 3, some 3, some 4, some 6, some 6, none]
  numbers := #[0, 0, 1, 1, 2, 3, 3, 4]

/-- The problem that `skipsLine` poses. -/
def skipsLineProblem : AnalysisProblem := ⟨skipsLineFlow, [], skipsThrowContext⟩

theorem skipsLine_flow : skipsLine.flow = .ok skipsLineFlow := by
  have hpositions : skipsLine.labelPositions = .ok skipsLineFlow.positions := by
    simp [skipsLine, skipsLineFlow, labelPositions, placeLabels, Node.label?]
  unfold flow
  rw [hpositions]
  rfl

theorem skipsLine_solve (resolver : Resolver) (visits : Nat) :
    skipsLineProblem.solve (visits + 2)
      (.start 7 1 ⟨[], ∅⟩ resolver) = .ok () ⟨skipsLineAnalysis, [], resolver⟩ := by
  have hbehind : skipsLineFlow.position ⟨0⟩ = .ok 5 :=
    ((flow_describes skipsLine_flow).position_ok _ _).2 rfl
  have hsuccessors : skipsLineProblem.successors 1 (.branch (.goto ⟨0⟩)) = .ok [6] := by
    simp only [AnalysisProblem.successors, Operation.targets, Branch.targets, List.mapM_cons,
      List.mapM_nil, AnalysisProblem.jumpTarget, skipsLineProblem, Flow.operationAt, hbehind]
    rfl
  have hjump : skipsLineProblem.visit 1
      ⟨⟨#[none, some ⟨[], ∅⟩, none, none, none, none, none], 0, 0⟩, [], resolver⟩ =
        .ok () ⟨skipsLineAnalysis, [6], resolver⟩ :=
    AnalysisProblem.visit_of_merges (.branch (.goto ⟨0⟩)) ⟨[], ∅⟩ ⟨[], ∅⟩ [6] rfl rfl rfl
      hsuccessors rfl
  have hreturn : skipsLineProblem.visit 6 ⟨skipsLineAnalysis, [], resolver⟩ =
      .ok () ⟨skipsLineAnalysis, [], resolver⟩ :=
    AnalysisProblem.visit_of_merges (.branch .returnVoid) ⟨[], ∅⟩ ⟨[], ∅⟩ [] rfl rfl rfl rfl rfl
  exact AnalysisProblem.solve_of_visit _ rfl hjump (AnalysisProblem.solve_of_visit _ rfl hreturn
    (AnalysisProblem.solve_done rfl visits))

theorem skipsLine_analyze (resolver : Resolver) :
    skipsLine.analyze ⟨[], ∅⟩ skipsThrowContext resolver = .ok skipsLineAnalysis resolver := by
  have hproblem : AnalysisProblem.ofBody skipsLine skipsThrowContext = .ok skipsLineProblem := by
    unfold AnalysisProblem.ofBody
    rw [skipsLine_flow]
    rfl
  refine analyze_of_solve ⟨skipsLineAnalysis, [], resolver⟩ hproblem rfl fun visits hle => ?_
  obtain ⟨more, rfl⟩ : ∃ more, visits = more + 2 :=
    Nat.exists_eq_add_of_le' (Nat.le_trans (show 2 ≤ skipsLine.nodes.length by decide) hle)
  exact skipsLine_solve resolver more

/-- The lines in force in the inlined form of `callsLined`, and in what stays of `skipsLine`. -/
theorem callsLined_lines : ∃ copies inlined, callsLined.inline ⟨1, 4⟩ = .ok (copies, inlined) ∧
    skipsLine.removeUnreachable skipsLineAnalysis = .ok skipsLinePruned ∧
    (∀ (place : Nat) operation, inlined.nodes[place]? = some (.operation operation) →
      lineInForce inlined.nodes place = (callsLined.copiedLines place).getLast?) ∧
    ∀ (place : Nat) operation, skipsLinePruned.nodes[place]? = some (.operation operation) →
      ∃ position, (skipsLineAnalysis.keptPositions skipsLine.nodes)[place]? = some position ∧
        lineInForce skipsLinePruned.nodes place =
          (skipsLineAnalysis.keptLines skipsLine.nodes position).getLast? := by
  obtain ⟨copies, inlined, hinline⟩ := callsLined_inline
  have ⟨hcopied, hkept⟩ := lines_follow_markers hinline skipsLine_removeUnreachable
  refine ⟨copies, inlined, hinline, skipsLine_removeUnreachable, ?_, ?_⟩
  · intro place operation hplace
    obtain ⟨_, _, _, _, _, _, _, _, hline, _⟩ := hcopied place operation hplace
    exact hline
  · intro place operation hplace
    obtain ⟨position, hposition, _, hline, _⟩ := hkept place operation hplace
    exact ⟨position, hposition, hline⟩

/-- The return in `callsLined` has the line of the subroutine when the call is inlined, and the
return in `skipsLine` loses its line with the code in front of it. -/
theorem callsLined_skipsLine_other_line :
    (∃ copies inlined, callsLined.inline ⟨1, 4⟩ = .ok (copies, inlined) ∧
      inlined.nodes[7]? = some (.operation (.branch .returnVoid)) ∧
      callsLined.origins[7]? = some [2] ∧
      callsLined.nodes[2]? = some (.operation (.branch .returnVoid)) ∧
      lineInForce inlined.nodes 7 = some 2 ∧ lineInForce callsLined.nodes 2 = some 1) ∧
    skipsLine.analyze ⟨[], ∅⟩ skipsThrowContext (.ofClassPath ∅) =
      .ok skipsLineAnalysis (.ofClassPath ∅) ∧
    skipsLine.removeUnreachable skipsLineAnalysis = .ok skipsLinePruned ∧
    (skipsLineAnalysis.keptPositions skipsLine.nodes)[3]? = some 6 ∧
    lineInForce skipsLinePruned.nodes 3 = some 1 ∧ lineInForce skipsLine.nodes 6 = some 2 := by
  refine ⟨?_, skipsLine_analyze _, skipsLine_removeUnreachable, by decide, by decide, by decide⟩
  obtain ⟨copies, inlined, hinline⟩ := callsLined_inline
  have hstands := inline_standsFor hinline
  have horigin : callsLined.origins[7]? = some [2] := by rw [callsLined_origins]; rfl
  have hlt : 7 < inlined.nodes.length := by
    rw [hstands.length_eq, callsLined_origins]
    decide
  have hnode := List.getElem?_eq_getElem hlt
  -- the last marker in front of the return is that of the subroutine
  have hline : lineInForce inlined.nodes 7 = some 2 := by
    rw [lineInForce_inlined hinline, copiedLines, callsLined_origins]
    rfl
  refine ⟨copies, inlined, hinline, ?_, horigin, rfl, hline, by decide⟩
  rw [hnode]
  -- the node is a copy of the return
  cases (forall₂_getElem? hstands hnode horigin).comes with
  | passed horiginal hno _ =>
    cases horiginal
    cases hno
  | copied names continuation horiginal hcopied =>
    cases horiginal
    exact congrArg some hcopied

end Body

end Preverification
