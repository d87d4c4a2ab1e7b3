import Preverification.Proofs.ControlFlow
import Preverification.Typing.Reachability
import Mathlib.Data.List.Range

/-!
# What stays of a body

Where unreachable code is left out, the nodes that stay keep their order. Labels all stay, and so
does whatever comes in front of an operation that can be reached. So control that arrived at such an
operation still arrives there.

* `Analysis.Stays`, `Analysis.Keeps`: which nodes stay, and that they are kept in order.
* `Analysis.keptPositions_keeps`: the positions that emission keeps are those.
* `Analysis.Keeps.arrives`: control that arrives at an operation that can be reached still arrives
  there.
* `Body.removeUnreachable_ok`: what is left of a body.
-/

namespace Preverification

namespace Analysis

/-- For nodes of which the first has a position, and for their end, whether the first operation from
there on can be reached. -/
def nextIsLiveFrom (analysis : Analysis) (start : Nat) (nodes : List Node) : List Bool :=
  (nodes.zipIdx start).foldr (fun (node, position) later =>
    (if node.isOperation then analysis.isLive position else later.headD false) :: later) [false]

/-- The list is made from its end. -/
theorem nextIsLiveFrom_cons (analysis : Analysis) (start : Nat) (node : Node) (nodes : List Node) :
    analysis.nextIsLiveFrom start (node :: nodes) =
      (if node.isOperation then analysis.isLive start
        else (analysis.nextIsLiveFrom (start + 1) nodes).headD false) ::
          analysis.nextIsLiveFrom (start + 1) nodes := rfl

/-- There is an element for each node, and one for the end. -/
theorem length_nextIsLiveFrom (analysis : Analysis) (start : Nat) (nodes : List Node) :
    (analysis.nextIsLiveFrom start nodes).length = nodes.length + 1 := by
  induction nodes generalizing start with
  | nil => rfl
  | cons node nodes ih => rw [nextIsLiveFrom_cons, List.length_cons, ih, List.length_cons]

/-- An element tells if the operation at which control arrives can be reached. -/
theorem nextIsLiveFrom_eq_true (analysis : Analysis) (start : Nat) (nodes : List Node)
    (position : Nat) : (analysis.nextIsLiveFrom start nodes)[position]? = some true ↔
      ∃ target, Arrives nodes position target ∧ analysis.isLive (start + target) := by
  induction nodes generalizing start position with
  | nil =>
    -- behind the last node nothing can be reached
    have hfalse : (analysis.nextIsLiveFrom start [])[position]? ≠ some true := by
      cases position <;> nofun
    constructor
    · intro h
      exact absurd h hfalse
    · rintro ⟨target, ht, _⟩
      exact absurd ht.lt_length (Nat.not_lt_zero target)
  | cons node nodes ih =>
    rw [nextIsLiveFrom_cons]
    cases position with
    | succ position =>
      rw [List.getElem?_cons_succ, ih]
      constructor
      · rintro ⟨target, ht, hlive⟩
        refine ⟨target + 1, arrives_cons_succ.2 ⟨target, rfl, ht⟩, ?_⟩
        rwa [Nat.add_right_comm, Nat.add_assoc] at hlive
      · rintro ⟨_, ht, hlive⟩
        rcases arrives_cons_succ.1 ht with ⟨target, rfl, ht'⟩
        refine ⟨target, ht', ?_⟩
        rwa [Nat.add_right_comm, Nat.add_assoc]
    | zero =>
      simp only [List.getElem?_cons_zero, Option.some.injEq, arrives_cons_zero]
      split
      · -- control stops at an operation
        constructor
        · intro hlive
          exact ⟨0, rfl, hlive⟩
        · rintro ⟨_, rfl, hlive⟩
          exact hlive
      · -- a label or a line is followed by what the next node is followed by
        have hhead : (analysis.nextIsLiveFrom (start + 1) nodes).headD false = true ↔
            (analysis.nextIsLiveFrom (start + 1) nodes)[0]? = some true := by
          cases analysis.nextIsLiveFrom (start + 1) nodes <;> simp
        rw [hhead, ih]
        constructor
        · rintro ⟨target, ht, hlive⟩
          refine ⟨target + 1, ⟨target, rfl, ht⟩, ?_⟩
          rwa [Nat.add_right_comm, Nat.add_assoc] at hlive
        · rintro ⟨_, ⟨target, rfl, ht⟩, hlive⟩
          refine ⟨target, ht, ?_⟩
          rwa [Nat.add_right_comm, Nat.add_assoc]

/-- A node stays if it is a label, or if the first operation from there on can be reached. -/
def Stays (analysis : Analysis) (nodes : List Node) (position : Nat) : Prop :=
  ∃ node, nodes[position]? = some node ∧
    (node.label?.isSome ∨ ∃ target, Arrives nodes position target ∧ analysis.isLive target)

theorem nextIsLive_eq (analysis : Analysis) (nodes : List Node) :
    analysis.nextIsLive nodes = analysis.nextIsLiveFrom 0 nodes := rfl

theorem length_kept (analysis : Analysis) (nodes : List Node) :
    (analysis.kept nodes).length = nodes.length := by
  unfold kept
  rw [List.length_zipWith, nextIsLive_eq, length_nextIsLiveFrom]
  exact Nat.min_eq_left (Nat.le_succ _)

/-- Just the nodes that stay are marked. -/
theorem kept_eq_true (analysis : Analysis) (nodes : List Node) (position : Nat) :
    (analysis.kept nodes)[position]? = some true ↔ analysis.Stays nodes position := by
  have hnext := analysis.nextIsLiveFrom_eq_true 0 nodes position
  have hlength := analysis.length_nextIsLiveFrom 0 nodes
  simp only [Nat.zero_add] at hnext
  unfold kept Stays
  rw [List.getElem?_zipWith, nextIsLive_eq, ← hnext]
  cases hnode : nodes[position]? with
  | none => simp
  | some node =>
    have hlt := (List.getElem?_eq_some_iff.1 hnode).1
    obtain ⟨isLive, hlive⟩ : ∃ isLive,
        (analysis.nextIsLiveFrom 0 nodes)[position]? = some isLive :=
      ⟨_, List.getElem?_eq_getElem (by omega)⟩
    rw [hlive]
    simp

/-- The nodes that stay stand at certain positions. -/
structure Keeps (analysis : Analysis) (nodes nodes' : List Node) (positions : List Nat) : Prop where
  nodes_eq : List.Forall₂ (fun position node => nodes[position]? = some node) positions nodes'
  ascending : positions.Pairwise (· < ·)
  mem : ∀ position, position ∈ positions ↔ analysis.Stays nodes position

/-- Of elements that are picked by a list, each one stands at a position that is picked. -/
theorem forall₂_picked {α : Type} (l : List α) (picks : List Bool) (start : Nat)
    (hlength : picks.length = l.length) :
    List.Forall₂ (fun position a => ∃ offset, position = start + offset ∧ l[offset]? = some a)
      ((picks.zipIdx start).filterMap fun (pick, position) => if pick then some position else none)
      ((l.zip picks).filterMap fun (a, pick) => if pick then some a else none) := by
  induction l generalizing picks start with
  | nil =>
    rw [List.length_eq_zero_iff.1 hlength]
    exact .nil
  | cons a l ih =>
    cases picks with
    | nil => cases hlength
    | cons pick picks =>
      -- what is picked later is one place further on
      have hrest : List.Forall₂ (fun position b => ∃ offset, position = start + offset ∧
          (a :: l)[offset]? = some b)
          ((picks.zipIdx (start + 1)).filterMap fun (pick, position) =>
            if pick then some position else none)
          ((l.zip picks).filterMap fun (a, pick) => if pick then some a else none) := by
        refine (ih picks (start + 1) (Nat.succ.inj hlength)).imp ?_
        rintro position b ⟨offset, rfl, hb⟩
        exact ⟨offset + 1, by omega, hb⟩
      rw [List.zipIdx_cons, List.zip_cons_cons, List.filterMap_cons, List.filterMap_cons]
      cases pick with
      | true => exact .cons ⟨0, rfl, rfl⟩ hrest
      | false => exact hrest

/-- The nodes that are marked, and their positions, keep their order. -/
theorem keptPositions_keeps (analysis : Analysis) (nodes : List Node) :
    analysis.Keeps nodes ((nodes.zip (analysis.kept nodes)).filterMap fun (node, stays) =>
      if stays then some node else none) (analysis.keptPositions nodes) where
  nodes_eq := by
    refine (forall₂_picked nodes (analysis.kept nodes) 0 (analysis.length_kept nodes)).imp ?_
    rintro position node ⟨offset, rfl, hnode⟩
    rwa [Nat.zero_add]
  ascending := by
    -- the positions are some of those of all nodes, in order
    have hpicked : analysis.keptPositions nodes =
        ((analysis.kept nodes).zipIdx.filter (·.1)).map (·.2) := by
      unfold keptPositions
      rw [← List.filterMap_eq_map, ← List.filterMap_eq_filter, List.filterMap_filterMap]
      refine List.filterMap_congr ?_
      rintro ⟨stays, position⟩ _
      cases stays <;> rfl
    rw [hpicked]
    have hrange : ((analysis.kept nodes).zipIdx.map (·.2)).Pairwise (· < ·) := by
      rw [List.zipIdx_map_snd]
      exact List.pairwise_lt_range'
    exact hrange.sublist (List.filter_sublist.map _)
  mem position := by
    rw [← kept_eq_true]
    unfold keptPositions
    rw [List.mem_filterMap]
    constructor
    · rintro ⟨⟨stays, found⟩, hmem, hfound⟩
      rw [List.mk_mem_zipIdx_iff_getElem?] at hmem
      cases stays with
      | true =>
        cases hfound
        exact hmem
      | false => cases hfound
    · intro hstays
      exact ⟨(true, position), List.mk_mem_zipIdx_iff_getElem?.2 hstays, rfl⟩

/-- All labels stay. -/
theorem stays_of_label {analysis : Analysis} {nodes : List Node} {position : Nat} {label : Label}
    (h : nodes[position]? = some (.label label)) : analysis.Stays nodes position :=
  ⟨_, h, .inl rfl⟩

/-- What comes in front of an operation that can be reached stays. -/
theorem stays_of_arrives {analysis : Analysis} {nodes : List Node} {position target : Nat}
    {node : Node} (h : nodes[position]? = some node) (ht : Arrives nodes position target)
    (hlive : analysis.isLive target) : analysis.Stays nodes position :=
  ⟨node, h, .inr ⟨target, ht, hlive⟩⟩

namespace Keeps

variable {analysis : Analysis} {nodes nodes' : List Node} {positions : List Nat}
  {place place' position position' : Nat}

/-- A node that stays is the same node. -/
theorem node (hk : analysis.Keeps nodes nodes' positions)
    (hposition : positions[place]? = some position) : nodes'[place]? = nodes[position]? := by
  have hlt := (List.getElem?_eq_some_iff.1 hposition).1
  have hlt' : place < nodes'.length := hk.nodes_eq.length_eq ▸ hlt
  have hnode := forall₂_getElem? hk.nodes_eq hposition (List.getElem?_eq_getElem hlt')
  rw [List.getElem?_eq_getElem hlt', hnode]

/-- A node that is there stood at a position that stays. -/
theorem exists_position (hk : analysis.Keeps nodes nodes' positions) {node : Node}
    (hnode : nodes'[place]? = some node) :
    ∃ position, positions[place]? = some position ∧ nodes[position]? = some node := by
  have hlt := (List.getElem?_eq_some_iff.1 hnode).1
  have hlt' : place < positions.length := hk.nodes_eq.length_eq ▸ hlt
  have hposition : positions[place]? = some positions[place] := List.getElem?_eq_getElem hlt'
  exact ⟨positions[place], hposition, (hk.node hposition).symm.trans hnode⟩

/-- Each position that stays has a place among those that are left. -/
theorem exists_place (hk : analysis.Keeps nodes nodes' positions)
    (hstays : analysis.Stays nodes position) :
    ∃ place : Nat, positions[place]? = some position :=
  List.mem_iff_getElem?.1 ((hk.mem position).2 hstays)

/-- An operation that stays can be reached. -/
theorem isLive (hk : analysis.Keeps nodes nodes' positions)
    (hposition : positions[place]? = some position) {operation : Operation Label}
    (ho : nodes[position]? = some (.operation operation)) : analysis.isLive position := by
  rcases (hk.mem position).1 (List.mem_of_getElem? hposition) with ⟨node, hnode, hlabel | hlive⟩
  · rw [ho] at hnode
    cases hnode
    cases hlabel
  · rcases hlive with ⟨target, ht, hlive⟩
    rw [ht.unique (.self ho)] at hlive
    exact hlive

/-- Nodes keep their order. -/
theorem le_iff (hk : analysis.Keeps nodes nodes' positions)
    (hposition : positions[place]? = some position)
    (hposition' : positions[place']? = some position') : place ≤ place' ↔ position ≤ position' := by
  rcases List.getElem?_eq_some_iff.1 hposition with ⟨hlt, rfl⟩
  rcases List.getElem?_eq_some_iff.1 hposition' with ⟨hlt', rfl⟩
  have hpairs := List.pairwise_iff_getElem.1 hk.ascending
  rcases Nat.lt_trichotomy place place' with hless | rfl | hless
  · have := hpairs place place' hlt hlt' hless
    omega
  · simp
  · have := hpairs place' place hlt' hlt hless
    omega

/-- Control that arrives at an operation that can be reached still arrives there. -/
theorem arrives (hk : analysis.Keeps nodes nodes' positions) {start target : Nat}
    (hstart : ∀ (later : Nat) (found : Nat), positions[later]? = some found →
      (place ≤ later ↔ start ≤ found))
    (ht : Arrives nodes start target) (hlive : analysis.isLive target) :
    ∃ place' : Nat, positions[place']? = some target ∧ Arrives nodes' place place' := by
  rcases ht.operation with ⟨operation, ho⟩
  rcases hk.exists_place (stays_of_arrives ho (.self ho) hlive) with ⟨place', hplace'⟩
  refine ⟨place', hplace', (hstart place' target hplace').2 ht.le,
    ⟨operation, (hk.node hplace').trans ho⟩, ?_⟩
  intro passed hle hlt found hfound
  rcases hk.exists_position hfound with ⟨position, hposition, hnode⟩
  -- what is passed was passed before
  refine ht.between position ((hstart passed position hposition).1 hle) ?_ found hnode
  have hless := hk.le_iff hplace' hposition
  omega

/-- From the place of a node that stays. -/
theorem arrives_from (hk : analysis.Keeps nodes nodes' positions) {target : Nat}
    (hposition : positions[place]? = some position) (ht : Arrives nodes position target)
    (hlive : analysis.isLive target) :
    ∃ place' : Nat, positions[place']? = some target ∧ Arrives nodes' place place' :=
  hk.arrives (fun _ _ hfound => hk.le_iff hposition hfound) ht hlive

/-- From behind a node that stays. -/
theorem arrives_behind (hk : analysis.Keeps nodes nodes' positions) {target : Nat}
    (hposition : positions[place]? = some position) (ht : Arrives nodes (position + 1) target)
    (hlive : analysis.isLive target) :
    ∃ place' : Nat, positions[place']? = some target ∧ Arrives nodes' (place + 1) place' := by
  refine hk.arrives (fun later found hfound => ?_) ht hlive
  have hless := hk.le_iff hfound hposition
  omega

/-- What stays right in front of a node comes right in front of it. -/
theorem pred (hk : analysis.Keeps nodes nodes' positions)
    (hposition : positions[place]? = some (position + 1))
    (hstays : analysis.Stays nodes position) :
    ∃ previous : Nat, place = previous + 1 ∧ positions[previous]? = some position := by
  rcases hk.exists_place hstays with ⟨previous, hprevious⟩
  refine ⟨previous, ?_, hprevious⟩
  have hless := hk.le_iff hposition hprevious
  by_contra hne
  -- otherwise there would be a node in between
  obtain ⟨between, hbetween⟩ : ∃ between : Nat, positions[previous + 1]? = some between :=
    ⟨_, List.getElem?_eq_getElem (by
      have := (List.getElem?_eq_some_iff.1 hposition).1
      omega)⟩
  have hfirst := hk.le_iff hbetween hprevious
  have hsecond := hk.le_iff hposition hbetween
  omega

end Keeps

end Analysis

/-- Leaving out unreachable code keeps the nodes that stay, and some of the handlers. -/
theorem Body.removeUnreachable_ok {analysis : Analysis} {body body' : Body}
    (h : body.removeUnreachable analysis = .ok body') :
    analysis.Keeps body.nodes body'.nodes (analysis.keptPositions body.nodes) ∧
      body'.handlers ⊆ body.handlers := by
  unfold removeUnreachable at h
  rcases except_bind_ok.1 h with ⟨positions, _, h⟩
  cases h
  exact ⟨analysis.keptPositions_keeps body.nodes, fun _ hmem => (List.mem_filter.1 hmem).1⟩

end Preverification
