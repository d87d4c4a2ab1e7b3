import Preverification.Body.Layout
import Preverification.Proofs.ControlFlow
import Preverification.Proofs.Operations

/-!
# Layouts

The nodes of a layout are laid out one after the other. Every label that something refers to has the
offset of the place where it is put, and every branch that can only reach so far reaches its
targets.

* `Layout.Laid`: nodes that are laid out one after the other.
* `Layout.lengthen_settle`: when jumps have settled, none of them has to be made long any more.
* `Layout.Places`: labels have the offsets of their places, and branches reach their targets.
* `Body.layout_ok`: a layout that is found is one of the body.
-/

namespace Preverification

namespace Layout

/-! ### One node after the other -/

/-- Nodes are laid out one after the other, from an offset on, and end at another one. -/
inductive Laid : (start : Nat) → List (Node × Nat × Bool) → (stop : Nat) → Prop where
  | nil {offset : Nat} : Laid offset [] offset
  | cons {node : Node} {offset stop : Nat} {long : Bool} {rest : List (Node × Nat × Bool)} :
    Laid (offset + nodeWidth node long offset) rest stop →
      Laid offset ((node, offset, long) :: rest) stop

section Laid

variable {start stop : Nat} {laid front back : List (Node × Nat × Bool)}

/-- Nodes are laid out in two parts. -/
theorem laid_append : Laid start (front ++ back) stop ↔
    ∃ middle, Laid start front middle ∧ Laid middle back stop := by
  induction front generalizing start with
  | nil =>
    constructor
    · exact fun h => ⟨start, .nil, h⟩
    · rintro ⟨_, ⟨⟩, h⟩
      exact h
  | cons entry front ih =>
    constructor
    · rintro (_ | h)
      obtain ⟨middle, hfront, hback⟩ := ih.1 h
      exact ⟨middle, .cons hfront, hback⟩
    · rintro ⟨middle, _ | hfront, hback⟩
      exact .cons (ih.2 ⟨middle, hfront, hback⟩)

theorem Laid.le (h : Laid start laid stop) : start ≤ stop := by
  induction h with
  | nil => exact Nat.le_refl _
  | cons _ ih => omega

/-- No node starts behind the end. -/
theorem Laid.offset_le {start stop offset : Nat} {node : Node} {long : Bool}
    {laid : List (Node × Nat × Bool)} (h : Laid start laid stop)
    (hmem : (node, offset, long) ∈ laid) : offset ≤ stop := by
  obtain ⟨front, back, rfl⟩ := List.append_of_mem hmem
  obtain ⟨middle, -, hback⟩ := laid_append.1 h
  have hle := hback.le
  cases hback
  exact hle

theorem length_offsetsFrom (done : List Nat) (offset : Nat) (nodes : List Node)
    (longs : List Bool) (h : longs.length = nodes.length) :
    (offsetsFrom done offset nodes longs).1.length = done.length + nodes.length := by
  induction nodes generalizing done offset longs with
  | nil => simp [offsetsFrom]
  | cons node nodes ih =>
    rcases longs with _ | ⟨long, longs⟩
    · cases h
    · rw [offsetsFrom, ih _ _ longs (Nat.succ.inj h)]
      simp only [List.length_cons]
      omega

/-- Offsets are worked out node by node. -/
theorem offsetsFrom_laid (done : List Nat) (start : Nat) (nodes : List Node) (longs : List Bool)
    (h : longs.length = nodes.length) :
    ∃ offsets stop, offsetsFrom done start nodes longs = (done.reverse ++ offsets, stop) ∧
      offsets.length = nodes.length ∧ Laid start (nodes.zip (offsets.zip longs)) stop := by
  induction nodes generalizing done start longs with
  | nil => exact ⟨[], start, by simp [offsetsFrom], rfl, .nil⟩
  | cons node nodes ih =>
    rcases longs with _ | ⟨long, longs⟩
    · cases h
    · obtain ⟨offsets, stop, hoffsets, hlength, hlaid⟩ :=
        ih (start :: done) (start + nodeWidth node long start) longs (Nat.succ.inj h)
      refine ⟨start :: offsets, stop, ?_, congrArg Nat.succ hlength, .cons hlaid⟩
      rw [offsetsFrom, hoffsets, List.reverse_cons, List.append_assoc, List.singleton_append]

end Laid

/-! ### Long jumps -/

theorem length_lengthen (nodes : List Node) (longs : List Bool)
    (h : longs.length = nodes.length) : (lengthen nodes longs).length = nodes.length := by
  have hoffsets := length_offsetsFrom [] 0 nodes longs h
  simp only [lengthen, List.length_zipWith, hoffsets, h]
  simp

theorem length_settle (nodes : List Node) (longs : List Bool) (h : longs.length = nodes.length) :
    (settle nodes longs).length = nodes.length := by
  induction longs using settle.induct nodes with
  | case1 longs _ ih =>
    rw [settle, if_pos ‹_›]
    exact ih (length_lengthen nodes longs h)
  | case2 longs _ =>
    rw [settle, if_neg ‹_›]
    exact h

/-- Jumps only ever become longer. -/
theorem count_zipWith_or_le (longs needed : List Bool) :
    (List.zipWith (· || ·) longs needed).count false ≤ longs.count false := by
  induction longs generalizing needed with
  | nil => simp
  | cons long longs ih =>
    rcases needed with _ | ⟨need, needed⟩
    · exact Nat.zero_le _
    · have hrest := ih needed
      cases long <;> cases need <;> simp only [List.zipWith_cons_cons, Bool.or_self, Bool.or_true,
        Bool.true_or, List.count_cons] <;> simp <;> omega

/-- Choices that are only ever changed to `true` have not changed if there is no less `false`. -/
theorem eq_of_count_false {longs needed : List Bool} (hlength : needed.length = longs.length)
    (h : longs.count false ≤ (List.zipWith (· || ·) longs needed).count false) :
    List.zipWith (· || ·) longs needed = longs := by
  induction longs generalizing needed with
  | nil => simp
  | cons long longs ih =>
    rcases needed with _ | ⟨need, needed⟩
    · cases hlength
    · have hrest := count_zipWith_or_le longs needed
      rw [List.zipWith_cons_cons] at h ⊢
      cases long with
      | true =>
        simp only [Bool.true_or, List.count_cons] at h ⊢
        rw [ih (Nat.succ.inj hlength) (Nat.le_of_add_le_add_right h)]
      -- a jump that becomes long would make one `false` less
      | false =>
        cases need with
        | true =>
          simp only [Bool.or_true, List.count_cons] at h
          simp at h
          omega
        | false =>
          simp only [Bool.or_self, List.count_cons] at h ⊢
          rw [ih (Nat.succ.inj hlength) (Nat.le_of_add_le_add_right h)]

/-- When jumps have settled, none of them has to be made long any more. -/
theorem lengthen_settle (nodes : List Node) (longs : List Bool)
    (h : longs.length = nodes.length) :
    lengthen nodes (settle nodes longs) = settle nodes longs := by
  induction longs using settle.induct nodes with
  | case1 longs _ ih =>
    rw [settle, if_pos ‹_›]
    exact ih (length_lengthen nodes longs h)
  | case2 longs hcount =>
    rw [settle, if_neg hcount]
    have hoffsets := length_offsetsFrom [] 0 nodes longs h
    refine eq_of_count_false ?_ (Nat.not_lt.1 hcount)
    rw [List.length_zipWith, hoffsets, h]
    simp

/-- Short jumps are settled if none needs to be long at the offsets that follow from them. -/
theorem settle_of_short {nodes : List Node} {offsets : List Nat} {stop : Nat}
    (hoffsets : offsetsFrom [] 0 nodes (nodes.map fun _ => false) = (offsets, stop))
    (hshort : ∀ entry ∈ nodes.zip offsets,
      needsLong (labelOffsets nodes offsets) entry.1 entry.2 = false) :
    settle nodes (nodes.map fun _ => false) = nodes.map fun _ => false := by
  have hlength : offsets.length = nodes.length := by
    have hall := length_offsetsFrom [] 0 nodes (nodes.map fun _ => false) (List.length_map _)
    rw [hoffsets] at hall
    simpa using hall
  have hsettled : lengthen nodes (nodes.map fun _ => false) = nodes.map fun _ => false := by
    unfold lengthen
    rw [hoffsets]
    refine List.ext_getElem (by simp [hlength]) fun place hplace hplace' => ?_
    have hlt : place < nodes.length := by simpa using hplace'
    have hentry : (nodes[place], offsets[place]) ∈ nodes.zip offsets :=
      List.mem_of_getElem? (List.getElem?_zip_eq_some.2
        ⟨List.getElem?_eq_getElem hlt, List.getElem?_eq_getElem (hlength ▸ hlt)⟩)
    simp [hshort _ hentry]
  rw [settle, hsettled, if_neg (Nat.lt_irrefl _)]

/-- A jump that is short when all jumps have settled does not need to be long. -/
theorem needsLong_eq_false {nodes : List Node} {offsets : List Nat} {longs : List Bool} {place : Nat}
    {node : Node} {offset stop : Nat} (hsettled : lengthen nodes longs = longs)
    (hoffsets : offsetsFrom [] 0 nodes longs = (offsets, stop)) (hnode : nodes[place]? = some node)
    (hoffset : offsets[place]? = some offset) (hlong : longs[place]? = some false) :
    needsLong (labelOffsets nodes offsets) node offset = false := by
  have hplace := congrArg (·[place]?) hsettled
  simpa [lengthen, hoffsets, List.getElem?_zipWith, hnode, hoffset, hlong] using hplace

/-- Conditional branches that are not out of reach, and jumps that stay short, reach their
targets. -/
theorem isShort_of_isNear {nodes : List Node} {offsets : List Nat} {longs : List Bool} {place : Nat}
    {operation : Operation Label} {offset stop : Nat} {long : Bool} {label : Label}
    (hsettled : lengthen nodes longs = longs)
    (hoffsets : offsetsFrom [] 0 nodes longs = (offsets, stop))
    (hnode : nodes[place]? = some (.operation operation)) (hoffset : offsets[place]? = some offset)
    (hlong : longs[place]? = some long)
    (hreach : outOfReach? (labelOffsets nodes offsets) (.operation operation) offset = none)
    (hnear : operation.isNear long = true) (hlabel : label ∈ operation.targets) :
    isShort offset ((labelOffsets nodes offsets).getD label 0) = true := by
  -- a jump that stays short has settled
  have hjump : jumpTarget? (.operation operation) = some label → long = false →
      isShort offset ((labelOffsets nodes offsets).getD label 0) = true := by
    rintro hjump rfl
    have hneeds := needsLong_eq_false hsettled hoffsets hnode hoffset hlong
    unfold needsLong at hneeds
    rw [hjump] at hneeds
    simpa using hneeds
  -- a conditional branch has no long form, and was checked
  have hconditional : ∀ b : Branch Label, operation = .branch b → b.isConditional = true →
      isShort offset ((labelOffsets nodes offsets).getD label 0) = true := by
    rintro b rfl hconditional
    unfold outOfReach? at hreach
    dsimp only at hreach
    rw [if_pos hconditional, List.find?_eq_none] at hreach
    simpa using hreach label hlabel
  cases operation with
  | step instruction => cases hnear
  | branch b =>
    cases b with
    | goto found =>
      obtain rfl := List.mem_singleton.1 hlabel
      exact hjump rfl (by simpa [Operation.isNear, Branch.isNear] using hnear)
    | jsr found =>
      obtain rfl := List.mem_singleton.1 hlabel
      exact hjump rfl (by simpa [Operation.isNear, Branch.isNear] using hnear)
    | _ => exact hconditional _ rfl hnear

/-! ### Labels -/

/-- Notes the offset of a node that puts a label. -/
def noteLabel (labels : Std.HashMap Label Nat) (entry : Node × Nat) : Std.HashMap Label Nat :=
  match entry.1.label? with
  | some label => labels.insert label entry.2
  | none => labels

/-- A node notes its offset for the label that it puts, and no other. -/
theorem getElem?_noteLabel (labels : Std.HashMap Label Nat) (node : Node) (first : Nat)
    (label : Label) : (noteLabel labels (node, first))[label]? =
      if node = .label label then some first else labels[label]? := by
  cases node with
  | label found =>
    change (labels.insert found first)[label]? = _
    rw [Std.HashMap.getElem?_insert]
    simp
  | line | operation => rfl

/-- Labels that are passed are noted, besides those that are known already. -/
theorem foldl_noteLabel {nodes : List Node} {offsets : List Nat} {label : Label} (offset : Nat)
    (labels : Std.HashMap Label Nat) (hlength : offsets.length = nodes.length)
    (hunique : ∀ {place place' : Nat}, nodes[place]? = some (Node.label label) →
      nodes[place']? = some (Node.label label) → place = place') :
    ((nodes.zip offsets).foldl noteLabel labels)[label]? = some offset ↔
      (∃ place : Nat, nodes[place]? = some (Node.label label) ∧ offsets[place]? = some offset) ∨
        Node.label label ∉ nodes ∧ labels[label]? = some offset := by
  induction nodes generalizing offsets labels with
  | nil => simp
  | cons node nodes ih =>
    rcases offsets with _ | ⟨first, offsets⟩
    · cases hlength
    · have hrest := ih (noteLabel labels (node, first)) (Nat.succ.inj hlength)
        fun h h' => Nat.succ.inj (@hunique (_ + 1) (_ + 1) h h')
      -- a place is the first one, or it is among the others
      have hsplit : (∃ place : Nat, (node :: nodes)[place]? = some (Node.label label) ∧
          (first :: offsets)[place]? = some offset) ↔
          (node = Node.label label ∧ first = offset) ∨ ∃ place : Nat,
            nodes[place]? = some (Node.label label) ∧ offsets[place]? = some offset := by
        constructor
        · rintro ⟨_ | place, hnode, hoffset⟩
          · exact .inl ⟨Option.some.inj hnode, Option.some.inj hoffset⟩
          · exact .inr ⟨place, hnode, hoffset⟩
        · rintro (⟨rfl, rfl⟩ | ⟨place, hnode, hoffset⟩)
          · exact ⟨0, rfl, rfl⟩
          · exact ⟨place + 1, hnode, hoffset⟩
      rw [List.zip_cons_cons, List.foldl_cons, hrest, hsplit, List.mem_cons, not_or,
        getElem?_noteLabel]
      by_cases heq : node = .label label
      · subst heq
        -- the label is not put anywhere behind
        have hnone : Node.label label ∉ nodes := by
          intro hmem
          obtain ⟨place, hplace⟩ := List.mem_iff_getElem?.1 hmem
          cases @hunique 0 (place + 1) rfl hplace
        have hnot : ¬ ∃ place : Nat, nodes[place]? = some (Node.label label) ∧
            offsets[place]? = some offset := by
          rintro ⟨place, hplace, -⟩
          exact hnone (List.mem_of_getElem? hplace)
        simp [hnone, hnot]
      · simp [heq, Ne.symm heq]

/-- The offset of a label is that of the place where it is put. -/
theorem labelOffsets_eq_some {nodes : List Node} {offsets : List Nat} {label : Label} {offset : Nat}
    (hlength : offsets.length = nodes.length)
    (hunique : ∀ {place place' : Nat}, nodes[place]? = some (Node.label label) →
      nodes[place']? = some (Node.label label) → place = place') :
    (labelOffsets nodes offsets)[label]? = some offset ↔
      ∃ place : Nat, nodes[place]? = some (Node.label label) ∧ offsets[place]? = some offset := by
  have hfold := foldl_noteLabel offset ∅ hlength hunique
  simp only [Std.HashMap.getElem?_empty, reduceCtorEq, and_false, or_false] at hfold
  exact hfold

end Layout

/-- A layout lays out the nodes of a body. -/
structure Layout.Places (layout : Layout) (body : Body) : Prop where
  nodes_eq : layout.nodes.map (·.1) = body.nodes
  laid : Layout.Laid 0 layout.nodes layout.codeLength
  codeLength_le : layout.codeLength ≤ Layout.maxCodeLength
  unique : ∀ {label : Label} {place place' : Nat}, body.nodes[place]? = some (Node.label label) →
    body.nodes[place']? = some (Node.label label) → place = place'
  labelOffset_ok : ∀ {label : Label} {offset : Nat}, layout.labelOffset label = .ok offset ↔
    ∃ (place : Nat) (long : Bool), layout.nodes[place]? = some (Node.label label, offset, long)
  placed : ∀ label ∈ body.referencedLabels, Node.label label ∈ body.nodes
  near : ∀ {operation : Operation Label} {offset : Nat} {long : Bool},
    (Node.operation operation, offset, long) ∈ layout.nodes → operation.isNear long = true →
      ∀ label ∈ operation.targets, ∀ target, layout.labelOffset label = .ok target →
        Layout.isShort offset target = true

namespace Body

variable {body : Body} {layout : Layout}

/-- Labels that pass the check are put once, and wherever something refers to one it is put. -/
theorem checkLabels_ok (h : body.checkLabels = .ok ()) :
    (∀ {label : Label} {place place' : Nat}, body.nodes[place]? = some (Node.label label) →
      body.nodes[place']? = some (Node.label label) → place = place') ∧
    ∀ label ∈ body.referencedLabels, Node.label label ∈ body.nodes := by
  obtain ⟨positions, hpositions, h⟩ := except_bind_ok.1 h
  constructor
  · intro label place place' hplace hplace'
    rw [← labelPositions_ok hpositions] at hplace hplace'
    exact Option.some.inj (hplace.symm.trans hplace')
  · split at h
    · cases h
    · rename_i hall
      intro label hmem
      have hcontains := List.find?_eq_none.1 hall label hmem
      obtain ⟨place, hplace⟩ : ∃ place, positions[label]? = some place := by
        rw [← Option.isSome_iff_exists, ← Std.HashMap.isSome_getElem?_iff_mem.symm.eq]
        simpa using hcontains
      exact List.mem_of_getElem? ((labelPositions_ok hpositions label place).1 hplace)

/-- Labels that differ pass the check if everything that refers to one refers to one that is put. -/
theorem checkLabels_of_placed (hnodup : (body.nodes.filterMap Node.label?).Nodup)
    (hplaced : ∀ label ∈ body.referencedLabels, Node.label label ∈ body.nodes) :
    body.checkLabels = .ok () := by
  obtain ⟨positions, hpositions⟩ := exists_labelPositions hnodup
  have hnone : body.referencedLabels.find? (fun label => !positions.contains label) = none := by
    refine List.find?_eq_none.2 fun label hlabel => ?_
    obtain ⟨place, hplace⟩ := List.mem_iff_getElem?.1 (hplaced label hlabel)
    have hfound := (labelPositions_ok hpositions label place).2 hplace
    simp [Std.HashMap.contains_eq_isSome_getElem?, hfound]
  refine except_bind_ok.2 ⟨positions, hpositions, ?_⟩
  rw [hnone]
  rfl

/-- The offset of a label is what the table of labels says. -/
theorem labelOffset_ok {label : Label} {offset : Nat} :
    layout.labelOffset label = .ok offset ↔ layout.labels[label]? = some offset := by
  unfold Layout.labelOffset
  rcases layout.labels[label]? with _ | found
  · exact ⟨nofun, nofun⟩
  · exact ⟨fun h => congrArg some (Except.ok.inj h), fun h => congrArg Except.ok (Option.some.inj h)⟩

/-- A layout with short jumps is that of a body if they and all conditional branches reach their
targets. -/
theorem layout_of_short (offsets : List Nat) (hcheck : body.checkLabels = .ok ())
    (hoffsets : Layout.offsetsFrom [] 0 body.nodes (body.nodes.map fun _ => false) =
      (offsets, layout.codeLength))
    (hnodes : layout.nodes = body.nodes.zip (offsets.zip (body.nodes.map fun _ => false)))
    (hlabels : layout.labels = Layout.labelOffsets body.nodes offsets)
    (hshort : ∀ entry ∈ body.nodes.zip offsets,
      Layout.needsLong layout.labels entry.1 entry.2 = false)
    (hreach : ∀ entry ∈ layout.nodes, Layout.outOfReach? layout.labels entry.1 entry.2.1 = none)
    (hle : layout.codeLength ≤ Layout.maxCodeLength) : body.layout = .ok layout := by
  have hnone : (body.nodes.zip (offsets.zip (body.nodes.map fun _ => false))).findSome?
      (fun entry => Layout.outOfReach? (Layout.labelOffsets body.nodes offsets) entry.1
        entry.2.1) = none := by
    rw [List.findSome?_eq_none_iff, ← hnodes, ← hlabels]
    exact hreach
  unfold Body.layout
  rw [hcheck, Layout.settle_of_short hoffsets (hlabels ▸ hshort)]
  dsimp only [bind, Except.bind]
  rw [hoffsets]
  dsimp only
  rw [hnone]
  dsimp only
  rw [if_pos hle, ← hnodes, ← hlabels]
  rfl

/-- A layout that is found puts each label where it is placed, and all branches within reach. -/
theorem layout_ok (h : body.layout = .ok layout) : layout.Places body := by
  unfold Body.layout at h
  obtain ⟨_, hcheck, h⟩ := except_bind_ok.1 h
  obtain ⟨hunique, hplaced⟩ := checkLabels_ok hcheck
  have hlongs := Layout.length_settle body.nodes (body.nodes.map fun _ => false) (by simp)
  have hsettled := Layout.lengthen_settle body.nodes (body.nodes.map fun _ => false) (by simp)
  -- which jumps are long does not matter for what follows
  obtain ⟨longs, hlongsEq⟩ : ∃ longs,
      longs = Layout.settle body.nodes (body.nodes.map fun _ => false) := ⟨_, rfl⟩
  rw [← hlongsEq] at h hlongs hsettled
  obtain ⟨offsets, stop, hoffsets, hlength, hlaid⟩ :=
    Layout.offsetsFrom_laid [] 0 body.nodes longs hlongs
  dsimp only at h
  rw [hoffsets, List.reverse_nil, List.nil_append] at h
  dsimp only at h
  split at h
  · cases h
  · rename_i hreach
    split at h
    · rename_i hle
      obtain rfl := Except.ok.inj h
      -- a node, its offset and its form stand at the same place
      have hpair : ∀ {place : Nat} {node : Node} {offset : Nat} {long : Bool},
          (body.nodes.zip (offsets.zip longs))[place]? = some (node, offset, long) ↔
            body.nodes[place]? = some node ∧ offsets[place]? = some offset ∧
              longs[place]? = some long := by
        intro place node offset long
        rw [List.getElem?_zip_eq_some, List.getElem?_zip_eq_some]
      -- each label has the offset of its place
      have hlabel : ∀ {label : Label} {offset : Nat},
          (Layout.labelOffsets body.nodes offsets)[label]? = some offset ↔
            ∃ place : Nat, body.nodes[place]? = some (Node.label label) ∧
              offsets[place]? = some offset :=
        Layout.labelOffsets_eq_some hlength hunique
      refine ⟨?_, hlaid, hle, hunique, ?_, hplaced, ?_⟩
      · refine List.map_fst_zip ?_
        rw [List.length_zip, hlength, hlongs, Nat.min_self]
      · intro label offset
        rw [labelOffset_ok, hlabel]
        constructor
        · rintro ⟨place, hnode, hoffset⟩
          have hlt : place < longs.length := by
            rw [hlongs]
            exact (List.getElem?_eq_some_iff.1 hnode).1
          exact ⟨place, longs[place], hpair.2 ⟨hnode, hoffset, List.getElem?_eq_getElem hlt⟩⟩
        · rintro ⟨place, long, hentry⟩
          obtain ⟨hnode, hoffset, -⟩ := hpair.1 hentry
          exact ⟨place, hnode, hoffset⟩
      · -- what is not out of reach is near
        intro operation offset long hentry hnear label hlabelMem target htarget
        obtain ⟨place, hplace⟩ := List.mem_iff_getElem?.1 hentry
        obtain ⟨hnode, hoffset, hlong⟩ := hpair.1 hplace
        rw [labelOffset_ok] at htarget
        have hget : (Layout.labelOffsets body.nodes offsets).getD label 0 = target := by
          rw [Std.HashMap.getD_eq_getD_getElem?, htarget]
          rfl
        have hnone := List.findSome?_eq_none_iff.1 hreach _ hentry
        rw [← hget]
        exact Layout.isShort_of_isNear hsettled hoffsets hnode hoffset hlong hnone hnear hlabelMem
    · cases h

theorem length_layout (h : body.layout = .ok layout) :
    layout.nodes.length = body.nodes.length := by
  rw [← (layout_ok h).nodes_eq, List.length_map]

end Body

end Preverification
