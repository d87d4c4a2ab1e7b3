import Preverification.Proofs.Decoding
import Preverification.Proofs.Origins

/-!
# Exception tables

The exception table of a body has entries for the handlers that protect operations, in the order of
the handlers. Around an operation there are the entries of the handlers that protect it, since the
offsets of a layout ascend just where there are operations.

* `Layout.Laid.lt_iff`: nodes take up room if there are operations among them.
* `Layout.Enters.protects_eq`: an operation is in the range of an entry if the handler protects it.
* `Layout.Places.tables`: the exception table of a body is made of entries for its handlers.
-/

namespace Preverification

/-- Whether a handler protects an operation. -/
def Handler.protectsOperation (handler : Handler) (nodes : List Node) : Bool :=
  (List.range nodes.length).any fun place =>
    nodes[place]?.any Node.isOperation && handler.protects nodes place

/-- A handler protects an operation if there is one in its range. -/
theorem Handler.protectsOperation_iff {handler : Handler} {nodes : List Node} :
    handler.protectsOperation nodes = true ↔ ∃ (place : Nat) (operation : Operation Label),
      nodes[place]? = some (.operation operation) ∧ handler.protects nodes place = true := by
  unfold protectsOperation
  simp only [List.any_eq_true, List.mem_range, Bool.and_eq_true, Option.any_eq_true]
  constructor
  · rintro ⟨place, _, ⟨node, hnode, hoperation⟩, hprotects⟩
    cases node with
    | operation operation => exact ⟨place, operation, hnode, hprotects⟩
    | label _ | line _ => cases hoperation
  · rintro ⟨place, operation, hnode, hprotects⟩
    exact ⟨place, (List.getElem?_eq_some_iff.1 hnode).1, ⟨_, hnode, rfl⟩, hprotects⟩

/-- Whether an offset is in the range of an entry. -/
def ExceptionEntry.protects (entry : ExceptionEntry) (offset : Nat) : Bool :=
  decide (entry.start.toNat ≤ offset) && decide (offset < entry.stop.toNat)

/-- Elements that are kept have results that are related to them, and the others have none. -/
theorem forall₂_filter_filterMap {α β : Type} {R : α → β → Prop} {p : α → Bool} {f : α → Option β}
    {l : List α} (hsome : ∀ a ∈ l, p a = true → ∃ b, f a = some b ∧ R a b)
    (hnone : ∀ a ∈ l, p a = false → f a = none) :
    List.Forall₂ R (l.filter p) (l.filterMap f) := by
  induction l with
  | nil => exact .nil
  | cons a l ih =>
    have hrest := ih (fun b hb => hsome b (.tail _ hb)) fun b hb => hnone b (.tail _ hb)
    cases hp : p a with
    | true =>
      rcases hsome a List.mem_cons_self hp with ⟨b, hb, hrelated⟩
      rw [List.filter_cons_of_pos hp, List.filterMap_cons_some hb]
      exact .cons hrelated hrest
    | false =>
      rw [List.filter_cons_of_neg (by simp [hp]),
        List.filterMap_cons_none (hnone a List.mem_cons_self hp)]
      exact hrest

namespace Layout

/-- The offset at which a node is laid out. -/
def offset? (layout : Layout) (place : Nat) : Option Nat := layout.nodes[place]?.map (·.2.1)

/-! ### Offsets ascend at operations -/

section Laid

variable {start stop place place' offset offset' : Nat} {laid : List (Node × Nat × Bool)}

/-- Nodes take up room if there are operations among them. -/
theorem Laid.lt_iff (h : Laid start laid stop) :
    start < stop ↔ ∃ entry ∈ laid, entry.1.isOperation = true := by
  induction h with
  | nil => simp
  | @cons node offset stop long rest hrest ih =>
    have hle := hrest.le
    rw [List.exists_mem_cons_iff]
    cases node with
    | label _ | line _ => exact ih.trans (or_iff_right nofun).symm
    | operation operation =>
      have hwidth := Operation.nodeWidth_pos long offset operation
      refine iff_of_true ?_ (.inl rfl)
      omega

/-- Nodes from a place on are laid out from the offset of that place on. -/
theorem Laid.cut (h : Laid start laid stop) (ho : laid[place]?.map (·.2.1) = some offset) :
    Laid start (laid.take place) offset ∧ Laid offset (laid.drop place) stop := by
  rcases Option.map_eq_some_iff.1 ho with ⟨⟨node, found, long⟩, hentry, rfl⟩
  rcases List.getElem?_eq_some_iff.1 hentry with ⟨hlt, hget⟩
  rw [← List.take_append_drop place laid] at h
  rcases laid_append.1 h with ⟨middle, hfront, hback⟩
  have hmiddle : middle = found := by
    rw [List.drop_eq_getElem_cons hlt, hget] at hback
    cases hback
    rfl
  rw [← hmiddle]
  exact ⟨hfront, hback⟩

/-- The nodes between two places are laid out from the offset of the first to that of the second
one. -/
theorem Laid.between (h : Laid start laid stop) (hle : place ≤ place')
    (ho : laid[place]?.map (·.2.1) = some offset)
    (ho' : laid[place']?.map (·.2.1) = some offset') :
    Laid offset ((laid.drop place).take (place' - place)) offset' := by
  refine ((h.cut ho).2.cut ?_).1
  rw [List.getElem?_drop, Nat.add_sub_cancel' hle]
  exact ho'

end Laid

section Places

variable {layout : Layout} {body : Body} {place place' offset offset' : Nat}

theorem Places.le (h : layout.Places body) (hle : place ≤ place')
    (ho : layout.offset? place = some offset) (ho' : layout.offset? place' = some offset') :
    offset ≤ offset' := (h.laid.between hle ho ho').le

/-- A node has a greater offset than another one if there is an operation between them. -/
theorem Places.lt_iff (h : layout.Places body) (hle : place ≤ place')
    (ho : layout.offset? place = some offset) (ho' : layout.offset? place' = some offset') :
    offset < offset' ↔ ∃ (passed : Nat) (operation : Operation Label), place ≤ passed ∧
      passed < place' ∧ body.nodes[passed]? = some (.operation operation) := by
  rw [(h.laid.between hle ho ho').lt_iff, ← h.nodes_eq]
  constructor
  · -- among the nodes in between, one that takes up room is an operation
    rintro ⟨⟨node, found, long⟩, hentry, hoperation⟩
    rcases List.mem_iff_getElem?.1 hentry with ⟨index, hindex⟩
    rw [List.getElem?_take, List.getElem?_drop] at hindex
    split at hindex
    · rename_i hlt
      cases node with
      | operation operation =>
        refine ⟨place + index, operation, Nat.le_add_right _ _, by omega, ?_⟩
        rw [List.getElem?_map, hindex]
        rfl
      | label _ | line _ => cases hoperation
    · cases hindex
  · rintro ⟨passed, operation, hpassed, hlt, hnode⟩
    rw [List.getElem?_map, Option.map_eq_some_iff] at hnode
    rcases hnode with ⟨entry, hentry, hoperation⟩
    refine ⟨entry, List.mem_iff_getElem?.2 ⟨passed - place, ?_⟩, by rw [hoperation]; rfl⟩
    rw [List.getElem?_take, if_pos (by omega), List.getElem?_drop, Nat.add_sub_cancel' hpassed]
    exact hentry

/-- Where control arrives without passing an operation, the offset is the same. -/
theorem Places.offset_eq_of_arrives (h : layout.Places body)
    (harrives : Arrives body.nodes place place') (ho : layout.offset? place = some offset)
    (ho' : layout.offset? place' = some offset') : offset' = offset := by
  have hle := h.le harrives.le ho ho'
  have hlt := h.lt_iff harrives.le ho ho'
  by_contra hne
  rcases hlt.1 (by omega) with ⟨passed, operation, hpassed, hbehind, hnode⟩
  exact harrives.between passed hpassed hbehind operation hnode

theorem Places.exists_offset (h : layout.Places body) {node : Node}
    (hnode : body.nodes[place]? = some node) : ∃ offset, layout.offset? place = some offset := by
  rw [← h.nodes_eq, List.getElem?_map, Option.map_eq_some_iff] at hnode
  rcases hnode with ⟨⟨_, offset, _⟩, hentry, rfl⟩
  exact ⟨offset, by simp [offset?, hentry]⟩

/-- A label stands at its offset. -/
theorem Places.exists_place (h : layout.Places body) {label : Label}
    (hlabel : layout.labelOffset label = .ok offset) :
    ∃ place, body.nodes[place]? = some (.label label) ∧ layout.offset? place = some offset := by
  rcases h.labelOffset_ok.1 hlabel with ⟨place, long, hentry⟩
  refine ⟨place, ?_, by simp [offset?, hentry]⟩
  rw [← h.nodes_eq, List.getElem?_map, hentry]
  rfl

theorem Places.uniqueLabels (h : layout.Places body) : UniqueLabels body.nodes := ⟨h.unique⟩

/-! ### Entries of handlers -/

/-- An entry stands for a handler: it has the offsets of the labels, and the offset of the operation
to which the label of the code leads. -/
structure Enters (layout : Layout) (nodes : List Node) (handler : Handler)
    (entry : ExceptionEntry) : Prop where
  start : layout.labelOffset handler.start = .ok entry.start.toNat
  stop : layout.labelOffset handler.stop = .ok entry.stop.toNat
  code : ∃ place, handler.handler.LeadsTo nodes place ∧
    layout.offset? place = some entry.handler.toNat
  caught : entry.caught = handler.caught

/-- An operation is in the range of an entry if the handler protects it. -/
theorem Enters.protects_eq (h : layout.Places body) {handler : Handler} {entry : ExceptionEntry}
    (henters : layout.Enters body.nodes handler entry) {operation : Operation Label}
    (hnode : body.nodes[place]? = some (.operation operation))
    (ho : layout.offset? place = some offset) :
    entry.protects offset = handler.protects body.nodes place := by
  rcases h.exists_place henters.start with ⟨start, hstart, hstartOffset⟩
  rcases h.exists_place henters.stop with ⟨stop, hstop, hstopOffset⟩
  -- the operation itself is behind the start, so offsets tell places apart
  have hlow : entry.start.toNat ≤ offset ↔ start ≤ place := by
    constructor
    · intro hle
      by_contra hlt
      have hless := (h.lt_iff (Nat.le_of_not_le hlt) ho hstartOffset).2
        ⟨place, operation, Nat.le_refl _, Nat.lt_of_not_le hlt, hnode⟩
      omega
    · exact fun hle => h.le hle hstartOffset ho
  -- likewise in front of the stop
  have hhigh : offset < entry.stop.toNat ↔ place < stop := by
    constructor
    · intro hlt
      by_contra hle
      have hless := h.le (Nat.le_of_not_lt hle) hstopOffset ho
      omega
    · exact fun hlt => (h.lt_iff (Nat.le_of_lt hlt) ho hstopOffset).2
        ⟨place, operation, Nat.le_refl _, hlt, hnode⟩
  rw [Bool.eq_iff_iff, h.uniqueLabels.protects_iff hstart hstop, ← hlow, ← hhigh]
  simp [ExceptionEntry.protects]

/-- The range of a handler takes up room if the handler protects an operation. -/
theorem Places.lt_iff_protectsOperation (h : layout.Places body) {handler : Handler}
    {low high : Nat} (hlow : layout.labelOffset handler.start = .ok low)
    (hhigh : layout.labelOffset handler.stop = .ok high) :
    low < high ↔ handler.protectsOperation body.nodes = true := by
  rcases h.exists_place hlow with ⟨start, hstart, hstartOffset⟩
  rcases h.exists_place hhigh with ⟨stop, hstop, hstopOffset⟩
  have hprotects : ∀ place, handler.protects body.nodes place = true ↔ start ≤ place ∧ place < stop :=
    fun _ => h.uniqueLabels.protects_iff hstart hstop
  simp only [Handler.protectsOperation_iff, hprotects]
  rcases Nat.le_total start stop with hle | hle
  · rw [h.lt_iff hle hstartOffset hstopOffset]
    constructor
    · rintro ⟨place, operation, hfirst, hlast, hnode⟩
      exact ⟨place, operation, hnode, hfirst, hlast⟩
    · rintro ⟨place, operation, hnode, hfirst, hlast⟩
      exact ⟨place, operation, hfirst, hlast, hnode⟩
  · have hless := h.le hle hstopOffset hstartOffset
    refine iff_of_false (by omega) ?_
    rintro ⟨place, _, _, hfirst, hlast⟩
    omega

/-- An exception table has the entries of the handlers that protect operations, and around each
operation it has those of the handlers that protect it. -/
structure Tables (layout : Layout) (body : Body) (exceptions : List ExceptionEntry) : Prop where
  entries : List.Forall₂ (layout.Enters body.nodes)
    (body.handlers.filter (·.protectsOperation body.nodes)) exceptions
  around : ∀ (place offset : Nat) (operation : Operation Label),
    body.nodes[place]? = some (.operation operation) → layout.offset? place = some offset →
      List.Forall₂ (layout.Enters body.nodes) (body.handlers.filter (·.protects body.nodes place))
        (exceptions.filter (·.protects offset))

/-- Of entries for the handlers that protect some operation, those around an operation belong to the
handlers that protect it. -/
theorem tables_of_entries (h : layout.Places body) {exceptions : List ExceptionEntry}
    (hentries : List.Forall₂ (layout.Enters body.nodes)
      (body.handlers.filter (·.protectsOperation body.nodes)) exceptions) :
    layout.Tables body exceptions := by
  refine ⟨hentries, fun place offset operation hnode ho => ?_⟩
  have haround := List.rel_filter (R := layout.Enters body.nodes)
    (p := (·.protects body.nodes place)) (q := (·.protects offset))
    (fun _ _ henters => Bool.eq_iff_iff.1 (henters.protects_eq h hnode ho).symm) hentries
  rw [List.filter_filter] at haround
  have hsame : body.handlers.filter (fun handler =>
      handler.protects body.nodes place && handler.protectsOperation body.nodes) =
        body.handlers.filter (·.protects body.nodes place) := by
    refine List.filter_congr fun handler _ => ?_
    cases hprotects : handler.protects body.nodes place with
    | false => rfl
    | true => exact Handler.protectsOperation_iff.2 ⟨place, operation, hnode, hprotects⟩
  rwa [hsame] at haround

/-- A handler that protects an operation has an entry. -/
theorem Places.guarded?_enters (h : layout.Places body) {handler : Handler}
    (hhandler : handler ∈ body.handlers)
    (hleads : ∃ target, handler.handler.LeadsTo body.nodes target)
    (hprotects : handler.protectsOperation body.nodes = true) :
    ∃ entry, layout.guarded? handler = some entry ∧ layout.Enters body.nodes handler entry := by
  obtain ⟨hstart, hstop, hcode⟩ := Body.referenced_of_handler hhandler
  have hlt := (h.lt_iff_protectsOperation (h.labelOffset hstart) (h.labelOffset hstop)).2 hprotects
  unfold guarded?
  rw [if_neg (Nat.not_le.2 hlt)]
  refine ⟨_, rfl, ?_, ?_, ?_, rfl⟩
  · rw [h.toNat_offsetOf hstart]
    exact h.labelOffset hstart
  · rw [h.toNat_offsetOf hstop]
    exact h.labelOffset hstop
  · rw [h.toNat_offsetOf hcode]
    rcases hleads with ⟨target, place, hplace, harrives⟩
    rcases h.exists_place (h.labelOffset hcode) with ⟨place', hplace', ho⟩
    obtain rfl := h.unique hplace hplace'
    rcases harrives.operation with ⟨operation, hnode⟩
    rcases h.exists_offset hnode with ⟨offset, ho'⟩
    refine ⟨target, ⟨place, hplace, harrives⟩, ?_⟩
    rw [ho', h.offset_eq_of_arrives harrives ho ho']

/-- The exception table of a body is made of entries for its handlers. -/
theorem Places.tables (h : layout.Places body)
    (hleads : ∀ handler ∈ body.handlers, ∃ target, handler.handler.LeadsTo body.nodes target)
    {extra : List Attribute} {code : Code} {pool pool' : Pool}
    (hencode : body.encode layout extra pool = .ok code pool') :
    layout.Tables body code.exceptions := by
  have hexceptions : code.exceptions = body.handlers.filterMap layout.guarded? := by
    obtain ⟨_, _, _, _, _, _, _, _, rfl⟩ := h.encode_ok_iff.1 hencode
    rfl
  rw [hexceptions]
  refine tables_of_entries h (forall₂_filter_filterMap ?_ ?_)
  · exact fun handler hhandler => h.guarded?_enters hhandler (hleads handler hhandler)
  · intro handler hhandler hprotects
    obtain ⟨hstart, hstop, -⟩ := Body.referenced_of_handler hhandler
    have hlt := h.lt_iff_protectsOperation (h.labelOffset hstart) (h.labelOffset hstop)
    rw [hprotects] at hlt
    unfold guarded?
    rw [if_pos (Nat.not_lt.1 fun hless => absurd (hlt.1 hless) (by decide))]

end Places

end Layout

end Preverification
