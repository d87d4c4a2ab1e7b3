import Preverification.Body.Decode
import Preverification.Body.Encode
import Preverification.Proofs.Layouts
import Preverification.Proofs.PoolEdits

/-!
# The bytes of a layout

The operations of a layout are written one after the other, each at its offset. When these bytes are
read, the same operations are found at the same offsets, and the places that they name are the
offsets of their labels.

* `Layout.Places.bytecode_eq`: the code of a layout has the bytes of its nodes, one after the other.
* `Layout.Places.ofBytes_eq`: when the bytes of a layout are read, its operations are found.
* `Layout.Places.encode_ok`, `Layout.Places.encode_of_writes`: what encoding writes, and when it
  writes the same again.
-/

namespace Preverification

open Reader

/-! ### Places of branches -/

namespace Branch

variable {L M N ε : Type}

/-- If all places have replacements, they are replaced by them. -/
theorem resolve_ok {f : L → Except ε M} {g : L → M} {b : Branch L}
    (h : ∀ target ∈ b.targets, f target = .ok (g target)) : b.resolve f = .ok (b.map g) := by
  cases b with
  | ifInt test target | ifInts test target | ifRefs test target | ifNull test target
  | goto target | jsr target =>
    have htarget := List.forall_mem_singleton.1 h
    unfold resolve
    dsimp only
    rw [htarget]
    rfl
  | ret _ | returnValue _ | returnVoid | throwException => rfl
  | tableSwitch low default targets =>
    obtain ⟨hdefault, htargets⟩ := List.forall_mem_cons.1 h
    exact except_bind_ok.2 ⟨g default, hdefault,
      except_bind_ok.2 ⟨_, except_mapM_eq_map htargets, rfl⟩⟩
  | lookupSwitch default cases =>
    obtain ⟨hdefault, hcases⟩ := List.forall_mem_cons.1 h
    refine except_bind_ok.2 ⟨g default, hdefault, except_bind_ok.2
      ⟨cases.map fun case => (case.1, g case.2), except_mapM_eq_map ?_, rfl⟩⟩
    rintro ⟨key, target⟩ hcase
    have htarget : f target = .ok (g target) := hcases _ (List.mem_map_of_mem hcase)
    dsimp only
    rw [htarget]
    rfl

/-- The number of bytes of a branch. -/
theorem length_write (long : Bool) (offset : Nat) (b : Branch L) (f : L → Int) :
    ((b.map f).write long offset).length = b.width long offset := by
  cases b with
  | ifInt _ _ | ifInts _ _ | ifRefs _ _ | ifNull _ _ =>
    simp [map, write, width, writeShort, Bytes.ofInt16]
  | goto _ | jsr _ =>
    cases long <;> simp [map, write, width, writeShort, writeLong, Bytes.ofInt16, Bytes.ofInt32]
  | ret slot =>
    simp only [map, write, width]
    split <;> simp
  -- switches are padded to a multiple of four bytes
  | tableSwitch low default targets =>
    simp [map, write, width, writeLong, Bytes.ofInt32, Function.comp_def]
    omega
  | lookupSwitch default cases =>
    simp [map, write, width, writeLong, Bytes.ofInt32, Function.comp_def]
    omega
  | returnValue _ | returnVoid | throwException => rfl

/-- Distances that are within reach fit into the bytes that a branch has for them. -/
theorem hasRoom_map {long : Bool} {b : Branch L} {f : L → Int}
    (hlong : ∀ target ∈ b.targets, isLong (f target) = true)
    (hnear : b.isNear long = true → ∀ target ∈ b.targets, isShort (f target) = true) :
    (b.map f).hasRoom long = true := by
  cases b with
  | ifInt _ target | ifInts _ target | ifRefs _ target | ifNull _ target =>
    exact hnear rfl target List.mem_cons_self
  -- a jump has the room that its form has
  | goto target | jsr target =>
    cases long with
    | false => exact hnear rfl target List.mem_cons_self
    | true => exact hlong target List.mem_cons_self
  | tableSwitch low default targets =>
    obtain ⟨hdefault, htargets⟩ := List.forall_mem_cons.1 hlong
    simpa [map, hasRoom, hdefault] using htargets
  | lookupSwitch default cases =>
    obtain ⟨hdefault, hcases⟩ := List.forall_mem_cons.1 hlong
    simp only [List.forall_mem_map] at hcases
    simpa [map, hasRoom, hdefault] using fun key target hcase => hcases (key, target) hcase
  | ret _ | returnValue _ | returnVoid | throwException => rfl

/-- A branch has at least its opcode. -/
theorem width_pos (long : Bool) (offset : Nat) (b : Branch L) : 0 < b.width long offset := by
  cases b with
  | goto _ | jsr _ => cases long <;> exact Nat.zero_lt_succ _
  | ret slot =>
    simp only [width]
    split <;> exact Nat.zero_lt_succ _
  | tableSwitch _ _ _ | lookupSwitch _ _ =>
    simp only [width]
    omega
  | _ => exact Nat.zero_lt_succ _

end Branch

/-- An instruction has as many bytes as its width says. -/
theorem Instruction.length_write (instruction : Instruction) :
    instruction.write.length = width instruction := by
  cases instruction with
  | loadConstant _ | increment _ _ =>
    simp only [write, width]
    split <;> simp [Bytes.ofInt8, Bytes.ofInt16]
  | load kind slot | store kind slot =>
    simp only [write, width, writeLocal, localBytes]
    split
    · rfl
    · split <;> simp
  | invoke kind _ => cases kind <;> rfl
  | _ => rfl

/-- An instruction has at least one byte. -/
theorem Instruction.length_write_pos (instruction : Instruction) : 0 < instruction.write.length := by
  cases instruction with
  | loadConstant _ | increment _ _ =>
    rw [Instruction.write]
    split <;> exact Nat.zero_lt_succ _
  | load kind slot | store kind slot =>
    rw [Instruction.write, Instruction.writeLocal]
    split
    · exact Nat.zero_lt_succ _
    · split <;> exact Nat.zero_lt_succ _
  | invoke kind _ => cases kind <;> exact Nat.zero_lt_succ _
  | _ => exact Nat.zero_lt_succ _

namespace Operation

/-- Replacing places changes no operands. -/
theorem fits_map {L M : Type} {pool : Pool} {f : L → M} {operation : Operation L} :
    (operation.map f).Fits pool ↔ operation.Fits pool := by
  cases operation with
  | step _ => rfl
  | branch b => cases b <;> simp [map, Fits, Branch.map, Branch.Fits]

theorem isNear_map {L M : Type} (f : L → M) (long : Bool) (operation : Operation L) :
    (operation.map f).isNear long = operation.isNear long := by
  cases operation with
  | step _ => rfl
  | branch b => cases b <;> rfl

/-- Operands that make sense do so when there are more constants. -/
theorem Fits.extends {L : Type} {pool pool' : Pool} {operation : Operation L}
    (h : operation.Fits pool) (hextends : pool.Extends pool') (hbuilt : pool.Built) :
    operation.Fits pool' := by
  cases operation with
  | branch _ => exact h
  | step instruction =>
    cases instruction with
    | loadConstant _ | loadWideConstant _ => exact hextends.loadableIndex hbuilt h
    | getStatic _ | putStatic _ | getField _ | putField _ => exact hextends.fieldRefIndex hbuilt h
    | invoke _ _ => exact ⟨hextends.methodRefIndex hbuilt h.1, h.2⟩
    | invokeDynamic _ => exact hextends.invokeDynamicIndex hbuilt h
    | new _ | newRefArray _ | checkCast _ | instanceOf _ => exact hextends.classIndex hbuilt h
    | newMultiArray _ _ => exact ⟨hextends.classIndex hbuilt h.1, h.2⟩
    | _ => trivial

/-- The number of bytes of an operation. -/
theorem length_write (long : Bool) (offset : Nat) (operation : Operation Label) (f : Label → Nat) :
    ((operation.map f).write long offset).length =
      Layout.nodeWidth (.operation operation) long offset := by
  cases operation with
  | step instruction => exact instruction.length_write
  | branch b =>
    unfold Operation.map Operation.write
    dsimp only
    rw [Branch.map_map, Branch.length_write]
    rfl

/-- An operation takes up room. -/
theorem nodeWidth_pos (long : Bool) (offset : Nat) (operation : Operation Label) :
    0 < Layout.nodeWidth (.operation operation) long offset := by
  cases operation with
  | step instruction =>
    have hpos := instruction.length_write_pos
    rw [instruction.length_write] at hpos
    exact hpos
  | branch b => exact b.width_pos long offset

end Operation

/-- The targets of operations are referred to. -/
theorem Body.mem_referencedLabels {body : Body} {node : Node} {label : Label}
    (hnode : node ∈ body.nodes) (hlabel : label ∈ node.targets) : label ∈ body.referencedLabels := by
  unfold Body.referencedLabels
  rw [List.append_assoc, List.mem_append, List.mem_flatMap]
  exact .inl ⟨node, hnode, hlabel⟩

/-- The labels of handlers are referred to. -/
theorem Body.mem_referencedLabels_of_handler {body : Body} {handler : Handler} {label : Label}
    (hhandler : handler ∈ body.handlers)
    (hlabel : label ∈ [handler.start, handler.stop, handler.handler]) :
    label ∈ body.referencedLabels := by
  unfold Body.referencedLabels
  simp only [List.mem_append, List.mem_flatMap]
  exact .inl (.inr ⟨handler, hhandler, hlabel⟩)

/-- The labels of ranges of variables are referred to. -/
theorem Body.mem_referencedLabels_of_range {body : Body} {range : VariableRange} {label : Label}
    (hrange : range ∈ body.localVariables ++ body.variableTypes)
    (hlabel : label ∈ [range.start, range.stop]) : label ∈ body.referencedLabels := by
  unfold Body.referencedLabels
  rw [List.mem_append, List.mem_flatMap]
  exact .inr ⟨range, hrange, hlabel⟩

theorem Body.referenced_of_handler {body : Body} {handler : Handler}
    (hhandler : handler ∈ body.handlers) : handler.start ∈ body.referencedLabels ∧
      handler.stop ∈ body.referencedLabels ∧ handler.handler ∈ body.referencedLabels :=
  ⟨mem_referencedLabels_of_handler hhandler (by simp),
    mem_referencedLabels_of_handler hhandler (by simp),
    mem_referencedLabels_of_handler hhandler (by simp)⟩

theorem Body.referenced_of_range {body : Body} {range : VariableRange}
    (hrange : range ∈ body.localVariables ++ body.variableTypes) :
    range.start ∈ body.referencedLabels ∧ range.stop ∈ body.referencedLabels :=
  ⟨mem_referencedLabels_of_range hrange (by simp), mem_referencedLabels_of_range hrange (by simp)⟩

namespace Layout

variable {layout : Layout} {body : Body} {pool : Pool}

/-! ### Writing -/

/-- The offset of a label that is put somewhere. -/
def offsetOf (layout : Layout) (label : Label) : Nat := layout.labels.getD label 0

/-- A label that is found has the offset that is found. -/
theorem offsetOf_eq {label : Label} {offset : Nat} (h : layout.labelOffset label = .ok offset) :
    layout.offsetOf label = offset := by
  unfold offsetOf
  rw [Std.HashMap.getD_eq_getD_getElem?, Body.labelOffset_ok.1 h]
  rfl

/-- The operation of a node that was laid out, with offsets for labels. -/
def placed? (layout : Layout) : Node × Nat × Bool → Option (Nat × Operation Nat)
  | (.operation operation, offset, _) => some (offset, operation.map layout.offsetOf)
  | _ => none

/-- The operations of a layout, each behind its offset. -/
def operations (layout : Layout) : List (Nat × Operation Nat) :=
  layout.nodes.filterMap layout.placed?

/-- The bytes of a node that was laid out. -/
def form (layout : Layout) : Node × Nat × Bool → Bytes
  | (.operation operation, offset, long) => (operation.map layout.offsetOf).write long offset
  | _ => []

/-- Every label that something refers to is put somewhere. -/
theorem Places.labelOffset (h : layout.Places body) {label : Label}
    (hlabel : label ∈ body.referencedLabels) :
    layout.labelOffset label = .ok (layout.offsetOf label) := by
  obtain ⟨place, hplace⟩ := List.mem_iff_getElem?.1 (h.placed label hlabel)
  rw [← h.nodes_eq, List.getElem?_map, Option.map_eq_some_iff] at hplace
  obtain ⟨⟨_, offset, long⟩, hentry, rfl⟩ := hplace
  have hoffset := h.labelOffset_ok.2 ⟨place, long, hentry⟩
  rw [offsetOf_eq hoffset]
  exact hoffset

/-- No label is behind the end of the code. -/
theorem Places.offsetOf_le (h : layout.Places body) {label : Label}
    (hlabel : label ∈ body.referencedLabels) : layout.offsetOf label ≤ layout.codeLength := by
  obtain ⟨place, long, hentry⟩ := h.labelOffset_ok.1 (h.labelOffset hlabel)
  exact h.laid.offset_le (List.mem_of_getElem? hentry)

/-- The distances of a branch fit into its bytes. -/
theorem Places.hasRoom (h : layout.Places body) {b : Branch Label} {offset : Nat} {long : Bool}
    (hentry : (.operation (.branch b), offset, long) ∈ layout.nodes) :
    (b.map fun label => (layout.offsetOf label : Int) - offset).hasRoom long = true := by
  have hnode : .operation (.branch b) ∈ body.nodes :=
    h.nodes_eq ▸ List.mem_map_of_mem (f := (·.1)) hentry
  have hlabel : ∀ label ∈ b.targets, label ∈ body.referencedLabels :=
    fun label hlabel => Body.mem_referencedLabels hnode hlabel
  refine Branch.hasRoom_map (fun label hmem => ?_) fun hnear label hmem => ?_
  · -- the code is so short that every distance fits into four bytes
    have htarget := h.offsetOf_le (hlabel label hmem)
    have hoffset := h.laid.offset_le hentry
    have hlength : layout.codeLength ≤ 65535 := h.codeLength_le
    simp only [Branch.isLong, Bool.and_eq_true, decide_eq_true_eq]
    omega
  · exact h.near hentry hnear label hmem _ (h.labelOffset (hlabel label hmem))

/-- The bytes of a node can be written. -/
theorem Places.nodeBytes_eq (h : layout.Places body) {node : Node} {offset : Nat} {long : Bool}
    (hentry : (node, offset, long) ∈ layout.nodes) :
    layout.nodeBytes node offset long = .ok (layout.form (node, offset, long)) := by
  cases node with
  | label _ | line _ => rfl
  | operation operation =>
    cases operation with
    | step _ => rfl
    | branch b =>
      have hnode : .operation (.branch b) ∈ body.nodes :=
        h.nodes_eq ▸ List.mem_map_of_mem (f := (·.1)) hentry
      -- every target was placed, so that its distance is known
      have hdistance : ∀ label ∈ b.targets,
          (do return (← layout.labelOffset label : Int) - offset : Except StructuralError Int) =
            .ok ((layout.offsetOf label : Int) - offset) := by
        intro label hlabel
        rw [h.labelOffset (Body.mem_referencedLabels hnode hlabel)]
        rfl
      unfold nodeBytes form Operation.map Operation.write
      dsimp only
      rw [Branch.resolve_ok hdistance, Branch.map_map]
      exact if_pos (h.hasRoom hentry)

/-- The bytes of all nodes can be written. -/
theorem Places.bytecode_eq (h : layout.Places body) :
    layout.bytecode = .ok (layout.nodes.flatMap layout.form) := by
  have hall : ∀ entry ∈ layout.nodes, layout.nodeBytes entry.1 entry.2.1 entry.2.2 =
      .ok (layout.form entry) := by
    rintro ⟨node, offset, long⟩ hentry
    exact h.nodeBytes_eq hentry
  unfold bytecode
  rw [except_mapM_eq_map hall, List.flatMap_def]
  rfl

/-- A node has as many bytes as its width says. -/
theorem length_form (layout : Layout) (node : Node) (offset : Nat) (long : Bool) :
    (layout.form (node, offset, long)).length = nodeWidth node long offset := by
  cases node with
  | label _ | line _ => rfl
  | operation operation => exact Operation.length_write long offset operation layout.offsetOf

/-- The bytes of nodes that were laid out fill the room between their ends. -/
theorem Laid.length_form {start stop : Nat} {laid : List (Node × Nat × Bool)}
    (h : Laid start laid stop) (layout : Layout) :
    start + (laid.flatMap layout.form).length = stop := by
  induction h with
  | nil => rfl
  | @cons node offset stop long rest hrest ih =>
    rw [List.flatMap_cons, List.length_append, Layout.length_form, ← Nat.add_assoc]
    exact ih

/-! ### Reading -/

/-- Operations are read one by one, each where the one in front of it ends. -/
theorem reads_readOperations (found : List (Nat × Operation Nat)) (rounds : Nat) {length start : Nat}
    {laid : List (Node × Nat × Bool)} {input later : Input} (hlaid : Laid start laid length)
    (hlength : length ≤ Int32.count)
    (hsound : ∀ {operation offset long}, (Node.operation operation, offset, long) ∈ laid →
      Operation.Sound pool length (operation.map layout.offsetOf) ∧
        (operation.isNear long = true → ∀ label ∈ operation.targets,
          isShort offset (layout.offsetOf label) = true))
    (hrounds : length ≤ start + rounds) (hposition : input.position = start)
    (hbehind : input.Behind (laid.flatMap layout.form) later) :
    Reads (DecodedCode.readOperations pool length found rounds) input
      (found.reverse ++ laid.filterMap layout.placed?) later := by
  -- on the nodes; `found` has the operations that were read so far, the last one first
  induction hlaid generalizing found rounds input with
  | nil =>
    obtain rfl := Input.behind_nil.1 hbehind
    rw [List.filterMap_nil, List.append_nil]
    cases rounds with
    | zero => exact reads_pure.2 ⟨rfl, rfl⟩
    | succ rounds =>
      refine reads_bind.2 ⟨_, input, reads_position.2 ⟨hposition, rfl⟩, ?_⟩
      rw [if_pos (Nat.le_refl _)]
      exact reads_pure.2 ⟨rfl, rfl⟩
  | @cons node offset stop long rest hrest ih =>
    rw [List.flatMap_cons] at hbehind
    obtain ⟨middle, hfirst, hmore⟩ := Input.behind_append.1 hbehind
    have hsound' : ∀ {operation offset long}, (Node.operation operation, offset, long) ∈ rest → _ :=
      fun h => hsound (List.mem_cons_of_mem _ h)
    cases node with
    -- labels and lines have no bytes, and no round is spent on them
    | label _ | line _ =>
      obtain rfl := Input.behind_nil.1 hfirst
      exact ih found rounds hlength hsound' hrounds hposition hmore
    | operation operation =>
      obtain ⟨hoperation, hnear⟩ := hsound List.mem_cons_self
      have hwidth := Operation.nodeWidth_pos long offset operation
      have hle := hrest.le
      have hmiddle := hfirst.position
      rw [show layout.form (.operation operation, offset, long) =
        (operation.map layout.offsetOf).write long offset from rfl, Operation.length_write] at hmiddle
      cases rounds with
      | zero => omega
      | succ rounds =>
        -- jumps were made long where that is needed
        have hread : Reads (Operation.read pool stop offset) input
            (operation.map layout.offsetOf) middle := by
          refine Operation.reads_write hoperation (by omega) hlength ?_ hfirst
          rw [Operation.isNear_map, Operation.targets_map]
          exact fun h => List.forall_mem_map.2 (hnear h)
        have hlater := ih ((offset, operation.map layout.offsetOf) :: found) rounds hlength hsound'
          (by omega) (by omega) hmore
        rw [List.reverse_cons, List.append_assoc] at hlater
        refine reads_bind.2 ⟨_, input, reads_position.2 ⟨hposition, rfl⟩, ?_⟩
        rw [if_neg (by omega)]
        exact reads_bind.2 ⟨_, middle, hread, hlater⟩

/-- The operations of a body make sense, and their targets have offsets inside the code. -/
def Leads (layout : Layout) (body : Body) (pool : Pool) : Prop :=
  ∀ {operation : Operation Label}, Node.operation operation ∈ body.nodes →
    operation.Fits pool ∧ ∀ label ∈ operation.targets, layout.offsetOf label < layout.codeLength

/-- When the bytes of a layout are read, its operations are found. -/
theorem Places.ofBytes_eq (h : layout.Places body) (hleads : layout.Leads body pool)
    {bytecode : Bytes} (hbytecode : layout.bytecode = .ok bytecode) :
    DecodedCode.ofBytes pool bytecode =
      .ok ⟨layout.codeLength, layout.operations, .ofList (layout.operations.map (·.1))⟩ := by
  obtain rfl := Except.ok.inj (hbytecode.symm.trans h.bytecode_eq)
  have hlength := h.laid.length_form layout
  rw [Nat.zero_add] at hlength
  have hle := h.codeLength_le
  have hself := Input.behind_self (layout.nodes.flatMap layout.form) [] 0
  rw [List.append_nil] at hself
  -- each operation makes sense, and where it is near its targets are too
  have hsound : ∀ {operation offset long}, (Node.operation operation, offset, long) ∈ layout.nodes →
      Operation.Sound pool layout.codeLength (operation.map layout.offsetOf) ∧
        (operation.isNear long = true → ∀ label ∈ operation.targets,
          isShort offset (layout.offsetOf label) = true) := by
    intro operation offset long hentry
    have hnode : Node.operation operation ∈ body.nodes :=
      h.nodes_eq ▸ List.mem_map_of_mem (f := (·.1)) hentry
    obtain ⟨hfits, htargets⟩ := hleads hnode
    refine ⟨⟨Operation.fits_map.2 hfits, ?_⟩, fun hnear label hlabel => ?_⟩
    · rw [Operation.targets_map]
      exact List.forall_mem_map.2 htargets
    · exact h.near hentry hnear label hlabel _
        (h.labelOffset (Body.mem_referencedLabels hnode hlabel))
  have hread := reads_readOperations [] layout.codeLength h.laid
    (Nat.le_trans hle (by decide)) hsound (by omega) rfl hself
  unfold DecodedCode.ofBytes
  rw [hlength]
  exact except_bind_ok.2 ⟨(layout.operations, []), run_ok.2 ⟨_, hread⟩, rfl⟩

end Layout

/-! ### Tables -/

namespace Layout

variable {layout : Layout} {body : Body}

/-- The exception table entry of a handler, unless its range is empty. -/
def guarded? (layout : Layout) (handler : Handler) : Option ExceptionEntry :=
  if layout.offsetOf handler.stop ≤ layout.offsetOf handler.start then none
  else some ⟨UInt16.ofNat (layout.offsetOf handler.start), UInt16.ofNat (layout.offsetOf handler.stop),
    UInt16.ofNat (layout.offsetOf handler.handler), handler.caught⟩

/-- The debug table entry of a variable, unless its range is empty. -/
def ranged? (layout : Layout) (range : VariableRange) : Option VariableEntry :=
  if layout.offsetOf range.stop ≤ layout.offsetOf range.start then none
  else some ⟨UInt16.ofNat (layout.offsetOf range.start),
    UInt16.ofNat (layout.offsetOf range.stop - layout.offsetOf range.start), range.name,
    range.descriptor, range.slot⟩

/-- Handlers are written with the offsets of their labels, unless their ranges have become empty. -/
theorem Places.exceptionEntries (h : layout.Places body) :
    body.handlers.filterMapM layout.exceptionEntry? =
      .ok (body.handlers.filterMap layout.guarded?) := by
  refine except_filterMapM_eq fun handler hhandler => ?_
  have hlabel : ∀ label ∈ [handler.start, handler.stop, handler.handler],
      layout.labelOffset label = .ok (layout.offsetOf label) :=
    fun label hlabel => h.labelOffset (Body.mem_referencedLabels_of_handler hhandler hlabel)
  unfold exceptionEntry? guarded?
  rw [hlabel handler.start (by simp), hlabel handler.stop (by simp),
    hlabel handler.handler (by simp)]
  dsimp only [bind, Except.bind]
  split <;> rfl

/-- The range of a variable is written with the offsets of its labels. -/
theorem variableEntry?_eq {range : VariableRange}
    (hlabel : ∀ label ∈ [range.start, range.stop],
      layout.labelOffset label = .ok (layout.offsetOf label)) :
    layout.variableEntry? range = .ok (layout.ranged? range) := by
  unfold variableEntry? ranged?
  rw [hlabel range.start (by simp), hlabel range.stop (by simp)]
  dsimp only [bind, Except.bind]
  split <;> rfl

/-- All ranges of a body can be written. -/
theorem Places.variableEntries (h : layout.Places body) {ranges : List VariableRange}
    (hranges : ranges ⊆ body.localVariables ++ body.variableTypes) :
    ranges.filterMapM layout.variableEntry? = .ok (ranges.filterMap layout.ranged?) := by
  refine except_filterMapM_eq fun range hrange => variableEntry?_eq fun label hlabel => ?_
  exact h.labelOffset (Body.mem_referencedLabels_of_range (hranges hrange) hlabel)

end Layout

namespace Pool

variable {α β : Type} [AttributeContents β] {table : List α → β} {entries : List α}
  {attributes : List Attribute} {pool pool' : Pool}

/-- A table that has entries is in an attribute whose name is known. -/
def HoldsTable (pool : Pool) (table : List α → β) (entries : List α) (attributes : List Attribute) :
    Prop :=
  entries = [] ∧ attributes = [] ∨ entries ≠ [] ∧
    ∃ index, pool.texts[AttributeContents.name β]? = some index ∧
      attributes = [⟨index, AttributeContents.write (table entries)⟩]

/-- A table is still there when constants are added. -/
theorem Extends.holdsTable (h : pool.Extends pool')
    (htable : pool.HoldsTable table entries attributes) :
    pool'.HoldsTable table entries attributes := by
  rcases htable with hnone | ⟨hne, index, hnoted, hattributes⟩
  · exact .inl hnone
  · exact .inr ⟨hne, index, h.texts hnoted, hattributes⟩

/-- A table with entries gets a name, and one without any is left out. -/
theorem addTable_ok (hp : pool.Formed) (h : addTable table entries pool = .ok attributes pool') :
    pool'.Formed ∧ pool.Extends pool' ∧ pool'.HoldsTable table entries attributes := by
  unfold addTable at h
  split at h
  · rename_i hempty
    obtain ⟨rfl, rfl⟩ := state_pure_ok.1 h
    exact ⟨hp, .refl pool, .inl ⟨List.isEmpty_iff.1 hempty, rfl⟩⟩
  · rename_i hempty
    obtain ⟨attr, _, hattr, hpure⟩ := state_bind_ok.1 h
    obtain ⟨index, _, hindex, hpure'⟩ := state_bind_ok.1 hattr
    obtain ⟨rfl, rfl⟩ := state_pure_ok.1 hpure'
    obtain ⟨rfl, rfl⟩ := state_pure_ok.1 hpure
    obtain ⟨hformed, hextends, -, hnoted⟩ := addUtf8_ok hp hindex
    exact ⟨hformed, hextends, .inr ⟨fun hnil => hempty (List.isEmpty_iff.2 hnil), index, hnoted, rfl⟩⟩

/-- A table whose name is known adds nothing to the pool. -/
theorem addTable_of_holdsTable (h : pool.HoldsTable table entries attributes) :
    addTable table entries pool = .ok attributes pool := by
  unfold addTable
  rcases h with ⟨rfl, rfl⟩ | ⟨hne, index, hnoted, rfl⟩
  · rfl
  · rw [if_neg fun hempty => hne (List.isEmpty_iff.1 hempty)]
    refine state_bind_ok.2 ⟨_, pool, ?_, rfl⟩
    exact state_bind_ok.2 ⟨index, pool, addUtf8_of_noted hnoted, rfl⟩

end Pool

namespace Layout

variable {layout : Layout} {body : Body} {extra : List Attribute} {code : Code} {pool pool' : Pool}

/-- The code of a body at the offsets of its layout, without the attributes. -/
def bareCode (layout : Layout) (body : Body) : Code where
  maxStack := body.maxStack
  maxLocals := body.maxLocals
  bytecode := layout.nodes.flatMap layout.form
  exceptions := body.handlers.filterMap layout.guarded?
  attributes := []

/-- Some code is that of a body at the offsets of its layout: the debug tables stand in attributes
behind those of the body and in front of others. -/
def Writes (layout : Layout) (body : Body) (extra : List Attribute) (code : Code) (pool : Pool) :
    Prop :=
  ∃ lines localVariables variableTypes,
    pool.HoldsTable LineNumberTable.mk layout.lineEntries lines ∧
    pool.HoldsTable LocalVariableTable.mk (body.localVariables.filterMap layout.ranged?)
      localVariables ∧
    pool.HoldsTable LocalVariableTypeTable.mk (body.variableTypes.filterMap layout.ranged?)
      variableTypes ∧
    code = { layout.bareCode body with
      attributes := body.attributes ++ lines ++ localVariables ++ variableTypes ++ extra }

/-- Where labels have offsets, only the debug tables are left to be written. -/
theorem Places.encode_ok_iff (h : layout.Places body) :
    body.encode layout extra pool = .ok code pool' ↔
      ∃ lines first localVariables second variableTypes,
        Pool.addTable LineNumberTable.mk layout.lineEntries pool = .ok lines first ∧
        Pool.addTable LocalVariableTable.mk (body.localVariables.filterMap layout.ranged?) first =
          .ok localVariables second ∧
        Pool.addTable LocalVariableTypeTable.mk (body.variableTypes.filterMap layout.ranged?)
          second = .ok variableTypes pool' ∧
        code = { layout.bareCode body with
          attributes := body.attributes ++ lines ++ localVariables ++ variableTypes ++ extra } := by
  unfold Body.encode
  rw [h.bytecode_eq, h.exceptionEntries, h.variableEntries (List.subset_append_left _ _),
    h.variableEntries (List.subset_append_right _ _)]
  -- the bytes and the entries are known to be there, and three tables are left
  constructor
  · intro hencode
    obtain ⟨_, _, ⟨⟩, hencode⟩ := state_bind_ok.1 hencode
    obtain ⟨_, _, ⟨⟩, hencode⟩ := state_bind_ok.1 hencode
    obtain ⟨lines, first, hlines, hencode⟩ := state_bind_ok.1 hencode
    obtain ⟨_, _, ⟨⟩, hencode⟩ := state_bind_ok.1 hencode
    obtain ⟨localVariables, second, hvariables, hencode⟩ := state_bind_ok.1 hencode
    obtain ⟨_, _, ⟨⟩, hencode⟩ := state_bind_ok.1 hencode
    obtain ⟨variableTypes, third, htypes, hencode⟩ := state_bind_ok.1 hencode
    obtain ⟨rfl, rfl⟩ := state_pure_ok.1 hencode
    exact ⟨lines, first, localVariables, second, variableTypes, hlines, hvariables, htypes, rfl⟩
  · rintro ⟨lines, first, localVariables, second, variableTypes, hlines, hvariables, htypes, rfl⟩
    refine state_bind_ok.2 ⟨_, pool, rfl, state_bind_ok.2 ⟨_, pool, rfl, ?_⟩⟩
    refine state_bind_ok.2 ⟨lines, first, hlines, state_bind_ok.2 ⟨_, first, rfl, ?_⟩⟩
    refine state_bind_ok.2 ⟨localVariables, second, hvariables, ?_⟩
    refine state_bind_ok.2 ⟨_, second, rfl, state_bind_ok.2 ⟨variableTypes, pool', htypes, rfl⟩⟩

/-- Encoding a body writes the code of its layout, and adds the names of its tables. -/
theorem Places.encode_ok (h : layout.Places body) (hp : pool.Formed)
    (hencode : body.encode layout extra pool = .ok code pool') :
    pool'.Formed ∧ pool.Extends pool' ∧ layout.Writes body extra code pool' := by
  obtain ⟨lines, _, localVariables, _, variableTypes, hlines, hvariables, htypes, rfl⟩ :=
    h.encode_ok_iff.1 hencode
  obtain ⟨hfirst, hextends, hlines⟩ := Pool.addTable_ok hp hlines
  obtain ⟨hsecond, hextends', hvariables⟩ := Pool.addTable_ok hfirst hvariables
  obtain ⟨hthird, hextends'', htypes⟩ := Pool.addTable_ok hsecond htypes
  exact ⟨hthird, (hextends.trans hextends').trans hextends'', lines, localVariables, variableTypes,
    (hextends'.trans hextends'').holdsTable hlines, hextends''.holdsTable hvariables, htypes, rfl⟩

/-- Code is written again as it is, and nothing is added to the pool. -/
theorem Places.encode_of_writes (h : layout.Places body)
    (hwrites : layout.Writes body extra code pool) :
    body.encode layout extra pool = .ok code pool := by
  obtain ⟨lines, localVariables, variableTypes, hlines, hvariables, htypes, hcode⟩ := hwrites
  exact h.encode_ok_iff.2 ⟨lines, pool, localVariables, pool, variableTypes,
    Pool.addTable_of_holdsTable hlines, Pool.addTable_of_holdsTable hvariables,
    Pool.addTable_of_holdsTable htypes, hcode⟩

end Layout

end Preverification
