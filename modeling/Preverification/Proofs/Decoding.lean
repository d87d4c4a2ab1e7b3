import Preverification.Proofs.Encoding

/-!
# Encoded bodies that are decoded

What is decoded from the code of a body: its operations, handlers and debug tables at the offsets of
its layout, without those that are empty there. Labels are numbered anew, in the order of their
offsets.

* `CodeAttributes.ofList_table`: a table is decoded, whether it has an attribute or is empty.
* `Body.decode_ok`: what has to be read and checked for a body to be decoded.
* `Layout.Places.isRange`: a range between two labels that is not empty is made of whole operations.
* `Layout.Places.decode_eq`: what is decoded from the code of a body.
-/

namespace Preverification

open Reader

/-! ### Contents of attributes -/

/-- Contents are decoded if all of them are read. -/
theorem Attribute.decode_ok {α : Type} [AttributeContents α] {attr : Attribute} {value : α} :
    attr.decode α = .ok value ↔ run AttributeContents.read attr.contents = .ok (value, []) := by
  unfold Attribute.decode
  dsimp only
  split
  · rename_i heq
    rw [heq]
    constructor <;> rintro ⟨⟩ <;> rfl
  all_goals
    rename_i heq
    rw [heq]
    constructor <;> rintro ⟨⟩

/-- Contents that are written are decoded as they were. -/
theorem Attribute.decode_write {α : Type} [AttributeContents α] {fits : α → Prop} {value : α}
    (name : PoolIndex) (h : Restores AttributeContents.read AttributeContents.write fits)
    (hfits : fits value) :
    Attribute.decode α ⟨name, AttributeContents.write value⟩ = .ok value :=
  Attribute.decode_ok.2 (h.run_ok hfits)

theorem LineEntry.inverts_read : Inverts read write fun _ => True := by
  intro input entry later
  unfold read write
  simp only [inverts_uint16.reads_bind, reads_pure, Input.behind_append]
  constructor
  · rintro ⟨start, -, middle, hstart, line, -, _, hline, rfl, rfl⟩
    exact ⟨trivial, middle, hstart, hline⟩
  · rintro ⟨-, middle, hstart, hline⟩
    exact ⟨entry.start, trivial, middle, hstart, entry.line, trivial, later, hline, rfl, rfl⟩

theorem VariableEntry.inverts_read : Inverts read write fun _ => True := by
  intro input entry later
  unfold read write
  simp only [inverts_uint16.reads_bind, reads_pure, Input.behind_append]
  constructor
  · rintro ⟨start, -, first, hstart, length, -, second, hlength, name, -, third, hname, descriptor,
      -, fourth, hdescriptor, slot, -, _, hslot, rfl, rfl⟩
    exact ⟨trivial, fourth, ⟨third, ⟨second, ⟨first, hstart, hlength⟩, hname⟩, hdescriptor⟩, hslot⟩
  · rintro ⟨-, fourth, ⟨third, ⟨second, ⟨first, hstart, hlength⟩, hname⟩, hdescriptor⟩, hslot⟩
    exact ⟨_, trivial, first, hstart, _, trivial, second, hlength, _, trivial, third, hname, _,
      trivial, fourth, hdescriptor, _, trivial, later, hslot, rfl, rfl⟩

theorem Attribute.inverts_read :
    Inverts read write fun attr => attr.contents.length < Bytes.limit 4 := by
  intro input attr later
  unfold read write Bytes.ofLength
  simp only [inverts_uint16.reads_bind, (inverts_nat 4).reads_bind, (inverts_bytes _).reads_bind,
    reads_pure, Input.behind_append, id]
  constructor
  · rintro ⟨name, -, middle, hname, length, hlt, middle', hlength, contents, rfl, _, hcontents, rfl,
      rfl⟩
    exact ⟨hlt, middle', ⟨middle, hname, hlength⟩, hcontents⟩
  · rintro ⟨hlt, middle', ⟨middle, hname, hlength⟩, hcontents⟩
    exact ⟨attr.name, trivial, middle, hname, attr.contents.length, hlt, middle', hlength,
      attr.contents, rfl, later, hcontents, rfl, rfl⟩

/-- An entry that catches everything has no class, rather than the class zero. -/
theorem ExceptionEntry.inverts_read : Inverts read write fun entry => entry.caught ≠ some 0 := by
  intro input entry later
  unfold read write
  simp only [inverts_uint16.reads_bind, reads_pure, Input.behind_append]
  constructor
  · rintro ⟨start, -, first, hstart, stop, -, second, hstop, handler, -, third, hhandler, caught, -,
      _, hcaught, rfl, rfl⟩
    -- an index of zero stands for every class
    by_cases hzero : caught = 0
    · rw [if_pos hzero]
      subst hzero
      exact ⟨nofun, third, ⟨second, ⟨first, hstart, hstop⟩, hhandler⟩, hcaught⟩
    · rw [if_neg hzero]
      exact ⟨fun heq => hzero (Option.some.inj heq), third, ⟨second, ⟨first, hstart, hstop⟩,
        hhandler⟩, hcaught⟩
  · rintro ⟨hne, third, ⟨second, ⟨first, hstart, hstop⟩, hhandler⟩, hcaught⟩
    refine ⟨_, trivial, first, hstart, _, trivial, second, hstop, _, trivial, third, hhandler, _,
      trivial, later, hcaught, ?_, rfl⟩
    rcases entry with ⟨_, _, _, _ | caught⟩
    · rfl
    · rw [Option.getD_some, if_neg fun heq => hne (congrArg some heq)]

/-- The parts of some code can be counted. -/
structure Code.Fits (code : Code) : Prop where
  bytecode : code.bytecode.length < Bytes.limit 4
  exceptions : ListFits (fun entry : ExceptionEntry => entry.caught ≠ some 0) code.exceptions
  attributes : ListFits (fun attr : Attribute => attr.contents.length < Bytes.limit 4)
    code.attributes

/-- Code is read as the list of its parts, each of which says how long it is. -/
theorem Code.inverts_read : Inverts (AttributeContents.read (α := Code)) AttributeContents.write
    Fits := by
  intro input code later
  change Reads read input code later ↔ code.Fits ∧ input.Behind code.write later
  unfold read write Bytes.ofLength
  simp only [inverts_uint16.reads_bind, (inverts_nat 4).reads_bind, (inverts_bytes _).reads_bind,
    (inverts_list ExceptionEntry.inverts_read).reads_bind,
    (inverts_list Attribute.inverts_read).reads_bind, reads_pure, Input.behind_append, id]
  constructor
  · rintro ⟨maxStack, -, first, hstack, maxLocals, -, second, hlocals, length, hlt, third, hlength,
      bytecode, rfl, fourth, hbytecode, exceptions, hexceptions, fifth, hexceptions', attributes,
      hattributes, _, hattributes', rfl, rfl⟩
    exact ⟨⟨hlt, hexceptions, hattributes⟩, fifth, ⟨fourth, ⟨third, ⟨second, ⟨first, hstack, hlocals⟩,
      hlength⟩, hbytecode⟩, hexceptions'⟩, hattributes'⟩
  · rintro ⟨hfits, fifth, ⟨fourth, ⟨third, ⟨second, ⟨first, hstack, hlocals⟩, hlength⟩, hbytecode⟩,
      hexceptions⟩, hattributes⟩
    exact ⟨_, trivial, first, hstack, _, trivial, second, hlocals, _, hfits.bytecode, third, hlength,
      _, rfl, fourth, hbytecode, _, hfits.exceptions, fifth, hexceptions, _, hfits.attributes, later,
      hattributes, rfl, rfl⟩

/-- A table of entries can be counted. -/
theorem inverts_table {α β : Type} {read : Reader α} {write : α → Bytes} (make : List α → β)
    {entries : β → List α} (h : Inverts read write fun _ => True)
    (hentries : ∀ values, entries (make values) = values) (hmake : ∀ b, make (entries b) = b) :
    Inverts (do return make (← Reader.list read)) (Bytes.ofList write ∘ entries)
      fun table => (entries table).length < 65536 := by
  refine (inverts_list h).map make entries ?_ ?_ ?_
  · intro values hfits
    rw [hentries]
    exact ⟨hfits.1, rfl⟩
  · intro table hlt
    exact ⟨⟨hlt, fun _ _ => trivial⟩, hmake table⟩
  · intro values _
    rw [Function.comp, hentries]

theorem LineNumberTable.inverts_read : Inverts (AttributeContents.read (α := LineNumberTable))
    AttributeContents.write fun table => table.entries.length < 65536 :=
  inverts_table LineNumberTable.mk LineEntry.inverts_read (fun _ => rfl) fun _ => rfl

theorem LocalVariableTable.inverts_read : Inverts (AttributeContents.read (α := LocalVariableTable))
    AttributeContents.write fun table => table.entries.length < 65536 :=
  inverts_table LocalVariableTable.mk VariableEntry.inverts_read (fun _ => rfl) fun _ => rfl

theorem LocalVariableTypeTable.inverts_read :
    Inverts (AttributeContents.read (α := LocalVariableTypeTable)) AttributeContents.write
      fun table => table.entries.length < 65536 :=
  inverts_table LocalVariableTypeTable.mk VariableEntry.inverts_read (fun _ => rfl)
    fun _ => rfl

/-! ### Attributes of code -/

namespace CodeAttributes

variable {pool : Pool} {attributes attributes' : List Attribute} {parts parts' : CodeAttributes}

/-- What some attributes hold, and then what others hold. -/
def join (parts parts' : CodeAttributes) : CodeAttributes where
  lines := parts.lines ++ parts'.lines
  localVariables := parts.localVariables ++ parts'.localVariables
  variableTypes := parts.variableTypes ++ parts'.variableTypes
  others := parts.others ++ parts'.others

/-- What is known from attributes is joined, in order. -/
theorem ofList_cons {attr : Attribute} (h : ofAttribute pool attr = .ok parts)
    (h' : ofList pool attributes = .ok parts') :
    ofList pool (attr :: attributes) = .ok (parts.join parts') := by
  obtain ⟨found, hfound, hparts⟩ := except_bind_ok.1 h'
  obtain rfl := Except.ok.inj hparts
  unfold ofList
  rw [List.mapM_cons]
  refine except_bind_ok.2 ⟨parts :: found, ?_, rfl⟩
  exact except_bind_ok.2 ⟨parts, h, except_bind_ok.2 ⟨found, hfound, rfl⟩⟩

/-- What two lists of attributes tell is put together in order. -/
theorem ofList_append (h : ofList pool attributes = .ok parts)
    (h' : ofList pool attributes' = .ok parts') :
    ofList pool (attributes ++ attributes') = .ok (parts.join parts') := by
  -- what the first attribute adds comes in front of all others
  induction attributes generalizing parts with
  | nil =>
    obtain rfl := Except.ok.inj h
    exact h'
  | cons attr attributes ih =>
    obtain ⟨all, hall, hparts⟩ := except_bind_ok.1 h
    rw [List.mapM_cons] at hall
    obtain ⟨first, hfirst, htail⟩ := except_bind_ok.1 hall
    obtain ⟨rest, hrest, hcons⟩ := except_bind_ok.1 htail
    obtain rfl := Except.ok.inj hcons
    have hlist := ofList_cons hfirst (ih (except_bind_ok.2 ⟨rest, hrest, rfl⟩))
    obtain rfl := Except.ok.inj hparts
    rw [List.cons_append, hlist]
    simp [join]

/-- Attributes that are passed on. -/
theorem ofList_others (h : ∀ attr ∈ attributes, ofAttribute pool attr = .ok { others := [attr] }) :
    ofList pool attributes = .ok { others := attributes } := by
  induction attributes with
  | nil => rfl
  | cons attr attributes ih =>
    obtain ⟨hfirst, hrest⟩ := List.forall_mem_cons.1 h
    exact ofList_cons hfirst (ih hrest)

/-- Attributes that are left out. -/
theorem ofList_none (h : ∀ attr ∈ attributes, ofAttribute pool attr = .ok {}) :
    ofList pool attributes = .ok {} := by
  induction attributes with
  | nil => rfl
  | cons attr attributes ih =>
    obtain ⟨hfirst, hrest⟩ := List.forall_mem_cons.1 h
    exact ofList_cons hfirst (ih hrest)

/-- What an attribute holds is told by its name. -/
theorem holds_ok {α : Type} [AttributeContents α] {attr : Attribute} {name : String} {answer : Bool}
    (h : pool.utf8 attr.name = .ok name) (hanswer : (name == AttributeContents.name α) = answer) :
    attr.holds α pool = .ok answer := by
  unfold Attribute.holds Attribute.nameIn
  rw [h]
  exact congrArg Except.ok hanswer

variable {index : PoolIndex}

/-- A table of lines that can be counted is decoded. -/
theorem ofAttribute_lines {entries : List LineEntry} (h : pool.utf8 index = .ok "LineNumberTable")
    (hlt : entries.length < 65536) :
    ofAttribute pool ⟨index, AttributeContents.write (LineNumberTable.mk entries)⟩ =
      .ok { lines := entries } := by
  have hdecode := Attribute.decode_write index LineNumberTable.inverts_read.restores hlt
  unfold ofAttribute
  refine except_bind_ok.2 ⟨true, holds_ok h (by decide), ?_⟩
  exact except_bind_ok.2 ⟨_, hdecode, rfl⟩

/-- A table of variables that can be counted is decoded. -/
theorem ofAttribute_variables {entries : List VariableEntry}
    (h : pool.utf8 index = .ok "LocalVariableTable") (hlt : entries.length < 65536) :
    ofAttribute pool ⟨index, AttributeContents.write (LocalVariableTable.mk entries)⟩ =
      .ok { localVariables := entries } := by
  have hdecode := Attribute.decode_write index LocalVariableTable.inverts_read.restores hlt
  unfold ofAttribute
  refine except_bind_ok.2 ⟨false, holds_ok h (by decide), ?_⟩
  refine except_bind_ok.2 ⟨true, holds_ok h (by decide), ?_⟩
  exact except_bind_ok.2 ⟨_, hdecode, rfl⟩

/-- A table of the types of variables that can be counted is decoded. -/
theorem ofAttribute_types {entries : List VariableEntry}
    (h : pool.utf8 index = .ok "LocalVariableTypeTable") (hlt : entries.length < 65536) :
    ofAttribute pool ⟨index, AttributeContents.write (LocalVariableTypeTable.mk entries)⟩ =
      .ok { variableTypes := entries } := by
  have hdecode := Attribute.decode_write index LocalVariableTypeTable.inverts_read.restores hlt
  unfold ofAttribute
  refine except_bind_ok.2 ⟨false, holds_ok h (by decide), ?_⟩
  refine except_bind_ok.2 ⟨false, holds_ok h (by decide), ?_⟩
  refine except_bind_ok.2 ⟨true, holds_ok h (by decide), ?_⟩
  exact except_bind_ok.2 ⟨_, hdecode, rfl⟩

/-- The names of attributes that are not passed on as they are. -/
def tableNames : List String :=
  ["LineNumberTable", "LocalVariableTable", "LocalVariableTypeTable", "StackMapTable", "StackMap"]

/-- An attribute with another name is passed on. -/
theorem ofAttribute_others {attr : Attribute} {name : String} (h : pool.utf8 attr.name = .ok name)
    (hother : name ∉ tableNames) : ofAttribute pool attr = .ok { others := [attr] } := by
  unfold tableNames at hother
  simp only [List.mem_cons, List.not_mem_nil, or_false, not_or] at hother
  obtain ⟨hlines, hvariables, htypes, hframes, hframes'⟩ := hother
  unfold ofAttribute
  refine except_bind_ok.2 ⟨false, holds_ok h (beq_false_of_ne hlines), ?_⟩
  refine except_bind_ok.2 ⟨false, holds_ok h (beq_false_of_ne hvariables), ?_⟩
  refine except_bind_ok.2 ⟨false, holds_ok h (beq_false_of_ne htypes), ?_⟩
  refine except_bind_ok.2 ⟨false, holds_ok h (beq_false_of_ne hframes), ?_⟩
  exact except_bind_ok.2 ⟨false, holds_ok h (beq_false_of_ne hframes'), rfl⟩

/-- Attributes with the names of tables are not passed on. -/
theorem ofAttribute_table {attr : Attribute} {name : String} (hname : pool.utf8 attr.name = .ok name)
    (htable : name ∈ tableNames) (h : ofAttribute pool attr = .ok parts) : parts.others = [] := by
  unfold ofAttribute Attribute.holds Attribute.nameIn at h
  rw [hname] at h
  simp only [pure, Except.pure, bind, Except.bind, beq_iff_eq, Bool.or_eq_true] at h
  -- in the order in which the names are asked for
  split at h
  · split at h
    · cases h
    · obtain rfl := Except.ok.inj h
      rfl
  · split at h
    · split at h
      · cases h
      · obtain rfl := Except.ok.inj h
        rfl
    · split at h
      · split at h
        · cases h
        · obtain rfl := Except.ok.inj h
          rfl
      · split at h
        · obtain rfl := Except.ok.inj h
          rfl
        · simp_all [tableNames, AttributeContents.name]

/-- Only attributes with other names are passed on. -/
theorem ofAttribute_ok {attr : Attribute} (h : ofAttribute pool attr = .ok parts) :
    parts.others = [] ∨
      parts.others = [attr] ∧ ∃ name, pool.utf8 attr.name = .ok name ∧ name ∉ tableNames := by
  rcases hname : pool.utf8 attr.name with error | name
  · unfold ofAttribute Attribute.holds Attribute.nameIn at h
    rw [hname] at h
    cases h
  · by_cases htable : name ∈ tableNames
    · exact .inl (ofAttribute_table hname htable h)
    · obtain rfl := Except.ok.inj ((ofAttribute_others hname htable).symm.trans h)
      exact .inr ⟨rfl, name, rfl, htable⟩

/-- The attributes that are passed on have other names. -/
theorem others_ok (h : ofList pool attributes = .ok parts) : ∀ attr ∈ parts.others,
    ∃ name, pool.utf8 attr.name = .ok name ∧ name ∉ tableNames := by
  obtain ⟨all, hall, hparts⟩ := except_bind_ok.1 h
  obtain rfl := Except.ok.inj hparts
  intro attr hattr
  obtain ⟨part, hpart, hmem⟩ := List.mem_flatMap.1 hattr
  obtain ⟨attr', -, hof⟩ := forall₂_exists (except_mapM_ok hall).flip hpart
  rcases ofAttribute_ok hof with hnone | ⟨hone, hname⟩
  · rw [hnone] at hmem
    cases hmem
  · rw [hone] at hmem
    obtain rfl := List.mem_singleton.1 hmem
    exact hname

/-- A table is decoded, whether it has an attribute or is empty. -/
theorem ofList_table {α β : Type} [AttributeContents β] {table : List α → β} {entries : List α}
    (part : List α → CodeAttributes) (hp : pool.Formed) (hnone : part [] = {})
    (hpart : ∀ {index : PoolIndex}, pool.utf8 index = .ok (AttributeContents.name β) →
      ofAttribute pool ⟨index, AttributeContents.write (table entries)⟩ = .ok (part entries))
    (h : pool.HoldsTable table entries attributes) :
    ofList pool attributes = .ok (part entries) := by
  rcases h with ⟨rfl, rfl⟩ | ⟨-, index, hnoted, rfl⟩
  · rw [hnone]
    rfl
  · have hname := Pool.utf8_ok.2 (hp.built.get?_eq_some.2 (hp.noted.mem_entries hnoted))
    have hlist := ofList_cons (hpart hname) (rfl : ofList pool [] = .ok {})
    rw [hlist]
    simp [join]

end CodeAttributes

/-! ### Parts of decoded bodies -/

namespace Body

/-- The offsets that operations, exceptions and ranges of variables refer to. -/
def referencedOffsets (code : Code) (decoded : DecodedCode) (ranges : List VariableEntry) :
    List Nat :=
  decoded.operations.flatMap (·.2.targets) ++
    code.exceptions.flatMap (fun e => [e.start.toNat, e.stop.toNat, e.handler.toNat]) ++
    ranges.flatMap variableOffsets

variable {code : Code} {decoded : DecodedCode} {ranges : List VariableEntry} {offset : Nat}

/-- The offset to which a branch leads is one that is labelled. -/
theorem mem_referencedOffsets_of_target {entry : Nat × Operation Nat}
    (hentry : entry ∈ decoded.operations) (hoffset : offset ∈ entry.2.targets) :
    offset ∈ referencedOffsets code decoded ranges := by
  unfold referencedOffsets
  rw [List.append_assoc]
  exact List.mem_append_left _ (List.mem_flatMap.2 ⟨entry, hentry, hoffset⟩)

/-- The three offsets of an entry of the exception table are referred to. -/
theorem mem_referencedOffsets_of_exception {entry : ExceptionEntry}
    (hentry : entry ∈ code.exceptions)
    (hoffset : offset ∈ [entry.start.toNat, entry.stop.toNat, entry.handler.toNat]) :
    offset ∈ referencedOffsets code decoded ranges :=
  List.mem_append_left _ (List.mem_append_right _ (List.mem_flatMap.2 ⟨entry, hentry, hoffset⟩))

/-- The two offsets of a variable are referred to. -/
theorem mem_referencedOffsets_of_range {entry : VariableEntry} (hentry : entry ∈ ranges)
    (hoffset : offset ∈ variableOffsets entry) : offset ∈ referencedOffsets code decoded ranges :=
  List.mem_append_right _ (List.mem_flatMap.2 ⟨entry, hentry, hoffset⟩)

/-- The offsets that get labels. Ranges of variables that are not admitted are not looked at. -/
def labelledOffsets (code : Code) (decoded : DecodedCode) (attributes : CodeAttributes) :
    List Nat :=
  referencedOffsets code decoded <|
    attributes.localVariables.filter decoded.admits ++
      attributes.variableTypes.filter decoded.admits

/-- The labels of the offsets that something refers to. -/
def labelTable (code : Code) (decoded : DecodedCode) (attributes : CodeAttributes) :
    Std.HashMap Nat Label :=
  labelOffsets decoded (.ofList (labelledOffsets code decoded attributes))

/-- The body that is made of operations, exceptions and attributes when offsets have labels. -/
def assembleWith (labels : Std.HashMap Nat Label) (code : Code) (decoded : DecodedCode)
    (attributes : CodeAttributes) : Body where
  maxStack := code.maxStack
  maxLocals := code.maxLocals
  nodes := decoded.operations.flatMap (fun entry =>
      operationNodes labels (linesByOffset decoded attributes.lines) entry.1 entry.2) ++
    labels[decoded.length]?.toList.map .label
  handlers := code.exceptions.map (handler (labels.getD · default))
  localVariables :=
    (attributes.localVariables.filter decoded.admits).map (variableRange (labels.getD · default))
  variableTypes :=
    (attributes.variableTypes.filter decoded.admits).map (variableRange (labels.getD · default))
  attributes := attributes.others
  issued := labels.size

/-- The body that is made of operations, exceptions and attributes. -/
def assemble (code : Code) (decoded : DecodedCode) (attributes : CodeAttributes) : Body :=
  assembleWith (labelTable code decoded attributes) code decoded attributes

/-- A body is decoded if its operations can be read, all offsets are those of operations, and its
attributes can be read. -/
theorem decode_ok {code : Code} {pool : Pool} {body : Body} : decode code pool = .ok body ↔
    ∃ decoded attributes, DecodedCode.ofBytes pool code.bytecode = .ok decoded ∧
      decoded.checkTargets = .ok () ∧ (∀ entry ∈ code.exceptions, decoded.checkException entry = .ok ()) ∧
      CodeAttributes.ofList pool code.attributes = .ok attributes ∧
      body = assemble code decoded attributes := by
  unfold decode
  simp only [except_bind_ok]
  constructor
  · rintro ⟨decoded, hdecoded, _, htargets, _, hexceptions, attributes, hattributes, h⟩
    exact ⟨decoded, attributes, hdecoded, htargets, except_forM_ok.1 hexceptions, hattributes,
      (Except.ok.inj h).symm⟩
  · rintro ⟨decoded, attributes, hdecoded, htargets, hexceptions, hattributes, rfl⟩
    exact ⟨decoded, hdecoded, (), htargets, (), except_forM_ok.2 hexceptions, attributes,
      hattributes, rfl⟩

end Body

namespace Layout

variable {layout : Layout} {body : Body} {extra : List Attribute} {code : Code} {pool : Pool}

/-- The code that is read back from the bytes of a layout. -/
def decoded (layout : Layout) : DecodedCode :=
  ⟨layout.codeLength, layout.operations, .ofList (layout.operations.map (·.1))⟩

/-- What is read back from the attributes of a body that was written. -/
def decodedAttributes (layout : Layout) (body : Body) : CodeAttributes where
  lines := layout.lineEntries
  localVariables := body.localVariables.filterMap layout.ranged?
  variableTypes := body.variableTypes.filterMap layout.ranged?
  others := body.attributes

/-! ### Offsets at which operations start -/

/-- An operation starts at the offsets of the layout, and nowhere else. -/
theorem isStart_iff {offset : Nat} : layout.decoded.isStart offset = true ↔
    offset ∈ layout.operations.map (·.1) := by
  unfold DecodedCode.isStart decoded
  rw [Std.HashSet.contains_ofList, List.contains_iff_mem]

/-- Behind an offset at which there is still something there is an operation. -/
theorem Laid.exists_operation {start stop : Nat} {laid : List (Node × Nat × Bool)}
    (h : Laid start laid stop) (layout : Layout) (hlt : start < stop) :
    start ∈ (laid.filterMap layout.placed?).map (·.1) := by
  induction h with
  | nil => exact absurd hlt (Nat.lt_irrefl _)
  | @cons node offset stop long rest hrest ih =>
    cases node with
    | label _ | line _ => exact ih hlt
    | operation operation => exact List.mem_cons_self

/-- A node that was laid out stands at an operation, or at the end. -/
theorem Laid.exists_operation_at {start stop offset : Nat} {node : Node} {long : Bool}
    {laid : List (Node × Nat × Bool)} (h : Laid start laid stop)
    (hmem : (node, offset, long) ∈ laid) (hlt : offset < stop) :
    offset ∈ (laid.filterMap layout.placed?).map (·.1) := by
  obtain ⟨front, back, rfl⟩ := List.append_of_mem hmem
  obtain ⟨middle, -, hback⟩ := laid_append.1 h
  have hmiddle : middle = offset := by
    cases hback
    rfl
  subst hmiddle
  have hoperation := hback.exists_operation layout hlt
  rw [List.filterMap_append, List.map_append]
  exact List.mem_append_right _ hoperation

/-- A label that is in front of something is in front of an operation. -/
theorem Places.isStart (h : layout.Places body) {label : Label}
    (hlabel : label ∈ body.referencedLabels) (hlt : layout.offsetOf label < layout.codeLength) :
    layout.decoded.isStart (layout.offsetOf label) = true := by
  obtain ⟨place, long, hentry⟩ := h.labelOffset_ok.1 (h.labelOffset hlabel)
  exact isStart_iff.2 (h.laid.exists_operation_at (List.mem_of_getElem? hentry) hlt)

/-- A range between two labels that is not empty is made of whole operations. -/
theorem Places.isRange (h : layout.Places body) {start stop : Label}
    (hstart : start ∈ body.referencedLabels) (hstop : stop ∈ body.referencedLabels)
    (hlt : layout.offsetOf start < layout.offsetOf stop) :
    layout.decoded.isRange (layout.offsetOf start) (layout.offsetOf stop) = true := by
  have hle := h.offsetOf_le hstop
  have hstarts := h.isStart hstart (Nat.lt_of_lt_of_le hlt hle)
  have hstops : layout.decoded.isStop (layout.offsetOf stop) = true := by
    unfold DecodedCode.isStop
    rcases Nat.lt_or_ge (layout.offsetOf stop) layout.codeLength with hinside | hend
    · rw [h.isStart hstop hinside, Bool.or_true]
    · rw [decide_eq_true (show layout.offsetOf stop = layout.decoded.length from
        Nat.le_antisymm hle hend), Bool.true_or]
  unfold DecodedCode.isRange
  rw [hstarts, hstops, decide_eq_true hlt]
  rfl

/-! ### Checks of what was written -/

/-- All branches lead to operations. -/
theorem Places.checkTargets (h : layout.Places body) (hleads : layout.Leads body pool) :
    layout.decoded.checkTargets = .ok () := by
  unfold DecodedCode.checkTargets
  refine except_forM_ok.2 ?_
  rintro ⟨offset, operation⟩ hmem
  obtain ⟨⟨node, offset', long⟩, hentry, hplaced⟩ := List.mem_filterMap.1 hmem
  cases node with
  | label _ | line _ => cases hplaced
  | operation found =>
    obtain ⟨rfl, rfl⟩ := Prod.mk.inj (Option.some.inj hplaced)
    have hnode : Node.operation found ∈ body.nodes :=
      h.nodes_eq ▸ List.mem_map_of_mem (f := (·.1)) hentry
    -- every target is a label that leads to an operation
    have hnone : (found.map layout.offsetOf).targets.find? (!layout.decoded.isStart ·) = none := by
      rw [List.find?_eq_none, Operation.targets_map]
      refine List.forall_mem_map.2 fun label hlabel => ?_
      rw [h.isStart (Body.mem_referencedLabels hnode hlabel) ((hleads hnode).2 label hlabel)]
      decide
    dsimp only
    rw [hnone]
    rfl

/-- The offset of a label fits into two bytes. -/
theorem Places.toNat_offsetOf (h : layout.Places body) {label : Label}
    (hlabel : label ∈ body.referencedLabels) :
    (UInt16.ofNat (layout.offsetOf label)).toNat = layout.offsetOf label := by
  have hle := h.offsetOf_le hlabel
  have hle' := h.codeLength_le
  unfold maxCodeLength at hle'
  exact UInt16.toNat_ofNat_of_lt' (show layout.offsetOf label < 65536 by omega)

/-- A handler whose range is not empty passes the checks, if its code is inside. -/
theorem Places.checkException (h : layout.Places body) {handler : Handler}
    (hhandler : handler ∈ body.handlers)
    (hinside : layout.offsetOf handler.handler < layout.codeLength) {entry : ExceptionEntry}
    (hentry : layout.guarded? handler = some entry) :
    layout.decoded.checkException entry = .ok () := by
  obtain ⟨hstart, hstop, htarget⟩ := Body.referenced_of_handler hhandler
  unfold guarded? at hentry
  split at hentry
  · cases hentry
  · rename_i hlt
    obtain rfl := Option.some.inj hentry
    unfold DecodedCode.checkException
    dsimp only
    rw [h.toNat_offsetOf hstart, h.toNat_offsetOf hstop, h.toNat_offsetOf htarget,
      h.isRange hstart hstop (Nat.not_le.1 hlt), h.isStart htarget hinside]
    rfl

/-- A range of a variable that is not empty is admitted. -/
theorem Places.admits (h : layout.Places body) {range : VariableRange}
    (hrange : range ∈ body.localVariables ++ body.variableTypes) {entry : VariableEntry}
    (hentry : layout.ranged? range = some entry) : layout.decoded.admits entry = true := by
  obtain ⟨hstart, hstop⟩ := Body.referenced_of_range hrange
  unfold ranged? at hentry
  split at hentry
  · cases hentry
  · rename_i hlt
    -- neither the start nor the length is cut to two bytes
    obtain rfl := Option.some.inj hentry
    have hle := h.offsetOf_le hstop
    have hle' := h.codeLength_le
    unfold maxCodeLength at hle'
    unfold DecodedCode.admits
    dsimp only
    rw [h.toNat_offsetOf hstart, UInt16.toNat_ofNat_of_lt'
      (show layout.offsetOf range.stop - layout.offsetOf range.start < 65536 by omega),
      Nat.add_sub_cancel' (Nat.le_of_lt (Nat.not_le.1 hlt))]
    exact h.isRange hstart hstop (Nat.not_le.1 hlt)

/-- What was written is the code of the layout. -/
theorem Writes.bytecode (hwrites : layout.Writes body extra code pool) (h : layout.Places body) :
    layout.bytecode = .ok code.bytecode := by
  rcases hwrites with ⟨_, _, _, _, _, _, rfl⟩
  exact h.bytecode_eq

/-- The exception table passes if the code of all handlers is inside. -/
theorem Writes.checkExceptions (hwrites : layout.Writes body extra code pool)
    (h : layout.Places body)
    (hhandlers : ∀ handler ∈ body.handlers, layout.offsetOf handler.handler < layout.codeLength) :
    ∀ entry ∈ code.exceptions, layout.decoded.checkException entry = .ok () := by
  rcases hwrites with ⟨_, _, _, _, _, _, rfl⟩
  intro entry hentry
  rcases List.mem_filterMap.1 hentry with ⟨handler, hhandler, hguarded⟩
  exact h.checkException hhandler (hhandlers handler hhandler) hguarded

/-- What is decoded from the code of a body. -/
theorem Places.decode_eq (h : layout.Places body) (hp : pool.Formed)
    (hleads : layout.Leads body pool)
    (hhandlers : ∀ handler ∈ body.handlers, layout.offsetOf handler.handler < layout.codeLength)
    (hlines : layout.lineEntries.length < 65536)
    (hvariables : (body.localVariables.filterMap layout.ranged?).length < 65536)
    (htypes : (body.variableTypes.filterMap layout.ranged?).length < 65536)
    (hothers : ∀ attr ∈ body.attributes,
      CodeAttributes.ofAttribute pool attr = .ok { others := [attr] })
    (hextra : ∀ attr ∈ extra, CodeAttributes.ofAttribute pool attr = .ok {})
    (hwrites : layout.Writes body extra code pool) :
    Body.decode code pool =
      .ok (Body.assemble code layout.decoded (layout.decodedAttributes body)) := by
  have hbytecode := hwrites.bytecode h
  have hexceptions := hwrites.checkExceptions h hhandlers
  obtain ⟨lines, localVariables, variableTypes, hlineTable, hvariableTable, htypeTable, rfl⟩ :=
    hwrites
  have hofLines := CodeAttributes.ofList_table (fun entries => { lines := entries }) hp rfl
    (fun hname => CodeAttributes.ofAttribute_lines hname hlines) hlineTable
  have hofVariables := CodeAttributes.ofList_table
    (fun entries => { localVariables := entries }) hp rfl
    (fun hname => CodeAttributes.ofAttribute_variables hname hvariables) hvariableTable
  have hofTypes := CodeAttributes.ofList_table (fun entries => { variableTypes := entries })
    hp rfl (fun hname => CodeAttributes.ofAttribute_types hname htypes) htypeTable
  -- each attribute gives one of the tables, and none gives one twice
  have hofAll := CodeAttributes.ofList_append (CodeAttributes.ofList_append
    (CodeAttributes.ofList_append (CodeAttributes.ofList_append
      (CodeAttributes.ofList_others hothers) hofLines) hofVariables) hofTypes)
    (CodeAttributes.ofList_none hextra)
  refine Body.decode_ok.2 ⟨layout.decoded, layout.decodedAttributes body,
    h.ofBytes_eq hleads hbytecode, h.checkTargets hleads, hexceptions, ?_, rfl⟩
  rw [hofAll]
  simp [CodeAttributes.join, decodedAttributes]

end Layout

end Preverification
