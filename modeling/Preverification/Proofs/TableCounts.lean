import Preverification.Proofs.WrittenCode

/-!
# Tables that are too long

The number of entries stands in front of a table in two bytes. A table with more entries than that
can be written all the same: the number loses its higher digits, and what follows is read as
something else. So code is read as it was written exactly when all of its tables can be counted.

* `Pool.HoldsTable.shows_iff`: a table is shown if it can be counted.
* `Body.encode_decodes_iff`: code is decoded as it was written exactly when everything in it can be
  counted.
* `Body.manyLines_encode_loses`: an operation has one line more than can be counted, and there is no
  error.
-/

namespace Preverification

open Reader

/-! ### One table -/

/-- Exactly the contents that fit are decoded as what was written. -/
theorem Attribute.decode_write_iff {α : Type} [AttributeContents α] {fits : α → Prop} {value : α}
    (name : PoolIndex) (h : Inverts AttributeContents.read AttributeContents.write fits) :
    Attribute.decode α ⟨name, AttributeContents.write value⟩ = .ok value ↔ fits value := by
  rw [Attribute.decode_ok, h.run_ok]
  simp

/-- Some code shows a table: every attribute with the name of the table is decoded as the table, and
there is one if the table has entries. -/
structure Code.Shows {α β : Type} [AttributeContents β] (code : Code) (pool : Pool)
    (table : List α → β) (entries : List α) : Prop where
  present : entries ≠ [] → ∃ attr ∈ code.attributes, attr.holds β pool = .ok true
  decoded : ∀ attr ∈ code.attributes, attr.holds β pool = .ok true →
    attr.decode β = .ok (table entries)

/-- A table that some attributes hold, and no others, is shown if it can be counted. -/
theorem Pool.HoldsTable.shows_iff {α β : Type} [AttributeContents β] {pool : Pool}
    {table : List α → β} {entries : List α} {attributes : List Attribute} {code : Code}
    {fits : β → Prop} (h : pool.HoldsTable table entries attributes) (hp : pool.Formed)
    (hinverts : Inverts AttributeContents.read AttributeContents.write fits)
    (hfits : fits (table entries) ↔ entries.length < 65536) (hmem : attributes ⊆ code.attributes)
    (hothers : ∀ attr ∈ code.attributes, attr.holds β pool = .ok true → attr ∈ attributes) :
    code.Shows pool table entries ↔ entries.length ≤ 65535 := by
  have hname := h.utf8 hp
  rcases h with ⟨rfl, rfl⟩ | ⟨_, index, _, rfl⟩
  · refine ⟨fun _ => Nat.zero_le _, fun _ => ⟨fun hne => absurd rfl hne, fun attr hattr hholds => ?_⟩⟩
    exact absurd (hothers attr hattr hholds) List.not_mem_nil
  · have hself := hmem (List.mem_singleton.2 rfl)
    have hholds := Attribute.holds_true.2 (hname _ (List.mem_singleton.2 rfl))
    rw [← Nat.lt_succ_iff, ← hfits, ← Attribute.decode_write_iff index hinverts]
    refine ⟨fun hshows => hshows.decoded _ hself hholds, fun hdecode => ⟨fun _ => ?_, ?_⟩⟩
    · exact ⟨_, hself, hholds⟩
    · intro attr hattr hother
      obtain rfl := List.mem_singleton.1 (hothers attr hattr hother)
      exact hdecode

/-- An attribute that holds a table does not hold another one. -/
theorem Pool.HoldsTable.not_holds {α β γ : Type} [AttributeContents β] [AttributeContents γ]
    {pool : Pool} {table : List α → β} {entries : List α} {attributes : List Attribute}
    (h : pool.HoldsTable table entries attributes) (hp : pool.Formed)
    (hne : AttributeContents.name β ≠ AttributeContents.name γ) :
    ∀ attr ∈ attributes, attr.holds γ pool ≠ .ok true := by
  intro attr hattr hholds
  have hname := (h.utf8 hp attr hattr).symm.trans (Attribute.holds_true.1 hholds)
  exact hne (Except.ok.inj hname)

/-- The contents of a table that can be counted are short enough for an attribute. -/
theorem Pool.HoldsTable.length_contents_lt {α β : Type} [AttributeContents β] {pool : Pool}
    {table : List α → β} {entries : List α} {attributes : List Attribute} {bytes : Nat}
    (h : pool.HoldsTable table entries attributes) (hle : bytes ≤ 10)
    (hbytes : ∀ entries, (AttributeContents.write (table entries)).length = 2 + bytes * entries.length)
    (hlength : entries.length ≤ 65535) :
    ∀ attr ∈ attributes, attr.contents.length < Bytes.limit 4 := by
  rcases h with ⟨_, rfl⟩ | ⟨_, index, _, rfl⟩
  · nofun
  · refine List.forall_mem_singleton.2 ?_
    have hproduct : bytes * entries.length ≤ 10 * 65535 := Nat.mul_le_mul hle hlength
    have hlimit : 2 + 10 * 65535 < Bytes.limit 4 := by decide
    dsimp only
    rw [hbytes]
    omega

/-! ### The code of a body -/

/-- An attribute is none of the debug tables. -/
structure Attribute.NoTable (pool : Pool) (attr : Attribute) : Prop where
  lines : attr.holds LineNumberTable pool ≠ .ok true
  localVariables : attr.holds LocalVariableTable pool ≠ .ok true
  variableTypes : attr.holds LocalVariableTypeTable pool ≠ .ok true

/-- Everything that is counted when the code of a body is written, at the offsets of a layout and
with extra attributes, is small enough. -/
structure Layout.Countable (layout : Layout) (body : Body) (extra : List Attribute) (code : Code) :
    Prop where
  exceptions : code.exceptions.length ≤ 65535
  attributes : code.attributes.length ≤ 65535
  lines : layout.lineEntries.length ≤ 65535
  localVariables : (body.localVariables.filterMap layout.ranged?).length ≤ 65535
  variableTypes : (body.variableTypes.filterMap layout.ranged?).length ≤ 65535
  contents : ∀ attr ∈ body.attributes ++ extra, attr.contents.length < Bytes.limit 4

/-- Some code shows the debug tables of a body at the offsets of a layout: a line for every marker
in front of the end of the code, and an entry for every range of a variable that is not empty. -/
structure Layout.ShowsTables (layout : Layout) (body : Body) (code : Code) (pool : Pool) : Prop where
  lines : code.Shows pool LineNumberTable.mk layout.lineEntries
  localVariables :
    code.Shows pool LocalVariableTable.mk (body.localVariables.filterMap layout.ranged?)
  variableTypes :
    code.Shows pool LocalVariableTypeTable.mk (body.variableTypes.filterMap layout.ranged?)

namespace Layout.Writes

variable {layout : Layout} {body : Body} {extra : List Attribute} {code : Code} {pool : Pool}

/-- The debug tables are shown if they can be counted. -/
theorem showsTables_iff (h : layout.Writes body extra code pool) (hp : pool.Formed)
    (hothers : ∀ attr ∈ body.attributes ++ extra, attr.NoTable pool) :
    layout.ShowsTables body code pool ↔ layout.lineEntries.length ≤ 65535 ∧
      (body.localVariables.filterMap layout.ranged?).length ≤ 65535 ∧
      (body.variableTypes.filterMap layout.ranged?).length ≤ 65535 := by
  rcases h with ⟨lines, localVariables, variableTypes, hlines, hvariables, htypes, hcode⟩
  have hattributes : code.attributes =
      body.attributes ++ lines ++ localVariables ++ variableTypes ++ extra := by rw [hcode]
  have hcases : ∀ attr ∈ code.attributes, attr.NoTable pool ∨ attr ∈ lines ∨
      attr ∈ localVariables ∨ attr ∈ variableTypes := by
    intro attr hattr
    rw [hattributes] at hattr
    simp only [List.mem_append] at hattr hothers
    have hother := hothers attr
    tauto
  -- each table is in an attribute of its own, because the tables have different names
  have hlinesIff : code.Shows pool LineNumberTable.mk layout.lineEntries ↔
      layout.lineEntries.length ≤ 65535 := by
    refine hlines.shows_iff hp LineNumberTable.inverts_read Iff.rfl
      (fun attr hattr => by simp [hattributes, hattr]) fun attr hattr hholds => ?_
    rcases hcases attr hattr with hnone | hattr | hattr | hattr
    · exact absurd hholds hnone.lines
    · exact hattr
    · exact absurd hholds (hvariables.not_holds hp (by decide) attr hattr)
    · exact absurd hholds (htypes.not_holds hp (by decide) attr hattr)
  have hvariablesIff :
      code.Shows pool LocalVariableTable.mk (body.localVariables.filterMap layout.ranged?) ↔
        (body.localVariables.filterMap layout.ranged?).length ≤ 65535 := by
    refine hvariables.shows_iff hp LocalVariableTable.inverts_read Iff.rfl
      (fun attr hattr => by simp [hattributes, hattr]) fun attr hattr hholds => ?_
    rcases hcases attr hattr with hnone | hattr | hattr | hattr
    · exact absurd hholds hnone.localVariables
    · exact absurd hholds (hlines.not_holds hp (by decide) attr hattr)
    · exact hattr
    · exact absurd hholds (htypes.not_holds hp (by decide) attr hattr)
  have htypesIff :
      code.Shows pool LocalVariableTypeTable.mk (body.variableTypes.filterMap layout.ranged?) ↔
        (body.variableTypes.filterMap layout.ranged?).length ≤ 65535 := by
    refine htypes.shows_iff hp LocalVariableTypeTable.inverts_read Iff.rfl
      (fun attr hattr => by simp [hattributes, hattr]) fun attr hattr hholds => ?_
    rcases hcases attr hattr with hnone | hattr | hattr | hattr
    · exact absurd hholds hnone.variableTypes
    · exact absurd hholds (hlines.not_holds hp (by decide) attr hattr)
    · exact absurd hholds (hvariables.not_holds hp (by decide) attr hattr)
    · exact hattr
  rw [← hlinesIff, ← hvariablesIff, ← htypesIff]
  exact ⟨fun h => ⟨h.lines, h.localVariables, h.variableTypes⟩, fun h => ⟨h.1, h.2.1, h.2.2⟩⟩

/-- The contents of all attributes are short enough if those of the body and the extra ones are, and
the debug tables can be counted. -/
theorem contents_lt (h : layout.Writes body extra code pool)
    (hcountable : layout.Countable body extra code) :
    ∀ attr ∈ code.attributes, attr.contents.length < Bytes.limit 4 := by
  rcases h with ⟨lines, localVariables, variableTypes, hlines, hvariables, htypes, hcode⟩
  intro attr hattr
  rw [hcode] at hattr
  simp only [List.mem_append] at hattr
  -- attributes of the body, the three tables, and those that are added
  rcases hattr with (((hattr | hattr) | hattr) | hattr) | hattr
  · exact hcountable.contents attr (List.mem_append_left _ hattr)
  · exact hlines.length_contents_lt (by decide) (Bytes.length_ofList LineEntry.length_write)
      hcountable.lines attr hattr
  · exact hvariables.length_contents_lt (by decide) (Bytes.length_ofList VariableEntry.length_write)
      hcountable.localVariables attr hattr
  · exact htypes.length_contents_lt (by decide) (Bytes.length_ofList VariableEntry.length_write)
      hcountable.variableTypes attr hattr
  · exact hcountable.contents attr (List.mem_append_right _ hattr)

theorem mem_attributes (h : layout.Writes body extra code pool) {attr : Attribute}
    (hattr : attr ∈ body.attributes ++ extra) : attr ∈ code.attributes := by
  rcases h with ⟨lines, localVariables, variableTypes, _, _, _, rfl⟩
  simp only [List.mem_append] at hattr ⊢
  tauto

/-- The classes that handlers catch stand in the exception table. -/
theorem caught_ne_zero (h : layout.Writes body extra code pool)
    (hcaught : ∀ handler ∈ body.handlers, handler.caught ≠ some 0) :
    ∀ entry ∈ code.exceptions, entry.caught ≠ some 0 := by
  intro entry hentry
  rw [h.exceptions_eq] at hentry
  rcases List.mem_filterMap.1 hentry with ⟨handler, hhandler, hguarded⟩
  unfold guarded? at hguarded
  split at hguarded
  · cases hguarded
  · obtain rfl := Option.some.inj hguarded
    exact hcaught handler hhandler

end Layout.Writes

/-- The bytes of the code of a layout can be counted. -/
theorem Layout.Places.length_bytecode_lt {layout : Layout} {body : Body} (h : layout.Places body)
    {extra : List Attribute} {code : Code} {pool : Pool}
    (hwrites : layout.Writes body extra code pool) : code.bytecode.length < Bytes.limit 4 := by
  rcases hwrites with ⟨_, _, _, _, _, _, rfl⟩
  have hlength := h.laid.length_form layout
  have hle := h.codeLength_le
  have hlimit : maxCodeLength < Bytes.limit 4 := by decide
  change (layout.nodes.flatMap layout.form).length < _
  omega

/-- The code of a body is decoded as it was written, with its debug tables, exactly when everything
in it can be counted. Nothing is reported when it cannot: the body is encoded all the same. -/
theorem Body.encode_decodes_iff {body : Body} {layout : Layout} {extra : List Attribute} {code : Code}
    {pool pool' : Pool} (hp : pool.Formed) (hlayout : body.layout = .ok layout)
    (hencode : body.encode layout extra pool = .ok code pool')
    (hcaught : ∀ handler ∈ body.handlers, handler.caught ≠ some 0)
    (hothers : ∀ attr ∈ body.attributes ++ extra, attr.NoTable pool') (name : PoolIndex) :
    Attribute.decode Code ⟨name, AttributeContents.write code⟩ = .ok code ∧
        layout.ShowsTables body code pool' ↔
      layout.Countable body extra code := by
  have hplaces := layout_ok hlayout
  rcases hplaces.encode_ok hp hencode with ⟨hp', _, hwrites⟩
  rw [Attribute.decode_write_iff name Code.inverts_read, hwrites.showsTables_iff hp' hothers]
  -- each count is read as two bytes
  constructor
  · rintro ⟨hfits, hlines, hvariables, htypes⟩
    exact ⟨Nat.le_of_lt_succ hfits.exceptions.1, Nat.le_of_lt_succ hfits.attributes.1, hlines,
      hvariables, htypes, fun attr hattr => hfits.attributes.2 attr (hwrites.mem_attributes hattr)⟩
  · intro h
    have hfits : code.Fits :=
      ⟨hplaces.length_bytecode_lt hwrites,
        ⟨Nat.lt_succ_of_le h.exceptions, hwrites.caught_ne_zero hcaught⟩,
        ⟨Nat.lt_succ_of_le h.attributes, hwrites.contents_lt h⟩⟩
    exact ⟨hfits, h.lines, h.localVariables, h.variableTypes⟩

namespace Body

/-- The code that is written for `jumpsFar` has one line, and shows it. -/
theorem jumpsNear_decodes :
    Attribute.decode Code ⟨1, AttributeContents.write jumpsNear⟩ = .ok jumpsNear ∧
      jumpsFarLayout.ShowsTables jumpsFarBody jumpsNear jumpsFarPool :=
  (encode_decodes_iff ⟨Pool.built_ofConstants _, by decide +kernel⟩ jumpsFarBody_layout
    jumpsFarBody_encode (fun _ h => nomatch h) (fun _ h => nomatch h) 1).2
    ⟨by decide, by decide, by decide, by decide, by decide, fun _ h => nomatch h⟩

/-! ### A body with many lines -/

/-- A body that gives its only operation a number of lines. -/
def manyLines (count : Nat) : Body where
  maxStack := 0
  maxLocals := 0
  nodes := List.replicate count (.line 1) ++ [.operation (.branch .returnVoid)]
  handlers := []
  localVariables := []
  variableTypes := []
  attributes := []
  issued := 0

/-- The layout of `manyLines`. -/
def manyLinesLayout (count : Nat) : Layout where
  nodes := List.replicate count (.line 1, 0, false) ++ [(.operation (.branch .returnVoid), 0, false)]
  codeLength := 1
  labels := ∅

/-- Without labels there are no offsets of labels. -/
theorem labelOffsets_of_none {nodes : List Node} (h : ∀ node ∈ nodes, node.label? = none)
    (offsets : List Nat) : Layout.labelOffsets nodes offsets = ∅ := by
  change (nodes.zip offsets).foldl Layout.noteLabel ∅ = ∅
  induction nodes generalizing offsets with
  | nil => rfl
  | cons node nodes ih =>
    obtain ⟨hnode, hnodes⟩ := List.forall_mem_cons.1 h
    cases offsets with
    | nil => rfl
    | cons offset offsets =>
      have hnote : Layout.noteLabel ∅ (node, offset) = ∅ := by
        unfold Layout.noteLabel
        rw [hnode]
      rw [List.zip_cons_cons, List.foldl_cons, hnote]
      exact ih hnodes offsets

/-- All nodes start at the first byte. -/
theorem manyLines_offsets (count : Nat) (done : List Nat) :
    Layout.offsetsFrom done 0 (manyLines count).nodes (List.replicate count false ++ [false]) =
      (done.reverse ++ (List.replicate count 0 ++ [0]), 1) := by
  induction count generalizing done with
  | zero => simp [manyLines, Layout.offsetsFrom, Layout.nodeWidth, Branch.width]
  | succ count ih =>
    have hrest := ih (0 :: done)
    rw [List.reverse_cons, List.append_assoc] at hrest
    exact hrest

/-- The lines take up no room. -/
theorem manyLines_layout (count : Nat) : (manyLines count).layout = .ok (manyLinesLayout count) := by
  have hplain : ∀ node ∈ (manyLines count).nodes,
      node = .line 1 ∨ node = .operation (.branch .returnVoid) := by
    intro node hnode
    exact (List.mem_append.1 hnode).imp List.eq_of_mem_replicate List.mem_singleton.1
  have hlabels : ∀ node ∈ (manyLines count).nodes, node.label? = none := by
    intro node hnode
    rcases hplain node hnode with rfl | rfl <;> rfl
  have hcheck : (manyLines count).checkLabels = .ok () := by
    refine checkLabels_of_placed ?_ ?_
    · rw [List.filterMap_eq_nil_iff.2 hlabels]
      exact List.nodup_nil
    · simp [manyLines, referencedLabels, Node.targets, Operation.targets, Branch.targets]
  have hlongs : ((manyLines count).nodes.map fun _ => false) =
      List.replicate count false ++ [false] := by
    simp [manyLines]
  have hnodes : (manyLinesLayout count).nodes = (manyLines count).nodes.zip
      ((List.replicate count 0 ++ [0]).zip (List.replicate count false ++ [false])) := by
    simp [manyLines, manyLinesLayout, List.zip_append]
  refine layout_of_short (List.replicate count 0 ++ [0]) hcheck ?_ (hlongs ▸ hnodes)
    (labelOffsets_of_none hlabels _).symm (fun entry hentry => ?_) (fun entry hentry => ?_)
    (show 1 ≤ Layout.maxCodeLength by decide)
  · rw [hlongs]
    exact manyLines_offsets count []
  · rcases entry with ⟨node, offset⟩
    rcases hplain node (List.of_mem_zip hentry).1 with rfl | rfl <;> rfl
  · rcases entry with ⟨node, offset, long⟩
    rw [hnodes] at hentry
    rcases hplain node (List.of_mem_zip hentry).1 with rfl | rfl <;> rfl

/-- The code of `manyLines`. -/
def manyLinesCode (count : Nat) : Code where
  maxStack := 0
  maxLocals := 0
  bytecode := [177]
  exceptions := []
  attributes :=
    [⟨1, AttributeContents.write (LineNumberTable.mk (List.replicate count ⟨0, 1⟩))⟩]

theorem manyLines_lineEntries (count : Nat) :
    (manyLinesLayout count).lineEntries = List.replicate count ⟨0, 1⟩ := by
  simp [manyLinesLayout, Layout.lineEntries]

theorem manyLines_holdsTable {count : Nat} (hpos : 0 < count) :
    jumpsFarPool.HoldsTable LineNumberTable.mk (manyLinesLayout count).lineEntries
      (manyLinesCode count).attributes := by
  have hnoted : jumpsFarPool.texts["LineNumberTable"]? = some 1 := by
    change ((∅ : Std.HashMap String PoolIndex).insertIfNew "LineNumberTable" 1)[_]? = _
    rw [Std.HashMap.getElem?_insertIfNew, if_pos ⟨beq_self_eq_true _, Std.HashMap.not_mem_empty⟩]
  rw [manyLines_lineEntries]
  exact .inr ⟨by simpa using Nat.ne_of_gt hpos, 1, hnoted, rfl⟩

/-- The code is written whatever their number is. -/
theorem manyLines_encode {count : Nat} (hpos : 0 < count) :
    (manyLines count).encode (manyLinesLayout count) [] jumpsFarPool =
      .ok (manyLinesCode count) jumpsFarPool := by
  refine (layout_ok (manyLines_layout count)).encode_of_writes
    ⟨(manyLinesCode count).attributes, [], [], manyLines_holdsTable hpos, .inl ⟨rfl, rfl⟩,
      .inl ⟨rfl, rfl⟩, ?_⟩
  have hbytes : (manyLinesLayout count).nodes.flatMap (manyLinesLayout count).form = [177] := by
    have hlines : (List.replicate count (Node.line 1, 0, false)).flatMap
        (manyLinesLayout count).form = [] := by
      refine List.flatMap_eq_nil_iff.2 fun entry hentry => ?_
      rw [List.eq_of_mem_replicate hentry]
      rfl
    change (List.replicate count (Node.line 1, 0, false) ++ [_]).flatMap _ = _
    rw [List.flatMap_append, hlines]
    rfl
  unfold Layout.bareCode
  rw [hbytes]
  rfl

/-- There is no error when an operation has one line more than can be counted, but the lines are not
found in the code that is written. -/
theorem manyLines_encode_loses :
    (manyLines 65536).layout = .ok (manyLinesLayout 65536) ∧
      (manyLines 65536).encode (manyLinesLayout 65536) [] jumpsFarPool =
        .ok (manyLinesCode 65536) jumpsFarPool ∧
      (manyLinesLayout 65536).lineEntries.length = 65536 ∧
      ¬ (manyLinesCode 65536).Shows jumpsFarPool LineNumberTable.mk
        (manyLinesLayout 65536).lineEntries := by
  have hpos : 0 < 65536 := by decide
  have hlength : (manyLinesLayout 65536).lineEntries.length = 65536 := by
    rw [manyLines_lineEntries, List.length_replicate]
  have hformed : jumpsFarPool.Formed := ⟨Pool.built_ofConstants _, by decide +kernel⟩
  refine ⟨manyLines_layout _, manyLines_encode hpos, hlength, ?_⟩
  rw [(manyLines_holdsTable hpos).shows_iff hformed LineNumberTable.inverts_read Iff.rfl
    (fun _ h => h) fun _ h _ => h, hlength]
  decide

end Body

end Preverification
