import Preverification.Proofs.Decoding
import Preverification.Proofs.Tiling

/-!
# Decoding what was encoded

A body that was decoded, laid out and encoded is decoded again as it was. The new code has the same
operations at other offsets, in the same order; labels are numbered in the order of their offsets,
and so they get the numbers that they had.

* `DecodedCode.ofBytes_ok`: what is known about operations that were read.
* `Body.labelOffsets_eq_some`: the label of an offset has the number of the offset among those that
  are referred to.
* `Body.assemble_moved`: a body stays the same when its code moves.
-/

namespace Preverification

open Reader

/-! ### Code that was read -/

namespace DecodedCode

variable {pool : Pool}

/-- The operations that were read stand at ascending offsets inside the code. -/
structure Read (code : DecodedCode) (pool : Pool) : Prop where
  starts_eq : code.starts = .ofList (code.operations.map (·.1))
  ascends : (code.operations.map (·.1)).Pairwise (· < ·)
  inside : ∀ entry ∈ code.operations, entry.1 < code.length
  sound : ∀ entry ∈ code.operations, Operation.Sound pool code.length entry.2

/-- The operations that were read stand one behind the other, inside the code. -/
theorem ofBytes_ok {bytecode : Bytes} {code : DecodedCode} (h : ofBytes pool bytecode = .ok code) :
    code.Read pool := by
  obtain ⟨entries, htiles, rfl⟩ := ofBytes_ok_iff.1 h
  obtain ⟨hascends, hinside⟩ := htiles.ascends
  exact ⟨rfl, hascends, fun entry hentry => (hinside entry hentry).2, htiles.sound⟩

variable {code : DecodedCode}

/-- The offsets at which operations start, and the end. -/
def places (code : DecodedCode) : List Nat := code.operations.map (·.1) ++ [code.length]

/-- The end is behind all operations. -/
theorem Read.places_ascend (h : code.Read pool) : code.places.Pairwise (· < ·) := by
  refine List.pairwise_append.2 ⟨h.ascends, List.pairwise_singleton _ _, ?_⟩
  intro offset hoffset stop hstop
  obtain rfl := List.mem_singleton.1 hstop
  obtain ⟨entry, hentry, rfl⟩ := List.mem_map.1 hoffset
  exact h.inside entry hentry

/-- An operation starts exactly at the offsets that were read. -/
theorem Read.isStart_iff (h : code.Read pool) {offset : Nat} :
    code.isStart offset = true ↔ offset ∈ code.operations.map (·.1) := by
  unfold isStart
  rw [h.starts_eq, Std.HashSet.contains_ofList, List.contains_iff_mem]

theorem Read.mem_places_of_isStart (h : code.Read pool) {offset : Nat}
    (hstart : code.isStart offset = true) : offset ∈ code.places :=
  List.mem_append_left _ (h.isStart_iff.1 hstart)

/-- A range goes from one operation to another one, or to the end. -/
theorem Read.isRange_iff (h : code.Read pool) {start stop : Nat} :
    code.isRange start stop = true ↔
      start < stop ∧ start ∈ code.operations.map (·.1) ∧ stop ∈ code.places := by
  unfold isRange isStop places
  simp only [Bool.and_eq_true, Bool.or_eq_true, decide_eq_true_eq, h.isStart_iff, List.mem_append,
    List.mem_singleton]
  tauto

end DecodedCode

/-! ### Labels by offsets -/

namespace Body

variable {code : DecodedCode} {referenced : Std.HashSet Nat} {offset : Nat} {label : Label}

/-- The offsets that something refers to. -/
def labelledPlaces (code : DecodedCode) (referenced : Std.HashSet Nat) : List Nat :=
  code.places.filter referenced.contains

/-- The labels of offsets, with the numbers that the offsets have in their list. -/
def numbered (offsets : List Nat) : List (Nat × Label) :=
  offsets.zipIdx.map fun (offset, number) => (offset, ⟨number⟩)

/-- The labels of offsets are handed out in the order of the offsets. -/
theorem labelOffsets_eq (code : DecodedCode) (referenced : Std.HashSet Nat) :
    labelOffsets code referenced = .ofList (numbered (labelledPlaces code referenced)) := rfl

theorem map_fst_numbered (offsets : List Nat) : (numbered offsets).map (·.1) = offsets := by
  unfold numbered
  rw [List.map_map]
  exact List.zipIdx_map_fst 0 offsets

/-- An offset is numbered by its place in the list. -/
theorem mem_numbered {offsets : List Nat} :
    (offset, label) ∈ numbered offsets ↔ offsets[label.number]? = some offset := by
  unfold numbered
  rw [List.mem_map, ← List.mk_mem_zipIdx_iff_getElem?]
  constructor
  · rintro ⟨⟨_, _⟩, hmem, heq⟩
    obtain ⟨rfl, rfl⟩ := Prod.mk.inj heq
    exact hmem
  · exact fun hmem => ⟨(offset, label.number), hmem, rfl⟩

/-- The offsets that are referred to ascend, as all of them do. -/
theorem labelledPlaces_ascend (h : code.places.Pairwise (· < ·)) :
    (labelledPlaces code referenced).Pairwise (· < ·) := h.filter _

/-- Offsets that ascend differ. -/
theorem numbered_distinct {offsets : List Nat} (h : offsets.Pairwise (· < ·)) :
    (numbered offsets).Pairwise fun a b => (a.1 == b.1) = false := by
  have hne : ((numbered offsets).map (·.1)).Pairwise (· < ·) := by rwa [map_fst_numbered]
  refine (List.pairwise_map.1 hne).imp fun hlt => ?_
  exact beq_false_of_ne (Nat.ne_of_lt hlt)

/-- A label has the number that its offset has among those that something refers to. -/
theorem labelOffsets_eq_some (h : code.places.Pairwise (· < ·)) :
    (labelOffsets code referenced)[offset]? = some label ↔
      (labelledPlaces code referenced)[label.number]? = some offset := by
  have hascends : (labelledPlaces code referenced).Pairwise (· < ·) := labelledPlaces_ascend h
  have hdistinct := numbered_distinct hascends
  rw [labelOffsets_eq, ← mem_numbered]
  constructor
  · intro hfound
    by_cases hmem : offset ∈ labelledPlaces code referenced
    · obtain ⟨number, hnumber⟩ := List.mem_iff_getElem?.1 hmem
      have hentry : (offset, Label.mk number) ∈ numbered (labelledPlaces code referenced) :=
        mem_numbered.2 hnumber
      rw [Std.HashMap.getElem?_ofList_of_mem (beq_self_eq_true offset) hdistinct hentry] at hfound
      obtain rfl := Option.some.inj hfound
      exact hentry
    · rw [Std.HashMap.getElem?_ofList_of_contains_eq_false] at hfound
      · cases hfound
      · rw [map_fst_numbered]
        simpa using hmem
  · exact Std.HashMap.getElem?_ofList_of_mem (beq_self_eq_true offset) hdistinct

/-- There are as many labels as offsets that are referred to. -/
theorem size_labelOffsets (h : code.places.Pairwise (· < ·)) :
    (labelOffsets code referenced).size = (labelledPlaces code referenced).length := by
  rw [labelOffsets_eq, Std.HashMap.size_ofList (numbered_distinct (labelledPlaces_ascend h)),
    ← List.length_map (f := (·.1)), map_fst_numbered]

/-- The lines at an offset are those of the entries that start there. -/
theorem linesByOffset_getD (entries : List LineEntry) :
    (linesByOffset code entries).getD offset [] =
      if code.isStart offset then
        (entries.filter fun entry => entry.start.toNat = offset).map (·.line)
      else [] := by
  -- on the entries, each of which comes in front of those behind it
  induction entries with
  | nil =>
    change (∅ : Std.HashMap Nat (List UInt16)).getD offset [] = _
    rw [Std.HashMap.getD_empty]
    split <;> rfl
  | cons entry entries ih =>
    change (if code.isStart entry.start.toNat then
      (linesByOffset code entries).insert entry.start.toNat
        (entry.line :: (linesByOffset code entries).getD entry.start.toNat [])
      else linesByOffset code entries).getD offset [] = _
    by_cases heq : entry.start.toNat = offset
    · subst heq
      by_cases hstart : code.isStart entry.start.toNat = true
      · rw [if_pos hstart, Std.HashMap.getD_insert_self, ih, if_pos hstart, if_pos hstart]
        simp
      · rw [if_neg hstart, ih, if_neg hstart, if_neg hstart]
    · have hfilter : (entry :: entries).filter (fun entry => entry.start.toNat = offset) =
          entries.filter fun entry => entry.start.toNat = offset :=
        List.filter_cons_of_neg (by simpa using heq)
      rw [hfilter, ← ih]
      split
      · rw [Std.HashMap.getD_insert, if_neg (by simpa using heq)]
      · rfl

end Body

/-! ### Moving code -/

/-- An exception table entry whose places have moved. -/
def ExceptionEntry.moved (move : Nat → Nat) (entry : ExceptionEntry) : ExceptionEntry :=
  ⟨UInt16.ofNat (move entry.start.toNat), UInt16.ofNat (move entry.stop.toNat),
    UInt16.ofNat (move entry.handler.toNat), entry.caught⟩

/-- A debug table entry whose range has moved. -/
def VariableEntry.moved (move : Nat → Nat) (entry : VariableEntry) : VariableEntry :=
  let stop := entry.start.toNat + entry.length.toNat
  ⟨UInt16.ofNat (move entry.start.toNat), UInt16.ofNat (move stop - move entry.start.toNat),
    entry.name, entry.descriptor, entry.slot⟩

/-- Some code is other code that has moved: its operations have come to other offsets, in the same
order. -/
structure DecodedCode.Moved (move : Nat → Nat) (code code' : DecodedCode) : Prop where
  length_eq : code'.length = move code.length
  operations_eq : code'.operations =
    code.operations.map fun entry => (move entry.1, entry.2.map move)
  ascends : code.places.Pairwise (· < ·)
  ascends' : code'.places.Pairwise (· < ·)
  targets : ∀ entry ∈ code.operations, ∀ target ∈ entry.2.targets, target ∈ code.places

namespace DecodedCode.Moved

variable {move : Nat → Nat} {code code' : DecodedCode}

/-- All places have moved, the end included. -/
theorem places_eq (h : Moved move code code') : code'.places = code.places.map move := by
  unfold places
  rw [h.operations_eq, h.length_eq, List.map_append, List.map_map, List.map_map]
  rfl

/-- Places keep their order. -/
theorem lt_iff (h : Moved move code code') {offset offset' : Nat} (hmem : offset ∈ code.places)
    (hmem' : offset' ∈ code.places) : move offset < move offset' ↔ offset < offset' := by
  have hforward : ∀ {a b : Nat}, a ∈ code.places → b ∈ code.places → a < b → move a < move b := by
    intro a b ha hb hlt
    obtain ⟨i, hi, rfl⟩ := List.getElem_of_mem ha
    obtain ⟨j, hj, rfl⟩ := List.getElem_of_mem hb
    have hij : i < j := by
      by_contra hge
      rcases Nat.eq_or_lt_of_le (Nat.not_lt.1 hge) with rfl | hless
      · exact Nat.lt_irrefl _ hlt
      · exact Nat.lt_asymm hlt (List.pairwise_iff_getElem.1 h.ascends j i hj hi hless)
    have hmoved := h.ascends'
    rw [h.places_eq] at hmoved
    exact List.pairwise_iff_getElem.1 (List.pairwise_map.1 hmoved) i j hi hj hij
  constructor
  · intro hlt
    by_contra hge
    rcases Nat.eq_or_lt_of_le (Nat.not_lt.1 hge) with rfl | hless
    · exact Nat.lt_irrefl _ hlt
    · exact Nat.lt_asymm hlt (hforward hmem' hmem hless)
  · exact hforward hmem hmem'

theorem injective (h : Moved move code code') {offset offset' : Nat} (hmem : offset ∈ code.places)
    (hmem' : offset' ∈ code.places) : move offset = move offset' ↔ offset = offset' := by
  constructor
  · intro heq
    have hlt := h.lt_iff hmem hmem'
    have hgt := h.lt_iff hmem' hmem
    omega
  · rintro rfl
    rfl

end DecodedCode.Moved

namespace Body

section Moved

variable {move : Nat → Nat} {decoded decoded' : DecodedCode} {references : List Nat}

theorem labelledPlaces_moved (h : decoded.Moved move decoded')
    (hreferences : references ⊆ decoded.places) :
    labelledPlaces decoded' (.ofList (references.map move)) =
      (labelledPlaces decoded (.ofList references)).map move := by
  unfold labelledPlaces
  rw [h.places_eq, List.filter_map]
  congr 1
  refine List.filter_congr fun offset hoffset => ?_
  rw [Function.comp, Bool.eq_iff_iff, Std.HashSet.contains_ofList, Std.HashSet.contains_ofList,
    List.contains_iff_mem, List.contains_iff_mem, List.mem_map]
  constructor
  · rintro ⟨offset', hmem, heq⟩
    rwa [← (h.injective (hreferences hmem) hoffset).1 heq]
  · exact fun hmem => ⟨offset, hmem, rfl⟩

/-- Labels keep their numbers when code moves. -/
theorem labelOffsets_moved (h : decoded.Moved move decoded')
    (hreferences : references ⊆ decoded.places) {offset : Nat} (hoffset : offset ∈ decoded.places) :
    (labelOffsets decoded' (.ofList (references.map move)))[move offset]? =
      (labelOffsets decoded (.ofList references))[offset]? := by
  refine Option.ext fun label => ?_
  rw [labelOffsets_eq_some h.ascends', labelOffsets_eq_some h.ascends,
    labelledPlaces_moved h hreferences, List.getElem?_map, Option.map_eq_some_iff]
  constructor
  · rintro ⟨offset', hlabel, heq⟩
    have hmem : offset' ∈ decoded.places := (List.mem_filter.1 (List.mem_of_getElem? hlabel)).1
    rwa [← (h.injective hmem hoffset).1 heq]
  · exact fun hlabel => ⟨offset, hlabel, rfl⟩

theorem size_labelOffsets_moved (h : decoded.Moved move decoded')
    (hreferences : references ⊆ decoded.places) :
    (labelOffsets decoded' (.ofList (references.map move))).size =
      (labelOffsets decoded (.ofList references)).size := by
  rw [size_labelOffsets h.ascends', size_labelOffsets h.ascends,
    labelledPlaces_moved h hreferences, List.length_map]

variable {code code' : Code} {attributes attributes' : CodeAttributes}

theorem toNat_move (hsmall : ∀ offset ∈ decoded.places, move offset < 65536) {offset : Nat}
    (hoffset : offset ∈ decoded.places) : (UInt16.ofNat (move offset)).toNat = move offset :=
  UInt16.toNat_ofNat_of_lt' (hsmall offset hoffset)

/-- All places of an exception table entry are places of the code. -/
def Stands (decoded : DecodedCode) (entry : ExceptionEntry) : Prop :=
  entry.start.toNat ∈ decoded.places ∧ entry.stop.toNat ∈ decoded.places ∧
    entry.handler.toNat ∈ decoded.places

/-- The range of a variable lies between two places of the code. -/
def Ranges (decoded : DecodedCode) (entry : VariableEntry) : Prop :=
  entry.start.toNat ∈ decoded.places ∧
    entry.start.toNat + entry.length.toNat ∈ decoded.places

/-- The range of a variable moves with the code. -/
theorem variableOffsets_moved (h : decoded.Moved move decoded')
    (hsmall : ∀ offset ∈ decoded.places, move offset < 65536) {entry : VariableEntry}
    (hranges : Ranges decoded entry) :
    variableOffsets (entry.moved move) = (variableOffsets entry).map move := by
  obtain ⟨hstart, hstop⟩ := hranges
  have hle : move entry.start.toNat ≤ move (entry.start.toNat + entry.length.toNat) := by
    have hgt := h.lt_iff hstop hstart
    omega
  have hlt := hsmall _ hstop
  have hlength : (UInt16.ofNat (move (entry.start.toNat + entry.length.toNat) -
      move entry.start.toNat)).toNat =
        move (entry.start.toNat + entry.length.toNat) - move entry.start.toNat :=
    UInt16.toNat_ofNat_of_lt' (show _ < 65536 by omega)
  unfold variableOffsets VariableEntry.moved
  dsimp only
  rw [toNat_move hsmall hstart, hlength, Nat.add_sub_cancel' hle]
  rfl

/-- What refers to offsets refers to where they have moved. -/
theorem referencedOffsets_moved (h : decoded.Moved move decoded')
    (hsmall : ∀ offset ∈ decoded.places, move offset < 65536)
    (hexceptions : ∀ entry ∈ code.exceptions, Stands decoded entry)
    (hexceptions' : code'.exceptions = code.exceptions.map (·.moved move))
    {ranges : List VariableEntry} (hranges : ∀ entry ∈ ranges, Ranges decoded entry) :
    referencedOffsets code' decoded' (ranges.map (·.moved move)) =
      (referencedOffsets code decoded ranges).map move := by
  unfold referencedOffsets
  rw [h.operations_eq, hexceptions', List.map_append, List.map_append, List.map_flatMap,
    List.map_flatMap, List.map_flatMap, List.flatMap_map, List.flatMap_map, List.flatMap_map]
  congr 1
  · congr 1
    · refine List.flatMap_congr fun entry _ => ?_
      exact Operation.targets_map move entry.2
    · refine List.flatMap_congr fun entry hentry => ?_
      obtain ⟨hstart, hstop, hhandler⟩ := hexceptions entry hentry
      unfold ExceptionEntry.moved
      dsimp only
      rw [toNat_move hsmall hstart, toNat_move hsmall hstop, toNat_move hsmall hhandler]
      rfl
  · exact List.flatMap_congr fun entry hentry => variableOffsets_moved h hsmall (hranges entry hentry)

/-- Only places are referred to. -/
theorem referencedOffsets_subset (code : Code) (h : decoded.Moved move decoded')
    (hexceptions : ∀ entry ∈ code.exceptions, Stands decoded entry) {ranges : List VariableEntry}
    (hranges : ∀ entry ∈ ranges, Ranges decoded entry) :
    referencedOffsets code decoded ranges ⊆ decoded.places := by
  intro offset hmem
  unfold referencedOffsets at hmem
  simp only [List.mem_append, List.mem_flatMap] at hmem
  rcases hmem with (⟨entry, hentry, htarget⟩ | ⟨entry, hentry, hplace⟩) | ⟨entry, hentry, hplace⟩
  · exact h.targets entry hentry offset htarget
  · obtain ⟨hstart, hstop, hhandler⟩ := hexceptions entry hentry
    simp only [List.mem_cons, List.not_mem_nil, or_false] at hplace
    rcases hplace with rfl | rfl | rfl
    · exact hstart
    · exact hstop
    · exact hhandler
  · obtain ⟨hstart, hstop⟩ := hranges entry hentry
    simp only [variableOffsets, List.mem_cons, List.not_mem_nil, or_false] at hplace
    rcases hplace with rfl | rfl
    · exact hstart
    · exact hstop

/-- Attributes say the same about code that has moved. -/
structure Follows (move : Nat → Nat) (decoded decoded' : DecodedCode)
    (attributes attributes' : CodeAttributes) : Prop where
  localVariables : attributes'.localVariables.filter decoded'.admits =
    (attributes.localVariables.filter decoded.admits).map (·.moved move)
  variableTypes : attributes'.variableTypes.filter decoded'.admits =
    (attributes.variableTypes.filter decoded.admits).map (·.moved move)
  lines : ∀ entry ∈ decoded.operations,
    (linesByOffset decoded' attributes'.lines).getD (move entry.1) [] =
      (linesByOffset decoded attributes.lines).getD entry.1 []
  others : attributes'.others = attributes.others

/-- When offsets keep their labels, the body that is made of some code does not change. -/
theorem assembleWith_moved {labels labels' : Std.HashMap Nat Label}
    (hlabels : ∀ offset ∈ decoded.places, labels'[move offset]? = labels[offset]?)
    (hsize : labels'.size = labels.size) (h : decoded.Moved move decoded')
    (hsmall : ∀ offset ∈ decoded.places, move offset < 65536)
    (hstack : code'.maxStack = code.maxStack) (hlocals : code'.maxLocals = code.maxLocals)
    (hexceptions : ∀ entry ∈ code.exceptions, Stands decoded entry)
    (hexceptions' : code'.exceptions = code.exceptions.map (·.moved move))
    (hranges : ∀ entry, decoded.admits entry = true → Ranges decoded entry)
    (hfollows : Follows move decoded decoded' attributes attributes') :
    assembleWith labels' code' decoded' attributes' = assembleWith labels code decoded attributes := by
  have hlabelAt : ∀ offset ∈ decoded.places,
      labels'.getD (move offset) default = labels.getD offset default := by
    intro offset hoffset
    rw [Std.HashMap.getD_eq_getD_getElem?, Std.HashMap.getD_eq_getD_getElem?, hlabels offset hoffset]
  have hend : decoded.length ∈ decoded.places :=
    List.mem_append_right _ (List.mem_singleton.2 rfl)
  -- operations, handlers and ranges name the same labels, one after the other
  have hnodes : decoded'.operations.flatMap (fun entry =>
      operationNodes labels' (linesByOffset decoded' attributes'.lines) entry.1 entry.2) =
      decoded.operations.flatMap fun entry =>
        operationNodes labels (linesByOffset decoded attributes.lines) entry.1 entry.2 := by
    rw [h.operations_eq, List.flatMap_map]
    refine List.flatMap_congr fun entry hentry => ?_
    have hplace : entry.1 ∈ decoded.places := List.mem_append_left _ (List.mem_map_of_mem hentry)
    have hoperation : entry.2.map ((labels'.getD · default) ∘ move) =
        entry.2.map (labels.getD · default) :=
      Operation.map_congr fun target htarget =>
        hlabelAt target (h.targets entry hentry target htarget)
    unfold operationNodes
    dsimp only
    rw [hlabels entry.1 hplace, hfollows.lines entry hentry, Operation.map_map, hoperation]
  have hhandlers : code'.exceptions.map (handler (labels'.getD · default)) =
      code.exceptions.map (handler (labels.getD · default)) := by
    rw [hexceptions', List.map_map]
    refine List.map_congr_left fun entry hentry => ?_
    obtain ⟨hstart, hstop, hhandler⟩ := hexceptions entry hentry
    simp only [Function.comp, handler, ExceptionEntry.moved, toNat_move hsmall hstart,
      toNat_move hsmall hstop, toNat_move hsmall hhandler, hlabelAt _ hstart, hlabelAt _ hstop,
      hlabelAt _ hhandler]
  -- entries that are not admitted are left out on both sides
  have hvariables : ∀ entries : List VariableEntry,
      ((entries.filter decoded.admits).map (·.moved move)).map
        (variableRange (labels'.getD · default)) =
      (entries.filter decoded.admits).map (variableRange (labels.getD · default)) := by
    intro entries
    rw [List.map_map]
    refine List.map_congr_left fun entry hentry => ?_
    have hrange := hranges entry (List.mem_filter.1 hentry).2
    have hoffsets := variableOffsets_moved h hsmall hrange
    obtain ⟨hstart, hstop⟩ := hrange
    simp only [variableOffsets, List.map_cons, List.map_nil, List.cons.injEq, and_true] at hoffsets
    unfold Function.comp variableRange
    rw [hoffsets.2, hoffsets.1]
    dsimp only
    rw [hlabelAt _ hstart, hlabelAt _ hstop]
    rfl
  unfold assembleWith
  rw [hnodes, hhandlers, hfollows.localVariables, hfollows.variableTypes, hvariables, hvariables,
    hstack, hlocals, hfollows.others, hsize, h.length_eq, hlabels _ hend]

/-- The body that is made of some code does not change when the code moves. -/
theorem assemble_moved (h : decoded.Moved move decoded')
    (hsmall : ∀ offset ∈ decoded.places, move offset < 65536)
    (hstack : code'.maxStack = code.maxStack) (hlocals : code'.maxLocals = code.maxLocals)
    (hexceptions : ∀ entry ∈ code.exceptions, Stands decoded entry)
    (hexceptions' : code'.exceptions = code.exceptions.map (·.moved move))
    (hranges : ∀ entry, decoded.admits entry = true → Ranges decoded entry)
    (hfollows : Follows move decoded decoded' attributes attributes') :
    assemble code' decoded' attributes' = assemble code decoded attributes := by
  have hadmitted : ∀ {entries : List VariableEntry}, ∀ entry ∈ entries.filter decoded.admits,
      Ranges decoded entry :=
    fun entry hentry => hranges entry (List.mem_filter.1 hentry).2
  have hall : ∀ entry ∈ attributes.localVariables.filter decoded.admits ++
      attributes.variableTypes.filter decoded.admits, Ranges decoded entry :=
    List.forall_mem_append.2 ⟨hadmitted, hadmitted⟩
  have hsubset := referencedOffsets_subset code h hexceptions hall
  -- labels are given in the order of offsets, which moving keeps
  have htable : labelTable code' decoded' attributes' = labelOffsets decoded'
      (.ofList ((referencedOffsets code decoded (attributes.localVariables.filter decoded.admits ++
        attributes.variableTypes.filter decoded.admits)).map move)) := by
    unfold labelTable labelledOffsets
    rw [hfollows.localVariables, hfollows.variableTypes, ← List.map_append,
      referencedOffsets_moved h hsmall hexceptions hexceptions' hall]
  unfold assemble
  rw [htable]
  exact assembleWith_moved (fun offset hoffset => labelOffsets_moved h hsubset hoffset)
    (size_labelOffsets_moved h hsubset) h hsmall hstack hlocals hexceptions hexceptions' hranges hfollows

end Moved

end Body

end Preverification
