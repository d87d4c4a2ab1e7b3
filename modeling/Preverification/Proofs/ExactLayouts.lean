import Mathlib.Data.Bool.Count
import Preverification.Proofs.Encoding
import Preverification.Proofs.ExceptionTables

/-!
# Layouts are exact

Each round of `Layout.settle` makes at least one jump long, so there are no more rounds than jumps,
and one that finds that nothing is to be done. At the layout that comes out, nothing that was laid
out can fail to be written: each node takes up exactly the room up to the next one, and the operands
of each branch, as numbers in two's complement, are the distances to its targets.

* `Layout.settle_rounds`: each round makes at least one more jump long.
* `Layout.Places.renders`: each node takes up exactly the room up to the next one.
* `Layout.Places.encode_error`: writing a body at its layout fails only at the name of a debug
  table.
* `Body.layout_exact`: a layout is exactly that of the code, after as many rounds as there are jumps
  at most.
-/

namespace Preverification

namespace Layout

/-! ### Rounds -/

/-- Whether a node is a jump, which may have to be long. -/
def isJump (node : Node) : Bool := (jumpTarget? node).isSome

/-- The jumps that are long after a number of rounds. -/
def widened (nodes : List Node) (rounds : Nat) : List Bool :=
  (lengthen nodes)^[rounds] (nodes.map fun _ => false)

/-- Jumps are settled after a number of rounds, each of which makes some of them long; one more
round changes nothing. -/
structure SettlesIn (nodes : List Node) (rounds : Nat) : Prop where
  settle_eq : settle nodes (nodes.map fun _ => false) = widened nodes rounds
  settled : lengthen nodes (widened nodes rounds) = widened nodes rounds
  widens : ∀ round < rounds, lengthen nodes (widened nodes round) ≠ widened nodes round

section Rounds

variable {nodes : List Node} {longs : List Bool}

/-- Nothing but jumps is long. -/
def OnlyJumps (nodes : List Node) (longs : List Bool) : Prop :=
  List.Forall₂ (fun node long => long = true → isJump node = true) nodes longs

/-- At first no jump is long. -/
theorem onlyJumps_short (nodes : List Node) : OnlyJumps nodes (nodes.map fun _ => false) := by
  induction nodes with
  | nil => exact .nil
  | cons node nodes ih => exact .cons (fun h => nomatch h) ih

/-- What needs to be long is a jump. -/
theorem isJump_of_needsLong {labels : Std.HashMap Label Nat} {node : Node} {offset : Nat}
    (h : needsLong labels node offset = true) : isJump node = true := by
  unfold needsLong at h
  unfold isJump
  split at h
  · rename_i htarget
    rw [htarget]
    rfl
  · cases h

/-- What is made long is a jump. -/
theorem OnlyJumps.zipWith (h : OnlyJumps nodes longs) (labels : Std.HashMap Label Nat)
    {offsets : List Nat} (hlength : offsets.length = nodes.length) :
    OnlyJumps nodes
      (List.zipWith (· || ·) longs (List.zipWith (needsLong labels) nodes offsets)) := by
  unfold OnlyJumps at h ⊢
  induction h generalizing offsets with
  | nil => exact .nil
  | cons hnode _ ih =>
    rcases offsets with _ | ⟨offset, offsets⟩
    · cases hlength
    · refine .cons (fun hlong => ?_) (ih (Nat.succ.inj hlength))
      rcases Bool.or_eq_true_iff.1 hlong with hlong | hneeds
      · exact hnode hlong
      · exact isJump_of_needsLong hneeds

/-- Each round makes only jumps long. -/
theorem OnlyJumps.lengthen (h : OnlyJumps nodes longs) :
    OnlyJumps nodes (Layout.lengthen nodes longs) := by
  have hoffsets := length_offsetsFrom [] 0 nodes longs h.length_eq.symm
  exact h.zipWith _ (by simpa using hoffsets)

/-- No more operations become long than there are jumps. -/
theorem OnlyJumps.count_le (h : OnlyJumps nodes longs) :
    longs.count true ≤ nodes.countP isJump := by
  unfold OnlyJumps at h
  induction h with
  | nil => exact Nat.le_refl _
  | @cons node long nodes longs hnode _ ih =>
    rw [List.count_cons, List.countP_cons]
    cases long with
    | false => exact Nat.le_trans ih (Nat.le_add_right _ _)
    | true =>
      rw [hnode rfl]
      simpa using ih

/-- Jumps are settled after some rounds, each of which makes one more jump long at least. -/
theorem settle_rounds (nodes : List Node) (longs : List Bool) (h : OnlyJumps nodes longs) :
    ∃ rounds, rounds + longs.count true ≤ nodes.countP isJump ∧
      settle nodes longs = (lengthen nodes)^[rounds] longs ∧
      ∀ round < rounds,
        lengthen nodes ((lengthen nodes)^[round] longs) ≠ (lengthen nodes)^[round] longs := by
  induction longs using settle.induct nodes with
  | case1 longs hcount ih =>
    obtain ⟨rounds, hrounds, hsettle, hwidens⟩ := ih h.lengthen
    have hlength : (lengthen nodes longs).length = longs.length :=
      h.lengthen.length_eq.symm.trans h.length_eq
    have hbefore := List.count_true_add_count_false longs
    have hafter := List.count_true_add_count_false (lengthen nodes longs)
    refine ⟨rounds + 1, by omega, ?_, ?_⟩
    · rw [settle, if_pos hcount, hsettle, Function.iterate_succ_apply]
    · rintro (_ | round) hround
      · exact fun heq => absurd (congrArg (List.count false) heq) (Nat.ne_of_lt hcount)
      · rw [Function.iterate_succ_apply]
        exact hwidens round (Nat.lt_of_succ_lt_succ hround)
  | case2 longs hcount =>
    refine ⟨0, ?_, ?_, fun round hround => absurd hround (Nat.not_lt_zero round)⟩
    · rw [Nat.zero_add]
      exact h.count_le
    · rw [settle, if_neg hcount]
      rfl

/-- Jumps are settled after as many rounds as there are jumps, at most. -/
theorem exists_settlesIn (nodes : List Node) :
    ∃ rounds ≤ nodes.countP isJump, SettlesIn nodes rounds := by
  obtain ⟨rounds, hrounds, hsettle, hwidens⟩ := settle_rounds nodes _ (onlyJumps_short nodes)
  have hsettled := lengthen_settle nodes (nodes.map fun _ => false) (List.length_map _)
  refine ⟨rounds, by omega, hsettle, ?_, hwidens⟩
  rw [hsettle] at hsettled
  exact hsettled

end Rounds

end Layout

/-! ### Numbers in code -/

namespace Bytes

/-- The number that some bytes stand for in two's complement, the highest byte first. -/
def toInt (bytes : Bytes) : Int := (bytes.toNat : Int).bmod (256 ^ bytes.length)

/-- Numbers stand one after the other, from a place in some bytes up to another one, each in a
number of bytes of its own. -/
def Holds (bytes : Bytes) : (start : Nat) → List (Nat × Int) → (stop : Nat) → Prop
  | start, [], stop => start = stop
  | start, (width, n) :: rest, stop =>
    start + width ≤ bytes.length ∧ toInt ((bytes.drop start).take width) = n ∧
      bytes.Holds (start + width) rest stop

/-- The number that a word stands for, behind the number of its bytes. -/
def number (word : Bytes) : Nat × Int := (word.length, toInt word)

/-- Words that are written one after the other can be read. -/
theorem holds_append (front : Bytes) (words : List Bytes) (back : Bytes) :
    Holds (front ++ words.flatten ++ back) front.length
      (words.map number) (front ++ words.flatten).length := by
  induction words generalizing front with
  | nil => simp [Holds]
  | cons word words ih =>
    have hrest := ih (front ++ word)
    simp only [List.append_assoc, List.length_append] at hrest
    simp only [List.flatten_cons, List.append_assoc, List.map_cons]
    refine ⟨?_, ?_, ?_⟩
    · simp
    · simp
    · simpa using hrest

theorem number_ofInt16 (n : Int16) : number (ofInt16 n) = (2, n.toInt) := by
  have hlt : n.toUInt16.toNat < limit 2 := n.toUInt16.toNat_lt
  unfold number toInt ofInt16
  rw [toNat_ofNat hlt, length_ofNat]
  exact congrArg (2, ·) (BitVec.toInt_eq_toNat_bmod n.toBitVec).symm

theorem number_ofInt32 (n : Int32) : number (ofInt32 n) = (4, n.toInt) := by
  have hlt : n.toUInt32.toNat < limit 4 := n.toUInt32.toNat_lt
  unfold number toInt ofInt32
  rw [toNat_ofNat hlt, length_ofNat]
  exact congrArg (4, ·) (BitVec.toInt_eq_toNat_bmod n.toBitVec).symm

end Bytes

namespace Branch

variable {L : Type}

/-- A distance that is short enough is the number in its two bytes. -/
theorem number_writeShort {distance : Int} (h : isShort distance = true) :
    Bytes.number (writeShort distance) = (2, distance) := by
  simp only [isShort, Bool.and_eq_true, decide_eq_true_eq] at h
  rw [writeShort, Bytes.number_ofInt16, Int16.toInt_ofInt_of_le (by omega) (by omega)]

/-- Any distance within reach is the number in its four bytes. -/
theorem number_writeLong {distance : Int} (h : isLong distance = true) :
    Bytes.number (writeLong distance) = (4, distance) := by
  simp only [isLong, Bool.and_eq_true, decide_eq_true_eq] at h
  rw [writeLong, Bytes.number_ofInt32, Int32.toInt_ofInt_of_le (by omega) (by omega)]

/-- Whether a branch chooses by a key. -/
def isSwitch : Branch L → Bool
  | tableSwitch .. | lookupSwitch .. => true
  | _ => false

/-- The place of the first operand of a branch at an offset: behind the opcode, and behind the
padding of a switch. -/
def operandStart (offset : Nat) (b : Branch L) : Nat :=
  if b.isSwitch then offset + 1 + padding offset else offset + 1

/-- The padding of a switch brings its operands to a multiple of four. -/
theorem operandStart_mod {b : Branch L} (offset : Nat) (h : b.isSwitch = true) :
    b.operandStart offset % 4 = 0 := by
  unfold operandStart padding
  rw [if_pos h]
  omega

theorem operandStart_map {M : Type} (f : L → M) (offset : Nat) (b : Branch L) :
    (b.map f).operandStart offset = b.operandStart offset := by
  cases b <;> rfl

/-- The last key of a table, in two's complement. -/
def lastKey (low : Int32) (targets : List L) : Int :=
  (low.toInt + targets.length - 1).bmod (2 ^ 32)

/-- The operands of a branch that has targets, each with the number of its bytes. -/
def operands (long : Bool) (distance : L → Int) : Branch L → List (Nat × Int)
  | ifInt _ target | ifInts _ target | ifRefs _ target | ifNull _ target => [(2, distance target)]
  | goto target | jsr target => [(if long then 4 else 2, distance target)]
  | tableSwitch low default targets =>
    [(4, distance default), (4, low.toInt), (4, lastKey low targets)] ++
      targets.map fun target => (4, distance target)
  | lookupSwitch default cases =>
    [(4, distance default), (4, cases.length)] ++
      cases.flatMap fun (key, target) => [(4, key.toInt), (4, distance target)]
  | ret _ | returnValue _ | returnVoid | throwException => []

/-- The operands as they are written. -/
def words (long : Bool) : Branch Int → List Bytes
  | ifInt _ target | ifInts _ target | ifRefs _ target | ifNull _ target => [writeShort target]
  | goto target | jsr target => [if long then writeLong target else writeShort target]
  | tableSwitch low default targets =>
    [writeLong default, Bytes.ofInt32 low,
      Bytes.ofInt32 (low + Int32.ofNat targets.length - 1)] ++ targets.map writeLong
  | lookupSwitch default cases =>
    [writeLong default, Bytes.ofInt32 (Int32.ofNat cases.length)] ++
      cases.flatMap fun (key, target) => [Bytes.ofInt32 key, writeLong target]
  | ret _ | returnValue _ | returnVoid | throwException => []

/-- A branch that has targets is written as an opcode, perhaps with padding, and its operands. -/
theorem write_eq_words {b : Branch Int} (long : Bool) (offset : Nat) (h : b.targets ≠ []) :
    ∃ head, b.write long offset = head ++ (b.words long).flatten ∧
      offset + head.length = b.operandStart offset := by
  cases b with
  | ifInt test target | ifInts test target | ifRefs test target | ifNull test target =>
    exact ⟨[_], congrArg (_ :: ·) (List.append_nil _).symm, rfl⟩
  | goto target | jsr target =>
    cases long <;> exact ⟨[_], congrArg (_ :: ·) (List.append_nil _).symm, rfl⟩
  | tableSwitch low default targets =>
    refine ⟨0xAA :: List.replicate (padding offset) 0, ?_, ?_⟩
    · simp [write, words, List.flatMap_def]
    · rw [List.length_cons, List.length_replicate, Nat.add_comm _ 1, ← Nat.add_assoc]
      rfl
  | lookupSwitch default cases =>
    refine ⟨0xAB :: List.replicate (padding offset) 0, ?_, ?_⟩
    · simp [write, words, List.flatMap_def, List.flatten_flatten, Function.comp_def]
    · rw [List.length_cons, List.length_replicate, Nat.add_comm _ 1, ← Nat.add_assoc]
      rfl
  | ret _ | returnValue _ | returnVoid | throwException => exact absurd rfl h

theorem toInt_lastKey (low : Int32) (targets : List L) :
    (low + Int32.ofNat targets.length - 1).toInt = lastKey low targets := by
  unfold lastKey
  rw [Int32.toInt_sub, Int32.toInt_add, Int32.toInt_ofNat']
  simp

/-- The last key of a table that has any is that of its last target. -/
theorem lastKey_eq {low : Int32} {targets : List L}
    (hlow : low.toInt + targets.length ≤ 2147483647) (hne : targets ≠ []) :
    lastKey low targets = low.toInt + targets.length - 1 := by
  have hpos : 0 < targets.length := List.length_pos_iff.2 hne
  have hle := low.le_toInt
  unfold lastKey
  exact Int.bmod_eq_of_le (by omega) (by omega)

/-- The operands of a branch are written as the numbers that they are. -/
theorem words_map {b : Branch L} {long : Bool} {offset : Nat} {distance : L → Int}
    (hroom : (b.map distance).hasRoom long = true) (hwidth : b.width long offset ≤ 65535) :
    ((b.map distance).words long).map Bytes.number = b.operands long distance := by
  cases b with
  | ifInt _ target | ifInts _ target | ifRefs _ target | ifNull _ target =>
    exact congrArg (· :: []) (number_writeShort hroom)
  | goto target | jsr target =>
    cases long with
    | false => exact congrArg (· :: []) (number_writeShort hroom)
    | true => exact congrArg (· :: []) (number_writeLong hroom)
  | tableSwitch low default targets =>
    simp only [map, hasRoom, Bool.and_eq_true, List.all_map, List.all_eq_true,
      Function.comp_apply] at hroom
    obtain ⟨hdefault, htargets⟩ := hroom
    have hlast := toInt_lastKey low (targets.map distance)
    have hkeys : lastKey low (targets.map distance) = lastKey low targets := by
      simp [lastKey]
    simp only [map, words, operands, List.map_append, List.map_cons, List.map_nil, List.map_map,
      number_writeLong hdefault, Bytes.number_ofInt32, hlast, hkeys]
    refine congrArg (_ ++ ·) (List.map_congr_left fun target hmem => ?_)
    exact number_writeLong (htargets target hmem)
  | lookupSwitch default cases =>
    simp only [map, hasRoom, Bool.and_eq_true, List.all_map, List.all_eq_true,
      Function.comp_apply] at hroom
    obtain ⟨hdefault, hcases⟩ := hroom
    -- the number of cases fits, as the width of all of them does
    have hcount : (Int32.ofNat cases.length).toInt = cases.length := by
      refine Int32.toInt_ofNat_of_lt ?_
      simp only [width] at hwidth
      omega
    simp only [map, words, operands, List.map_append, List.map_cons, List.map_nil, List.length_map,
      number_writeLong hdefault, Bytes.number_ofInt32, hcount, List.map_flatMap, List.flatMap_map]
    refine congrArg (_ ++ ·) (List.flatMap_congr fun case hmem => ?_)
    rw [number_writeLong (hcases case hmem)]
  | ret _ | returnValue _ | returnVoid | throwException => rfl

end Branch

/-! ### Nodes in code -/

namespace Layout

/-- The offset at which a node is laid out. Behind the last node it is the length of the code. -/
def boundaryAt (layout : Layout) (place : Nat) : Nat :=
  (layout.offset? place).getD layout.codeLength

/-- Some code is made of the nodes of a layout: each stands between its offset and that of the next
one, and the operands of branches are the distances to their targets. -/
structure Renders (layout : Layout) (bytecode : Bytes) : Prop where
  length_eq : bytecode.length = layout.codeLength
  stands : ∀ {place : Nat} {node : Node} {offset : Nat} {long : Bool},
    layout.nodes[place]? = some (node, offset, long) →
      ∃ front bytes back, layout.nodeBytes node offset long = .ok bytes ∧
        bytecode = front ++ bytes ++ back ∧ front.length = offset ∧
        (front ++ bytes).length = layout.boundaryAt (place + 1)
  operands : ∀ {place : Nat} {b : Branch Label} {offset : Nat} {long : Bool},
    layout.nodes[place]? = some (.operation (.branch b), offset, long) → b.targets ≠ [] →
      bytecode.Holds (b.operandStart offset)
        (b.operands long fun label => (layout.offsetOf label : Int) - offset)
        (layout.boundaryAt (place + 1))

section Places

variable {layout : Layout} {body : Body} {place offset : Nat} {node : Node} {long : Bool}

/-- A node takes up the room up to the next one. -/
theorem Laid.split {start stop : Nat} {laid : List (Node × Nat × Bool)} (h : Laid start laid stop)
    (hentry : laid[place]? = some (node, offset, long)) :
    Laid start (laid.take place) offset ∧
      Laid (offset + nodeWidth node long offset) (laid.drop (place + 1)) stop := by
  obtain ⟨hlt, hget⟩ := List.getElem?_eq_some_iff.1 hentry
  have hoffset : laid[place]?.map (·.2.1) = some offset := by
    rw [hentry]
    rfl
  obtain ⟨hfront, hback⟩ := h.cut hoffset
  rw [List.drop_eq_getElem_cons hlt, hget] at hback
  cases hback with
  | cons hback => exact ⟨hfront, hback⟩

theorem Laid.offset_head? {start stop : Nat} {laid : List (Node × Nat × Bool)}
    (h : Laid start laid stop) : (laid.head?.map (·.2.1)).getD stop = start := by
  cases h <;> rfl

/-- A node ends where the next one starts. -/
theorem Places.boundaryAt_succ (h : layout.Places body)
    (hentry : layout.nodes[place]? = some (node, offset, long)) :
    layout.boundaryAt (place + 1) = offset + nodeWidth node long offset := by
  obtain ⟨-, hback⟩ := h.laid.split hentry
  unfold boundaryAt offset?
  rw [← List.head?_drop]
  exact hback.offset_head?

/-- The bytes of nodes up to a place end at its offset. -/
theorem Places.length_front (h : layout.Places body)
    (hentry : layout.nodes[place]? = some (node, offset, long)) :
    ((layout.nodes.take place).flatMap layout.form).length = offset := by
  have hlength := (h.laid.split hentry).1.length_form layout
  rwa [Nat.zero_add] at hlength

/-- The bytes of all nodes are those of the ones in front of a place, that one, and those behind it.
-/
theorem flatMap_form_split (hentry : layout.nodes[place]? = some (node, offset, long)) :
    layout.nodes.flatMap layout.form = (layout.nodes.take place).flatMap layout.form ++
      layout.form (node, offset, long) ++ (layout.nodes.drop (place + 1)).flatMap layout.form := by
  obtain ⟨hlt, hget⟩ := List.getElem?_eq_some_iff.1 hentry
  conv_lhs => rw [← List.take_append_drop place layout.nodes, List.drop_eq_getElem_cons hlt, hget]
  rw [List.flatMap_append, List.flatMap_cons, List.append_assoc]

/-- The bytes of a node are at its offset, and the numbers in it are its distances. -/
theorem Places.renders (h : layout.Places body) :
    layout.Renders (layout.nodes.flatMap layout.form) where
  length_eq := by
    have hlength := h.laid.length_form layout
    rwa [Nat.zero_add] at hlength
  stands := by
    intro place node offset long hentry
    refine ⟨_, _, _, h.nodeBytes_eq (List.mem_of_getElem? hentry), flatMap_form_split hentry,
      h.length_front hentry, ?_⟩
    rw [List.length_append, h.length_front hentry, length_form, h.boundaryAt_succ hentry]
  operands := by
    intro place b offset long hentry htargets
    have hmem := List.mem_of_getElem? hentry
    -- the branch is in the code, so it is no longer than the code
    have hwidth : b.width long offset ≤ 65535 := by
      have hle := (h.laid.split hentry).2.le
      have hlength : layout.codeLength ≤ 65535 := h.codeLength_le
      have hnode : nodeWidth (.operation (.branch b)) long offset = b.width long offset := rfl
      omega
    -- the form of a branch has its distances where the branch has its labels
    obtain ⟨distance, hdistance⟩ : ∃ distance : Label → Int,
        distance = fun label => (layout.offsetOf label : Int) - offset := ⟨_, rfl⟩
    have hform : layout.form (.operation (.branch b), offset, long) =
        (b.map distance).write long offset := by
      rw [hdistance]
      unfold form Operation.map Operation.write
      dsimp only
      rw [Branch.map_map]
      rfl
    have htargets' : (b.map distance).targets ≠ [] := by
      rw [Branch.targets_map]
      simpa using htargets
    obtain ⟨head, hwrite, hstart⟩ := Branch.write_eq_words long offset htargets'
    have hroom := h.hasRoom hmem
    rw [← hdistance] at hroom ⊢
    -- the words of the branch stand behind the nodes in front, and its opcode
    have hholds := Bytes.holds_append ((layout.nodes.take place).flatMap layout.form ++ head)
      ((b.map distance).words long) ((layout.nodes.drop (place + 1)).flatMap layout.form)
    rw [Branch.words_map hroom hwidth] at hholds
    have hbytes : layout.nodes.flatMap layout.form =
        (layout.nodes.take place).flatMap layout.form ++ head ++
          ((b.map distance).words long).flatten ++
          (layout.nodes.drop (place + 1)).flatMap layout.form := by
      rw [flatMap_form_split hentry, hform, hwrite, ← List.append_assoc]
    -- they end where the next node starts
    have hend : ((layout.nodes.take place).flatMap layout.form ++ head ++
        ((b.map distance).words long).flatten).length = layout.boundaryAt (place + 1) := by
      rw [List.append_assoc, ← hwrite, ← hform, List.length_append, h.length_front hentry,
        length_form, h.boundaryAt_succ hentry]
    rw [hend, List.length_append, h.length_front hentry, hstart, Branch.operandStart_map,
      ← hbytes] at hholds
    exact hholds

end Places

end Layout

/-! ### Failures -/

namespace Pool

variable {pool pool' : Pool} {error : StructuralError}

/-- A text is not added only when the pool has no room. -/
theorem addUtf8_error {text : String} (h : addUtf8 text pool = .error error pool') :
    pool = pool' ∧ error = .poolOverflow pool.count := by
  unfold addUtf8 at h
  rcases state_bind_error.1 h with h | ⟨_, _, ⟨⟩, h⟩
  · cases h
  · rcases hnoted : pool.texts[text]? with _ | index
    · rw [hnoted] at h
      change add (.utf8 text) pool = _ at h
      unfold add at h
      split at h
      · cases h
      · obtain ⟨rfl, rfl⟩ := EStateM.Result.error.inj h
        exact ⟨rfl, rfl⟩
    · rw [hnoted] at h
      cases h

/-- A table is not added only when the pool has no room for its name. -/
theorem addTable_error {α β : Type} [AttributeContents β] {table : List α → β} {entries : List α}
    (h : addTable table entries pool = .error error pool') :
    addUtf8 (AttributeContents.name β) pool' = .error error pool' := by
  unfold addTable at h
  split at h
  · cases h
  · rcases state_bind_error.1 h with hattribute | ⟨_, _, _, hpure⟩
    · rcases state_bind_error.1 hattribute with hname | ⟨_, _, _, hpure⟩
      · obtain ⟨rfl, -⟩ := addUtf8_error hname
        exact hname
      · cases hpure
    · cases hpure

end Pool

namespace Layout

/-- The names of the debug tables of code. -/
def tableNames : List String := ["LineNumberTable", "LocalVariableTable", "LocalVariableTypeTable"]

variable {layout : Layout} {body : Body} {extra : List Attribute} {code : Code} {pool pool' : Pool}

/-- Writing a body at the offsets of its layout fails only at the name of a debug table. -/
theorem Places.encode_error (h : layout.Places body) {error : StructuralError}
    (hencode : body.encode layout extra pool = .error error pool') :
    ∃ name ∈ tableNames, Pool.addUtf8 name pool' = .error error pool' := by
  unfold Body.encode at hencode
  rw [h.bytecode_eq, h.exceptionEntries, h.variableEntries (List.subset_append_left _ _),
    h.variableEntries (List.subset_append_right _ _)] at hencode
  rcases state_bind_error.1 hencode with hfirst | ⟨_, _, ⟨⟩, hencode⟩
  · cases hfirst
  rcases state_bind_error.1 hencode with hfirst | ⟨_, _, ⟨⟩, hencode⟩
  · cases hfirst
  rcases state_bind_error.1 hencode with hlines | ⟨_, _, _, hencode⟩
  · exact ⟨_, by decide, Pool.addTable_error hlines⟩
  rcases state_bind_error.1 hencode with hfirst | ⟨_, _, ⟨⟩, hencode⟩
  · cases hfirst
  rcases state_bind_error.1 hencode with hvariables | ⟨_, _, _, hencode⟩
  · exact ⟨_, by decide, Pool.addTable_error hvariables⟩
  rcases state_bind_error.1 hencode with hfirst | ⟨_, _, ⟨⟩, hencode⟩
  · cases hfirst
  rcases state_bind_error.1 hencode with htypes | ⟨_, _, _, hencode⟩
  · exact ⟨_, by decide, Pool.addTable_error htypes⟩
  · cases hencode

/-- The bytes of code that was written are those of the nodes. -/
theorem Places.encode_bytecode (h : layout.Places body)
    (hencode : body.encode layout extra pool = .ok code pool') :
    code.bytecode = layout.nodes.flatMap layout.form := by
  obtain ⟨_, _, _, _, _, _, _, _, rfl⟩ := h.encode_ok_iff.1 hencode
  rfl

/-- A layout is exactly that of the code that is written for a body. -/
structure Exact (layout : Layout) (body : Body) : Prop where
  nodes_eq : layout.nodes.map (·.1) = body.nodes
  start_eq : layout.boundaryAt 0 = 0
  codeLength_le : layout.codeLength ≤ 65535
  -- no jump would have to be made long any more
  settled : lengthen body.nodes (layout.nodes.map (·.2.2)) = layout.nodes.map (·.2.2)
  placed : ∀ label ∈ body.referencedLabels, layout.labelOffset label = .ok (layout.offsetOf label)
  -- conditional branches, and jumps that are not long, have distances of two bytes
  near : ∀ {b : Branch Label} {offset : Nat} {long : Bool},
    (.operation (.branch b), offset, long) ∈ layout.nodes → b.isNear long = true →
      ∀ label ∈ b.targets, -32768 ≤ (layout.offsetOf label : Int) - offset ∧
        (layout.offsetOf label : Int) - offset ≤ 32767
  aligned : ∀ {b : Branch Label} {offset : Nat} {long : Bool},
    (.operation (.branch b), offset, long) ∈ layout.nodes → b.isSwitch = true →
      b.operandStart offset % 4 = 0
  lastKey : ∀ {low : Int32} {default : Label} {targets : List Label},
    .operation (.branch (.tableSwitch low default targets)) ∈ body.nodes → targets ≠ [] →
      Branch.lastKey low targets = low.toInt + targets.length - 1
  -- writing fails only where the pool has no room for the name of a table
  fails : ∀ {extra : List Attribute} {pool pool' : Pool} {error : StructuralError},
    body.encode layout extra pool = .error error pool' →
      error = .poolOverflow pool'.count ∧
        ∃ name ∈ tableNames, Pool.addUtf8 name pool' = .error error pool'
  renders : ∀ {extra : List Attribute} {pool pool' : Pool} {code : Code},
    body.encode layout extra pool = .ok code pool' → layout.Renders code.bytecode

end Layout

namespace Body

variable {body : Body} {layout : Layout}

/-- The tables of switches do not have keys that are too high. -/
def KeysFit (body : Body) : Prop :=
  ∀ low default targets, .operation (.branch (.tableSwitch low default targets)) ∈ body.nodes →
    low.toInt + (targets.length : Int) ≤ 2147483647

/-- The long jumps of a layout are those that were settled. -/
theorem layout_longs (h : body.layout = .ok layout) :
    layout.nodes.map (·.2.2) = Layout.settle body.nodes (body.nodes.map fun _ => false) := by
  unfold Body.layout at h
  obtain ⟨_, -, h⟩ := except_bind_ok.1 h
  obtain ⟨offsets, stop, hoffsets, hlength, -⟩ := Layout.offsetsFrom_laid [] 0 body.nodes _
    (Layout.length_settle body.nodes (body.nodes.map fun _ => false) (by simp))
  rw [List.reverse_nil, List.nil_append] at hoffsets
  dsimp only at h
  rw [hoffsets] at h
  dsimp only at h
  split at h
  · cases h
  · split at h
    · obtain rfl := Except.ok.inj h
      have hlongs := Layout.length_settle body.nodes (body.nodes.map fun _ => false) (by simp)
      change List.map (Prod.snd ∘ Prod.snd) _ = _
      rw [← List.map_map, List.map_snd_zip, List.map_snd_zip]
      · rw [hlength, hlongs]
      · rw [List.length_zip, hlength, hlongs, Nat.min_self]
    · cases h

/-- Jumps are settled after as many rounds as there are jumps, at most; and a layout is exactly that
of the code that is written. -/
theorem layout_exact (body : Body) (hkeys : body.KeysFit) :
    (∃ rounds ≤ body.nodes.countP Layout.isJump, Layout.SettlesIn body.nodes rounds) ∧
      ∀ layout, body.layout = .ok layout → layout.Exact body := by
  refine ⟨Layout.exists_settlesIn body.nodes, fun layout hlayout => ?_⟩
  have h := layout_ok hlayout
  exact {
    nodes_eq := h.nodes_eq
    start_eq := by
      have hstart := h.laid.offset_head?
      rw [List.head?_eq_getElem?] at hstart
      exact hstart
    codeLength_le := h.codeLength_le
    settled := by
      rw [layout_longs hlayout]
      exact Layout.lengthen_settle body.nodes _ (List.length_map _)
    -- each label has the offset of its place
    placed := fun label hlabel => h.labelOffset hlabel
    near := by
      intro b offset long hentry hnear label hlabel
      have hnode : .operation (.branch b) ∈ body.nodes :=
        h.nodes_eq ▸ List.mem_map_of_mem (f := (·.1)) hentry
      have hshort := h.near hentry hnear label hlabel _
        (h.labelOffset (Body.mem_referencedLabels hnode hlabel))
      simpa [Layout.isShort, Branch.isShort] using hshort
    aligned := fun _ hswitch => Branch.operandStart_mod _ hswitch
    lastKey := fun hnode hne => Branch.lastKey_eq (hkeys _ _ _ hnode) hne
    -- the pool is all that can be too small
    fails := by
      intro extra pool pool' error hencode
      obtain ⟨name, hname, hadd⟩ := h.encode_error hencode
      exact ⟨(Pool.addUtf8_error hadd).2, name, hname, hadd⟩
    renders := by
      intro extra pool pool' code hencode
      rw [h.encode_bytecode hencode]
      exact h.renders }

/-- Chooses by the key 5, over and over. -/
def choosesByKey : Body where
  maxStack := 1
  maxLocals := 1
  nodes := [.label ⟨0⟩, .operation (.step (.load .int 0)),
    .operation (.branch (.tableSwitch 5 ⟨0⟩ [⟨0⟩])), .operation (.branch (.goto ⟨0⟩))]
  handlers := []
  localVariables := []
  variableTypes := []
  attributes := []
  issued := 1

/-- The layout of `choosesByKey`, in which the operands of the switch start at 4. -/
def choosesByKeyLayout : Layout where
  nodes := choosesByKey.nodes.zip [(0, false), (0, false), (1, false), (20, false)]
  codeLength := 23
  labels := (∅ : Std.HashMap Label Nat).insert ⟨0⟩ 0

theorem choosesByKey_layout : choosesByKey.layout = .ok choosesByKeyLayout := by
  refine layout_of_short [0, 0, 1, 20] (checkLabels_of_placed (by decide) (by decide)) rfl rfl rfl
    ?_ ?_ (by decide)
  · simp [choosesByKey, choosesByKeyLayout, Layout.needsLong, Layout.jumpTarget?, Layout.isShort,
      Branch.isShort]
  · decide

/-- The layout of `choosesByKey` is exactly that of its code. -/
theorem choosesByKey_exact : choosesByKey.KeysFit ∧
    choosesByKey.layout = .ok choosesByKeyLayout ∧ choosesByKeyLayout.Exact choosesByKey := by
  have hkeys : choosesByKey.KeysFit := by
    intro low default targets hnode
    simp only [choosesByKey, List.mem_cons, List.not_mem_nil, or_false, reduceCtorEq, false_or,
      Node.operation.injEq, Operation.branch.injEq, Branch.tableSwitch.injEq] at hnode
    obtain ⟨rfl, rfl, rfl⟩ := hnode
    decide
  exact ⟨hkeys, choosesByKey_layout,
    (choosesByKey.layout_exact hkeys).2 choosesByKeyLayout choosesByKey_layout⟩

end Body

end Preverification
