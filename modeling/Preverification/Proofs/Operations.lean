import Preverification.Body.Layout
import Preverification.Instruction.Operation
import Preverification.Proofs.Pools
import Mathlib.Data.List.Nodup

/-!
# Operations and their bytes

An operation that was read makes sense: the constants that it names are of the right kinds, and its
targets are inside the code. When an operation that makes sense is written at an offset, it is read
there again, whichever of its encodings was chosen.

* `Instruction.Fits`, `Branch.Fits`: operations that make sense.
* `Operation.sound_of_reads`: whatever is read makes sense, and it takes up at least one byte.
* `Operation.reads_instruction`, `Operation.reads_branch`: what is written for either kind is read.
* `Operation.reads_write`: what is written for an operation is read, whichever encoding was chosen.
-/

namespace Preverification

open MonadExcept (ofExcept)

open Reader

/-! ### Kinds of operands -/

theorem ValueKind.mem_all (kind : ValueKind) : kind ∈ all := by cases kind <;> decide

theorem NumberKind.mem_all (kind : NumberKind) : kind ∈ all := by cases kind <;> decide

theorem IntegralKind.mem_all (kind : IntegralKind) : kind ∈ all := by cases kind <;> decide

theorem ElementKind.mem_all (kind : ElementKind) : kind ∈ all := by cases kind <;> decide

theorem StackShuffle.mem_all (op : StackShuffle) : op ∈ all := by cases op <;> decide

theorem ArithmeticOp.mem_all (op : ArithmeticOp) : op ∈ all := by cases op <;> decide

theorem ShiftOp.mem_all (op : ShiftOp) : op ∈ all := by cases op <;> decide

theorem BitwiseOp.mem_all (op : BitwiseOp) : op ∈ all := by cases op <;> decide

theorem NarrowKind.mem_all (kind : NarrowKind) : kind ∈ all := by cases kind <;> decide

theorem UnorderedResult.mem_all (result : UnorderedResult) : result ∈ all := by
  cases result <;> decide

/-! ### Operations that make sense -/

/-- The operands of an instruction make sense. -/
def Instruction.Fits (pool : Pool) : Instruction → Prop
  | loadConstant constant => pool.loadableIndex constant false = .ok constant
  | loadWideConstant constant => pool.loadableIndex constant true = .ok constant
  | getStatic fieldRef | putStatic fieldRef | getField fieldRef | putField fieldRef =>
    pool.fieldRefIndex fieldRef = .ok fieldRef
  | invoke kind method => pool.methodRefIndex method = .ok method ∧ kind ≠ .interface 0
  | invokeDynamic site => pool.invokeDynamicIndex site = .ok site
  | new type | newRefArray type | checkCast type | instanceOf type =>
    pool.classIndex type = .ok type
  | newMultiArray type dimensions => pool.classIndex type = .ok type ∧ dimensions ≠ 0
  | _ => True

/-- The number of `int` values from zero on. -/
def Int32.count : Nat := 2147483648

/-- The keys of a switch can be counted. -/
def Branch.Fits {L : Type} : Branch L → Prop
  | tableSwitch low _ targets => targets ≠ [] ∧ low.toInt + targets.length ≤ Int32.count
  | lookupSwitch _ cases => cases.length < Int32.count
  | _ => True

/-- Whether the targets have to be within reach of a distance of two bytes. -/
def Branch.isNear {L : Type} (long : Bool) : Branch L → Bool
  | goto _ | jsr _ => !long
  | b => b.isConditional

/-- The operands of an operation make sense. -/
def Operation.Fits {L : Type} (pool : Pool) : Operation L → Prop
  | step instruction => instruction.Fits pool
  | branch b => b.Fits

namespace Operation

/-- The bytes of an operation at an offset, when places are offsets. -/
def write (long : Bool) (offset : Nat) : Operation Nat → Bytes
  | step instruction => instruction.write
  | branch b => (b.map fun target : Nat => (target : Int) - offset).write long offset

variable {pool : Pool} {length offset : Nat} {input later : Input} {target : Nat}

/-! ### Distances -/

/-- A distance leads from the offset of the operation to its target, which is inside of the code. -/
theorem reads_resolve {distance : Int} :
    Reads (resolve length offset distance) input target later ↔
      (target < length ∧ distance = (target : Int) - offset) ∧ input = later := by
  unfold resolve
  dsimp only
  split
  · rename_i hrange
    rw [reads_pure]
    constructor
    · rintro ⟨rfl, rfl⟩
      exact ⟨by omega, rfl⟩
    · rintro ⟨hrange', rfl⟩
      exact ⟨by omega, rfl⟩
  · rename_i hrange
    constructor
    · exact fun h => absurd h not_reads_throw
    · rintro ⟨hrange', -⟩
      exact absurd (by omega) hrange

/-- A target that is near is written in two bytes and read from them. -/
theorem inverts_readShort (length offset : Nat) :
    Inverts (readShort length offset) (fun target => Branch.writeShort ((target : Int) - offset))
      fun target => target < length ∧ Layout.isShort offset target = true := by
  intro input target later
  unfold readShort Branch.writeShort Layout.isShort Branch.isShort
  simp only [inverts_int16.reads_bind, reads_resolve, Bool.and_eq_true, decide_eq_true_eq]
  constructor
  · rintro ⟨distance, -, _, hbehind, ⟨hlt, hdistance⟩, rfl⟩
    have hle := distance.le_toInt
    have hlt' := distance.toInt_lt
    rw [← hdistance, Int16.ofInt_toInt]
    exact ⟨⟨hlt, by omega, by omega⟩, hbehind⟩
  · rintro ⟨⟨hlt, hlow, hhigh⟩, hbehind⟩
    refine ⟨_, trivial, later, hbehind, ⟨hlt, ?_⟩, rfl⟩
    exact Int16.toInt_ofInt_of_le (by omega) (by omega)

/-- The distance to a target can be written in four bytes. -/
def IsLong (offset target : Nat) : Prop :=
  -(Int32.count : Int) ≤ (target : Int) - offset ∧ (target : Int) - offset < Int32.count

/-- Any other one takes four bytes. -/
theorem inverts_readLong (length offset : Nat) :
    Inverts (readLong length offset) (fun target => Branch.writeLong ((target : Int) - offset))
      fun target => target < length ∧ IsLong offset target := by
  intro input target later
  unfold readLong Branch.writeLong IsLong Int32.count
  simp only [inverts_int32.reads_bind, reads_resolve]
  constructor
  · rintro ⟨distance, -, _, hbehind, ⟨hlt, hdistance⟩, rfl⟩
    have hle := distance.le_toInt
    have hlt' := distance.toInt_lt
    rw [← hdistance, Int32.ofInt_toInt]
    exact ⟨⟨hlt, by omega, by omega⟩, hbehind⟩
  · rintro ⟨⟨hlt, hlow, hhigh⟩, hbehind⟩
    refine ⟨_, trivial, later, hbehind, ⟨hlt, ?_⟩, rfl⟩
    exact Int32.toInt_ofInt_of_le (by omega) (by omega)

/-! ### What is read makes sense -/

/-- The operands of an operation make sense, and its targets are inside the code. -/
def Sound (pool : Pool) (length : Nat) (operation : Operation Nat) : Prop :=
  operation.Fits pool ∧ ∀ target ∈ operation.targets, target < length

theorem sound_step {instruction : Instruction} (h : instruction.Fits pool) :
    Sound pool length (step instruction) := ⟨h, nofun⟩

theorem yields_readShort (length offset : Nat) : Yields (readShort length offset) (· < length) :=
  fun _ _ _ hread =>
    have ⟨hfits, htaken⟩ := (inverts_readShort length offset).yields _ _ _ hread
    ⟨hfits.1, htaken⟩

theorem yields_readLong (length offset : Nat) : Yields (readLong length offset) (· < length) :=
  fun _ _ _ hread =>
    have ⟨hfits, htaken⟩ := (inverts_readLong length offset).yields _ _ _ hread
    ⟨hfits.1, htaken⟩

/-- Bytes that are passed over may be any. -/
theorem yields_skip (count : Nat) : Yields (discard (Reader.bytes count)) fun _ => True :=
  yields_map (inverts_bytes count).yields fun _ _ => trivial

/-- A branch makes sense, and its targets are inside the code. -/
def SoundBranch (length : Nat) (b : Branch Nat) : Prop :=
  b.Fits ∧ ∀ target ∈ b.targets, target < length

variable {malformed : StructuralError}

/-- A switch that was read has targets, and they are inside of the code. -/
theorem yields_readTableSwitch :
    Yields (readTableSwitch length offset malformed) (SoundBranch length) := by
  unfold readTableSwitch
  refine yields_bind (yields_skip _) fun _ _ => ?_
  refine yields_bind (yields_readLong length offset) fun default hdefault => ?_
  refine yields_bind inverts_int32.yields fun low _ => ?_
  refine yields_bind inverts_int32.yields fun high _ => ?_
  have hhigh := high.toInt_lt
  dsimp only
  split
  · exact yields_throw_bind
  · rename_i hle
    -- the keys ascend, so there is a target, and not too many of them
    have hle' : low.toInt ≤ high.toInt := by
      rw [Int32.lt_iff_toInt_lt] at hle
      omega
    refine yields_bind (yields_many (yields_readLong length offset) _) ?_
    rintro targets ⟨htargets, hlength⟩
    refine yields_pure ⟨⟨?_, ?_⟩, List.forall_mem_cons.2 ⟨hdefault, htargets⟩⟩
    · rintro rfl
      rw [List.length_nil] at hlength
      omega
    · unfold Int32.count
      omega

/-- A switch by any keys that is read makes sense, and its cases can be counted. -/
theorem yields_readLookupSwitch :
    Yields (readLookupSwitch length offset malformed) (SoundBranch length) := by
  unfold readLookupSwitch
  refine yields_bind (yields_skip _) fun _ _ => ?_
  refine yields_bind (yields_readLong length offset) fun default hdefault => ?_
  refine yields_bind inverts_int32.yields fun count _ => ?_
  have hcount := count.toInt_lt
  dsimp only
  split
  · exact yields_throw_bind
  · have hcase : Yields (do
        let key ← Reader.int32
        return (key, ← readLong length offset)) fun found : Int32 × Nat => found.2 < length := by
      refine yields_bind inverts_int32.yields fun key _ => ?_
      exact yields_bind (yields_readLong length offset) fun target htarget => yields_pure htarget
    refine yields_bind (yields_many hcase _) ?_
    rintro cases ⟨hcases, hlength⟩
    refine yields_pure ⟨?_, List.forall_mem_cons.2 ⟨hdefault, List.forall_mem_map.2 hcases⟩⟩
    change cases.length < 2147483648
    omega

/-- Loads and stores name no constants. -/
theorem fits_ofLocalOpcode? {opcode : UInt8} {slot : UInt16} {instruction : Instruction}
    (h : Instruction.ofLocalOpcode? opcode slot = some instruction) : instruction.Fits pool := by
  unfold Instruction.ofLocalOpcode? at h
  split at h
  · obtain rfl := Option.some.inj h
    trivial
  · obtain ⟨kind, -, rfl⟩ := Option.map_eq_some_iff.1 h
    trivial

/-- What is behind the opcode that makes operands twice as long makes sense. -/
theorem yields_readWide : Yields (readWide malformed) (Sound pool length) := by
  unfold readWide
  refine yields_bind inverts_uint8.yields fun opcode _ => ?_
  refine yields_bind inverts_uint16.yields fun slot _ => ?_
  split
  · rename_i instruction hlocal
    exact yields_pure (sound_step (fits_ofLocalOpcode? hlocal))
  · split
    · exact yields_bind inverts_int16.yields fun amount _ => yields_pure (sound_step trivial)
    · split
      · exact yields_pure ⟨trivial, nofun⟩
      · exact yields_throw

/-- What is made of an index that has passed a check makes sense. -/
theorem yields_check_make {check : PoolIndex → Except StructuralError PoolIndex}
    (hcheck : Pool.Confirms check) {make : PoolIndex → Instruction}
    (hmake : ∀ index, check index = .ok index → (make index).Fits pool) :
    Yields (do return step (make (← ofExcept (check (← Reader.uint16))))) (Sound pool length) :=
  yields_bind inverts_uint16.yields fun index _ => yields_bind yields_ofExcept fun index' hindex =>
    yields_pure (sound_step (by
      obtain rfl := hcheck hindex
      exact hmake index hindex))

/-- One case for each opcode with operands. An index that was read has passed its check, and a
target is inside of the code. -/
theorem yields_readOperands (pool : Pool) (length offset : Nat) (opcode : UInt8) :
    Yields (readOperands pool length offset opcode) (Sound pool length) := by
  -- one case for each form of operands, in the order in which the codes are told apart
  unfold readOperands
  dsimp only
  split
  case h_1 =>
    exact yields_bind inverts_int8.yields fun value _ => yields_pure (sound_step trivial)
  case h_2 =>
    exact yields_bind inverts_int16.yields fun value _ => yields_pure (sound_step trivial)
  case h_3 =>
    refine yields_bind inverts_uint8.yields fun index _ => ?_
    refine yields_bind yields_ofExcept fun index' hindex => yields_pure (sound_step ?_)
    obtain rfl := Pool.confirms_loadableIndex false hindex
    exact hindex
  case h_4 => exact yields_check_make (Pool.confirms_loadableIndex false) fun _ h => h
  case h_5 => exact yields_check_make (Pool.confirms_loadableIndex true) fun _ h => h
  case h_6 =>
    refine yields_bind inverts_uint8.yields fun slot _ => ?_
    exact yields_bind inverts_int8.yields fun amount _ => yields_pure (sound_step trivial)
  case h_7 => exact yields_bind inverts_uint8.yields fun slot _ => yields_pure ⟨trivial, nofun⟩
  case h_8 => exact yields_map yields_readTableSwitch fun _ h => h
  case h_9 => exact yields_map yields_readLookupSwitch fun _ h => h
  case h_10 | h_11 | h_12 | h_13 => exact yields_check_make Pool.confirms_fieldRefIndex fun _ h => h
  case h_14 | h_15 | h_16 =>
    exact yields_check_make Pool.confirms_methodRefIndex fun _ h => ⟨h, nofun⟩
  -- the number of slots and the filler are checked behind the method
  case h_17 =>
    refine yields_bind inverts_uint16.yields fun index _ => ?_
    refine yields_bind yields_ofExcept fun method hmethod => ?_
    refine yields_bind inverts_uint8.yields fun slots _ => ?_
    refine yields_bind inverts_uint8.yields fun filler _ => ?_
    obtain rfl := Pool.confirms_methodRefIndex hmethod
    split
    · exact yields_throw_bind
    · rename_i hslots
      refine yields_pure (sound_step ⟨hmethod, ?_⟩)
      rintro ⟨⟩
      exact hslots (.inr rfl)
  case h_18 =>
    refine yields_bind inverts_uint16.yields fun index _ => ?_
    refine yields_bind yields_ofExcept fun site hsite => ?_
    refine yields_bind inverts_uint16.yields fun filler _ => ?_
    obtain rfl := Pool.confirms_invokeDynamicIndex hsite
    split
    · exact yields_throw_bind
    · exact yields_pure (sound_step hsite)
  case h_19 | h_21 | h_22 | h_23 =>
    exact yields_check_make Pool.confirms_classIndex fun _ h => h
  case h_20 =>
    refine yields_bind inverts_uint8.yields fun code _ => ?_
    split
    · exact yields_pure (sound_step trivial)
    · exact yields_throw
  case h_24 => exact yields_readWide
  case h_25 =>
    refine yields_bind inverts_uint16.yields fun index _ => ?_
    refine yields_bind yields_ofExcept fun type htype => ?_
    refine yields_bind inverts_uint8.yields fun dimensions _ => ?_
    obtain rfl := Pool.confirms_classIndex htype
    split
    · exact yields_throw_bind
    · rename_i hdimensions
      exact yields_pure (sound_step ⟨htype, hdimensions⟩)
  case h_26 | h_27 =>
    refine yields_bind (yields_readLong length offset) fun target htarget => ?_
    exact yields_pure ⟨trivial, List.forall_mem_singleton.2 htarget⟩
  -- what is left are locals with their slot in a byte
  case h_28 =>
    split
    · refine yields_bind inverts_uint8.yields fun slot _ => ?_
      split
      · rename_i instruction hlocal
        exact yields_pure (sound_step (fits_ofLocalOpcode? hlocal))
      · exact yields_throw
    · exact yields_throw

/-- An instruction of one byte has no operands that could make no sense. -/
theorem fits_of_length_write {instruction : Instruction} (h : instruction.write.length = 1) :
    instruction.Fits pool := by
  cases instruction with
  | loadConstant constant =>
    exfalso
    rw [Instruction.write] at h
    split at h <;> cases h
  | invoke kind method => cases kind <;> cases h
  | loadWideConstant _ | getStatic _ | putStatic _ | getField _ | putField _ | invokeDynamic _
  | new _ | newRefArray _ | checkCast _ | instanceOf _ | newMultiArray _ _ => cases h
  | _ => exact trivial

/-- Instructions of one byte make sense in any pool. -/
theorem fits_of_ofByte? {opcode : UInt8} {instruction : Instruction}
    (h : Instruction.ofByte? opcode = some instruction) : instruction.Fits pool := by
  rw [Instruction.ofByte?_eq_find?] at h
  have hwrite : instruction.write = [opcode] := by simpa using List.find?_some h
  exact fits_of_length_write (congrArg List.length hwrite)

/-- Branches of one byte have no targets that could be outside of the code. -/
theorem soundBranch_of_ofByte? {opcode : UInt8} {found : Branch Nat}
    (h : Branch.ofByte? opcode = some found) : SoundBranch length found := by
  have hmem := List.mem_of_find?_eq_some h
  simp only [ValueKind.all, List.map_cons, List.map_nil, List.cons_append, List.nil_append,
    List.mem_cons, List.not_mem_nil, or_false] at hmem
  rcases hmem with rfl | rfl | rfl | rfl | rfl | rfl | rfl <;> exact ⟨trivial, nofun⟩

/-- Branches with a distance go to the one target that was read. -/
theorem soundBranch_of_ofShortOpcode? {opcode : UInt8} {found : Branch Nat}
    (h : Branch.ofShortOpcode? opcode target = some found) (htarget : target < length) :
    SoundBranch length found := by
  have hmem := List.mem_of_find?_eq_some h
  have htargets : found.Fits ∧ found.targets = [target] := by
    simp only [List.mem_append, List.mem_map, List.mem_cons, List.not_mem_nil, or_false] at hmem
    rcases hmem with (((⟨_, -, rfl⟩ | ⟨_, -, rfl⟩) | ⟨_, -, rfl⟩) | ⟨_, -, rfl⟩) | rfl | rfl <;>
      exact ⟨trivial, rfl⟩
  refine ⟨htargets.1, ?_⟩
  rw [htargets.2]
  exact List.forall_mem_singleton.2 htarget

/-- Whatever is read makes sense, and it takes up at least one byte. -/
theorem sound_of_reads {operation : Operation Nat}
    (h : Reads (read pool length offset) input operation later) :
    Sound pool length operation ∧ ∃ byte taken, input.Behind (byte :: taken) later := by
  unfold read at h
  refine advances_of_reads (fun opcode => ?_) h
  split
  · rename_i instruction hbyte
    exact yields_pure (sound_step (fits_of_ofByte? hbyte))
  · split
    · rename_i found hbyte
      exact yields_pure (soundBranch_of_ofByte? hbyte)
    · split
      · refine yields_bind (yields_readShort length offset) fun target htarget => ?_
        split
        · rename_i found hshort
          exact yields_pure (soundBranch_of_ofShortOpcode? hshort htarget)
        · exact yields_throw
      · exact yields_readOperands pool length offset opcode

/-! ### What is written is read -/

/-- The opcodes that are followed by operands, other than those of short branches. -/
def operandOpcodes : List UInt8 :=
  [0x10, 0x11, 0x12, 0x13, 0x14, 0x15, 0x16, 0x17, 0x18, 0x19, 0x36, 0x37, 0x38, 0x39, 0x3A, 0x84,
    0xA9, 0xAA, 0xAB, 0xB2, 0xB3, 0xB4, 0xB5, 0xB6, 0xB7, 0xB8, 0xB9, 0xBA, 0xBB, 0xBC, 0xBD, 0xC0,
    0xC1, 0xC4, 0xC5, 0xC8, 0xC9]

/-- The opcodes of branches whose only operand is a distance of two bytes. -/
def shortOpcodes : List UInt8 :=
  [0x99, 0x9A, 0x9B, 0x9C, 0x9D, 0x9E, 0x9F, 0xA0, 0xA1, 0xA2, 0xA3, 0xA4, 0xA5, 0xA6, 0xA7, 0xA8,
    0xC6, 0xC7]

/-- The opcodes that say everything about an instruction that is no branch, in order. -/
def singleOpcodes : List Nat :=
  List.range' 0x00 16 ++ List.range' 0x1A 28 ++ List.range' 0x3B 73 ++ List.range' 0x85 20 ++
    [0xBE, 0xC2, 0xC3]

/-- The instructions of one byte are those of the opcodes without operands. -/
theorem write_singleBytes : Instruction.singleBytes.map Instruction.write =
    singleOpcodes.map fun opcode => [UInt8.ofNat opcode] := by
  decide +kernel

/-- No other opcode is an instruction on its own. -/
theorem ofByte?_of_not_mem {opcode : UInt8} (h : opcode.toNat ∉ singleOpcodes) :
    Instruction.ofByte? opcode = none := by
  have hsmall : ∀ n ∈ singleOpcodes, n < 256 := by decide +kernel
  rw [Instruction.ofByte?_eq_find?, List.find?_eq_none]
  intro instruction hmem hwrite
  have hopcode := List.mem_map_of_mem (f := Instruction.write) hmem
  rw [write_singleBytes, beq_iff_eq.1 hwrite, List.mem_map] at hopcode
  obtain ⟨n, hn, heq⟩ := hopcode
  obtain rfl := List.singleton_inj.1 heq
  rw [UInt8.toNat_ofNat_of_lt' (hsmall n hn)] at h
  exact h hn

/-- No operation of one byte starts like one with operands. -/
theorem ofByte?_eq_none {opcode : UInt8} (h : opcode ∈ operandOpcodes ++ shortOpcodes) :
    Instruction.ofByte? opcode = none ∧ Branch.ofByte? (L := Nat) opcode = none := by
  have hnone : ∀ opcode ∈ operandOpcodes ++ shortOpcodes,
      opcode.toNat ∉ singleOpcodes ∧ Branch.ofByte? (L := Nat) opcode = none := by
    decide +kernel
  obtain ⟨hsingle, hbranch⟩ := hnone opcode h
  exact ⟨ofByte?_of_not_mem hsingle, hbranch⟩

/-- No two instructions of one byte are written alike. -/
theorem nodup_singleBytes : (Instruction.singleBytes.map Instruction.write).Nodup := by
  have hsmall : ∀ n ∈ singleOpcodes, n < 256 := by decide +kernel
  have hascends : singleOpcodes.IsChain (· < ·) := by decide +kernel
  rw [write_singleBytes]
  refine List.Nodup.map_on (fun n hn n' hn' heq => ?_)
    ((List.isChain_iff_pairwise.1 hascends).imp Nat.ne_of_lt)
  have heq' := congrArg UInt8.toNat (List.singleton_inj.1 heq)
  rwa [UInt8.toNat_ofNat_of_lt' (hsmall n hn), UInt8.toNat_ofNat_of_lt' (hsmall n' hn')] at heq'

/-- A load or store of one byte has one of the first four slots. -/
theorem slot_of_length_writeLocal {normal short : UInt8} {slot : UInt16}
    (h : (Instruction.writeLocal normal short slot).length = 1) : slot ∈ [0, 1, 2, 3] := by
  unfold Instruction.writeLocal at h
  split at h
  · rename_i hle
    have hle' : slot.toNat ≤ 3 := hle
    simp only [List.mem_cons, List.not_mem_nil, or_false, ← UInt16.toNat_inj]
    change slot.toNat = 0 ∨ slot.toNat = 1 ∨ slot.toNat = 2 ∨ slot.toNat = 3
    omega
  · split at h <;> cases h

theorem mem_table {α β γ : Type} {rows : List α} {columns : List β} {a : α} {b : β}
    (f : α → β → γ) (ha : a ∈ rows) (hb : b ∈ columns) :
    f a b ∈ rows.flatMap fun a => columns.map (f a) :=
  List.mem_flatMap.2 ⟨a, ha, List.mem_map_of_mem hb⟩

/-- An instruction of one byte stands in the list of these, in one of its parts. -/
theorem mem_singleBytes {instruction : Instruction} (h : instruction.write.length = 1) :
    instruction ∈ Instruction.singleBytes := by
  unfold Instruction.singleBytes
  simp only [List.mem_append]
  -- the list is an append of tables, and each instruction is in the one of its constructor
  cases instruction with
  | nop | nullConst | compareLongs | arrayLength | monitorEnter | monitorExit => simp
  | intConst choice =>
    have hpart := List.mem_map_of_mem (f := Instruction.intConst) (List.mem_finRange choice)
    simp only [hpart, true_or, or_true]
  | longConst value =>
    have hpart := List.mem_map_of_mem (f := Instruction.longConst) (List.mem_finRange value)
    simp only [hpart, true_or, or_true]
  | floatConst value =>
    have hpart := List.mem_map_of_mem (f := Instruction.floatConst) (List.mem_finRange value)
    simp only [hpart, true_or, or_true]
  | doubleConst value =>
    have hpart := List.mem_map_of_mem (f := Instruction.doubleConst) (List.mem_finRange value)
    simp only [hpart, true_or, or_true]
  | load kind slot =>
    have hpart := mem_table Instruction.load kind.mem_all (slot_of_length_writeLocal h)
    simp only [hpart, true_or, or_true]
  | store kind slot =>
    have hpart := mem_table Instruction.store kind.mem_all (slot_of_length_writeLocal h)
    simp only [hpart, true_or, or_true]
  | arrayLoad kind =>
    have hpart := List.mem_map_of_mem (f := Instruction.arrayLoad) kind.mem_all
    simp only [hpart, true_or, or_true]
  | arrayStore kind =>
    have hpart := List.mem_map_of_mem (f := Instruction.arrayStore) kind.mem_all
    simp only [hpart, true_or, or_true]
  | shuffle op =>
    have hpart := List.mem_map_of_mem (f := Instruction.shuffle) op.mem_all
    simp only [hpart, true_or, or_true]
  | arithmetic op kind =>
    have hpart := mem_table Instruction.arithmetic op.mem_all kind.mem_all
    simp only [hpart, true_or, or_true]
  | negate kind =>
    have hpart := List.mem_map_of_mem (f := Instruction.negate) kind.mem_all
    simp only [hpart, true_or, or_true]
  | shift op kind =>
    have hpart := mem_table Instruction.shift op.mem_all kind.mem_all
    simp only [hpart, true_or, or_true]
  | bitwise op kind =>
    have hpart := mem_table Instruction.bitwise op.mem_all kind.mem_all
    simp only [hpart, true_or, or_true]
  | convert source target distinct =>
    have hpart : Instruction.convert source target distinct ∈
        NumberKind.all.flatMap fun source => NumberKind.all.filterMap fun target =>
          if h : source ≠ target then some (Instruction.convert source target h) else none :=
      List.mem_flatMap.2 ⟨source, source.mem_all,
        List.mem_filterMap.2 ⟨target, target.mem_all, dif_pos distinct⟩⟩
    simp only [hpart, true_or, or_true]
  | narrow target =>
    have hpart := List.mem_map_of_mem (f := Instruction.narrow) target.mem_all
    simp only [hpart, true_or, or_true]
  | compareFloats unordered =>
    have hpart := List.mem_map_of_mem (f := Instruction.compareFloats) unordered.mem_all
    simp only [hpart, true_or, or_true]
  | compareDoubles unordered =>
    have hpart := List.mem_map_of_mem (f := Instruction.compareDoubles) unordered.mem_all
    simp only [hpart, true_or, or_true]
  -- from here on there is an operand
  | loadConstant constant =>
    rw [Instruction.write] at h
    split at h <;> cases h
  | increment slot amount =>
    rw [Instruction.write] at h
    split at h <;> cases h
  | invoke kind _ => cases kind <;> cases h
  | _ => cases h

/-- An instruction of one byte is that of its opcode. -/
theorem ofByte?_eq_some {instruction : Instruction} {opcode : UInt8}
    (h : instruction.write = [opcode]) : Instruction.ofByte? opcode = some instruction := by
  have hmem := mem_singleBytes (congrArg List.length h)
  rw [Instruction.ofByte?_eq_find?]
  rcases hfound : Instruction.singleBytes.find? fun found => found.write == [opcode] with _ | found
  · rw [List.find?_eq_none] at hfound
    exact absurd (beq_iff_eq.2 h) (hfound instruction hmem)
  · have hwrite : found.write = [opcode] := by simpa using List.find?_some hfound
    have heq := List.inj_on_of_nodup_map nodup_singleBytes (List.mem_of_find?_eq_some hfound) hmem
      (hwrite.trans h.symm)
    exact hfound.trans (congrArg some heq)

/-- An instruction of one byte is read. -/
theorem reads_singleByte {instruction : Instruction} (h : instruction.write.length = 1)
    (hbehind : input.Behind instruction.write later) :
    Reads (read pool length offset) input (step instruction) later := by
  obtain ⟨opcode, hopcode⟩ := List.length_eq_one_iff.1 h
  unfold read
  rw [hopcode] at hbehind
  refine inverts_uint8.reads_bind.2 ⟨opcode, trivial, later, hbehind, ?_⟩
  rw [ofByte?_eq_some hopcode]
  exact reads_pure.2 ⟨rfl, rfl⟩

/-- Behind an opcode that says too little the operands are read. -/
theorem reads_operands {opcode : UInt8} {bytes : Bytes} {operation : Operation Nat}
    (hopcode : opcode ∈ operandOpcodes) (hbehind : input.Behind (opcode :: bytes) later)
    (hreads : ∀ middle : Input, middle.Behind bytes later →
      Reads (readOperands pool length offset opcode) middle operation later) :
    Reads (read pool length offset) input operation later := by
  have hnone := ofByte?_eq_none (List.mem_append_left _ hopcode)
  have hlong : ∀ opcode ∈ operandOpcodes, isShortBranch opcode = false := by decide +kernel
  obtain ⟨middle, hfirst, hrest⟩ := Input.behind_cons.1 hbehind
  unfold read
  refine inverts_uint8.reads_bind.2 ⟨opcode, trivial, middle, hfirst, ?_⟩
  rw [hnone.1]
  dsimp only
  rw [hnone.2]
  dsimp only
  rw [hlong opcode hopcode]
  exact hreads middle hrest

theorem toUInt8_toUInt16 {n : UInt16} (h : n ≤ 255) : n.toUInt8.toUInt16 = n := by
  have hle : n.toNat ≤ 255 := h
  rw [← UInt16.toNat_inj, UInt8.toNat_toUInt16, UInt16.toNat_toUInt8]
  omega

theorem toInt8_toInt16 {n : Int16} (hlow : -128 ≤ n) (hhigh : n ≤ 127) :
    n.toInt8.toInt16 = n := by
  rw [Int16.le_iff_toInt_le] at hlow hhigh
  rw [← Int16.toInt_inj, Int8.toInt_toInt16, Int16.toInt_toInt8]
  exact Int.bmod_eq_of_le hlow (Int.lt_of_le_of_lt hhigh (by decide))

/-- What is behind the opcode that makes operands twice as long. -/
theorem reads_wide {opcode : UInt8} {bytes : Bytes} {operation : Operation Nat}
    (hbehind : input.Behind (Instruction.wide :: opcode :: bytes) later)
    (hreads : ∀ middle : Input, middle.Behind bytes later →
      Reads (do
        let slot ← Reader.uint16
        match Instruction.ofLocalOpcode? opcode slot with
        | some instruction => return step instruction
        | none =>
          if opcode = 0x84 then return step (.increment slot (← Reader.int16))
          else if opcode = 0xA9 then return branch (.ret slot)
          else throw (.malformedInstruction Instruction.wide offset)) middle operation later) :
    Reads (read pool length offset) input operation later := by
  refine reads_operands (by decide) hbehind fun middle h => ?_
  obtain ⟨second, hopcode, hrest⟩ := Input.behind_cons.1 h
  exact inverts_uint8.reads_bind.2 ⟨opcode, trivial, second, hopcode, hreads second hrest⟩

/-- Loads and stores have a form of two bytes, and a wide one. -/
theorem reads_local (make : UInt16 → Instruction) {normal short : UInt8} {slot : UInt16}
    (hwrite : (make slot).write = Instruction.writeLocal normal short slot)
    (hopcode : normal ∈ operandOpcodes)
    (hlocal : ∀ slot, Instruction.ofLocalOpcode? normal slot = some (make slot))
    (hoperands : readOperands pool length offset normal =
      (do return step (make (← Reader.uint8).toUInt16) : Reader (Operation Nat)))
    (hlong : (make slot).write.length ≠ 1) (hbehind : input.Behind (make slot).write later) :
    Reads (read pool length offset) input (step (make slot)) later := by
  rw [hwrite] at hbehind hlong
  unfold Instruction.writeLocal at hbehind hlong
  split at hbehind
  · rename_i hle
    rw [if_pos hle] at hlong
    exact absurd rfl hlong
  · split at hbehind
    · rename_i hle
      refine reads_operands hopcode hbehind fun middle h => ?_
      rw [hoperands]
      refine (inverts_uint8.reads_make fun slot => step (make slot.toUInt16)).2
        ⟨slot.toUInt8, trivial, ?_, h⟩
      rw [toUInt8_toUInt16 hle]
    · refine reads_wide hbehind fun middle h => ?_
      refine inverts_uint16.reads_bind.2 ⟨slot, trivial, later, h, ?_⟩
      rw [hlocal]
      exact reads_pure.2 ⟨rfl, rfl⟩

/-- The operand of many instructions is an index that has to pass a check. -/
theorem reads_index {opcode : UInt8} {check : PoolIndex → Except StructuralError PoolIndex}
    {make : PoolIndex → Instruction} {index : PoolIndex} (hopcode : opcode ∈ operandOpcodes)
    (hcheck : Pool.Confirms check)
    (hoperands : readOperands pool length offset opcode =
      (do return step (make (← ofExcept (check (← Reader.uint16)))) : Reader (Operation Nat)))
    (hindex : check index = .ok index)
    (hbehind : input.Behind (opcode :: Bytes.ofUInt16 index) later) :
    Reads (read pool length offset) input (step (make index)) later := by
  refine reads_operands hopcode hbehind fun middle h => ?_
  rw [hoperands]
  exact (Pool.reads_check_make hcheck fun index => step (make index)).2 ⟨index, hindex, rfl, h⟩

/-- What is written for an instruction is read. -/
theorem reads_instruction {instruction : Instruction} (hfits : instruction.Fits pool)
    (hbehind : input.Behind instruction.write later) :
    Reads (read pool length offset) input (step instruction) later := by
  -- instructions of one byte are read from a list of them
  by_cases hone : instruction.write.length = 1
  · exact reads_singleByte hone hbehind
  cases instruction with
  | pushByte value =>
    exact reads_operands (by decide) hbehind fun middle h =>
      (inverts_int8.reads_make fun value => step (.pushByte value)).2 ⟨value, trivial, rfl, h⟩
  | pushShort value =>
    exact reads_operands (by decide) hbehind fun middle h =>
      (inverts_int16.reads_make fun value => step (.pushShort value)).2 ⟨value, trivial, rfl, h⟩
  | loadConstant constant =>
    rw [Instruction.write] at hbehind
    -- the form of one byte is only written for an index that fits in it
    split at hbehind
    · rename_i hle
      refine reads_operands (by decide) hbehind fun middle h => ?_
      refine inverts_uint8.reads_bind.2 ⟨constant.toUInt8, trivial, later, h, ?_⟩
      rw [toUInt8_toUInt16 hle]
      exact reads_bind.2 ⟨constant, later, reads_ofExcept.2 ⟨hfits, rfl⟩, reads_pure.2 ⟨rfl, rfl⟩⟩
    · exact reads_index (by decide) (Pool.confirms_loadableIndex false) rfl hfits hbehind
  | loadWideConstant constant =>
    exact reads_index (by decide) (Pool.confirms_loadableIndex true) rfl hfits hbehind
  | load kind slot =>
    have hopcode : 0x15 + kind.rank ∈ operandOpcodes := by cases kind <;> decide
    refine reads_local (.load kind) rfl hopcode ?_ ?_ hone hbehind
    · cases kind <;> exact fun slot => rfl
    · cases kind <;> rfl
  | store kind slot =>
    have hopcode : 0x36 + kind.rank ∈ operandOpcodes := by cases kind <;> decide
    refine reads_local (.store kind) rfl hopcode ?_ ?_ hone hbehind
    · cases kind <;> exact fun slot => rfl
    · cases kind <;> rfl
  -- both parts have to fit in a byte, or both are written wide
  | increment slot amount =>
    rw [Instruction.write] at hbehind
    split at hbehind
    · rename_i hsmall
      obtain ⟨hslot, hlow, hhigh⟩ := hsmall
      refine reads_operands (by decide) hbehind fun middle h => ?_
      obtain ⟨second, hfirst, hsecond⟩ := Input.behind_cons.1 h
      refine inverts_uint8.reads_bind.2 ⟨slot.toUInt8, trivial, second, hfirst, ?_⟩
      refine (inverts_int8.reads_make fun amount => step (.increment _ amount.toInt16)).2
        ⟨amount.toInt8, trivial, ?_, hsecond⟩
      rw [toUInt8_toUInt16 hslot, toInt8_toInt16 hlow hhigh]
    · refine reads_wide hbehind fun middle h => ?_
      obtain ⟨second, hslot, hamount⟩ := Input.behind_append.1 h
      refine inverts_uint16.reads_bind.2 ⟨slot, trivial, second, hslot, ?_⟩
      exact (inverts_int16.reads_make fun amount => step (.increment slot amount)).2
        ⟨amount, trivial, rfl, hamount⟩
  | getStatic fieldRef | putStatic fieldRef | getField fieldRef | putField fieldRef =>
    exact reads_index (by decide) Pool.confirms_fieldRefIndex rfl hfits hbehind
  | invoke kind method =>
    obtain ⟨hmethod, hkind⟩ := hfits
    cases kind with
    | virtual | special | static =>
      exact reads_index (by decide) Pool.confirms_methodRefIndex rfl hmethod hbehind
    | interface slots =>
      refine reads_operands (by decide) hbehind fun middle h => ?_
      obtain ⟨second, hindex, hrest⟩ := Input.behind_append.1 h
      obtain ⟨third, hslots, hfiller⟩ := Input.behind_cons.1 hrest
      refine inverts_uint16.reads_bind.2 ⟨method, trivial, second, hindex, ?_⟩
      refine reads_bind.2 ⟨method, second, reads_ofExcept.2 ⟨hmethod, rfl⟩, ?_⟩
      refine inverts_uint8.reads_bind.2 ⟨slots, trivial, third, hslots, ?_⟩
      refine inverts_uint8.reads_bind.2 ⟨0, trivial, later, hfiller, ?_⟩
      rw [if_neg]
      · exact reads_pure.2 ⟨rfl, rfl⟩
      · rintro (hfiller | rfl)
        · exact hfiller rfl
        · exact hkind rfl
  | invokeDynamic site =>
    refine reads_operands (by decide) hbehind fun middle h => ?_
    obtain ⟨second, hindex, hfiller⟩ := Input.behind_append.1 h
    refine inverts_uint16.reads_bind.2 ⟨site, trivial, second, hindex, ?_⟩
    refine reads_bind.2 ⟨site, second, reads_ofExcept.2 ⟨hfits, rfl⟩, ?_⟩
    exact inverts_uint16.reads_bind.2 ⟨0, trivial, later, hfiller, reads_pure.2 ⟨rfl, rfl⟩⟩
  | new type | newRefArray type | checkCast type | instanceOf type =>
    exact reads_index (by decide) Pool.confirms_classIndex rfl hfits hbehind
  | newArray element =>
    refine reads_operands (by decide) hbehind fun middle h => ?_
    refine inverts_uint8.reads_bind.2 ⟨element.arrayCode, trivial, later, h, ?_⟩
    cases element <;> exact reads_pure.2 ⟨rfl, rfl⟩
  | newMultiArray type dimensions =>
    obtain ⟨htype, hdimensions⟩ := hfits
    refine reads_operands (by decide) hbehind fun middle h => ?_
    obtain ⟨second, hindex, hlast⟩ := Input.behind_append.1 h
    refine inverts_uint16.reads_bind.2 ⟨type, trivial, second, hindex, ?_⟩
    refine reads_bind.2 ⟨type, second, reads_ofExcept.2 ⟨htype, rfl⟩, ?_⟩
    refine inverts_uint8.reads_bind.2 ⟨dimensions, trivial, later, hlast, ?_⟩
    rw [if_neg hdimensions]
    exact reads_pure.2 ⟨rfl, rfl⟩
  | _ => exact absurd rfl hone

/-- A branch whose only operand is a distance of two bytes is read. -/
theorem reads_short {opcode : UInt8} {found : Branch Nat} (hopcode : opcode ∈ shortOpcodes)
    (hfound : Branch.ofShortOpcode? opcode target = some found) (htarget : target < length)
    (hshort : Layout.isShort offset target = true)
    (hbehind : input.Behind (opcode :: Branch.writeShort ((target : Int) - offset)) later) :
    Reads (read pool length offset) input (branch found) later := by
  have hnone := ofByte?_eq_none (List.mem_append_right _ hopcode)
  have hshortBranch : ∀ opcode ∈ shortOpcodes, isShortBranch opcode = true := by decide +kernel
  obtain ⟨middle, hfirst, hdistance⟩ := Input.behind_cons.1 hbehind
  unfold read
  refine inverts_uint8.reads_bind.2 ⟨opcode, trivial, middle, hfirst, ?_⟩
  rw [hnone.1]
  dsimp only
  rw [hnone.2]
  dsimp only
  rw [hshortBranch opcode hopcode]
  refine (inverts_readShort length offset).reads_bind.2
    ⟨target, ⟨htarget, hshort⟩, later, hdistance, ?_⟩
  rw [hfound]
  exact reads_pure.2 ⟨rfl, rfl⟩

/-- A branch of one byte is read. -/
theorem reads_bareBranch {opcode : UInt8} {found : Branch Nat}
    (hopcode : opcode.toNat ∉ singleOpcodes) (hfound : Branch.ofByte? opcode = some found)
    (hbehind : input.Behind [opcode] later) :
    Reads (read pool length offset) input (branch found) later := by
  unfold read
  refine inverts_uint8.reads_bind.2 ⟨opcode, trivial, later, hbehind, ?_⟩
  rw [ofByte?_of_not_mem hopcode]
  dsimp only
  rw [hfound]
  exact reads_pure.2 ⟨rfl, rfl⟩

/-- Bytes that are passed over may be any. -/
theorem reads_skip {count : Nat} {bytes : Bytes} (hcount : bytes.length = count)
    (hbehind : input.Behind bytes later) :
    Reads (discard (Reader.bytes count)) input () later := by
  change Reads ((fun _ => ()) <$> Reader.bytes count) input () later
  rw [map_eq_pure_bind]
  exact (inverts_bytes count).reads_bind.2 ⟨bytes, hcount, later, hbehind, reads_pure.2 ⟨rfl, rfl⟩⟩

variable {low : Int32} {default : Nat} {targets : List Nat}

/-- The last key of a switch by consecutive keys. -/
theorem toInt_lastKey {count : Nat} (hpos : 0 < count) (hle : low.toInt + count ≤ Int32.count) :
    (low + Int32.ofNat count - 1).toInt = low.toInt + count - 1 := by
  have hlow := low.le_toInt
  unfold Int32.count at hle
  have heq : low + Int32.ofNat count - 1 = Int32.ofInt (low.toInt + count - 1) := by
    rw [Int32.ofInt_sub, Int32.ofInt_add, Int32.ofInt_toInt]
    rfl
  rw [heq]
  exact Int32.toInt_ofInt_of_le (by omega) (by omega)

/-- The targets of a switch by consecutive keys are read one by one, behind its padding and its
first and last key. -/
theorem reads_tableSwitch (hfits : (Branch.tableSwitch low default targets).Fits)
    (htargets : ∀ target ∈ default :: targets, target < length ∧ IsLong offset target)
    (hbehind : input.Behind (List.replicate (Branch.padding offset) 0 ++
      Branch.writeLong ((default : Int) - offset) ++ Bytes.ofInt32 low ++
      Bytes.ofInt32 (low + Int32.ofNat targets.length - 1) ++
      targets.flatMap fun target : Nat => Branch.writeLong ((target : Int) - offset)) later) :
    Reads (readTableSwitch length offset malformed) input (.tableSwitch low default targets)
      later := by
  obtain ⟨hne, hle⟩ := hfits
  obtain ⟨hdefault, htargets⟩ := List.forall_mem_cons.1 htargets
  have hpos : 0 < targets.length := List.length_pos_iff.2 hne
  have hhigh := toInt_lastKey hpos hle
  obtain ⟨fourth, hfront, htable⟩ := Input.behind_append.1 hbehind
  obtain ⟨third, hfront, hhighBehind⟩ := Input.behind_append.1 hfront
  obtain ⟨second, hfront, hlow⟩ := Input.behind_append.1 hfront
  obtain ⟨first, hskip, hfirst⟩ := Input.behind_append.1 hfront
  unfold readTableSwitch
  refine reads_bind.2 ⟨(), first, reads_skip (by simp) hskip, ?_⟩
  refine (inverts_readLong length offset).reads_bind.2 ⟨default, hdefault, second, hfirst, ?_⟩
  refine inverts_int32.reads_bind.2 ⟨low, trivial, third, hlow, ?_⟩
  refine inverts_int32.reads_bind.2 ⟨_, trivial, fourth, hhighBehind, ?_⟩
  rw [if_neg]
  · refine (inverts_many (inverts_readLong length offset) _).reads_bind.2
      ⟨targets, ⟨?_, htargets⟩, later, htable, reads_pure.2 ⟨rfl, rfl⟩⟩
    rw [hhigh]
    omega
  · rw [Int32.lt_iff_toInt_lt, hhigh]
    omega

/-- The cases of a switch by any keys are read back, behind their number. -/
theorem reads_lookupSwitch {cases : List (Int32 × Nat)}
    (hfits : (Branch.lookupSwitch default cases).Fits)
    (htargets : ∀ target ∈ default :: cases.map (·.2), target < length ∧ IsLong offset target)
    (hbehind : input.Behind (List.replicate (Branch.padding offset) 0 ++
      Branch.writeLong ((default : Int) - offset) ++ Bytes.ofInt32 (Int32.ofNat cases.length) ++
      cases.flatMap fun found : Int32 × Nat =>
        Bytes.ofInt32 found.1 ++ Branch.writeLong ((found.2 : Int) - offset)) later) :
    Reads (readLookupSwitch length offset malformed) input (.lookupSwitch default cases) later := by
  obtain ⟨hdefault, hcases⟩ := List.forall_mem_cons.1 htargets
  have hcount : (Int32.ofNat cases.length).toInt = cases.length := Int32.toInt_ofNat_of_lt hfits
  obtain ⟨third, hfront, htable⟩ := Input.behind_append.1 hbehind
  obtain ⟨second, hfront, hlength⟩ := Input.behind_append.1 hfront
  obtain ⟨first, hskip, hfirst⟩ := Input.behind_append.1 hfront
  -- a case is a key and a distance behind it
  have hcase : Inverts (do
      let key ← Reader.int32
      return (key, ← readLong length offset))
      (fun found => Bytes.ofInt32 found.1 ++ Branch.writeLong ((found.2 : Int) - offset))
      fun found => found.2 < length ∧ IsLong offset found.2 := by
    intro input found later
    simp only [inverts_int32.reads_bind, (inverts_readLong length offset).reads_bind, reads_pure,
      Input.behind_append]
    constructor
    · rintro ⟨key, -, middle, hkey, target, htarget, _, hdistance, rfl, rfl⟩
      exact ⟨htarget, middle, hkey, hdistance⟩
    · rintro ⟨htarget, middle, hkey, hdistance⟩
      exact ⟨found.1, trivial, middle, hkey, found.2, htarget, later, hdistance, rfl, rfl⟩
  unfold readLookupSwitch
  refine reads_bind.2 ⟨(), first, reads_skip (by simp) hskip, ?_⟩
  refine (inverts_readLong length offset).reads_bind.2 ⟨default, hdefault, second, hfirst, ?_⟩
  refine inverts_int32.reads_bind.2 ⟨_, trivial, third, hlength, ?_⟩
  rw [if_neg]
  · refine (inverts_many hcase _).reads_bind.2
      ⟨cases, ⟨?_, List.forall_mem_map.1 hcases⟩, later, htable, reads_pure.2 ⟨rfl, rfl⟩⟩
    rw [hcount, Int.toNat_natCast]
  · rw [Int32.lt_iff_toInt_lt, hcount]
    exact Int.not_lt.2 (Int.natCast_nonneg _)

/-- What is written for a branch is read, if its targets are within reach. -/
theorem reads_branch {long : Bool} {found : Branch Nat} (hfits : found.Fits)
    (htargets : ∀ target ∈ found.targets, target < length ∧ IsLong offset target)
    (hnear : found.isNear long = true → ∀ target ∈ found.targets,
      Layout.isShort offset target = true)
    (hbehind : input.Behind ((branch found).write long offset) later) :
    Reads (read pool length offset) input (branch found) later := by
  cases found with
  -- a conditional branch is always near, and a jump is long where it is not
  | ifInt test target | ifInts test target | ifRefs test target | ifNull test target =>
    obtain ⟨hlt, -⟩ := List.forall_mem_singleton.1 htargets
    have hshort := List.forall_mem_singleton.1 (hnear rfl)
    cases test <;> exact reads_short (by decide) rfl hlt hshort hbehind
  | goto target | jsr target =>
    obtain ⟨hlt, hlong⟩ := List.forall_mem_singleton.1 htargets
    cases long with
    | false =>
      have hshort := hnear rfl target List.mem_cons_self
      exact reads_short (by decide) rfl hlt hshort hbehind
    | true =>
      exact reads_operands (by decide) hbehind fun middle h =>
        ((inverts_readLong length offset).reads_make _).2 ⟨target, ⟨hlt, hlong⟩, rfl, h⟩
  | ret slot =>
    have hwrite : (branch (.ret slot)).write long offset =
      if slot ≤ 255 then [0xA9, slot.toUInt8]
      else Instruction.wide :: 0xA9 :: Bytes.ofUInt16 slot := rfl
    rw [hwrite] at hbehind
    split at hbehind
    · rename_i hle
      refine reads_operands (by decide) hbehind fun middle h => ?_
      refine (inverts_uint8.reads_make fun slot => branch (.ret slot.toUInt16)).2
        ⟨slot.toUInt8, trivial, ?_, h⟩
      rw [toUInt8_toUInt16 hle]
    · refine reads_wide hbehind fun middle h => ?_
      exact inverts_uint16.reads_bind.2 ⟨slot, trivial, later, h, reads_pure.2 ⟨rfl, rfl⟩⟩
  | tableSwitch low default targets =>
    refine reads_operands (show (0xAA : UInt8) ∈ operandOpcodes by decide) hbehind fun middle h => ?_
    change Reads (branch <$> readTableSwitch length offset _) middle _ later
    rw [map_eq_pure_bind]
    refine reads_bind.2 ⟨_, later, reads_tableSwitch hfits htargets ?_, reads_pure.2 ⟨rfl, rfl⟩⟩
    simp only [List.flatMap_map, List.length_map] at h
    exact h
  | lookupSwitch default cases =>
    refine reads_operands (show (0xAB : UInt8) ∈ operandOpcodes by decide) hbehind fun middle h => ?_
    change Reads (branch <$> readLookupSwitch length offset _) middle _ later
    rw [map_eq_pure_bind]
    refine reads_bind.2 ⟨_, later, reads_lookupSwitch hfits htargets ?_, reads_pure.2 ⟨rfl, rfl⟩⟩
    simp only [List.flatMap_map, List.length_map] at h
    exact h
  | returnValue kind =>
    cases kind <;> exact reads_bareBranch (by decide +kernel) rfl hbehind
  | returnVoid | throwException => exact reads_bareBranch (by decide +kernel) rfl hbehind

/-- Whether the targets have to be within reach of a distance of two bytes. -/
def isNear {L : Type} (long : Bool) : Operation L → Bool
  | step _ => false
  | branch b => b.isNear long

/-- What is written for an operation is read. -/
theorem reads_write {long : Bool} {operation : Operation Nat} (hsound : Sound pool length operation)
    (hoffset : offset < length) (hlength : length ≤ Int32.count)
    (hnear : operation.isNear long = true → ∀ target ∈ operation.targets,
      Layout.isShort offset target = true)
    (hbehind : input.Behind (operation.write long offset) later) :
    Reads (read pool length offset) input operation later := by
  obtain ⟨hfits, htargets⟩ := hsound
  cases operation with
  | step instruction => exact reads_instruction hfits hbehind
  | branch found =>
    refine reads_branch hfits (fun target hmem => ?_) hnear hbehind
    have hlt : target < length := htargets target hmem
    exact ⟨hlt, by unfold IsLong; omega⟩

end Operation

end Preverification
