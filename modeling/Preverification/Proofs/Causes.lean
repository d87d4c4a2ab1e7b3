import Preverification.Body.Decode
import Preverification.ClassFile.Member
import Preverification.Proofs.Effects

/-!
# What errors are blamed on

Most errors have a cause in the input: bytes are missing, or a constant is of another kind. Others
would be slips of the program itself, as when a label is looked up that was never placed. Here it is
said of checks, and of steps that change a state, that they only fail for reasons of a certain kind;
it is enough to look at their parts. Whatever is read from bytes or looked up in a pool fails
because of the input.

* `Blames.bind`, `StepBlames.bind` and `StepBlamesAt.bind`: it is enough to look at the parts.
* `Operation.blames_read`: reading an operation fails because of the input.
* `Body.blames_decode`: decoding code does, since only labels are looked up that were just made.
-/

namespace Preverification

open MonadExcept (ofExcept)

/-- A check fails only with errors that meet a condition. -/
def Blames {ε α : Type} (kind : ε → Prop) (check : Except ε α) : Prop :=
  ∀ error, check = .error error → kind error

/-- A step fails only with errors that meet a condition, whatever the state. -/
def StepBlames {ε σ α : Type} (kind : ε → Prop) (step : EStateM ε σ α) : Prop :=
  ∀ state error state', step state = .error error state' → kind error

/-! ### Putting checks together -/

namespace Blames

variable {ε ε' α β : Type} {kind : ε → Prop} {kind' : ε' → Prop} {l : List α}

theorem pure (a : α) : Blames kind (pure a : Except ε α) := nofun

/-- Failing for a reason of the kind is allowed. -/
theorem throw {error : ε} (h : kind error) : Blames kind (throw error : Except ε α) := by
  rintro _ ⟨⟩
  exact h

/-- A check that succeeds blames nothing. -/
theorem of_ok {check : Except ε α} {a : α} (h : check = .ok a) : Blames kind check := by
  rw [h]
  exact nofun

/-- A check is made of two parts, of which the second one may rely on what the first one has found.
-/
theorem bind {check : Except ε α} {next : α → Except ε β} (h : Blames kind check)
    (hnext : ∀ a, check = .ok a → Blames kind (next a)) : Blames kind (check >>= next) := by
  intro error hrun
  cases hcheck : check with
  | error found =>
    rw [hcheck] at hrun
    cases hrun
    exact h error hcheck
  | ok a =>
    rw [hcheck] at hrun
    exact hnext a hcheck error hrun

/-- Changing the result changes no error. -/
theorem map {check : Except ε α} {f : α → β} (h : Blames kind check) :
    Blames kind (f <$> check) := by
  intro error hrun
  cases hcheck : check with
  | error found =>
    rw [hcheck] at hrun
    cases hrun
    exact h error hcheck
  | ok a =>
    rw [hcheck] at hrun
    cases hrun

/-- The kind of an error is asked about after the error was changed. -/
theorem mapError {check : Except ε α} {f : ε → ε'} (h : Blames (fun error => kind' (f error)) check) :
    Blames kind' (check.mapError f) := by
  intro error hrun
  cases hcheck : check with
  | error found =>
    rw [hcheck] at hrun
    cases hrun
    exact h found hcheck
  | ok a =>
    rw [hcheck] at hrun
    cases hrun

/-- A check does not fail with an error that does not meet the condition. -/
theorem ne_error {error : ε} {check : Except ε α} (h : Blames (· ≠ error) check) :
    check ≠ .error error :=
  fun hrun => h error hrun rfl

/-- Going through a list fails at one of its elements. -/
theorem mapM {f : α → Except ε β} (h : ∀ a ∈ l, Blames kind (f a)) : Blames kind (l.mapM f) := by
  intro error hrun
  obtain ⟨a, hmem, ha⟩ := except_mapM_error hrun
  exact h a hmem error ha

/-- Steps through a list keep an invariant, on which what they are blamed on may depend. -/
theorem foldlM {f : β → α → Except ε β} (I : β → Prop)
    (h : ∀ b, ∀ a ∈ l, I b → Blames kind (f b a) ∧ ∀ b', f b a = .ok b' → I b') {b : β} (hb : I b) :
    Blames kind (l.foldlM f b) := by
  induction l generalizing b with
  | nil => exact .pure b
  | cons a l ih =>
    obtain ⟨hstep, hkeeps⟩ := h b a List.mem_cons_self hb
    rw [List.foldlM_cons]
    exact .bind hstep fun b' hb' =>
      ih (fun c d hd => h c d (List.mem_cons_of_mem _ hd)) (hkeeps b' hb')

theorem forM {f : α → Except ε Unit} (h : ∀ a ∈ l, Blames kind (f a)) : Blames kind (l.forM f) := by
  induction l with
  | nil => exact .pure ()
  | cons a l ih =>
    obtain ⟨ha, hl⟩ := List.forall_mem_cons.1 h
    exact .bind ha fun _ _ => ih hl

/-- Picking elements fails for one of them, whatever was picked before. -/
theorem filterM {f : α → Except ε Bool} (h : ∀ a ∈ l, Blames kind (f a)) :
    Blames kind (l.filterM f) := by
  -- the elements that were picked already play no part
  have hfrom : ∀ found, Blames kind (l.filterAuxM f found) := by
    induction l with
    | nil => exact fun found => .pure found
    | cons a l ih =>
      obtain ⟨ha, hl⟩ := List.forall_mem_cons.1 h
      exact fun found => .bind ha fun _ _ => ih hl _
  exact .bind (hfrom []) fun _ _ => .pure _

end Blames

/-! ### Putting steps together -/

namespace StepBlames

variable {ε σ α β : Type} {kind : ε → Prop} {l : List α}

theorem pure (a : α) : StepBlames kind (pure a : EStateM ε σ α) := nofun

theorem throw {error : ε} (h : kind error) : StepBlames kind (throw error : EStateM ε σ α) := by
  rintro state _ state' ⟨⟩
  exact h

/-- A check in a step is blamed on what the check is blamed on. -/
theorem ofExcept {result : Except ε α} (h : Blames kind result) :
    StepBlames kind (MonadExcept.ofExcept result : EStateM ε σ α) := by
  intro state error state' hrun
  cases result with
  | ok value => cases hrun
  | error found =>
    cases hrun
    exact h error rfl

theorem get : StepBlames kind (get : EStateM ε σ σ) := nofun

theorem modify (f : σ → σ) : StepBlames kind (modify f : EStateM ε σ Unit) := nofun

/-- A step is made of two parts, which are looked at for all states. -/
theorem bind {step : EStateM ε σ α} {next : α → EStateM ε σ β} (h : StepBlames kind step)
    (hnext : ∀ a, StepBlames kind (next a)) : StepBlames kind (step >>= next) := by
  intro state error state' hrun
  rcases state_bind_error.1 hrun with hfirst | ⟨a, middle, -, hsecond⟩
  · exact h state error state' hfirst
  · exact hnext a middle error state' hsecond

theorem map {step : EStateM ε σ α} {f : α → β} (h : StepBlames kind step) :
    StepBlames kind (f <$> step) :=
  .bind h fun a => .pure (f a)

theorem discard {step : EStateM ε σ α} (h : StepBlames kind step) :
    StepBlames kind (discard step) := .map h

/-- Of two ways, one is taken. -/
theorem ite {condition : Prop} [Decidable condition] {yes no : EStateM ε σ α}
    (hyes : StepBlames kind yes) (hno : StepBlames kind no) :
    StepBlames kind (if condition then yes else no) := by
  split
  · exact hyes
  · exact hno

theorem forM {f : α → EStateM ε σ Unit} (h : ∀ a ∈ l, StepBlames kind (f a)) :
    StepBlames kind (l.forM f) := by
  induction l with
  | nil => exact .pure ()
  | cons a l ih =>
    obtain ⟨ha, hl⟩ := List.forall_mem_cons.1 h
    exact .bind ha fun _ => ih hl

/-- Going through a list is a step for each element. -/
theorem mapM {f : α → EStateM ε σ β} (h : ∀ a ∈ l, StepBlames kind (f a)) :
    StepBlames kind (l.mapM f) := by
  induction l with
  | nil => exact .pure []
  | cons a l ih =>
    obtain ⟨ha, hl⟩ := List.forall_mem_cons.1 h
    rw [List.mapM_cons]
    exact .bind ha fun _ => .bind (ih hl) fun _ => .pure _

end StepBlames

/-! ### Steps from one state -/

/-- A step from one state fails only with errors that meet a condition. -/
def StepBlamesAt {ε σ α : Type} (kind : ε → Prop) (step : EStateM ε σ α) (state : σ) : Prop :=
  ∀ error state', step state = .error error state' → kind error

namespace StepBlamesAt

variable {ε σ α β : Type} {kind : ε → Prop} {state : σ}

/-- A step from one state is made of two parts, of which the second one starts from where the first
one has ended. -/
theorem bind {step : EStateM ε σ α} {next : α → EStateM ε σ β} (h : StepBlamesAt kind step state)
    (hnext : ∀ a later, step state = .ok a later → StepBlamesAt kind (next a) later) :
    StepBlamesAt kind (step >>= next) state := by
  intro error state' hrun
  rcases state_bind_error.1 hrun with hfirst | ⟨a, middle, hmiddle, hsecond⟩
  · exact h error state' hfirst
  · exact hnext a middle hmiddle error state' hsecond

theorem ofExcept {result : Except ε α} (h : Blames kind result) :
    StepBlamesAt kind (MonadExcept.ofExcept result : EStateM ε σ α) state :=
  StepBlames.ofExcept h state

end StepBlamesAt

/-! ### Looking constants up -/

/-- The input can cause an error, unless it is about where a label was placed. -/
def StructuralError.CausedByInput : StructuralError → Prop
  | unplacedLabel _ | duplicateLabel _ => False
  | _ => True

/-- A check fails because of the input. -/
abbrev BlamesInput {α : Type} (check : Except StructuralError α) : Prop :=
  Blames StructuralError.CausedByInput check

/-- A step fails because of the input. -/
abbrev StepBlamesInput {σ α : Type} (step : EStateM StructuralError σ α) : Prop :=
  StepBlames StructuralError.CausedByInput step

section Descriptors

variable (source : String)

/-- A text that is not a descriptor is the fault of the input. -/
theorem blames_methodDescriptor : BlamesInput (MethodDescriptor.ofDescriptor source) :=
  .mapError fun _ _ => trivial

theorem blames_classConstant : BlamesInput (RefType.ofClassConstant source) := by
  unfold RefType.ofClassConstant
  split
  · exact .mapError fun _ _ => trivial
  · exact .mapError fun _ _ => trivial

end Descriptors

namespace Pool

variable (pool : Pool) (index : PoolIndex)

theorem blames_utf8 : BlamesInput (pool.utf8 index) := by
  unfold utf8
  split
  · exact .pure _
  · exact .throw trivial

/-- The name of a class is the text that the constant points at. -/
theorem blames_className : BlamesInput (pool.className index) := by
  unfold className
  split
  · exact pool.blames_utf8 _
  · exact .throw trivial

theorem blames_classType : BlamesInput (pool.classType index) :=
  .bind (pool.blames_className index) fun name _ => blames_classConstant name

/-- A name and a descriptor are two texts that are looked up. -/
theorem blames_nameAndType : BlamesInput (pool.nameAndType index) := by
  unfold nameAndType
  split
  · exact .bind (pool.blames_utf8 _) fun _ _ => .bind (pool.blames_utf8 _) fun _ _ => .pure _
  · exact .throw trivial

/-- An index that does not point at a class is the fault of the input, and so for the other kinds of
constants. -/
theorem blames_classIndex : BlamesInput (pool.classIndex index) := by
  unfold classIndex
  split
  · exact .pure _
  · exact .throw trivial

theorem blames_fieldRefIndex : BlamesInput (pool.fieldRefIndex index) := by
  unfold fieldRefIndex
  split
  · exact .pure _
  · exact .throw trivial

theorem blames_methodRefIndex : BlamesInput (pool.methodRefIndex index) := by
  unfold methodRefIndex
  split
  · exact .pure _
  · exact .throw trivial

theorem blames_invokeDynamicIndex : BlamesInput (pool.invokeDynamicIndex index) := by
  unfold invokeDynamicIndex
  split
  · exact .pure _
  · exact .throw trivial

/-- A constant that is loaded has one slot or two, and its index is wrong if it has the other
number. -/
theorem blames_loadableIndex (isWide : Bool) : BlamesInput (pool.loadableIndex index isWide) := by
  -- what is found has the width that is asked for, or the index is wrong
  have hwidth : ∀ foundWide : Bool, BlamesInput (if foundWide = isWide then pure index else
      throw (.badConstantIndex index (if isWide then .wideLoadable else .loadable))) := by
    intro foundWide
    split
    · exact .pure _
    · exact .throw trivial
  unfold loadableIndex
  dsimp only
  split
  case h_9 =>
    exact .bind (pool.blames_nameAndType _) fun _ _ => .bind (.pure _) fun found _ => hwidth found
  case h_10 => exact .throw trivial
  all_goals exact .bind (.pure _) fun found _ => hwidth found

end Pool

/-! ### Reading -/

namespace Reader

variable {α : Type}

theorem blames_position : StepBlamesInput position := nofun

/-- Input that ends too early is incomplete. -/
theorem blames_bytes (count : Nat) : StepBlamesInput (bytes count) := by
  intro input error later hrun
  unfold bytes at hrun
  dsimp only at hrun
  split at hrun
  · cases hrun
  · cases hrun
    trivial

theorem blames_uint8 : StepBlamesInput uint8 := by
  intro input error later hrun
  unfold uint8 at hrun
  split at hrun
  · cases hrun
    trivial
  · cases hrun

/-- Numbers are read as so many bytes. -/
theorem blames_nat (width : Nat) : StepBlamesInput (nat width) :=
  .bind (blames_bytes width) fun _ => .pure _

theorem blames_uint16 : StepBlamesInput uint16 := .bind (blames_nat 2) fun _ => .pure _

theorem blames_int8 : StepBlamesInput int8 := .bind blames_uint8 fun _ => .pure _

theorem blames_int16 : StepBlamesInput int16 := .bind blames_uint16 fun _ => .pure _

theorem blames_int32 : StepBlamesInput int32 := .bind (blames_nat 4) fun _ => .pure _

/-- Elements are read one behind the other, to those that were found before. -/
theorem blames_many {read : Reader α} (h : StepBlamesInput read) (found : List α) (count : Nat) :
    StepBlamesInput (many read found count) := by
  induction count generalizing found with
  | zero => exact .pure _
  | succ count ih => exact .bind h fun value => ih (value :: found)

/-- A list is read as its length and its elements. -/
theorem blames_list {read : Reader α} (h : StepBlamesInput read) : StepBlamesInput (list read) :=
  .bind (blames_nat 2) fun count => blames_many h [] count

/-- What is left behind a reader plays no part in its errors. -/
theorem blames_run {read : Reader α} (h : StepBlamesInput read) (bytes : Bytes) :
    BlamesInput (run read bytes) := by
  intro error hrun
  unfold run at hrun
  split at hrun
  · cases hrun
  · rename_i found later hread
    cases hrun
    exact h _ _ later hread

end Reader

/-! ### Operations -/

namespace Operation

variable (pool : Pool) (length offset : Nat) {malformed : StructuralError}

/-- A branch that leads out of the code is the fault of the input. -/
theorem blames_resolve (distance : Int) : StepBlamesInput (resolve length offset distance) := by
  unfold resolve
  exact .ite (.pure _) (.throw trivial)

theorem blames_readShort : StepBlamesInput (readShort length offset) :=
  .bind Reader.blames_int16 fun _ => blames_resolve length offset _

theorem blames_readLong : StepBlamesInput (readLong length offset) :=
  .bind Reader.blames_int32 fun _ => blames_resolve length offset _

/-- A table switch is malformed if its highest key is below its lowest one. -/
theorem blames_readTableSwitch (hmalformed : malformed.CausedByInput) :
    StepBlamesInput (readTableSwitch length offset malformed) := by
  refine .bind (.discard (Reader.blames_bytes _)) fun _ => ?_
  refine .bind (blames_readLong length offset) fun default => ?_
  refine .bind Reader.blames_int32 fun low => .bind Reader.blames_int32 fun high => ?_
  refine .ite (.bind (.throw hmalformed) fun _ => ?_) ?_
  all_goals exact .bind (Reader.blames_many (blames_readLong length offset) [] _) fun _ => .pure _

/-- A lookup switch is malformed if it has a negative number of cases. -/
theorem blames_readLookupSwitch (hmalformed : malformed.CausedByInput) :
    StepBlamesInput (readLookupSwitch length offset malformed) := by
  have hcase : StepBlamesInput (do
      let key ← Reader.int32
      return (key, ← readLong length offset)) :=
    .bind Reader.blames_int32 fun _ => .bind (blames_readLong length offset) fun _ => .pure _
  refine .bind (.discard (Reader.blames_bytes _)) fun _ => ?_
  refine .bind (blames_readLong length offset) fun default => ?_
  refine .bind Reader.blames_int32 fun count => ?_
  refine .ite (.bind (.throw hmalformed) fun _ => ?_) ?_
  all_goals exact .bind (Reader.blames_many hcase [] _) fun _ => .pure _

/-- Only some instructions have a wide form. -/
theorem blames_readWide (hmalformed : malformed.CausedByInput) :
    StepBlamesInput (readWide malformed) := by
  refine .bind Reader.blames_uint8 fun opcode => .bind Reader.blames_uint16 fun slot => ?_
  split
  · exact .pure _
  · exact .ite (.bind Reader.blames_int16 fun _ => .pure _) (.ite (.pure _) (.throw hmalformed))

/-- An operation whose only operand is the index of a constant. -/
theorem blames_indexed {check : PoolIndex → Except StructuralError PoolIndex}
    (hcheck : ∀ index, BlamesInput (check index))
    (make : PoolIndex → Instruction) :
    StepBlamesInput (do return (step (make (← ofExcept (check (← Reader.uint16)))) : Operation Nat)) :=
  .bind Reader.blames_uint16 fun index => .bind (.ofExcept (hcheck index)) fun _ => .pure _

/-- Whatever the opcode is, its operands are the fault of the input. -/
theorem blames_readOperands (opcode : UInt8) :
    StepBlamesInput (readOperands pool length offset opcode) := by
  have hmalformed : (StructuralError.malformedInstruction opcode offset).CausedByInput := trivial
  unfold readOperands
  dsimp only
  -- one case for each group of opcodes, as they are read
  split
  case h_1 => exact .bind Reader.blames_int8 fun _ => .pure _
  case h_2 => exact .bind Reader.blames_int16 fun _ => .pure _
  case h_3 =>
    exact .bind Reader.blames_uint8 fun index =>
      .bind (.ofExcept (pool.blames_loadableIndex _ false)) fun _ => .pure _
  case h_4 => exact blames_indexed (pool.blames_loadableIndex · false) _
  case h_5 => exact blames_indexed (pool.blames_loadableIndex · true) _
  case h_6 => exact .bind Reader.blames_uint8 fun _ => .bind Reader.blames_int8 fun _ => .pure _
  case h_7 => exact .bind Reader.blames_uint8 fun _ => .pure _
  case h_8 => exact .map (blames_readTableSwitch length offset hmalformed)
  case h_9 => exact .map (blames_readLookupSwitch length offset hmalformed)
  case h_10 | h_11 | h_12 | h_13 => exact blames_indexed pool.blames_fieldRefIndex _
  case h_14 | h_15 | h_16 => exact blames_indexed pool.blames_methodRefIndex _
  -- the count of an interface call, and a byte that has to be zero
  case h_17 =>
    refine .bind Reader.blames_uint16 fun index => ?_
    refine .bind (.ofExcept (pool.blames_methodRefIndex index)) fun method => ?_
    refine .bind Reader.blames_uint8 fun slots => .bind Reader.blames_uint8 fun filler => ?_
    exact .ite (.bind (.throw hmalformed) fun _ => .pure _) (.pure _)
  case h_18 =>
    refine .bind Reader.blames_uint16 fun index => ?_
    refine .bind (.ofExcept (pool.blames_invokeDynamicIndex index)) fun site => ?_
    refine .bind Reader.blames_uint16 fun filler => ?_
    exact .ite (.bind (.throw hmalformed) fun _ => .pure _) (.pure _)
  case h_19 | h_21 | h_22 | h_23 => exact blames_indexed pool.blames_classIndex _
  case h_20 =>
    refine .bind Reader.blames_uint8 fun code => ?_
    split
    · exact .pure _
    · exact .throw hmalformed
  case h_24 => exact blames_readWide hmalformed
  case h_25 =>
    refine .bind Reader.blames_uint16 fun index => ?_
    refine .bind (.ofExcept (pool.blames_classIndex index)) fun type => ?_
    refine .bind Reader.blames_uint8 fun dimensions => ?_
    exact .ite (.bind (.throw hmalformed) fun _ => .pure _) (.pure _)
  case h_26 | h_27 => exact .bind (blames_readLong length offset) fun _ => .pure _
  -- loads and stores, or no opcode at all
  case h_28 =>
    split
    · refine .bind Reader.blames_uint8 fun slot => ?_
      split
      · exact .pure _
      · exact .throw hmalformed
    · exact .throw trivial

/-- Reading an operation fails because of the input. -/
theorem blames_read : StepBlamesInput (read pool length offset) := by
  refine .bind Reader.blames_uint8 fun opcode => ?_
  split
  · exact .pure _
  · split
    · exact .pure _
    · refine .ite (.bind (blames_readShort length offset) fun target => ?_)
        (blames_readOperands pool length offset opcode)
      split
      · exact .pure _
      · exact .throw trivial

end Operation

/-! ### Attributes -/

namespace Attribute

variable (attr : Attribute) (pool : Pool)

theorem blames_holds (α : Type) [AttributeContents α] : BlamesInput (attr.holds α pool) :=
  .bind (pool.blames_utf8 attr.name) fun _ _ => .pure _

/-- The contents of an attribute are blamed on the input if their reader is. -/
theorem blames_decode {α : Type} [AttributeContents α]
    (hread : StepBlamesInput (AttributeContents.read : Reader α)) : BlamesInput (attr.decode α) := by
  unfold decode
  dsimp only
  split
  · exact .pure _
  · exact .throw trivial
  · exact .throw trivial
  · rename_i error _ hrun
    exact .throw (Reader.blames_run hread attr.contents error hrun)

theorem blames_read : StepBlamesInput read :=
  .bind Reader.blames_uint16 fun _ => .bind (Reader.blames_nat 4) fun count =>
    .bind (Reader.blames_bytes count) fun _ => .pure _

end Attribute

theorem ExceptionEntry.blames_read : StepBlamesInput read :=
  .bind Reader.blames_uint16 fun _ => .bind Reader.blames_uint16 fun _ =>
    .bind Reader.blames_uint16 fun _ => .bind Reader.blames_uint16 fun _ => .pure _

theorem LineEntry.blames_read : StepBlamesInput read :=
  .bind Reader.blames_uint16 fun _ => .bind Reader.blames_uint16 fun _ => .pure _

theorem VariableEntry.blames_read : StepBlamesInput read :=
  .bind Reader.blames_uint16 fun _ => .bind Reader.blames_uint16 fun _ =>
    .bind Reader.blames_uint16 fun _ => .bind Reader.blames_uint16 fun _ =>
      .bind Reader.blames_uint16 fun _ => .pure _

theorem Code.blames_read : StepBlamesInput read :=
  .bind Reader.blames_uint16 fun _ => .bind Reader.blames_uint16 fun _ =>
    .bind (Reader.blames_nat 4) fun count => .bind (Reader.blames_bytes count) fun _ =>
      .bind (Reader.blames_list ExceptionEntry.blames_read) fun _ =>
        .bind (Reader.blames_list Attribute.blames_read) fun _ => .pure _

namespace CodeAttributes

/-- An attribute of code is decoded if it is one of those that are known, by its name. -/
theorem blames_ofAttribute (pool : Pool) (attr : Attribute) :
    BlamesInput (ofAttribute pool attr) := by
  have hlines : BlamesInput (attr.decode LineNumberTable) :=
    attr.blames_decode (.bind (Reader.blames_list LineEntry.blames_read) fun _ => .pure _)
  have hvariables : BlamesInput (attr.decode LocalVariableTable) :=
    attr.blames_decode (.bind (Reader.blames_list VariableEntry.blames_read) fun _ => .pure _)
  have htypes : BlamesInput (attr.decode LocalVariableTypeTable) :=
    attr.blames_decode (.bind (Reader.blames_list VariableEntry.blames_read) fun _ => .pure _)
  -- its name is compared with those of the tables, one after the other
  refine .bind (attr.blames_holds pool _) fun isLines _ => ?_
  split
  · exact .bind hlines fun _ _ => .pure _
  refine .bind (attr.blames_holds pool _) fun isVariables _ => ?_
  split
  · exact .bind hvariables fun _ _ => .pure _
  refine .bind (attr.blames_holds pool _) fun isTypes _ => ?_
  split
  · exact .bind htypes fun _ _ => .pure _
  refine .bind (attr.blames_holds pool _) fun isTable _ => ?_
  refine .bind (attr.blames_holds pool _) fun isMap _ => ?_
  split
  · exact .pure _
  · exact .pure _

theorem blames_ofList (pool : Pool) (attributes : List Attribute) :
    BlamesInput (ofList pool attributes) :=
  .bind (.mapM fun attr _ => blames_ofAttribute pool attr) fun _ _ => .pure _

end CodeAttributes

/-! ### Code -/

namespace DecodedCode

variable (pool : Pool) (decoded : DecodedCode)

/-- Operations are read one behind the other, to those that were found before. -/
theorem blames_readOperations (length rounds : Nat) (found : List (Nat × Operation Nat)) :
    StepBlamesInput (readOperations pool length found rounds) := by
  induction rounds generalizing found with
  | zero => exact .pure _
  | succ rounds ih =>
    refine .bind Reader.blames_position fun offset => ?_
    exact .ite (.pure _) (.bind (Operation.blames_read pool length offset) fun _ => ih _)

/-- Bytes that are not operations are the fault of the input. -/
theorem blames_ofBytes (bytecode : Bytes) : BlamesInput (ofBytes pool bytecode) :=
  .bind (Reader.blames_run (blames_readOperations pool _ _ []) bytecode) fun _ _ => .pure _

/-- A branch that leads inside an operation is the fault of the input. -/
theorem blames_checkTargets : BlamesInput decoded.checkTargets := by
  refine .forM fun ⟨offset, operation⟩ _ => ?_
  dsimp only
  split
  · exact .throw trivial
  · exact .pure _

/-- An entry of the exception table whose range or handler is not made of operations is a fault of
the input. -/
theorem blames_checkException (entry : ExceptionEntry) :
    BlamesInput (decoded.checkException entry) := by
  unfold checkException
  dsimp only
  split
  · exact .throw trivial
  · split
    · exact .throw trivial
    · exact .pure _

end DecodedCode

/-- Code that is not decoded is wrong itself. -/
theorem Body.blames_decode (code : Code) (pool : Pool) : BlamesInput (decode code pool) :=
  .bind (DecodedCode.blames_ofBytes pool code.bytecode) fun decoded _ =>
    .bind decoded.blames_checkTargets fun _ _ =>
      .bind (.forM fun entry _ => decoded.blames_checkException entry) fun _ _ =>
        .bind (CodeAttributes.blames_ofList pool code.attributes) fun _ _ => .pure _

/-- The code of a method is found, or the input is wrong. -/
theorem Member.blames_codePosition (method : Member) (pool : Pool) :
    BlamesInput (method.codePosition pool) := by
  have hfind : ∀ (attributes : List Attribute) (found : Option Nat) (position : Nat),
      BlamesInput (findCode pool found position attributes) := by
    intro attributes
    induction attributes with
    | nil => exact fun found _ => .pure found
    | cons attr attributes ih =>
      intro found position
      refine .bind (attr.blames_holds pool _) fun isCode _ => ?_
      split
      · split
        · exact .bind (.throw trivial) fun _ _ => ih _ _
        · exact ih _ _
      · exact ih _ _
  exact hfind method.attributes none 0

end Preverification
