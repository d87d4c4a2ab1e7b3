import Mathlib.Algebra.GroupWithZero.Nat
import Preverification.Proofs.Monotone

/-!
# Stack shuffles on slots

An operand stack is a sequence of slots, of which a `long` or a `double` takes up two. The
instructions that reorder a stack are given by what they do to slots: some on top are removed, or
copied to a place further down, or the two on top are exchanged. Main statement: such an instruction
can run exactly when there are enough slots and no value is cut, and what it leaves behind has the
slots that are given.

* `exists_border`: a border that cuts no value is one between values.
* `SlotShuffle.OnValues.slots_eq`: what a shuffle of whole values does to their slots.
* `Transfer.onValues_of_shuffle`, `Transfer.shuffle_of_onValues`: a shuffle runs exactly if whole
  values can be moved.
* `Transfer.shuffle_slots`: shuffles do to slots what they are meant to do.
-/

namespace Preverification

/-- A slot of an operand stack. -/
structure StackSlot where
  -- the value in the slot
  type : InferredType
  -- the number of slots above that belong to the same value
  part : Nat
deriving DecidableEq, Repr

/-- The slots of some values, the top one first. -/
def stackSlots (values : List InferredType) : List StackSlot :=
  values.flatMap fun type => (List.range (width type)).map (⟨type, ·⟩)

/-- The border behind a number of slots is inside of a value. -/
def CutsValue (slots : List StackSlot) (depth : Nat) : Prop :=
  ∃ slot ∈ slots[depth]?, slot.part ≠ 0

instance (slots : List StackSlot) (depth : Nat) : Decidable (CutsValue slots depth) :=
  inferInstanceAs (Decidable (∃ slot ∈ slots[depth]?, slot.part ≠ 0))

/-- What an instruction does to the slots on top of a stack. -/
inductive SlotShuffle where
  -- removes some slots
  | remove (count : Nat)
  -- inserts a copy of some slots behind the `below` slots that follow them
  | copy (count below : Nat)
  -- exchanges two slots
  | exchange
deriving DecidableEq, Repr

/-- What an instruction that reorders a stack is meant to do. -/
def StackShuffle.onSlots : StackShuffle → SlotShuffle
  | pop => .remove 1
  | pop2 => .remove 2
  | dup => .copy 1 0
  | dupX1 => .copy 1 1
  | dupX2 => .copy 1 2
  | dup2 => .copy 2 0
  | dup2X1 => .copy 2 1
  | dup2X2 => .copy 2 2
  | swap => .exchange

namespace SlotShuffle

/-- The slots behind a shuffle. -/
def apply : SlotShuffle → List StackSlot → List StackSlot
  | remove count, slots => slots.drop count
  | copy count below, slots =>
    slots.take (count + below) ++ slots.take count ++ slots.drop (count + below)
  | exchange, slots => (slots.take 2).reverse ++ slots.drop 2

/-- The number of slots that a shuffle looks at. -/
def reach : SlotShuffle → Nat
  | remove count => count
  | copy count below => count + below
  | exchange => 2

/-- The borders at which the stack is taken apart: behind the slots that are removed, copied or
exchanged, and where something is inserted. -/
def borders : SlotShuffle → List Nat
  | remove count => [count]
  | copy count below => [count, count + below]
  | exchange => [1, 2]

/-- There are enough slots, and no value is cut. -/
def Fits (shuffle : SlotShuffle) (slots : List StackSlot) : Prop :=
  shuffle.reach ≤ slots.length ∧ ∀ depth ∈ shuffle.borders, ¬ CutsValue slots depth

instance (shuffle : SlotShuffle) (slots : List StackSlot) : Decidable (shuffle.Fits slots) :=
  inferInstanceAs (Decidable (shuffle.reach ≤ slots.length ∧
    ∀ depth ∈ shuffle.borders, ¬ CutsValue slots depth))

/-- A shuffle of whole values. -/
def OnValues : SlotShuffle → List InferredType → List InferredType → Prop
  | remove count, values, values' => ∃ above, totalWidth above = count ∧ values = above ++ values'
  | copy count below, values, values' => ∃ above middle deeper,
      totalWidth above = count ∧ totalWidth middle = below ∧ values = above ++ middle ++ deeper ∧
        values' = above ++ middle ++ above ++ deeper
  | exchange, values, values' => ∃ first second deeper, width first = 1 ∧ width second = 1 ∧
      values = first :: second :: deeper ∧ values' = second :: first :: deeper

end SlotShuffle

/-! ### Borders between values -/

section Borders

variable {values above deeper : List InferredType} {depth : Nat}

theorem stackSlots_cons (type : InferredType) (values : List InferredType) :
    stackSlots (type :: values) = (List.range (width type)).map (⟨type, ·⟩) ++ stackSlots values :=
  rfl

theorem stackSlots_append (above deeper : List InferredType) :
    stackSlots (above ++ deeper) = stackSlots above ++ stackSlots deeper :=
  List.flatMap_append

/-- Values have as many slots as they are wide. -/
@[simp] theorem length_stackSlots (values : List InferredType) :
    (stackSlots values).length = totalWidth values := by
  induction values with
  | nil => rfl
  | cons type values ih => simp [stackSlots_cons, totalWidth, ih]

/-- The slots above a border are those of the values above it. -/
theorem take_stackSlots (h : totalWidth above = depth) :
    (stackSlots (above ++ deeper)).take depth = stackSlots above := by
  rw [stackSlots_append, List.take_left' (by simpa using h)]

theorem drop_stackSlots (h : totalWidth above = depth) :
    (stackSlots (above ++ deeper)).drop depth = stackSlots deeper := by
  rw [stackSlots_append, List.drop_left' (by simpa using h)]

/-- A border below some values is one in the rest of the stack. -/
theorem cutsValue_append (above deeper : List InferredType) (depth : Nat) :
    CutsValue (stackSlots (above ++ deeper)) (totalWidth above + depth) ↔
      CutsValue (stackSlots deeper) depth := by
  unfold CutsValue
  rw [stackSlots_append, List.getElem?_append_right (by simp), length_stackSlots,
    Nat.add_sub_cancel_left]

/-- A border between values cuts none. -/
theorem not_cutsValue (h : totalWidth above = depth) :
    ¬ CutsValue (stackSlots (above ++ deeper)) depth := by
  rw [← h, ← Nat.add_zero (totalWidth above), cutsValue_append]
  -- the first slot of a value has no other one above it
  rintro ⟨slot, hslot, hpart⟩
  cases deeper with
  | nil => cases hslot
  | cons type deeper =>
    rcases type.width_cases with hwidth | hwidth
    all_goals
      rw [stackSlots_cons, hwidth] at hslot
      cases hslot
      exact hpart rfl

/-- A border that cuts no value is one between values. -/
theorem exists_border (h : depth ≤ totalWidth values) (hcut : ¬ CutsValue (stackSlots values) depth) :
    ∃ above deeper, totalWidth above = depth ∧ values = above ++ deeper := by
  induction values generalizing depth with
  | nil => exact ⟨[], [], (Nat.le_zero.1 h).symm, rfl⟩
  | cons type values ih =>
    by_cases hle : width type ≤ depth
    · -- the border is further down
      obtain ⟨depth, rfl⟩ := Nat.exists_eq_add_of_le hle
      rw [totalWidth] at h
      have hrest : ¬ CutsValue (stackSlots values) depth := fun hcut' =>
        hcut ((cutsValue_append [type] values depth).2 hcut')
      obtain ⟨above, deeper, rfl, rfl⟩ := ih (by omega) hrest
      exact ⟨type :: above, deeper, rfl, rfl⟩
    · rcases depth with _ | depth
      · exact ⟨[], type :: values, rfl, rfl⟩
      · -- it is behind the first of two slots
        have hwidth := type.width_cases
        obtain ⟨htwo, rfl⟩ : width type = 2 ∧ depth = 0 := by omega
        refine absurd ⟨⟨type, 1⟩, ?_, Nat.one_ne_zero⟩ hcut
        rw [stackSlots_cons, htwo]
        rfl

/-- Each value takes up some slot. -/
theorem totalWidth_eq_zero : totalWidth values = 0 ↔ values = [] := by
  cases values with
  | nil => exact ⟨fun _ => rfl, fun _ => rfl⟩
  | cons type values =>
    have hwidth := type.width_cases
    rw [totalWidth]
    exact ⟨fun h => by omega, fun h => absurd h (List.cons_ne_nil _ _)⟩

/-- One slot is that of one value. -/
theorem totalWidth_eq_one :
    totalWidth values = 1 ↔ ∃ type, width type = 1 ∧ values = [type] := by
  constructor
  · intro h
    cases values with
    | nil => cases h
    | cons type values =>
      have hwidth := type.width_cases
      rw [totalWidth] at h
      exact ⟨type, by omega, by rw [totalWidth_eq_zero.1 (show totalWidth values = 0 by omega)]⟩
  · rintro ⟨type, hwidth, rfl⟩
    exact hwidth

/-- Two slots are those of one value or of two. -/
theorem totalWidth_eq_two : totalWidth values = 2 ↔
    (∃ type, width type = 2 ∧ values = [type]) ∨
      ∃ first second, width first = 1 ∧ width second = 1 ∧ values = [first, second] := by
  constructor
  · intro h
    cases values with
    | nil => cases h
    | cons type values =>
      rw [totalWidth] at h
      rcases type.width_cases with hwidth | hwidth
      · obtain ⟨second, hsecond, rfl⟩ :=
          totalWidth_eq_one.1 (show totalWidth values = 1 by omega)
        exact .inr ⟨type, second, hwidth, hsecond, rfl⟩
      · exact .inl ⟨type, hwidth, by
          rw [totalWidth_eq_zero.1 (show totalWidth values = 0 by omega)]⟩
  · rintro (⟨type, hwidth, rfl⟩ | ⟨first, second, hfirst, hsecond, rfl⟩)
    · exact hwidth
    · simp [totalWidth, hfirst, hsecond]

end Borders

/-! ### Shuffles of whole values -/

namespace SlotShuffle

variable {values values' : List InferredType}

/-- There are enough slots, and two borders cut no value, when both stand between values. -/
theorem borders_iff (count below : Nat) (values : List InferredType) :
    (count + below ≤ totalWidth values ∧ ¬ CutsValue (stackSlots values) count ∧
      ¬ CutsValue (stackSlots values) (count + below)) ↔
      ∃ above middle deeper, totalWidth above = count ∧ totalWidth middle = below ∧
        values = above ++ middle ++ deeper := by
  constructor
  · rintro ⟨hreach, hcut, hcut'⟩
    obtain ⟨above, rest, rfl, rfl⟩ := exists_border (Nat.le_of_add_right_le hreach) hcut
    rw [totalWidth_append, Nat.add_le_add_iff_left] at hreach
    rw [cutsValue_append] at hcut'
    obtain ⟨middle, deeper, hmiddle, rfl⟩ := exists_border hreach hcut'
    exact ⟨above, middle, deeper, rfl, hmiddle, (List.append_assoc ..).symm⟩
  · rintro ⟨above, middle, deeper, rfl, rfl, rfl⟩
    have hboth := totalWidth_append above middle
    refine ⟨?_, ?_, not_cutsValue hboth⟩
    · rw [totalWidth_append, hboth]
      exact Nat.le_add_right _ _
    · rw [List.append_assoc]
      exact not_cutsValue rfl

/-- There are enough slots and no value is cut exactly if whole values can be shuffled. -/
theorem fits_iff (shuffle : SlotShuffle) (values : List InferredType) :
    shuffle.Fits (stackSlots values) ↔ ∃ values', shuffle.OnValues values values' := by
  unfold Fits
  rw [length_stackSlots]
  -- no border of what is moved is inside of a value
  cases shuffle with
  -- what is removed ends at a border
  | remove count =>
    simp only [reach, borders, List.forall_mem_singleton, OnValues]
    constructor
    · rintro ⟨hreach, hcut⟩
      obtain ⟨above, deeper, habove, rfl⟩ := exists_border hreach hcut
      exact ⟨deeper, above, habove, rfl⟩
    · rintro ⟨deeper, above, rfl, rfl⟩
      rw [totalWidth_append]
      exact ⟨Nat.le_add_right _ _, not_cutsValue rfl⟩
  -- so do what is copied and what it is put below
  | copy count below =>
    have hborders := borders_iff count below values
    simp only [reach, borders, List.forall_mem_cons, List.not_mem_nil, false_implies, implies_true,
      and_true, OnValues, hborders]
    constructor
    · rintro ⟨above, middle, deeper, hsplit⟩
      exact ⟨_, above, middle, deeper, hsplit.1, hsplit.2.1, hsplit.2.2, rfl⟩
    · rintro ⟨_, above, middle, deeper, habove, hmiddle, hvalues, _⟩
      exact ⟨above, middle, deeper, habove, hmiddle, hvalues⟩
  -- both of the two values fill one slot
  | exchange =>
    have hborders := borders_iff 1 1 values
    simp only [reach, borders, List.forall_mem_cons, List.not_mem_nil, false_implies, implies_true,
      and_true, OnValues]
    refine hborders.trans ⟨?_, ?_⟩
    · rintro ⟨above, middle, deeper, habove, hmiddle, rfl⟩
      obtain ⟨first, hfirst, rfl⟩ := totalWidth_eq_one.1 habove
      obtain ⟨second, hsecond, rfl⟩ := totalWidth_eq_one.1 hmiddle
      exact ⟨_, first, second, deeper, hfirst, hsecond, rfl, rfl⟩
    · rintro ⟨_, first, second, deeper, hfirst, hsecond, rfl, rfl⟩
      exact ⟨[first], [second], deeper, hfirst, hsecond, rfl⟩

/-- What a shuffle of whole values does to their slots. The values below stay. -/
theorem OnValues.slots_eq {shuffle : SlotShuffle} (h : shuffle.OnValues values values') :
    stackSlots values' = shuffle.apply (stackSlots values) ∧
      ∃ above above' deeper, totalWidth above = shuffle.reach ∧ values = above ++ deeper ∧
        values' = above' ++ deeper := by
  cases shuffle with
  | remove count =>
    obtain ⟨above, habove, rfl⟩ := h
    exact ⟨(drop_stackSlots habove).symm, above, [], values', habove, rfl, rfl⟩
  | copy count below =>
    obtain ⟨above, middle, deeper, habove, hmiddle, rfl, rfl⟩ := h
    have hboth : totalWidth (above ++ middle) = count + below := by
      rw [totalWidth_append, habove, hmiddle]
    refine ⟨?_, above ++ middle, above ++ middle ++ above, deeper, hboth, rfl, rfl⟩
    -- the copy is the one of the slots on top
    have htop : (stackSlots (above ++ middle ++ deeper)).take count = stackSlots above := by
      rw [List.append_assoc, take_stackSlots habove]
    simp only [apply, take_stackSlots hboth, drop_stackSlots hboth, htop]
    simp only [stackSlots_append]
  | exchange =>
    obtain ⟨first, second, deeper, hfirst, hsecond, rfl, rfl⟩ := h
    have htwo : totalWidth [first, second] = 2 := by simp [totalWidth, hfirst, hsecond]
    refine ⟨?_, [first, second], [second, first], deeper, htwo, rfl, rfl⟩
    simp [apply, stackSlots, hfirst, hsecond]

end SlotShuffle

/-! ### Instructions -/

/-- A state with these values on the stack. -/
def TypeState.withValues (state : TypeState) (values : List InferredType) : TypeState :=
  ⟨state.locals, .ofValues values⟩

@[simp] theorem TypeState.values_withValues (state : TypeState) (values : List InferredType) :
    (state.withValues values).stack.values = values :=
  OperandStack.values_ofValues values

/-- A stack is known by its values. -/
theorem TypeState.eq_withValues {state after : TypeState} {values : List InferredType} :
    after = state.withValues values ↔ after.stack.values = values ∧ after.locals = state.locals := by
  constructor
  · rintro rfl
    exact ⟨values_withValues state values, rfl⟩
  · rintro ⟨rfl, hlocals⟩
    unfold withValues
    rw [OperandStack.ofValues_values, ← hlocals]

theorem TypeState.withValues_self (state : TypeState) :
    state.withValues state.stack.values = state :=
  (eq_withValues.2 ⟨rfl, rfl⟩).symm

namespace Transfer

variable {α : Type} {state after : TypeState} {values : List InferredType} {result : α}

/-- A value is popped if there is one, and what is left is the rest. -/
theorem pop_bind_ok {next : InferredType → Transfer α} :
    (pop >>= next) (state.withValues values) = .ok result after ↔
      ∃ type rest, values = type :: rest ∧ next type (state.withValues rest) = .ok result after := by
  rw [state_bind_ok]
  simp only [pop_ok, TypeState.values_withValues]
  constructor
  · rintro ⟨type, middle, ⟨hvalues, hlocals⟩, hnext⟩
    rw [TypeState.eq_withValues.2 ⟨rfl, hlocals⟩] at hnext
    exact ⟨type, _, hvalues, hnext⟩
  · rintro ⟨type, rest, hvalues, hnext⟩
    refine ⟨type, state.withValues rest, ⟨?_, rfl⟩, hnext⟩
    rw [TypeState.values_withValues]
    exact hvalues

/-- A value of a width is popped if there is one on top. -/
theorem popWidth_bind_ok {expected : Nat} {next : InferredType → Transfer α} :
    (popWidth expected >>= next) (state.withValues values) = .ok result after ↔
      ∃ type rest, width type = expected ∧ values = type :: rest ∧
        next type (state.withValues rest) = .ok result after := by
  unfold popWidth
  rw [bind_assoc, pop_bind_ok]
  constructor
  · rintro ⟨type, rest, hvalues, h⟩
    by_cases hwidth : width type = expected
    · rw [if_pos hwidth] at h
      exact ⟨type, rest, hwidth, hvalues, h⟩
    · rw [if_neg hwidth] at h
      cases h
  · rintro ⟨type, rest, hwidth, hvalues, h⟩
    refine ⟨type, rest, hvalues, ?_⟩
    rw [if_pos hwidth]
    exact h

theorem discard_popWidth_ok {expected : Nat} :
    discard (popWidth expected) (state.withValues values) = .ok () after ↔
      ∃ type rest, width type = expected ∧ values = type :: rest ∧
        state.withValues rest = after := by
  have hdiscard : discard (popWidth expected) = popWidth expected >>= fun _ => pure () := rfl
  rw [hdiscard, popWidth_bind_ok]
  simp only [state_pure_ok, true_and]

theorem push_withValues (type : InferredType) (state : TypeState) (values : List InferredType) :
    push type (state.withValues values) = .ok () (state.withValues (type :: values)) := by
  have hpushed : (⟨state.locals, (state.withValues values).stack.push type⟩ : TypeState) =
      state.withValues (type :: values) := by
    refine TypeState.eq_withValues.2 ⟨?_, rfl⟩
    rw [OperandStack.values_push, TypeState.values_withValues]
  exact congrArg (EStateM.Result.ok ()) hpushed

/-- Values that are pushed stand above the others, the last one on top. -/
theorem pushAll_eq (types : List InferredType) (state : TypeState) (values : List InferredType) :
    pushAll types (state.withValues values) =
      .ok () (state.withValues (types.reverse ++ values)) := by
  induction types generalizing values with
  | nil => rfl
  | cons type types ih =>
    refine state_bind_ok.2 ⟨(), _, push_withValues type state values, ?_⟩
    rw [List.reverse_cons, List.append_assoc]
    exact ih _

/-- Two slots on top are those of two values, or of one. -/
theorem pop_pair_ok {one : InferredType → InferredType → Transfer α}
    {two : InferredType → Transfer α} :
    (do
      let first ← pop
      if width first = 1 then one first (← popWidth 1) else two first : Transfer α)
        (state.withValues values) = .ok result after ↔
      (∃ first second rest, width first = 1 ∧ width second = 1 ∧ values = first :: second :: rest ∧
        one first second (state.withValues rest) = .ok result after) ∨
      ∃ type rest, width type = 2 ∧ values = type :: rest ∧
        two type (state.withValues rest) = .ok result after := by
  rw [pop_bind_ok]
  constructor
  · rintro ⟨first, rest, hvalues, h⟩
    -- the first value is wide, or there has to be another narrow one
    rcases first.width_cases with hfirst | hfirst
    · rw [if_pos hfirst] at h
      obtain ⟨second, deeper, hsecond, hrest, hone⟩ := popWidth_bind_ok.1 h
      rw [hrest] at hvalues
      exact .inl ⟨first, second, deeper, hfirst, hsecond, hvalues, hone⟩
    · rw [if_neg (by omega)] at h
      exact .inr ⟨first, rest, hfirst, hvalues, h⟩
  · rintro (⟨first, second, rest, hfirst, hsecond, hvalues, h⟩ | ⟨first, rest, hfirst, hvalues, h⟩)
    · refine ⟨first, second :: rest, hvalues, ?_⟩
      rw [if_pos hfirst]
      exact popWidth_bind_ok.2 ⟨second, rest, hsecond, rfl, h⟩
    · refine ⟨first, rest, hvalues, ?_⟩
      rw [if_neg (by omega)]
      exact h

theorem totalWidth_pair {first second : InferredType} (hfirst : width first = 1)
    (hsecond : width second = 1) : totalWidth [first, second] = 2 := by
  simp [totalWidth, hfirst, hsecond]

/-- Values that were popped are pushed again, with a copy of those on top behind the others. -/
theorem copies_of_pushAll {above middle deeper : List InferredType} {count below : Nat}
    (habove : totalWidth above = count) (hmiddle : totalWidth middle = below)
    (hvalues : values = above ++ middle ++ deeper)
    (h : pushAll (above ++ middle ++ above).reverse (state.withValues deeper) = .ok () after) :
    (SlotShuffle.copy count below).OnValues values after.stack.values ∧
      after.locals = state.locals := by
  rw [pushAll_eq] at h
  cases h
  refine ⟨⟨above, middle, deeper, habove, hmiddle, hvalues, ?_⟩, rfl⟩
  simp

/-- Values that are taken off leave those below them. -/
theorem removes_of_withValues {above deeper : List InferredType} {count : Nat}
    (habove : totalWidth above = count) (hvalues : values = above ++ deeper)
    (h : state.withValues deeper = after) :
    (SlotShuffle.remove count).OnValues values after.stack.values ∧ after.locals = state.locals := by
  cases h
  rw [TypeState.values_withValues]
  exact ⟨⟨above, habove, hvalues⟩, rfl⟩

/-- A shuffle that runs moves whole values. -/
theorem onValues_of_withValues {op : StackShuffle}
    (h : shuffle op (state.withValues values) = .ok () after) :
    op.onSlots.OnValues values after.stack.values ∧ after.locals = state.locals := by
  -- each instruction is followed through its pops, and what it pushes is compared
  cases op with
  | pop =>
    obtain ⟨first, rest, hfirst, rfl, hrest⟩ := discard_popWidth_ok.1 h
    exact @removes_of_withValues _ _ _ [first] rest _ hfirst rfl hrest
  | pop2 =>
    rcases pop_pair_ok.1 h with ⟨first, second, rest, hfirst, hsecond, rfl, hrest⟩ |
      ⟨first, rest, hfirst, rfl, hrest⟩
    · exact @removes_of_withValues _ _ _ [first, second] rest _ (totalWidth_pair hfirst hsecond) rfl
        (state_pure_ok.1 hrest).2
    · exact @removes_of_withValues _ _ _ [first] rest _ hfirst rfl (state_pure_ok.1 hrest).2
  | dup =>
    obtain ⟨first, rest, hfirst, rfl, hpush⟩ := popWidth_bind_ok.1 h
    exact @copies_of_pushAll _ _ _ [first] [] rest _ _ hfirst rfl rfl hpush
  | dupX1 =>
    obtain ⟨first, rest, hfirst, rfl, hbelow⟩ := popWidth_bind_ok.1 h
    obtain ⟨second, rest, hsecond, rfl, hpush⟩ := popWidth_bind_ok.1 hbelow
    exact @copies_of_pushAll _ _ _ [first] [second] rest _ _ hfirst hsecond rfl hpush
  | dupX2 =>
    obtain ⟨first, rest, hfirst, rfl, hbelow⟩ := popWidth_bind_ok.1 h
    rcases pop_pair_ok.1 hbelow with ⟨second, third, rest, hsecond, hthird, rfl, hpush⟩ |
      ⟨second, rest, hsecond, rfl, hpush⟩
    · exact @copies_of_pushAll _ _ _ [first] [second, third] rest _ _ hfirst
        (totalWidth_pair hsecond hthird) rfl hpush
    · exact @copies_of_pushAll _ _ _ [first] [second] rest _ _ hfirst hsecond rfl hpush
  | dup2 =>
    rcases pop_pair_ok.1 h with ⟨first, second, rest, hfirst, hsecond, rfl, hpush⟩ |
      ⟨first, rest, hfirst, rfl, hpush⟩
    · exact @copies_of_pushAll _ _ _ [first, second] [] rest _ _ (totalWidth_pair hfirst hsecond) rfl
        rfl hpush
    · exact @copies_of_pushAll _ _ _ [first] [] rest _ _ hfirst rfl rfl hpush
  | dup2X1 =>
    obtain ⟨first, rest, rfl, hbelow⟩ := pop_bind_ok.1 h
    obtain ⟨second, rest, hsecond, rfl, hlower⟩ := popWidth_bind_ok.1 hbelow
    rcases first.width_cases with hfirst | hfirst
    · rw [if_pos hfirst] at hlower
      obtain ⟨third, rest, hthird, rfl, hpush⟩ := popWidth_bind_ok.1 hlower
      exact @copies_of_pushAll _ _ _ [first, second] [third] rest _ _
        (totalWidth_pair hfirst hsecond) hthird rfl hpush
    · rw [if_neg (by omega)] at hlower
      exact @copies_of_pushAll _ _ _ [first] [second] rest _ _ hfirst hsecond rfl hlower
  | dup2X2 =>
    obtain ⟨first, rest, rfl, hbelow⟩ := pop_bind_ok.1 h
    obtain ⟨second, rest, rfl, hlower⟩ := pop_bind_ok.1 hbelow
    rcases first.width_cases with hfirst | hfirst <;>
      rcases second.width_cases with hsecond | hsecond
    · rw [if_pos hfirst, if_pos hsecond] at hlower
      rcases pop_pair_ok.1 hlower with ⟨third, fourth, rest, hthird, hfourth, rfl, hpush⟩ |
        ⟨third, rest, hthird, rfl, hpush⟩
      · exact @copies_of_pushAll _ _ _ [first, second] [third, fourth] rest _ _
          (totalWidth_pair hfirst hsecond) (totalWidth_pair hthird hfourth) rfl hpush
      · exact @copies_of_pushAll _ _ _ [first, second] [third] rest _ _
          (totalWidth_pair hfirst hsecond) hthird rfl hpush
    · -- a value of two slots under one of one slot would be cut
      rw [if_pos hfirst, if_neg (by omega)] at hlower
      cases hlower
    · rw [if_neg (by omega), if_pos hsecond] at hlower
      obtain ⟨third, rest, hthird, rfl, hpush⟩ := popWidth_bind_ok.1 hlower
      exact @copies_of_pushAll _ _ _ [first] [second, third] rest _ _ hfirst
        (totalWidth_pair hsecond hthird) rfl hpush
    · rw [if_neg (by omega), if_neg (by omega)] at hlower
      exact @copies_of_pushAll _ _ _ [first] [second] rest _ _ hfirst hsecond rfl hlower
  | swap =>
    obtain ⟨first, rest, hfirst, rfl, hbelow⟩ := popWidth_bind_ok.1 h
    obtain ⟨second, rest, hsecond, rfl, hpush⟩ := popWidth_bind_ok.1 hbelow
    rw [pushAll_eq] at hpush
    cases hpush
    rw [TypeState.values_withValues]
    exact ⟨⟨first, second, rest, hfirst, hsecond, rfl, rfl⟩, rfl⟩

/-- A shuffle that runs moves whole values. -/
theorem onValues_of_shuffle {op : StackShuffle} (h : shuffle op state = .ok () after) :
    op.onSlots.OnValues state.stack.values after.stack.values ∧ after.locals = state.locals := by
  rw [← state.withValues_self] at h
  exact onValues_of_withValues h

/-- A shuffle can run if whole values can be moved. -/
theorem shuffle_of_onValues {op : StackShuffle} {others : List InferredType}
    (h : op.onSlots.OnValues state.stack.values others) :
    shuffle op state = .ok () (state.withValues others) := by
  have hself := state.withValues_self
  generalize state.stack.values = values at h hself
  rw [← hself]
  -- two slots are one wide value, or two narrow ones, and instructions tell these forms apart
  cases op with
  | pop =>
    obtain ⟨_, habove, hvalues⟩ := h
    obtain ⟨first, hfirst, rfl⟩ := totalWidth_eq_one.1 habove
    exact discard_popWidth_ok.2 ⟨first, others, hfirst, hvalues, rfl⟩
  | pop2 =>
    obtain ⟨_, habove, hvalues⟩ := h
    refine pop_pair_ok.2 ?_
    -- one wide value or two narrow ones on top, and the same for what is below
    rcases totalWidth_eq_two.1 habove with ⟨first, hfirst, rfl⟩ |
      ⟨first, second, hfirst, hsecond, rfl⟩
    · exact .inr ⟨first, others, hfirst, hvalues, rfl⟩
    · exact .inl ⟨first, second, others, hfirst, hsecond, hvalues, rfl⟩
  | dup =>
    obtain ⟨_, _, deeper, habove, hmiddle, hvalues, rfl⟩ := h
    obtain ⟨first, hfirst, rfl⟩ := totalWidth_eq_one.1 habove
    cases totalWidth_eq_zero.1 hmiddle
    exact popWidth_bind_ok.2 ⟨first, deeper, hfirst, hvalues, pushAll_eq _ _ _⟩
  | dupX1 =>
    obtain ⟨_, _, deeper, habove, hmiddle, hvalues, rfl⟩ := h
    obtain ⟨first, hfirst, rfl⟩ := totalWidth_eq_one.1 habove
    obtain ⟨second, hsecond, rfl⟩ := totalWidth_eq_one.1 hmiddle
    exact popWidth_bind_ok.2 ⟨first, second :: deeper, hfirst, hvalues,
      popWidth_bind_ok.2 ⟨second, deeper, hsecond, rfl, pushAll_eq _ _ _⟩⟩
  | dupX2 =>
    obtain ⟨_, middle, deeper, habove, hmiddle, hvalues, rfl⟩ := h
    obtain ⟨first, hfirst, rfl⟩ := totalWidth_eq_one.1 habove
    refine popWidth_bind_ok.2 ⟨first, middle ++ deeper, hfirst, hvalues, pop_pair_ok.2 ?_⟩
    rcases totalWidth_eq_two.1 hmiddle with ⟨second, hsecond, rfl⟩ |
      ⟨second, third, hsecond, hthird, rfl⟩
    · exact .inr ⟨second, deeper, hsecond, rfl, pushAll_eq _ _ _⟩
    · exact .inl ⟨second, third, deeper, hsecond, hthird, rfl, pushAll_eq _ _ _⟩
  | dup2 =>
    obtain ⟨_, _, deeper, habove, hmiddle, hvalues, rfl⟩ := h
    cases totalWidth_eq_zero.1 hmiddle
    refine pop_pair_ok.2 ?_
    rcases totalWidth_eq_two.1 habove with ⟨first, hfirst, rfl⟩ |
      ⟨first, second, hfirst, hsecond, rfl⟩
    · exact .inr ⟨first, deeper, hfirst, hvalues, pushAll_eq _ _ _⟩
    · exact .inl ⟨first, second, deeper, hfirst, hsecond, hvalues, pushAll_eq _ _ _⟩
  | dup2X1 =>
    obtain ⟨_, _, deeper, habove, hmiddle, hvalues, rfl⟩ := h
    obtain ⟨last, hlast, rfl⟩ := totalWidth_eq_one.1 hmiddle
    rcases totalWidth_eq_two.1 habove with ⟨first, hfirst, rfl⟩ |
      ⟨first, second, hfirst, hsecond, rfl⟩
    · refine pop_bind_ok.2 ⟨first, last :: deeper, hvalues,
        popWidth_bind_ok.2 ⟨last, deeper, hlast, rfl, ?_⟩⟩
      rw [if_neg (by omega)]
      exact pushAll_eq _ _ _
    · refine pop_bind_ok.2 ⟨first, second :: last :: deeper, hvalues,
        popWidth_bind_ok.2 ⟨second, last :: deeper, hsecond, rfl, ?_⟩⟩
      rw [if_pos hfirst]
      exact popWidth_bind_ok.2 ⟨last, deeper, hlast, rfl, pushAll_eq _ _ _⟩
  | dup2X2 =>
    obtain ⟨_, middle, deeper, habove, hmiddle, hvalues, rfl⟩ := h
    rcases totalWidth_eq_two.1 habove with ⟨first, hfirst, rfl⟩ |
      ⟨first, second, hfirst, hsecond, rfl⟩
    · refine pop_bind_ok.2 ⟨first, middle ++ deeper, hvalues, ?_⟩
      rcases totalWidth_eq_two.1 hmiddle with ⟨third, hthird, rfl⟩ |
        ⟨third, fourth, hthird, hfourth, rfl⟩
      · refine pop_bind_ok.2 ⟨third, deeper, rfl, ?_⟩
        rw [if_neg (by omega), if_neg (by omega)]
        exact pushAll_eq _ _ _
      · refine pop_bind_ok.2 ⟨third, fourth :: deeper, rfl, ?_⟩
        rw [if_neg (by omega), if_pos hthird]
        exact popWidth_bind_ok.2 ⟨fourth, deeper, hfourth, rfl, pushAll_eq _ _ _⟩
    · refine pop_bind_ok.2 ⟨first, second :: (middle ++ deeper), hvalues,
        pop_bind_ok.2 ⟨second, middle ++ deeper, rfl, ?_⟩⟩
      rw [if_pos hfirst, if_pos hsecond]
      refine pop_pair_ok.2 ?_
      rcases totalWidth_eq_two.1 hmiddle with ⟨third, hthird, rfl⟩ |
        ⟨third, fourth, hthird, hfourth, rfl⟩
      · exact .inr ⟨third, deeper, hthird, rfl, pushAll_eq _ _ _⟩
      · exact .inl ⟨third, fourth, deeper, hthird, hfourth, rfl, pushAll_eq _ _ _⟩
  | swap =>
    obtain ⟨first, second, deeper, hfirst, hsecond, hvalues, rfl⟩ := h
    exact popWidth_bind_ok.2 ⟨first, second :: deeper, hfirst, hvalues,
      popWidth_bind_ok.2 ⟨second, deeper, hsecond, rfl, pushAll_eq _ _ _⟩⟩

/-- **Shuffles do to slots what they are meant to do.** An instruction that reorders the stack can
run exactly when there are enough slots and no value is cut. What it leaves behind has the slots of
the shuffle; the values further down and the locals stay. -/
theorem shuffle_slots {L : Type} (context : MethodContext) (allocation : Option Label)
    (op : StackShuffle) (state : TypeState) :
    ((∃ after, operation context allocation (.step (.shuffle op) : Operation L) state =
        .ok () after) ↔ op.onSlots.Fits (stackSlots state.stack.values)) ∧
      ∀ after, operation context allocation (.step (.shuffle op) : Operation L) state =
          .ok () after →
        stackSlots after.stack.values = op.onSlots.apply (stackSlots state.stack.values) ∧
        after.locals = state.locals ∧
        ∃ above above' deeper, totalWidth above = op.onSlots.reach ∧
          state.stack.values = above ++ deeper ∧ after.stack.values = above' ++ deeper := by
  refine ⟨?_, fun after h => ?_⟩
  · rw [SlotShuffle.fits_iff]
    constructor
    · rintro ⟨after, h⟩
      exact ⟨after.stack.values, (onValues_of_shuffle h).1⟩
    · rintro ⟨values, h⟩
      exact ⟨state.withValues values, shuffle_of_onValues h⟩
  · obtain ⟨hvalues, hlocals⟩ := onValues_of_shuffle h
    exact ⟨hvalues.slots_eq.1, hlocals, hvalues.slots_eq.2⟩

/-- A value of two slots is copied below the value under it. -/
theorem longOverInt_slots : ∃ after : TypeState,
    operation (L := Label) ⟨∅, .object, none⟩ none (.step (.shuffle .dup2X1))
        ⟨[.float], .ofValues [.long, .integer, .null]⟩ = .ok () after ∧
      stackSlots after.stack.values =
        [⟨.long, 0⟩, ⟨.long, 1⟩, ⟨.integer, 0⟩, ⟨.long, 0⟩, ⟨.long, 1⟩, ⟨.null, 0⟩] ∧
      after.locals = [.float] := by
  obtain ⟨hruns, hslots⟩ := shuffle_slots (L := Label) ⟨∅, .object, none⟩ none .dup2X1
    ⟨[.float], .ofValues [.long, .integer, .null]⟩
  obtain ⟨after, hafter⟩ := hruns.2 (by decide)
  obtain ⟨hresult, hlocals, -⟩ := hslots after hafter
  exact ⟨after, hafter, hresult.trans (by decide), hlocals⟩

/-- The same value cannot be copied below one of two slots that would be cut. -/
example : ¬ (StackShuffle.onSlots .dup2X1).Fits (stackSlots [.integer, .long, .integer]) := by
  decide

end Transfer

end Preverification
