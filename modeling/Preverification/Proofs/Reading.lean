import Preverification.Bytes
import Preverification.Proofs.Effects
import Mathlib.Data.List.Induction

/-!
# Readers and what they take

Most readers take exactly what is written for a value, and accept nothing else: such a reader
inverts a way of writing. For numbers this is arithmetic to the base 256. For everything that is put
together from parts it follows from the parts, because the bytes of the parts come one after the
other.

* `Reader.Inverts`: a reader takes exactly what is written for a value, and
  `Reader.Inverts.reads_bind` reads on behind it.
* `Reader.inverts_nat`, `Reader.inverts_bytes` and `Reader.inverts_list`: numbers, bytes and lists.
* `Reader.Yields`: what a reader answers with, whatever else is known about what it takes.
* `Reader.Takes` and `Reader.Restores`: readers that lose something, and readers that accept other
  forms too.
-/

namespace Preverification

open MonadExcept (ofExcept)

/-! ### Numbers -/

namespace Bytes

/-- The number of numbers that have a number of base 256 digits. -/
def limit : (width : Nat) → Nat
  | 0 => 1
  | width + 1 => limit width * 256

@[simp] theorem length_ofNat (width n : Nat) : (ofNat width n).length = width := by
  induction width generalizing n with
  | zero => rfl
  | succ width ih => simp [ofNat, ih]

/-- The last byte is the digit of the lowest value. -/
theorem toNat_concat (bytes : Bytes) (byte : UInt8) :
    toNat (bytes ++ [byte]) = toNat bytes * 256 + byte.toNat := by
  simp [toNat]

/-- A number that has few enough digits is the number with its digits. -/
theorem toNat_ofNat {width n : Nat} (h : n < limit width) : toNat (ofNat width n) = n := by
  induction width generalizing n with
  | zero =>
    have hzero : n = 0 := Nat.lt_one_iff.1 h
    rw [hzero]
    rfl
  | succ width ih =>
    have hfront : n / 256 < limit width := Nat.div_lt_of_lt_mul (by rw [Nat.mul_comm]; exact h)
    rw [ofNat, toNat_concat, ih hfront, UInt8.toNat_ofNat']
    omega

/-- Bytes are the digits of the number that they stand for. -/
theorem ofNat_toNat (bytes : Bytes) :
    ofNat bytes.length (toNat bytes) = bytes ∧ toNat bytes < limit bytes.length := by
  -- the last byte is the last digit
  induction bytes using List.reverseRecOn with
  | nil => exact ⟨rfl, Nat.one_pos⟩
  | append_singleton bytes byte ih =>
    obtain ⟨hdigits, hlt⟩ := ih
    have hbyte : byte.toNat < 256 := byte.toNat_lt
    have hfront : (toNat bytes * 256 + byte.toNat) / 256 = toNat bytes := by omega
    rw [List.length_append, List.length_singleton, toNat_concat]
    constructor
    · rw [ofNat, hfront, hdigits]
      congr 2
      apply UInt8.toNat_inj.1
      rw [UInt8.toNat_ofNat']
      omega
    · rw [limit]
      omega

@[simp] theorem length_ofUInt16 (n : UInt16) : (ofUInt16 n).length = 2 := length_ofNat 2 n.toNat

@[simp] theorem length_ofLength (n : Nat) : (ofLength n).length = 4 := length_ofNat 4 n

@[simp] theorem length_ofCount (n : Nat) : (ofCount n).length = 2 := length_ofNat 2 n

end Bytes

/-! ### What is behind some bytes -/

namespace Input

/-- An input goes on with some bytes, and behind them with another input. -/
structure Behind (input : Input) (bytes : Bytes) (later : Input) : Prop where
  rest : input.rest = bytes ++ later.rest
  position : later.position = input.position + bytes.length

variable {input later : Input} {front back : Bytes}

/-- Nothing is read from an input in front of itself. -/
theorem behind_nil : input.Behind [] later ↔ input = later := by
  constructor
  · rintro ⟨hrest, hposition⟩
    cases input
    cases later
    simp_all
  · rintro rfl
    exact ⟨rfl, rfl⟩

/-- What is taken in two parts leaves an input in between. -/
theorem behind_append : input.Behind (front ++ back) later ↔
    ∃ middle, input.Behind front middle ∧ middle.Behind back later := by
  constructor
  · rintro ⟨hrest, hposition⟩
    refine ⟨⟨back ++ later.rest, input.position + front.length⟩, ⟨?_, rfl⟩, rfl, ?_⟩
    · rw [hrest, List.append_assoc]
    · rw [hposition, List.length_append, Nat.add_assoc]
  · rintro ⟨middle, ⟨hrest, hposition⟩, hrest', hposition'⟩
    constructor
    · rw [hrest, hrest', List.append_assoc]
    · rw [hposition', hposition, List.length_append, Nat.add_assoc]

/-- A byte in front comes first. -/
theorem behind_cons {byte : UInt8} : input.Behind (byte :: back) later ↔
    ∃ middle, input.Behind [byte] middle ∧ middle.Behind back later := by
  rw [← List.singleton_append, behind_append]

/-- An input whose bytes are known goes on with them. -/
theorem behind_self (bytes rest : Bytes) (position : Nat) :
    Behind ⟨bytes ++ rest, position⟩ bytes ⟨rest, position + bytes.length⟩ := ⟨rfl, rfl⟩

end Input

/-! ### Readers that invert a way of writing -/

namespace Reader

variable {α β : Type}

/-- A reader reads a value off the front of an input and leaves another input behind. -/
def Reads (read : Reader α) (input : Input) (value : α) (later : Input) : Prop :=
  read input = .ok value later

section Reads

variable {input later : Input}

/-- Two values are read one behind the other. -/
theorem reads_bind {read : Reader α} {next : α → Reader β} {b : β} :
    Reads (read >>= next) input b later ↔
      ∃ a middle, Reads read input a middle ∧ Reads (next a) middle b later :=
  state_bind_ok

theorem reads_pure {a b : α} : Reads (pure a) input b later ↔ a = b ∧ input = later :=
  state_pure_ok

theorem not_reads_throw {error : StructuralError} {a : α} :
    ¬ Reads (throw error) input a later := state_throw_ok

/-- A check reads nothing. -/
theorem reads_ofExcept {result : Except StructuralError α} {a : α} :
    Reads (ofExcept result) input a later ↔ result = .ok a ∧ input = later :=
  ofExcept_ok

/-- A check is made, and something is read. -/
theorem reads_ofExcept_bind {result : Except StructuralError α} {next : α → Reader β} {b : β} :
    Reads (ofExcept result >>= next) input b later ↔
      ∃ a, result = .ok a ∧ Reads (next a) input b later := by
  rw [reads_bind]
  simp only [reads_ofExcept]
  constructor
  · rintro ⟨a, _, ⟨hresult, rfl⟩, hnext⟩
    exact ⟨a, hresult, hnext⟩
  · rintro ⟨a, hresult, hnext⟩
    exact ⟨a, input, ⟨hresult, rfl⟩, hnext⟩

/-- The position is told, and nothing is taken. -/
theorem reads_position {count : Nat} :
    Reads position input count later ↔ input.position = count ∧ input = later := by
  change EStateM.Result.ok input.position input = _ ↔ _
  simp

/-- A run reads from the first byte on. -/
theorem run_ok {read : Reader α} {bytes rest : Bytes} {value : α} :
    run read bytes = .ok (value, rest) ↔
      ∃ position, Reads read ⟨bytes, 0⟩ value ⟨rest, position⟩ := by
  unfold run Reads
  cases read { rest := bytes } with
  | ok found later =>
    constructor
    · rintro ⟨⟩
      exact ⟨later.position, rfl⟩
    · rintro ⟨position, hread⟩
      cases hread
      rfl
  | error error later =>
    constructor
    · nofun
    · rintro ⟨position, hread⟩
      cases hread

end Reads

/-- A reader takes what is written for a value that fits, and accepts nothing else. -/
def Inverts (read : Reader α) (write : α → Bytes) (fits : α → Prop) : Prop :=
  ∀ input value later, Reads read input value later ↔
    fits value ∧ input.Behind (write value) later

section Inverts

variable {read : Reader α} {write : α → Bytes} {fits : α → Prop} {input later : Input}

/-- What is read first is a value that fits; the rest is read behind it. -/
theorem Inverts.reads_bind (h : Inverts read write fits) {next : α → Reader β} {b : β} :
    Reads (read >>= next) input b later ↔
      ∃ a, fits a ∧ ∃ middle, input.Behind (write a) middle ∧ Reads (next a) middle b later := by
  rw [Reader.reads_bind]
  constructor
  · rintro ⟨a, middle, hread, hnext⟩
    obtain ⟨hfits, hbehind⟩ := (h _ _ _).1 hread
    exact ⟨a, hfits, middle, hbehind, hnext⟩
  · rintro ⟨a, hfits, middle, hbehind, hnext⟩
    exact ⟨a, middle, (h _ _ _).2 ⟨hfits, hbehind⟩, hnext⟩

/-- Something is made of the value that is read. -/
theorem Inverts.reads_make (h : Inverts read write fits) (make : α → β) {b : β} :
    Reads (do return make (← read)) input b later ↔
      ∃ a, fits a ∧ b = make a ∧ input.Behind (write a) later := by
  simp only [h.reads_bind, reads_pure]
  constructor
  · rintro ⟨a, hfits, _, hbehind, rfl, rfl⟩
    exact ⟨a, hfits, rfl, hbehind⟩
  · rintro ⟨a, hfits, rfl, hbehind⟩
    exact ⟨a, hfits, later, hbehind, rfl, rfl⟩

/-- Values that correspond one to one are read and written in the same way. -/
theorem Inverts.map (h : Inverts read write fits) {write' : β → Bytes} {fits' : β → Prop}
    (make : α → β) (part : β → α) (hmake : ∀ a, fits a → fits' (make a) ∧ part (make a) = a)
    (hpart : ∀ b, fits' b → fits (part b) ∧ make (part b) = b)
    (hwrite : ∀ a, fits a → write' (make a) = write a) :
    Inverts (do return make (← read)) write' fits' := by
  intro input value later
  rw [h.reads_bind]
  simp only [reads_pure]
  constructor
  · rintro ⟨a, hfits, _, hbehind, rfl, rfl⟩
    rw [hwrite a hfits]
    exact ⟨(hmake a hfits).1, hbehind⟩
  · rintro ⟨hfits, hbehind⟩
    obtain ⟨hpart, hvalue⟩ := hpart value hfits
    refine ⟨part value, hpart, later, ?_, hvalue, rfl⟩
    rw [← hwrite _ hpart, hvalue]
    exact hbehind

end Inverts

/-! ### Bytes and numbers -/

/-- Bytes of a given number are taken as they are. -/
theorem inverts_bytes (count : Nat) : Inverts (bytes count) id fun found => found.length = count := by
  intro input value later
  -- how many bytes there are is told by the length of the front
  have hsplit : bytes count input =
      if (input.rest.take count).length = count then
        .ok (input.rest.take count) ⟨input.rest.drop count, input.position + count⟩
      else .error .unexpectedEnd input := by
    unfold bytes
    rw [List.splitAt_eq]
  unfold Reads
  rw [hsplit]
  constructor
  · intro h
    split at h
    · rename_i hcount
      cases h
      exact ⟨hcount, by simp, by simp [hcount]⟩
    · cases h
  · rintro ⟨hcount, hrest, hposition⟩
    have htake : input.rest.take count = value := by
      rw [hrest, id, ← hcount, List.take_left]
    have hdrop : input.rest.drop count = later.rest := by
      rw [hrest, id, ← hcount, List.drop_left]
    rw [htake, hdrop, if_pos hcount]
    rw [id, hcount] at hposition
    rw [← hposition]

/-- A number is its digits, as many as there are bytes. -/
theorem inverts_nat (width : Nat) :
    Inverts (nat width) (Bytes.ofNat width) fun n => n < Bytes.limit width := by
  refine (inverts_bytes width).map Bytes.toNat (Bytes.ofNat width) ?_ ?_ ?_
  · rintro bytes rfl
    exact (Bytes.ofNat_toNat bytes).symm
  · intro n hlt
    exact ⟨Bytes.length_ofNat width n, Bytes.toNat_ofNat hlt⟩
  · rintro bytes rfl
    exact (Bytes.ofNat_toNat bytes).1

/-- A byte is a number with one digit. -/
theorem inverts_uint8 : Inverts uint8 Bytes.ofUInt8 fun _ => True := by
  rintro ⟨rest, position⟩ value later
  cases rest with
  | nil =>
    constructor
    · nofun
    · rintro ⟨_, hrest, _⟩
      cases hrest
  | cons byte rest =>
    -- one byte is read without a look at others
    change EStateM.Result.ok byte (Input.mk rest (position + 1)) = _ ↔ _
    constructor
    · rintro ⟨⟩
      exact ⟨trivial, rfl, rfl⟩
    · rintro ⟨_, hrest, hposition⟩
      cases hrest
      change later.position = position + 1 at hposition
      rw [← hposition]
      rfl

/-- Numbers of other types correspond to numbers of a width. -/
theorem inverts_uint16 : Inverts uint16 Bytes.ofUInt16 fun _ => True := by
  refine (inverts_nat 2).map UInt16.ofNat UInt16.toNat ?_ ?_ ?_
  · intro n hlt
    exact ⟨trivial, UInt16.toNat_ofNat_of_lt' hlt⟩
  · intro n _
    exact ⟨n.toNat_lt, UInt16.ofNat_toNat⟩
  · intro n hlt
    rw [Bytes.ofUInt16, UInt16.toNat_ofNat_of_lt' hlt]

theorem inverts_int8 : Inverts int8 Bytes.ofInt8 fun _ => True :=
  inverts_uint8.map UInt8.toInt8 Int8.toUInt8 (fun _ _ => ⟨trivial, rfl⟩)
    (fun _ _ => ⟨trivial, rfl⟩) fun _ _ => rfl

theorem inverts_int16 : Inverts int16 Bytes.ofInt16 fun _ => True :=
  inverts_uint16.map UInt16.toInt16 Int16.toUInt16 (fun _ _ => ⟨trivial, rfl⟩)
    (fun _ _ => ⟨trivial, rfl⟩) fun _ _ => rfl

/-- Signed numbers stand for others by their bits. -/
theorem inverts_int32 : Inverts int32 Bytes.ofInt32 fun _ => True := by
  refine (inverts_nat 4).map (fun n => (UInt32.ofNat n).toInt32) (·.toUInt32.toNat) ?_ ?_ ?_
  · intro n hlt
    exact ⟨trivial, UInt32.toNat_ofNat_of_lt' hlt⟩
  · intro n _
    refine ⟨n.toUInt32.toNat_lt, ?_⟩
    rw [UInt32.ofNat_toNat]
    rfl
  · intro n hlt
    change Bytes.ofNat 4 (UInt32.ofNat n).toNat = _
    rw [UInt32.toNat_ofNat_of_lt' hlt]

theorem inverts_int64 : Inverts int64 Bytes.ofInt64 fun _ => True := by
  refine (inverts_nat 8).map (fun n => (UInt64.ofNat n).toInt64) (·.toUInt64.toNat) ?_ ?_ ?_
  · intro n hlt
    exact ⟨trivial, UInt64.toNat_ofNat_of_lt' hlt⟩
  · intro n _
    refine ⟨n.toUInt64.toNat_lt, ?_⟩
    rw [UInt64.ofNat_toNat]
    rfl
  · intro n hlt
    change Bytes.ofNat 8 (UInt64.ofNat n).toNat = _
    rw [UInt64.toNat_ofNat_of_lt' hlt]

/-! ### What readers answer with -/

/-- Whatever a reader answers with has a property, and is taken off the front of the input. -/
def Yields (read : Reader α) (property : α → Prop) : Prop :=
  ∀ input value later, Reads read input value later →
    property value ∧ ∃ taken, input.Behind taken later

section Yields

variable {read : Reader α} {next : α → Reader β} {property : α → Prop} {property' : β → Prop}

theorem yields_pure {value : α} (h : property value) : Yields (pure value) property := by
  intro input found later hread
  obtain ⟨rfl, rfl⟩ := reads_pure.1 hread
  exact ⟨h, [], Input.behind_nil.2 rfl⟩

/-- A failure answers with nothing. -/
theorem yields_throw {error : StructuralError} : Yields (throw error : Reader α) property :=
  fun _ _ _ hread => absurd hread not_reads_throw

/-- Nothing is read behind a failure. -/
theorem yields_throw_bind {error : StructuralError} :
    Yields (throw error >>= next) property' := by
  intro input value later hread
  obtain ⟨_, _, hthrow, _⟩ := reads_bind.1 hread
  exact absurd hthrow not_reads_throw

/-- What the first reader answers with is known to the second one. -/
theorem yields_bind (h : Yields read property)
    (hnext : ∀ value, property value → Yields (next value) property') :
    Yields (read >>= next) property' := by
  intro input value later hread
  obtain ⟨first, middle, hfirst, hrest⟩ := reads_bind.1 hread
  obtain ⟨hproperty, taken, hbehind⟩ := h _ _ _ hfirst
  obtain ⟨hproperty', taken', hbehind'⟩ := hnext first hproperty _ _ _ hrest
  exact ⟨hproperty', taken ++ taken', Input.behind_append.2 ⟨middle, hbehind, hbehind'⟩⟩

theorem yields_ofExcept {result : Except StructuralError α} :
    Yields (ofExcept result) fun value => result = .ok value := by
  intro input value later hread
  obtain ⟨hresult, rfl⟩ := reads_ofExcept.1 hread
  exact ⟨hresult, [], Input.behind_nil.2 rfl⟩

/-- A reader that inverts a way of writing answers with values that fit. -/
theorem Inverts.yields {write : α → Bytes} {fits : α → Prop} (h : Inverts read write fits) :
    Yields read fits := by
  intro input value later hread
  obtain ⟨hfits, hbehind⟩ := (h _ _ _).1 hread
  exact ⟨hfits, _, hbehind⟩

/-- What is made of an answer has what follows. -/
theorem yields_map (h : Yields read property) {f : α → β}
    (hproperty : ∀ value, property value → property' (f value)) :
    Yields (f <$> read) property' := by
  rw [map_eq_pure_bind]
  exact yields_bind h fun value hvalue => yields_pure (hproperty value hvalue)

/-- All elements of a list have the property that one element has. -/
theorem yields_many (h : Yields read property) (count : Nat) : Yields (many read [] count)
    fun values => (∀ a ∈ values, property a) ∧ values.length = count := by
  -- generalized over what was read before
  have hmany : ∀ (count : Nat) (found : List α), (∀ a ∈ found, property a) →
      Yields (many read found count)
        fun values => (∀ a ∈ values, property a) ∧ values.length = found.length + count := by
    intro count
    induction count with
    | zero => exact fun found hfound => yields_pure ⟨by simpa using hfound, by simp⟩
    | succ count ih =>
      intro found hfound
      refine yields_bind h fun value hvalue input values later hread => ?_
      obtain ⟨⟨hall, hlength⟩, htaken⟩ := ih _ (List.forall_mem_cons.2 ⟨hvalue, hfound⟩) _ _ _ hread
      refine ⟨⟨hall, ?_⟩, htaken⟩
      rw [hlength, List.length_cons]
      omega
  simpa using hmany count [] nofun

/-- A reader that starts with a byte takes at least that byte. -/
theorem advances_of_reads {next : UInt8 → Reader α} (hnext : ∀ byte, Yields (next byte) property)
    {input later : Input} {value : α} (h : Reads (uint8 >>= next) input value later) :
    property value ∧ ∃ byte taken, input.Behind (byte :: taken) later := by
  obtain ⟨byte, -, middle, hbehind, hrest⟩ := inverts_uint8.reads_bind.1 h
  obtain ⟨hproperty, taken, htaken⟩ := hnext byte _ _ _ hrest
  exact ⟨hproperty, byte, taken, Input.behind_cons.2 ⟨middle, hbehind, htaken⟩⟩

end Yields

/-! ### Readers that lose something -/

/-- A reader takes what is written for a value that fits, and answers with what becomes of the
value. -/
def Takes (read : Reader β) (write : α → Bytes) (fits : α → Prop) (f : α → β) : Prop :=
  ∀ input b later, Reads read input b later ↔
    ∃ a, b = f a ∧ fits a ∧ input.Behind (write a) later

/-- To invert is to take a value and lose nothing of it. -/
theorem inverts_iff_takes {read : Reader α} {write : α → Bytes} {fits : α → Prop} :
    Inverts read write fits ↔ Takes read write fits id := by
  refine forall_congr' fun input => forall_congr' fun value => forall_congr' fun later => ?_
  have hid : (∃ a, value = id a ∧ fits a ∧ input.Behind (write a) later) ↔
      fits value ∧ input.Behind (write value) later := by
    constructor
    · rintro ⟨_, rfl, h⟩
      exact h
    · intro h
      exact ⟨value, rfl, h⟩
  rw [hid]

section Takes

variable {read : Reader β} {write : α → Bytes} {fits : α → Prop} {f : α → β}

/-- Something is made of the value that is read. -/
theorem Takes.make {γ : Type} (h : Takes read write fits f) (make : β → γ) :
    Takes (do return make (← read)) write fits (make ∘ f) := by
  intro input made later
  simp only [reads_bind, reads_pure]
  constructor
  · rintro ⟨_, _, hread, rfl, rfl⟩
    obtain ⟨form, rfl, hfits, hbehind⟩ := (h _ _ _).1 hread
    exact ⟨form, rfl, hfits, hbehind⟩
  · rintro ⟨form, rfl, hfits, hbehind⟩
    exact ⟨f form, later, (h _ _ _).2 ⟨form, rfl, hfits, hbehind⟩, rfl, rfl⟩

/-- What is written is read in a run. -/
theorem Takes.run_ok (h : Takes read write fits f) {bytes rest : Bytes} {value : β} :
    run read bytes = .ok (value, rest) ↔ ∃ a, value = f a ∧ fits a ∧ bytes = write a ++ rest := by
  rw [Reader.run_ok]
  constructor
  · rintro ⟨position, hread⟩
    obtain ⟨form, hvalue, hfits, hbehind⟩ := (h _ _ _).1 hread
    exact ⟨form, hvalue, hfits, hbehind.rest⟩
  · rintro ⟨form, hvalue, hfits, rfl⟩
    exact ⟨_, (h _ _ _).2 ⟨form, hvalue, hfits, Input.behind_self _ _ _⟩⟩

end Takes

/-- A run has the value that was written in front, and the rest. -/
theorem Inverts.run_ok {read : Reader α} {write : α → Bytes} {fits : α → Prop}
    (h : Inverts read write fits) {bytes rest : Bytes} {value : α} :
    run read bytes = .ok (value, rest) ↔ fits value ∧ bytes = write value ++ rest := by
  rw [(inverts_iff_takes.1 h).run_ok]
  constructor
  · rintro ⟨_, rfl, hbytes⟩
    exact hbytes
  · intro hbytes
    exact ⟨value, rfl, hbytes⟩

/-! ### Lists -/

section Lists

variable {read : Reader β} {write : α → Bytes} {fits : α → Prop} {f : α → β}

theorem reads_many (h : Takes read write fits f) {found values : List β} {count : Nat}
    {input later : Input} :
    Reads (many read found count) input values later ↔
      ∃ more : List α, values = found.reverse ++ more.map f ∧ more.length = count ∧
        (∀ a ∈ more, fits a) ∧ input.Behind (more.flatMap write) later := by
  -- `found` has what was read so far, the last one first
  induction count generalizing found input with
  | zero =>
    unfold many
    rw [reads_pure]
    constructor
    · rintro ⟨rfl, rfl⟩
      exact ⟨[], by simp, rfl, nofun, Input.behind_nil.2 rfl⟩
    · rintro ⟨more, rfl, hnone, _, hbehind⟩
      rw [List.length_eq_zero_iff.1 hnone] at hbehind ⊢
      exact ⟨by simp, Input.behind_nil.1 hbehind⟩
  | succ count ih =>
    unfold many
    rw [reads_bind]
    constructor
    · -- the first value is read, and then the others behind it
      rintro ⟨b, middle, hread, hmany⟩
      obtain ⟨first, rfl, hfirst, hbehind⟩ := (h _ _ _).1 hread
      obtain ⟨more, rfl, rfl, hmore, hbehind'⟩ := ih.1 hmany
      refine ⟨first :: more, by simp, rfl, List.forall_mem_cons.2 ⟨hfirst, hmore⟩, ?_⟩
      rw [List.flatMap_cons]
      exact Input.behind_append.2 ⟨middle, hbehind, hbehind'⟩
    · rintro ⟨more, rfl, hlength, hmore, hbehind⟩
      cases more with
      | nil => cases hlength
      | cons first more =>
        obtain ⟨hfirst, hmore⟩ := List.forall_mem_cons.1 hmore
        rw [List.flatMap_cons] at hbehind
        obtain ⟨middle, hbehind, hbehind'⟩ := Input.behind_append.1 hbehind
        refine ⟨f first, middle, (h _ _ _).2 ⟨first, rfl, hfirst, hbehind⟩,
          ih.2 ⟨more, by simp, ?_, hmore, hbehind'⟩⟩
        exact Nat.succ.inj hlength

/-- A list can be counted in two bytes, and its elements fit. -/
def ListFits (fits : α → Prop) (values : List α) : Prop :=
  values.length < 65536 ∧ ∀ a ∈ values, fits a

/-- A list is taken as its length and its elements. -/
theorem takes_list (h : Takes read write fits f) :
    Takes (list read) (Bytes.ofList write) (ListFits fits) (List.map f) := by
  intro input values later
  unfold list
  simp only [(inverts_nat 2).reads_bind, reads_many h]
  unfold Bytes.ofList Bytes.ofCount
  simp only [Input.behind_append]
  constructor
  · rintro ⟨count, hlt, middle, hbehind, originals, rfl, rfl, hfits, hbehind'⟩
    exact ⟨originals, rfl, ⟨hlt, hfits⟩, middle, hbehind, hbehind'⟩
  · rintro ⟨originals, rfl, ⟨hlt, hfits⟩, middle, hbehind, hbehind'⟩
    exact ⟨originals.length, hlt, middle, hbehind, originals, rfl, rfl, hfits, hbehind'⟩

end Lists

section Lists

variable {read : Reader α} {write : α → Bytes} {fits : α → Prop}

/-- A number of values is read one after the other. -/
theorem inverts_many (h : Inverts read write fits) (count : Nat) :
    Inverts (many read [] count) (·.flatMap write)
      fun values => values.length = count ∧ ∀ a ∈ values, fits a := by
  intro input values later
  rw [reads_many (inverts_iff_takes.1 h)]
  constructor
  · rintro ⟨more, rfl, hcount, hfits, hbehind⟩
    rw [List.reverse_nil, List.nil_append, List.map_id]
    exact ⟨⟨hcount, hfits⟩, hbehind⟩
  · rintro ⟨⟨hcount, hfits⟩, hbehind⟩
    exact ⟨values, by simp, hcount, hfits, hbehind⟩

/-- Lists of what is inverted are inverted. -/
theorem inverts_list (h : Inverts read write fits) :
    Inverts (list read) (Bytes.ofList write) (ListFits fits) := by
  have hlist := takes_list (inverts_iff_takes.1 h)
  rw [List.map_id_fun] at hlist
  exact inverts_iff_takes.2 hlist

end Lists

/-! ### Readers that accept other forms too -/

/-- What is written for a value that fits is read as that value; other bytes may be read too. -/
def Restores (read : Reader α) (write : α → Bytes) (fits : α → Prop) : Prop :=
  ∀ input value later, fits value → input.Behind (write value) later →
    Reads read input value later

section Restores

variable {read : Reader α} {write : α → Bytes} {fits : α → Prop}

/-- A reader that inverts accepts no other forms, and restores what was written. -/
theorem Inverts.restores (h : Inverts read write fits) : Restores read write fits :=
  fun _ _ _ hfits hbehind => (h _ _ _).2 ⟨hfits, hbehind⟩

/-- What is written is read again in a run. -/
theorem Restores.run_ok (h : Restores read write fits) {value : α} (hfits : fits value) :
    run read (write value) = .ok (value, []) := by
  have hbehind := Input.behind_self (write value) [] 0
  rw [List.append_nil] at hbehind
  exact Reader.run_ok.2 ⟨_, h _ _ _ hfits hbehind⟩

/-- Values are read behind others that were read before. -/
theorem Restores.many (h : Restores read write fits) (found : List α) {values : List α}
    (hfits : ∀ a ∈ values, fits a) {input later : Input}
    (hbehind : input.Behind (values.flatMap write) later) :
    Reads (many read found values.length) input (found.reverse ++ values) later := by
  induction values generalizing found input with
  | nil =>
    rw [List.append_nil]
    exact reads_pure.2 ⟨rfl, Input.behind_nil.1 hbehind⟩
  | cons value values ih =>
    rcases List.forall_mem_cons.1 hfits with ⟨hvalue, hvalues⟩
    rw [List.flatMap_cons] at hbehind
    rcases Input.behind_append.1 hbehind with ⟨middle, hfirst, hrest⟩
    have hmany := ih (value :: found) hvalues hrest
    rw [List.reverse_cons, List.append_assoc, List.singleton_append] at hmany
    exact reads_bind.2 ⟨value, middle, h _ _ _ hvalue hfirst, hmany⟩

/-- Lists of what is restored are restored. -/
theorem Restores.list (h : Restores read write fits) :
    Restores (list read) (Bytes.ofList write) (ListFits fits) := by
  rintro input values later ⟨hlt, hfits⟩ hbehind
  rcases Input.behind_append.1 hbehind with ⟨middle, hcount, hvalues⟩
  exact (inverts_nat 2).reads_bind.2 ⟨values.length, hlt, middle, hcount, h.many [] hfits hvalues⟩

end Restores

end Reader

end Preverification
