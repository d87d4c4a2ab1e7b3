import Preverification.Constant.Pool
import Preverification.Proofs.Texts
import Preverification.Proofs.Vectors

/-!
# Pools and their bytes

A constant has one form, and so has a pool. Pools come about by adding constants at the end, one
after the other, whether they are read or edited; that is why a pool that is read is the very one
that was written.

* `Pool.Built`: a pool is made of its constants.
* `Pool.Built.get?_eq_some`: there is a constant at an index exactly if it was added there.
* `Constant.inverts_read`: a constant is read from its form, and from nothing else.
* `Pool.reads_read`: the form of a pool is read as that pool.
-/

namespace Preverification

open MonadExcept (ofExcept)

open Reader

namespace HandleKind

/-- A kind of handle has one code. -/
theorem ofCode?_eq_some {code : UInt8} {kind : HandleKind} :
    ofCode? code = some kind ↔ kind.code = code := by
  constructor
  · intro h
    simpa using List.find?_some h
  · rintro rfl
    cases kind <;> rfl

end HandleKind

/-! ### Constants -/

namespace Constant

/-- The bytes of a text can be counted. -/
def Fits : Constant → Prop
  | utf8 text => (ModifiedUtf8.encode text).length < 65536
  | _ => True

theorem width_pos (constant : Constant) : 0 < width constant := by
  cases constant <;> exact Nat.zero_lt_succ _

variable {index : PoolIndex} {input middle later : Input} {tag : UInt8} {value : Constant}

/-- What is behind the tag of a text. -/
theorem reads_text :
    Reads (do
      let bytes ← Reader.bytes (← Reader.nat 2)
      match ModifiedUtf8.decode bytes with
      | some text => return utf8 text
      | none => throw (.malformedUtf8 index)) input value later ↔
      ∃ text, value = utf8 text ∧ value.Fits ∧ input.Behind
        (Bytes.ofCount (ModifiedUtf8.encode text).length ++ ModifiedUtf8.encode text) later := by
  simp only [(inverts_nat 2).reads_bind, (inverts_bytes _).reads_bind]
  constructor
  · rintro ⟨count, hlt, middle, hcount, bytes, rfl, behind, hbytes, h⟩
    split at h
    · rename_i text htext
      obtain ⟨rfl, rfl⟩ := reads_pure.1 h
      have hencode := ModifiedUtf8.encode_of_decode htext
      refine ⟨text, rfl, ?_, ?_⟩
      · change (ModifiedUtf8.encode text).length < 65536
        rw [hencode]
        exact hlt
      · rw [hencode]
        exact Input.behind_append.2 ⟨middle, hcount, hbytes⟩
    · exact absurd h not_reads_throw
  · rintro ⟨text, rfl, hfits, hbehind⟩
    obtain ⟨middle, hcount, hbytes⟩ := Input.behind_append.1 hbehind
    refine ⟨_, hfits, middle, hcount, _, rfl, later, hbytes, ?_⟩
    rw [ModifiedUtf8.decode_encode]
    exact reads_pure.2 ⟨rfl, rfl⟩

/-- What is behind the tag of a method handle. -/
theorem reads_handle :
    Reads (do
      let code ← Reader.uint8
      match HandleKind.ofCode? code with
      | some kind => return methodHandle kind (← Reader.uint16)
      | none => throw (.badConstantTag index code)) input value later ↔
      ∃ kind member, value = methodHandle kind member ∧
        input.Behind (kind.code :: Bytes.ofUInt16 member) later := by
  simp only [inverts_uint8.reads_bind]
  constructor
  · rintro ⟨code, -, behind, hcode, h⟩
    split at h
    · rename_i kind hkind
      obtain ⟨member, -, _, hmember, hpure⟩ := inverts_uint16.reads_bind.1 h
      obtain ⟨rfl, rfl⟩ := reads_pure.1 hpure
      obtain rfl := HandleKind.ofCode?_eq_some.1 hkind
      exact ⟨kind, member, rfl, Input.behind_cons.2 ⟨behind, hcode, hmember⟩⟩
    · exact absurd h not_reads_throw
  · rintro ⟨kind, member, rfl, hbehind⟩
    obtain ⟨behind, hcode, hmember⟩ := Input.behind_cons.1 hbehind
    refine ⟨kind.code, trivial, behind, hcode, ?_⟩
    rw [HandleKind.ofCode?_eq_some.2 rfl]
    exact inverts_uint16.reads_bind.2 ⟨member, trivial, later, hmember, reads_pure.2 ⟨rfl, rfl⟩⟩

/-- What is behind the tag of a constant with two parts of two bytes each. -/
theorem reads_parts (make : UInt16 → UInt16 → Constant) :
    Reads (do return make (← Reader.uint16) (← Reader.uint16)) input value later ↔
      ∃ a b, value = make a b ∧ input.Behind (Bytes.ofUInt16 a ++ Bytes.ofUInt16 b) later := by
  simp only [inverts_uint16.reads_bind, reads_pure, Input.behind_append]
  constructor
  · rintro ⟨a, -, middle, ha, b, -, _, hb, rfl, rfl⟩
    exact ⟨a, b, rfl, middle, ha, hb⟩
  · rintro ⟨a, b, rfl, middle, ha, hb⟩
    exact ⟨a, trivial, middle, ha, b, trivial, later, hb, rfl, rfl⟩

/-- The tag tells which constant it is. A reader of one sort of constant inverts its form, and the
tags exclude each other. -/
theorem inverts_read (index : PoolIndex) : Inverts (read index) write Fits := by
  intro input value later
  unfold read
  rw [inverts_uint8.reads_bind]
  constructor
  · rintro ⟨tag, -, middle, htag, h⟩
    -- the cases are about the number of a tag, which the tag has to be named by
    obtain ⟨n, hn⟩ : ∃ n, tag.toNat = n := ⟨_, rfl⟩
    obtain rfl : tag = UInt8.ofNat n := by
      rw [← hn]
      exact UInt8.ofNat_toNat.symm
    rw [hn] at h
    clear hn
    split at h
    case h_1 =>
      obtain ⟨text, rfl, hfits, hbehind⟩ := reads_text.1 h
      exact ⟨hfits, Input.behind_cons.2 ⟨middle, htag, hbehind⟩⟩
    case h_2 =>
      obtain ⟨n, -, rfl, hbehind⟩ := (inverts_int32.reads_make integer).1 h
      exact ⟨trivial, Input.behind_cons.2 ⟨middle, htag, hbehind⟩⟩
    case h_3 =>
      obtain ⟨n, hlt, rfl, hbehind⟩ := ((inverts_nat 4).reads_make (float ∘ UInt32.ofNat)).1 h
      refine ⟨trivial, Input.behind_cons.2 ⟨middle, htag, ?_⟩⟩
      rwa [UInt32.toNat_ofNat_of_lt' hlt]
    case h_4 =>
      obtain ⟨n, -, rfl, hbehind⟩ := (inverts_int64.reads_make long).1 h
      exact ⟨trivial, Input.behind_cons.2 ⟨middle, htag, hbehind⟩⟩
    case h_5 =>
      obtain ⟨n, hlt, rfl, hbehind⟩ := ((inverts_nat 8).reads_make (double ∘ UInt64.ofNat)).1 h
      refine ⟨trivial, Input.behind_cons.2 ⟨middle, htag, ?_⟩⟩
      rwa [UInt64.toNat_ofNat_of_lt' hlt]
    case h_12 =>
      obtain ⟨kind, member, rfl, hbehind⟩ := reads_handle.1 h
      exact ⟨trivial, Input.behind_cons.2 ⟨middle, htag, hbehind⟩⟩
    case h_6 | h_7 | h_13 | h_16 | h_17 =>
      obtain ⟨part, -, rfl, hbehind⟩ := (inverts_uint16.reads_make _).1 h
      exact ⟨trivial, Input.behind_cons.2 ⟨middle, htag, hbehind⟩⟩
    case h_8 | h_9 | h_10 | h_11 | h_14 | h_15 =>
      obtain ⟨first, second, rfl, hbehind⟩ := (reads_parts _).1 h
      exact ⟨trivial, Input.behind_cons.2 ⟨middle, htag, hbehind⟩⟩
    case h_18 => exact absurd h not_reads_throw
  · -- backwards, the tag of a constant is the first byte that it is written with
    rintro ⟨hfits, hbehind⟩
    cases value with
    | utf8 text =>
      obtain ⟨middle, htag, hbehind⟩ := Input.behind_cons.1 hbehind
      exact ⟨1, trivial, middle, htag, reads_text.2 ⟨text, rfl, hfits, hbehind⟩⟩
    | integer n =>
      obtain ⟨middle, htag, hbehind⟩ := Input.behind_cons.1 hbehind
      exact ⟨3, trivial, middle, htag, (inverts_int32.reads_make _).2 ⟨n, trivial, rfl, hbehind⟩⟩
    | float bits =>
      obtain ⟨middle, htag, hbehind⟩ := Input.behind_cons.1 hbehind
      refine ⟨4, trivial, middle, htag, ((inverts_nat 4).reads_make (float ∘ UInt32.ofNat)).2
        ⟨bits.toNat, bits.toNat_lt, ?_, hbehind⟩⟩
      rw [Function.comp, UInt32.ofNat_toNat]
    | long n =>
      obtain ⟨middle, htag, hbehind⟩ := Input.behind_cons.1 hbehind
      exact ⟨5, trivial, middle, htag, (inverts_int64.reads_make _).2 ⟨n, trivial, rfl, hbehind⟩⟩
    | double bits =>
      obtain ⟨middle, htag, hbehind⟩ := Input.behind_cons.1 hbehind
      refine ⟨6, trivial, middle, htag, ((inverts_nat 8).reads_make (double ∘ UInt64.ofNat)).2
        ⟨bits.toNat, bits.toNat_lt, ?_, hbehind⟩⟩
      rw [Function.comp, UInt64.ofNat_toNat]
    | methodHandle kind member =>
      obtain ⟨middle, htag, hbehind⟩ := Input.behind_cons.1 hbehind
      exact ⟨15, trivial, middle, htag, reads_handle.2 ⟨kind, member, rfl, hbehind⟩⟩
    | methodRef owner member ofInterface =>
      -- methods of interfaces have a tag of their own
      cases ofInterface
      · obtain ⟨middle, htag, hbehind⟩ := Input.behind_cons.1 hbehind
        exact ⟨10, trivial, middle, htag, (reads_parts _).2 ⟨owner, member, rfl, hbehind⟩⟩
      · obtain ⟨middle, htag, hbehind⟩ := Input.behind_cons.1 hbehind
        exact ⟨11, trivial, middle, htag, (reads_parts _).2 ⟨owner, member, rfl, hbehind⟩⟩
    | classRef part | string part | methodType part | moduleRef part | packageRef part =>
      obtain ⟨middle, htag, hbehind⟩ := Input.behind_cons.1 hbehind
      exact ⟨_, trivial, middle, htag, (inverts_uint16.reads_make _).2 ⟨part, trivial, rfl, hbehind⟩⟩
    | fieldRef first second | nameAndType first second | dynamic first second
    | invokeDynamic first second =>
      obtain ⟨middle, htag, hbehind⟩ := Input.behind_cons.1 hbehind
      exact ⟨_, trivial, middle, htag, (reads_parts _).2 ⟨first, second, rfl, hbehind⟩⟩

end Constant

/-! ### Pools -/

namespace Pool

variable {pool pool' : Pool} {constant : Constant} {constants : List Constant}

@[simp] theorem constants_push (pool : Pool) (constant : Constant) :
    (pool.push constant).constants = pool.constants.push constant := by
  cases constant <;> rfl

/-- A constant takes up as many indices as it is wide. -/
@[simp] theorem count_push (pool : Pool) (constant : Constant) :
    (pool.push constant).count = pool.count + width constant := by
  unfold count
  rw [constants_push]
  rfl

/-- Constants are added at the end, in order. -/
theorem toList_foldl_push (constants : List Constant) (pool : Pool) :
    (constants.foldl push pool).constants.toList = pool.constants.toList ++ constants := by
  induction constants generalizing pool with
  | nil => simp
  | cons constant constants ih =>
    rw [List.foldl_cons, ih, constants_push, WidthVector.toList_push, List.append_assoc]
    rfl

/-- Each constant takes up at least one index. -/
theorem count_foldl_push (constants : List Constant) (pool : Pool) :
    pool.count + constants.length ≤ (constants.foldl push pool).count := by
  induction constants generalizing pool with
  | nil => exact Nat.le_refl _
  | cons constant constants ih =>
    have hrest := ih (pool.push constant)
    have hpos := constant.width_pos
    rw [count_push] at hrest
    rw [List.foldl_cons, List.length_cons]
    omega

/-- The pool that holds some constants. -/
def ofConstants (constants : List Constant) : Pool := constants.foldl push ∅

theorem toList_ofConstants (constants : List Constant) :
    (ofConstants constants).constants.toList = constants := toList_foldl_push constants ∅

/-- Only constants were added. -/
def Built (pool : Pool) : Prop := pool = ofConstants pool.constants.toList

theorem built_ofConstants (constants : List Constant) : (ofConstants constants).Built := by
  unfold Built
  rw [toList_ofConstants]

/-- A pool to which constants are added is still made of its constants. -/
theorem Built.foldl_push (h : pool.Built) (constants : List Constant) :
    (constants.foldl push pool).Built := by
  unfold Built
  rw [toList_foldl_push, ofConstants, List.foldl_append]
  exact congrArg (fun start => constants.foldl push start) h

/-- Later constants start at higher indices. -/
theorem ascends_foldl_push (h : pool.constants.Ascends) (constants : List Constant) :
    (constants.foldl push pool).constants.Ascends := by
  induction constants generalizing pool with
  | nil => exact h
  | cons constant constants ih =>
    refine ih ?_
    rw [constants_push]
    exact h.push constant.width_pos

theorem Built.ascends (h : pool.Built) : pool.constants.Ascends := by
  rw [h]
  exact ascends_foldl_push (WidthVector.ascends_emptyAt 1) _

/-- There is a constant at an index exactly if it was added there. -/
theorem Built.get?_eq_some (h : pool.Built) {index : PoolIndex} :
    pool.get? index = some constant ↔ (index.toNat, constant) ∈ pool.entries :=
  WidthVector.lookup_eq_some h.ascends

/-! ### Reading pools -/

/-- Constants are read behind those of a pool until all indices below a count are taken. -/
def Completes (count : Nat) (pool : Pool) (input : Input) (pool' : Pool) (later : Input) : Prop :=
  ∃ more : List Constant, pool' = more.foldl push pool ∧ pool'.count = count ∧
    (∀ constant ∈ more, constant.Fits) ∧ input.Behind (more.flatMap Constant.write) later

variable {count rounds : Nat} {input later : Input}

/-- When all indices are taken there is nothing left to be read. -/
theorem completes_done (h : pool.count = count) :
    Completes count pool input pool' later ↔ pool = pool' ∧ input = later := by
  constructor
  · rintro ⟨more, rfl, hcount, -, hbehind⟩
    have hlength := count_foldl_push more pool
    obtain rfl : more = [] := List.length_eq_zero_iff.1 (by omega)
    exact ⟨rfl, Input.behind_nil.1 hbehind⟩
  · rintro ⟨rfl, rfl⟩
    exact ⟨[], rfl, h, nofun, Input.behind_nil.2 rfl⟩

/-- One more constant is read, and others behind it. -/
theorem completes_step (h : pool.count < count) :
    Completes count pool input pool' later ↔
      ∃ constant, constant.Fits ∧ pool.count + width constant ≤ count ∧
        ∃ middle, input.Behind constant.write middle ∧
          Completes count (pool.push constant) middle pool' later := by
  constructor
  · rintro ⟨more, rfl, hcount, hfits, hbehind⟩
    cases more with
    | nil => exact absurd hcount (Nat.ne_of_lt h)
    | cons constant more =>
      obtain ⟨hfirst, hmore⟩ := List.forall_mem_cons.1 hfits
      rw [List.flatMap_cons] at hbehind
      obtain ⟨middle, hbehind, hbehind'⟩ := Input.behind_append.1 hbehind
      have hlength := count_foldl_push more (pool.push constant)
      rw [count_push] at hlength
      refine ⟨constant, hfirst, ?_, middle, hbehind, more, rfl, hcount, hmore, hbehind'⟩
      rw [List.foldl_cons] at hcount
      omega
  · rintro ⟨constant, hfirst, -, middle, hbehind, more, rfl, hcount, hmore, hbehind'⟩
    refine ⟨constant :: more, rfl, hcount, List.forall_mem_cons.2 ⟨hfirst, hmore⟩, ?_⟩
    rw [List.flatMap_cons]
    exact Input.behind_append.2 ⟨middle, hbehind, hbehind'⟩

/-- Constants are read until all indices are taken. -/
theorem reads_readConstants (hle : pool.count ≤ count) (hrounds : count ≤ pool.count + rounds) :
    Reads (readConstants count rounds pool) input pool' later ↔
      Completes count pool input pool' later := by
  -- a constant takes one index at least, so that enough rounds are left behind it
  induction rounds generalizing pool input with
  | zero =>
    unfold readConstants
    rw [reads_pure, completes_done (by omega)]
  | succ rounds ih =>
    unfold readConstants
    split
    · rw [reads_pure, completes_done (by omega)]
    · rename_i hlt
      rw [completes_step (by omega)]
      simp only [(Constant.inverts_read _).reads_bind]
      constructor
      · rintro ⟨constant, hfits, middle, hbehind, h⟩
        split at h
        · exact absurd (reads_bind.1 h) (by
            rintro ⟨_, _, hthrow, _⟩
            exact not_reads_throw hthrow)
        · rename_i hroom
          have hpos := constant.width_pos
          rw [ih (by rw [count_push]; omega) (by rw [count_push]; omega)] at h
          exact ⟨constant, hfits, by omega, middle, hbehind, h⟩
      · rintro ⟨constant, hfits, hroom, middle, hbehind, h⟩
        have hpos := constant.width_pos
        rw [← ih (by rw [count_push]; omega) (by rw [count_push]; omega)] at h
        refine ⟨constant, hfits, middle, hbehind, ?_⟩
        rw [if_neg (by omega)]
        exact h

/-- Constants were added one after the other, and there are indices for all of them. -/
structure Formed (pool : Pool) : Prop where
  built : pool.Built
  count_lt : pool.count < 65536

/-- The constants of a pool refer to each other as they should. -/
structure Valid (pool : Pool) : Prop extends Formed pool where
  references : ∀ constant ∈ pool.constants.toList, pool.checkReferences constant = .ok ()

/-- The form of a pool is read as that pool. The one without constants has a second form. -/
theorem reads_read :
    Reads read input pool later ↔
      pool.Valid ∧ (∀ constant ∈ pool.constants.toList, constant.Fits) ∧
        (input.Behind pool.write later ∨ pool = ∅ ∧ input.Behind (Bytes.ofCount 0) later) := by
  -- references are checked when all constants are there
  have hchecked : ∀ {count : Nat} {middle : Input}, Reads (do
      let pool ← readConstants count count empty
      ofExcept (pool.constants.toList.forM pool.checkReferences)
      return pool) middle pool later ↔
        Reads (readConstants count count empty) middle pool later ∧
          ∀ constant ∈ pool.constants.toList, pool.checkReferences constant = .ok () := by
    intro count middle
    simp only [reads_bind, reads_ofExcept, reads_pure]
    constructor
    · rintro ⟨_, _, hread, _, _, ⟨hcheck, rfl⟩, rfl, rfl⟩
      exact ⟨hread, except_forM_ok.1 hcheck⟩
    · rintro ⟨hread, hcheck⟩
      exact ⟨pool, later, hread, (), later, ⟨except_forM_ok.2 hcheck, rfl⟩, rfl, rfl⟩
  unfold read
  simp only [(inverts_nat 2).reads_bind, hchecked]
  constructor
  · rintro ⟨count, hlt, middle, hcount, hread, hreferences⟩
    -- a count of zero stands for no constants, as one does
    rcases Nat.eq_zero_or_pos count with rfl | hpos
    · obtain ⟨rfl, rfl⟩ := reads_pure.1 hread
      exact ⟨⟨⟨rfl, by decide⟩, hreferences⟩, nofun, .inr ⟨rfl, hcount⟩⟩
    · rw [reads_readConstants hpos (Nat.le_add_left _ _)] at hread
      obtain ⟨more, rfl, rfl, hfits, hbehind⟩ := hread
      have htoList : (more.foldl push empty).constants.toList = more := toList_ofConstants more
      refine ⟨⟨⟨built_ofConstants more, hlt⟩, hreferences⟩, ?_, .inl ?_⟩
      · rw [htoList]
        exact hfits
      · unfold write
        rw [htoList]
        exact Input.behind_append.2 ⟨middle, hcount, hbehind⟩
  · rintro ⟨⟨⟨hbuilt, hlt⟩, hreferences⟩, hfits, hbehind | ⟨rfl, hbehind⟩⟩
    · obtain ⟨middle, hcount, hbehind⟩ := Input.behind_append.1 hbehind
      -- no count is below the one of a pool with nothing in it
      have hpos : (empty : Pool).count ≤ pool.count := by
        have := count_foldl_push pool.constants.toList ∅
        rw [hbuilt]
        exact Nat.le_trans (Nat.le_add_right _ _) this
      refine ⟨pool.count, hlt, middle, hcount, ?_, hreferences⟩
      rw [reads_readConstants hpos (Nat.le_add_left _ _)]
      exact ⟨pool.constants.toList, hbuilt, rfl, hfits, hbehind⟩
    · exact ⟨0, by decide, later, hbehind, reads_pure.2 ⟨rfl, rfl⟩, hreferences⟩

/-! ### Checks of indices -/

/-- A check answers with the index that it is asked about. -/
def Confirms (check : PoolIndex → Except StructuralError PoolIndex) : Prop :=
  ∀ {index index' : PoolIndex}, check index = .ok index' → index = index'

/-- An index passes as it is, if there is a text. -/
theorem utf8Index_ok {index index' : PoolIndex} : pool.utf8Index index = .ok index' ↔
    index = index' ∧ ∃ text, pool.get? index = some (.utf8 text) := by
  unfold utf8Index
  split
  · rename_i hget
    exact ⟨fun h => ⟨Except.ok.inj h, _, hget⟩, fun h => congrArg Except.ok h.1⟩
  · rename_i hother
    exact ⟨nofun, fun ⟨_, _, hget⟩ => absurd hget (hother _)⟩

theorem confirms_utf8Index : Confirms pool.utf8Index := fun h => (utf8Index_ok.1 h).1

/-- An index passes as it is, if there is a class. -/
theorem classIndex_ok {index index' : PoolIndex} : pool.classIndex index = .ok index' ↔
    index = index' ∧ ∃ name, pool.get? index = some (.classRef name) := by
  unfold classIndex
  split
  · rename_i hget
    exact ⟨fun h => ⟨Except.ok.inj h, _, hget⟩, fun h => congrArg Except.ok h.1⟩
  · rename_i hother
    exact ⟨nofun, fun ⟨_, _, hget⟩ => absurd hget (hother _)⟩

theorem confirms_classIndex : Confirms pool.classIndex := fun h => (classIndex_ok.1 h).1

/-- An index passes as it is, if there is a field. -/
theorem fieldRefIndex_ok {index index' : PoolIndex} : pool.fieldRefIndex index = .ok index' ↔
    index = index' ∧ ∃ owner member, pool.get? index = some (.fieldRef owner member) := by
  unfold fieldRefIndex
  split
  · rename_i hget
    exact ⟨fun h => ⟨Except.ok.inj h, _, _, hget⟩, fun h => congrArg Except.ok h.1⟩
  · rename_i hother
    exact ⟨nofun, fun ⟨_, _, _, hget⟩ => absurd hget (hother _ _)⟩

theorem confirms_fieldRefIndex : Confirms pool.fieldRefIndex := fun h => (fieldRefIndex_ok.1 h).1

/-- An index passes as it is, if there is a method. -/
theorem methodRefIndex_ok {index index' : PoolIndex} : pool.methodRefIndex index = .ok index' ↔
    index = index' ∧
      ∃ owner member ofInterface, pool.get? index = some (.methodRef owner member ofInterface) := by
  unfold methodRefIndex
  split
  · rename_i hget
    exact ⟨fun h => ⟨Except.ok.inj h, _, _, _, hget⟩, fun h => congrArg Except.ok h.1⟩
  · rename_i hother
    exact ⟨nofun, fun ⟨_, _, _, _, hget⟩ => absurd hget (hother _ _ _)⟩

theorem confirms_methodRefIndex : Confirms pool.methodRefIndex := fun h => (methodRefIndex_ok.1 h).1

/-- An index passes as it is, if there is a dynamic call. -/
theorem invokeDynamicIndex_ok {index index' : PoolIndex} : pool.invokeDynamicIndex index = .ok index' ↔
    index = index' ∧
      ∃ bootstrap member, pool.get? index = some (.invokeDynamic bootstrap member) := by
  unfold invokeDynamicIndex
  split
  · rename_i hget
    exact ⟨fun h => ⟨Except.ok.inj h, _, _, hget⟩, fun h => congrArg Except.ok h.1⟩
  · rename_i hother
    exact ⟨nofun, fun ⟨_, _, _, hget⟩ => absurd hget (hother _ _)⟩

theorem confirms_invokeDynamicIndex : Confirms pool.invokeDynamicIndex :=
  fun h => (invokeDynamicIndex_ok.1 h).1

/-- A constant can be loaded as a value of two slots, or of one slot. -/
def Loads (pool : Pool) (isWide : Bool) : Constant → Prop
  | .long _ | .double _ => isWide = true
  | .integer _ | .float _ | .string _ | .classRef _ | .methodHandle .. | .methodType _ =>
    isWide = false
  | .dynamic _ member => ∃ name descriptor, pool.nameAndType member = .ok (name, descriptor) ∧
    isWide = (descriptor == "J" || descriptor == "D")
  | _ => False

/-- An index passes as it is, if there is something that can be loaded, and it is as wide as it
should be. -/
theorem loadableIndex_ok {index index' : PoolIndex} {isWide : Bool} :
    pool.loadableIndex index isWide = .ok index' ↔
      index = index' ∧ ∃ constant, pool.get? index = some constant ∧ pool.Loads isWide constant := by
  -- a constant is refused if its width is the other one
  have hfound : ∀ foundWide : Bool, ∀ error : StructuralError,
      (if foundWide = isWide then pure index else throw error : Except StructuralError PoolIndex) =
        .ok index' ↔ index = index' ∧ isWide = foundWide := by
    intro foundWide error
    rcases eq_or_ne foundWide isWide with rfl | hne
    · rw [if_pos rfl]
      exact ⟨fun h => ⟨Except.ok.inj h, rfl⟩, fun h => congrArg Except.ok h.1⟩
    · rw [if_neg hne]
      exact ⟨nofun, fun h => absurd h.2.symm hne⟩
  unfold loadableIndex
  rcases hconstant : pool.get? index with _ | constant
  · exact ⟨nofun, nofun⟩
  · simp only [Option.some.injEq, exists_eq_left']
    cases constant with
    | long _ | double _ => exact hfound true _
    | integer _ | float _ | string _ | classRef _ | methodHandle _ _ | methodType _ =>
      exact hfound false _
    | dynamic bootstrap member =>
      simp only [except_bind_ok, hfound]
      constructor
      · rintro ⟨⟨name, descriptor⟩, hmember, _, hpure, rfl, rfl⟩
        obtain rfl := Except.ok.inj hpure
        exact ⟨rfl, name, descriptor, hmember, rfl⟩
      · rintro ⟨rfl, name, descriptor, hmember, rfl⟩
        exact ⟨(name, descriptor), hmember, _, rfl, rfl, rfl⟩
    | utf8 _ | fieldRef _ _ | methodRef _ _ _ | nameAndType _ _ | invokeDynamic _ _ | moduleRef _
    | packageRef _ => exact ⟨nofun, fun h => h.2.elim⟩

theorem confirms_loadableIndex (isWide : Bool) : Confirms (pool.loadableIndex · isWide) :=
  fun h => (loadableIndex_ok.1 h).1

/-- No class is written as the class zero. -/
theorem eq_of_optionalClassIndex {index : PoolIndex} {found : Option PoolIndex}
    (h : pool.optionalClassIndex index = .ok found) : index = found.getD 0 := by
  unfold optionalClassIndex at h
  split at h
  · rename_i hzero
    obtain rfl := Except.ok.inj h
    exact hzero
  · rw [map_eq_pure_bind, except_bind_ok] at h
    obtain ⟨index', hclass, hpure⟩ := h
    obtain rfl := Except.ok.inj hpure
    exact confirms_classIndex hclass

section Confirms

variable {check : PoolIndex → Except StructuralError PoolIndex}

/-- Something is made of an index that has to pass a check. -/
theorem reads_check_make {α : Type} (hcheck : Confirms check) (make : PoolIndex → α) {a : α} :
    Reads (do return make (← ofExcept (check (← Reader.uint16)))) input a later ↔
      ∃ index, check index = .ok index ∧ a = make index ∧
        input.Behind (Bytes.ofUInt16 index) later := by
  simp only [inverts_uint16.reads_bind, reads_ofExcept_bind, reads_pure]
  constructor
  · rintro ⟨index, -, middle, hbehind, _, hok, rfl, rfl⟩
    obtain rfl := hcheck hok
    exact ⟨index, hok, rfl, hbehind⟩
  · rintro ⟨index, hok, rfl, hbehind⟩
    exact ⟨index, trivial, later, hbehind, index, hok, rfl, rfl⟩

/-- An index that has to pass a check is read. -/
theorem inverts_check (hcheck : Confirms check) :
    Inverts (do ofExcept (check (← Reader.uint16))) Bytes.ofUInt16
      fun index => check index = .ok index := by
  intro input value later
  have hmake : Reads _ input value later ↔ _ := reads_check_make hcheck id
  simp only [id, bind_pure] at hmake
  rw [hmake]
  constructor
  · rintro ⟨_, hok, rfl, hbehind⟩
    exact ⟨hok, hbehind⟩
  · rintro ⟨hok, hbehind⟩
    exact ⟨value, hok, rfl, hbehind⟩

end Confirms

end Pool

end Preverification
