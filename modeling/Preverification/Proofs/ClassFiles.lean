import Preverification.ClassFile.Basic
import Preverification.Proofs.Pools

/-!
# Class files and their bytes

A class file is put together from parts that have one form each, so a class is written as it was
read. Only bits of access flags that mean nothing get lost. Main statement: the bytes of a class
differ from those that it was read from in these bits alone, and not at all if there are none.

* `Member.takes_read`, `Identity.takes_read`, `ClassFile.takes_read`: what is written for a part is
  read, less bits that mean nothing.
* `ClassFile.parse_ok`: the files that are accepted are the forms of the classes whose parts fit.
* `ClassFile.parse_write`: a class file is written as it was read, less the bits of access flags
  that mean nothing.
-/

namespace Preverification

open Reader

/-! ### Attributes -/

namespace Attribute

/-- The name of an attribute is a text, and its contents can be counted. -/
structure Fits (pool : Pool) (attr : Attribute) : Prop where
  name : pool.utf8Index attr.name = .ok attr.name
  contents : attr.contents.length < Bytes.limit 4

/-- An attribute has a name, and says how long its contents are. -/
theorem inverts_readNamed (pool : Pool) : Inverts (readNamed pool) write (Fits pool) := by
  intro input attr later
  unfold readNamed
  simp only [inverts_uint16.reads_bind, reads_ofExcept_bind,
    (inverts_nat 4).reads_bind, (inverts_bytes _).reads_bind, reads_pure]
  constructor
  · rintro ⟨index, -, behind, hindex, name, hname, count, hlt, middle, hcount, contents,
      rfl, _, hcontents, rfl, rfl⟩
    obtain rfl := Pool.confirms_utf8Index hname
    refine ⟨⟨hname, hlt⟩, ?_⟩
    unfold write
    simp only [Input.behind_append]
    exact ⟨middle, ⟨behind, hindex, hcount⟩, hcontents⟩
  · rintro ⟨⟨hname, hlt⟩, hbehind⟩
    unfold write at hbehind
    simp only [Input.behind_append] at hbehind
    obtain ⟨middle, ⟨behind, hindex, hcount⟩, hcontents⟩ := hbehind
    exact ⟨attr.name, trivial, behind, hindex, attr.name, hname, _, hlt, middle,
      hcount, attr.contents, rfl, later, hcontents, rfl, rfl⟩

theorem inverts_readList (pool : Pool) :
    Inverts (readList pool) (Bytes.ofList write) (ListFits (Fits pool)) :=
  inverts_list (inverts_readNamed pool)

end Attribute

/-! ### Members -/

namespace Member

/-- The bits of the access flags outside a mask are cleared. -/
def masked (mask : UInt16) (member : Member) : Member :=
  { member with access := .ofBits mask member.access.bits }

/-- Name and descriptor are texts, and the attributes fit. -/
structure Fits (pool : Pool) (member : Member) : Prop where
  name : pool.utf8Index member.name = .ok member.name
  descriptor : pool.utf8Index member.descriptor = .ok member.descriptor
  attributes : ListFits (Attribute.Fits pool) member.attributes

/-- What is written for a member is read, less the bits of its access flags outside the mask. -/
theorem takes_read (mask : UInt16) (pool : Pool) :
    Takes (read mask pool) write (Fits pool) (masked mask) := by
  intro input member later
  unfold read
  simp only [inverts_uint16.reads_bind, reads_ofExcept_bind,
    (Attribute.inverts_readList pool).reads_bind, reads_pure]
  constructor
  · rintro ⟨bits, -, first, hbits, _, -, second, hname, name, hnameOk, _, -, third,
      hdescriptor, descriptor, hdescriptorOk, attributes, hfits, _, hattributes, rfl, rfl⟩
    obtain rfl := Pool.confirms_utf8Index hnameOk
    obtain rfl := Pool.confirms_utf8Index hdescriptorOk
    -- the bits outside the mask are read as they are, and cleared then
    refine ⟨⟨⟨bits⟩, _, _, attributes⟩, rfl, ⟨hnameOk, hdescriptorOk, hfits⟩, ?_⟩
    unfold write
    simp only [Input.behind_append]
    exact ⟨third, ⟨second, ⟨first, hbits, hname⟩, hdescriptor⟩, hattributes⟩
  · rintro ⟨whole, rfl, ⟨hname, hdescriptor, hfits⟩, hbehind⟩
    unfold write at hbehind
    simp only [Input.behind_append] at hbehind
    obtain ⟨third, ⟨second, ⟨first, hbits, hfirst⟩, hsecond⟩, hattributes⟩ := hbehind
    exact ⟨whole.access.bits, trivial, first, hbits, whole.name, trivial, second, hfirst,
      whole.name, hname, whole.descriptor, trivial, third, hsecond,
      whole.descriptor, hdescriptor, whole.attributes, hfits, later, hattributes,
      rfl, rfl⟩

end Member

/-! ### Identities -/

namespace Identity

/-- The bits of the access flags that mean nothing on a class are cleared. -/
def masked (identity : Identity) : Identity :=
  { identity with access := .ofBits AccessFlags.classMask identity.access.bits }

/-- All indices are those of classes. -/
structure Fits (pool : Pool) (identity : Identity) : Prop where
  thisClass : pool.classIndex identity.thisClass = .ok identity.thisClass
  superclass : pool.optionalClassIndex (identity.superclass.getD 0) = .ok identity.superclass
  interfaces : ListFits (fun index => pool.classIndex index = .ok index) identity.interfaces

/-- The names in front of the members are read as they are, and the flags less their bits outside
the mask. -/
theorem takes_read (pool : Pool) : Takes (read pool) write (Fits pool) masked := by
  intro input identity later
  unfold read
  simp only [inverts_uint16.reads_bind, reads_ofExcept_bind,
    (inverts_list (Pool.inverts_check Pool.confirms_classIndex)).reads_bind, reads_pure]
  constructor
  · rintro ⟨bits, -, first, hbits, _, -, second, hthis, thisClass, hthisOk, _, -, third,
      hsuper, superclass, hsuperOk, interfaces, hfits, _, hinterfaces, rfl, rfl⟩
    obtain rfl := Pool.confirms_classIndex hthisOk
    obtain rfl := Pool.eq_of_optionalClassIndex hsuperOk
    -- the flags that were read are those in front of masking
    refine ⟨⟨⟨bits⟩, _, superclass, interfaces⟩, rfl, ⟨hthisOk, hsuperOk, hfits⟩, ?_⟩
    unfold write
    simp only [Input.behind_append]
    exact ⟨third, ⟨second, ⟨first, hbits, hthis⟩, hsuper⟩, hinterfaces⟩
  · rintro ⟨whole, rfl, ⟨hthis, hsuper, hfits⟩, hbehind⟩
    unfold write at hbehind
    simp only [Input.behind_append] at hbehind
    obtain ⟨third, ⟨second, ⟨first, hbits, hfirst⟩, hsecond⟩, hinterfaces⟩ := hbehind
    -- both names pass their checks, since they fit
    exact ⟨whole.access.bits, trivial, first, hbits, whole.thisClass, trivial, second, hfirst,
      whole.thisClass, hthis, whole.superclass.getD 0, trivial, third, hsecond,
      whole.superclass, hsuper, whole.interfaces, hfits, later, hinterfaces,
      rfl, rfl⟩

end Identity

/-! ### Class files -/

/-- Magic number, version and constants. -/
theorem Pool.reads_readPreamble {input later : Input} {version : Version} {pool : Pool} :
    Reads readPreamble input (version, pool) later ↔
      ∃ middle, input.Behind (Bytes.ofLength magic ++ Bytes.ofUInt16 version.minor ++
        Bytes.ofUInt16 version.major) middle ∧ Reads Pool.read middle pool later := by
  unfold readPreamble
  simp only [(inverts_nat 4).reads_bind, Input.behind_append]
  constructor
  · rintro ⟨number, -, first, hmagic, h⟩
    -- only the magic number is accepted
    split at h
    · exact absurd (reads_bind.1 h) (by
        rintro ⟨_, _, hthrow, _⟩
        exact not_reads_throw hthrow)
    · rename_i hnumber
      obtain rfl := not_not.1 hnumber
      simp only [inverts_uint16.reads_bind, @reads_bind _ _ _ _ Pool.read, reads_pure] at h
      obtain ⟨minor, -, second, hminor, major, -, third, hmajor, found, _, hpool, heq, rfl⟩ := h
      obtain ⟨rfl, rfl⟩ := Prod.mk.inj heq
      exact ⟨third, ⟨second, ⟨first, hmagic, hminor⟩, hmajor⟩, hpool⟩
  · rintro ⟨third, ⟨second, ⟨first, hmagic, hminor⟩, hmajor⟩, hpool⟩
    refine ⟨magic, by decide, first, hmagic, ?_⟩
    rw [if_neg (not_not.2 rfl)]
    simp only [inverts_uint16.reads_bind, @reads_bind _ _ _ _ Pool.read, reads_pure]
    exact ⟨version.minor, trivial, second, hminor, version.major, trivial, third, hmajor, pool,
      later, hpool, rfl, rfl⟩

/-- There is no class in an empty pool. -/
theorem Pool.not_classIndex_empty {index index' : PoolIndex} :
    ¬ (∅ : Pool).classIndex index = .ok index' := by
  unfold classIndex
  split
  · rename_i name hname
    exact absurd ((built_ofConstants []).get?_eq_some.1 hname) List.not_mem_nil
  · nofun

namespace ClassFile

/-- The bits of access flags that mean nothing are cleared. -/
def masked (classFile : ClassFile) : ClassFile :=
  { classFile with
    identity := classFile.identity.masked
    fields := classFile.fields.map (Member.masked AccessFlags.fieldMask)
    methods := classFile.methods.map (Member.masked AccessFlags.methodMask) }

/-- The constants are those of a class file, and everything refers to constants of the right
kinds. -/
structure Fits (classFile : ClassFile) : Prop where
  valid : classFile.constants.Valid
  constants : ∀ constant ∈ classFile.constants.constants.toList, constant.Fits
  identity : classFile.identity.Fits classFile.constants
  fields : ListFits (Member.Fits classFile.constants) classFile.fields
  methods : ListFits (Member.Fits classFile.constants) classFile.methods
  attributes : ListFits (Attribute.Fits classFile.constants) classFile.attributes

/-- A whole class is read, part by part. -/
theorem takes_read : Takes read write Fits masked := by
  intro input classFile later
  have hfields := fun pool => takes_list (Member.takes_read AccessFlags.fieldMask pool)
  have hmethods := fun pool => takes_list (Member.takes_read AccessFlags.methodMask pool)
  unfold read
  simp only [reads_bind, reads_pure]
  constructor
  · rintro ⟨⟨version, pool⟩, first, hpreamble, _, second, hidentity, _, third, hfieldList, _,
      fourth, hmethodList, attributes, _, hattributeList, rfl, rfl⟩
    -- part by part, from the front
    obtain ⟨front, hfront, hpool⟩ := Pool.reads_readPreamble.1 hpreamble
    obtain ⟨identity, rfl, hidentityFits, hidentity⟩ := (Identity.takes_read pool _ _ _).1 hidentity
    obtain ⟨fields, rfl, hfieldsFit, hfieldList⟩ := (hfields pool _ _ _).1 hfieldList
    obtain ⟨methods, rfl, hmethodsFit, hmethodList⟩ := (hmethods pool _ _ _).1 hmethodList
    obtain ⟨hattributesFit, hattributeList⟩ :=
      (Attribute.inverts_readList pool _ _ _).1 hattributeList
    obtain ⟨hvalid, hconstants, hbehind | ⟨rfl, -⟩⟩ := Pool.reads_read.1 hpool
    · refine ⟨⟨version, pool, identity, fields, methods, attributes⟩, rfl,
        ⟨hvalid, hconstants, hidentityFits, hfieldsFit, hmethodsFit, hattributesFit⟩, ?_⟩
      have hpoolBehind := Input.behind_append.2 ⟨front, hfront, hbehind⟩
      have hidentityBehind := Input.behind_append.2 ⟨first, hpoolBehind, hidentity⟩
      have hfieldsBehind := Input.behind_append.2 ⟨second, hidentityBehind, hfieldList⟩
      have hmethodsBehind := Input.behind_append.2 ⟨third, hfieldsBehind, hmethodList⟩
      exact Input.behind_append.2 ⟨fourth, hmethodsBehind, hattributeList⟩
    -- The form without any constants has no room for the class itself.
    · exact absurd hidentityFits.thisClass Pool.not_classIndex_empty
  · rintro ⟨whole, rfl, hfits, hbehind⟩
    obtain ⟨fourth, hmethodsBehind, hattributeList⟩ := Input.behind_append.1 hbehind
    obtain ⟨third, hfieldsBehind, hmethodList⟩ := Input.behind_append.1 hmethodsBehind
    obtain ⟨second, hidentityBehind, hfieldList⟩ := Input.behind_append.1 hfieldsBehind
    obtain ⟨first, hpoolBehind, hidentity⟩ := Input.behind_append.1 hidentityBehind
    obtain ⟨front, hfront, hpool⟩ := Input.behind_append.1 hpoolBehind
    -- what was written part by part is read part by part
    have hpoolRead := Pool.reads_read.2 ⟨hfits.valid, hfits.constants, .inl hpool⟩
    exact ⟨(whole.version, whole.constants), first,
      Pool.reads_readPreamble.2 ⟨front, hfront, hpoolRead⟩,
      _, second, (Identity.takes_read _ _ _ _).2 ⟨_, rfl, hfits.identity, hidentity⟩,
      _, third, (hfields _ _ _ _).2 ⟨_, rfl, hfits.fields, hfieldList⟩,
      _, fourth, (hmethods _ _ _ _).2 ⟨_, rfl, hfits.methods, hmethodList⟩,
      whole.attributes, later,
      (Attribute.inverts_readList _ _ _ _).2 ⟨hfits.attributes, hattributeList⟩, rfl, rfl⟩

/-- The files that are accepted are the forms of the classes whose parts fit. -/
theorem parse_ok {bytes : Bytes} {classFile : ClassFile} : parse bytes = .ok classFile ↔
    ∃ whole : ClassFile, classFile = whole.masked ∧ whole.Fits ∧ bytes = whole.write := by
  unfold parse
  simp only [except_bind_ok, Prod.exists, run_ok]
  constructor
  · rintro ⟨found, rest, ⟨position, hread⟩, h⟩
    obtain ⟨whole, rfl, hfits, hbehind⟩ := (takes_read _ _ _).1 hread
    split at h
    · rename_i hempty
      obtain rfl := Except.ok.inj h
      have hrest : bytes = whole.write ++ rest := hbehind.rest
      rw [List.isEmpty_iff.1 hempty, List.append_nil] at hrest
      exact ⟨whole, rfl, hfits, hrest⟩
    · cases h
  · rintro ⟨whole, rfl, hfits, rfl⟩
    have hself := Input.behind_self whole.write [] 0
    rw [List.append_nil] at hself
    exact ⟨whole.masked, [], ⟨_, (takes_read _ _ _).2 ⟨whole, rfl, hfits, hself⟩⟩, rfl⟩

/-- Clearing bits of flags does not make anything too long. -/
theorem Fits.masked {classFile : ClassFile} (h : classFile.Fits) : classFile.masked.Fits where
  valid := h.valid
  constants := h.constants
  identity := ⟨h.identity.thisClass, h.identity.superclass, h.identity.interfaces⟩
  fields := by
    refine ⟨by simpa [ClassFile.masked] using h.fields.1, List.forall_mem_map.2 fun field hfield => ?_⟩
    have hfits := h.fields.2 field hfield
    exact ⟨hfits.name, hfits.descriptor, hfits.attributes⟩
  methods := by
    refine ⟨by simpa [ClassFile.masked] using h.methods.1,
      List.forall_mem_map.2 fun method hmethod => ?_⟩
    have hfits := h.methods.2 method hmethod
    exact ⟨hfits.name, hfits.descriptor, hfits.attributes⟩
  attributes := h.attributes

/-- The parts of a class that was read fit. -/
theorem fits_of_parse {bytes : Bytes} {classFile : ClassFile} (h : parse bytes = .ok classFile) :
    classFile.Fits := by
  rcases parse_ok.1 h with ⟨whole, rfl, hfits, _⟩
  exact hfits.masked

end ClassFile

/-! ### The words that hold access flags -/

/-- A word of access flags: where it starts, and which of its bits mean something. -/
structure AccessWord where
  offset : Nat
  mask : UInt16
deriving DecidableEq

namespace Bytes

/-- The number in two bytes from an offset on. -/
def wordAt (bytes : Bytes) (offset : Nat) : UInt16 :=
  UInt16.ofNat (toNat ((bytes.drop offset).take 2))

/-- Some bytes, of which the first one stands at `start`, become others of the same number. What
lies outside some words stays, and in each of the words the bits outside its mask are cleared. -/
structure Clears (words : List AccessWord) (start : Nat) (before after : Bytes) : Prop where
  length : after.length = before.length
  within : ∀ word ∈ words, start ≤ word.offset ∧ word.offset + 2 ≤ start + before.length
  outside : ∀ place, (∀ word ∈ words, start + place < word.offset ∨
    word.offset + 2 ≤ start + place) → after[place]? = before[place]?
  inside : ∀ word ∈ words, after.wordAt (word.offset - start) =
    before.wordAt (word.offset - start) &&& word.mask

variable {front back bytes before after before' after' : Bytes} {offset start : Nat}
  {words words' : List AccessWord}

/-- A word in front of what is added stays. -/
theorem wordAt_append_left (h : offset + 2 ≤ front.length) :
    (front ++ back).wordAt offset = front.wordAt offset := by
  unfold wordAt
  rw [List.drop_append_of_le_length (by omega), List.take_append_of_le_length]
  rw [List.length_drop]
  omega

/-- A word behind what is put in front is found there. -/
theorem wordAt_append_right (h : front.length ≤ offset) :
    (front ++ back).wordAt offset = back.wordAt (offset - front.length) := by
  unfold wordAt
  rw [List.drop_append, List.drop_eq_nil_of_le h, List.nil_append]

@[simp] theorem wordAt_ofUInt16 (n : UInt16) : (ofUInt16 n).wordAt 0 = n := by
  unfold wordAt
  rw [List.drop_zero, List.take_of_length_le (by simp), ofUInt16, toNat_ofNat n.toNat_lt,
    UInt16.ofNat_toNat]

/-- A word is known by its two bytes. -/
theorem getElem?_eq_of_wordAt {place : Nat} (hbefore : offset + 2 ≤ before.length)
    (hafter : offset + 2 ≤ after.length) (hword : after.wordAt offset = before.wordAt offset)
    (hle : offset ≤ place) (hlt : place < offset + 2) : after[place]? = before[place]? := by
  have htwo : ∀ {bytes : Bytes}, offset + 2 ≤ bytes.length →
      (bytes.drop offset).take 2 = ofUInt16 (bytes.wordAt offset) := by
    intro bytes hlength
    have hlength' : ((bytes.drop offset).take 2).length = 2 := by
      rw [List.length_take, List.length_drop]
      omega
    obtain ⟨hdigits, hlimit⟩ := ofNat_toNat ((bytes.drop offset).take 2)
    rw [hlength'] at hdigits hlimit
    rw [ofUInt16, wordAt, UInt16.toNat_ofNat_of_lt' hlimit, hdigits]
  have hplace : ∀ bytes : Bytes, bytes[place]? = ((bytes.drop offset).take 2)[place - offset]? := by
    intro bytes
    rw [List.getElem?_take_of_lt (by omega), List.getElem?_drop]
    congr
    omega
  rw [hplace, hplace before, htwo hafter, htwo hbefore, hword]

theorem Clears.refl (start : Nat) (bytes : Bytes) : Clears [] start bytes bytes :=
  ⟨rfl, nofun, fun _ _ => rfl, nofun⟩

/-- What is cleared in two parts is cleared in both of them together. -/
theorem Clears.append (h : Clears words start before after)
    (h' : Clears words' (start + before.length) before' after') :
    Clears (words ++ words') start (before ++ before') (after ++ after') := by
  have hlength := h.length
  have hlength' := h'.length
  constructor
  · rw [List.length_append, List.length_append, hlength, hlength']
  · intro word hword
    rw [List.length_append]
    rcases List.mem_append.1 hword with hword | hword
    · have := h.within word hword
      omega
    · have := h'.within word hword
      omega
  · intro place hplace
    obtain ⟨hfront, hback⟩ := List.forall_mem_append.1 hplace
    -- a byte outside of all the words stands in one of the parts
    rcases Nat.lt_or_ge place before.length with hlt | hge
    · rw [List.getElem?_append_left (by omega), List.getElem?_append_left hlt]
      exact h.outside place hfront
    · rw [List.getElem?_append_right (by omega), List.getElem?_append_right hge, hlength]
      refine h'.outside _ fun word hword => ?_
      have := hback word hword
      omega
  · intro word hword
    rcases List.mem_append.1 hword with hword | hword
    · have := h.within word hword
      rw [wordAt_append_left (by omega), wordAt_append_left (by omega)]
      exact h.inside word hword
    · have := h'.within word hword
      rw [wordAt_append_right (by omega), wordAt_append_right (by omega), hlength, Nat.sub_sub]
      exact h'.inside word hword

/-- In a word alone, what is cleared are the bits outside its mask. -/
theorem clears_ofUInt16 (start : Nat) (mask bits : UInt16) :
    Clears [⟨start, mask⟩] start (ofUInt16 bits) (ofUInt16 (bits &&& mask)) := by
  refine ⟨by simp, ?_, ?_, ?_⟩
  · simp
  · intro place hplace
    have hout : 2 ≤ place := by
      have : start + place < start ∨ start + 2 ≤ start + place :=
        hplace _ (List.mem_singleton.2 rfl)
      omega
    rw [List.getElem?_eq_none (by simpa using hout), List.getElem?_eq_none (by simpa using hout)]
  · simp

/-- Bits that are all within their masks are not cleared. -/
theorem Clears.eq (h : Clears words 0 before after)
    (hbits : ∀ word ∈ words, before.wordAt word.offset &&& word.mask = before.wordAt word.offset) :
    after = before := by
  refine List.ext_getElem? fun place => ?_
  by_cases hout : ∀ word ∈ words, 0 + place < word.offset ∨ word.offset + 2 ≤ 0 + place
  · exact h.outside place hout
  · push Not at hout
    obtain ⟨word, hword, hle, hlt⟩ := hout
    have hwithin := h.within word hword
    have hinside := h.inside word hword
    have hlength := h.length
    rw [Nat.sub_zero, hbits word hword] at hinside
    exact getElem?_eq_of_wordAt (by omega) (by omega) hinside (by omega) (by omega)

end Bytes

namespace Member

/-- The words of access flags of members that are written from an offset on. -/
def accessWords (mask : UInt16) : (offset : Nat) → List Member → List AccessWord
  | _, [] => []
  | offset, member :: rest => ⟨offset, mask⟩ :: accessWords mask (offset + member.write.length) rest

/-- Clearing bits changes no length. -/
@[simp] theorem length_write_masked (mask : UInt16) (member : Member) :
    (member.masked mask).write.length = member.write.length := by
  simp [write, masked]

/-- Masking flags does not move the words with flags. -/
@[simp] theorem accessWords_masked (mask : UInt16) (offset : Nat) (members : List Member) :
    accessWords mask offset (members.map (masked mask)) = accessWords mask offset members := by
  induction members generalizing offset with
  | nil => rfl
  | cons member members ih =>
    rw [List.map_cons, accessWords, length_write_masked, ih, accessWords]

/-- A member starts with its flags, and nothing else of it is cleared. -/
theorem clears_write (mask : UInt16) (start : Nat) (member : Member) :
    Bytes.Clears [⟨start, mask⟩] start member.write (member.masked mask).write := by
  have hflags := Bytes.clears_ofUInt16 start mask member.access.bits
  have hname := hflags.append (.refl _ (Bytes.ofUInt16 member.name))
  have hdescriptor := hname.append (.refl _ (Bytes.ofUInt16 member.descriptor))
  exact hdescriptor.append (.refl _ (Bytes.ofList Attribute.write member.attributes))

/-- Members come one after the other. -/
theorem clears_flatMap (mask : UInt16) (start : Nat) (members : List Member) :
    Bytes.Clears (accessWords mask start members) start (members.flatMap write)
      ((members.map (masked mask)).flatMap write) := by
  induction members generalizing start with
  | nil => exact .refl start []
  | cons member members ih =>
    rw [List.map_cons, List.flatMap_cons, List.flatMap_cons]
    exact (clears_write mask start member).append (ih _)

/-- The number of members comes in front of them. -/
theorem clears_ofList (mask : UInt16) (start : Nat) (members : List Member) :
    Bytes.Clears (accessWords mask (start + 2) members) start (Bytes.ofList write members)
      (Bytes.ofList write (members.map (masked mask))) := by
  unfold Bytes.ofList
  rw [List.length_map]
  have hcount := Bytes.Clears.refl start (Bytes.ofCount members.length)
  refine hcount.append ?_
  rw [Bytes.length_ofCount]
  exact clears_flatMap mask _ members

end Member

theorem Identity.clears_write (start : Nat) (identity : Identity) :
    Bytes.Clears [⟨start, AccessFlags.classMask⟩] start identity.write identity.masked.write := by
  have hflags := Bytes.clears_ofUInt16 start AccessFlags.classMask identity.access.bits
  have hthis := hflags.append (.refl _ (Bytes.ofUInt16 identity.thisClass))
  have hsuper := hthis.append (.refl _ (Bytes.ofUInt16 (identity.superclass.getD 0)))
  exact hsuper.append (.refl _ (Bytes.ofList Bytes.ofUInt16 identity.interfaces))

namespace ClassFile

/-- The words of access flags in the form of a class: its own, then those of its fields, then those
of its methods. -/
def accessWords (classFile : ClassFile) : List AccessWord :=
  let ofClass := 8 + classFile.constants.write.length
  let fields := ofClass + classFile.identity.write.length
  let methods := fields + (Bytes.ofList Member.write classFile.fields).length
  ⟨ofClass, AccessFlags.classMask⟩ ::
    (Member.accessWords AccessFlags.fieldMask (fields + 2) classFile.fields ++
      Member.accessWords AccessFlags.methodMask (methods + 2) classFile.methods)

theorem accessWords_masked (classFile : ClassFile) :
    classFile.masked.accessWords = classFile.accessWords := by
  have hidentity := (Identity.clears_write 0 classFile.identity).length
  have hfields := (Member.clears_ofList AccessFlags.fieldMask 0 classFile.fields).length
  simp only [accessWords, masked, Member.accessWords_masked, hidentity, hfields]

/-- The flags of a class are those in front of its names, and those of its fields and methods. -/
theorem clears_write (classFile : ClassFile) :
    Bytes.Clears classFile.accessWords 0 classFile.write classFile.masked.write := by
  have hversion := Bytes.Clears.refl 0 (Bytes.ofLength magic ++
    Bytes.ofUInt16 classFile.version.minor ++ Bytes.ofUInt16 classFile.version.major)
  have hconstants := hversion.append (.refl _ classFile.constants.write)
  have hidentity := hconstants.append (Identity.clears_write _ classFile.identity)
  have hfields := hidentity.append (Member.clears_ofList AccessFlags.fieldMask _ classFile.fields)
  have hmethods := hfields.append (Member.clears_ofList AccessFlags.methodMask _ classFile.methods)
  have hall := hmethods.append (.refl _ (Bytes.ofList Attribute.write classFile.attributes))
  simp only [List.length_append, Bytes.length_ofLength, Bytes.length_ofUInt16, Nat.reduceAdd,
    Nat.zero_add, List.nil_append, List.append_nil, List.cons_append] at hall
  exact hall

/-- **A class file is written as it was read, less the bits of access flags that mean nothing**:
these bits are cleared, everything else keeps its place, and where there are no such bits the very
bytes come back. -/
theorem parse_write {bytes : Bytes} {classFile : ClassFile} (h : parse bytes = .ok classFile) :
    Bytes.Clears classFile.accessWords 0 bytes classFile.write ∧
      ((∀ word ∈ classFile.accessWords,
          bytes.wordAt word.offset &&& word.mask = bytes.wordAt word.offset) →
        classFile.write = bytes) := by
  obtain ⟨whole, rfl, -, rfl⟩ := parse_ok.1 h
  have hclears := whole.clears_write
  rw [accessWords_masked]
  exact ⟨hclears, hclears.eq⟩

/-- The class A, whose access flags are these bits. -/
def publicClassWith (bits : UInt8) : Bytes :=
  [0xCA, 0xFE, 0xBA, 0xBE, 0, 0, 0, 49, 0, 3, 1, 0, 1, 65, 7, 0, 1, 0, bits, 0, 2, 0, 0, 0, 0, 0, 0,
    0, 0, 0, 0]

example : (parse (publicClassWith 0x61)).map write = .ok (publicClassWith 0x21) := by
  decide +kernel

/-- A bit of a class is cleared where it means nothing, and without it the bytes come back. -/
theorem publicClassWith_write :
    (∃ classFile, parse (publicClassWith 0x61) = .ok classFile ∧
      Bytes.Clears classFile.accessWords 0 (publicClassWith 0x61) classFile.write) ∧
    ∃ classFile, parse (publicClassWith 0x21) = .ok classFile ∧
      classFile.write = publicClassWith 0x21 := by
  have haccepted : ∀ bits ∈ [0x61, 0x21],
      (parse (publicClassWith bits)).map accessWords = .ok [⟨17, AccessFlags.classMask⟩] := by
    decide +kernel
  constructor
  · obtain ⟨classFile, hparse, -⟩ := except_map_ok.1 (haccepted 0x61 (by decide))
    exact ⟨classFile, hparse, (parse_write hparse).1⟩
  · obtain ⟨classFile, hparse, hwords⟩ := except_map_ok.1 (haccepted 0x21 (by decide))
    refine ⟨classFile, hparse, (parse_write hparse).2 ?_⟩
    rw [hwords]
    decide +kernel

end ClassFile

end Preverification
