import Mathlib.Algebra.GroupWithZero.Nat
import Preverification.Proofs.Texts

/-!
# One form for each text

The bytes of a text are given by the bits of its characters, and reading them is the inverse of
writing them. Main statement: exactly the forms of texts are accepted. The first byte of a unit is
told apart from those behind it, so what no form holds is rejected wherever it stands.

* `ModifiedUtf8.characterForm_eq`: the bytes of a character are those of its units.
* `ModifiedUtf8.IllFormed`, `ModifiedUtf8.decode_illFormed`: what no form holds is rejected wherever
  it stands.
* `ModifiedUtf8.decode_iff_encode`: writing a text and reading it are inverse to each other.
-/

namespace Preverification.ModifiedUtf8

/-! ### Bits of characters -/

/-- The bytes of a character, by the bits of its code. Up to seven bits are one byte, except for the
character zero; up to eleven are two bytes, and up to sixteen are three. Characters with more bits
are two halves of three bytes each, and the number of their plane is one less in the form. -/
def characterForm (c : Char) : Bytes :=
  let code := c.val
  if 0 < code ∧ code < 0x80 then [code.toUInt8]
  else if code < 0x800 then
    [(code >>> 6 &&& 0x1F).toUInt8 ||| 0xC0, (code &&& 0x3F).toUInt8 ||| 0x80]
  else if code < 0x10000 then
    [(code >>> 12 &&& 0x0F).toUInt8 ||| 0xE0, (code >>> 6 &&& 0x3F).toUInt8 ||| 0x80,
      (code &&& 0x3F).toUInt8 ||| 0x80]
  else
    [0xED, ((code >>> 16 &&& 0x0F).toUInt8 - 1) &&& 0x0F ||| 0xA0,
      (code >>> 10 &&& 0x3F).toUInt8 ||| 0x80,
      0xED, (code >>> 6 &&& 0x1F).toUInt8 ||| 0xB0, (code &&& 0x3F).toUInt8 ||| 0x80]

/-- A mask keeps the last bits. -/
theorem toUInt8_and_mask (code : UInt32) {mask : UInt32} (width : Nat)
    (hmask : mask.toNat = 2 ^ width - 1) :
    (code &&& mask).toUInt8 = UInt8.ofNat (code.toNat % 2 ^ width) := by
  rw [← UInt8.toNat_inj, UInt32.toNat_toUInt8, UInt32.toNat_and, hmask,
    Nat.and_two_pow_sub_one_eq_mod, UInt8.toNat_ofNat']

/-- A mark in front of some bits is added to them. -/
theorem or_mark (mark : Nat) {width bits : Nat} (h : bits < 2 ^ width) :
    UInt8.ofNat bits ||| UInt8.ofNat (2 ^ width * mark) = UInt8.ofNat (2 ^ width * mark + bits) := by
  rw [← UInt8.ofNat_or, Nat.or_comm, Nat.two_pow_add_eq_or_of_lt h]

/-- The last six bits make a byte that goes on. -/
theorem lastBits_eq (code : UInt32) :
    (code &&& 0x3F).toUInt8 ||| 0x80 = UInt8.ofNat (0x80 + code.toNat % 64) := by
  rw [toUInt8_and_mask code 6 rfl]
  exact or_mark 2 (Nat.mod_lt code.toNat (by decide))

/-- The bits above some others are a quotient. -/
theorem toNat_shiftRight_code (c : Char) (shift : UInt32) :
    (c.val >>> shift).toNat = c.toNat / 2 ^ (shift.toNat % 32) := by
  rw [UInt32.toNat_shiftRight, Nat.shiftRight_eq_div_pow]
  rfl

/-- The halves of a character beyond the first plane are surrogates. -/
theorem surrogateForms_eq {c : Char} (h : 0x10000 ≤ c.toNat) :
    encodeUnit (0xD800 + (c.toNat - 0x10000) / 0x400) ++
        encodeUnit (0xDC00 + (c.toNat - 0x10000) % 0x400) =
      ([0xED, ((c.val >>> 16 &&& 0x0F).toUInt8 - 1) &&& 0x0F ||| 0xA0,
        (c.val >>> 10 &&& 0x3F).toUInt8 ||| 0x80,
        0xED, (c.val >>> 6 &&& 0x1F).toUInt8 ||| 0xB0, (c.val &&& 0x3F).toUInt8 ||| 0x80] :
        Bytes) := by
  have hvalid : c.toNat < 0xD800 ∨ 0xDFFF < c.toNat ∧ c.toNat < 0x110000 := c.valid
  -- the plane is stored less one, and the other bits are cut in three
  have hplane : ((c.val >>> 16 &&& 0x0F).toUInt8 - 1) &&& 0x0F ||| 0xA0 =
      UInt8.ofNat (0xA0 + (c.toNat / 0x10000 - 1)) := by
    have hall : ∀ plane < 16, ((UInt8.ofNat ((plane + 1) % 16) - 1) &&& 0x0F) ||| 0xA0 =
        UInt8.ofNat (0xA0 + plane) := by decide
    have hsucc : c.toNat / 0x10000 - 1 + 1 = c.toNat / 0x10000 := by omega
    rw [toUInt8_and_mask _ 4 rfl, toNat_shiftRight_code, ← hall _ (by omega), hsucc]
    rfl
  have hhalf : (c.val >>> 6 &&& 0x1F).toUInt8 ||| 0xB0 =
      UInt8.ofNat (0xB0 + c.toNat / 64 % 16) := by
    have hall : ∀ bits < 32, UInt8.ofNat bits ||| 0xB0 = UInt8.ofNat (0xB0 + bits % 16) := by decide
    have hbits : (c.val >>> 6 &&& 0x1F).toUInt8 = UInt8.ofNat (c.toNat / 64 % 32) := by
      rw [toUInt8_and_mask _ 5 rfl, toNat_shiftRight_code]
      rfl
    rw [hbits, hall _ (Nat.mod_lt _ (by decide)), Nat.mod_mod_of_dvd _ (by decide)]
  rw [hplane, hhalf, lastBits_eq, lastBits_eq, toNat_shiftRight_code]
  change _ = [UInt8.ofNat 0xED, _, UInt8.ofNat (0x80 + c.toNat / 0x400 % 64), UInt8.ofNat 0xED, _,
    UInt8.ofNat (0x80 + c.toNat % 64)]
  -- the numbers that stand in the bytes
  have hlead : 0xE0 + (0xD800 + (c.toNat - 0x10000) / 0x400) / 4096 = 0xED := by omega
  have hsecond : 0x80 + (0xD800 + (c.toNat - 0x10000) / 0x400) / 64 % 64 =
      0xA0 + (c.toNat / 0x10000 - 1) := by omega
  have hthird : (0xD800 + (c.toNat - 0x10000) / 0x400) % 64 = c.toNat / 0x400 % 64 := by omega
  have hlead' : 0xE0 + (0xDC00 + (c.toNat - 0x10000) % 0x400) / 4096 = 0xED := by omega
  have hsecond' : 0x80 + (0xDC00 + (c.toNat - 0x10000) % 0x400) / 64 % 64 =
      0xB0 + c.toNat / 64 % 16 := by omega
  have hthird' : (0xDC00 + (c.toNat - 0x10000) % 0x400) % 64 = c.toNat % 64 := by omega
  -- both halves are beyond what two bytes hold
  unfold encodeUnit
  rw [if_neg (by omega), if_neg (by omega), if_neg (by omega), if_neg (by omega), hlead, hsecond,
    hthird, hlead', hsecond', hthird']
  rfl

/-- The bytes of a character are those of its units. -/
theorem characterForm_eq (c : Char) : characterForm c = (units c).flatMap encodeUnit := by
  -- the cases compare code points, and units are compared as numbers
  have hbelow : ∀ bound : UInt32, c.val < bound ↔ c.toNat < bound.toNat :=
    fun _ => UInt32.lt_iff_toNat_lt
  have hone : 0 < c.val ∧ c.val < 0x80 ↔ 0 < c.toNat ∧ c.toNat < 0x80 :=
    and_congr UInt32.lt_iff_toNat_lt (hbelow 0x80)
  have htwo : c.val < 0x800 ↔ c.toNat < 0x800 := hbelow 0x800
  have hthree : c.val < 0x10000 ↔ c.toNat < 0x10000 := hbelow 0x10000
  unfold characterForm units
  simp only [hone, htwo, hthree]
  -- up to three bytes hold the bits of one unit; beyond them there are two units
  by_cases hplane : c.toNat < 0x10000
  · rw [if_pos hplane, if_pos hplane, List.flatMap_singleton, encodeUnit]
    split
    · rw [← UInt8.ofNat_uInt32ToNat]
      rfl
    · split
      · have hlead : (c.val >>> 6 &&& 0x1F).toUInt8 ||| 0xC0 = UInt8.ofNat (0xC0 + c.toNat / 64) := by
          have hlt : c.toNat / 64 < 2 ^ 5 := by omega
          have hmod : c.toNat / 2 ^ ((6 : UInt32).toNat % 32) % 2 ^ 5 = c.toNat / 64 :=
            Nat.mod_eq_of_lt hlt
          rw [toUInt8_and_mask _ 5 rfl, toNat_shiftRight_code, hmod]
          exact or_mark 6 hlt
        rw [hlead, lastBits_eq]
        rfl
      · have hlead : (c.val >>> 12 &&& 0x0F).toUInt8 ||| 0xE0 =
            UInt8.ofNat (0xE0 + c.toNat / 4096) := by
          have hlt : c.toNat / 4096 < 2 ^ 4 := by omega
          have hmod : c.toNat / 2 ^ ((12 : UInt32).toNat % 32) % 2 ^ 4 = c.toNat / 4096 :=
            Nat.mod_eq_of_lt hlt
          rw [toUInt8_and_mask _ 4 rfl, toNat_shiftRight_code, hmod]
          exact or_mark 14 hlt
        rw [hlead, lastBits_eq, lastBits_eq, toNat_shiftRight_code]
        rfl
  · rw [if_neg (by omega), if_neg (by omega), if_neg hplane, if_neg hplane, List.flatMap_cons,
      List.flatMap_singleton, surrogateForms_eq (Nat.le_of_not_lt hplane)]

/-! ### What no form holds -/

/-- The two bytes that a unit has, if it takes two. -/
def twoBytes (unit : Nat) : Bytes := [UInt8.ofNat (0xC0 + unit / 64), UInt8.ofNat (0x80 + unit % 64)]

/-- The three bytes that a unit has, if it takes three. -/
def threeBytes (unit : Nat) : Bytes :=
  [UInt8.ofNat (0xE0 + unit / 4096), UInt8.ofNat (0x80 + unit / 64 % 64),
    UInt8.ofNat (0x80 + unit % 64)]

/-- Units that are the first half of a character. -/
def IsHigh (unit : Nat) : Prop := 0xD800 ≤ unit ∧ unit < 0xDC00

/-- Units that are the second half of a character. -/
def IsLow (unit : Nat) : Prop := 0xDC00 ≤ unit ∧ unit < 0xE000

/-- Bytes that stand behind the first byte of a unit. -/
def IsContinuation (byte : UInt8) : Prop := 0x80 ≤ byte.toNat ∧ byte.toNat < 0xC0

/-- Somewhere in these bytes stands what no form holds. -/
inductive IllFormed : Bytes → Prop where
  -- a byte is zero
  | zero (front rest : Bytes) : IllFormed (front ++ 0 :: rest)
  -- a form of four or more bytes starts
  | fourBytes (front rest : Bytes) {lead : UInt8} (h : 0xF0 ≤ lead.toNat) :
    IllFormed (front ++ lead :: rest)
  -- a unit that takes one byte has two
  | overlongTwo (front rest : Bytes) {unit : Nat} (hpos : 0 < unit) (h : unit < 0x80) :
    IllFormed (front ++ twoBytes unit ++ rest)
  -- a unit that takes two bytes or one has three
  | overlongThree (front rest : Bytes) {unit : Nat} (h : unit < 0x800) :
    IllFormed (front ++ threeBytes unit ++ rest)
  -- a unit of two bytes lacks the second one
  | truncatedTwo (front rest : Bytes) {lead : UInt8} (hle : 0xC0 ≤ lead.toNat)
    (hlt : lead.toNat < 0xE0)
    (h : ∀ second more, rest = second :: more → ¬ IsContinuation second) :
    IllFormed (front ++ lead :: rest)
  -- a unit of three bytes lacks one of the last two
  | truncatedThree (front rest : Bytes) {lead : UInt8} (hle : 0xE0 ≤ lead.toNat)
    (hlt : lead.toNat < 0xF0)
    (h : ∀ second third more, rest = second :: third :: more →
      ¬ (IsContinuation second ∧ IsContinuation third)) :
    IllFormed (front ++ lead :: rest)
  -- a first half of a character has no second half behind it
  | highAlone (front rest : Bytes) {high : Nat} (hhigh : IsHigh high)
    (h : ∀ low more, IsLow low → rest ≠ threeBytes low ++ more) :
    IllFormed (front ++ threeBytes high ++ rest)
  -- a second half of a character has no first half in front of it
  | lowAlone (front rest : Bytes) {low : Nat} (hlow : IsLow low)
    (h : ∀ high before, IsHigh high → front ≠ before ++ threeBytes high) :
    IllFormed (front ++ threeBytes low ++ rest)

/-- An element of concatenated lists stands in one of them. -/
theorem flatMap_eq_append_cons {α β : Type} {f : α → List β} {l : List α} {front rest : List β}
    {x : β} (h : l.flatMap f = front ++ x :: rest) :
    ∃ earlier a later before behind, l = earlier ++ a :: later ∧ f a = before ++ x :: behind ∧
      front = earlier.flatMap f ++ before ∧ rest = behind ++ later.flatMap f := by
  induction l generalizing front with
  | nil => simp at h
  | cons a l ih =>
    rw [List.flatMap_cons, List.append_eq_append_iff] at h
    rcases h with ⟨front', rfl, hrest⟩ | ⟨behind, hfirst, hrest⟩
    · obtain ⟨earlier, b, later, before, behind, rfl, hb, rfl, rfl⟩ := ih hrest
      exact ⟨a :: earlier, b, later, before, behind, rfl, hb, by simp, rfl⟩
    · cases behind with
      | nil =>
        obtain ⟨earlier, b, later, before, behind, rfl, hb, hfront, rfl⟩ :=
          @ih [] hrest.symm
        refine ⟨a :: earlier, b, later, before, behind, rfl, hb, ?_, rfl⟩
        rw [List.flatMap_cons, List.append_assoc, ← hfront, hfirst, List.append_nil, List.append_nil]
      | cons y behind =>
        obtain ⟨rfl, rfl⟩ := List.cons.inj hrest
        exact ⟨[], a, l, front, behind, rfl, hfirst, rfl, rfl⟩

/-- Behind its first byte, a unit has continuations only. -/
theorem isContinuation_of_encodeUnit {unit : Nat} {before behind : Bytes} {byte : UInt8}
    (h : encodeUnit unit = before ++ byte :: behind) (hbefore : before ≠ []) :
    IsContinuation byte := by
  have hcontinuation : ∀ bits, IsContinuation (UInt8.ofNat (0x80 + bits % 64)) := by
    intro bits
    unfold IsContinuation
    rw [UInt8.toNat_ofNat']
    omega
  -- all bytes but the first have six bits behind the mark of a continuation
  have htail : ∀ other ∈ (encodeUnit unit).tail, IsContinuation other := by
    unfold encodeUnit
    intro other hmem
    split at hmem
    · cases hmem
    · split at hmem
      · rcases List.mem_cons.1 hmem with rfl | hmem
        · exact hcontinuation _
        · cases hmem
      · rcases List.mem_cons.1 hmem with rfl | hmem
        · exact hcontinuation _
        · rcases List.mem_cons.1 hmem with rfl | hmem
          · exact hcontinuation _
          · cases hmem
  obtain ⟨first, before, rfl⟩ := List.exists_cons_of_ne_nil hbefore
  refine htail byte ?_
  rw [h]
  simp

/-- Bytes that are accepted are cut into units in front of every byte that starts one. -/
theorem exists_units_of_decode {front rest : Bytes} {lead : UInt8} {text : String}
    (h : decode (front ++ lead :: rest) = some text) (hlead : ¬ IsContinuation lead) :
    ∃ earlier unit later, text.toList.flatMap units = earlier ++ unit :: later ∧ unit < 0x10000 ∧
      front = earlier.flatMap encodeUnit ∧ lead :: rest = encodeUnit unit ++ later.flatMap encodeUnit := by
  have hencode := encode_of_decode h
  obtain ⟨earlier, unit, later, before, behind, hunits, hunit, rfl, rfl⟩ :=
    flatMap_eq_append_cons hencode
  have hnone : before = [] := by
    by_contra hbefore
    exact hlead (isContinuation_of_encodeUnit hunit hbefore)
  subst hnone
  refine ⟨earlier, unit, later, hunits, ?_, List.append_nil _, ?_⟩
  · have hmem : unit ∈ text.toList.flatMap units := by
      rw [hunits]
      simp
    obtain ⟨c, -, hc⟩ := List.mem_flatMap.1 hmem
    exact units_lt c unit hc
  · rw [hunit]
    rfl

/-- What starts as no unit does is rejected. -/
theorem decode_eq_none_of_takeUnit? {front rest : Bytes} {lead : UInt8}
    (hlead : ¬ IsContinuation lead) (h : takeUnit? (lead :: rest) = none) :
    decode (front ++ lead :: rest) = none := by
  cases hdecode : decode (front ++ lead :: rest) with
  | none => rfl
  | some text =>
    obtain ⟨earlier, unit, later, -, hlt, -, hrest⟩ := exists_units_of_decode hdecode hlead
    rw [hrest, takeUnit?_encodeUnit hlt] at h
    cases h

/-- A unit of a character is no surrogate and stands alone, or it is one of two halves. -/
theorem units_cases {c : Char} {before behind : List Nat} {unit : Nat}
    (h : units c = before ++ unit :: behind) :
    ¬ IsHigh unit ∧ ¬ IsLow unit ∨
      (IsHigh unit ∧ ∃ low, IsLow low ∧ behind = [low]) ∨
      IsLow unit ∧ ∃ high, IsHigh high ∧ before = [high] := by
  have hvalid : c.toNat < 0xD800 ∨ 0xDFFF < c.toNat ∧ c.toNat < 0x110000 := c.valid
  unfold IsHigh IsLow
  unfold units at h
  split at h
  · rcases List.singleton_eq_append_iff.1 h with ⟨-, hunit⟩ | ⟨-, hnone⟩
    · obtain ⟨rfl, -⟩ := List.cons.inj hunit
      left
      omega
    · cases hnone
  · -- of two units, the first one is high and the second one low
    match before, h with
    | [], h =>
      obtain ⟨rfl, rfl⟩ := List.cons.inj h
      refine .inr (.inl ⟨by omega, _, ?_, rfl⟩)
      omega
    | [high], h =>
      obtain ⟨hhigh, hrest⟩ := List.cons.inj h
      obtain ⟨rfl, -⟩ := List.cons.inj hrest
      refine .inr (.inr ⟨by omega, high, ?_, rfl⟩)
      omega
    | _ :: _ :: _, h => simp at h

/-- A unit that needs three bytes has these. -/
theorem threeBytes_eq {unit : Nat} (h : 0x800 ≤ unit) : threeBytes unit = encodeUnit unit := by
  unfold encodeUnit
  rw [if_neg (by omega), if_neg (by omega)]
  rfl

/-- What starts a unit of several bytes is no continuation. -/
theorem not_isContinuation_ofNat {n : Nat} (h : 0xC0 ≤ n) (hlt : n < 0x100) :
    ¬ IsContinuation (UInt8.ofNat n) := by
  unfold IsContinuation
  rw [UInt8.toNat_ofNat']
  omega

/-- Where a surrogate stands in bytes that are accepted, it is a half of a character. -/
theorem exists_units_of_surrogate {front rest : Bytes} {unit : Nat} {text : String}
    (h : decode (front ++ threeBytes unit ++ rest) = some text) (hunit : 0x800 ≤ unit)
    (hlt : unit < 0x10000) :
    ∃ c earlier later before behind, units c = before ++ unit :: behind ∧
      front = earlier ++ before.flatMap encodeUnit ∧ rest = behind.flatMap encodeUnit ++ later := by
  have hlead : ¬ IsContinuation (UInt8.ofNat (0xE0 + unit / 4096)) :=
    not_isContinuation_ofNat (by omega) (by omega)
  have hform : front ++ threeBytes unit ++ rest = front ++ UInt8.ofNat (0xE0 + unit / 4096) ::
      (threeBytes unit ++ rest).tail := by
    rw [List.append_assoc]
    rfl
  rw [hform] at h
  obtain ⟨earlier, found, later, hunits, hfound, rfl, hrest⟩ := exists_units_of_decode h hlead
  -- the same unit is read
  change threeBytes unit ++ rest = _ at hrest
  have htake := takeUnit?_encodeUnit hlt rest
  rw [← threeBytes_eq hunit, hrest, takeUnit?_encodeUnit hfound] at htake
  obtain ⟨rfl, rfl⟩ := Prod.mk.inj (Option.some.inj htake)
  obtain ⟨chars, c, chars', before, behind, -, hc, rfl, rfl⟩ := flatMap_eq_append_cons hunits
  exact ⟨c, _, _, before, behind, hc, List.flatMap_append, List.flatMap_append⟩

/-- A unit that needs one byte is not read from two. -/
theorem takeUnit?_overlongTwo {unit : Nat} (hpos : 0 < unit) (h : unit < 0x80) (rest : Bytes) :
    takeUnit? (twoBytes unit ++ rest) = none := by
  have hlead : (UInt8.ofNat (0xC0 + unit / 64)).toNat = 0xC0 + unit / 64 := by
    rw [UInt8.toNat_ofNat']
    omega
  have hlow : continuation? (UInt8.ofNat (0x80 + unit % 64)) = some (unit % 64) :=
    continuation?_eq_some.2 ⟨rfl, Nat.mod_lt _ (by omega)⟩
  have hunit : (0xC0 + unit / 64 - 0xC0) * 64 + unit % 64 = unit := by omega
  simp only [twoBytes, List.cons_append, List.nil_append, takeUnit?, hlead, hlow,
    Option.bind_eq_bind, Option.bind_some, hunit]
  rw [if_neg (by omega), if_pos (by omega), if_pos (by omega)]

/-- One that needs two is not read from three. -/
theorem takeUnit?_overlongThree {unit : Nat} (h : unit < 0x800) (rest : Bytes) :
    takeUnit? (threeBytes unit ++ rest) = none := by
  have hlead : (UInt8.ofNat (0xE0 + unit / 4096)).toNat = 0xE0 + unit / 4096 := by
    rw [UInt8.toNat_ofNat']
    omega
  have hmiddle : continuation? (UInt8.ofNat (0x80 + unit / 64 % 64)) = some (unit / 64 % 64) :=
    continuation?_eq_some.2 ⟨rfl, Nat.mod_lt _ (by omega)⟩
  have hlow : continuation? (UInt8.ofNat (0x80 + unit % 64)) = some (unit % 64) :=
    continuation?_eq_some.2 ⟨rfl, Nat.mod_lt _ (by omega)⟩
  have hunit : (0xE0 + unit / 4096 - 0xE0) * 4096 + unit / 64 % 64 * 64 + unit % 64 = unit := by
    omega
  simp only [threeBytes, List.cons_append, List.nil_append, takeUnit?, hlead, hmiddle, hlow,
    Option.bind_eq_bind, Option.bind_some, hunit]
  rw [if_neg (by omega), if_neg (by omega), if_pos (by omega), if_pos (by omega)]

theorem continuation?_eq_none {byte : UInt8} (h : ¬ IsContinuation byte) :
    continuation? byte = none := if_neg h

/-- A unit of two bytes that is read has a second byte that is a continuation. -/
theorem takeUnit?_truncatedTwo {lead : UInt8} {rest : Bytes} (hle : 0xC0 ≤ lead.toNat)
    (hlt : lead.toNat < 0xE0) (h : ∀ second more, rest = second :: more → ¬ IsContinuation second) :
    takeUnit? (lead :: rest) = none := by
  unfold takeUnit?
  dsimp only
  rw [if_neg (by omega), if_pos ⟨hle, hlt⟩]
  cases rest with
  | nil => rfl
  | cons second more =>
    dsimp only
    rw [continuation?_eq_none (h second more rfl)]
    rfl

/-- A unit of three bytes that is read has two continuations. -/
theorem takeUnit?_truncatedThree {lead : UInt8} {rest : Bytes} (hle : 0xE0 ≤ lead.toNat)
    (hlt : lead.toNat < 0xF0) (h : ∀ second third more, rest = second :: third :: more →
      ¬ (IsContinuation second ∧ IsContinuation third)) :
    takeUnit? (lead :: rest) = none := by
  unfold takeUnit?
  dsimp only
  rw [if_neg (by omega), if_neg (by omega), if_pos ⟨hle, hlt⟩]
  match rest, h with
  | [], _ => rfl
  | [_], _ => rfl
  | second :: third :: more, h =>
    dsimp only
    by_cases hsecond : IsContinuation second
    · rw [continuation?_eq_none fun hthird => h second third more rfl ⟨hsecond, hthird⟩]
      cases continuation? second <;> rfl
    · rw [continuation?_eq_none hsecond]
      rfl

/-- What no form holds is rejected wherever it stands. -/
theorem decode_illFormed {bytes : Bytes} (h : IllFormed bytes) : decode bytes = none := by
  -- each form but the last two is stopped by the unit that is taken at its fault
  cases h with
  | zero front rest => exact decode_eq_none_of_takeUnit? (by unfold IsContinuation; decide) rfl
  | @fourBytes front rest lead h =>
    refine decode_eq_none_of_takeUnit? (fun hlead => ?_) ?_
    · have := hlead.2
      omega
    · unfold takeUnit?
      dsimp only
      rw [if_neg (by omega), if_neg (by omega), if_neg (by omega)]
  | overlongTwo front rest hpos h =>
    rw [List.append_assoc]
    exact decode_eq_none_of_takeUnit? (not_isContinuation_ofNat (by omega) (by omega))
      (takeUnit?_overlongTwo hpos h rest)
  | overlongThree front rest h =>
    rw [List.append_assoc]
    exact decode_eq_none_of_takeUnit? (not_isContinuation_ofNat (by omega) (by omega))
      (takeUnit?_overlongThree h rest)
  | truncatedTwo front rest hle hlt h =>
    exact decode_eq_none_of_takeUnit? (fun hlead => Nat.not_lt.2 hle hlead.2)
      (takeUnit?_truncatedTwo hle hlt h)
  | truncatedThree front rest hle hlt h =>
    exact decode_eq_none_of_takeUnit? (fun hlead => by have := hlead.2; omega)
      (takeUnit?_truncatedThree hle hlt h)
  -- a surrogate that is accepted stands in the units of a character, next to the other one
  | @highAlone front rest high hhigh h =>
    obtain ⟨hle, hlt⟩ := hhigh
    refine Option.eq_none_iff_forall_ne_some.2 fun text hdecode => ?_
    obtain ⟨c, earlier, later, before, behind, hc, -, hrest⟩ :=
      exists_units_of_surrogate hdecode (by omega) (by omega)
    rcases units_cases hc with ⟨hnot, -⟩ | ⟨-, low, hlow, rfl⟩ | ⟨⟨hle', -⟩, -⟩
    · exact hnot ⟨hle, hlt⟩
    · refine h low later hlow ?_
      rw [hrest, List.flatMap_singleton, threeBytes_eq (by have := hlow.1; omega)]
    · omega
  | @lowAlone front rest low hlow h =>
    obtain ⟨hle, hlt⟩ := hlow
    refine Option.eq_none_iff_forall_ne_some.2 fun text hdecode => ?_
    obtain ⟨c, earlier, later, before, behind, hc, hfront, -⟩ :=
      exists_units_of_surrogate hdecode (by omega) (by omega)
    rcases units_cases hc with ⟨-, hnot⟩ | ⟨⟨-, hlt'⟩, -⟩ | ⟨-, high, hhigh, rfl⟩
    · exact hnot ⟨hle, hlt⟩
    · omega
    · refine h high earlier hhigh ?_
      rw [hfront, List.flatMap_singleton, threeBytes_eq (by have := hhigh.1; omega)]

/-! ### All texts -/

/-- **Writing a text and reading it are inverse to each other.** The bytes that are accepted are
exactly the forms of texts, which are given by the bits of their characters; so whatever no form
holds is rejected. -/
theorem decode_iff_encode :
    (∀ (bytes : Bytes) (text : String), decode bytes = some text ↔ encode text = bytes) ∧
      (∀ text : String, encode text = text.toList.flatMap characterForm) ∧
      ∀ bytes, IllFormed bytes → decode bytes = none := by
  refine ⟨fun bytes text => ⟨encode_of_decode, ?_⟩, fun text => ?_, fun _ => decode_illFormed⟩
  · rintro rfl
    exact decode_encode text
  · have hform : characterForm = fun c => (units c).flatMap encodeUnit := funext characterForm_eq
    rw [hform, encode, List.flatMap_assoc]

/-- A zero character takes two bytes and a character beyond the first plane six; half of it is
rejected. -/
theorem twoPlanes_decode :
    encode "a\x00😀" = [0x61, 0xC0, 0x80, 0xED, 0xA0, 0xBD, 0xED, 0xB8, 0x80] ∧
      decode [0x61, 0xC0, 0x80, 0xED, 0xA0, 0xBD, 0xED, 0xB8, 0x80] = some "a\x00😀" ∧
      IllFormed [0x61, 0xED, 0xA0, 0xBD, 0x61] ∧ decode [0x61, 0xED, 0xA0, 0xBD, 0x61] = none := by
  have hencode : encode "a\x00😀" = [0x61, 0xC0, 0x80, 0xED, 0xA0, 0xBD, 0xED, 0xB8, 0x80] := by
    decide +kernel
  have halone : IllFormed [0x61, 0xED, 0xA0, 0xBD, 0x61] := by
    refine @IllFormed.highAlone [0x61] [0x61] 0xD83D ⟨by decide, by decide⟩ ?_
    intro low more _ h
    have hlength := congrArg List.length h
    simp [threeBytes] at hlength
  exact ⟨hencode, (decode_iff_encode.1 _ _).2 hencode, halone, decode_iff_encode.2.2 _ halone⟩

end Preverification.ModifiedUtf8
