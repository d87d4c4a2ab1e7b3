import Preverification.ModifiedUtf8
import Preverification.Proofs.Reading

/-!
# Texts and their bytes

A text has one form in modified UTF-8, and bytes that are accepted are the form of the text that
they are read as. Both halves hold for a single unit, and for a single character; they carry over to
sequences one element at a time.

* `ModifiedUtf8.takeUnit?_encodeUnit`, `ModifiedUtf8.eq_encodeUnit_of_takeUnit?`: both halves for a
  unit.
* `ModifiedUtf8.joinUnits_units`, `ModifiedUtf8.eq_encode_of_joinUnits`: both halves for characters.
* `ModifiedUtf8.decode_encode`, `ModifiedUtf8.encode_of_decode`: both halves for texts.
-/

namespace Preverification.ModifiedUtf8

/-! ### Units -/

/-- A byte that goes on with a unit has six bits of it. -/
theorem continuation?_eq_some {byte : UInt8} {bits : Nat} :
    continuation? byte = some bits ↔ byte = UInt8.ofNat (0x80 + bits) ∧ bits < 0x40 := by
  have hbyte := byte.toNat_lt
  unfold continuation?
  constructor
  · intro h
    split at h
    · rename_i hin
      obtain rfl := Option.some.inj h
      refine ⟨UInt8.toNat_inj.1 ?_, by omega⟩
      rw [UInt8.toNat_ofNat']
      omega
    · cases h
  · rintro ⟨rfl, hlt⟩
    -- a byte with these bits is not cut off
    have hnat : (UInt8.ofNat (0x80 + bits)).toNat = 0x80 + bits := by
      rw [UInt8.toNat_ofNat']
      omega
    rw [hnat, if_pos (by omega), Nat.add_sub_cancel_left]

/-- The bytes of a unit are read as that unit, whatever is behind them. -/
theorem takeUnit?_encodeUnit {unit : Nat} (h : unit < 0x10000) (rest : Bytes) :
    takeUnit? (encodeUnit unit ++ rest) = some (unit, rest) := by
  unfold encodeUnit
  split
  · -- one byte
    rename_i hone
    have hlead : (UInt8.ofNat unit).toNat = unit := by
      rw [UInt8.toNat_ofNat']
      omega
    simp only [List.singleton_append, takeUnit?, hlead]
    rw [if_pos hone]
  · rename_i hone
    have hlow : continuation? (UInt8.ofNat (0x80 + unit % 64)) = some (unit % 64) :=
      continuation?_eq_some.2 ⟨rfl, Nat.mod_lt _ (by omega)⟩
    split
    · -- two bytes
      rename_i htwo
      have hlead : (UInt8.ofNat (0xC0 + unit / 64)).toNat = 0xC0 + unit / 64 := by
        rw [UInt8.toNat_ofNat']
        omega
      have hunit : (0xC0 + unit / 64 - 0xC0) * 64 + unit % 64 = unit := by omega
      simp only [List.cons_append, List.nil_append, takeUnit?, hlead, hlow, Option.bind_eq_bind,
        Option.bind_some, hunit]
      rw [if_neg (by omega), if_pos (by omega), if_neg (by omega)]
    · -- three bytes
      rename_i htwo
      have hmiddle : continuation? (UInt8.ofNat (0x80 + unit / 64 % 64)) = some (unit / 64 % 64) :=
        continuation?_eq_some.2 ⟨rfl, Nat.mod_lt _ (by omega)⟩
      have hlead : (UInt8.ofNat (0xE0 + unit / 4096)).toNat = 0xE0 + unit / 4096 := by
        rw [UInt8.toNat_ofNat']
        omega
      have hunit : (0xE0 + unit / 4096 - 0xE0) * 4096 + unit / 64 % 64 * 64 + unit % 64 = unit := by
        omega
      simp only [List.cons_append, List.nil_append, takeUnit?, hlead, hmiddle, hlow,
        Option.bind_eq_bind, Option.bind_some, hunit]
      rw [if_neg (by omega), if_neg (by omega), if_pos (by omega), if_neg (by omega)]

/-- What is read as a unit are the bytes of that unit. -/
theorem eq_encodeUnit_of_takeUnit? {bytes rest : Bytes} {unit : Nat}
    (h : takeUnit? bytes = some (unit, rest)) :
    bytes = encodeUnit unit ++ rest ∧ unit < 0x10000 := by
  cases bytes with
  | nil => cases h
  | cons first bytes =>
    have hfirst := first.toNat_lt
    have hlead : ∀ n, first.toNat = n → first = UInt8.ofNat n := by
      rintro _ rfl
      exact UInt8.ofNat_toNat.symm
    unfold takeUnit? at h
    dsimp only at h
    split at h
    · -- one byte
      rename_i hone
      cases h
      rw [encodeUnit, if_pos hone, ← hlead _ rfl]
      exact ⟨rfl, by omega⟩
    · split at h
      · -- two bytes
        cases bytes with
        | nil => cases h
        | cons second bytes =>
          rw [Option.bind_eq_bind, Option.bind_eq_some_iff] at h
          obtain ⟨bits, hbits, h⟩ := h
          obtain ⟨rfl, hlt⟩ := continuation?_eq_some.1 hbits
          split at h
          · cases h
          · cases h
            have hquotient : ((first.toNat - 0xC0) * 64 + bits) / 64 = first.toNat - 0xC0 := by
              omega
            have hremainder : ((first.toNat - 0xC0) * 64 + bits) % 64 = bits := by omega
            rw [encodeUnit, if_neg (by omega), if_pos (by omega), hquotient, hremainder,
              ← hlead (0xC0 + (first.toNat - 0xC0)) (by omega)]
            exact ⟨rfl, by omega⟩
      · split at h
        · -- three bytes
          match bytes, h with
          | second :: third :: bytes, h =>
            simp only [Option.bind_eq_bind, Option.bind_eq_some_iff] at h
            obtain ⟨high, hhigh, low, hlow, h⟩ := h
            obtain ⟨rfl, hhigh⟩ := continuation?_eq_some.1 hhigh
            obtain ⟨rfl, hlow⟩ := continuation?_eq_some.1 hlow
            split at h
            · cases h
            · cases h
              have hquotient :
                  ((first.toNat - 0xE0) * 4096 + high * 64 + low) / 4096 = first.toNat - 0xE0 := by
                omega
              have hmiddle : ((first.toNat - 0xE0) * 4096 + high * 64 + low) / 64 % 64 = high := by
                omega
              have hremainder : ((first.toNat - 0xE0) * 4096 + high * 64 + low) % 64 = low := by
                omega
              rw [encodeUnit, if_neg (by omega), if_neg (by omega), hquotient, hmiddle, hremainder,
                ← hlead (0xE0 + (first.toNat - 0xE0)) (by omega)]
              exact ⟨rfl, by omega⟩
        · cases h

/-- Each unit takes up some byte. -/
theorem encodeUnit_ne_nil (unit : Nat) : encodeUnit unit ≠ [] := by
  unfold encodeUnit
  split
  · nofun
  · split <;> nofun

/-- Units are read one by one. -/
theorem decodeUnits_encode (found : List Nat) {units : List Nat}
    (h : ∀ unit ∈ units, unit < 0x10000) :
    decodeUnits found (units.flatMap encodeUnit) = some (found.reverse ++ units) := by
  induction units generalizing found with
  | nil =>
    rw [decodeUnits]
    simp
  | cons unit units ih =>
    obtain ⟨hunit, hunits⟩ := List.forall_mem_cons.1 h
    have hne : (encodeUnit unit ++ units.flatMap encodeUnit).isEmpty = false := by
      simp [encodeUnit_ne_nil]
    -- the form of a unit is taken off in one piece
    have htake := takeUnit?_encodeUnit hunit (units.flatMap encodeUnit)
    rw [List.flatMap_cons, decodeUnits, hne, if_neg Bool.false_ne_true]
    split
    · rename_i hnone
      rw [htake] at hnone
      cases hnone
    · rename_i found' rest hsome
      rw [htake] at hsome
      cases hsome
      rw [ih _ hunits]
      simp

/-- What is read as units are the bytes of those units. -/
theorem eq_encode_of_decodeUnits {found units : List Nat} {bytes : Bytes}
    (h : decodeUnits found bytes = some units) :
    ∃ more, units = found.reverse ++ more ∧ bytes = more.flatMap encodeUnit ∧
      ∀ unit ∈ more, unit < 0x10000 := by
  fun_induction decodeUnits found bytes with
  | case1 found bytes hempty =>
    cases h
    exact ⟨[], by simp, List.isEmpty_iff.1 hempty, nofun⟩
  | case2 => cases h
  | case3 found bytes _ unit rest htake _ ih =>
    obtain ⟨more, rfl, rfl, hmore⟩ := ih h
    obtain ⟨rfl, hunit⟩ := eq_encodeUnit_of_takeUnit? htake
    exact ⟨unit :: more, by simp, by simp, List.forall_mem_cons.2 ⟨hunit, hmore⟩⟩

/-! ### Characters -/

/-- A number that is no surrogate is that of its character. -/
theorem toNat_ofNat {n : Nat} (h : n < 0xD800 ∨ 0xDFFF < n ∧ n < 0x110000) :
    (Char.ofNat n).toNat = n := by
  have hvalid : n.isValidChar := h
  unfold Char.ofNat
  rw [dif_pos hvalid]
  rfl

/-- Each unit has sixteen bits. -/
theorem units_lt (c : Char) : ∀ unit ∈ units c, unit < 0x10000 := by
  have hvalid : c.toNat < 0xD800 ∨ 0xDFFF < c.toNat ∧ c.toNat < 0x110000 := c.valid
  unfold units
  split
  · simpa
  · intro unit hmem
    simp only [List.mem_cons, List.not_mem_nil, or_false] at hmem
    omega

/-- The units of a character are read as that character. -/
theorem joinUnits_units (found : List Char) (c : Char) (rest : List Nat) :
    joinUnits found (units c ++ rest) = joinUnits (c :: found) rest := by
  have hvalid : c.toNat < 0xD800 ∨ 0xDFFF < c.toNat ∧ c.toNat < 0x110000 := c.valid
  unfold units
  split
  · rw [List.singleton_append, joinUnits.eq_def]
    dsimp only
    rw [if_pos (by omega), Char.ofNat_toNat]
  · have hjoined : 0x10000 + (0xD800 + (c.toNat - 0x10000) / 0x400 - 0xD800) * 0x400 +
        (0xDC00 + (c.toNat - 0x10000) % 0x400 - 0xDC00) = c.toNat := by omega
    simp only [List.cons_append, List.nil_append, joinUnits]
    rw [if_neg (by omega), if_neg (by omega), if_pos (by omega), hjoined, Char.ofNat_toNat]

/-- Characters are read one by one. -/
theorem joinUnits_encode (found chars : List Char) :
    joinUnits found (chars.flatMap units) = some (found.reverse ++ chars) := by
  induction chars generalizing found with
  | nil => simp [joinUnits]
  | cons c chars ih =>
    rw [List.flatMap_cons, joinUnits_units, ih]
    simp

/-- What is read as characters are the units of those characters. -/
theorem eq_encode_of_joinUnits {found chars : List Char} {us : List Nat}
    (h : joinUnits found us = some chars) (hlt : ∀ unit ∈ us, unit < 0x10000) :
    ∃ more, chars = found.reverse ++ more ∧ us = more.flatMap units := by
  fun_induction joinUnits found us with
  | case1 found =>
    cases h
    exact ⟨[], by simp, rfl⟩
  | case2 found unit rest hplain ih =>
    obtain ⟨hunit, hrest⟩ := List.forall_mem_cons.1 hlt
    obtain ⟨more, rfl, rfl⟩ := ih h hrest
    have hchar : (Char.ofNat unit).toNat = unit := toNat_ofNat (by omega)
    refine ⟨Char.ofNat unit :: more, by simp, ?_⟩
    rw [List.flatMap_cons, units, hchar, if_pos hunit]
    rfl
  | case3 => cases h
  | case4 found unit hplain hhigh low rest hlow ih =>
    obtain ⟨hunit, hrest⟩ := List.forall_mem_cons.1 hlt
    obtain ⟨_, hrest⟩ := List.forall_mem_cons.1 hrest
    obtain ⟨more, rfl, rfl⟩ := ih h hrest
    have hchar := @toNat_ofNat (0x10000 + (unit - 0xD800) * 0x400 + (low - 0xDC00)) (by omega)
    refine ⟨Char.ofNat (0x10000 + (unit - 0xD800) * 0x400 + (low - 0xDC00)) :: more, by simp, ?_⟩
    -- a pair of surrogates holds the upper and the lower ten bits
    have hquotient :
        (0x10000 + (unit - 0xD800) * 0x400 + (low - 0xDC00) - 0x10000) / 0x400 = unit - 0xD800 := by
      omega
    have hremainder :
        (0x10000 + (unit - 0xD800) * 0x400 + (low - 0xDC00) - 0x10000) % 0x400 = low - 0xDC00 := by
      omega
    rw [List.flatMap_cons, units, hchar, if_neg (by omega), hquotient, hremainder,
      Nat.add_sub_cancel' (by omega), Nat.add_sub_cancel' hlow.1]
    rfl
  | case5 => cases h
  | case6 => cases h

/-! ### Texts -/

/-- The form of a text is read as that text. -/
theorem decode_encode (text : String) : decode (encode text) = some text := by
  have hunits : ∀ unit ∈ text.toList.flatMap units, unit < 0x10000 := by
    intro unit hmem
    obtain ⟨c, _, hunit⟩ := List.mem_flatMap.1 hmem
    exact units_lt c unit hunit
  unfold decode encode
  rw [decodeUnits_encode [] hunits, Option.bind_some, List.reverse_nil, List.nil_append,
    joinUnits_encode]
  simp

/-- Bytes that are read as a text are the form of that text. -/
theorem encode_of_decode {bytes : Bytes} {text : String} (h : decode bytes = some text) :
    encode text = bytes := by
  unfold decode at h
  obtain ⟨chars, hchars, rfl⟩ := Option.map_eq_some_iff.1 h
  obtain ⟨us, hunits, hjoined⟩ := Option.bind_eq_some_iff.1 hchars
  obtain ⟨us, rfl, rfl, hlt⟩ := eq_encode_of_decodeUnits hunits
  obtain ⟨chars, rfl, rfl⟩ := eq_encode_of_joinUnits hjoined hlt
  unfold encode
  simp

end Preverification.ModifiedUtf8
