import Preverification.Bytes

/-!
# Modified UTF-8

The texts of a class file are sequences of UTF-16 units, each in one, two or three bytes. The unit
zero takes two bytes, so that no byte of a text is zero. Only the shortest form of any other unit
is accepted, and surrogates only in pairs, so a text has exactly one form.
-/

namespace Preverification.ModifiedUtf8

/-- The UTF-16 units of a character: one, or a pair of surrogates. -/
def units (c : Char) : List Nat :=
  if c.toNat < 0x10000 then [c.toNat]
  else [0xD800 + (c.toNat - 0x10000) / 0x400, 0xDC00 + (c.toNat - 0x10000) % 0x400]

/-- The bytes of a unit. -/
def encodeUnit (unit : Nat) : Bytes :=
  if 0 < unit ∧ unit < 0x80 then [UInt8.ofNat unit]
  else if unit < 0x800 then [UInt8.ofNat (0xC0 + unit / 64), UInt8.ofNat (0x80 + unit % 64)]
  else [UInt8.ofNat (0xE0 + unit / 4096), UInt8.ofNat (0x80 + unit / 64 % 64),
    UInt8.ofNat (0x80 + unit % 64)]

/-- The bytes of a text. -/
def encode (text : String) : Bytes := (text.toList.flatMap units).flatMap encodeUnit

/-- The six bits that a byte adds to a unit that an earlier byte has begun. -/
def continuation? (byte : UInt8) : Option Nat :=
  if 0x80 ≤ byte.toNat ∧ byte.toNat < 0xC0 then some (byte.toNat - 0x80) else none

/-- Takes a unit off the front of some bytes. -/
def takeUnit? : Bytes → Option (Nat × Bytes)
  | [] => none
  | first :: rest =>
    let lead := first.toNat
    if 0 < lead ∧ lead < 0x80 then some (lead, rest)
    else if 0xC0 ≤ lead ∧ lead < 0xE0 then
      match rest with
      | second :: rest => do
        let unit := (lead - 0xC0) * 64 + (← continuation? second)
        if unit ≠ 0 ∧ unit < 0x80 then none else some (unit, rest)
      | [] => none
    else if 0xE0 ≤ lead ∧ lead < 0xF0 then
      match rest with
      | second :: third :: rest => do
        let unit := (lead - 0xE0) * 4096 + (← continuation? second) * 64 + (← continuation? third)
        if unit < 0x800 then none else some (unit, rest)
      | _ => none
    else none

theorem length_of_takeUnit? {bytes rest : Bytes} {unit : Nat}
    (h : takeUnit? bytes = some (unit, rest)) : rest.length < bytes.length := by
  unfold takeUnit? at h
  split at h
  · cases h
  · dsimp only at h
    split at h
    · cases h; simp
    · split at h
      · split at h
        · rename_i second r
          cases hc : continuation? second with
          | none => simp [hc] at h
          | some k =>
            simp only [hc, Option.bind_eq_bind, Option.bind_some] at h
            split at h
            · cases h
            · cases h; simp only [List.length_cons]; omega
        · cases h
      · split at h
        · split at h
          · rename_i second third r
            cases hc : continuation? second with
            | none => simp [hc] at h
            | some k =>
              cases hd : continuation? third with
              | none => simp [hc, hd] at h
              | some l =>
                simp only [hc, hd, Option.bind_eq_bind, Option.bind_some] at h
                split at h
                · cases h
                · cases h; simp only [List.length_cons]; omega
          · cases h
        · cases h

/-- The units of some bytes. Those in `found` were read before, the last one first. -/
def decodeUnits (found : List Nat) (bytes : Bytes) : Option (List Nat) :=
  if bytes.isEmpty then some found.reverse
  else match h : takeUnit? bytes with
    | none => none
    | some (unit, rest) =>
      have := length_of_takeUnit? h
      decodeUnits (unit :: found) rest
termination_by bytes.length

/-- The characters of some units. Those in `found` were read before, the last one first. -/
def joinUnits (found : List Char) : List Nat → Option (List Char)
  | [] => some found.reverse
  | unit :: rest =>
    if unit < 0xD800 ∨ 0xE000 ≤ unit then joinUnits (Char.ofNat unit :: found) rest
    else if 0xDC00 ≤ unit then none
    else match rest with
      | low :: rest =>
        if 0xDC00 ≤ low ∧ low < 0xE000 then
          joinUnits (Char.ofNat (0x10000 + (unit - 0xD800) * 0x400 + (low - 0xDC00)) :: found) rest
        else none
      | [] => none

/-- The text that some bytes stand for, if they are the form of one. -/
def decode (bytes : Bytes) : Option String :=
  ((decodeUnits [] bytes).bind (joinUnits [])).map String.ofList

end Preverification.ModifiedUtf8
