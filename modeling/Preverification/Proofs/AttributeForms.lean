import Preverification.Proofs.FrameForms

/-!
# Attributes that are decoded and written again

Six types of data stand in the contents of attributes. The contents of five of them have one form
for each value. A stack map table has several, of which the written one is the shortest. In all of
them the end is known from the front: contents that are decoded do not go on behind others.

* `AttributeContents.Codec`: contents are decoded, written and decoded again, and do not go on
  behind others.
* `AttributeContents.codec_of_takes`: it is enough to look at the forms that a reader takes.
* `attributes_codec`: this is so for all six types of contents.
-/

namespace Preverification

open Reader

/-! ### Contents of attributes -/

namespace AttributeContents

/-- Values that fit are written and decoded again, and so are those that were decoded from other
contents. No contents that are decoded go on behind others that are. -/
structure Codec (α : Type) [AttributeContents α] (fits : α → Prop) : Prop where
  -- what is written is decoded as the value that it was written for
  restored : ∀ (name : PoolIndex) (value : α), fits value →
    Attribute.decode α ⟨name, write value⟩ = .ok value
  fits : ∀ (attr : Attribute) (value : α), attr.decode α = .ok value → fits value
  -- writing again what was decoded makes nothing longer, and changes no value
  compacts : ∀ (attr : Attribute) (value : α), attr.decode α = .ok value →
    (write value).length ≤ attr.contents.length ∧
      Attribute.decode α ⟨attr.name, write value⟩ = .ok value
  -- contents are not the front of longer ones
  delimited : ∀ (attr attr' : Attribute) (value value' : α), attr.decode α = .ok value →
    attr'.decode α = .ok value' → attr.contents <+: attr'.contents →
    attr.contents = attr'.contents

/-- Each value has one form. -/
structure CanonicalCodec (α : Type) [AttributeContents α] (fits : α → Prop) : Prop
    extends Codec α fits where
  canonical : ∀ (attr : Attribute) (value : α), attr.decode α = .ok value →
    write value = attr.contents

section Codecs

variable {α β : Type} [AttributeContents β] {form : α → Bytes} {fits : α → Prop} {f : α → β}

/-- The contents that are decoded are those in some form. -/
theorem decode_ok_iff (h : Takes (read (α := β)) form fits f) {attr : Attribute} {value : β} :
    attr.decode β = .ok value ↔ ∃ a, value = f a ∧ fits a ∧ attr.contents = form a := by
  rw [Attribute.decode_ok, h.run_ok]
  simp only [List.append_nil]

/-- A reader that knows when it is done does not read on, and nothing may be left. -/
theorem eq_of_decode (h : Takes (read (α := β)) form fits f) {attr attr' : Attribute}
    {value value' : β} (hvalue : attr.decode β = .ok value) (hvalue' : attr'.decode β = .ok value')
    (hfront : attr.contents <+: attr'.contents) : attr.contents = attr'.contents := by
  obtain ⟨a, -, hfits, hcontents⟩ := (decode_ok_iff h).1 hvalue
  obtain ⟨more, hmore⟩ := hfront
  -- the longer contents are read as the same value, and what is behind the shorter ones is left
  have hread : run read attr'.contents = .ok (f a, more) :=
    h.run_ok.2 ⟨a, rfl, hfits, by rw [← hmore, hcontents]⟩
  rw [Attribute.decode_ok.1 hvalue'] at hread
  cases hread
  rw [← hmore, List.append_nil]

/-- If the written form of what is decoded is one of the forms, and no other one is shorter, there
is a codec. -/
theorem codec_of_takes {fitting : β → Prop} (h : Takes (read (α := β)) form fits f)
    (hrestores : Restores (read (α := β)) write fitting) (hfits : ∀ a, fits a → fitting (f a))
    (hlength : ∀ a, fits a → (write (f a)).length ≤ (form a).length) : Codec β fitting where
  restored name value hvalue := Attribute.decode_write name hrestores hvalue
  fits attr value hdecode := by
    obtain ⟨a, rfl, ha, -⟩ := (decode_ok_iff h).1 hdecode
    exact hfits a ha
  compacts attr value hdecode := by
    obtain ⟨a, rfl, ha, hcontents⟩ := (decode_ok_iff h).1 hdecode
    refine ⟨?_, Attribute.decode_write _ hrestores (hfits a ha)⟩
    rw [hcontents]
    exact hlength a ha
  delimited _ _ _ _ hdecode hdecode' := eq_of_decode h hdecode hdecode'

/-- Where each value has one form, what is decoded is written as it was. -/
theorem canonicalCodec_of_inverts {fitting : β → Prop}
    (h : Inverts (read (α := β)) write fitting) : CanonicalCodec β fitting where
  toCodec := codec_of_takes (inverts_iff_takes.1 h) h.restores (fun _ => id) fun _ _ => le_rfl
  canonical attr value hdecode := by
    obtain ⟨_, rfl, -, hcontents⟩ := (decode_ok_iff (inverts_iff_takes.1 h)).1 hdecode
    exact hcontents.symm

end Codecs

end AttributeContents

/-! ### Stack map tables -/

/-- A list gets no longer if none of its elements does. -/
theorem Bytes.length_ofList_map_le {α β : Type} {write : β → Bytes} {form : α → Bytes} {f : α → β}
    {values : List α} (h : ∀ a ∈ values, (write (f a)).length ≤ (form a).length) :
    (Bytes.ofList write (values.map f)).length ≤ (Bytes.ofList form values).length := by
  have hvalues : ((values.map f).flatMap write).length ≤ (values.flatMap form).length := by
    induction values with
    | nil => exact le_rfl
    | cons value values ih =>
      obtain ⟨hvalue, hvalues⟩ := List.forall_mem_cons.1 h
      rw [List.map_cons, List.flatMap_cons, List.flatMap_cons, List.length_append,
        List.length_append]
      exact Nat.add_le_add hvalue (ih hvalues)
  unfold Bytes.ofList
  rw [List.length_append, List.length_append, Bytes.length_ofCount, Bytes.length_ofCount]
  exact Nat.add_le_add_left hvalues 2

theorem StackMapTable.takes_read : Takes (AttributeContents.read (α := StackMapTable))
    (Bytes.ofList FrameForm.write) (ListFits FrameForm.Fits)
    (StackMapTable.mk ∘ List.map FrameForm.delta) :=
  (takes_list FrameForm.takes_read).make StackMapTable.mk

/-- A table that is written is not longer than the one that was read. -/
theorem StackMapTable.codec : AttributeContents.Codec StackMapTable
    fun table => ListFits FrameDelta.Fits table.frames := by
  refine AttributeContents.codec_of_takes takes_read restores_read ?_ ?_
  · rintro forms ⟨hcount, hforms⟩
    refine ⟨?_, ?_⟩
    · change (forms.map FrameForm.delta).length < 65536
      rw [List.length_map]
      exact hcount
    · intro delta hdelta
      obtain ⟨form, hform, rfl⟩ := List.mem_map.1 hdelta
      exact (hforms form hform).delta
  · intro forms hforms
    exact Bytes.length_ofList_map_le fun form hform => FrameForm.length_write_le (hforms.2 form hform)

/-! ### All types of contents -/

open AttributeContents in
/-- **Attributes are decoded, written and decoded again.** All values can be written whose lists and
data can be counted, and all that are decoded are among them. Only stack map tables have more than
one form, and the one that is written is the shortest. -/
theorem attributes_codec :
    CanonicalCodec Code Code.Fits ∧
    Codec StackMapTable (fun table => ListFits FrameDelta.Fits table.frames) ∧
    CanonicalCodec StackMap (fun map => ListFits StackMapEntry.Fits map.entries) ∧
    CanonicalCodec LineNumberTable (fun table => table.entries.length < 65536) ∧
    CanonicalCodec LocalVariableTable (fun table => table.entries.length < 65536) ∧
    CanonicalCodec LocalVariableTypeTable (fun table => table.entries.length < 65536) := by
  refine ⟨?_, StackMapTable.codec, ?_, ?_, ?_, ?_⟩
  · exact canonicalCodec_of_inverts Code.inverts_read
  · exact canonicalCodec_of_inverts StackMap.inverts_read
  · exact canonicalCodec_of_inverts LineNumberTable.inverts_read
  · exact canonicalCodec_of_inverts LocalVariableTable.inverts_read
  · exact canonicalCodec_of_inverts LocalVariableTypeTable.inverts_read

/-- A short distance that is spelled out takes two more bytes. -/
example : Attribute.decode StackMapTable ⟨1, [0, 1, 251, 0, 5]⟩ = .ok ⟨[.same 5]⟩ ∧
    AttributeContents.write (StackMapTable.mk [.same 5]) = [0, 1, 5] := by
  refine ⟨?_, ?_⟩ <;> cbv

end Preverification
