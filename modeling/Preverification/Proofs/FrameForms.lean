import Preverification.Proofs.FrameDeltas

/-!
# Frames as they stand in a table

In two kinds of frames a short distance may be a part of the tag, but it may also have two bytes of
its own. What a reader takes is one of these forms, and the one that is written is the shortest.

* `FrameForm`: the forms of a frame in a table.
* `FrameForm.length_write_le`: the frames that are written have the shortest forms.
* `FrameForm.takes_read`: what a reader takes is one of the forms.
-/

namespace Preverification

open Reader

/-- A type has one form. -/
theorem SerializedType.inverts_read : Inverts read write fun _ => True := by
  intro input type later
  refine ⟨fun h => ⟨trivial, ?_⟩, fun h => restores_read _ _ _ trivial h.2⟩
  obtain ⟨tag, -, middle, hbehind, h⟩ := inverts_uint8.reads_bind.1 h
  have htag : ∀ n, tag.toNat = n → tag = UInt8.ofNat n := by
    rintro _ rfl
    exact UInt8.ofNat_toNat.symm
  -- only two kinds of types have an operand behind the tag
  split at h
  case h_8 heq =>
    obtain ⟨index, -, rfl, hindex⟩ := (inverts_uint16.reads_make _).1 h
    rw [htag _ heq] at hbehind
    exact Input.behind_cons.2 ⟨middle, hbehind, hindex⟩
  case h_9 heq =>
    obtain ⟨offset, -, rfl, hoffset⟩ := (inverts_uint16.reads_make _).1 h
    rw [htag _ heq] at hbehind
    exact Input.behind_cons.2 ⟨middle, hbehind, hoffset⟩
  case h_10 => exact absurd h not_reads_throw
  all_goals
    rename_i heq
    obtain ⟨rfl, rfl⟩ := reads_pure.1 h
    rw [htag _ heq] at hbehind
    exact hbehind

/-- The form of an entry of a map can be told from it. -/
theorem StackMapEntry.inverts_read : Inverts read write Fits := by
  intro input entry later
  refine ⟨fun h => ?_, fun h => restores_read _ _ _ h.1 h.2⟩
  have htypes := inverts_list SerializedType.inverts_read
  unfold read at h
  obtain ⟨offset, -, first, hoffset, h⟩ := inverts_uint16.reads_bind.1 h
  obtain ⟨locals, hlocals, second, hlocals', h⟩ := htypes.reads_bind.1 h
  obtain ⟨stack, hstack, third, hstack', h⟩ := htypes.reads_bind.1 h
  obtain ⟨rfl, rfl⟩ := reads_pure.1 h
  refine ⟨⟨hlocals.1, hstack.1⟩, ?_⟩
  exact Input.behind_append.2 ⟨second, Input.behind_append.2 ⟨first, hoffset, hlocals'⟩, hstack'⟩

theorem StackMap.inverts_read : Inverts (AttributeContents.read (α := StackMap))
    AttributeContents.write fun map => ListFits StackMapEntry.Fits map.entries :=
  (inverts_list StackMapEntry.inverts_read).map StackMap.mk StackMap.entries
    (fun _ hfits => ⟨hfits, rfl⟩) (fun _ hfits => ⟨hfits, rfl⟩) fun _ _ => rfl

/-! ### Forms of frames -/

/-- A frame as it stands in a table. -/
structure FrameForm where
  delta : FrameDelta
  -- whether the distance has two bytes of its own
  spelledOut : Bool

namespace FrameForm

/-- The bytes of a form. -/
def write (form : FrameForm) : Bytes :=
  match form.delta with
  | .same distance =>
    if form.spelledOut then 251 :: Bytes.ofUInt16 distance else [distance.toUInt8]
  | .sameOneStack distance type =>
    (if form.spelledOut then 247 :: Bytes.ofUInt16 distance else [distance.toUInt8 + 64]) ++
      type.write
  | delta => delta.write

/-- Only a short distance is a part of the tag. -/
structure Fits (form : FrameForm) : Prop where
  delta : form.delta.Fits
  short : form.spelledOut = false → form.delta.distance ≤ 63

/-- If the distance is a part of the tag, the form is the one that is written. -/
theorem write_of_short {form : FrameForm} (h : form.Fits) (hshort : form.spelledOut = false) :
    form.write = form.delta.write := by
  have hdistance := h.short hshort
  rcases form with ⟨delta, spelledOut⟩
  dsimp only at hshort hdistance
  subst hshort
  unfold write FrameDelta.write
  cases delta with
  | same distance =>
    have hle : distance ≤ 63 := UInt16.le_iff_toNat_le.2 hdistance
    dsimp only
    rw [if_pos hle]
    rfl
  | sameOneStack distance type =>
    have hle : distance ≤ 63 := UInt16.le_iff_toNat_le.2 hdistance
    dsimp only
    rw [if_pos hle]
    rfl
  | _ => rfl

/-- The frames that are written have the shortest forms. -/
theorem length_write_le {form : FrameForm} (h : form.Fits) :
    form.delta.write.length ≤ form.write.length := by
  rcases form with ⟨delta, _ | _⟩
  · rw [write_of_short h rfl]
  · unfold write FrameDelta.write
    cases delta with
    | same distance =>
      dsimp only
      split <;> simp
    | sameOneStack distance type =>
      dsimp only
      split <;> simp
    | _ => exact le_rfl

/-- The forms are taken as the frames that they stand for. -/
theorem reads_write {form : FrameForm} (h : form.Fits) {input later : Input}
    (hbehind : input.Behind form.write later) : Reads FrameDelta.read input form.delta later := by
  rcases form with ⟨delta, _ | _⟩
  · rw [write_of_short h rfl] at hbehind
    exact FrameDelta.restores_read _ _ _ h.delta hbehind
  · -- a distance with bytes of its own, though it might have been a part of the tag
    unfold write at hbehind
    cases delta with
    | same distance =>
      obtain ⟨first, htag, hdistance⟩ := Input.behind_cons.1 hbehind
      unfold FrameDelta.read
      refine inverts_uint8.reads_bind.2 ⟨251, trivial, first, htag, ?_⟩
      exact (inverts_uint16.reads_make FrameDelta.same).2 ⟨distance, trivial, rfl, hdistance⟩
    | sameOneStack distance type =>
      obtain ⟨middle, hfront, htype⟩ := Input.behind_append.1 hbehind
      obtain ⟨first, htag, hdistance⟩ := Input.behind_cons.1 hfront
      unfold FrameDelta.read
      refine inverts_uint8.reads_bind.2 ⟨247, trivial, first, htag, ?_⟩
      refine inverts_uint16.reads_bind.2 ⟨distance, trivial, middle, hdistance, ?_⟩
      exact (SerializedType.inverts_read.reads_make _).2 ⟨type, trivial, rfl, htype⟩
    | chop distance count => exact FrameDelta.restores_read _ _ _ h.delta hbehind
    | append distance types => exact FrameDelta.restores_read _ _ _ h.delta hbehind
    | full distance locals stack => exact FrameDelta.restores_read _ _ _ h.delta hbehind

/-- A tag with a short distance in it is written for that distance. -/
theorem short_tag {tag : UInt8} (hlow : 64 ≤ tag.toNat) (hhigh : tag.toNat ≤ 127) :
    (tag.toUInt16 - 64).toUInt8 + 64 = tag ∧ (tag.toUInt16 - 64).toNat ≤ 63 := by
  have h64 : (64 : UInt16).toNat = 64 := rfl
  have h64' : (64 : UInt8).toNat = 64 := rfl
  have hdistance : (tag.toUInt16 - 64).toNat = tag.toNat - 64 := by
    rw [UInt16.toNat_sub, UInt8.toNat_toUInt16, h64]
    omega
  refine ⟨?_, by omega⟩
  rw [← UInt8.toNat_inj, UInt8.toNat_add, UInt16.toNat_toUInt8, hdistance, h64']
  omega

/-- What is taken is a form of the frame. -/
theorem exists_of_reads {delta : FrameDelta} {input later : Input}
    (h : Reads FrameDelta.read input delta later) :
    ∃ form : FrameForm, form.delta = delta ∧ form.Fits ∧ input.Behind form.write later := by
  obtain ⟨tag, -, first, htag, h⟩ := inverts_uint8.reads_bind.1 h
  have hlt := tag.toNat_lt
  have h251 : (251 : UInt8).toNat = 251 := rfl
  simp only [UInt8.le_iff_toNat_le, ← UInt8.toNat_inj, UInt8.reduceToNat] at h
  split at h
  · -- a short distance
    rename_i hle
    obtain ⟨rfl, rfl⟩ := reads_pure.1 h
    refine ⟨⟨.same tag.toUInt16, false⟩, rfl, ⟨trivial, fun _ => hle⟩, ?_⟩
    change input.Behind [tag.toUInt16.toUInt8] _
    rw [UInt8.toUInt8_toUInt16]
    exact htag
  split at h
  · -- a short distance, and a value on the stack
    obtain ⟨type, -, rfl, htype⟩ := (SerializedType.inverts_read.reads_make _).1 h
    obtain ⟨hwritten, hshort⟩ := @short_tag tag (by omega) (by omega)
    refine ⟨⟨.sameOneStack (tag.toUInt16 - 64) type, false⟩, rfl, ⟨trivial, fun _ => hshort⟩, ?_⟩
    change input.Behind ([(tag.toUInt16 - 64).toUInt8 + 64] ++ type.write) _
    rw [hwritten]
    exact Input.behind_append.2 ⟨first, htag, htype⟩
  split at h
  · exact absurd h not_reads_throw
  obtain ⟨distance, -, second, hdistance, h⟩ := inverts_uint16.reads_bind.1 h
  have hfront := Input.behind_cons.2 ⟨first, htag, hdistance⟩
  split at h
  · -- a distance spelled out, and a value on the stack
    rename_i heq
    obtain ⟨type, -, rfl, htype⟩ := (SerializedType.inverts_read.reads_make _).1 h
    rw [show tag = 247 from UInt8.toNat_inj.1 heq] at hfront
    exact ⟨⟨.sameOneStack distance type, true⟩, rfl, ⟨trivial, nofun⟩,
      Input.behind_append.2 ⟨second, hfront, htype⟩⟩
  split at h
  · -- locals that are gone
    obtain ⟨rfl, rfl⟩ := reads_pure.1 h
    have hcount : (251 - tag).toNat = 251 - tag.toNat := by
      rw [UInt8.toNat_sub, h251]
      omega
    have hwritten : 251 - (251 - tag) = tag := by
      rw [← UInt8.toNat_inj, UInt8.toNat_sub, hcount, h251]
      omega
    refine ⟨⟨.chop distance (251 - tag), true⟩, rfl, ⟨?_, nofun⟩, ?_⟩
    · change 1 ≤ (251 - tag).toNat ∧ (251 - tag).toNat ≤ 3
      omega
    · change input.Behind ((251 - (251 - tag)) :: Bytes.ofUInt16 distance) _
      rw [hwritten]
      exact hfront
  split at h
  · -- a distance spelled out
    rename_i heq
    obtain ⟨rfl, rfl⟩ := reads_pure.1 h
    rw [show tag = 251 from UInt8.toNat_inj.1 heq] at hfront
    exact ⟨⟨.same distance, true⟩, rfl, ⟨trivial, nofun⟩, hfront⟩
  split at h
  · -- more locals
    have hmany := inverts_many SerializedType.inverts_read (tag.toNat - 251)
    obtain ⟨types, ⟨hcount, -⟩, rfl, htypes⟩ := (hmany.reads_make _).1 h
    have hwritten : 251 + UInt8.ofNat types.length = tag := by
      rw [← UInt8.toNat_inj, UInt8.toNat_add, UInt8.toNat_ofNat', h251]
      omega
    refine ⟨⟨.append distance types, true⟩, rfl, ⟨?_, nofun⟩, ?_⟩
    · change 1 ≤ types.length ∧ types.length ≤ 3
      omega
    · change input.Behind ((251 + UInt8.ofNat types.length) :: Bytes.ofUInt16 distance ++ _) _
      rw [hwritten]
      exact Input.behind_append.2 ⟨second, hfront, htypes⟩
  · -- a frame in full
    have hlist := inverts_list SerializedType.inverts_read
    obtain ⟨locals, hlocals, third, hlocals', h⟩ := hlist.reads_bind.1 h
    obtain ⟨stack, hstack, rfl, hstack'⟩ := (hlist.reads_make _).1 h
    have hwritten : tag = 255 := UInt8.toNat_inj.1 (show tag.toNat = 255 by omega)
    rw [hwritten] at hfront
    refine ⟨⟨.full distance locals stack, true⟩, rfl, ⟨⟨hlocals.1, hstack.1⟩, nofun⟩, ?_⟩
    exact Input.behind_append.2 ⟨third, Input.behind_append.2 ⟨second, hfront, hlocals'⟩, hstack'⟩

/-- What is taken is a form of the frame, and each form is taken. -/
theorem takes_read : Takes FrameDelta.read write Fits delta := by
  intro input delta later
  constructor
  · intro h
    obtain ⟨form, hdelta, hfits, hbehind⟩ := exists_of_reads h
    exact ⟨form, hdelta.symm, hfits, hbehind⟩
  · rintro ⟨form, rfl, hfits, hbehind⟩
    exact reads_write hfits hbehind

end FrameForm

end Preverification
