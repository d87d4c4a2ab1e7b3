import Preverification.Proofs.Decoding
import Preverification.Proofs.Vectors
import Preverification.Typing.Frames

/-!
# Frames by differences

A stack map table tells each frame by its difference from the frame in front of it. Main statement:
the frames that were put into a table are those that the rules for tables give for the bytes of the
table, and a stack map, in which all frames are in full, holds the very same frames.

* `StackMapTable.expand`: the frames that a table stands for, by the rules for tables.
* `FrameDelta.between_tells`: the shortest delta between two frames tells the one from the other.
* `StackMapTable.expand_ofFrames`: the deltas of a table stand for the frames that it was made of.
* `frames_restored`: both ways to keep frames keep the very same frames.
-/

namespace Preverification

open Reader

/-! ### Frames in full -/

/-- Locals and stack at an offset. -/
structure FullFrame where
  offset : Nat
  locals : List SerializedType
  stack : List SerializedType
deriving DecidableEq, Repr

/-- A frame in full. -/
def PlacedFrame.inFull (placed : PlacedFrame) : FullFrame :=
  ⟨placed.offset.toNat, placed.frame.locals.toList, placed.frame.stack.toList⟩

/-- The frame of an entry. -/
def StackMapEntry.inFull (entry : StackMapEntry) : FullFrame :=
  ⟨entry.offset.toNat, entry.locals, entry.stack⟩

namespace FrameDelta

/-- The distance from the frame in front. -/
def distance : FrameDelta → Nat
  | same distance | sameOneStack distance _ | chop distance _ | append distance _
  | full distance _ _ => distance.toNat

/-- The locals, given those of the frame in front. Only locals that are there can be gone. -/
def localsBehind (before : List SerializedType) : FrameDelta → Option (List SerializedType)
  | same _ | sameOneStack _ _ => some before
  | chop _ count =>
    if count.toNat ≤ before.length then some (before.take (before.length - count.toNat)) else none
  | append _ types => some (before ++ types)
  | full _ locals _ => some locals

/-- The values on the stack. -/
def stack : FrameDelta → List SerializedType
  | same _ | chop _ _ | append _ _ => []
  | sameOneStack _ type => [type]
  | full _ _ stack => stack

/-- The frames that some deltas stand for. Distances are counted from an offset first, and then from
the byte behind the offset of the frame in front, whose locals are known. -/
def expandFrom (start : Nat) (before : List SerializedType) :
    List FrameDelta → Option (List FullFrame)
  | [] => some []
  | delta :: rest => do
    let locals ← delta.localsBehind before
    let offset := start + delta.distance
    return ⟨offset, locals, delta.stack⟩ :: (← expandFrom (offset + 1) locals rest)

end FrameDelta

/-- The frames that a table stands for in a method that is entered with some locals. -/
def StackMapTable.expand (entry : List SerializedType) (table : StackMapTable) :
    Option (List FullFrame) :=
  FrameDelta.expandFrom 0 entry table.frames

/-! ### Types and frames are read as they were written -/

/-- A type is read as it was written. Its first byte tells which one it is. -/
theorem SerializedType.restores_read : Restores read write fun _ => True := by
  intro input type later _ hbehind
  unfold read
  rw [inverts_uint8.reads_bind]
  cases type with
  | object index =>
    rcases Input.behind_cons.1 hbehind with ⟨middle, htag, hindex⟩
    exact ⟨7, trivial, middle, htag, (inverts_uint16.reads_make _).2 ⟨index, trivial, rfl, hindex⟩⟩
  | uninitialized offset =>
    rcases Input.behind_cons.1 hbehind with ⟨middle, htag, hoffset⟩
    exact ⟨8, trivial, middle, htag,
      (inverts_uint16.reads_make _).2 ⟨offset, trivial, rfl, hoffset⟩⟩
  | _ => exact ⟨_, trivial, later, hbehind, reads_pure.2 ⟨rfl, rfl⟩⟩

namespace FrameDelta

/-- A delta has a form of its own. -/
def Fits : FrameDelta → Prop
  | same _ | sameOneStack _ _ => True
  | chop _ count => 1 ≤ count.toNat ∧ count.toNat ≤ 3
  | append _ types => 1 ≤ types.length ∧ types.length ≤ 3
  | full _ locals stack => locals.length < 65536 ∧ stack.length < 65536

/-- A short distance is part of the tag. -/
theorem toNat_shortTag {distance : UInt16} (h : distance ≤ 63) :
    distance.toUInt8.toNat = distance.toNat := by
  have hle : distance.toNat ≤ 63 := UInt16.le_iff_toNat_le.1 h
  rw [UInt16.toNat_toUInt8]
  omega

/-- With a value on the stack, the tags start at 64. -/
theorem toNat_shortTag_add {distance : UInt16} (h : distance ≤ 63) :
    (distance.toUInt8 + 64).toNat = distance.toNat + 64 := by
  have hle : distance.toNat ≤ 63 := UInt16.le_iff_toNat_le.1 h
  have h64 : (64 : UInt8).toNat = 64 := rfl
  rw [UInt8.toNat_add, toNat_shortTag h, h64]
  omega

/-- A distance that is part of a tag is taken out of it again. -/
theorem shortTag_sub {distance : UInt16} (h : distance ≤ 63) :
    (distance.toUInt8 + 64).toUInt16 - 64 = distance := by
  have hlt := distance.toNat_lt
  have h64 : (64 : UInt16).toNat = 64 := rfl
  rw [← UInt16.toNat_inj, UInt16.toNat_sub, UInt8.toNat_toUInt16, toNat_shortTag_add h, h64]
  omega

/-- A delta is read as it was written. Its first byte tells which of the forms it has, and the forms
have different ranges of tags. -/
theorem restores_read : Restores read write Fits := by
  intro input delta later hfits hbehind
  unfold read
  rw [inverts_uint8.reads_bind]
  unfold write at hbehind
  cases delta with
  -- a tag of up to 63 is the distance itself
  | same distance =>
    dsimp only at hbehind
    split at hbehind
    · rename_i hshort
      have htag := toNat_shortTag hshort
      have hle : distance.toUInt8 ≤ 63 := by
        rw [UInt8.le_iff_toNat_le, htag]
        exact UInt16.le_iff_toNat_le.1 hshort
      refine ⟨distance.toUInt8, trivial, later, hbehind, ?_⟩
      rw [if_pos hle]
      refine reads_pure.2 ⟨congrArg same (UInt16.toNat_inj.1 ?_), rfl⟩
      rw [UInt8.toNat_toUInt16, htag]
    · rcases Input.behind_cons.1 hbehind with ⟨first, htag, hdistance⟩
      exact ⟨251, trivial, first, htag, (inverts_uint16.reads_make same).2
        ⟨distance, trivial, rfl, hdistance⟩⟩
  -- from 64 to 127 it is the distance, raised by 64
  | sameOneStack distance type =>
    rcases Input.behind_append.1 hbehind with ⟨middle, hfront, htype⟩
    have hread := SerializedType.restores_read _ _ _ trivial htype
    split at hfront
    · rename_i hshort
      have hle : distance.toNat ≤ 63 := UInt16.le_iff_toNat_le.1 hshort
      have htag := toNat_shortTag_add hshort
      have habove : ¬ distance.toUInt8 + 64 ≤ 63 := by
        rw [UInt8.le_iff_toNat_le, htag]
        exact Nat.not_le.2 (Nat.lt_add_left _ (by decide))
      have hbelow : distance.toUInt8 + 64 ≤ 127 := by
        rw [UInt8.le_iff_toNat_le, htag]
        exact Nat.add_le_add_right hle 64
      refine ⟨distance.toUInt8 + 64, trivial, middle, hfront, ?_⟩
      rw [if_neg habove, if_pos hbelow, shortTag_sub hshort]
      exact reads_bind.2 ⟨type, later, hread, reads_pure.2 ⟨rfl, rfl⟩⟩
    · rcases Input.behind_cons.1 hfront with ⟨first, htag, hdistance⟩
      refine ⟨247, trivial, first, htag, ?_⟩
      refine inverts_uint16.reads_bind.2 ⟨distance, trivial, middle, hdistance, ?_⟩
      exact reads_bind.2 ⟨type, later, hread, reads_pure.2 ⟨rfl, rfl⟩⟩
  -- the tag tells how many locals are gone
  | chop distance count =>
    rcases Input.behind_cons.1 hbehind with ⟨first, htag, hdistance⟩
    have hcounts : count = 1 ∨ count = 2 ∨ count = 3 := by
      simp only [← UInt8.toNat_inj]
      change count.toNat = 1 ∨ count.toNat = 2 ∨ count.toNat = 3
      rcases hfits with ⟨hpos, hle⟩
      omega
    rcases hcounts with rfl | rfl | rfl
    all_goals exact ⟨_, trivial, first, htag, (inverts_uint16.reads_make (chop · _)).2
      ⟨distance, trivial, rfl, hdistance⟩⟩
  | append distance types =>
    simp only [List.cons_append] at hbehind
    rcases Input.behind_cons.1 hbehind with ⟨first, htag, hrest⟩
    rcases Input.behind_append.1 hrest with ⟨second, hdistance, htypes⟩
    have hmany := SerializedType.restores_read.many [] (fun _ _ => trivial) htypes
    have hcounts : types.length = 1 ∨ types.length = 2 ∨ types.length = 3 := by
      rcases hfits with ⟨hpos, hle⟩
      omega
    -- the tag tells how many types follow
    rcases hcounts with hcount | hcount | hcount
    all_goals
      rw [hcount] at htag hmany
      refine ⟨_, trivial, first, htag, ?_⟩
      refine inverts_uint16.reads_bind.2 ⟨distance, trivial, second, hdistance, ?_⟩
      exact reads_bind.2 ⟨types, later, hmany, reads_pure.2 ⟨rfl, rfl⟩⟩
  -- both lists are counted
  | full distance locals stack =>
    simp only [List.cons_append, List.append_assoc] at hbehind
    rcases Input.behind_cons.1 hbehind with ⟨first, htag, hrest⟩
    rcases Input.behind_append.1 hrest with ⟨second, hdistance, hrest⟩
    rcases Input.behind_append.1 hrest with ⟨third, hlocals, hstack⟩
    have hreads := SerializedType.restores_read.list
    refine ⟨255, trivial, first, htag, ?_⟩
    refine inverts_uint16.reads_bind.2 ⟨distance, trivial, second, hdistance, ?_⟩
    refine reads_bind.2 ⟨locals, third, hreads _ _ _ ⟨hfits.1, fun _ _ => trivial⟩ hlocals, ?_⟩
    refine reads_bind.2 ⟨stack, later, hreads _ _ _ ⟨hfits.2, fun _ _ => trivial⟩ hstack, ?_⟩
    exact reads_pure.2 ⟨rfl, rfl⟩

/-! ### Deltas between frames -/

/-- A delta tells how one frame comes about from another one, at a distance from it. -/
structure Tells (previous current : Frame SerializedType) (distance : UInt16) (delta : FrameDelta) :
    Prop where
  locals : delta.localsBehind previous.locals.toList = some current.locals.toList
  stack : delta.stack = current.stack.toList
  distance : delta.distance = distance.toNat
  fits : current.locals.toList.length < 65536 → current.stack.toList.length < 65536 → delta.Fits

section Tells

variable {previous current : Frame SerializedType} {distance : UInt16}

/-- At most three locals are gone, so their number is a byte. -/
theorem tells_chop (hfront : current.locals.toList <+: previous.locals.toList)
    (hle : previous.locals.toList.length ≤ current.locals.toList.length + 3)
    (hne : previous.locals.toList.length ≠ current.locals.toList.length)
    (hstack : current.stack.toList = []) :
    Tells previous current distance
      (chop distance (UInt8.ofNat (previous.locals.toList.length - current.locals.toList.length))) := by
  have hlength := hfront.length_le
  have hcount : (UInt8.ofNat
      (previous.locals.toList.length - current.locals.toList.length)).toNat =
        previous.locals.toList.length - current.locals.toList.length :=
    UInt8.toNat_ofNat_of_lt' (Nat.lt_of_le_of_lt (Nat.sub_le_iff_le_add'.2 hle) (by decide))
  refine ⟨?_, hstack.symm, rfl, fun _ _ => ?_⟩
  · unfold localsBehind
    dsimp only
    rw [hcount, if_pos (Nat.sub_le _ _), Nat.sub_sub_self hlength]
    exact congrArg some (List.prefix_iff_eq_take.1 hfront).symm
  · unfold Fits
    dsimp only
    rw [hcount]
    omega

/-- At most three locals are new, so their number is part of the tag. -/
theorem tells_append (hfront : previous.locals.toList <+: current.locals.toList)
    (hle : current.locals.toList.length ≤ previous.locals.toList.length + 3)
    (hne : current.locals.toList ≠ previous.locals.toList) (hstack : current.stack.toList = []) :
    Tells previous current distance
      (append distance (current.locals.toList.drop previous.locals.toList.length)) := by
  rcases hfront with ⟨more, hmore⟩
  have hdrop : current.locals.toList.drop previous.locals.toList.length = more := by
    rw [← hmore, List.drop_left]
  have hnonempty : more ≠ [] := by
    rintro rfl
    rw [List.append_nil] at hmore
    exact hne hmore.symm
  have hpos := List.length_pos_of_ne_nil hnonempty
  have hlength := congrArg List.length hmore
  rw [List.length_append] at hlength
  rw [hdrop]
  exact ⟨congrArg some hmore, hstack.symm, rfl, fun _ _ => ⟨hpos, by omega⟩⟩

end Tells

/-- Whatever the two frames are, the shortest delta tells the one from the other. -/
theorem between_tells (previous current : Frame SerializedType) (distance : UInt16) :
    Tells previous current distance (between previous current distance) := by
  -- a frame in full tells all by itself
  have hfull : Tells previous current distance
      (full distance current.locals.toList current.stack.toList) :=
    ⟨rfl, rfl, rfl, fun hlocals hstack => ⟨hlocals, hstack⟩⟩
  unfold between maxLocalChange
  dsimp only
  split
  · -- without a stack, only the locals matter
    rename_i hstack
    split
    · rename_i hless
      rcases hless with ⟨hfront, hle⟩
      rw [List.isPrefixOf_iff_prefix] at hfront
      split
      · -- nothing has changed
        rename_i hsame
        refine ⟨congrArg some (hfront.eq_of_length hsame.symm).symm, hstack.symm, rfl, ?_⟩
        exact fun _ _ => trivial
      · rename_i hchanged
        exact tells_chop hfront hle hchanged hstack
    · rename_i hless
      split
      · rename_i hmore
        rcases hmore with ⟨hfront, hle⟩
        -- the locals would be the same if there were not more of them
        have hne : current.locals.toList ≠ previous.locals.toList := by
          intro hsame
          rw [hsame] at hless
          exact hless ⟨List.isPrefixOf_iff_prefix.2 List.prefix_rfl, Nat.le_add_right _ _⟩
        exact tells_append (List.isPrefixOf_iff_prefix.1 hfront) hle hne hstack
      · exact hfull
  · -- one value on the stack, over locals that stay
    rename_i type hstack
    split
    · rename_i hsame
      exact ⟨congrArg some hsame.symm, hstack.symm, rfl, fun _ _ => trivial⟩
    · exact hfull
  · exact hfull

end FrameDelta

/-! ### Tables -/

variable {entry : Frame SerializedType} {frames : List PlacedFrame}

/-- The deltas behind a frame stand for the frames that follow it. -/
theorem StackMapTable.expandFrom_deltasFrom (previous : PlacedFrame) (frames : List PlacedFrame)
    (h : (previous :: frames).Pairwise (·.offset < ·.offset)) :
    FrameDelta.expandFrom (previous.offset.toNat + 1) previous.frame.locals.toList
      (deltasFrom previous frames) = some (frames.map PlacedFrame.inFull) := by
  induction frames generalizing previous with
  | nil => rfl
  | cons current frames ih =>
    rcases List.pairwise_cons.1 h with ⟨hprevious, hrest⟩
    have htells := FrameDelta.between_tells previous.frame current.frame
      (current.offset - previous.offset - 1)
    have hlt : previous.offset.toNat < current.offset.toNat :=
      UInt16.lt_iff_toNat_lt.1 (hprevious current List.mem_cons_self)
    -- distances are counted from behind the frame in front, which does not underflow
    have hoffset : previous.offset.toNat + 1 + (current.offset - previous.offset - 1).toNat =
        current.offset.toNat := by
      have hone : (1 : UInt16).toNat = 1 := rfl
      have hbound := current.offset.toNat_lt
      rw [UInt16.toNat_sub, UInt16.toNat_sub, hone]
      omega
    unfold deltasFrom FrameDelta.expandFrom
    rw [htells.locals, Option.bind_eq_bind, Option.bind_some, htells.distance, hoffset,
      htells.stack]
    dsimp only
    rw [ih current hrest]
    rfl

/-- The deltas of a table stand for the frames that it was made of. -/
theorem StackMapTable.expand_ofFrames (h : frames.Pairwise (·.offset < ·.offset)) :
    (ofFrames entry frames).expand entry.locals.toList =
      some (frames.map PlacedFrame.inFull) := by
  cases frames with
  | nil => rfl
  | cons first frames =>
    have htells := FrameDelta.between_tells entry first.frame first.offset
    unfold expand ofFrames FrameDelta.expandFrom
    rw [htells.locals, Option.bind_eq_bind, Option.bind_some, htells.distance, Nat.zero_add,
      htells.stack]
    dsimp only
    rw [expandFrom_deltasFrom first frames h]
    rfl

/-- All frames can be written down. -/
def FramesFit (frames : List PlacedFrame) : Prop :=
  frames.length ≤ 65535 ∧ ∀ placed ∈ frames,
    placed.frame.locals.toList.length ≤ 65535 ∧ placed.frame.stack.toList.length ≤ 65535

/-- There is a delta for each frame, and each fits if the frame does. -/
theorem StackMapTable.fits_deltasFrom (previous : PlacedFrame)
    (h : ∀ placed ∈ frames, placed.frame.locals.toList.length ≤ 65535 ∧
      placed.frame.stack.toList.length ≤ 65535) :
    (deltasFrom previous frames).length = frames.length ∧
      ∀ delta ∈ deltasFrom previous frames, delta.Fits := by
  induction frames generalizing previous with
  | nil => exact ⟨rfl, nofun⟩
  | cons current frames ih =>
    rcases List.forall_mem_cons.1 h with ⟨hcurrent, hframes⟩
    rcases ih current hframes with ⟨hlength, hfits⟩
    have htells := FrameDelta.between_tells previous.frame current.frame
      (current.offset - previous.offset - 1)
    refine ⟨congrArg Nat.succ hlength, List.forall_mem_cons.2 ⟨?_, hfits⟩⟩
    exact htells.fits (Nat.lt_succ_of_le hcurrent.1) (Nat.lt_succ_of_le hcurrent.2)

/-- The deltas of a table fit in what they are written as. -/
theorem StackMapTable.fits_ofFrames (h : FramesFit frames) :
    ListFits FrameDelta.Fits (ofFrames entry frames).frames := by
  cases frames with
  | nil => exact ⟨Nat.zero_lt_succ _, nofun⟩
  | cons first frames =>
    rcases h with ⟨hcount, hsizes⟩
    rcases List.forall_mem_cons.1 hsizes with ⟨hfirst, hframes⟩
    rcases fits_deltasFrom first hframes with ⟨hlength, hfits⟩
    have htells := FrameDelta.between_tells entry first.frame first.offset
    refine ⟨?_, List.forall_mem_cons.2 ⟨?_, hfits⟩⟩
    · change (deltasFrom first frames).length + 1 < 65536
      rw [hlength]
      exact Nat.lt_succ_of_le hcount
    · exact htells.fits (Nat.lt_succ_of_le hfirst.1) (Nat.lt_succ_of_le hfirst.2)

/-- A table is read as it was written. -/
theorem StackMapTable.restores_read : Restores (AttributeContents.read (α := StackMapTable))
    AttributeContents.write fun table => ListFits FrameDelta.Fits table.frames := by
  intro input table later hfits hbehind
  have hframes := FrameDelta.restores_read.list _ _ _ hfits hbehind
  exact reads_bind.2 ⟨table.frames, later, hframes, reads_pure.2 ⟨rfl, rfl⟩⟩

/-! ### Maps -/

/-- Locals and stack can be counted. -/
def StackMapEntry.Fits (entry : StackMapEntry) : Prop :=
  entry.locals.length < 65536 ∧ entry.stack.length < 65536

theorem StackMapEntry.restores_read : Restores read write Fits := by
  intro input entry later hfits hbehind
  rcases Input.behind_append.1 hbehind with ⟨second, hfront, hstack⟩
  rcases Input.behind_append.1 hfront with ⟨first, hoffset, hlocals⟩
  have hreads := SerializedType.restores_read.list
  unfold read
  refine inverts_uint16.reads_bind.2 ⟨entry.offset, trivial, first, hoffset, ?_⟩
  refine reads_bind.2 ⟨_, second, hreads _ _ _ ⟨hfits.1, fun _ _ => trivial⟩ hlocals, ?_⟩
  refine reads_bind.2 ⟨_, later, hreads _ _ _ ⟨hfits.2, fun _ _ => trivial⟩ hstack, ?_⟩
  exact reads_pure.2 ⟨rfl, rfl⟩

/-- A map is restored from what it is written as. -/
theorem StackMap.restores_read : Restores (AttributeContents.read (α := StackMap))
    AttributeContents.write fun map => ListFits StackMapEntry.Fits map.entries := by
  intro input map later hfits hbehind
  have hentries := StackMapEntry.restores_read.list _ _ _ hfits hbehind
  exact reads_bind.2 ⟨map.entries, later, hentries, reads_pure.2 ⟨rfl, rfl⟩⟩

/-- The entries of a map fit if the frames do. -/
theorem StackMap.fits_ofFrames (h : FramesFit frames) :
    ListFits StackMapEntry.Fits (ofFrames frames).entries := by
  rcases h with ⟨hcount, hsizes⟩
  constructor
  · change (frames.map _).length < 65536
    rw [List.length_map]
    exact Nat.lt_succ_of_le hcount
  · intro found hfound
    rcases List.mem_map.1 hfound with ⟨placed, hplaced, rfl⟩
    rcases hsizes placed hplaced with ⟨hlocals, hstack⟩
    exact ⟨Nat.lt_succ_of_le hlocals, Nat.lt_succ_of_le hstack⟩

/-- **Both ways to keep frames keep the very same frames.** The bytes of a table are read as a table
that stands for the frames it was made of, and the bytes of a map are read as a map of these
frames. -/
theorem frames_restored (name : PoolIndex) (entry : Frame SerializedType)
    (frames : List PlacedFrame) (hascending : frames.Pairwise (·.offset < ·.offset))
    (hfits : FramesFit frames) :
    (∃ table : StackMapTable,
      Attribute.decode StackMapTable
        ⟨name, AttributeContents.write (StackMapTable.ofFrames entry frames)⟩ = .ok table ∧
      table.expand entry.locals.toList = some (frames.map PlacedFrame.inFull)) ∧
    ∃ map : StackMap,
      Attribute.decode StackMap ⟨name, AttributeContents.write (StackMap.ofFrames frames)⟩ =
        .ok map ∧
      map.entries.map StackMapEntry.inFull = frames.map PlacedFrame.inFull := by
  constructor
  · refine ⟨StackMapTable.ofFrames entry frames, ?_, StackMapTable.expand_ofFrames hascending⟩
    exact Attribute.decode_write name StackMapTable.restores_read
      (StackMapTable.fits_ofFrames hfits)
  · refine ⟨StackMap.ofFrames frames, ?_, ?_⟩
    · exact Attribute.decode_write name StackMap.restores_read (StackMap.fits_ofFrames hfits)
    · unfold StackMap.ofFrames
      rw [List.map_map]
      rfl

/-- The frame with these types. -/
def frameOf (locals stack : List SerializedType) : Frame SerializedType :=
  ⟨.ofList locals, .ofList stack⟩

/-- Frames of which each can be told by a short delta. -/
def closeFrames : List PlacedFrame :=
  [⟨3, frameOf [.integer] []⟩, ⟨10, frameOf [.integer, .object 5, .long] []⟩,
    ⟨200, frameOf [.integer, .object 5, .long] [.integer]⟩, ⟨300, frameOf [.integer] []⟩]

example : StackMapTable.ofFrames (frameOf [.integer] []) closeFrames =
    ⟨[.same 3, .append 6 [.object 5, .long], .sameOneStack 189 .integer, .chop 99 2]⟩ := by
  decide +kernel

/-- The deltas between these frames stand for them. -/
theorem closeFrames_restored :
    closeFrames.Pairwise (·.offset < ·.offset) ∧ FramesFit closeFrames ∧
    (∃ table : StackMapTable,
      Attribute.decode StackMapTable
        ⟨1, AttributeContents.write (StackMapTable.ofFrames (frameOf [.integer] []) closeFrames)⟩ =
          .ok table ∧
      table.expand [.integer] = some (closeFrames.map PlacedFrame.inFull)) ∧
    ∃ map : StackMap,
      Attribute.decode StackMap ⟨1, AttributeContents.write (StackMap.ofFrames closeFrames)⟩ =
        .ok map ∧
      map.entries.map StackMapEntry.inFull = closeFrames.map PlacedFrame.inFull := by
  have hascending : closeFrames.Pairwise (·.offset < ·.offset) := by decide +kernel
  have hfits : FramesFit closeFrames := by
    unfold FramesFit
    decide +kernel
  exact ⟨hascending, hfits, frames_restored 1 (frameOf [.integer] []) closeFrames hascending hfits⟩

end Preverification
