import Preverification.Proofs.Pools

/-!
# Adding constants

A pool that is edited only gets more constants. What is found at an index stays there, and so every
check of an index that succeeds goes on to succeed. Texts and classes that were added are found
again.

* `Pool.Extends`: a pool has only gained constants, so that every check of an index goes on to
  succeed.
* `Pool.Formed.get?_push`: a constant that is added stands at the index that was free.
* `Pool.addUtf8_ok`: a text that was added is found at its index, and will be found there again.
-/

namespace Preverification.Pool

variable {pool pool' pool'' : Pool} {constant : Constant} {index : PoolIndex} {text : String}

/-- A pool has the constants of another one, and more behind them. -/
def Extends (pool pool' : Pool) : Prop := ∃ more : List Constant, pool' = more.foldl push pool

theorem Extends.refl (pool : Pool) : pool.Extends pool := ⟨[], rfl⟩

/-- Constants that are added behind others are added. -/
theorem Extends.trans (h : pool.Extends pool') (h' : pool'.Extends pool'') :
    pool.Extends pool'' := by
  obtain ⟨more, rfl⟩ := h
  obtain ⟨more', rfl⟩ := h'
  exact ⟨more ++ more', by rw [List.foldl_append]⟩

/-- One constant is added at the end. -/
theorem extends_push (pool : Pool) (constant : Constant) : pool.Extends (pool.push constant) :=
  ⟨[constant], rfl⟩

/-! ### What is found stays -/

/-- A constant that is added gets the index that is free. -/
theorem entries_push (pool : Pool) (constant : Constant) :
    (pool.push constant).entries = pool.entries ++ [(pool.count, constant)] := by
  unfold entries
  rw [constants_push]
  exact Array.toList_push

/-- The constants keep their indices. -/
theorem Extends.entries_prefix (h : pool.Extends pool') : pool.entries <+: pool'.entries := by
  obtain ⟨more, rfl⟩ := h
  induction more generalizing pool with
  | nil => exact List.prefix_rfl
  | cons constant more ih =>
    have hpush : pool.entries <+: (pool.push constant).entries := by
      rw [entries_push]
      exact List.prefix_append _ _
    exact hpush.trans ih

/-- Each entry of a pool is one of a larger pool. -/
theorem Extends.entries (h : pool.Extends pool') {entry : Nat × Constant}
    (hentry : entry ∈ pool.entries) : entry ∈ pool'.entries := h.entries_prefix.subset hentry

/-- Indices are positive, since the first one is. -/
theorem entries_pos_foldl_push (constants : List Constant) {pool : Pool} (hcount : 0 < pool.count)
    (h : ∀ entry ∈ pool.entries, 0 < entry.1) :
    ∀ entry ∈ (constants.foldl push pool).entries, 0 < entry.1 := by
  induction constants generalizing pool with
  | nil => exact h
  | cons constant constants ih =>
    refine ih ?_ ?_
    · rw [count_push]
      exact Nat.add_pos_left hcount _
    · rw [entries_push]
      exact List.forall_mem_append.2 ⟨h, List.forall_mem_singleton.2 hcount⟩

/-- No constant has the index zero. -/
theorem Built.get?_zero (h : pool.Built) : pool.get? 0 = none := by
  cases hget : pool.get? 0 with
  | none => rfl
  | some constant =>
    have hmem := h.get?_eq_some.1 hget
    rw [h] at hmem
    have hempty : ∀ entry ∈ (∅ : Pool).entries, 0 < entry.1 :=
      fun _ hentry => absurd hentry List.not_mem_nil
    exact absurd (entries_pos_foldl_push _ (by decide) hempty _ hmem) (Nat.lt_irrefl 0)

/-- A larger pool was made by adding constants too. -/
theorem Extends.built (h : pool.Extends pool') (hbuilt : pool.Built) : pool'.Built := by
  obtain ⟨more, rfl⟩ := h
  exact hbuilt.foldl_push more

/-- A constant is found again at its index. -/
theorem Extends.get? (h : pool.Extends pool') (hbuilt : pool.Built)
    (hget : pool.get? index = some constant) : pool'.get? index = some constant := by
  rw [hbuilt.get?_eq_some] at hget
  rw [(h.built hbuilt).get?_eq_some]
  exact h.entries hget

section Checks

variable (h : pool.Extends pool') (hbuilt : pool.Built)

include h hbuilt

/-- Texts, and what they name, are found again. -/
theorem Extends.utf8 (hutf8 : pool.utf8 index = .ok text) : pool'.utf8 index = .ok text := by
  unfold Pool.utf8 at hutf8 ⊢
  split at hutf8
  · rename_i hget
    rw [h.get? hbuilt hget]
    exact hutf8
  · cases hutf8

theorem Extends.className {name : String} (hname : pool.className index = .ok name) :
    pool'.className index = .ok name := by
  unfold Pool.className at hname ⊢
  split at hname
  · rename_i hget
    rw [h.get? hbuilt hget]
    exact h.utf8 hbuilt hname
  · cases hname

theorem Extends.classType {type : RefType} (htype : pool.classType index = .ok type) :
    pool'.classType index = .ok type := by
  obtain ⟨name, hname, hparsed⟩ := except_bind_ok.1 htype
  exact except_bind_ok.2 ⟨name, h.className hbuilt hname, hparsed⟩

theorem Extends.binaryName {name : BinaryName} (hname : pool.binaryName index = .ok name) :
    pool'.binaryName index = .ok name := by
  obtain ⟨text, htext, hparsed⟩ := except_bind_ok.1 hname
  exact except_bind_ok.2 ⟨text, h.className hbuilt htext, hparsed⟩

/-- A name and a descriptor that are found together are found in a larger pool. -/
theorem Extends.nameAndType {found : String × String} (hfound : pool.nameAndType index = .ok found) :
    pool'.nameAndType index = .ok found := by
  unfold Pool.nameAndType at hfound ⊢
  split at hfound
  · rename_i hget
    rw [h.get? hbuilt hget]
    obtain ⟨name, hname, hfound⟩ := except_bind_ok.1 hfound
    obtain ⟨descriptor, hdescriptor, hpure⟩ := except_bind_ok.1 hfound
    exact except_bind_ok.2 ⟨name, h.utf8 hbuilt hname,
      except_bind_ok.2 ⟨descriptor, h.utf8 hbuilt hdescriptor, hpure⟩⟩
  · cases hfound

/-- An index of a constant of some kind stays one. -/
theorem Extends.utf8Index {index' : PoolIndex} (hindex : pool.utf8Index index = .ok index') :
    pool'.utf8Index index = .ok index' := by
  rw [utf8Index_ok] at hindex ⊢
  obtain ⟨heq, text, hget⟩ := hindex
  exact ⟨heq, text, h.get? hbuilt hget⟩

theorem Extends.classIndex {index' : PoolIndex} (hindex : pool.classIndex index = .ok index') :
    pool'.classIndex index = .ok index' := by
  rw [classIndex_ok] at hindex ⊢
  obtain ⟨heq, name, hget⟩ := hindex
  exact ⟨heq, name, h.get? hbuilt hget⟩

theorem Extends.optionalClassIndex {found : Option PoolIndex}
    (hfound : pool.optionalClassIndex index = .ok found) :
    pool'.optionalClassIndex index = .ok found := by
  unfold Pool.optionalClassIndex at hfound ⊢
  by_cases hzero : index = 0
  · rw [if_pos hzero] at hfound ⊢
    exact hfound
  · rw [if_neg hzero] at hfound ⊢
    obtain ⟨index', hindex, hsome⟩ := except_map_ok.1 hfound
    exact except_map_ok.2 ⟨index', h.classIndex hbuilt hindex, hsome⟩

theorem Extends.fieldRefIndex {index' : PoolIndex} (hindex : pool.fieldRefIndex index = .ok index') :
    pool'.fieldRefIndex index = .ok index' := by
  rw [fieldRefIndex_ok] at hindex ⊢
  obtain ⟨heq, owner, member, hget⟩ := hindex
  exact ⟨heq, owner, member, h.get? hbuilt hget⟩

theorem Extends.methodRefIndex {index' : PoolIndex}
    (hindex : pool.methodRefIndex index = .ok index') : pool'.methodRefIndex index = .ok index' := by
  rw [methodRefIndex_ok] at hindex ⊢
  obtain ⟨heq, owner, member, ofInterface, hget⟩ := hindex
  exact ⟨heq, owner, member, ofInterface, h.get? hbuilt hget⟩

theorem Extends.invokeDynamicIndex {index' : PoolIndex}
    (hindex : pool.invokeDynamicIndex index = .ok index') :
    pool'.invokeDynamicIndex index = .ok index' := by
  rw [invokeDynamicIndex_ok] at hindex ⊢
  obtain ⟨heq, bootstrap, member, hget⟩ := hindex
  exact ⟨heq, bootstrap, member, h.get? hbuilt hget⟩

/-- A constant that can be loaded stays so, with its width. -/
theorem Extends.loadableIndex {index' : PoolIndex} {isWide : Bool}
    (hindex : pool.loadableIndex index isWide = .ok index') :
    pool'.loadableIndex index isWide = .ok index' := by
  rw [loadableIndex_ok] at hindex ⊢
  obtain ⟨heq, constant, hget, hloads⟩ := hindex
  refine ⟨heq, constant, h.get? hbuilt hget, ?_⟩
  cases constant with
  | dynamic bootstrap member =>
    obtain ⟨name, descriptor, hmember, hwide⟩ := hloads
    exact ⟨name, descriptor, h.nameAndType hbuilt hmember, hwide⟩
  | _ => exact hloads

/-- A constant that refers to others goes on to do so. -/
theorem Extends.checkReferences (hcheck : pool.checkReferences constant = .ok ()) :
    pool'.checkReferences constant = .ok () := by
  -- each reference that was found is found again in a larger pool
  cases constant with
  | integer _ | float _ | long _ | double _ | utf8 _ => rfl
  | classRef name | string name | moduleRef name | packageRef name | methodType name =>
    obtain ⟨text, hname⟩ := except_discard_ok.1 hcheck
    exact except_discard_ok.2 ⟨text, h.utf8 hbuilt hname⟩
  | fieldRef owner member | methodRef owner member ofInterface =>
    obtain ⟨_, howner, hmember⟩ := except_bind_ok.1 hcheck
    obtain ⟨name, hname⟩ := except_discard_ok.1 howner
    obtain ⟨found, hfound⟩ := except_discard_ok.1 hmember
    exact except_bind_ok.2 ⟨(), except_discard_ok.2 ⟨name, h.className hbuilt hname⟩,
      except_discard_ok.2 ⟨found, h.nameAndType hbuilt hfound⟩⟩
  | nameAndType name descriptor =>
    obtain ⟨_, hname, hdescriptor⟩ := except_bind_ok.1 hcheck
    obtain ⟨text, hname⟩ := except_discard_ok.1 hname
    obtain ⟨text', hdescriptor⟩ := except_discard_ok.1 hdescriptor
    exact except_bind_ok.2 ⟨(), except_discard_ok.2 ⟨text, h.utf8 hbuilt hname⟩,
      except_discard_ok.2 ⟨text', h.utf8 hbuilt hdescriptor⟩⟩
  | dynamic bootstrap member | invokeDynamic bootstrap member =>
    obtain ⟨found, hmember⟩ := except_discard_ok.1 hcheck
    exact except_discard_ok.2 ⟨found, h.nameAndType hbuilt hmember⟩
  | methodHandle kind member =>
    unfold Pool.checkReferences at hcheck ⊢
    dsimp only at hcheck ⊢
    -- a handle refers to a field or to a method, by its kind
    split at hcheck
    · rename_i haccess
      obtain ⟨found, hmember⟩ := except_discard_ok.1 hcheck
      rw [if_pos haccess]
      exact except_discard_ok.2 ⟨found, h.fieldRefIndex hbuilt hmember⟩
    · rename_i haccess
      obtain ⟨found, hmember⟩ := except_discard_ok.1 hcheck
      rw [if_neg haccess]
      exact except_discard_ok.2 ⟨found, h.methodRefIndex hbuilt hmember⟩

end Checks

/-! ### What was added is found again -/

/-- The index at which a constant stands first. -/
def firstIndex (pool : Pool) (constant : Constant) : Option Nat :=
  (pool.entries.find? fun entry => entry.2 = constant).map (·.1)

/-- A constant that is there already keeps its first index. -/
theorem firstIndex_push (pool : Pool) (added constant : Constant) :
    (pool.push added).firstIndex constant =
      (pool.firstIndex constant).or (if added = constant then some pool.count else none) := by
  unfold firstIndex
  rw [entries_push, List.find?_append, Option.map_or, List.find?_singleton]
  by_cases hadded : added = constant <;> simp [hadded]

/-- A constant stands where it stands first. -/
theorem mem_entries_of_firstIndex {index : Nat} (h : pool.firstIndex constant = some index) :
    (index, constant) ∈ pool.entries := by
  obtain ⟨entry, hfind, rfl⟩ := Option.map_eq_some_iff.1 h
  have hconstant : entry.2 = constant := by simpa using List.find?_some hfind
  rw [← hconstant]
  exact List.mem_of_find?_eq_some hfind

/-- What is noted for texts and for the names of classes is where they stand first. -/
structure Noted (pool : Pool) : Prop where
  texts : ∀ text : String, pool.texts[text]?.map UInt16.toNat = pool.firstIndex (.utf8 text)
  classes : ∀ name : PoolIndex,
    pool.classes[name]?.map UInt16.toNat = pool.firstIndex (.classRef name)

/-- A text stands where it was noted. -/
theorem Noted.mem_entries (h : pool.Noted) (hnoted : pool.texts[text]? = some index) :
    (index.toNat, .utf8 text) ∈ pool.entries := by
  refine mem_entries_of_firstIndex ?_
  rw [← h.texts text, hnoted]
  rfl

theorem Noted.mem_entries_class {name : PoolIndex} (h : pool.Noted)
    (hnoted : pool.classes[name]? = some index) : (index.toNat, .classRef name) ∈ pool.entries := by
  refine mem_entries_of_firstIndex ?_
  rw [← h.classes name, hnoted]
  rfl

/-- A table whose keys keep their first values. -/
theorem getElem?_insertIfNew {K V : Type} [BEq K] [Hashable K] [LawfulBEq K] [LawfulHashable K]
    [DecidableEq K] (table : Std.HashMap K V) (key key' : K) (value : V) :
    (table.insertIfNew key value)[key']? =
      table[key']?.or (if key = key' then some value else none) := by
  rw [Std.HashMap.getElem?_insertIfNew]
  by_cases hkey : key = key'
  · subst hkey
    by_cases hnew : key ∈ table
    · simp [hnew]
    · simp [hnew]
  · simp [hkey]

/-- What is noted of a new constant is where it stands first, if it is new. -/
theorem Noted.push (h : pool.Noted) (hcount : pool.count < 65536) (constant : Constant) :
    (pool.push constant).Noted := by
  have hindex : (UInt16.ofNat pool.count).toNat = pool.count := UInt16.toNat_ofNat_of_lt' hcount
  constructor
  · -- a text is noted where it is first, and other constants note none
    intro text
    rw [firstIndex_push, ← h.texts text]
    cases constant with
    | utf8 added =>
      change ((pool.texts.insertIfNew added _)[text]?).map _ = _
      rw [getElem?_insertIfNew, Option.map_or]
      by_cases hadded : added = text <;> simp [hadded, hindex]
    | _ => simp [Pool.push, remember]
  · intro name
    rw [firstIndex_push, ← h.classes name]
    cases constant with
    | classRef added =>
      change ((pool.classes.insertIfNew added _)[name]?).map _ = _
      rw [getElem?_insertIfNew, Option.map_or]
      by_cases hadded : added = name <;> simp [hadded, hindex]
    | _ => simp [Pool.push, remember]

/-- Texts and classes are noted where they stand first, for any constants that a pool has room for.
-/
theorem noted_foldl_push (constants : List Constant) (h : pool.Noted)
    (hcount : (constants.foldl push pool).count ≤ 65536) : (constants.foldl push pool).Noted := by
  induction constants generalizing pool with
  | nil => exact h
  | cons constant constants ih =>
    have hlength := count_foldl_push (constant :: constants) pool
    rw [List.length_cons] at hlength
    exact ih (h.push (by omega) constant) hcount

/-- The tables of a pool tell where texts and classes stand first. -/
theorem Formed.noted (h : pool.Formed) : pool.Noted := by
  have hempty : (∅ : Pool).Noted := by
    constructor
    · intro text
      rw [show (∅ : Pool).texts = ∅ from rfl, Std.HashMap.getElem?_empty]
      rfl
    · intro name
      rw [show (∅ : Pool).classes = ∅ from rfl, Std.HashMap.getElem?_empty]
      rfl
  have hbuilt : pool = pool.constants.toList.foldl push ∅ := h.built
  have hlt := h.count_lt
  rw [hbuilt] at hlt ⊢
  exact noted_foldl_push _ hempty (by omega)

/-- A text is what a constant of the kind of texts holds. -/
theorem utf8_ok : pool.utf8 index = .ok text ↔ pool.get? index = some (.utf8 text) := by
  unfold Pool.utf8
  split
  · rename_i found hget
    constructor
    · exact fun h => hget.trans (congrArg (some ∘ Constant.utf8) (Except.ok.inj h))
    · intro h
      rw [h] at hget
      cases hget
      rfl
  · rename_i hother
    exact ⟨nofun, fun h => absurd h (hother text)⟩

/-- A text that stands in a pool is found where it stands first. -/
theorem Noted.exists_index (h : pool.Noted) (hbuilt : pool.Built)
    (hutf8 : pool.utf8 index = .ok text) :
    ∃ first, pool.texts[text]? = some first ∧
      pool.firstIndex (.utf8 text) = some first.toNat := by
  have hentry := hbuilt.get?_eq_some.1 (utf8_ok.1 hutf8)
  have hnoted := h.texts text
  cases hfirst : pool.texts[text]? with
  | some first =>
    rw [hfirst] at hnoted
    exact ⟨first, rfl, hnoted.symm⟩
  | none =>
    rw [hfirst] at hnoted
    have hnone := List.find?_eq_none.1 (Option.map_eq_none_iff.1 hnoted.symm) _ hentry
    simp at hnone

/-- A text keeps the index that is noted for it. -/
theorem Extends.texts (h : pool.Extends pool') (hnoted : pool.texts[text]? = some index) :
    pool'.texts[text]? = some index := by
  obtain ⟨more, rfl⟩ := h
  induction more generalizing pool with
  | nil => exact hnoted
  | cons constant more ih =>
    refine ih ?_
    cases constant with
    | utf8 added =>
      change (pool.texts.insertIfNew added _)[text]? = some index
      rw [getElem?_insertIfNew, hnoted]
      rfl
    | _ => exact hnoted

/-! ### Additions -/

/-- A constant may be added as long as there is room for it. -/
theorem Formed.push (h : pool.Formed) (hroom : pool.count + width constant ≤ 65535) :
    (pool.push constant).Formed := by
  refine ⟨h.built.foldl_push [constant], ?_⟩
  rw [count_push]
  omega

/-- A constant that is added stands at the index that was free. -/
theorem Formed.get?_push (h : pool.Formed) (constant : Constant) :
    (pool.push constant).get? (UInt16.ofNat pool.count) = some constant := by
  have hbuilt : (pool.push constant).Built := h.built.foldl_push [constant]
  rw [hbuilt.get?_eq_some, entries_push, UInt16.toNat_ofNat_of_lt' h.count_lt]
  exact List.mem_append_right _ (List.mem_singleton.2 rfl)

/-- A constant is added if there is room, and not else. -/
theorem add_ok : add constant pool = .ok index pool' ↔
    pool.count + width constant ≤ 65535 ∧ index = UInt16.ofNat pool.count ∧
      pool' = pool.push constant := by
  unfold add
  split
  · rename_i hle
    constructor
    · rintro ⟨⟩
      exact ⟨hle, rfl, rfl⟩
    · rintro ⟨-, rfl, rfl⟩
      rfl
  · rename_i hle
    exact ⟨nofun, fun h => absurd h.1 hle⟩

/-- A text is there at its index when it was added, and will be found there again. -/
theorem addUtf8_ok (hp : pool.Formed) (h : addUtf8 text pool = .ok index pool') :
    pool'.Formed ∧ pool.Extends pool' ∧ pool'.utf8 index = .ok text ∧
      pool'.texts[text]? = some index := by
  unfold addUtf8 at h
  obtain ⟨_, _, ⟨⟩, h⟩ := state_bind_ok.1 h
  -- a text that is noted is not added again
  rcases hnoted : pool.texts[text]? with _ | found
  · rw [hnoted] at h
    obtain ⟨hroom, rfl, rfl⟩ := add_ok.1 h
    refine ⟨hp.push hroom, extends_push _ _, utf8_ok.2 (hp.get?_push _), ?_⟩
    change (pool.texts.insertIfNew text _)[text]? = _
    rw [getElem?_insertIfNew, hnoted, if_pos rfl]
    rfl
  · rw [hnoted] at h
    obtain ⟨rfl, rfl⟩ := state_pure_ok.1 h
    refine ⟨hp, .refl pool, utf8_ok.2 ?_, hnoted⟩
    exact hp.built.get?_eq_some.2 (hp.noted.mem_entries hnoted)

/-- A text that is known is not added again. -/
theorem addUtf8_of_noted (h : pool.texts[text]? = some index) :
    addUtf8 text pool = .ok index pool := by
  unfold addUtf8
  refine state_bind_ok.2 ⟨pool, pool, rfl, ?_⟩
  rw [h]
  rfl

end Preverification.Pool
