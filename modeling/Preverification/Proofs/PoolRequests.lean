import Preverification.Proofs.ValidPools

/-!
# Pools under requests

A pool is started without constants, or read from a class file; afterwards it answers requests for
constants, of which some fail because there is no room. Each request, answered or not, only adds
constants that refer to each other as they should. Main statement: whatever was asked for so far,
the constants keep their indices, there are never too many of them, texts and classes are found
where they stand first, and the pool that is read from its own form is the same one.

* `Pool.Request.adds_answer`: a request only adds constants, and its answer is the index at which
  they stand.
* `Pool.Reachable.valid`: after any requests a pool is that of a class file.
* `Pool.Reachable.coherent`: whatever was asked for, a pool is coherent.
-/

namespace Preverification.Pool

/-! ### Requests -/

/-- What a pool is asked for. -/
inductive Request : Type 1 where
  | utf8 (text : String)
  | classRef (name : String)
  | refType (type : RefType)
  | string (text : String)
  | integer (value : Int32)
  | float (bits : UInt32)
  | long (value : Int64)
  | double (bits : UInt64)
  | nameAndType (name descriptor : String)
  | fieldRef (owner name descriptor : String)
  | methodRef (owner name descriptor : String) (ofInterface : Bool)
  | attributeOf {α : Type} [AttributeContents α] (value : α)

namespace Request

/-- The index of what was asked for; for an attribute that of its name. -/
def answer : Request → Edit PoolIndex
  | utf8 text => addUtf8 text
  | classRef name => addClass name
  | refType type => addRefType type
  | string text => addString text
  | integer value => add (.integer value)
  | float bits => add (.float bits)
  | long value => add (.long value)
  | double bits => add (.double bits)
  | nameAndType name descriptor => addNameAndType name descriptor
  | fieldRef owner name descriptor => addFieldRef owner name descriptor
  | methodRef owner name descriptor ofInterface => addMethodRef owner name descriptor ofInterface
  | attributeOf value => do return (← addAttribute value).name

/-- The pool behind a request, whether it was answered or failed. -/
def after (request : Request) (pool : Pool) : Pool :=
  match request.answer pool with
  | .ok _ pool' => pool'
  | .error _ pool' => pool'

/-- What was asked for stands at an index, and what it refers to is what it should be. -/
def StandsAt (pool : Pool) (index : PoolIndex) : Request → Prop
  | utf8 text => pool.get? index = some (.utf8 text)
  | classRef name => pool.className index = .ok name
  | refType type => pool.className index = .ok type.classConstant
  | string text => ∃ place, pool.get? index = some (.string place) ∧ pool.utf8 place = .ok text
  | integer value => pool.get? index = some (.integer value)
  | float bits => pool.get? index = some (.float bits)
  | long value => pool.get? index = some (.long value)
  | double bits => pool.get? index = some (.double bits)
  | nameAndType name descriptor => pool.nameAndType index = .ok (name, descriptor)
  | fieldRef owner name descriptor => ∃ place member,
      pool.get? index = some (.fieldRef place member) ∧ pool.className place = .ok owner ∧
        pool.nameAndType member = .ok (name, descriptor)
  | methodRef owner name descriptor ofInterface => ∃ place member,
      pool.get? index = some (.methodRef place member ofInterface) ∧
        pool.className place = .ok owner ∧ pool.nameAndType member = .ok (name, descriptor)
  | @attributeOf α _ _ => pool.get? index = some (.utf8 (AttributeContents.name α))

end Request

/-- The pools that come about by requests. -/
inductive Reachable : Pool → Prop where
  | empty : Reachable ∅
  | read {input later : Input} {pool : Pool} (h : Pool.read input = .ok pool later) :
      Reachable pool
  | after {pool : Pool} (request : Request) (h : Reachable pool) : Reachable (request.after pool)

/-! ### Constants with references -/

variable {pool pool' : Pool}

/-- A name and a descriptor are the texts to which a constant refers. -/
theorem nameAndType_ok {index : PoolIndex} {name descriptor : String} :
    pool.nameAndType index = .ok (name, descriptor) ↔
      ∃ place place', pool.get? index = some (.nameAndType place place') ∧
        pool.utf8 place = .ok name ∧ pool.utf8 place' = .ok descriptor := by
  unfold Pool.nameAndType
  split
  · rename_i place place' hget
    rw [except_bind_ok, hget]
    constructor
    · rintro ⟨found, hfound, h⟩
      rcases except_bind_ok.1 h with ⟨found', hfound', hpure⟩
      cases hpure
      exact ⟨place, place', rfl, hfound, hfound'⟩
    · rintro ⟨_, _, ⟨⟩, hname, hdescriptor⟩
      exact ⟨name, hname, except_bind_ok.2 ⟨descriptor, hdescriptor, rfl⟩⟩
  · rename_i hother
    constructor
    · nofun
    · rintro ⟨place, place', hget, -⟩
      exact absurd hget (hother place place')

/-- A string is added behind its text. -/
theorem adds_addString (pool : Pool) (text : String) :
    Adds pool (addString text) fun pool' index => (Request.string text).StandsAt pool' index := by
  unfold addString
  refine (adds_addUtf8 pool text).bind fun place pool' _ hvalid htext => ?_
  have hreferences : pool'.checkReferences (.string place) = .ok () :=
    except_discard_ok.2 ⟨text, htext⟩
  refine (adds_behind hvalid.built hreferences).mono fun _ _ _ hfound => ?_
  exact ⟨place, hfound.2, hfound.1.utf8 hvalid.built htext⟩

/-- A pair of names is added behind both texts. -/
theorem adds_addNameAndType (pool : Pool) (name descriptor : String) :
    Adds pool (addNameAndType name descriptor) fun pool' index =>
      pool'.nameAndType index = .ok (name, descriptor) := by
  unfold addNameAndType
  refine (adds_addUtf8 pool name).bind fun place pool₁ _ hvalid₁ hname => ?_
  refine (adds_addUtf8 pool₁ descriptor).extends.bind fun place' pool₂ _ hvalid₂ hfound => ?_
  rcases hfound with ⟨hextends, hdescriptor⟩
  have hname' := hextends.utf8 hvalid₁.built hname
  have hreferences : pool₂.checkReferences (.nameAndType place place') = .ok () :=
    except_bind_ok.2 ⟨(), except_discard_ok.2 ⟨name, hname'⟩,
      except_discard_ok.2 ⟨descriptor, hdescriptor⟩⟩
  refine (adds_behind hvalid₂.built hreferences).mono fun _ _ _ hfound => ?_
  exact nameAndType_ok.2 ⟨place, place', hfound.2, hfound.1.utf8 hvalid₂.built hname',
    hfound.1.utf8 hvalid₂.built hdescriptor⟩

/-- A constant is added that refers to a class, and to a name with a descriptor. -/
theorem adds_member (make : PoolIndex → PoolIndex → Constant)
    (hmake : ∀ (pool : Pool) place member, pool.checkReferences (make place member) = do
      discard (pool.className place)
      discard (pool.nameAndType member)) (pool : Pool) (owner name descriptor : String) :
    Adds pool (do add (make (← addClass owner) (← addNameAndType name descriptor)))
      fun pool' index => ∃ place member, pool'.get? index = some (make place member) ∧
        pool'.className place = .ok owner ∧
          pool'.nameAndType member = .ok (name, descriptor) := by
  refine (adds_addClass pool owner).bind fun place pool₁ _ hvalid₁ howner => ?_
  refine (adds_addNameAndType pool₁ name descriptor).extends.bind
    fun member pool₂ _ hvalid₂ hfound => ?_
  rcases hfound with ⟨hextends, hmember⟩
  have howner' := hextends.className hvalid₁.built howner
  have hreferences : pool₂.checkReferences (make place member) = .ok () := by
    rw [hmake]
    exact except_bind_ok.2 ⟨(), except_discard_ok.2 ⟨owner, howner'⟩,
      except_discard_ok.2 ⟨_, hmember⟩⟩
  refine (adds_behind hvalid₂.built hreferences).mono fun _ _ _ hfound => ?_
  exact ⟨place, member, hfound.2, hfound.1.className hvalid₂.built howner',
    hfound.1.nameAndType hvalid₂.built hmember⟩

/-! ### Answers -/

/-- A request only adds constants, and its answer is the index at which they stand. -/
theorem Request.adds_answer (request : Request) (pool : Pool) :
    Adds pool request.answer fun pool' index => request.StandsAt pool' index := by
  cases request with
  | utf8 text => exact (adds_addUtf8 pool text).mono fun _ _ _ => utf8_ok.1
  | classRef name => exact adds_addClass pool name
  | refType type => exact adds_addClass pool type.classConstant
  | string text => exact adds_addString pool text
  | integer _ | float _ | long _ | double _ => exact adds_add rfl
  | nameAndType name descriptor => exact adds_addNameAndType pool name descriptor
  | fieldRef owner name descriptor =>
    exact adds_member .fieldRef (fun _ _ _ => rfl) pool owner name descriptor
  | methodRef owner name descriptor ofInterface =>
    exact adds_member (.methodRef · · ofInterface) (fun _ _ _ => rfl) pool owner name descriptor
  | attributeOf value =>
    exact (adds_addAttribute pool value).bind fun _ _ _ _ hname => adds_pure (utf8_ok.1 hname.1)

/-- What is behind a request has all constants that were there before. -/
theorem Request.valid_after (request : Request) (h : pool.Valid) :
    (request.after pool).Valid ∧ pool.Extends (request.after pool) := by
  have hadds := request.adds_answer pool
  unfold after
  split
  · rename_i index pool' hanswer
    rcases hadds.ok h index pool' hanswer with ⟨hvalid, hextends, -⟩
    exact ⟨hvalid, hextends⟩
  · rename_i error pool' hanswer
    exact hadds.error h error pool' hanswer

/-- A pool stays valid, whatever it is asked for and whether it answers. -/
theorem Reachable.valid (h : pool.Reachable) : pool.Valid := by
  induction h with
  | empty => exact valid_empty
  | read h => exact (reads_read.1 h).1
  | after request _ ih => exact (request.valid_after ih).1

/-- The number of indices that some constants take up. -/
def slots : List Constant → Nat
  | [] => 0
  | constant :: rest => width constant + slots rest

theorem count_foldl_push_eq (constants : List Constant) (pool : Pool) :
    (constants.foldl push pool).count = pool.count + slots constants := by
  induction constants generalizing pool with
  | nil => rfl
  | cons constant constants ih => rw [List.foldl_cons, ih, count_push, slots, Nat.add_assoc]

/-- What holds of a pool at any time. -/
structure Coherent (pool : Pool) : Prop where
  -- index zero is not used, and behind it each constant takes up as many indices as it is wide
  count_eq : pool.count = 1 + slots pool.constants.toList
  -- the count can be written in two bytes
  count_le : pool.count ≤ 65535
  -- constants stay where they are, whether a request is answered or fails
  kept : ∀ request : Request, pool.entries <+: (request.after pool).entries ∧
    ∀ index constant, pool.get? index = some constant →
      (request.after pool).get? index = some constant
  -- what is asked for stands at the index that is the answer
  answered : ∀ (request : Request) index pool', request.answer pool = .ok index pool' →
    request.StandsAt pool' index
  -- texts and classes are found where they stand first
  noted : pool.Noted
  references : ∀ constant ∈ pool.constants.toList, pool.checkReferences constant = .ok ()
  -- reading takes all that is written for the pool, and gives the same constants and the same
  -- tables
  read_write : (∀ constant ∈ pool.constants.toList, constant.Fits) →
    Reader.run Pool.read pool.write = .ok (pool, [])

/-- **Whatever was asked for, a pool is coherent**: it holds constants at their indices, never more
than can be counted, finds texts and classes again, and is read as it was written. -/
theorem Reachable.coherent (h : pool.Reachable) : pool.Coherent where
  count_eq := by
    have hcount := count_foldl_push_eq pool.constants.toList ∅
    rw [← ofConstants, ← h.valid.built] at hcount
    exact hcount
  count_le := Nat.le_of_lt_succ h.valid.count_lt
  kept := by
    intro request
    rcases request.valid_after h.valid with ⟨-, hextends⟩
    refine ⟨hextends.entries_prefix, ?_⟩
    intro index constant hget
    exact hextends.get? h.valid.built hget
  answered := by
    intro request index pool' hanswer
    rcases (request.adds_answer pool).ok h.valid index pool' hanswer with ⟨-, -, hstands⟩
    exact hstands
  noted := h.valid.toFormed.noted
  references := h.valid.references
  read_write := by
    intro hfits
    have hbehind := Input.behind_self pool.write [] 0
    rw [List.append_nil] at hbehind
    exact Reader.run_ok.2 ⟨_, reads_read.2 ⟨h.valid, hfits, .inl hbehind⟩⟩

/-- The pool in which a text, a string and a number of two slots were asked for. -/
def stringThenLong : Pool := (Request.long 5).after ((Request.string "A").after ∅)

/-- The text comes in front of the string that refers to it, and the number behind both. -/
theorem stringThenLong_coherent : stringThenLong.Reachable ∧ stringThenLong.Coherent ∧
    stringThenLong.entries = [(1, .utf8 "A"), (2, .string 1), (3, .long 5)] ∧
    stringThenLong.count = 5 := by
  have hreachable : stringThenLong.Reachable := .after _ (.after _ .empty)
  have htext : addUtf8 "A" ∅ = .ok 1 ((∅ : Pool).push (.utf8 "A")) := by
    have hnone : (∅ : Pool).texts["A"]? = none := Std.HashMap.getElem?_empty
    unfold addUtf8
    refine state_bind_ok.2 ⟨∅, ∅, rfl, ?_⟩
    rw [hnone]
    rfl
  have hstring : addString "A" ∅ = .ok 2 (((∅ : Pool).push (.utf8 "A")).push (.string 1)) :=
    state_bind_ok.2 ⟨1, _, htext, rfl⟩
  have hpool : stringThenLong =
      (((∅ : Pool).push (.utf8 "A")).push (.string 1)).push (.long 5) := by
    unfold stringThenLong Request.after Request.answer
    dsimp only
    rw [hstring]
    rfl
  refine ⟨hreachable, hreachable.coherent, ?_, ?_⟩
  · rw [hpool]
    rfl
  · rw [hpool]
    rfl

end Preverification.Pool
