import Preverification.Body.Encode
import Preverification.Proofs.PoolEdits
import Preverification.Typing.Frames

/-!
# Pools that stay those of class files

Only texts, and classes whose names are texts, are added to a pool while a method is preverified. So
the constants of the pool go on to refer to each other as they should.

* `Pool.Adds`: a change that succeeds leaves a pool of a class file, and tells something about it.
* `Pool.adds_add`: a constant may be added if its references are those of the pool.
* `Pool.adds_addFrames`: the attribute of the frames has a name that says what it is.
* `Pool.adds_encode`: a body is written into a pool that is still one of a class file.
-/

namespace Preverification.Pool

open MonadExcept (ofExcept)

/-- From a pool on, a change only adds constants, which refer to each other as they should, whether
it succeeds or not; if it succeeds its answer has a property. -/
structure Adds {α : Type} (pool : Pool) (change : Edit α) (P : Pool → α → Prop) : Prop where
  ok : pool.Valid → ∀ answer pool', change pool = .ok answer pool' →
    pool'.Valid ∧ pool.Extends pool' ∧ P pool' answer
  error : pool.Valid → ∀ error pool', change pool = .error error pool' →
    pool'.Valid ∧ pool.Extends pool'

section Adds

variable {α β : Type} {pool pool' : Pool} {change : Edit α} {next : α → Edit β}
  {P : Pool → α → Prop} {Q : Pool → β → Prop}

theorem adds_pure {answer : α} (h : P pool answer) : Adds pool (pure answer) P where
  ok := by
    intro hvalid found pool' hrun
    rcases state_pure_ok.1 hrun with ⟨rfl, rfl⟩
    exact ⟨hvalid, .refl pool, h⟩
  error := nofun

/-- What is only looked up changes no pool. -/
theorem adds_ofExcept {result : Except StructuralError α} (h : ∀ a, result = .ok a → P pool a) :
    Adds pool (ofExcept result) P where
  ok := by
    intro hvalid found pool' hrun
    rcases ofExcept_ok.1 hrun with ⟨hresult, rfl⟩
    exact ⟨hvalid, .refl pool, h found hresult⟩
  error := by
    intro hvalid error pool' hrun
    unfold ofExcept at hrun
    cases result with
    | ok answer => cases hrun
    | error found =>
      cases hrun
      exact ⟨hvalid, .refl pool⟩

/-- The second change may rely on what the first one told. -/
theorem Adds.bind (h : Adds pool change P)
    (hnext : ∀ answer pool', pool.Extends pool' → pool'.Valid → P pool' answer →
      Adds pool' (next answer) Q) : Adds pool (change >>= next) Q where
  ok := by
    intro hvalid answer pool'' hrun
    rcases state_bind_ok.1 hrun with ⟨first, middle, hfirst, hrest⟩
    rcases h.ok hvalid first middle hfirst with ⟨hmiddle, hextends, hp⟩
    rcases (hnext first middle hextends hmiddle hp).ok hmiddle answer pool'' hrest with
      ⟨hvalid', hextends', hq⟩
    exact ⟨hvalid', hextends.trans hextends', hq⟩
  error := by
    intro hvalid error pool'' hrun
    rcases state_bind_error.1 hrun with hfirst | ⟨first, middle, hfirst, hrest⟩
    · exact h.error hvalid error pool'' hfirst
    · -- what was added before the failure stays
      rcases h.ok hvalid first middle hfirst with ⟨hmiddle, hextends, hp⟩
      rcases (hnext first middle hextends hmiddle hp).error hmiddle error pool'' hrest with
        ⟨hvalid', hextends'⟩
      exact ⟨hvalid', hextends.trans hextends'⟩

/-- The pool that is left has the constants that were there. -/
theorem Adds.extends (h : Adds pool change P) :
    Adds pool change fun pool' answer => pool.Extends pool' ∧ P pool' answer where
  ok := by
    intro hvalid answer pool' hrun
    rcases h.ok hvalid answer pool' hrun with ⟨hvalid', hextends, hp⟩
    exact ⟨hvalid', hextends, hextends, hp⟩
  error := h.error

/-- Only changes of pools of class files matter. -/
theorem adds_valid (h : pool.Valid → Adds pool change P) : Adds pool change P where
  ok hvalid := (h hvalid).ok hvalid
  error hvalid := (h hvalid).error hvalid

/-- A change may depend on the pool itself. -/
theorem adds_get {dependent : Pool → Edit α} (h : Adds pool (dependent pool) P) :
    Adds pool (MonadState.get >>= dependent) P := ⟨h.ok, h.error⟩

/-- Less may be told. -/
theorem Adds.mono {P' : Pool → α → Prop} (h : Adds pool change P)
    (hmono : ∀ pool' answer, pool'.Valid → P pool' answer → P' pool' answer) :
    Adds pool change P' where
  ok := by
    intro hvalid answer pool' hrun
    rcases h.ok hvalid answer pool' hrun with ⟨hvalid', hextends, hp⟩
    exact ⟨hvalid', hextends, hmono pool' answer hvalid' hp⟩
  error := h.error

theorem adds_mapM {f : α → Edit β} (h : ∀ a pool, Adds pool (f a) fun _ _ => True) (l : List α) :
    Adds pool (l.mapM f) fun _ _ => True := by
  induction l generalizing pool with
  | nil => exact adds_pure trivial
  | cons a l ih =>
    rw [List.mapM_cons]
    exact (h a pool).bind fun _ _ _ _ _ => ih.bind fun _ _ _ _ _ => adds_pure trivial

end Adds

/-! ### Additions -/

variable {pool pool' : Pool} {constant : Constant}

theorem valid_empty : (∅ : Pool).Valid := ⟨⟨built_ofConstants [], by decide⟩, nofun⟩

/-- A pool stays valid if there is room for the constant, and if it refers to what it should. -/
theorem Valid.push (h : pool.Valid) (hroom : pool.count + width constant ≤ 65535)
    (hconstant : (pool.push constant).checkReferences constant = .ok ()) :
    (pool.push constant).Valid := by
  refine ⟨h.toFormed.push hroom, ?_⟩
  rw [constants_push, WidthVector.toList_push]
  refine List.forall_mem_append.2 ⟨?_, List.forall_mem_singleton.2 hconstant⟩
  intro found hfound
  exact (extends_push pool constant).checkReferences h.built (h.references found hfound)

/-- A constant is added whose references are those of the pool that it is added to. -/
theorem adds_add (h : (pool.push constant).checkReferences constant = .ok ()) :
    Adds pool (add constant) fun pool' index => pool'.get? index = some constant where
  ok := by
    intro hvalid index pool' hrun
    rcases add_ok.1 hrun with ⟨hroom, rfl, rfl⟩
    exact ⟨hvalid.push hroom h, extends_push _ _, hvalid.toFormed.get?_push constant⟩
  error := by
    intro hvalid error pool' hrun
    unfold add at hrun
    split at hrun
    · cases hrun
    · cases hrun
      exact ⟨hvalid, .refl pool⟩

/-- A constant that refers to constants of a pool is added behind them. -/
theorem adds_behind (hbuilt : pool.Built) (h : pool.checkReferences constant = .ok ()) :
    Adds pool (add constant) fun pool' index =>
      pool.Extends pool' ∧ pool'.get? index = some constant :=
  (adds_add ((extends_push pool constant).checkReferences hbuilt h)).extends

/-- An index that is noted is given out again; otherwise a constant is added. -/
theorem adds_noted {noted : Option PoolIndex} (hbuilt : pool.Built)
    (h : pool.checkReferences constant = .ok ())
    (hnoted : ∀ index, noted = some index → pool.get? index = some constant) :
    Adds pool (match noted with | some index => pure index | none => add constant)
      fun pool' index => pool.Extends pool' ∧ pool'.get? index = some constant := by
  cases noted with
  | none => exact adds_behind hbuilt h
  | some index => exact adds_pure ⟨.refl pool, hnoted index rfl⟩

/-- The index of a text leads to the text. -/
theorem adds_addUtf8 (pool : Pool) (text : String) :
    Adds pool (addUtf8 text) fun pool' index => pool'.utf8 index = .ok text := by
  refine adds_valid fun hvalid => adds_get ?_
  have hnoted : ∀ index, pool.texts[text]? = some index →
      pool.get? index = some (.utf8 text) := fun index hindex =>
    hvalid.built.get?_eq_some.2 (hvalid.toFormed.noted.mem_entries hindex)
  exact (adds_noted hvalid.built rfl hnoted).mono fun _ _ _ hfound => utf8_ok.2 hfound.2

/-- The name of a class is the text that its constant refers to. -/
theorem className_ok {index : PoolIndex} {name : String} : pool.className index = .ok name ↔
    ∃ place, pool.get? index = some (.classRef place) ∧ pool.utf8 place = .ok name := by
  unfold className
  split
  · rename_i place hget
    simp [hget]
  · rename_i hother
    constructor
    · nofun
    · rintro ⟨place, hget, -⟩
      exact absurd hget (hother place)

/-- A class is added behind its name. -/
theorem adds_addClass (pool : Pool) (name : String) :
    Adds pool (addClass name) fun pool' index => pool'.className index = .ok name := by
  unfold addClass
  refine (adds_addUtf8 pool name).bind fun place pool' _ hvalid hutf8 => adds_get ?_
  have hnoted : ∀ index, pool'.classes[place]? = some index →
      pool'.get? index = some (.classRef place) := fun index hindex =>
    hvalid.built.get?_eq_some.2 (hvalid.toFormed.noted.mem_entries_class hindex)
  have hreferences : pool'.checkReferences (.classRef place) = .ok () :=
    except_discard_ok.2 ⟨name, hutf8⟩
  have hfound := adds_noted hvalid.built hreferences hnoted
  -- the name stays where it is when its class is added
  refine hfound.mono fun pool'' index _ hfound => ?_
  exact className_ok.2 ⟨place, hfound.2, hfound.1.utf8 hvalid.built hutf8⟩

/-! ### What is written for a method -/

/-- An attribute has the name of its contents. -/
theorem adds_addAttribute {α : Type} [AttributeContents α] (pool : Pool) (value : α) :
    Adds pool (addAttribute value) fun pool' attr =>
      pool'.utf8 attr.name = .ok (AttributeContents.name α) ∧
        attr.contents = AttributeContents.write value := by
  unfold addAttribute
  exact (adds_addUtf8 pool _).bind fun _ _ _ _ hname => adds_pure ⟨hname, rfl⟩

theorem adds_addTable {α β : Type} [AttributeContents β] (pool : Pool) (table : List α → β)
    (entries : List α) : Adds pool (addTable table entries) fun _ _ => True := by
  unfold addTable
  split
  · exact adds_pure trivial
  · exact (adds_addAttribute pool _).bind fun _ _ _ _ _ => adds_pure trivial

/-- At most the name of a class is added for a type. -/
theorem adds_serialize (layout : Layout) (type : InferredType) (pool : Pool) :
    Adds pool (type.serialize layout) fun _ _ => True := by
  cases type with
  | object class' =>
    exact (adds_addClass pool _).bind fun _ _ _ _ _ => adds_pure trivial
  | uninitialized site =>
    exact (adds_ofExcept (P := fun _ _ => True) fun _ _ => trivial).bind fun _ _ _ _ _ =>
      adds_pure trivial
  | _ => exact adds_pure trivial

theorem adds_serializeFrame (layout : Layout) (frame : Frame InferredType) (pool : Pool) :
    Adds pool (frame.serialize layout) fun _ _ => True := by
  unfold Frame.serialize
  exact (adds_mapM (adds_serialize layout) _).bind fun _ _ _ _ _ =>
    (adds_mapM (adds_serialize layout) _).bind fun _ _ _ _ _ => adds_pure trivial

/-- The names of the attributes that hold frames. -/
def frameNames : List String :=
  [AttributeContents.name StackMapTable, AttributeContents.name StackMap]

/-- One attribute with the frames is written, and none if there are no frames. -/
theorem adds_addFrames (format : FrameFormat) (layout : Layout) (entry : Frame InferredType)
    (frames : List PlacedFrame) (pool : Pool) :
    Adds pool (addFrames format layout entry frames) fun pool' attributes =>
      ∀ attr ∈ attributes, ∃ name ∈ frameNames, pool'.utf8 attr.name = .ok name := by
  have hone : ∀ {pool' : Pool} {attr : Attribute} {name : String}, name ∈ frameNames →
      pool'.utf8 attr.name = .ok name →
        ∀ found ∈ [attr], ∃ name ∈ frameNames, pool'.utf8 found.name = .ok name :=
    fun hmem hname => List.forall_mem_singleton.2 ⟨_, hmem, hname⟩
  -- without frames, no attribute is added
  unfold addFrames
  split
  · exact adds_pure nofun
  · cases format with
    | stackMapTable =>
      refine (adds_serializeFrame layout entry pool).bind fun _ pool' _ _ _ => ?_
      exact (adds_addAttribute pool' _).bind fun _ _ _ _ hname =>
        adds_pure (hone List.mem_cons_self hname.1)
    | stackMap =>
      exact (adds_addAttribute pool _).bind fun _ _ _ _ hname =>
        adds_pure (hone (List.mem_cons_of_mem _ List.mem_cons_self) hname.1)

theorem adds_encode (body : Body) (layout : Layout) (extra : List Attribute) (pool : Pool) :
    Adds pool (body.encode layout extra) fun _ _ => True := by
  have hcheck : ∀ {α : Type} (result : Except StructuralError α) (pool : Pool),
      Adds pool (ofExcept result) fun _ _ => True := fun _ _ => adds_ofExcept fun _ _ => trivial
  unfold Body.encode
  refine (hcheck _ pool).bind fun _ pool _ _ _ => (hcheck _ pool).bind fun _ pool _ _ _ => ?_
  refine (adds_addTable pool _ _).bind fun _ pool _ _ _ => ?_
  refine (hcheck _ pool).bind fun _ pool _ _ _ => (adds_addTable pool _ _).bind ?_
  refine fun _ pool _ _ _ => (hcheck _ pool).bind fun _ pool _ _ _ => ?_
  exact (adds_addTable pool _ _).bind fun _ _ _ _ _ => adds_pure trivial

end Preverification.Pool
