import Preverification.Proofs.SuperclassChains

/-!
# The closest types

Two classes have the first class in common that is in both of their chains, and the root if there is
none. It makes no difference which of the two comes first, and every other class that both extend is
above it.

The closest type that two types have in common is above both of them. For two classes no other type
above both is below it; arrays may have closer types in common. The order of types is the least one
in which classes are below their superclasses, arrays are ordered by their elements and are below
their two interfaces, and everything is below the root.

* `Headers.Closest`: the class that two classes have in common, by their chains.
* `RefType.OrderRules`, `RefType.Below.related`: the order of types is the least one by its rules.
* `Headers.Closest.least`: whatever is above two classes is above the class that they have in
  common.
* `Resolver.mergesTypes`: following superclasses and merging types upwards, for every resolver.
-/

namespace Preverification

namespace Headers

/-- The class that two classes have in common. -/
inductive Closest (headers : Headers) : BinaryName → BinaryName → BinaryName → Prop where
  | same (name : BinaryName) : Closest headers name name name
  -- the first class in both chains. Every class in both chains is reached from it
  | shared {first second common : BinaryName} {before after others : List BinaryName}
    (hne : first ≠ second) (h : headers.EndsIn first (.ok (before ++ common :: after)))
    (h' : headers.EndsIn second (.ok others)) (hbefore : ∀ name ∈ before, name ∉ others)
    (hcommon : common ∈ others)
    (habove : ∀ name ∈ before ++ common :: after, name ∈ others →
      headers.superclass.Extends common name) :
    Closest headers first second common
  -- the root, for chains without a common class
  | apart {first second : BinaryName} {chain others : List BinaryName} (hne : first ≠ second)
    (h : headers.EndsIn first (.ok chain)) (h' : headers.EndsIn second (.ok others))
    (hdisjoint : ∀ name ∈ chain, name ∉ others) : Closest headers first second .object

variable {headers : Headers} {first second common : BinaryName}

/-- A class is in the chain of another one if that one extends it. -/
theorem EndsIn.mem_iff {name other : BinaryName} {chain : List BinaryName}
    (h : headers.EndsIn name (.ok chain)) :
    other ∈ chain ↔ headers.superclass.Extends name other := by
  obtain ⟨last, header, hwalk, hfound, hroot⟩ := endsIn_ok.1 h
  exact hwalk.mem_iff (superclass_eq_none hfound hroot)

/-- No class comes twice in a chain that ends. -/
theorem EndsIn.nodup {name : BinaryName} {chain : List BinaryName}
    (h : headers.EndsIn name (.ok chain)) : chain.Nodup := by
  obtain ⟨last, header, hwalk, hfound, hroot⟩ := endsIn_ok.1 h
  exact hwalk.nodup (superclass_eq_none hfound hroot)

/-- Every class in a chain has the rest of it as its own chain. -/
theorem EndsIn.of_append {name other : BinaryName} {before after : List BinaryName}
    (h : headers.EndsIn name (.ok (before ++ other :: after))) :
    headers.EndsIn other (.ok (other :: after)) := by
  obtain ⟨last, header, hwalk, hfound, hroot⟩ := endsIn_ok.1 h
  exact .root hwalk.of_append hfound hroot

/-- Two classes that extend each other are the same. -/
theorem EndsIn.extends_antisymm {name other : BinaryName} {chain : List BinaryName}
    (h : headers.EndsIn name (.ok chain)) (hextends : headers.superclass.Extends name other)
    (hback : headers.superclass.Extends other name) : name = other := by
  obtain ⟨last, header, hwalk, hfound, hroot⟩ := endsIn_ok.1 h
  exact hwalk.extends_antisymm (superclass_eq_none hfound hroot) hextends hback

/-- The class in common of two classes that have chains. -/
theorem closest_of_chains {chain others : List BinaryName} (hne : first ≠ second)
    (h : headers.EndsIn first (.ok chain)) (h' : headers.EndsIn second (.ok others)) :
    headers.Closest first second ((chain.find? (· ∈ others)).getD .object) := by
  cases hfind : chain.find? (· ∈ others) with
  | none => exact .apart hne h h' (by simpa using List.find?_eq_none.1 hfind)
  | some common =>
    obtain ⟨hmem, before, after, rfl, hbefore⟩ := List.find?_eq_some_iff_append.1 hfind
    have hbefore : ∀ name ∈ before, name ∉ others := by simpa using hbefore
    refine .shared hne h h' hbefore (by simpa using hmem) ?_
    intro name hname hother
    -- it is not before the first class in both chains, so it is reached from there
    rcases List.mem_append.1 hname with hname | hname
    · exact absurd hother (hbefore name hname)
    · exact h.of_append.mem_iff.1 hname

/-- Two classes that have chains have nothing else in common. -/
theorem Closest.eq_of_chains {chain others : List BinaryName}
    (h : headers.Closest first second common) (hne : first ≠ second)
    (hfirst : headers.EndsIn first (.ok chain)) (hsecond : headers.EndsIn second (.ok others)) :
    (chain.find? (· ∈ others)).getD .object = common := by
  cases h with
  | same => exact absurd rfl hne
  | shared _ h h' hbefore hcommon =>
    cases hfirst.unique h
    cases hsecond.unique h'
    rw [List.find?_eq_some_iff_append.2 ⟨by simpa using hcommon, _, _, rfl,
      by simpa using hbefore⟩, Option.getD_some]
  | apart _ h h' hdisjoint =>
    cases hfirst.unique h
    cases hsecond.unique h'
    rw [List.find?_eq_none.2 (by simpa using hdisjoint), Option.getD_none]

/-- An answer for two classes is the class that they have in common. -/
theorem CommonSuperclass.closest_iff {looked : List BinaryName}
    {answer : Except ResolveError BinaryName}
    (h : headers.CommonSuperclass first second looked answer) :
    answer = .ok common ↔ headers.Closest first second common := by
  cases h with
  | same =>
    refine ⟨fun heq => Except.ok.inj heq ▸ .same first, fun hclosest => ?_⟩
    cases hclosest with
    | same => rfl
    | shared hne | apart hne => exact absurd rfl hne
  | secondFails hne h =>
    -- a chain that does not end leads to no class in common
    refine ⟨nofun, fun hclosest => ?_⟩
    cases hclosest with
    | same => exact absurd rfl hne
    | shared _ _ h' | apart _ _ h' => exact absurd (h.endsIn.unique h') nofun
  | firstFails hne _ h =>
    refine ⟨nofun, fun hclosest => ?_⟩
    cases hclosest with
    | same => exact absurd rfl hne
    | shared _ h' | apart _ h' => exact absurd (h.endsIn.unique h') nofun
  | meet hne h h' =>
    rw [Except.ok.injEq]
    constructor
    · rintro rfl
      exact closest_of_chains hne h'.endsIn h.endsIn
    · intro hclosest
      exact hclosest.eq_of_chains hne h'.endsIn h.endsIn

/-- It makes no difference which of two classes comes first for the closest one. -/
theorem Closest.symm (h : headers.Closest first second common) :
    headers.Closest second first common := by
  cases h with
  | same => exact .same first
  | shared hne h h' hbefore hcommon habove =>
    obtain ⟨before', after', rfl⟩ := List.append_of_mem hcommon
    refine .shared (Ne.symm hne) h' h ?_ (by simp) fun name hother hname =>
      habove name hname hother
    intro name hname' hname
    -- what is in both chains is reached from the common class, so it does not come before that
    have hlater := h'.of_append.mem_iff.2 (habove name hname (List.mem_append_left _ hname'))
    exact (List.nodup_append.1 h'.nodup).2.2 name hname' name hlater rfl
  | apart hne h h' hdisjoint =>
    exact .apart (Ne.symm hne) h' h fun name hother hname => hdisjoint name hname hother

end Headers

/-! ### The order of types -/

namespace RefType

variable {superclass : Superclasses} {type other : RefType}

/-- What an order of types has to be like. -/
structure OrderRules (superclass : Superclasses) (related : RefType → RefType → Prop) : Prop where
  refl : ∀ type, related type type
  trans : ∀ first second third, related first second → related second third → related first third
  -- a class is below its superclass
  superclass : ∀ name parent, superclass name = some parent →
    related (.object name) (.object parent)
  -- arrays are ordered by their elements
  array : ∀ type other, related type other → related (arrayOf (.ref type)) (arrayOf (.ref other))
  cloneable : ∀ element, related (arrayOf element) (.object .cloneable)
  serializable : ∀ element, related (arrayOf element) (.object .serializable)
  root : ∀ type, related type (.object .object)

theorem element?_arrayOf (element : FieldType) : (arrayOf element).element? = some element := by
  rcases element with base | ⟨name | ⟨extra, name⟩ | ⟨extra, base⟩⟩ <;> rfl

theorem arrayOf_of_element? {element : FieldType} (h : type.element? = some element) :
    arrayOf element = type := by
  rcases type with name | ⟨_ | extra, name⟩ | ⟨_ | extra, base⟩ <;> cases h <;> rfl

/-- The order of types follows the rules. -/
theorem below_orderRules (hr : superclass.Rooted) : OrderRules superclass (Below superclass) where
  refl := .refl
  trans _ _ _ h h' := h.trans hr h'
  superclass _ _ h := .extends (.single h)
  array type other h := .array (element?_arrayOf _) (element?_arrayOf _) h
  cloneable element := .cloneable (by rw [IsArray, element?_arrayOf]; rfl)
  serializable element := .serializable (by rw [IsArray, element?_arrayOf]; rfl)
  root := .root

/-- Whatever follows the rules relates all types that are ordered. -/
theorem Below.related {related : RefType → RefType → Prop} (hrules : OrderRules superclass related)
    (h : Below superclass type other) : related type other := by
  induction h with
  | refl type => exact hrules.refl type
  | «extends» hextends =>
    induction hextends with
    | refl => exact hrules.refl _
    | tail _ hparent ih => exact hrules.trans _ _ _ ih (hrules.superclass _ _ hparent)
  | root type => exact hrules.root type
  | cloneable ha =>
    obtain ⟨element, helement⟩ := Option.isSome_iff_exists.1 ha
    exact arrayOf_of_element? helement ▸ hrules.cloneable element
  | serializable ha =>
    obtain ⟨element, helement⟩ := Option.isSome_iff_exists.1 ha
    exact arrayOf_of_element? helement ▸ hrules.serializable element
  | array ht ho _ ih =>
    rw [← arrayOf_of_element? ht, ← arrayOf_of_element? ho]
    exact hrules.array _ _ ih

/-- What is above a class is the root or a class that it extends. -/
theorem Below.of_object {name : BinaryName} (h : Below superclass (.object name) type) :
    type = .object .object ∨ ∃ parent, type = .object parent ∧ superclass.Extends name parent := by
  cases h with
  | refl => exact .inr ⟨name, rfl, .refl⟩
  | «extends» h => exact .inr ⟨_, rfl, h⟩
  | root => exact .inl rfl
  | cloneable h | serializable h => exact absurd h (Headers.not_isArray_object name)
  | array h => cases h

/-- Nothing else is above the root. -/
theorem Below.of_root (hr : superclass.Rooted) (h : Below superclass (.object .object) type) :
    type = .object .object := by
  rcases h.of_object with rfl | ⟨parent, rfl, hextends⟩
  · rfl
  · rw [hr.eq_object hextends]

/-- Taking a dimension off keeps the innermost type. -/
theorem innermost_of_element? {element : RefType} (h : type.element? = some (.ref element)) :
    element.innermost = type.innermost := by
  rcases type with name | ⟨_ | extra, name⟩ | ⟨_ | extra, base⟩ <;> cases h <;> rfl

/-- Types that are below each other are the same, if the superclasses of the innermost class come to
an end. -/
theorem Below.antisymm {headers : Headers} (hr : headers.superclass.Rooted)
    (hends : ∀ name, type.innermost = .object name → ∃ chain, headers.EndsIn name (.ok chain))
    (h : Below headers.superclass type other) (hback : Below headers.superclass other type) :
    type = other := by
  induction h with
  | refl => rfl
  | @«extends» name parent hextends =>
    rcases hback.of_object with hroot | ⟨name', hname, hextends'⟩
    · cases hroot
      rw [hr.eq_object hextends]
    · cases hname
      obtain ⟨chain, hchain⟩ := hends name rfl
      rw [hchain.extends_antisymm hextends hextends']
  | root => exact hback.of_root hr
  | cloneable ha | serializable ha => exact absurd (hback.isArray ha) (Headers.not_isArray_object _)
  | array ht ho _ ih =>
    obtain ⟨found, hfound, hinner⟩ := hback.element ht
    cases ho.symm.trans hfound
    have helements := ih (by rwa [innermost_of_element? ht]) hinner
    rw [← arrayOf_of_element? ht, ← arrayOf_of_element? ho, helements]

end RefType

/-- Whatever is above two classes is above the class that they have in common. -/
theorem Headers.Closest.least {headers : Headers} {first second common : BinaryName}
    {type : RefType} (h : headers.Closest first second common)
    (hfirst : RefType.Below headers.superclass (.object first) type)
    (hsecond : RefType.Below headers.superclass (.object second) type) :
    RefType.Below headers.superclass (.object common) type := by
  rcases hfirst.of_object with rfl | ⟨parent, rfl, hextends⟩
  · exact .root _
  rcases hsecond.of_object with hroot | ⟨parent', hparent, hextends'⟩
  · rw [hroot]
    exact .root _
  cases hparent
  cases h with
  | same => exact hfirst
  | shared _ h h' _ _ habove =>
    exact .extends (habove parent (h.mem_iff.2 hextends) (h'.mem_iff.2 hextends'))
  | apart _ h h' hdisjoint =>
    exact absurd (h'.mem_iff.2 hextends') (hdisjoint parent (h.mem_iff.2 hextends))

/-! ### The answers of a resolver -/

namespace Resolver

/-- How a resolver follows superclasses and finds the closest types. -/
structure MergesTypes (resolver : Resolver) : Prop where
  -- the chain of a class is what following its superclasses comes to
  chain_iff : ∀ name found, answer (ancestorChain name) resolver = found ↔
    Headers.EndsIn resolver.header? name found
  chain_nodup : ∀ name chain, answer (ancestorChain name) resolver = .ok chain → chain.Nodup
  superclass_iff : ∀ first second common,
    answer (commonSuperclass first second) resolver = .ok common ↔
      Headers.Closest resolver.header? first second common
  superclass_symm : ∀ first second common,
    answer (commonSuperclass first second) resolver = .ok common →
      answer (commonSuperclass second first) resolver = .ok common
  -- the closest type is above both types
  upper : ∀ first second common, answer (commonRefType first second) resolver = .ok common →
    RefType.Below resolver.superclass? first common ∧
      RefType.Below resolver.superclass? second common
  -- for two classes it is below all others that are
  nearest : ∀ first second common,
    answer (commonRefType (.object first) (.object second)) resolver = .ok common →
      ∀ type, RefType.Below resolver.superclass? (.object first) type →
        RefType.Below resolver.superclass? (.object second) type →
          RefType.Below resolver.superclass? common type
  -- the order of types is the least one that follows the rules
  order : RefType.OrderRules resolver.superclass? (RefType.Below resolver.superclass?)
  generated : ∀ related, RefType.OrderRules resolver.superclass? related → ∀ type other,
    RefType.Below resolver.superclass? type other → related type other
  -- it is antisymmetric for types whose innermost class has a chain
  antisymm : ∀ type other, (∀ name, type.innermost = .object name →
      ∃ chain, answer (ancestorChain name) resolver = .ok chain) →
    RefType.Below resolver.superclass? type other →
      RefType.Below resolver.superclass? other type → type = other

variable {resolver : Resolver}

/-- The answer for two classes is the one by their chains. -/
theorem answer_commonSuperclass {first second common : BinaryName} :
    answer (commonSuperclass first second) resolver = .ok common ↔
      Headers.Closest resolver.header? first second common := by
  obtain ⟨looked, found, hcommon, hgives⟩ := commonSuperclass_gives first second resolver
  rw [hgives.answer_eq, hcommon.closest_iff]

/-- The answer for two types is above both. -/
theorem below_of_commonRefType {first second common : RefType}
    (h : answer (commonRefType first second) resolver = .ok common) :
    RefType.Below resolver.superclass? first common ∧
      RefType.Below resolver.superclass? second common := by
  unfold answer at h
  split at h
  · rename_i found resolver' hrun
    cases h
    exact (commonRefTypeUnder_answers 0 first second resolver _ _ hrun).2
  · cases h

/-- For classes nothing that is above both comes before it. -/
theorem least_of_commonRefType {first second : BinaryName} {common type : RefType}
    (h : answer (commonRefType (.object first) (.object second)) resolver = .ok common)
    (hfirst : RefType.Below resolver.superclass? (.object first) type)
    (hsecond : RefType.Below resolver.superclass? (.object second) type) :
    RefType.Below resolver.superclass? common type := by
  obtain ⟨looked, found, hcommon, hgives⟩ :=
    commonRefType_gives (.object first) (.object second) resolver
  obtain rfl := hgives.answer_eq.symm.trans h
  generalize hanswer : (.ok common : Except ResolveError RefType) = answer at hcommon
  cases hcommon with
  | same =>
    cases hanswer
    exact hfirst
  | classes _ hcommon =>
    obtain ⟨name, hname, rfl⟩ := except_map_ok.1 hanswer.symm
    exact (hcommon.closest_iff.1 hname).least hfirst hsecond
  | classAndArray _ ha | arrayAndClass _ ha => exact absurd ha (Headers.not_isArray_object _)
  | elements _ h => cases h
  | others _ ha => exact absurd ha (Headers.not_isArray_object _)

/-- Following superclasses, and merging types upwards, for every resolver by which the root has no
superclass and the interfaces of arrays have none but the root. -/
theorem mergesTypes (hr : resolver.superclass?.Rooted) : resolver.MergesTypes where
  chain_iff _ _ := answer_ancestorChain
  chain_nodup _ _ h := (answer_ancestorChain.1 h).nodup
  superclass_iff _ _ _ := answer_commonSuperclass
  superclass_symm _ _ _ h := answer_commonSuperclass.2 (answer_commonSuperclass.1 h).symm
  upper _ _ _ h := below_of_commonRefType h
  nearest _ _ _ h _ hfirst hsecond := least_of_commonRefType h hfirst hsecond
  order := RefType.below_orderRules hr
  generated _ hrules _ _ h := h.related hrules
  antisymm _ _ hends h hback := by
    refine RefType.Below.antisymm hr (fun name hname => ?_) h hback
    obtain ⟨chain, hchain⟩ := hends name hname
    exact ⟨chain, answer_ancestorChain.1 hchain⟩

end Resolver

/-! ### Two classes that extend a third one -/

/-- The name of a class of shapes. -/
def shapeName : BinaryName := ⟨"Shape", by decide +kernel⟩

/-- The names of two classes that extend it. -/
def circleName : BinaryName := ⟨"Circle", by decide +kernel⟩

def squareName : BinaryName := ⟨"Square", by decide +kernel⟩

/-- The headers of the three classes, and of the root. -/
def shapeHeaders : Headers := fun name =>
  if name = squareName then some ⟨⟨0x21⟩, squareName, some shapeName, []⟩
  else if name = circleName then some ⟨⟨0x21⟩, circleName, some shapeName, []⟩
  else if name = shapeName then some ⟨⟨0x21⟩, shapeName, some .object, []⟩
  else if name = .object then some .object else none

/-- A resolver that was told of the three classes. -/
def shapeResolver : Resolver :=
  (((Resolver.ofClassPath ∅).register ⟨⟨0x21⟩, shapeName, some .object, []⟩).register
    ⟨⟨0x21⟩, circleName, some shapeName, []⟩).register ⟨⟨0x21⟩, squareName, some shapeName, []⟩

theorem shapeResolver_header? : shapeResolver.header? = shapeHeaders := by
  have hroot := Resolver.header?_of_empty
  have hshape : shapeName ≠ .object := by decide +kernel
  have hcircle : circleName ≠ .object ∧ circleName ≠ shapeName := by decide +kernel
  have hsquare : squareName ≠ .object ∧ squareName ≠ shapeName ∧ squareName ≠ circleName := by
    decide +kernel
  obtain ⟨first, hfirst⟩ : ∃ first, (Resolver.ofClassPath ∅).register
    ⟨⟨0x21⟩, shapeName, some .object, []⟩ = first := ⟨_, rfl⟩
  obtain ⟨second, hsecond⟩ : ∃ second, first.register
    ⟨⟨0x21⟩, circleName, some shapeName, []⟩ = second := ⟨_, rfl⟩
  -- none of the classes was known before it is told
  have hfirst' : first.header? = Function.update (Resolver.ofClassPath ∅).header? shapeName
      (some ⟨⟨0x21⟩, shapeName, some .object, []⟩) := by
    rw [← hfirst, Resolver.header?_register_of_none]
    simp [hroot, hshape]
  have hsecond' : second.header? = Function.update first.header? circleName
      (some ⟨⟨0x21⟩, circleName, some shapeName, []⟩) := by
    rw [← hsecond, Resolver.header?_register_of_none]
    simp [hfirst', hroot, hcircle]
  unfold shapeResolver
  rw [hfirst, hsecond, Resolver.header?_register_of_none, hsecond', hfirst', hroot]
  · funext name
    simp only [Function.update_apply, shapeHeaders]
  · simp [hsecond', hfirst', hroot, hsquare]

theorem shapeHeaders_circle :
    shapeHeaders.EndsIn circleName (.ok [circleName, shapeName, .object]) :=
  .root (.climb (by decide +kernel) (.climb (by decide +kernel) (.stop .object)))
    (by decide +kernel : _ = some ClassHeader.object) rfl

theorem shapeHeaders_square :
    shapeHeaders.EndsIn squareName (.ok [squareName, shapeName, .object]) :=
  .root (.climb (by decide +kernel) (.climb (by decide +kernel) (.stop .object)))
    (by decide +kernel : _ = some ClassHeader.object) rfl

/-- The chains of the circle and of the square go through the shape. -/
theorem shapeHeaders_closest : shapeHeaders.Closest circleName squareName shapeName := by
  have hcircle : circleName ∉ [squareName, shapeName, .object] := by decide +kernel
  have hroot : shapeHeaders.superclass shapeName = some .object := by decide +kernel
  refine @Headers.Closest.shared _ _ _ _ [circleName] [.object] _ (by decide +kernel)
    shapeHeaders_circle shapeHeaders_square (by simpa using hcircle) (by simp) ?_
  intro name hname hother
  rw [List.singleton_append, List.mem_cons, List.mem_pair] at hname
  rcases hname with rfl | rfl | rfl
  · exact absurd hother hcircle
  · exact .refl
  · exact .single hroot

theorem shapeResolver_rooted : shapeResolver.superclass?.Rooted := by
  have hnone : shapeHeaders.superclass .object = none ∧ shapeHeaders.superclass .cloneable = none ∧
      shapeHeaders.superclass .serializable = none := by decide +kernel
  rw [Resolver.superclass?_eq, shapeResolver_header?]
  refine ⟨hnone.1, fun name h => ?_, fun name h => ?_⟩
  · exact absurd (hnone.2.1.symm.trans h) nofun
  · exact absurd (hnone.2.2.symm.trans h) nofun

/-- Circles and squares are shapes, whichever come first. -/
theorem shapeResolver_merges : shapeResolver.superclass?.Rooted ∧
    Resolver.answer (Resolver.commonSuperclass circleName squareName) shapeResolver =
      .ok shapeName ∧
    Resolver.answer (Resolver.commonSuperclass squareName circleName) shapeResolver =
      .ok shapeName := by
  have hmerges := Resolver.mergesTypes shapeResolver_rooted
  have hclosest := (hmerges.superclass_iff circleName squareName shapeName).2
    (shapeResolver_header? ▸ shapeHeaders_closest)
  exact ⟨shapeResolver_rooted, hclosest, hmerges.superclass_symm _ _ _ hclosest⟩

end Preverification
