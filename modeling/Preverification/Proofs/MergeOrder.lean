import Preverification.Proofs.ClosestTypes

/-!
# Merging in another order

Three types can be merged beginning with the first two or with the last two. For classes whose
superclasses lead up to the root this makes no difference: what they have in common is the least
class above all of them.

With arrays it may make one. Two arrays that are not both of references meet at the root, although
the two interfaces of arrays are above both. An interface that is merged with each of them stays
what it is, but merged with the root it becomes the root. That is so in any number of dimensions.
Classes that extend one of the interfaces, or an interface that extends more than the root, are the
only other case.

* `Headers.Least.assoc`: it makes no difference which two of three classes come first.
* `Headers.OrderMatters`: the only cases in which the order matters.
* `Resolver.exists_merges`: known types always have a type in common.
* `Resolver.mergeFirstTwo_eq_mergeLastTwo_iff`: the order makes a difference just in those cases.
* `interfaceResolver_orders_differ`: two arrays of numbers and an interface of arrays.
-/

namespace Preverification

namespace Headers

/-- The superclasses of a class lead up to the root. -/
def ReachesRoot (headers : Headers) (name : BinaryName) : Prop :=
  ∃ chain, headers.EndsIn name (.ok chain) ∧ chain.getLast? = some .object

/-- The least class above two classes. -/
structure Least (headers : Headers) (first second common : BinaryName) : Prop where
  left : headers.superclass.Extends first common
  right : headers.superclass.Extends second common
  least : ∀ name, headers.superclass.Extends first name → headers.superclass.Extends second name →
    headers.superclass.Extends common name

variable {headers : Headers} {first second third common other name : BinaryName}

namespace ReachesRoot

/-- A class that reaches the root extends it. -/
theorem extends_root (h : headers.ReachesRoot name) :
    headers.superclass.Extends name .object := by
  obtain ⟨chain, hchain, hlast⟩ := h
  exact hchain.mem_iff.1 (List.mem_of_getLast? hlast)

/-- From there the superclasses lead up to the root as well. -/
theorem of_extends (h : headers.ReachesRoot name)
    (hextends : headers.superclass.Extends name other) : headers.ReachesRoot other := by
  obtain ⟨chain, hchain, hlast⟩ := h
  obtain ⟨before, after, rfl⟩ := List.append_of_mem (hchain.mem_iff.2 hextends)
  refine ⟨other :: after, hchain.of_append, ?_⟩
  rwa [List.getLast?_append_cons] at hlast

/-- The root has no other superclasses either. -/
theorem root (h : headers.ReachesRoot name) : headers.ReachesRoot .object :=
  h.of_extends h.extends_root

/-- Two such classes that extend each other are the same. -/
theorem antisymm (h : headers.ReachesRoot name)
    (hextends : headers.superclass.Extends name other)
    (hback : headers.superclass.Extends other name) : name = other := by
  obtain ⟨chain, hchain, -⟩ := h
  exact hchain.extends_antisymm hextends hback

/-- Nothing else is above the root. -/
theorem eq_root (h : headers.ReachesRoot name)
    (hextends : headers.superclass.Extends .object name) : name = .object := by
  have hname : headers.ReachesRoot name := h.root.of_extends hextends
  exact hname.antisymm hname.extends_root hextends

end ReachesRoot

namespace Least

/-- It does not matter which of two classes comes first for the least one above both. -/
theorem symm (h : headers.Least first second common) : headers.Least second first common where
  left := h.right
  right := h.left
  least name hsecond hfirst := h.least name hfirst hsecond

/-- There is one least class. -/
theorem unique (h : headers.Least first second common) (h' : headers.Least first second other)
    (hfirst : headers.ReachesRoot first) : common = other :=
  (hfirst.of_extends h.left).antisymm (h.least other h'.left h'.right)
    (h'.least common h.left h.right)

theorem eq_root (h : headers.Least .object name common) (hname : headers.ReachesRoot name) :
    common = .object :=
  (hname.of_extends h.right).eq_root h.left

/-- The least class above three does not depend on which two come first. -/
theorem assoc {early late left right : BinaryName} (hfirst : headers.ReachesRoot first)
    (hearly : headers.Least first second early) (hleft : headers.Least early third left)
    (hlate : headers.Least second third late) (hright : headers.Least first late right) :
    left = right := by
  have habove : headers.superclass.Extends left right := by
    refine hleft.least right (hearly.least right hright.left ?_) ?_
    · exact hlate.left.trans hright.right
    · exact hlate.right.trans hright.right
  have hbelow : headers.superclass.Extends right left := by
    refine hright.least left (hearly.left.trans hleft.left) (hlate.least left ?_ hleft.right)
    exact hearly.right.trans hleft.left
  exact ((hfirst.of_extends hearly.left).of_extends hleft.left).antisymm habove hbelow

end Least

/-- What two classes have in common is the least class above both, since both extend the root. -/
theorem Closest.toLeast (h : headers.Closest first second common)
    (hfirst : headers.ReachesRoot first) (hsecond : headers.ReachesRoot second) :
    headers.Least first second common := by
  cases h with
  | same => exact ⟨.refl, .refl, fun _ h _ => h⟩
  | shared _ h h' _ hcommon habove =>
    refine ⟨h.mem_iff.1 (by simp), h'.mem_iff.1 hcommon, fun name hname hname' => ?_⟩
    exact habove name (h.mem_iff.2 hname) (h'.mem_iff.2 hname')
  | apart _ h h' hdisjoint =>
    have hroot := h'.mem_iff.2 hsecond.extends_root
    exact absurd hroot (hdisjoint .object (h.mem_iff.2 hfirst.extends_root))

/-- Two such classes have a class in common, and it is the least one. -/
theorem exists_closest (hfirst : headers.ReachesRoot first) (hsecond : headers.ReachesRoot second) :
    ∃ common, headers.Closest first second common ∧ headers.Least first second common := by
  have hclosest : ∃ common, headers.Closest first second common := by
    by_cases hne : first = second
    · exact ⟨first, hne ▸ .same first⟩
    · obtain ⟨chain, hchain, -⟩ := hfirst
      obtain ⟨others, hothers, -⟩ := hsecond
      exact ⟨_, closest_of_chains hne hchain hothers⟩
  obtain ⟨common, h⟩ := hclosest
  exact ⟨common, h, h.toLeast hfirst hsecond⟩

/-- Closest common superclasses are the least ones. -/
theorem closest_iff_least (hfirst : headers.ReachesRoot first)
    (hsecond : headers.ReachesRoot second) :
    headers.Closest first second common ↔ headers.Least first second common := by
  refine ⟨fun h => h.toLeast hfirst hsecond, fun h => ?_⟩
  obtain ⟨other, hclosest, hleast⟩ := exists_closest hfirst hsecond
  rwa [h.unique hleast hfirst]

end Headers

/-! ### Interfaces of arrays -/

namespace BinaryName

/-- Whether the name is that of one of the two interfaces of arrays. -/
def IsArrayInterface (name : BinaryName) : Prop := name = .cloneable ∨ name = .serializable

/-- What a class and an array have in common. -/
def aboveArrays (name : BinaryName) : BinaryName :=
  if name.isArraySupertype then name else .object

variable {name : BinaryName}

theorem IsArrayInterface.ne_object (h : name.IsArrayInterface) : name ≠ .object := by
  rcases h with rfl | rfl
  · decide +kernel
  · decide +kernel

theorem aboveArrays_of_interface (h : name.IsArrayInterface) : name.aboveArrays = name := by
  rcases h with rfl | rfl
  · rfl
  · rfl

/-- Other classes have only the root in common with an array. -/
theorem aboveArrays_of_not_interface (h : ¬ name.IsArrayInterface) :
    name.aboveArrays = .object := by
  unfold aboveArrays
  split
  · rename_i hsuper
    simp only [isArraySupertype, Bool.or_eq_true, decide_eq_true_eq] at hsuper
    rcases hsuper with (heq | hcloneable) | hserializable
    · exact heq
    · exact absurd (.inl hcloneable) h
    · exact absurd (.inr hserializable) h
  · rfl

theorem aboveArrays_aboveArrays (name : BinaryName) :
    name.aboveArrays.aboveArrays = name.aboveArrays := by
  by_cases h : name.IsArrayInterface
  · rw [aboveArrays_of_interface h, aboveArrays_of_interface h]
  · rw [aboveArrays_of_not_interface h]
    rfl

end BinaryName

/-- What a class and an array have in common leads up to the root if the class does. -/
theorem Headers.ReachesRoot.aboveArrays {headers : Headers} {name : BinaryName}
    (h : headers.ReachesRoot name) : headers.ReachesRoot name.aboveArrays := by
  by_cases hname : name.IsArrayInterface
  · rwa [BinaryName.aboveArrays_of_interface hname]
  · rw [BinaryName.aboveArrays_of_not_interface hname]
    exact h.root

namespace Headers.Least

variable {headers : Headers} {first second third common left right : BinaryName}

/-- An array behind a class leaves what that class has in common with another one, or the root. -/
theorem of_aboveArrays (hfirst : headers.ReachesRoot first)
    (h : headers.Least first second common)
    (hright : headers.Least first second.aboveArrays right) :
    (second.IsArrayInterface ∧ right = common) ∨ (¬ second.IsArrayInterface ∧ right = .object) := by
  by_cases hsecond : second.IsArrayInterface
  · rw [BinaryName.aboveArrays_of_interface hsecond] at hright
    exact .inl ⟨hsecond, hright.unique h hfirst⟩
  · rw [BinaryName.aboveArrays_of_not_interface hsecond] at hright
    exact .inr ⟨hsecond, hright.symm.eq_root hfirst⟩

/-- An array at the side of two classes makes no difference if both or neither of the inner class
and of what the classes have in common are interfaces of arrays. -/
theorem aboveArrays_eq_iff (hfirst : headers.ReachesRoot first)
    (h : headers.Least first second common)
    (hright : headers.Least first second.aboveArrays right) :
    common.aboveArrays = right ↔
      common = .object ∨ (second.IsArrayInterface ↔ common.IsArrayInterface) := by
  by_cases hcommon : common.IsArrayInterface
  · rw [BinaryName.aboveArrays_of_interface hcommon]
    have hne := hcommon.ne_object
    rcases h.of_aboveArrays hfirst hright with ⟨hsecond, rfl⟩ | ⟨hsecond, rfl⟩
    · simp [hsecond, hcommon]
    · simp [hsecond, hcommon, hne]
  · rw [BinaryName.aboveArrays_of_not_interface hcommon]
    rcases h.of_aboveArrays hfirst hright with ⟨hsecond, rfl⟩ | ⟨hsecond, rfl⟩
    · simp [hsecond, hcommon, eq_comm]
    · simp [hsecond, hcommon]

/-- An array between two classes makes no difference if both or neither of them are interfaces of
arrays. -/
theorem aboveArrays_between_iff (hfirst : headers.ReachesRoot first)
    (hthird : headers.ReachesRoot third) (h : headers.Least first third common)
    (hleft : headers.Least first.aboveArrays third left)
    (hright : headers.Least first third.aboveArrays right) :
    left = right ↔
      common = .object ∨ (first.IsArrayInterface ↔ third.IsArrayInterface) := by
  rcases h.symm.of_aboveArrays hthird hleft.symm with ⟨hinterface, rfl⟩ | ⟨hinterface, rfl⟩
  · rcases h.of_aboveArrays hfirst hright with ⟨hinterface', rfl⟩ | ⟨hinterface', rfl⟩
    · simp [hinterface, hinterface']
    · simp [hinterface, hinterface']
  · rcases h.of_aboveArrays hfirst hright with ⟨hinterface', rfl⟩ | ⟨hinterface', rfl⟩
    · simp [hinterface, hinterface', eq_comm]
    · simp [hinterface, hinterface']

end Headers.Least

/-! ### When the order matters -/

namespace RefType

/-- Two arrays that have only the root in common: they differ, and not both are of references. -/
structure Apart (first second : RefType) : Prop where
  left : first.IsArray
  right : second.IsArray
  ne : first ≠ second
  no_elements : ∀ element other, first.element? = some (.ref element) →
    second.element? = some (.ref other) → False

/-- A type is that of a class or of arrays. -/
theorem class_or_array (type : RefType) : (∃ name, type = .object name) ∨ type.IsArray := by
  by_cases h : ∃ name, type = .object name
  · exact .inl h
  · exact .inr (Resolver.isArray_of_ne fun name heq => h ⟨name, heq⟩)

theorem Apart.symm {first second : RefType} (h : first.Apart second) : second.Apart first where
  left := h.right
  right := h.left
  ne := h.ne.symm
  no_elements element other hsecond hfirst := h.no_elements other element hfirst hsecond

/-- An array of references has only the root in common with an array that is none. -/
theorem apart_of_elements {first second element : RefType}
    (h : first.element? = some (.ref element)) (ha : second.IsArray)
    (hnone : ∀ other, second.element? ≠ some (.ref other)) : first.Apart second where
  left := by
    rw [IsArray, h]
    rfl
  right := ha
  ne heq := hnone element (heq ▸ h)
  no_elements _ other _ hother := hnone other hother

/-- Arrays that have more than the root in common are the same, or both of references. -/
theorem not_apart {first second : RefType} (ha : first.IsArray) (ha' : second.IsArray)
    (h : ¬ first.Apart second) : first = second ∨ ∃ element other,
      first.element? = some (.ref element) ∧ second.element? = some (.ref other) := by
  by_contra hnone
  rw [not_or] at hnone
  exact h ⟨ha, ha', hnone.1, fun element other hfirst hsecond =>
    hnone.2 ⟨element, other, hfirst, hsecond⟩⟩

/-- What holds of all types if it holds of those that are no arrays of references, and of arrays if
it holds of their elements. -/
theorem element_induction {motive : RefType → Prop}
    (plain : ∀ type, (∀ element, type.element? ≠ some (.ref element)) → motive type)
    (array : ∀ type element, type.element? = some (.ref element) → motive element → motive type)
    (type : RefType) : motive type := by
  generalize hcount : type.dimensions = count
  induction count using Nat.strong_induction_on generalizing type with
  | h count ih =>
    by_cases helement : ∃ element, type.element? = some (.ref element)
    · obtain ⟨element, helement⟩ := helement
      refine array type element helement (ih _ ?_ element rfl)
      rw [← hcount]
      exact dimensions_of_element? helement
    · exact plain type fun element h => helement ⟨element, h⟩

end RefType

namespace Headers

/-- The types for which it makes a difference whether the first two or the last two are merged
before the other one. -/
inductive OrderMatters (headers : Headers) : RefType → RefType → RefType → Prop where
  -- an interface of arrays before two arrays that meet at the root
  | interfaceFirst {name : BinaryName} {second third : RefType} (hname : name.IsArrayInterface)
    (hapart : second.Apart third) : OrderMatters headers (.object name) second third
  | interfaceLast {first second : RefType} {name : BinaryName} (hapart : first.Apart second)
    (hname : name.IsArrayInterface) : OrderMatters headers first second (.object name)
  -- an array at the side of two classes that have more than the root in common, if just one of the
  -- inner class and of what they have in common is an interface of arrays
  | arrayFirst {first : RefType} {second third common : BinaryName} (ha : first.IsArray)
    (h : headers.Closest second third common) (hne : common ≠ .object)
    (hone : ¬ (second.IsArrayInterface ↔ common.IsArrayInterface)) :
    OrderMatters headers first (.object second) (.object third)
  | arrayLast {first second common : BinaryName} {third : RefType}
    (h : headers.Closest first second common) (ha : third.IsArray) (hne : common ≠ .object)
    (hone : ¬ (second.IsArrayInterface ↔ common.IsArrayInterface)) :
    OrderMatters headers (.object first) (.object second) third
  -- an array between two such classes, if just one of them is an interface of arrays
  | arrayBetween {first third common : BinaryName} {second : RefType} (ha : second.IsArray)
    (h : headers.Closest first third common) (hne : common ≠ .object)
    (hone : ¬ (first.IsArrayInterface ↔ third.IsArrayInterface)) :
    OrderMatters headers (.object first) second (.object third)
  -- arrays of such types
  | elements {first second third element element' element'' : RefType}
    (hfirst : first.element? = some (.ref element))
    (hsecond : second.element? = some (.ref element'))
    (hthird : third.element? = some (.ref element''))
    (h : OrderMatters headers element element' element'') : OrderMatters headers first second third

/-- Whether the order of three types matters does not change when they are read backwards. -/
theorem OrderMatters.symm {headers : Headers} {first second third : RefType}
    (h : headers.OrderMatters first second third) : headers.OrderMatters third second first := by
  induction h with
  | interfaceFirst hname hapart => exact .interfaceLast hapart.symm hname
  | interfaceLast hapart hname => exact .interfaceFirst hname hapart.symm
  | arrayFirst ha h hne hone => exact .arrayLast h.symm ha hne hone
  | arrayLast h ha hne hone => exact .arrayFirst ha h.symm hne hone
  | arrayBetween ha h hne hone => exact .arrayBetween ha h.symm hne fun heq => hone heq.symm
  | elements hfirst hsecond hthird _ ih => exact .elements hthird hsecond hfirst ih

end Headers

/-! ### The answers of a resolver -/

namespace Resolver

/-- Merges three types, beginning with the first two. -/
def mergeFirstTwo (first second third : RefType) : Query RefType := do
  commonRefType (← commonRefType first second) third

/-- Merges three types, beginning with the last two. -/
def mergeLastTwo (first second third : RefType) : Query RefType := do
  commonRefType first (← commonRefType second third)

/-- A type is what two types have in common. -/
def Merges (resolver : Resolver) (first second common : RefType) : Prop :=
  answer (commonRefType first second) resolver = .ok common

variable {resolver : Resolver} {first second third common other : RefType} {name : BinaryName}

/-- A resolver gives the answer that the rules give for its headers. -/
theorem gives_of_commonRefType {looked : List BinaryName} {found : Except ResolveError RefType}
    (h : Headers.CommonRefType resolver.header? first second looked found) :
    Gives (commonRefType first second) resolver looked found := by
  obtain ⟨looked', found', hcommon, hgives⟩ := commonRefType_gives first second resolver
  obtain ⟨rfl, rfl⟩ := hcommon.unique h
  exact hgives

theorem Merges.of_rule {looked : List BinaryName}
    (h : Headers.CommonRefType resolver.header? first second looked (.ok common)) :
    resolver.Merges first second common := (gives_of_commonRefType h).answer_eq

theorem Merges.rule (h : resolver.Merges first second common) :
    ∃ looked, Headers.CommonRefType resolver.header? first second looked (.ok common) := by
  obtain ⟨looked, found, hcommon, hgives⟩ := commonRefType_gives first second resolver
  obtain rfl := hgives.answer_eq.symm.trans h
  exact ⟨looked, hcommon⟩

theorem Merges.unique (h : resolver.Merges first second common)
    (h' : resolver.Merges first second other) : common = other :=
  Except.ok.inj (h.symm.trans h')

theorem merges_self (type : RefType) : resolver.Merges type type type := .of_rule (.same type)

/-- Two classes meet at the closest class. -/
theorem merges_classes {first second common : BinaryName}
    (h : Headers.Closest resolver.header? first second common) :
    resolver.Merges (.object first) (.object second) (.object common) := by
  by_cases hne : first = second
  · subst hne
    cases h with
    | same => exact merges_self _
    | shared hne | apart hne => exact absurd rfl hne
  · obtain ⟨looked, found, hcommon, -⟩ := commonSuperclass_gives first second resolver
    obtain rfl : found = .ok common := hcommon.closest_iff.2 h
    exact .of_rule (.classes hne hcommon)

theorem merges_classArray (name : BinaryName) (ha : second.IsArray) :
    resolver.Merges (.object name) second (.object name.aboveArrays) :=
  .of_rule (.classAndArray name ha)

theorem merges_arrayClass (name : BinaryName) (ha : first.IsArray) :
    resolver.Merges first (.object name) (.object name.aboveArrays) :=
  .of_rule (.arrayAndClass name ha)

theorem merges_apart (h : first.Apart second) : resolver.Merges first second (.object .object) :=
  .of_rule (.others h.ne h.left h.right h.no_elements)

/-- Arrays of references meet at the array of what their elements have in common. -/
theorem merges_elements {element element' inner : RefType}
    (hfirst : first.element? = some (.ref element))
    (hsecond : second.element? = some (.ref element'))
    (h : resolver.Merges element element' inner) :
    resolver.Merges first second (inner.addDimensions 1) := by
  by_cases hne : first = second
  · subst hne
    cases hfirst.symm.trans hsecond
    obtain rfl := h.unique (merges_self element)
    rw [RefType.addDimensions_of_element? hfirst 0]
    exact merges_self first
  · obtain ⟨looked, hinner⟩ := h.rule
    exact .of_rule (.elements hne hfirst hsecond hinner)

/-- Merging two types does not depend on which comes first. -/
theorem Merges.symm (h : resolver.Merges first second common) :
    resolver.Merges second first common := by
  obtain ⟨looked, hrule⟩ := h.rule
  generalize hanswer : (.ok common : Except ResolveError RefType) = answer at hrule
  -- on the rule by which the first two types are merged
  induction hrule generalizing common with
  | same type =>
    cases hanswer
    exact merges_self type
  | classes _ hcommon =>
    obtain ⟨name, hname, rfl⟩ := except_map_ok.1 hanswer.symm
    exact merges_classes (hcommon.closest_iff.1 hname).symm
  | classAndArray name ha =>
    cases hanswer
    exact merges_arrayClass name ha
  | arrayAndClass name ha =>
    cases hanswer
    exact merges_classArray name ha
  | elements _ hfirst hsecond hinner ih =>
    obtain ⟨inner, hanswer', rfl⟩ := except_map_ok.1 hanswer.symm
    exact merges_elements hsecond hfirst (ih (.of_rule (hanswer' ▸ hinner)) hanswer'.symm)
  | others hne ha ha' hnot =>
    cases hanswer
    exact merges_apart (RefType.Apart.mk ha ha' hne hnot).symm

/-- Three types are merged in both orders. -/
structure Orders (resolver : Resolver) (first second third left right : RefType) : Prop where
  firstTwo : ∃ early, resolver.Merges first second early ∧ resolver.Merges early third left
  lastTwo : ∃ late, resolver.Merges second third late ∧ resolver.Merges first late right

variable {left right : RefType}

/-- The answer when the first two types come first. -/
theorem Orders.answer_firstTwo (h : resolver.Orders first second third left right) :
    answer (mergeFirstTwo first second third) resolver = .ok left := by
  obtain ⟨early, hearly, hleft⟩ := h.firstTwo
  obtain ⟨looked, hearly⟩ := hearly.rule
  obtain ⟨looked', hleft⟩ := hleft.rule
  have hgives : Gives (mergeFirstTwo first second third) resolver (looked ++ looked') (.ok left) :=
    (gives_of_commonRefType hearly).bind_ok fun resolver' hsame =>
      gives_of_commonRefType (hsame ▸ hleft)
  exact hgives.answer_eq

/-- The answer when the last two types come first. -/
theorem Orders.answer_lastTwo (h : resolver.Orders first second third left right) :
    answer (mergeLastTwo first second third) resolver = .ok right := by
  obtain ⟨late, hlate, hright⟩ := h.lastTwo
  obtain ⟨looked, hlate⟩ := hlate.rule
  obtain ⟨looked', hright⟩ := hright.rule
  have hgives : Gives (mergeLastTwo first second third) resolver (looked ++ looked') (.ok right) :=
    (gives_of_commonRefType hlate).bind_ok fun resolver' hsame =>
      gives_of_commonRefType (hsame ▸ hright)
  exact hgives.answer_eq

/-- Three types are merged in both orders, and it is known whether that makes a difference. -/
def Compares (resolver : Resolver) (first second third : RefType) : Prop :=
  ∃ left right, resolver.Orders first second third left right ∧
    (left = right ↔ ¬ Headers.OrderMatters resolver.header? first second third)

theorem Compares.symm (h : resolver.Compares first second third) :
    resolver.Compares third second first := by
  obtain ⟨left, right, horders, hiff⟩ := h
  obtain ⟨⟨early, hearly, hleft⟩, ⟨late, hlate, hright⟩⟩ := horders
  refine ⟨right, left, ⟨⟨late, hlate.symm, hright.symm⟩, ⟨early, hearly.symm, hleft.symm⟩⟩, ?_⟩
  rw [eq_comm, hiff]
  exact not_congr ⟨fun hmatters => hmatters.symm, fun hmatters => hmatters.symm⟩

/-- For three classes both orders give the least class above all of them. -/
theorem compares_classes {first second third : BinaryName}
    (hfirst : Headers.ReachesRoot resolver.header? first)
    (hsecond : Headers.ReachesRoot resolver.header? second)
    (hthird : Headers.ReachesRoot resolver.header? third) :
    resolver.Compares (.object first) (.object second) (.object third) := by
  obtain ⟨early, hearly, hearly'⟩ := Headers.exists_closest hfirst hsecond
  obtain ⟨left, hleft, hleft'⟩ := Headers.exists_closest (hfirst.of_extends hearly'.left) hthird
  obtain ⟨late, hlate, hlate'⟩ := Headers.exists_closest hsecond hthird
  obtain ⟨right, hright, hright'⟩ := Headers.exists_closest hfirst (hsecond.of_extends hlate'.left)
  refine ⟨.object left, .object right, ⟨⟨_, merges_classes hearly, merges_classes hleft⟩,
    ⟨_, merges_classes hlate, merges_classes hright⟩⟩, ?_⟩
  have heq : left = right := hearly'.assoc hfirst hleft' hlate' hright'
  refine ⟨fun _ hmatters => ?_, fun _ => congrArg RefType.object heq⟩
  -- there is no array among the three
  have hnot := Headers.not_isArray_object
  cases hmatters with
  | interfaceFirst _ hapart | interfaceLast hapart => exact hnot _ hapart.left
  | arrayFirst ha | arrayLast _ ha | arrayBetween ha => exact hnot _ ha
  | elements h => cases h

/-- Two classes before an array. -/
theorem compares_arrayLast {first second : BinaryName}
    (hfirst : Headers.ReachesRoot resolver.header? first)
    (hsecond : Headers.ReachesRoot resolver.header? second) (ha : third.IsArray) :
    resolver.Compares (.object first) (.object second) third := by
  -- one order merges the classes first, and the other one the array with the second class
  obtain ⟨common, hcommon, hleast⟩ := Headers.exists_closest hfirst hsecond
  obtain ⟨right, hright, hright'⟩ := Headers.exists_closest hfirst hsecond.aboveArrays
  refine ⟨.object common.aboveArrays, .object right,
    ⟨⟨_, merges_classes hcommon, merges_classArray common ha⟩,
      ⟨_, merges_classArray second ha, merges_classes hright⟩⟩, ?_⟩
  rw [RefType.object.injEq, hleast.aboveArrays_eq_iff hfirst hright']
  have hnot := Headers.not_isArray_object
  constructor
  · -- of the cases in which the order matters, only the one with the array at the end fits
    intro hsame hmatters
    cases hmatters with
    | interfaceFirst _ hapart => exact hnot _ hapart.left
    | interfaceLast | arrayFirst | arrayBetween => exact hnot _ ha
    | arrayLast h _ hne hone =>
      obtain rfl := (h.toLeast hfirst hsecond).unique hleast hfirst
      exact hsame.elim hne hone
    | elements h => cases h
  · intro hsafe
    by_contra hdiffers
    rw [not_or] at hdiffers
    exact hsafe (.arrayLast hcommon ha hdiffers.1 hdiffers.2)

/-- Two classes behind an array. -/
theorem compares_arrayFirst {second third : BinaryName} (ha : first.IsArray)
    (hsecond : Headers.ReachesRoot resolver.header? second)
    (hthird : Headers.ReachesRoot resolver.header? third) :
    resolver.Compares first (.object second) (.object third) :=
  (compares_arrayLast hthird hsecond ha).symm

/-- Two classes around an array. -/
theorem compares_arrayBetween {first third : BinaryName}
    (hfirst : Headers.ReachesRoot resolver.header? first) (ha : second.IsArray)
    (hthird : Headers.ReachesRoot resolver.header? third) :
    resolver.Compares (.object first) second (.object third) := by
  obtain ⟨common, hcommon, hleast⟩ := Headers.exists_closest hfirst hthird
  -- what a class has in common with an array is itself, if arrays implement it, or the root
  obtain ⟨left, hleft, hleft'⟩ := Headers.exists_closest hfirst.aboveArrays hthird
  obtain ⟨right, hright, hright'⟩ := Headers.exists_closest hfirst hthird.aboveArrays
  refine ⟨.object left, .object right,
    ⟨⟨_, merges_classArray first ha, merges_classes hleft⟩,
      ⟨_, merges_arrayClass third ha, merges_classes hright⟩⟩, ?_⟩
  rw [RefType.object.injEq, hleast.aboveArrays_between_iff hfirst hthird hleft' hright']
  have hnot := Headers.not_isArray_object
  constructor
  · intro hsame hmatters
    cases hmatters with
    | interfaceFirst _ hapart => exact hnot _ hapart.right
    | interfaceLast hapart => exact hnot _ hapart.left
    | arrayFirst | arrayLast => exact hnot _ ha
    | arrayBetween _ h hne hone =>
      obtain rfl := (h.toLeast hfirst hthird).unique hleast hfirst
      exact hsame.elim hne hone
    | elements h => cases h
  · intro hsafe
    by_contra hdiffers
    rw [not_or] at hdiffers
    exact hsafe (.arrayBetween ha hcommon hdiffers.1 hdiffers.2)

/-! ### Arrays -/

/-- Everything that the type names leads up to the root. -/
def Known (resolver : Resolver) (type : RefType) : Prop :=
  ∀ name, type.innermost = .object name → Headers.ReachesRoot resolver.header? name

theorem Known.element {element : RefType} (h : resolver.Known first)
    (helement : first.element? = some (.ref element)) : resolver.Known element := by
  intro name hname
  exact h name (RefType.innermost_of_element? helement ▸ hname)

/-- Two types have a type in common if their elements have. -/
theorem exists_merges_of_elements (hfirst : resolver.Known first) (hsecond : resolver.Known second)
    (helements : ∀ element other, first.element? = some (.ref element) →
      second.element? = some (.ref other) → ∃ inner, resolver.Merges element other inner) :
    ∃ common, resolver.Merges first second common := by
  rcases first.class_or_array with ⟨name, rfl⟩ | ha
  · rcases second.class_or_array with ⟨name', rfl⟩ | ha'
    · obtain ⟨common, hcommon, -⟩ := Headers.exists_closest (hfirst name rfl) (hsecond name' rfl)
      exact ⟨_, merges_classes hcommon⟩
    · exact ⟨_, merges_classArray name ha'⟩
  · rcases second.class_or_array with ⟨name', rfl⟩ | ha'
    · exact ⟨_, merges_arrayClass name' ha⟩
    · by_cases hapart : first.Apart second
      · exact ⟨_, merges_apart hapart⟩
      · rcases RefType.not_apart ha ha' hapart with rfl | ⟨element, other, helement, hother⟩
        · exact ⟨_, merges_self first⟩
        · obtain ⟨inner, hinner⟩ := helements element other helement hother
          exact ⟨_, merges_elements helement hother hinner⟩

/-- Known types always have a type in common. -/
theorem exists_merges (hfirst : resolver.Known first) (hsecond : resolver.Known second) :
    ∃ common, resolver.Merges first second common := by
  induction first using RefType.element_induction generalizing second with
  | plain type hplain =>
    exact exists_merges_of_elements hfirst hsecond fun element _ helement _ =>
      absurd helement (hplain element)
  | array type element helement ih =>
    refine exists_merges_of_elements hfirst hsecond fun found other hfound hother => ?_
    cases helement.symm.trans hfound
    exact ih (hfirst.element helement) (hsecond.element hother)

/-- Two arrays meet at the root, are the same, or have an array of what their elements have in
common. -/
theorem Merges.of_arrays (h : resolver.Merges first second common) (ha : first.IsArray)
    (ha' : second.IsArray) :
    (first.Apart second ∧ common = .object .object) ∨ (first = second ∧ common = first) ∨
      ∃ element other inner, first.element? = some (.ref element) ∧
        second.element? = some (.ref other) ∧ common.element? = some (.ref inner) := by
  obtain ⟨looked, hrule⟩ := h.rule
  generalize hanswer : (.ok common : Except ResolveError RefType) = answer at hrule
  have hnot := Headers.not_isArray_object
  cases hrule with
  | same =>
    cases hanswer
    exact .inr (.inl ⟨rfl, rfl⟩)
  | classes | classAndArray => exact absurd ha (hnot _)
  | arrayAndClass => exact absurd ha' (hnot _)
  | elements _ hfirst hsecond =>
    obtain ⟨inner, -, rfl⟩ := except_map_ok.1 hanswer.symm
    exact .inr (.inr ⟨_, _, inner, hfirst, hsecond, RefType.element?_addDimensions 0 inner⟩)
  | others hne _ _ hnone =>
    cases hanswer
    exact .inl ⟨⟨ha, ha', hne, hnone⟩, rfl⟩

/-- Two arrays that are not apart have an array in common. -/
theorem Merges.isArray (h : resolver.Merges first second common) (ha : first.IsArray)
    (ha' : second.IsArray) (hnot : ¬ first.Apart second) : common.IsArray := by
  rcases h.of_arrays ha ha' with ⟨hapart, -⟩ | ⟨-, rfl⟩ | ⟨_, _, inner, -, -, hinner⟩
  · exact absurd hapart hnot
  · exact ha
  · rw [RefType.IsArray, hinner]
    rfl

/-- What a class and an array have in common stays when it is merged with another array. -/
theorem merges_aboveArrays (name : BinaryName) (ha : second.IsArray) :
    resolver.Merges (.object name.aboveArrays) second (.object name.aboveArrays) := by
  have h : resolver.Merges (.object name.aboveArrays) second
      (.object name.aboveArrays.aboveArrays) := merges_classArray _ ha
  rwa [BinaryName.aboveArrays_aboveArrays] at h

/-- A class before two arrays. -/
theorem compares_classFirst (hname : Headers.ReachesRoot resolver.header? name)
    (ha : second.IsArray) (ha' : third.IsArray) (hsecond : resolver.Known second)
    (hthird : resolver.Known third) : resolver.Compares (.object name) second third := by
  have hmatters : Headers.OrderMatters resolver.header? (.object name) second third ↔
      name.IsArrayInterface ∧ second.Apart third := by
    constructor
    · intro h
      have hnot := Headers.not_isArray_object
      cases h with
      | interfaceFirst hname hapart => exact ⟨hname, hapart⟩
      | interfaceLast | arrayFirst | arrayBetween => exact absurd ha' (hnot _)
      | arrayLast => exact absurd ha (hnot _)
      | elements h => cases h
    · exact fun h => .interfaceFirst h.1 h.2
  have hfirstTwo : ∃ early, resolver.Merges (.object name) second early ∧
      resolver.Merges early third (.object name.aboveArrays) :=
    ⟨_, merges_classArray name ha, merges_aboveArrays name ha'⟩
  obtain ⟨late, hlate⟩ := exists_merges hsecond hthird
  by_cases hapart : second.Apart third
  · obtain rfl := hlate.unique (merges_apart hapart)
    -- the arrays leave the root, whatever class comes first
    obtain ⟨right, hright, hleast⟩ := Headers.exists_closest hname hname.root
    obtain rfl := hleast.symm.eq_root hname
    refine ⟨_, _, ⟨hfirstTwo, ⟨_, hlate, merges_classes hright⟩⟩, ?_⟩
    rw [hmatters, RefType.object.injEq, and_iff_left hapart]
    by_cases hinterface : name.IsArrayInterface
    · simp [BinaryName.aboveArrays_of_interface hinterface, hinterface, hinterface.ne_object]
    · simp [BinaryName.aboveArrays_of_not_interface hinterface, hinterface]
  · have harray := hlate.isArray ha ha' hapart
    refine ⟨_, _, ⟨hfirstTwo, ⟨_, hlate, merges_classArray name harray⟩⟩, ?_⟩
    simp [hmatters, hapart]

/-- A class between two arrays. -/
theorem compares_classBetween (ha : first.IsArray) (name : BinaryName) (ha' : third.IsArray) :
    resolver.Compares first (.object name) third := by
  refine ⟨_, _, ⟨⟨_, merges_arrayClass name ha, merges_aboveArrays name ha'⟩,
    ⟨_, merges_classArray name ha', (merges_aboveArrays name ha).symm⟩⟩, ?_⟩
  refine iff_of_true rfl fun h => ?_
  have hnot := Headers.not_isArray_object
  cases h with
  | interfaceFirst | arrayLast | arrayBetween => exact hnot _ ha
  | interfaceLast | arrayFirst => exact hnot _ ha'
  | elements _ h => cases h

/-- Three arrays of which at most two are of references. -/
theorem compares_plainArrays (ha : first.IsArray) (ha' : second.IsArray) (ha'' : third.IsArray)
    (hfirst : resolver.Known first) (hsecond : resolver.Known second)
    (hthird : resolver.Known third)
    (hplain : ∀ element element' element'', first.element? = some (.ref element) →
      second.element? = some (.ref element') → third.element? = some (.ref element'') → False) :
    resolver.Compares first second third := by
  obtain ⟨early, hearly⟩ := exists_merges hfirst hsecond
  obtain ⟨late, hlate⟩ := exists_merges hsecond hthird
  have hroot : ∀ {type : RefType}, type.IsArray →
      resolver.Merges (.object .object) type (.object .object) := merges_aboveArrays .object
  have horders : ∃ common, resolver.Orders first second third common common := by
    rcases hearly.of_arrays ha ha' with
      ⟨-, rfl⟩ | ⟨rfl, rfl⟩ | ⟨_, _, _, helement, helement', hearly'⟩
    · -- the first two have nothing but the root in common
      refine ⟨.object .object, ⟨_, hearly, hroot ha''⟩, late, hlate, ?_⟩
      rcases hlate.of_arrays ha' ha'' with ⟨-, rfl⟩ | ⟨-, rfl⟩ | ⟨_, _, _, hother, hother', hlate'⟩
      · exact (hroot ha).symm
      · exact hearly
      · have hnone : ∀ element, first.element? ≠ some (.ref element) := fun element h =>
          hplain _ _ _ h hother hother'
        exact (merges_apart (RefType.apart_of_elements hlate' ha hnone)).symm
    · -- the first two are one type
      refine ⟨late, ⟨_, hearly, hlate⟩, late, hlate, ?_⟩
      rcases hlate.of_arrays ha ha'' with ⟨-, rfl⟩ | ⟨-, rfl⟩ | ⟨_, _, _, hother, hother', -⟩
      · exact (hroot ha).symm
      · exact merges_self _
      · exact (hplain _ _ _ hother hother hother').elim
    · have hnone : ∀ element, third.element? ≠ some (.ref element) := fun element h =>
        hplain _ _ _ helement helement' h
      have hleft : resolver.Merges early third (.object .object) :=
        merges_apart (RefType.apart_of_elements hearly' ha'' hnone)
      refine ⟨.object .object, ⟨_, hearly, hleft⟩, late, hlate, ?_⟩
      rw [hlate.unique (merges_apart (RefType.apart_of_elements helement' ha'' hnone))]
      exact (hroot ha).symm
  obtain ⟨common, horders⟩ := horders
  refine ⟨common, common, horders, iff_of_true rfl fun h => ?_⟩
  have hnot := Headers.not_isArray_object
  cases h with
  | interfaceFirst | arrayLast | arrayBetween => exact hnot _ ha
  | interfaceLast | arrayFirst => exact hnot _ ha''
  | elements hfirst hsecond hthird => exact hplain _ _ _ hfirst hsecond hthird

/-- Three arrays of references are like their elements. -/
theorem Compares.of_elements {element element' element'' : RefType}
    (hfirst : first.element? = some (.ref element))
    (hsecond : second.element? = some (.ref element'))
    (hthird : third.element? = some (.ref element''))
    (h : resolver.Compares element element' element'') : resolver.Compares first second third := by
  obtain ⟨left, right, horders, hiff⟩ := h
  obtain ⟨⟨early, hearly, hleft⟩, ⟨late, hlate, hright⟩⟩ := horders
  have hadd := RefType.element?_addDimensions 0
  refine ⟨left.addDimensions 1, right.addDimensions 1,
    ⟨⟨_, merges_elements hfirst hsecond hearly, merges_elements (hadd early) hthird hleft⟩,
      ⟨_, merges_elements hsecond hthird hlate, merges_elements hfirst (hadd late) hright⟩⟩, ?_⟩
  -- a dimension more does not make two types one
  have hinjective : left.addDimensions 1 = right.addDimensions 1 ↔ left = right := by
    refine ⟨fun heq => ?_, fun heq => heq ▸ rfl⟩
    have helements := hadd left
    rw [heq, hadd right] at helements
    cases helements
    rfl
  rw [hinjective, hiff]
  refine not_congr ⟨.elements hfirst hsecond hthird, fun hmatters => ?_⟩
  cases hmatters with
  | interfaceFirst | arrayLast | arrayBetween => cases hfirst
  | interfaceLast | arrayFirst => cases hthird
  | elements hfirst' hsecond' hthird' hinner =>
    cases hfirst.symm.trans hfirst'
    cases hsecond.symm.trans hsecond'
    cases hthird.symm.trans hthird'
    exact hinner

/-- Three types, if what is said holds of their elements. -/
theorem compares_of_elements (hfirst : resolver.Known first) (hsecond : resolver.Known second)
    (hthird : resolver.Known third)
    (helements : ∀ element element' element'', first.element? = some (.ref element) →
      second.element? = some (.ref element') → third.element? = some (.ref element'') →
        resolver.Compares element element' element'') : resolver.Compares first second third := by
  -- eight cases, by which of the types are arrays
  rcases first.class_or_array with ⟨name, rfl⟩ | ha
  · rcases second.class_or_array with ⟨name', rfl⟩ | ha'
    · rcases third.class_or_array with ⟨name'', rfl⟩ | ha''
      · exact compares_classes (hfirst name rfl) (hsecond name' rfl) (hthird name'' rfl)
      · exact compares_arrayLast (hfirst name rfl) (hsecond name' rfl) ha''
    · rcases third.class_or_array with ⟨name'', rfl⟩ | ha''
      · exact compares_arrayBetween (hfirst name rfl) ha' (hthird name'' rfl)
      · exact compares_classFirst (hfirst name rfl) ha' ha'' hsecond hthird
  · rcases second.class_or_array with ⟨name', rfl⟩ | ha'
    · rcases third.class_or_array with ⟨name'', rfl⟩ | ha''
      · exact compares_arrayFirst ha (hsecond name' rfl) (hthird name'' rfl)
      · exact compares_classBetween ha name' ha''
    · rcases third.class_or_array with ⟨name'', rfl⟩ | ha''
      · exact (compares_classFirst (hthird name'' rfl) ha' ha hsecond hfirst).symm
      · -- three arrays of references are compared by their elements
        by_cases hall : ∃ element element' element'', first.element? = some (.ref element) ∧
          second.element? = some (.ref element') ∧ third.element? = some (.ref element'')
        · obtain ⟨element, element', element'', h, h', h''⟩ := hall
          exact .of_elements h h' h'' (helements _ _ _ h h' h'')
        · exact compares_plainArrays ha ha' ha'' hfirst hsecond hthird fun _ _ _ h h' h'' =>
            hall ⟨_, _, _, h, h', h''⟩

/-- What is said holds of any three types, by their elements. -/
theorem compares (hfirst : resolver.Known first) (hsecond : resolver.Known second)
    (hthird : resolver.Known third) : resolver.Compares first second third := by
  induction first using RefType.element_induction generalizing second third with
  | plain type hplain =>
    exact compares_of_elements hfirst hsecond hthird fun element _ _ helement =>
      absurd helement (hplain element)
  | array type element helement ih =>
    refine compares_of_elements hfirst hsecond hthird fun found element' element'' hfound h h' => ?_
    cases helement.symm.trans hfound
    exact ih (hfirst.element helement) (hsecond.element h) (hthird.element h')

/-- Three types whose classes lead up to the root can be merged in both orders. It makes a
difference just for the types for which the order matters. -/
theorem mergeFirstTwo_eq_mergeLastTwo_iff (hfirst : resolver.Known first)
    (hsecond : resolver.Known second) (hthird : resolver.Known third) :
    ∃ left right, answer (mergeFirstTwo first second third) resolver = .ok left ∧
      answer (mergeLastTwo first second third) resolver = .ok right ∧
      (left = right ↔ ¬ Headers.OrderMatters resolver.header? first second third) := by
  obtain ⟨left, right, horders, hiff⟩ := compares hfirst hsecond hthird
  exact ⟨left, right, horders.answer_firstTwo, horders.answer_lastTwo, hiff⟩

end Resolver

/-! ### One of the interfaces of arrays, and two arrays -/

/-- The headers of the root and of one of the interfaces of arrays. -/
def interfaceHeaders : Headers := fun name =>
  if name = .cloneable then some ⟨⟨0x601⟩, .cloneable, some .object, []⟩
  else if name = .object then some .object else none

/-- A resolver that was told of the interface. -/
def interfaceResolver : Resolver :=
  (Resolver.ofClassPath ∅).register ⟨⟨0x601⟩, .cloneable, some .object, []⟩

theorem interfaceResolver_header? : interfaceResolver.header? = interfaceHeaders := by
  have hroot := Resolver.header?_of_empty
  have hcloneable : BinaryName.cloneable ≠ .object := by decide +kernel
  unfold interfaceResolver
  rw [Resolver.header?_register_of_none, hroot]
  · funext name
    simp only [Function.update_apply, interfaceHeaders]
  · simp [hroot, hcloneable]

theorem interfaceHeaders_reachesRoot : interfaceHeaders.ReachesRoot .cloneable :=
  ⟨[.cloneable, .object], .root (.climb (by decide +kernel) (.stop .object))
    (by decide +kernel : _ = some ClassHeader.object) rfl, rfl⟩

/-- Every class that is found leads up to the root. -/
theorem interfaceHeaders_known {name : BinaryName} (h : (interfaceHeaders name).isSome) :
    interfaceHeaders.ReachesRoot name := by
  have hcloneable := interfaceHeaders_reachesRoot
  unfold interfaceHeaders at h
  split at h
  · rename_i heq
    exact heq ▸ hcloneable
  · split at h
    · rename_i heq
      exact heq ▸ hcloneable.root
    · cases h

theorem intArray_apart_longArray :
    (RefType.primitiveArray 0 .int).Apart (.primitiveArray 0 .long) where
  left := rfl
  right := rfl
  ne := nofun
  no_elements _ _ h := nomatch h

/-- The interface and arrays of numbers, as elements of arrays: the order matters. -/
theorem interfaceArrays_order :
    interfaceResolver.Known (.objectArray 0 .cloneable) ∧
      interfaceResolver.Known (.primitiveArray 1 .int) ∧
      interfaceResolver.Known (.primitiveArray 1 .long) ∧
      ∃ left right,
        Resolver.answer (Resolver.mergeFirstTwo (.objectArray 0 .cloneable) (.primitiveArray 1 .int)
          (.primitiveArray 1 .long)) interfaceResolver = .ok left ∧
        Resolver.answer (Resolver.mergeLastTwo (.objectArray 0 .cloneable) (.primitiveArray 1 .int)
          (.primitiveArray 1 .long)) interfaceResolver = .ok right ∧ left ≠ right := by
  have hinterface : interfaceResolver.Known (.objectArray 0 .cloneable) := by
    intro name hname
    cases hname
    rw [interfaceResolver_header?]
    exact interfaceHeaders_reachesRoot
  have hints : interfaceResolver.Known (.primitiveArray 1 .int) := nofun
  have hlongs : interfaceResolver.Known (.primitiveArray 1 .long) := nofun
  refine ⟨hinterface, hints, hlongs, ?_⟩
  obtain ⟨left, right, hleft, hright, hiff⟩ :=
    Resolver.mergeFirstTwo_eq_mergeLastTwo_iff hinterface hints hlongs
  refine ⟨left, right, hleft, hright, fun heq => hiff.1 heq ?_⟩
  exact .elements rfl rfl rfl (.interfaceFirst (.inl rfl) intArray_apart_longArray)

/-- An array of `int` and one of `long` meet at the root, which the interface leaves as it is; but
the second array and the interface meet at the interface, and so does the first array. -/
theorem interfaceResolver_orders_differ :
    (∀ name, (interfaceResolver.header? name).isSome →
      Headers.ReachesRoot interfaceResolver.header? name) ∧
      Resolver.answer (Resolver.mergeFirstTwo (.primitiveArray 0 .int) (.primitiveArray 0 .long)
        (.object .cloneable)) interfaceResolver = .ok (.object .object) ∧
      Resolver.answer (Resolver.mergeLastTwo (.primitiveArray 0 .int) (.primitiveArray 0 .long)
        (.object .cloneable)) interfaceResolver = .ok (.object .cloneable) := by
  have hknown : ∀ name, (interfaceResolver.header? name).isSome →
      Headers.ReachesRoot interfaceResolver.header? name := by
    rw [interfaceResolver_header?]
    exact fun name => interfaceHeaders_known
  have hcloneable : Headers.ReachesRoot interfaceResolver.header? .cloneable := by
    rw [interfaceResolver_header?]
    exact interfaceHeaders_reachesRoot
  obtain ⟨common, hcommon, hleast⟩ := Headers.exists_closest hcloneable.root hcloneable
  obtain rfl := hleast.eq_root hcloneable
  have horders : interfaceResolver.Orders (.primitiveArray 0 .int) (.primitiveArray 0 .long)
      (.object .cloneable) (.object .object) (.object .cloneable) :=
    ⟨⟨_, Resolver.merges_apart intArray_apart_longArray, Resolver.merges_classes hcommon⟩,
      ⟨_, Resolver.merges_arrayClass .cloneable rfl, Resolver.merges_arrayClass .cloneable rfl⟩⟩
  exact ⟨hknown, horders.answer_firstTwo, horders.answer_lastTwo⟩

end Preverification
