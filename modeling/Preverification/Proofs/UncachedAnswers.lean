import Mathlib.Data.List.Nodup
import Mathlib.Data.List.Perm.Subperm
import Preverification.Proofs.Hierarchy

/-!
# Answers without a memory

What a chain of superclasses, and the closest class or type that two have in common, is when the
header of a class is looked up anew each time. The rules give the answer, which may be an error, and
the classes that are looked up for it; they never have two answers.

A resolver gives these answers for the headers that it has. What it looks up is known from then on,
and nothing else. A chain never ends because the rounds run out, since there are not as many classes
with a header.

* `Headers.Chain`, `Headers.CommonSuperclass`, `Headers.CommonRefType`: the rules, each with the
  classes that are looked up.
* `Headers.Chain.unique` and the two like it: the rules never have two answers.
* `Resolver.header?_atMost`: there are not as many classes with a header as there are rounds.
* `Resolver.ancestorChain_gives`, `Resolver.commonSuperclass_gives`, `Resolver.commonRefType_gives`:
  a resolver gives the answers of the rules, whatever it was asked before.
-/

namespace Preverification

/-- The headers of classes, each looked up anew. -/
abbrev Headers := BinaryName → Option ClassHeader

namespace Headers

/-- The header of a class, or that there is none. -/
def find (headers : Headers) (name : BinaryName) : Except ResolveError ClassHeader :=
  match headers name with
  | some header => .ok header
  | none => .error (.notFound name)

/-- The superclasses from a class on, after some were passed: the classes that are looked up, and
the answer. -/
inductive Chain (headers : Headers) : (passed : List BinaryName) → (name : BinaryName) →
    (looked : List BinaryName) → Except ResolveError (List BinaryName) → Prop where
  -- a class that was passed is its own superclass
  | circular {passed : List BinaryName} {name : BinaryName} (h : name ∈ passed) :
    Chain headers passed name [] (.error (.circular name))
  | missing {passed : List BinaryName} {name : BinaryName} (hnew : name ∉ passed)
    (h : headers name = none) : Chain headers passed name [name] (.error (.notFound name))
  | root {passed : List BinaryName} {name : BinaryName} {header : ClassHeader}
    (hnew : name ∉ passed) (h : headers name = some header) (hroot : header.superclass = none) :
    Chain headers passed name [name] (.ok [name])
  | extends {passed looked : List BinaryName} {name superclass : BinaryName} {header : ClassHeader}
    {answer : Except ResolveError (List BinaryName)} (hnew : name ∉ passed)
    (h : headers name = some header) (hsuper : header.superclass = some superclass)
    (hrest : Chain headers (name :: passed) superclass looked answer) :
    Chain headers passed name (name :: looked) (answer.map (name :: ·))

/-- The closest class that two classes extend. The chain of the second one is found first. -/
inductive CommonSuperclass (headers : Headers) : (first second : BinaryName) →
    (looked : List BinaryName) → Except ResolveError BinaryName → Prop where
  | same (name : BinaryName) : CommonSuperclass headers name name [] (.ok name)
  | secondFails {first second : BinaryName} {looked : List BinaryName} {error : ResolveError}
    (hne : first ≠ second) (h : headers.Chain [] second looked (.error error)) :
    CommonSuperclass headers first second looked (.error error)
  | firstFails {first second : BinaryName} {looked looked' others : List BinaryName}
    {error : ResolveError} (hne : first ≠ second) (h : headers.Chain [] second looked (.ok others))
    (h' : headers.Chain [] first looked' (.error error)) :
    CommonSuperclass headers first second (looked ++ looked') (.error error)
  | meet {first second : BinaryName} {looked looked' others chain : List BinaryName}
    (hne : first ≠ second) (h : headers.Chain [] second looked (.ok others))
    (h' : headers.Chain [] first looked' (.ok chain)) :
    CommonSuperclass headers first second (looked ++ looked')
      (.ok ((chain.find? (· ∈ others)).getD .object))

/-- The closest type that two types have in common. -/
inductive CommonRefType (headers : Headers) : (first second : RefType) →
    (looked : List BinaryName) → Except ResolveError RefType → Prop where
  | same (type : RefType) : CommonRefType headers type type [] (.ok type)
  | classes {first second : BinaryName} {looked : List BinaryName}
    {answer : Except ResolveError BinaryName} (hne : first ≠ second)
    (h : headers.CommonSuperclass first second looked answer) :
    CommonRefType headers (.object first) (.object second) looked (answer.map .object)
  | classAndArray (name : BinaryName) {type : RefType} (h : type.IsArray) :
    CommonRefType headers (.object name) type []
      (.ok (.object (if name.isArraySupertype then name else .object)))
  | arrayAndClass {type : RefType} (name : BinaryName) (h : type.IsArray) :
    CommonRefType headers type (.object name) []
      (.ok (.object (if name.isArraySupertype then name else .object)))
  | elements {first second element other : RefType} {looked : List BinaryName}
    {answer : Except ResolveError RefType} (hne : first ≠ second)
    (h : first.element? = some (.ref element)) (h' : second.element? = some (.ref other))
    (hinner : CommonRefType headers element other looked answer) :
    CommonRefType headers first second looked (answer.map (·.addDimensions 1))
  -- of arrays that are not both of references
  | others {first second : RefType} (hne : first ≠ second) (h : first.IsArray)
    (h' : second.IsArray) (hnot : ∀ element other, first.element? = some (.ref element) →
      second.element? = some (.ref other) → False) :
    CommonRefType headers first second [] (.ok (.object .object))

/-! ### One answer -/

variable {headers : Headers}

/-- A chain has one answer, and the same classes are looked up for it. -/
theorem Chain.unique {passed : List BinaryName} {name : BinaryName}
    {looked looked' : List BinaryName} {answer answer' : Except ResolveError (List BinaryName)}
    (h : headers.Chain passed name looked answer) (h' : headers.Chain passed name looked' answer') :
    looked = looked' ∧ answer = answer' := by
  -- on the first chain; each rule excludes all others for the second one
  induction h generalizing looked' answer' with
  | circular hpassed =>
    cases h' with
    | circular => exact ⟨rfl, rfl⟩
    | missing hnew | root hnew | «extends» hnew => exact absurd hpassed hnew
  | missing hnew hnone =>
    cases h' with
    | circular hpassed => exact absurd hpassed hnew
    | missing => exact ⟨rfl, rfl⟩
    | root _ h | «extends» _ h => exact absurd (hnone.symm.trans h) nofun
  | root hnew hfound hroot =>
    cases h' with
    | circular hpassed => exact absurd hpassed hnew
    | missing _ hnone => exact absurd (hnone.symm.trans hfound) nofun
    | root => exact ⟨rfl, rfl⟩
    | «extends» _ h hsuper =>
      obtain rfl := Option.some.inj (hfound.symm.trans h)
      exact absurd (hroot.symm.trans hsuper) nofun
  | «extends» hnew hfound hsuper _ ih =>
    cases h' with
    | circular hpassed => exact absurd hpassed hnew
    | missing _ hnone => exact absurd (hnone.symm.trans hfound) nofun
    | root _ h hroot =>
      obtain rfl := Option.some.inj (hfound.symm.trans h)
      exact absurd (hroot.symm.trans hsuper) nofun
    | «extends» _ h hsuper' hrest =>
      obtain rfl := Option.some.inj (hfound.symm.trans h)
      obtain rfl := Option.some.inj (hsuper.symm.trans hsuper')
      -- both go on from the same superclass
      obtain ⟨rfl, rfl⟩ := ih hrest
      exact ⟨rfl, rfl⟩

/-- The question for the closest class that two have in common has one answer. -/
theorem CommonSuperclass.unique {first second : BinaryName} {looked looked' : List BinaryName}
    {answer answer' : Except ResolveError BinaryName}
    (h : headers.CommonSuperclass first second looked answer)
    (h' : headers.CommonSuperclass first second looked' answer') :
    looked = looked' ∧ answer = answer' := by
  -- which case it is depends on the answers to the two questions about chains
  cases h with
  | same =>
    cases h' with
    | same => exact ⟨rfl, rfl⟩
    | secondFails hne | firstFails hne | meet hne => exact absurd rfl hne
  | secondFails hne hsecond =>
    cases h' with
    | same => exact absurd rfl hne
    | secondFails _ h =>
      obtain ⟨rfl, heq⟩ := hsecond.unique h
      cases heq
      exact ⟨rfl, rfl⟩
    | firstFails _ h | meet _ h => exact absurd (hsecond.unique h).2 nofun
  | firstFails hne hsecond hfirst =>
    cases h' with
    | same => exact absurd rfl hne
    | secondFails _ h => exact absurd (hsecond.unique h).2 nofun
    | firstFails _ h h' =>
      obtain ⟨rfl, -⟩ := hsecond.unique h
      obtain ⟨rfl, heq⟩ := hfirst.unique h'
      cases heq
      exact ⟨rfl, rfl⟩
    | meet _ _ h' => exact absurd (hfirst.unique h').2 nofun
  | meet hne hsecond hfirst =>
    cases h' with
    | same => exact absurd rfl hne
    | secondFails _ h => exact absurd (hsecond.unique h).2 nofun
    | firstFails _ _ h' => exact absurd (hfirst.unique h').2 nofun
    | meet _ h h' =>
      obtain ⟨rfl, heq⟩ := hsecond.unique h
      obtain ⟨rfl, heq'⟩ := hfirst.unique h'
      cases heq
      cases heq'
      exact ⟨rfl, rfl⟩

/-- A class is no array. -/
theorem not_isArray_object (name : BinaryName) : ¬ (RefType.object name).IsArray := nofun

/-- The question for the closest type has one answer. -/
theorem CommonRefType.unique {first second : RefType} {looked looked' : List BinaryName}
    {answer answer' : Except ResolveError RefType}
    (h : headers.CommonRefType first second looked answer)
    (h' : headers.CommonRefType first second looked' answer') :
    looked = looked' ∧ answer = answer' := by
  -- arrays and classes exclude each other, so that only one case fits
  induction h generalizing looked' answer' with
  | same type =>
    cases h' with
    | same => exact ⟨rfl, rfl⟩
    | classes hne | elements hne | others hne => exact absurd rfl hne
    | classAndArray _ ha | arrayAndClass _ ha => exact absurd ha (not_isArray_object _)
  | classes hne hcommon =>
    cases h' with
    | same => exact absurd rfl hne
    | classes _ hcommon' =>
      obtain ⟨rfl, rfl⟩ := hcommon.unique hcommon'
      exact ⟨rfl, rfl⟩
    | classAndArray _ ha | arrayAndClass _ ha => exact absurd ha (not_isArray_object _)
    | elements _ h => cases h
    | others _ ha => exact absurd ha (not_isArray_object _)
  | classAndArray name ha =>
    cases h' with
    | same => exact absurd ha (not_isArray_object _)
    | classes => exact absurd ha (not_isArray_object _)
    | classAndArray => exact ⟨rfl, rfl⟩
    | arrayAndClass => exact absurd ha (not_isArray_object _)
    | elements _ h => cases h
    | others _ ha' => exact absurd ha' (not_isArray_object _)
  | arrayAndClass name ha =>
    cases h' with
    | same => exact absurd ha (not_isArray_object _)
    | classes => exact absurd ha (not_isArray_object _)
    | classAndArray => exact absurd ha (not_isArray_object _)
    | arrayAndClass => exact ⟨rfl, rfl⟩
    | elements _ _ h => cases h
    | others _ _ ha' => exact absurd ha' (not_isArray_object _)
  | elements hne hfirst hsecond _ ih =>
    cases h' with
    | same => exact absurd rfl hne
    | classes => cases hfirst
    | classAndArray => cases hfirst
    | arrayAndClass => cases hsecond
    | elements _ hfirst' hsecond' hinner =>
      cases hfirst.symm.trans hfirst'
      cases hsecond.symm.trans hsecond'
      -- both ask for the elements, which are the same
      obtain ⟨rfl, rfl⟩ := ih hinner
      exact ⟨rfl, rfl⟩
    | others _ _ _ hnot => exact (hnot _ _ hfirst hsecond).elim
  | others hne ha ha' hnot =>
    cases h' with
    | same => exact absurd rfl hne
    | classes | classAndArray => exact absurd ha (not_isArray_object _)
    | arrayAndClass => exact absurd ha' (not_isArray_object _)
    | elements _ hfirst hsecond => exact (hnot _ _ hfirst hsecond).elim
    | others => exact ⟨rfl, rfl⟩

/-- There are no more classes with a header than a bound. -/
def AtMost (headers : Headers) (bound : Nat) : Prop :=
  ∀ names : List BinaryName, names.Nodup → (∀ name ∈ names, (headers name).isSome) →
    names.length ≤ bound

end Headers

/-! ### How many classes there are -/

/-- No two classes share a file. -/
theorem BinaryName.classFilePath_injective : Function.Injective classFilePath := by
  intro name other h
  have htext : name.text = other.text := by
    have hlists := congrArg String.toList h
    simp only [classFilePath, String.toList_append] at hlists
    exact String.toList_inj.1 (List.append_cancel_right hlists)
  cases name
  cases other
  cases htext
  rfl

namespace ClassSource

/-- The paths of the files of a source. -/
def paths : ClassSource → List String
  | classes files => files.keys.map BinaryName.classFilePath
  | directory files => files.keys

/-- A source has as many paths as it has files. -/
theorem length_paths (source : ClassSource) : source.paths.length = source.size := by
  cases source with
  | classes files => simp [paths, size]
  | directory files => simp [paths, size]

/-- A class whose file is found has one of the paths. -/
theorem mem_paths {source : ClassSource} {name : BinaryName} {bytes : Bytes}
    (h : source.find? name = some bytes) : name.classFilePath ∈ source.paths := by
  cases source with
  | classes files =>
    have hmem : name ∈ files := Std.HashMap.isSome_getElem?_iff_mem.1 (by
      rw [show files[name]? = some bytes from h]
      rfl)
    exact List.mem_map_of_mem (Std.HashMap.mem_keys.2 hmem)
  | directory files =>
    have hmem : name.classFilePath ∈ files := Std.HashMap.isSome_getElem?_iff_mem.1 (by
      rw [show files[name.classFilePath]? = some bytes from h]
      rfl)
    exact Std.HashMap.mem_keys.2 hmem

end ClassSource

namespace ClassPath

/-- A class path has as many files as its sources have. -/
theorem size_eq (classPath : ClassPath) :
    classPath.size = (classPath.sources.flatMap ClassSource.paths).length := by
  have hfrom : ∀ (sources : List ClassSource) (count : Nat),
      sources.foldl (fun n source => n + source.size) count =
        count + (sources.flatMap ClassSource.paths).length := by
    intro sources
    induction sources with
    | nil => simp
    | cons source sources ih =>
      intro count
      rw [List.foldl_cons, ih, List.flatMap_cons, List.length_append, source.length_paths]
      omega
  rw [size, hfrom, Nat.zero_add]

end ClassPath

namespace Resolver

/-- A class that is known or found is among those that are kept, the root, or on the class path. -/
theorem mem_of_header? {resolver : Resolver} {name : BinaryName}
    (h : (resolver.header? name).isSome) :
    name.classFilePath ∈ resolver.headers.keys.map BinaryName.classFilePath ++
      (BinaryName.object.classFilePath ::
        resolver.classPath.sources.flatMap ClassSource.paths) := by
  unfold header? at h
  cases hknown : resolver.headers[name]? with
  | some known =>
    have hmem : name ∈ resolver.headers := Std.HashMap.isSome_getElem?_iff_mem.1 (by
      rw [hknown]
      rfl)
    exact List.mem_append_left _ (List.mem_map_of_mem (Std.HashMap.mem_keys.2 hmem))
  | none =>
    rw [hknown] at h
    refine List.mem_append_right _ ?_
    by_cases hroot : name = BinaryName.object
    · rw [hroot]
      exact List.mem_cons_self
    · refine List.mem_cons_of_mem _ ?_
      simp only [load, hroot, if_false] at h
      obtain ⟨header, hread⟩ := Option.isSome_iff_exists.1 h
      obtain ⟨bytes, hfile, -⟩ := Option.bind_eq_some_iff.1 hread
      obtain ⟨source, hsource, hfind⟩ := List.exists_of_findSome?_eq_some hfile
      exact List.mem_flatMap.2 ⟨source, hsource, ClassSource.mem_paths hfind⟩

/-- The number of rounds is enough: there are no more classes with a header. -/
theorem header?_atMost (resolver : Resolver) :
    Headers.AtMost resolver.header? resolver.classBound := by
  intro names hnodup hsome
  have hpaths : (names.map BinaryName.classFilePath).Nodup :=
    List.Nodup.map BinaryName.classFilePath_injective hnodup
  have hsub : names.map BinaryName.classFilePath ⊆
      resolver.headers.keys.map BinaryName.classFilePath ++
        (BinaryName.object.classFilePath ::
          resolver.classPath.sources.flatMap ClassSource.paths) := by
    intro path hpath
    obtain ⟨name, hname, rfl⟩ := List.mem_map.1 hpath
    exact mem_of_header? (hsome name hname)
  have hle := (List.subperm_of_subset hpaths hsub).length_le
  simp only [List.length_map, List.length_append, List.length_cons, Std.HashMap.length_keys,
    ← ClassPath.size_eq] at hle
  unfold classBound
  omega

/-! ### What is looked up is known -/

/-- The class path was asked at most once for each class, and never for the root. -/
structure Tidy (resolver : Resolver) : Prop where
  nodup : resolver.asked.Nodup
  object_notMem : BinaryName.object ∉ resolver.asked
  known : ∀ name ∈ resolver.asked, name ∈ resolver.headers

/-- A resolver is left after some classes were looked up. -/
structure Looked (names : List BinaryName) (old new : Resolver) : Prop where
  classPath_eq : new.classPath = old.classPath
  header?_eq : new.header? = old.header?
  mem_headers : ∀ name, name ∈ new.headers ↔ name ∈ old.headers ∨ name ∈ names
  tidy : old.Tidy → new.Tidy

theorem Looked.refl (resolver : Resolver) : Looked [] resolver resolver :=
  ⟨rfl, rfl, by simp, id⟩

/-- What is looked up by two runs, one after the other. -/
theorem Looked.trans {names names' : List BinaryName} {first second third : Resolver}
    (h : Looked names first second) (h' : Looked names' second third) :
    Looked (names ++ names') first third where
  classPath_eq := h'.classPath_eq.trans h.classPath_eq
  header?_eq := h'.header?_eq.trans h.header?_eq
  mem_headers name := by rw [h'.mem_headers, h.mem_headers, List.mem_append, or_assoc]
  tidy htidy := h'.tidy (h.tidy htidy)

/-- A class that is loaded has been looked up, and nothing else has. -/
theorem load_looked (name : BinaryName) {resolver : Resolver}
    (h : resolver.headers[name]? = none) : Looked [name] resolver (load name resolver).2 where
  classPath_eq := load_classPath name resolver
  header?_eq := header?_load name h
  mem_headers other := by
    unfold load
    split
    all_goals
      rw [Std.HashMap.mem_insert, List.mem_singleton, beq_iff_eq, or_comm, eq_comm (a := name)]
  tidy htidy := by
    have hunknown : name ∉ resolver.headers := by
      rw [← Std.HashMap.isSome_getElem?_iff_mem, h]
      nofun
    unfold load
    split
    · refine ⟨htidy.nodup, htidy.object_notMem, fun other hother => ?_⟩
      exact Std.HashMap.mem_insert.2 (.inr (htidy.known other hother))
    · rename_i hroot
      refine ⟨?_, ?_, ?_⟩
      · exact List.nodup_cons.2 ⟨fun hmem => hunknown (htidy.known name hmem), htidy.nodup⟩
      · exact List.not_mem_cons_of_ne_of_not_mem (fun heq => hroot heq.symm) htidy.object_notMem
      · intro other hother
        rcases List.mem_cons.1 hother with rfl | hother
        · exact Std.HashMap.mem_insert_self
        · exact Std.HashMap.mem_insert.2 (.inr (htidy.known other hother))

/-- What a run leaves, by its answer. -/
def outcome {α : Type} (answer : Except ResolveError α) (resolver : Resolver) :
    EStateM.Result ResolveError Resolver α :=
  match answer with
  | .ok value => .ok value resolver
  | .error error => .error error resolver

/-- A question has an answer, for which some classes are looked up. -/
def Gives {α : Type} (question : Query α) (resolver : Resolver) (looked : List BinaryName)
    (answer : Except ResolveError α) : Prop :=
  ∃ resolver', question resolver = outcome answer resolver' ∧ Looked looked resolver resolver'

section Gives

variable {α β : Type} {question : Query α} {next : α → Query β} {resolver : Resolver}
  {looked looked' : List BinaryName}

theorem gives_pure (value : α) (resolver : Resolver) :
    Gives (pure value) resolver [] (.ok value) := ⟨resolver, rfl, .refl resolver⟩

theorem gives_throw (error : ResolveError) (resolver : Resolver) :
    Gives (throw error : Query α) resolver [] (.error error) := ⟨resolver, rfl, .refl resolver⟩

/-- The first question that fails is the last one. -/
theorem Gives.bind_error {error : ResolveError}
    (h : Gives question resolver looked (.error error)) :
    Gives (question >>= next) resolver looked (.error error) := by
  obtain ⟨resolver', hrun, hlooked⟩ := h
  refine ⟨resolver', ?_, hlooked⟩
  change EStateM.bind question next resolver = _
  unfold EStateM.bind
  rw [hrun]
  rfl

/-- What two questions look up is put together. The second one still finds the same headers. -/
theorem Gives.bind_ok {value : α} {answer : Except ResolveError β}
    (h : Gives question resolver looked (.ok value))
    (hnext : ∀ resolver', resolver'.header? = resolver.header? →
      Gives (next value) resolver' looked' answer) :
    Gives (question >>= next) resolver (looked ++ looked') answer := by
  obtain ⟨resolver', hrun, hlooked⟩ := h
  obtain ⟨resolver'', hrun', hlooked'⟩ := hnext resolver' hlooked.header?_eq
  refine ⟨resolver'', ?_, hlooked.trans hlooked'⟩
  change EStateM.bind question next resolver = _
  unfold EStateM.bind
  rw [hrun]
  exact hrun'

/-- A value that is changed at the end. -/
theorem Gives.map {answer : Except ResolveError α} (h : Gives question resolver looked answer)
    (f : α → β) : Gives (question >>= fun value => pure (f value)) resolver looked
      (answer.map f) := by
  cases answer with
  | error error => exact h.bind_error
  | ok value =>
    have hbind : Gives (question >>= fun value => pure (f value)) resolver (looked ++ [])
        (.ok (f value)) := h.bind_ok fun resolver' _ => gives_pure (f value) resolver'
    rwa [List.append_nil] at hbind

end Gives

/-! ### The answers of a resolver -/

/-- A header is known or it is loaded. Either way its class has been looked up. -/
theorem header_gives (name : BinaryName) (resolver : Resolver) :
    Gives (header name) resolver [name] (Headers.find resolver.header? name) := by
  unfold Gives header Headers.find header?
  cases hknown : resolver.headers[name]? with
  | some known =>
    have hmem : name ∈ resolver.headers := Std.HashMap.isSome_getElem?_iff_mem.1 (by
      rw [hknown]
      rfl)
    have hlooked : Looked [name] resolver resolver := by
      refine ⟨rfl, rfl, fun other => ?_, id⟩
      rw [List.mem_singleton]
      exact ⟨.inl, fun h => h.elim id fun heq => heq ▸ hmem⟩
    cases known with
    | none => exact ⟨resolver, rfl, hlooked⟩
    | some known => exact ⟨resolver, rfl, hlooked⟩
  | none =>
    have hlooked := load_looked name hknown
    dsimp only
    generalize load name resolver = loaded at hlooked
    rcases loaded with ⟨_ | found, resolver'⟩ <;> exact ⟨resolver', rfl, hlooked⟩

/-- The classes that were passed are known and differ, so there are never more of them than there
are rounds. -/
theorem chainFrom_gives {bound : Nat} {seen : Std.HashSet BinaryName} {chain : List BinaryName}
    {name : BinaryName} {rounds : Nat} {resolver : Resolver}
    (hbound : Headers.AtMost resolver.header? bound) (hseen : ∀ other, other ∈ seen ↔ other ∈ chain)
    (hnodup : chain.Nodup) (hsome : ∀ other ∈ chain, (resolver.header? other).isSome)
    (hrounds : bound < rounds + chain.length) :
    ∃ looked answer, Headers.Chain resolver.header? chain name looked answer ∧
      Gives (chainFrom seen chain name rounds) resolver looked
        (answer.map (chain.reverse ++ ·)) := by
  induction rounds generalizing seen chain name resolver with
  | zero =>
    have hle := hbound chain hnodup hsome
    omega
  | succ rounds ih =>
    unfold chainFrom
    by_cases hpassed : name ∈ chain
    · refine ⟨[], _, .circular hpassed, ?_⟩
      rw [if_pos (Std.HashSet.contains_iff_mem.2 ((hseen name).2 hpassed))]
      exact (gives_throw _ resolver).bind_error
    · rw [if_neg fun h => hpassed ((hseen name).1 (Std.HashSet.contains_iff_mem.1 h))]
      have hgives := header_gives name resolver
      cases hfound : resolver.header? name with
      | none =>
        rw [Headers.find, hfound] at hgives
        exact ⟨[name], _, .missing hpassed hfound, hgives.bind_error⟩
      | some found =>
        rw [Headers.find, hfound] at hgives
        cases hparent : found.superclass with
        | none =>
          refine ⟨[name] ++ [], _, .root hpassed hfound hparent, ?_⟩
          refine hgives.bind_ok fun resolver' _ => ?_
          rw [hparent, List.reverse_cons]
          exact gives_pure _ resolver'
        | some parent =>
          -- the chain goes on behind one more class that was passed
          have hlonger : ∀ resolver' : Resolver, resolver'.header? = resolver.header? →
              ∃ looked answer, Headers.Chain resolver.header? (name :: chain) parent looked answer ∧
                Gives (chainFrom (seen.insert name) (name :: chain) parent rounds) resolver' looked
                  (answer.map ((name :: chain).reverse ++ ·)) := by
            intro resolver' hsame
            rw [← hsame] at hbound hsome hfound ⊢
            refine ih hbound ?_ (List.nodup_cons.2 ⟨hpassed, hnodup⟩) ?_ ?_
            · intro other
              rw [Std.HashSet.mem_insert, List.mem_cons, hseen, beq_iff_eq, eq_comm (a := name)]
            · exact List.forall_mem_cons.2 ⟨by rw [hfound]; rfl, hsome⟩
            · rw [List.length_cons]
              omega
          obtain ⟨looked, answer, hchain, -⟩ := hlonger resolver rfl
          refine ⟨[name] ++ looked, _, .extends hpassed hfound hparent hchain, ?_⟩
          refine hgives.bind_ok fun resolver' hsame => ?_
          obtain ⟨looked', answer', hchain', hrest⟩ := hlonger resolver' hsame
          obtain ⟨rfl, rfl⟩ := hchain.unique hchain'
          rw [hparent]
          have hanswer : (answer.map (name :: ·)).map (chain.reverse ++ ·) =
              answer.map ((name :: chain).reverse ++ ·) := by
            cases answer with
            | error => rfl
            | ok rest => simp [Except.map]
          rw [hanswer]
          exact hrest

/-- A resolver gives the chain that the rules give. -/
theorem ancestorChain_gives (name : BinaryName) (resolver : Resolver) :
    ∃ looked answer, Headers.Chain resolver.header? [] name looked answer ∧
      Gives (ancestorChain name) resolver looked answer := by
  have hfrom : ∃ looked answer, Headers.Chain resolver.header? [] name looked answer ∧
      Gives (chainFrom ∅ [] name (resolver.classBound + 1)) resolver looked
        (answer.map ([].reverse ++ ·)) := by
    -- no class was passed yet, and there is one round more than classes
    apply chainFrom_gives resolver.header?_atMost
    · intro other
      simp
    · exact List.nodup_nil
    · nofun
    · simp
  obtain ⟨looked, answer, hchain, resolver', hrun, hlooked⟩ := hfrom
  have hanswer : answer.map ([].reverse ++ ·) = answer := by cases answer <;> rfl
  rw [hanswer] at hrun
  exact ⟨looked, answer, hchain, resolver', hrun, hlooked⟩

/-- The chain of the second class is asked for first, and that of the first class is looked for in
it. -/
theorem commonSuperclass_gives (first second : BinaryName) (resolver : Resolver) :
    ∃ looked answer, Headers.CommonSuperclass resolver.header? first second looked answer ∧
      Gives (commonSuperclass first second) resolver looked answer := by
  unfold commonSuperclass
  by_cases hne : first = second
  · subst hne
    rw [if_pos rfl]
    exact ⟨[], _, .same first, gives_pure first resolver⟩
  · rw [if_neg hne]
    obtain ⟨looked, answer, hsecond, hgives⟩ := ancestorChain_gives second resolver
    cases answer with
    | error error => exact ⟨looked, _, .secondFails hne hsecond, hgives.bind_error⟩
    | ok others =>
      obtain ⟨looked', answer', hfirst, -⟩ := ancestorChain_gives first resolver
      -- the chain of the first class is the same one after the other chain was found
      have hlater : ∀ resolver' : Resolver, resolver'.header? = resolver.header? →
          Gives (ancestorChain first) resolver' looked' answer' := by
        intro resolver' hsame
        obtain ⟨looked'', answer'', hchain, hgives'⟩ := ancestorChain_gives first resolver'
        rw [hsame] at hchain
        obtain ⟨rfl, rfl⟩ := hfirst.unique hchain
        exact hgives'
      cases answer' with
      | error error =>
        refine ⟨_, _, .firstFails hne hsecond hfirst, ?_⟩
        exact hgives.bind_ok fun resolver' hsame => (hlater resolver' hsame).bind_error
      | ok chain =>
        refine ⟨_, _, .meet hne hsecond hfirst, hgives.bind_ok fun resolver' hsame => ?_⟩
        have hfind : chain.find? (Std.HashSet.ofList others).contains =
            chain.find? (· ∈ others) := by
          congr 1
          funext name
          rw [Std.HashSet.contains_ofList, List.contains_eq_mem]
        rw [← hfind]
        exact (hlater resolver' hsame).map _

/-- Dimensions are added one by one. -/
theorem addDimensions_succ (layers : Nat) (type : RefType) :
    type.addDimensions (layers + 1) = (type.addDimensions 1).addDimensions layers :=
  RefType.addDimensions_of_element? (RefType.element?_addDimensions 0 type) layers

/-- While two types are arrays, their elements are compared. The layers that were taken off are put
back around the answer. -/
theorem commonRefTypeUnder_gives (layers : Nat) (first second : RefType) (resolver : Resolver) :
    ∃ looked answer, Headers.CommonRefType resolver.header? first second looked answer ∧
      Gives (commonRefTypeUnder layers first second) resolver looked
        (answer.map (·.addDimensions layers)) := by
  induction layers, first, second using commonRefTypeUnder.induct generalizing resolver with
  | case1 layers type =>
    rw [commonRefTypeUnder.eq_def, if_pos rfl]
    exact ⟨[], _, .same type, gives_pure _ resolver⟩
  | case2 layers name other hne =>
    rw [commonRefTypeUnder.eq_def, if_neg hne]
    obtain ⟨looked, answer, hcommon, hgives⟩ := commonSuperclass_gives name other resolver
    refine ⟨looked, _, .classes (fun h => hne (h ▸ rfl)) hcommon, ?_⟩
    have hanswer : (answer.map RefType.object).map (·.addDimensions layers) =
        answer.map fun common => (RefType.object common).addDimensions layers := by
      cases answer <;> rfl
    rw [hanswer]
    exact hgives.map _
  | case3 layers second name hnot hne =>
    rw [commonRefTypeUnder.eq_def, if_neg hne]
    refine ⟨[], _, .classAndArray name (isArray_of_ne hnot), ?_⟩
    cases second with
    | object other => exact absurd rfl (hnot other)
    | objectArray | primitiveArray => exact gives_pure _ resolver
  | case4 layers first name hnot hne =>
    rw [commonRefTypeUnder.eq_def, if_neg hne]
    refine ⟨[], _, .arrayAndClass name (isArray_of_ne hnot), ?_⟩
    cases first with
    | object other => exact absurd rfl (hnot other)
    | objectArray | primitiveArray => exact gives_pure _ resolver
  | case5 layers first second hne element other hfirst hsecond _ hnot hnot' _ ih =>
    -- the dimension that was left is put back around the answer
    rw [commonRefTypeUnder_of_elements layers hne hnot hnot' hfirst hsecond]
    obtain ⟨looked, answer, hinner, hgives⟩ := ih resolver
    refine ⟨looked, _, .elements hne hfirst hsecond hinner, ?_⟩
    have hanswer : (answer.map (·.addDimensions 1)).map (·.addDimensions layers) =
        answer.map (·.addDimensions (layers + 1)) := by
      cases answer with
      | error => rfl
      | ok common => simp [Except.map, addDimensions_succ layers]
    rw [hanswer]
    exact hgives
  | case6 layers first second hne hnot hnot' _ helements =>
    rw [commonRefTypeUnder_of_no_elements layers hne hnot hnot' helements]
    exact ⟨[], _, .others hne (isArray_of_ne hnot) (isArray_of_ne hnot') helements,
      gives_pure _ resolver⟩

/-- A resolver gives the common type that the rules give. -/
theorem commonRefType_gives (first second : RefType) (resolver : Resolver) :
    ∃ looked answer, Headers.CommonRefType resolver.header? first second looked answer ∧
      Gives (commonRefType first second) resolver looked answer := by
  obtain ⟨looked, answer, hcommon, hgives⟩ := commonRefTypeUnder_gives 0 first second resolver
  have hanswer : answer.map (·.addDimensions 0) = answer := by cases answer <;> rfl
  rw [hanswer] at hgives
  exact ⟨looked, answer, hcommon, hgives⟩

end Resolver

end Preverification
