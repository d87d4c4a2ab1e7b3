import Preverification.StructuralError
import Preverification.Proofs.DescriptorForms
import Preverification.Proofs.Effects
import Mathlib.Data.List.TakeWhile

/-!
# Descriptors and their texts

A reader of types takes the text of a type off the front of what it is given, and nothing else. What
a name may hold decides where it ends: no legal name has a semicolon in it, and none starts with a
bracket. Main statement: a text is accepted as a type exactly if it is the text of that type, and
the texts of types are those that the grammar of descriptors gives them.

* `DescriptorReader.Exact`: a reader takes the text of a value off the front, and nothing else.
* `FieldType.exact_read`, `MethodDescriptor.exact_read`: readers of types do so.
* `RefType.ofClassConstant_ok`: a text that names a type starts with a bracket just if the type is
  an array.
* `descriptors_readsExactly`: exactly the texts of types are accepted.
-/

namespace Preverification

/-! ### Names -/

/-- Every character stands in one of the parts, or it is a slash between them. -/
theorem mem_slashParts {s : List Char} {c : Char} (h : c ∈ s) :
    c = '/' ∨ ∃ part ∈ slashParts s, c ∈ part := by
  induction s with
  | nil => cases h
  | cons first rest ih =>
    unfold slashParts
    split
    · rename_i hslash
      rcases List.mem_cons.1 h with rfl | hrest
      · exact .inl hslash
      · exact (ih hrest).imp_right fun ⟨part, hmem, hc⟩ => ⟨part, List.mem_cons_of_mem _ hmem, hc⟩
    · -- the slash itself, or a character behind it
      rcases List.mem_cons.1 h with rfl | hrest
      · -- the first character starts a part
        split <;> exact .inr ⟨_, List.mem_cons_self, List.mem_cons_self⟩
      · refine (ih hrest).imp_right ?_
        -- it is put in front of the first part behind it, which keeps its characters
        rintro ⟨part, hmem, hc⟩
        split
        · rename_i hnone
          rw [hnone] at hmem
          cases hmem
        · rename_i front parts hsome
          rw [hsome] at hmem
          rcases List.mem_cons.1 hmem with rfl | hmem
          · exact ⟨_, List.mem_cons_self, List.mem_cons_of_mem _ hc⟩
          · exact ⟨part, List.mem_cons_of_mem _ hmem, hc⟩

namespace BinaryName

/-- A name is its text. -/
theorem ofString_ok {text : String} {name : BinaryName} :
    ofString text = .ok name ↔ name.text = text := by
  unfold ofString
  constructor
  · intro h
    split at h
    · cases h
      rfl
    · cases h
  · rintro rfl
    have hvalid : fault? name.text = none := fault?_eq_none_iff.2 name.parts_valid
    split
    · rfl
    · rename_i fault hfault
      rw [hvalid] at hfault
      cases hfault

/-- A name holds no character that its parts may not hold, apart from the slashes between them. -/
theorem notMem_text {c : Char} (hillegal : UnqualifiedName.isIllegal c = true) (hslash : c ≠ '/')
    (name : BinaryName) : c ∉ name.text.toList := by
  intro hmem
  obtain ⟨part, hpart, hc⟩ := (mem_slashParts hmem).resolve_left hslash
  have hlegal := List.findSome?_eq_none_iff.1 name.parts_valid.2 part hpart
  have hany : part.any UnqualifiedName.isIllegal = true := List.any_eq_true.2 ⟨c, hc, hillegal⟩
  rw [UnqualifiedName.fault?, if_pos hany] at hlegal
  cases hlegal

end BinaryName

/-! ### Exact readers -/

namespace DescriptorReader

variable {α : Type}

/-- A reader takes the text of a value off the front, and nothing else. -/
def Exact (read : DescriptorReader α) (form : α → List Char) : Prop :=
  ∀ s value rest, read s = .ok (value, rest) ↔ s = form value ++ rest

section Exact

variable {read : DescriptorReader α} {form : α → List Char}

/-- A whole text is accepted exactly if it is the text of a value. -/
theorem Exact.run_ok (h : Exact read form) {source : String} {value : α} :
    run read source = .ok value ↔ String.ofList (form value) = source := by
  rw [← String.toList_inj, String.toList_ofList]
  unfold run
  constructor
  · intro hrun
    obtain ⟨⟨found, rest⟩, hread, hrun⟩ := except_bind_ok.1 hrun
    cases rest with
    | cons c rest => cases hrun
    | nil =>
      cases hrun
      rw [(h _ _ _).1 hread, List.append_nil]
  · intro hform
    refine except_bind_ok.2 ⟨(value, []), (h _ _ _).2 ?_, rfl⟩
    rw [hform, List.append_nil]

/-- Nothing can be left out at the end of a text that is accepted, and nothing can be added. -/
theorem Exact.nothing_left (h : Exact read form) {source more : String} {value other : α}
    (hrun : run read source = .ok value) (hmore : run read (source ++ more) = .ok other) :
    more = "" := by
  rw [h.run_ok, ← String.toList_inj, String.toList_ofList] at hrun hmore
  -- the longer text is read in two ways, which leave something and nothing
  have hlong := (h (form value ++ more.toList) value more.toList).2 rfl
  have hwhole := (h (form other) other []).2 (List.append_nil _).symm
  rw [hmore, String.toList_append, ← hrun, hlong] at hwhole
  exact String.toList_eq_nil_iff.1 (congrArg Prod.snd (Except.ok.inj hwhole))

end Exact

end DescriptorReader

/-! ### Types -/

theorem BaseType.ofLetter?_eq_some {c : Char} {type : BaseType} :
    ofLetter? c = some type ↔ c = type.letter := by
  constructor
  · intro h
    unfold ofLetter? at h
    have hletter := List.find?_some h
    exact (eq_of_beq hletter).symm
  · rintro rfl
    cases type <;> rfl

open DescriptorReader

/-- A number has a single letter. -/
theorem BaseType.exact_read : Exact read fun type => [type.letter] := by
  intro s type rest
  cases s with
  | nil => exact ⟨nofun, nofun⟩
  | cons c s =>
    unfold read
    dsimp only [List.cons_append, List.nil_append]
    constructor
    · intro h
      split at h
      · rename_i found hletter
        cases h
        rw [ofLetter?_eq_some.1 hletter]
      · cases h
    · intro h
      obtain ⟨rfl, rfl⟩ := List.cons.inj h
      rw [ofLetter?_eq_some.2 rfl]
      rfl

/-- A text is cut in front of the first character that is of another kind. -/
theorem span_eq_iff {p : Char → Bool} {s front rest : List Char} {c : Char}
    (hfront : ∀ a ∈ front, p a = true) (hc : p c = false) :
    s.takeWhile p = front ∧ s.dropWhile p = c :: rest ↔ s = front ++ c :: rest := by
  constructor
  · rintro ⟨rfl, hdrop⟩
    rw [← hdrop, List.takeWhile_append_dropWhile]
  · rintro rfl
    have hnot : ¬ p c = true := by simp [hc]
    rw [List.takeWhile_append_of_pos hfront, List.dropWhile_append_of_pos hfront,
      List.takeWhile_cons_of_neg hnot, List.dropWhile_cons_of_neg hnot, List.append_nil]
    exact ⟨rfl, rfl⟩

/-- A name ends at the first semicolon. -/
theorem BinaryName.exact_read : Exact read descriptor := by
  intro s name rest
  -- a name has no semicolon, so the first one in the text ends it
  have hname : ∀ a ∈ name.text.toList, decide (a ≠ ';') = true := by
    intro a ha
    refine decide_eq_true fun hsemicolon => ?_
    rw [hsemicolon] at ha
    exact name.notMem_text (by decide) (by decide) ha
  have hform : name.descriptor ++ rest = 'L' :: (name.text.toList ++ ';' :: rest) := by
    simp [descriptor]
  rw [hform]
  constructor
  · intro h
    unfold read at h
    split at h
    · rename_i behind
      dsimp only at h
      split at h
      · cases h
      · rename_i c behind' hdrop
        split at h
        · rename_i found hfound
          cases h
          have htext := ofString_ok.1 hfound
          rw [← String.toList_inj, String.toList_ofList] at htext
          -- what the name stops at is not a character of it
          have hc : decide (c ≠ ';') = false := by
            have hnot := List.head_dropWhile_not (fun a => decide (a ≠ ';')) (l := behind)
            simpa only [hdrop, List.head_cons] using hnot (by rw [hdrop]; nofun)
          have hsemicolon : c = ';' := by simpa using hc
          rw [(span_eq_iff hname hc).1 ⟨htext.symm, hdrop⟩, hsemicolon]
        · cases h
    · cases h
  · rintro rfl
    obtain ⟨htake, hdrop⟩ := (span_eq_iff hname (decide_eq_false (not_not_intro rfl))).2
      (Eq.refl (name.text.toList ++ ';' :: rest))
    rw [read.eq_1, hdrop, htake, String.ofList_toList, ofString_ok.2 rfl]
    rfl

/-- The brackets in front of a text are counted. -/
theorem brackets_iff {s rest : List Char} {c : Char} (hc : c ≠ '[') {extra : Nat} :
    (s.takeWhile (· = '[')).length = extra ∧ s.dropWhile (· = '[') = c :: rest ↔
      s = List.replicate extra '[' ++ c :: rest := by
  have hall : ∀ a ∈ List.replicate extra '[', decide (a = '[') = true :=
    fun a ha => decide_eq_true (List.eq_of_mem_replicate ha)
  rw [← span_eq_iff hall (decide_eq_false hc), List.eq_replicate_iff]
  constructor
  · rintro ⟨hcount, hdrop⟩
    exact ⟨⟨hcount, fun a ha => by simpa using List.mem_takeWhile_imp ha⟩, hdrop⟩
  · rintro ⟨⟨hcount, -⟩, hdrop⟩
    exact ⟨hcount, hdrop⟩

/-- Brackets are counted first, and what is behind them tells the type. -/
theorem RefType.exact_read : Exact read descriptor := by
  intro s type rest
  constructor
  · intro h
    unfold read at h
    split at h
    · cases h
    · -- a class
      obtain ⟨⟨name, behind⟩, hname, h⟩ := except_bind_ok.1 h
      cases h
      exact (BinaryName.exact_read _ _ _).1 hname
    · -- an array: the other brackets are counted, and what is behind them tells of which elements
      rename_i behind
      generalize hcount : (behind.takeWhile (· = '[')).length = extra at h
      dsimp only at h
      split at h
      · rename_i inner hdrop
        obtain ⟨⟨name, behind'⟩, hname, h⟩ := except_bind_ok.1 h
        cases h
        have hform := (BinaryName.exact_read _ _ _).1 hname
        rw [(brackets_iff (by decide)).1 ⟨hcount, hdrop⟩, hform, descriptor, List.replicate_succ]
        simp
      · obtain ⟨⟨element, behind'⟩, helement, h⟩ := except_bind_ok.1 h
        cases h
        have hform := (BaseType.exact_read _ _ _).1 helement
        have hletter : element.letter ≠ '[' := by cases element <;> decide
        rw [(brackets_iff hletter).1 ⟨hcount, hform⟩, descriptor, List.replicate_succ]
        simp
    · cases h
  · rintro rfl
    cases type with
    | object name =>
      exact except_bind_ok.2 ⟨(name, rest), (BinaryName.exact_read _ _ _).2 rfl, rfl⟩
    | objectArray extra name =>
      have hname : name.descriptor ++ rest = 'L' :: (name.text.toList ++ ';' :: rest) := by
        simp [BinaryName.descriptor]
      have hform : descriptor (.objectArray extra name) ++ rest =
          '[' :: (List.replicate extra '[' ++ (name.descriptor ++ rest)) := by
        rw [descriptor, List.replicate_succ]
        simp
      rw [hform, hname, read.eq_3]
      obtain ⟨hcount, hdrop⟩ := (brackets_iff (c := 'L') (by decide)).2 rfl
      rw [hcount, hdrop]
      exact except_bind_ok.2 ⟨(name, rest), (BinaryName.exact_read _ _ _).2 hname.symm, rfl⟩
    | primitiveArray extra element =>
      have hletter : element.letter ≠ '[' ∧ element.letter ≠ 'L' := by
        cases element <;> decide
      have hform : descriptor (.primitiveArray extra element) ++ rest =
          '[' :: (List.replicate extra '[' ++ element.letter :: rest) := by
        rw [descriptor, List.replicate_succ]
        simp
      rw [hform, read.eq_3]
      obtain ⟨hcount, hdrop⟩ := (brackets_iff hletter.1).2
        (Eq.refl (List.replicate extra '[' ++ element.letter :: rest))
      rw [hcount, hdrop]
      -- the letter of a primitive type is not the one that a class starts with
      split
      · rename_i inner heq
        exact absurd (List.cons.inj heq).1 hletter.2
      · exact except_bind_ok.2 ⟨(element, rest), (BaseType.exact_read _ _ _).2 rfl, rfl⟩

/-- The text of a reference type starts with a letter or a bracket. -/
theorem RefType.descriptor_cons (type : RefType) :
    ∃ c rest, type.descriptor = c :: rest ∧ (c = 'L' ∨ c = '[') := by
  cases type with
  | object name => exact ⟨_, _, rfl, .inl rfl⟩
  | objectArray extra name => exact ⟨_, _, rfl, .inr rfl⟩
  | primitiveArray extra element => exact ⟨_, _, rfl, .inr rfl⟩

/-- The first character tells numbers from references. -/
theorem FieldType.exact_read : Exact read descriptor := by
  intro s type rest
  constructor
  · intro h
    unfold read at h
    split at h
    · cases h
    · rename_i c behind
      split at h
      · -- a letter of its own
        rename_i base hletter
        cases h
        rw [BaseType.ofLetter?_eq_some.1 hletter]
        rfl
      · -- anything else is left to the reader of references
        split at h
        · obtain ⟨⟨found, behind'⟩, hfound, h⟩ := except_bind_ok.1 h
          cases h
          exact (RefType.exact_read _ _ _).1 hfound
        · cases h
  · rintro rfl
    cases type with
    | base type =>
      change read (type.letter :: rest) = _
      rw [read.eq_2, BaseType.ofLetter?_eq_some.2 rfl]
      rfl
    | ref type =>
      obtain ⟨c, behind, hform, hc⟩ := type.descriptor_cons
      -- neither letter in front of a class or an array is that of a base type
      have hnone : BaseType.ofLetter? c = none := by
        rcases hc with rfl | rfl <;> rfl
      change read (type.descriptor ++ rest) = _
      rw [hform, List.cons_append, read.eq_2, hnone]
      dsimp only
      rw [if_pos hc]
      refine except_bind_ok.2 ⟨(type, rest), (RefType.exact_read _ _ _).2 ?_, rfl⟩
      rw [hform]
      rfl

/-- The text of a field type starts neither with a parenthesis nor with the letter of no result. -/
theorem FieldType.descriptor_cons (type : FieldType) :
    ∃ c rest, type.descriptor = c :: rest ∧ c ≠ ')' ∧ c ≠ 'V' := by
  cases type with
  | base type => exact ⟨_, _, rfl, by cases type <;> decide⟩
  | ref type =>
    obtain ⟨c, rest, hform, hc⟩ := type.descriptor_cons
    refine ⟨c, rest, hform, ?_⟩
    rcases hc with rfl | rfl <;> decide

/-- The parameters end at the first parenthesis that stands where a type could start. -/
theorem FieldType.readParameters_ok {parsed types : List FieldType} {s rest : List Char} :
    readParameters parsed s = .ok (types, rest) ↔
      ∃ more, types = parsed.reverse ++ more ∧ s = more.flatMap descriptor ++ ')' :: rest := by
  constructor
  · intro h
    -- by the types that are read
    fun_induction readParameters parsed s with
    | case1 parsed behind =>
      cases h
      exact ⟨[], by simp, rfl⟩
    | case2 => cases h
    | case3 parsed s hclosed type behind hread hlt ih =>
      obtain ⟨more, rfl, rfl⟩ := ih h
      refine ⟨type :: more, by simp, ?_⟩
      rw [(FieldType.exact_read _ _ _).1 hread, List.flatMap_cons, List.append_assoc]
  · rintro ⟨more, rfl, rfl⟩
    -- by the parameters that are still to come; each of them starts with no parenthesis
    induction more generalizing parsed with
    | nil =>
      rw [List.flatMap_nil, List.nil_append, List.append_nil, readParameters]
    | cons type more ih =>
      obtain ⟨c, behind, hform, hclosed, -⟩ := type.descriptor_cons
      have hread := (FieldType.exact_read _ type (more.flatMap descriptor ++ ')' :: rest)).2 rfl
      rw [List.flatMap_cons, List.append_assoc]
      unfold readParameters
      split
      · rename_i heq
        rw [hform] at heq
        exact absurd (List.cons.inj heq).1 hclosed
      · split
        · -- the reader of types cannot fail on the text of one
          rename_i hfault
          rw [hread] at hfault
          cases hfault
        · rename_i hfound
          rw [hread] at hfound
          cases hfound
          rw [ih]
          simp

/-- Parameters end at the parenthesis, and one result comes behind it. -/
theorem MethodDescriptor.exact_read : Exact read descriptor := by
  rintro s ⟨parameters, returnType⟩ rest
  constructor
  · intro h
    unfold read at h
    split at h
    · obtain ⟨⟨types, behind⟩, hparameters, hresult⟩ := except_bind_ok.1 h
      -- the parameters are told by their texts, and then there is a result or none
      obtain ⟨more, rfl, rfl⟩ := FieldType.readParameters_ok.1 hparameters
      dsimp only at hresult
      split at hresult
      · cases hresult
        simp [descriptor]
      · obtain ⟨⟨type, behind'⟩, htype, hresult⟩ := except_bind_ok.1 hresult
        cases hresult
        rw [(FieldType.exact_read _ _ _).1 htype]
        simp [descriptor]
    · cases h
  · rintro rfl
    -- whatever comes behind the parenthesis, these are the parameters
    have hparameters : ∀ behind, FieldType.readParameters []
        (parameters.flatMap FieldType.descriptor ++ ')' :: behind) = .ok (parameters, behind) :=
      fun behind => FieldType.readParameters_ok.2 ⟨parameters, rfl, rfl⟩
    cases returnType with
    | none =>
      have hform : descriptor ⟨parameters, none⟩ ++ rest =
          '(' :: (parameters.flatMap FieldType.descriptor ++ ')' :: 'V' :: rest) := by
        simp [descriptor]
      rw [hform]
      exact except_bind_ok.2 ⟨_, hparameters _, rfl⟩
    | some type =>
      -- a type does not begin with the letter of `void`
      obtain ⟨c, behind, htype, -, hvoid⟩ := type.descriptor_cons
      have hform : descriptor ⟨parameters, some type⟩ ++ rest =
          '(' :: (parameters.flatMap FieldType.descriptor ++ ')' :: (type.descriptor ++ rest)) := by
        simp [descriptor]
      rw [hform]
      refine except_bind_ok.2 ⟨_, hparameters _, ?_⟩
      dsimp only
      split
      · rename_i heq
        rw [htype] at heq
        exact absurd (List.cons.inj heq).1 hvoid
      · exact except_bind_ok.2 ⟨(type, rest), (FieldType.exact_read _ _ _).2 rfl, rfl⟩

/-! ### Class constants -/

/-- A text that names a type starts with a bracket just if the type is an array. -/
theorem RefType.ofClassConstant_ok {source : String} {type : RefType} :
    ofClassConstant source = .ok type ↔ type.classConstant = source := by
  unfold ofClassConstant
  split
  · rename_i rest hsource
    -- with a bracket in front, it is the text of an array
    rw [ofDescriptor, except_mapError_ok, parse, exact_read.run_ok]
    rcases type.object_or_arrayOf with ⟨name, rfl⟩ | ⟨element, rfl⟩
    · -- neither the descriptor of a class nor its name starts with a bracket
      refine iff_of_false ?_ ?_
      · rintro rfl
        rw [String.toList_ofList] at hsource
        cases hsource
      · rintro rfl
        have hmem : '[' ∈ name.text.toList := by
          change name.text.toList = _ at hsource
          rw [hsource]
          exact List.mem_cons_self
        exact name.notMem_text (by decide) (by decide) hmem
    · rw [classConstant_arrayOf]
      rfl
  · rename_i hsource
    -- without one, it is a name
    rw [except_mapError_ok, except_map_ok]
    rcases type.object_or_arrayOf with ⟨name, rfl⟩ | ⟨element, rfl⟩
    · constructor
      · rintro ⟨found, hfound, heq⟩
        cases heq
        exact BinaryName.ofString_ok.1 hfound
      · intro h
        exact ⟨name, BinaryName.ofString_ok.2 h, rfl⟩
    · refine iff_of_false ?_ ?_
      · rintro ⟨found, -, heq⟩
        rcases element with type | (name | _ | _) <;> cases heq
      · rintro rfl
        -- the name of an array starts with a bracket
        refine hsource element.descriptor ?_
        rw [classConstant_arrayOf, render, String.toList_ofList, descriptor_arrayOf]

/-! ### All texts -/

/-- A way of reading texts accepts exactly those that are given to values, each as the value that it
is given to. Two values never have the same text, and the texts are those of a grammar. -/
structure ReadsExactly {α ε : Type} (parse : String → Except ε α) (render : α → String)
    (form : List Char → α → Prop) : Prop where
  accepts : ∀ source value, parse source = .ok value ↔ render value = source
  injective : Function.Injective render
  grammar : ∀ source value, form source.toList value ↔ render value = source

/-- No text that is accepted is the beginning of another one. -/
def SelfDelimiting {α ε : Type} (parse : String → Except ε α) : Prop :=
  ∀ source more value other, parse source = .ok value → parse (source ++ more) = .ok other →
    more = ""

section

variable {α ε : Type} {parse : String → Except ε α} {render : α → String}
  {form : List Char → α → Prop}

theorem readsExactly_of_accepts
    (h : ∀ source value, parse source = .ok value ↔ render value = source)
    (hform : ∀ source value, form source.toList value ↔ render value = source) :
    ReadsExactly parse render form where
  accepts := h
  injective first second heq := by
    have hfirst := (h _ first).2 rfl
    have hsecond := (h _ second).2 heq.symm
    exact Except.ok.inj (hfirst.symm.trans hsecond)
  grammar := hform

end

/-- **Reading a descriptor accepts exactly the texts of types.** They are the texts that the grammar
has for types, and nothing can be left out at the end of one or added to it. The texts in class
constants are read exactly, too. -/
theorem descriptors_readsExactly :
    ReadsExactly FieldType.parse FieldType.render FieldType.Form ∧
      ReadsExactly RefType.parse RefType.render (fun s type => FieldType.Form s (.ref type)) ∧
      ReadsExactly MethodDescriptor.parse MethodDescriptor.render MethodDescriptor.Form ∧
      ReadsExactly RefType.ofClassConstant RefType.classConstant RefType.ConstantForm ∧
      SelfDelimiting FieldType.parse ∧ SelfDelimiting RefType.parse ∧
      SelfDelimiting MethodDescriptor.parse := by
  refine ⟨?field, ?ref, ?method, ?constant, ?_, ?_, ?_⟩
  case field =>
    refine readsExactly_of_accepts (fun _ _ => FieldType.exact_read.run_ok) fun s type => ?_
    rw [FieldType.form_iff, FieldType.render, ← String.toList_inj, String.toList_ofList]
  case ref =>
    refine readsExactly_of_accepts (fun _ _ => RefType.exact_read.run_ok) fun s type => ?_
    rw [FieldType.form_iff, RefType.render, ← String.toList_inj, String.toList_ofList]
    rfl
  case method =>
    refine readsExactly_of_accepts (fun _ _ => MethodDescriptor.exact_read.run_ok) fun s method => ?_
    rw [MethodDescriptor.form_iff, MethodDescriptor.render, ← String.toList_inj,
      String.toList_ofList]
  case constant =>
    refine readsExactly_of_accepts (fun _ _ => RefType.ofClassConstant_ok) fun s type => ?_
    rw [RefType.constantForm_iff, String.ofList_toList]
  · exact fun _ _ _ _ => FieldType.exact_read.nothing_left
  · exact fun _ _ _ _ => RefType.exact_read.nothing_left
  · exact fun _ _ _ _ => MethodDescriptor.exact_read.nothing_left

/-- What is left over is told, and a name that is not legal. -/
example : FieldType.parse "II" = .error (.leftover 'I' "II") ∧
    FieldType.parse "La//b;" = .error (.badClassName .emptyPart) ∧
    MethodDescriptor.parse "(I" = .error .missingType := by
  decide +kernel

end Preverification
