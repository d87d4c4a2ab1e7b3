import Preverification.Descriptor.Basic

/-!
# Reading descriptors

Each reader takes a type off the front of a text and answers with what is left; a whole text is a
descriptor when nothing is left. A reader consumes at least one character, which is why the list of
parameters of a method can be read by recursion on what is left.
-/

namespace Preverification

/-- Why a text is not a descriptor: it goes on behind one, ends inside of one, or has another
character where a primitive type, a reference type, any type, the `L` of a class or the parenthesis
of a method is due. -/
inductive DescriptorFault where
  | leftover (next : Char) (source : String)
  | unknownBase (c : Char)
  | missingBase
  | unterminated (name : String)
  | badClassName (fault : NameFault)
  | missingClass
  | unknownReference (c : Char)
  | missingType
  | unknownType (c : Char)
  | missingParameters
deriving DecidableEq, Repr

/-- The text of a fault. -/
def DescriptorFault.message : DescriptorFault → String
  | leftover next source =>
    "Unexpected leftover input '" ++ next.toString ++ "' in '" ++ source ++ "'"
  | unknownBase c => "Invalid base type character '" ++ c.toString ++ "'"
  | missingBase => "Missing base type character"
  | unterminated name => "Missing terminator for 'L" ++ name ++ "'"
  | badClassName fault => fault.message
  | missingClass => "Expected object type to start with `L`"
  | unknownReference c => "Invalid reference type character '" ++ c.toString ++ "'"
  | missingType => "Missing field type"
  | unknownType c => "Invalid field type character '" ++ c.toString ++ "'"
  | missingParameters => "Expected '(' for method"

/-- Takes a value off the front of a text. -/
abbrev DescriptorReader (α : Type) := List Char → Except DescriptorFault (α × List Char)

namespace DescriptorReader

/-- Reads a whole text. -/
def run {α : Type} (read : DescriptorReader α) (source : String) : Except DescriptorFault α := do
  let (value, rest) ← read source.toList
  match rest with
  | [] => pure value
  | c :: _ => throw (.leftover c source)

end DescriptorReader

/-- Takes a primitive type off the front. -/
def BaseType.read : DescriptorReader BaseType
  | [] => throw .missingBase
  | c :: rest => match ofLetter? c with
    | some type => pure (type, rest)
    | none => throw (.unknownBase c)

/-- Takes `L`, the name of a class and a semicolon off the front. -/
def BinaryName.read : DescriptorReader BinaryName
  | 'L' :: rest =>
    let name := String.ofList (rest.takeWhile (· ≠ ';'))
    match rest.dropWhile (· ≠ ';') with
    | [] => throw (.unterminated name)
    | _ :: rest => match ofString name with
      | .ok name => pure (name, rest)
      | .error fault => throw (.badClassName fault)
  | _ => throw .missingClass

/-- Takes a reference type off the front. -/
def RefType.read : DescriptorReader RefType
  | [] => throw .missingType
  | 'L' :: rest => do
    let (name, rest) ← BinaryName.read ('L' :: rest)
    pure (.object name, rest)
  | '[' :: rest => do
    let extra := (rest.takeWhile (· = '[')).length
    match rest.dropWhile (· = '[') with
    | 'L' :: rest =>
      let (name, rest) ← BinaryName.read ('L' :: rest)
      pure (.objectArray extra name, rest)
    | rest =>
      let (type, rest) ← BaseType.read rest
      pure (.primitiveArray extra type, rest)
  | c :: _ => throw (.unknownReference c)

/-- Takes a field type off the front. -/
def FieldType.read : DescriptorReader FieldType
  | [] => throw .missingType
  | c :: rest =>
    match BaseType.ofLetter? c with
    | some type => pure (.base type, rest)
    | none =>
      if c = 'L' ∨ c = '[' then do
        let (type, rest) ← RefType.read (c :: rest)
        pure (.ref type, rest)
      else throw (.unknownType c)

/-! ### Every reader consumes something -/

private theorem length_dropWhile_le {α : Type} (p : α → Bool) (s : List α) :
    (s.dropWhile p).length ≤ s.length :=
  (List.dropWhile_suffix p).length_le

theorem BaseType.length_of_read {s rest : List Char} {type : BaseType}
    (h : BaseType.read s = .ok (type, rest)) : rest.length < s.length := by
  cases s with
  | nil => simp [BaseType.read, throw, throwThe, MonadExceptOf.throw] at h
  | cons c s =>
    simp only [BaseType.read] at h
    split at h
    · cases h; simp
    · cases h

theorem BinaryName.length_of_read {s rest : List Char} {name : BinaryName}
    (h : BinaryName.read s = .ok (name, rest)) : rest.length < s.length := by
  unfold BinaryName.read at h
  split at h
  · rename_i r
    have hr := length_dropWhile_le (fun c => decide (c ≠ ';')) r
    dsimp only at h
    split at h
    · cases h
    · rename_i heq
      rw [heq] at hr
      split at h
      · cases h; simp at hr ⊢; omega
      · cases h
  · cases h

theorem RefType.length_of_read {s rest : List Char} {type : RefType}
    (h : RefType.read s = .ok (type, rest)) : rest.length < s.length := by
  unfold RefType.read at h
  split at h
  · cases h
  · rename_i r
    cases hn : BinaryName.read ('L' :: r) with
    | error e => rw [hn] at h; cases h
    | ok p => rw [hn] at h; cases h; exact BinaryName.length_of_read hn
  · rename_i r
    have hr := length_dropWhile_le (fun c => decide (c = '[')) r
    dsimp only at h
    split at h
    · rename_i r' heq
      rw [heq] at hr
      cases hn : BinaryName.read ('L' :: r') with
      | error e => rw [hn] at h; cases h
      | ok p =>
        rw [hn] at h; cases h
        have := BinaryName.length_of_read hn
        simp only [List.length_cons] at hr this ⊢; omega
    · cases hn : BaseType.read (r.dropWhile (· = '[')) with
      | error e => rw [hn] at h; cases h
      | ok p =>
        rw [hn] at h; cases h
        have := BaseType.length_of_read hn
        simp only [List.length_cons]; omega
  · cases h

theorem FieldType.length_of_read {s rest : List Char} {type : FieldType}
    (h : FieldType.read s = .ok (type, rest)) : rest.length < s.length := by
  unfold FieldType.read at h
  split at h
  · cases h
  · rename_i c r
    split at h
    · cases h; simp
    · split at h
      · cases hn : RefType.read (c :: r) with
        | error e => rw [hn] at h; cases h
        | ok p => rw [hn] at h; cases h; exact RefType.length_of_read hn
      · cases h

/-- Takes field types off the front up to a closing parenthesis, which is taken too. The types in
`parsed` were read before, the last one first. -/
def FieldType.readParameters (parsed : List FieldType) (s : List Char) :
    Except DescriptorFault (List FieldType × List Char) :=
  match s with
  | ')' :: rest => .ok (parsed.reverse, rest)
  | s => match h : FieldType.read s with
    | .error fault => .error fault
    | .ok (type, rest) =>
      have := FieldType.length_of_read h
      readParameters (type :: parsed) rest
termination_by s.length

/-- Takes a method signature off the front. -/
def MethodDescriptor.read : DescriptorReader MethodDescriptor
  | '(' :: rest => do
    let (parameters, rest) ← FieldType.readParameters [] rest
    match rest with
    | 'V' :: rest => pure (⟨parameters, none⟩, rest)
    | rest =>
      let (type, rest) ← FieldType.read rest
      pure (⟨parameters, some type⟩, rest)
  | _ => throw .missingParameters

/-- Reads a primitive type. -/
def BaseType.parse (source : String) : Except DescriptorFault BaseType :=
  DescriptorReader.run BaseType.read source

/-- Reads the descriptor of a class. -/
def BinaryName.parse (source : String) : Except DescriptorFault BinaryName :=
  DescriptorReader.run BinaryName.read source

/-- Reads a reference type. -/
def RefType.parse (source : String) : Except DescriptorFault RefType :=
  DescriptorReader.run RefType.read source

/-- Reads a field type. -/
def FieldType.parse (source : String) : Except DescriptorFault FieldType :=
  DescriptorReader.run FieldType.read source

/-- Reads a method signature. -/
def MethodDescriptor.parse (source : String) : Except DescriptorFault MethodDescriptor :=
  DescriptorReader.run MethodDescriptor.read source

end Preverification
