import Preverification.Proofs.Decoding

/-!
# Decoding with more constants

What code refers to is found in a pool that has more constants too. So a body that is decoded by
means of a pool is decoded by means of every pool that extends it.

* `Reader.Refines`: whatever a reader reads, another one reads too.
* `Operation.refines_readOperands`: no operation is lost when constants are added.
* `Body.decode_extends`: a body is decoded by means of more constants as it was before.
-/

namespace Preverification

open MonadExcept (ofExcept)

open Reader

namespace Reader

variable {α β : Type}

/-- Whatever one reader reads, the other one reads too. -/
def Refines (read read' : Reader α) : Prop :=
  ∀ input value later, Reads read input value later → Reads read' input value later

theorem Refines.refl (read : Reader α) : Refines read read := fun _ _ _ h => h

/-- Readers are refined part by part. -/
theorem Refines.bind {read read' : Reader α} {next next' : α → Reader β} (h : Refines read read')
    (hnext : ∀ a, Refines (next a) (next' a)) : Refines (read >>= next) (read' >>= next') := by
  intro input value later hread
  obtain ⟨a, middle, hfirst, hrest⟩ := reads_bind.1 hread
  exact reads_bind.2 ⟨a, middle, h _ _ _ hfirst, hnext a _ _ _ hrest⟩

/-- The rest of a reader may be refined. -/
theorem refines_bind_right (read : Reader α) {next next' : α → Reader β}
    (hnext : ∀ a, Refines (next a) (next' a)) : Refines (read >>= next) (read >>= next') :=
  (Refines.refl read).bind hnext

/-- A check may pass more often in a larger pool. -/
theorem refines_ofExcept {result result' : Except StructuralError α}
    (h : ∀ a, result = .ok a → result' = .ok a) :
    Refines (ofExcept result) (ofExcept result') := by
  intro input value later hread
  obtain ⟨hresult, rfl⟩ := reads_ofExcept.1 hread
  exact reads_ofExcept.2 ⟨h value hresult, rfl⟩

end Reader

section Extends

variable {pool pool' : Pool} (hextends : pool.Extends pool') (hbuilt : pool.Built)

/-- Something is made of an index that passes the same check. -/
theorem Operation.refines_check_make {check check' : PoolIndex → Except StructuralError PoolIndex}
    (hcheck : ∀ {index index' : PoolIndex}, check index = .ok index' → check' index = .ok index')
    (make : PoolIndex → Instruction) :
    Refines (do return Operation.step (L := Nat) (make (← ofExcept (check (← Reader.uint16)))))
      (do return .step (make (← ofExcept (check' (← Reader.uint16))))) :=
  refines_bind_right _ fun _ => (refines_ofExcept fun _ => hcheck).bind fun _ => .refl _

include hextends hbuilt

/-- The operands of an operation are the same, and the constants that it refers to are still there.
-/
theorem Operation.refines_readOperands (length offset : Nat) (opcode : UInt8) :
    Refines (readOperands pool length offset opcode)
      (readOperands pool' length offset opcode) := by
  have hloads : ∀ {isWide : Bool} {index index' : PoolIndex},
      pool.loadableIndex index isWide = .ok index' →
        pool'.loadableIndex index isWide = .ok index' := hextends.loadableIndex hbuilt
  have hfields : ∀ {index index' : PoolIndex}, pool.fieldRefIndex index = .ok index' →
      pool'.fieldRefIndex index = .ok index' := hextends.fieldRefIndex hbuilt
  have hmethods : ∀ {index index' : PoolIndex}, pool.methodRefIndex index = .ok index' →
      pool'.methodRefIndex index = .ok index' := hextends.methodRefIndex hbuilt
  have hclasses : ∀ {index index' : PoolIndex}, pool.classIndex index = .ok index' →
      pool'.classIndex index = .ok index' := hextends.classIndex hbuilt
  unfold readOperands
  dsimp only
  generalize opcode.toNat = number
  -- only opcodes with an index of a constant look into the pool
  split
  case h_3 =>
    exact refines_bind_right _ fun _ => (refines_ofExcept fun _ => hloads).bind fun _ => .refl _
  case h_4 | h_5 => exact refines_check_make hloads _
  case h_10 | h_11 | h_12 | h_13 => exact refines_check_make hfields _
  case h_14 | h_15 | h_16 => exact refines_check_make hmethods _
  case h_17 =>
    exact refines_bind_right _ fun _ => (refines_ofExcept fun _ => hmethods).bind fun _ => .refl _
  case h_18 =>
    exact refines_bind_right _ fun _ =>
      (refines_ofExcept fun _ => hextends.invokeDynamicIndex hbuilt).bind fun _ => .refl _
  case h_19 | h_21 | h_22 | h_23 => exact refines_check_make hclasses _
  case h_25 =>
    exact refines_bind_right _ fun _ => (refines_ofExcept fun _ => hclasses).bind fun _ => .refl _
  all_goals exact .refl _

theorem Operation.refines_read (length offset : Nat) :
    Refines (Operation.read pool length offset) (Operation.read pool' length offset) := by
  unfold Operation.read
  refine refines_bind_right _ fun opcode => ?_
  split
  · exact .refl _
  · split
    · exact .refl _
    · split
      · exact .refl _
      · exact refines_readOperands hextends hbuilt length offset opcode

/-- Operations are read one by one. -/
theorem DecodedCode.refines_readOperations (length : Nat) (found : List (Nat × Operation Nat))
    (rounds : Nat) :
    Refines (readOperations pool length found rounds)
      (readOperations pool' length found rounds) := by
  induction rounds generalizing found with
  | zero => exact .refl _
  | succ rounds ih =>
    unfold readOperations
    refine refines_bind_right _ fun offset => ?_
    split
    · exact .refl _
    · exact (Operation.refines_read hextends hbuilt length offset).bind fun _ => ih _

/-- Code that can be read in a pool can be read in a larger one, with the same operations. -/
theorem DecodedCode.ofBytes_extends {bytecode : Bytes} {code : DecodedCode}
    (h : ofBytes pool bytecode = .ok code) : ofBytes pool' bytecode = .ok code := by
  obtain ⟨⟨operations, rest⟩, hrun, h⟩ := except_bind_ok.1 h
  obtain ⟨position, hread⟩ := run_ok.1 hrun
  have hread' := refines_readOperations hextends hbuilt _ _ _ _ _ _ hread
  exact except_bind_ok.2 ⟨(operations, rest), run_ok.2 ⟨position, hread'⟩, h⟩

theorem Attribute.holds_extends {α : Type} [AttributeContents α] {attr : Attribute}
    {answer : Bool} (h : attr.holds α pool = .ok answer) : attr.holds α pool' = .ok answer := by
  obtain ⟨name, hname, hanswer⟩ := except_bind_ok.1 h
  exact except_bind_ok.2 ⟨name, hextends.utf8 hbuilt hname, hanswer⟩

/-- An attribute is known by its name, which is a text that stays. -/
theorem CodeAttributes.ofAttribute_extends {attr : Attribute} {parts : CodeAttributes}
    (h : ofAttribute pool attr = .ok parts) : ofAttribute pool' attr = .ok parts := by
  -- what an attribute holds depends on its name alone
  rcases hname : pool.utf8 attr.name with error | name
  · unfold ofAttribute Attribute.holds Attribute.nameIn at h
    rw [hname] at h
    cases h
  · have hname' := hextends.utf8 hbuilt hname
    unfold ofAttribute Attribute.holds Attribute.nameIn at h ⊢
    rw [hname] at h
    rwa [hname']

/-- What all attributes say together stays as well. -/
theorem CodeAttributes.ofList_extends {attributes : List Attribute} {parts : CodeAttributes}
    (h : ofList pool attributes = .ok parts) : ofList pool' attributes = .ok parts := by
  obtain ⟨all, hall, hparts⟩ := except_bind_ok.1 h
  refine except_bind_ok.2 ⟨all, ?_, hparts⟩
  clear h hparts
  induction attributes generalizing all with
  | nil => exact hall
  | cons attr attributes ih =>
    rw [List.mapM_cons] at hall ⊢
    obtain ⟨first, hfirst, htail⟩ := except_bind_ok.1 hall
    obtain ⟨rest, hrest, hcons⟩ := except_bind_ok.1 htail
    exact except_bind_ok.2 ⟨first, ofAttribute_extends hextends hbuilt hfirst,
      except_bind_ok.2 ⟨rest, ih rest hrest, hcons⟩⟩

/-- A body is decoded by means of more constants as it was before. -/
theorem Body.decode_extends {code : Code} {body : Body} (h : decode code pool = .ok body) :
    decode code pool' = .ok body := by
  obtain ⟨decoded, attributes, hbytes, htargets, hexceptions, hattributes, rfl⟩ := decode_ok.1 h
  exact decode_ok.2 ⟨decoded, attributes, DecodedCode.ofBytes_extends hextends hbuilt hbytes,
    htargets, hexceptions, CodeAttributes.ofList_extends hextends hbuilt hattributes, rfl⟩

end Extends

end Preverification
