import Preverification.Body.Decode
import Preverification.Proofs.Operations

/-!
# Operations that fill some code

The operations of some code stand one behind the other: each is read from where the one before it
has ended, and the last one ends where the code does. So every byte belongs to just one operation.
There is at most one way to fill some code like that, and it is what is found when the code is read.

* `Operation.Tiles`: operations fill some code.
* `Operation.Tiles.unique`: it is filled in one way only.
* `DecodedCode.ofBytes_ok_iff`: code is read just when operations fill it, and these are what is
  found.
-/

namespace Preverification

open Reader

variable {pool : Pool} {bytes : Bytes} {start stop length rounds : Nat}

namespace Operation

/-- An operation is read from the bytes between two offsets of some code, and from no others. -/
structure Occupies (pool : Pool) (bytes : Bytes) (start stop : Nat) (operation : Operation Nat) :
    Prop where
  lt : start < stop
  le : stop ≤ bytes.length
  reads : Reads (read pool bytes.length start) ⟨bytes.drop start, start⟩ operation
    ⟨bytes.drop stop, stop⟩

/-- Operations fill some code from an offset on, each behind the offset at which it starts. -/
inductive Tiles (pool : Pool) (bytes : Bytes) : Nat → List (Nat × Operation Nat) → Prop where
  | done : Tiles pool bytes bytes.length []
  | next {start stop : Nat} {operation : Operation Nat} {rest : List (Nat × Operation Nat)}
    (h : Occupies pool bytes start stop operation) (hrest : Tiles pool bytes stop rest) :
    Tiles pool bytes start ((start, operation) :: rest)

/-- What is read off the front of the bytes from an offset on ends at a later offset. -/
theorem occupies_of_reads {operation : Operation Nat} {later : Input}
    (h : Reads (read pool bytes.length start) ⟨bytes.drop start, start⟩ operation later) :
    ∃ stop, Occupies pool bytes start stop operation ∧ later = ⟨bytes.drop stop, stop⟩ := by
  obtain ⟨-, byte, taken, hbehind⟩ := sound_of_reads h
  have hrest : bytes.drop start = byte :: taken ++ later.rest := hbehind.rest
  have hlength := congrArg List.length hrest
  rw [List.length_drop, List.length_append, List.length_cons] at hlength
  have hlater : later = ⟨bytes.drop (start + (taken.length + 1)), start + (taken.length + 1)⟩ := by
    have hdrop : bytes.drop (start + (taken.length + 1)) = later.rest := by
      rw [← List.drop_drop, hrest, ← List.length_cons (a := byte), List.drop_left]
    rw [hdrop, ← List.length_cons (a := byte)]
    exact congrArg (Input.mk later.rest) hbehind.position
  exact ⟨_, ⟨by omega, by omega, hlater ▸ h⟩, hlater⟩

theorem Occupies.sound {operation : Operation Nat} (h : Occupies pool bytes start stop operation) :
    Sound pool bytes.length operation := (sound_of_reads h.reads).1

namespace Tiles

variable {entries entries' : List (Nat × Operation Nat)}

/-- Some code is filled in one way only. -/
theorem unique (h : Tiles pool bytes start entries) (h' : Tiles pool bytes start entries') :
    entries = entries' := by
  induction h generalizing entries' with
  | done =>
    cases h' with
    | done => rfl
    | next h => exact absurd h.lt (Nat.not_lt_of_le h.le)
  | next h _ ih =>
    cases h' with
    | done => exact absurd h.lt (Nat.not_lt_of_le h.le)
    | next h' hrest =>
      obtain ⟨rfl, hlater⟩ := EStateM.Result.ok.inj (h.reads.symm.trans h'.reads)
      obtain rfl := congrArg Input.position hlater
      rw [ih hrest]

/-- The offsets ascend, from the first one to the end. -/
theorem ascends (h : Tiles pool bytes start entries) :
    (entries.map (·.1)).Pairwise (· < ·) ∧
      ∀ entry ∈ entries, start ≤ entry.1 ∧ entry.1 < bytes.length := by
  induction h with
  | done => exact ⟨.nil, nofun⟩
  | @next start stop operation rest h hrest ih =>
    obtain ⟨hascends, hinside⟩ := ih
    constructor
    · refine List.pairwise_cons.2 ⟨List.forall_mem_map.2 fun entry hentry => ?_, hascends⟩
      exact Nat.lt_of_lt_of_le h.lt (hinside entry hentry).1
    · refine List.forall_mem_cons.2 ⟨⟨Nat.le_refl _, Nat.lt_of_lt_of_le h.lt h.le⟩, ?_⟩
      intro entry hentry
      have hlt := h.lt
      obtain ⟨hle, hlength⟩ := hinside entry hentry
      exact ⟨by omega, hlength⟩

/-- Each operation makes sense. -/
theorem sound (h : Tiles pool bytes start entries) :
    ∀ entry ∈ entries, Sound pool bytes.length entry.2 := by
  induction h with
  | done => nofun
  | next h _ ih => exact List.forall_mem_cons.2 ⟨h.sound, ih⟩

end Tiles

end Operation

/-! ### What is read -/

namespace DecodedCode

variable {found operations more : List (Nat × Operation Nat)} {later : Input}

/-- What is read, with enough rounds, fills the code. -/
theorem tiles_of_reads (hle : start ≤ bytes.length) (hrounds : bytes.length ≤ start + rounds)
    (h : Reads (readOperations pool bytes.length found rounds) ⟨bytes.drop start, start⟩ operations
      later) :
    ∃ more, operations = found.reverse ++ more ∧ Operation.Tiles pool bytes start more := by
  induction rounds generalizing found start with
  | zero =>
    obtain ⟨rfl, -⟩ := reads_pure.1 h
    obtain rfl : start = bytes.length := by omega
    exact ⟨[], (List.append_nil _).symm, .done⟩
  | succ rounds ih =>
    obtain ⟨offset, _, hposition, h⟩ := reads_bind.1 h
    obtain ⟨rfl, rfl⟩ := reads_position.1 hposition
    dsimp only at h
    split at h
    · rename_i hend
      obtain ⟨rfl, -⟩ := reads_pure.1 h
      obtain rfl : start = bytes.length := by omega
      exact ⟨[], (List.append_nil _).symm, .done⟩
    · obtain ⟨operation, middle, hread, hrest⟩ := reads_bind.1 h
      obtain ⟨stop, hoccupies, rfl⟩ := Operation.occupies_of_reads hread
      have hlt := hoccupies.lt
      -- an operation fills at least one byte, so that the rounds are enough
      obtain ⟨more, rfl, hmore⟩ := ih hoccupies.le (by omega) hrest
      exact ⟨(start, operation) :: more, by simp, .next hoccupies hmore⟩

/-- What fills the code is read, with enough rounds. -/
theorem reads_of_tiles (hrounds : bytes.length ≤ start + rounds)
    (h : Operation.Tiles pool bytes start more) :
    Reads (readOperations pool bytes.length found rounds) ⟨bytes.drop start, start⟩
      (found.reverse ++ more) ⟨[], bytes.length⟩ := by
  -- an operation takes one byte at least, so that enough rounds are left behind it
  induction h generalizing found rounds with
  | done =>
    rw [List.append_nil, List.drop_length]
    cases rounds with
    | zero => exact reads_pure.2 ⟨rfl, rfl⟩
    | succ rounds =>
      refine reads_bind.2 ⟨_, _, reads_position.2 ⟨rfl, rfl⟩, ?_⟩
      rw [if_pos (Nat.le_refl _)]
      exact reads_pure.2 ⟨rfl, rfl⟩
  | @next start stop operation rest h hrest ih =>
    have hlt := h.lt
    have hle := h.le
    cases rounds with
    | zero => omega
    | succ rounds =>
      refine reads_bind.2 ⟨_, _, reads_position.2 ⟨rfl, rfl⟩, ?_⟩
      rw [if_neg (by dsimp only; omega)]
      refine reads_bind.2 ⟨operation, _, h.reads, ?_⟩
      have hlater : Reads (readOperations pool bytes.length ((start, operation) :: found) rounds)
          ⟨bytes.drop stop, stop⟩ (((start, operation) :: found).reverse ++ rest)
          ⟨[], bytes.length⟩ := ih (by omega)
      rwa [List.reverse_cons, List.append_assoc] at hlater

/-- Code is read just when operations fill it, and these are what is found. -/
theorem ofBytes_ok_iff {code : DecodedCode} : ofBytes pool bytes = .ok code ↔
    ∃ entries, Operation.Tiles pool bytes 0 entries ∧
      code = ⟨bytes.length, entries, .ofList (entries.map (·.1))⟩ := by
  unfold ofBytes
  rw [except_bind_ok]
  constructor
  · rintro ⟨⟨operations, rest⟩, hrun, h⟩
    obtain ⟨position, hread⟩ := run_ok.1 hrun
    have hread : Reads (readOperations pool bytes.length [] bytes.length) ⟨bytes.drop 0, 0⟩
        operations ⟨rest, position⟩ := hread
    obtain ⟨entries, heq, htiles⟩ :=
      tiles_of_reads (Nat.zero_le _) (Nat.le_of_eq (Nat.zero_add _).symm) hread
    rw [List.reverse_nil, List.nil_append] at heq
    exact ⟨entries, htiles, heq ▸ (Except.ok.inj h).symm⟩
  · -- a tiling is read back, as all of its operations are
    rintro ⟨entries, htiles, rfl⟩
    have hread : Reads (readOperations pool bytes.length [] bytes.length) ⟨bytes.drop 0, 0⟩
        ([].reverse ++ entries) ⟨[], bytes.length⟩ :=
      reads_of_tiles (Nat.le_of_eq (Nat.zero_add _).symm) htiles
    exact ⟨(entries, []), run_ok.2 ⟨_, hread⟩, rfl⟩

end DecodedCode

end Preverification
