import Mathlib.Algebra.GroupWithZero.Nat
import Preverification.Proofs.Emitted
import Preverification.Proofs.LiveFlow
import Preverification.Proofs.LocalSteps
import Preverification.Proofs.RecordedStates

/-!
# Numbers of slots that are declared

Emission raises the numbers of slots that a body declares to those that type inference has counted.
It fails when one of them is too high for a class file, unless a jump to nowhere was noticed before.

* `TypeState.usedLocals_le_iff`: the slots that are used are those up to the last variable that can
  be used.
* `Emission.emit_slots`: the numbers of slots that are declared are those that are needed.
* `Emission.emit_overflow`: emission fails when too many slots are needed, unless a jump to nowhere
  is noticed first.
-/

namespace Preverification

/-- Some numbers of slots are enough for local variables and values on a stack: the stack has no
more slots, and entries of local variables end in time, unless they cannot be used. -/
structure SlotsFit {C S : Type} (maxStack maxLocals : Nat)
    (locals stack : List (VerificationType C S)) : Prop where
  stack : (stack.map width).sum ≤ maxStack
  locals : ∀ index type, locals[index]? = some type → type ≠ .top →
    ((locals.take index).map width).sum + width type ≤ maxLocals

/-- Some numbers of slots are enough for a state: the stack has no more slots, and local variables
that can be used end in time. -/
structure TypeState.FitsIn (maxStack maxLocals : Nat) (state : TypeState) : Prop where
  stack : totalWidth state.stack.values ≤ maxStack
  locals : ∀ slot, localAt state.locals slot ≠ .top →
    slot + width (localAt state.locals slot) ≤ maxLocals

namespace TypeState

/-- Slots are counted from the front, and the last one that can be used is kept. -/
theorem usedLocalsFrom_le_iff (locals : List InferredType) (used start count : Nat) :
    usedLocalsFrom used start locals ≤ count ↔ used ≤ count ∧ ∀ slot, localAt locals slot ≠ .top →
      start + slot + width (localAt locals slot) ≤ count := by
  -- on the locals, with the slots in front of them counted by `used` and `start`
  induction locals generalizing used start with
  | nil => simp [usedLocalsFrom]
  | cons type rest ih =>
    rw [usedLocalsFrom, ih]
    constructor
    · rintro ⟨hused, hrest⟩
      refine ⟨?_, fun slot hslot => ?_⟩
      · split at hused
        · exact hused
        · exact Nat.le_trans (Nat.le_max_left _ _) hused
      · cases slot with
        | zero =>
          change type ≠ .top at hslot
          rw [if_neg hslot] at hused
          exact Nat.le_trans (Nat.le_max_right _ _) hused
        | succ slot =>
          rw [localAt_cons_succ] at hslot ⊢
          have hlater := hrest slot hslot
          omega
    · rintro ⟨hused, hall⟩
      refine ⟨?_, fun slot hslot => ?_⟩
      · split
        · exact hused
        · rename_i htop
          exact Nat.max_le.2 ⟨hused, hall 0 htop⟩
      · have hlater := hall (slot + 1) hslot
        rw [localAt_cons_succ] at hlater
        omega

/-- The slots that are used are those up to the last local variable that can be used. -/
theorem usedLocals_le_iff {state : TypeState} {count : Nat} : state.usedLocals ≤ count ↔
    ∀ slot, localAt state.locals slot ≠ .top →
      slot + width (localAt state.locals slot) ≤ count := by
  unfold usedLocals
  rw [usedLocalsFrom_le_iff]
  simp

end TypeState

/-- The local variable that an operation reads or writes ends in time. -/
theorem Transfer.local_le {L : Type} {context : MethodContext} {allocation : Option Label}
    {operation : Operation L} {before after : TypeState} {slot : UInt16}
    {count maxStack maxLocals : Nat}
    (hlocal : operation.local? = some (slot, count))
    (h : Transfer.operation context allocation operation before = .ok () after)
    (hbefore : before.FitsIn maxStack maxLocals) (hafter : after.FitsIn maxStack maxLocals) :
    slot.toNat + count ≤ maxLocals := by
  cases operation with
  | branch b => cases hlocal
  | step i =>
    cases i with
    | load kind read =>
      obtain ⟨rfl, rfl⟩ := Prod.mk.inj (Option.some.inj hlocal)
      have hkind := load_ok h
      rw [← hkind.width_eq]
      exact hbefore.locals _ hkind.ne_top
    | store kind written =>
      obtain ⟨rfl, rfl⟩ := Prod.mk.inj (Option.some.inj hlocal)
      rcases store_ok h with ⟨type, _, hkind, hlocals⟩
      -- behind the store, the local variable has the type that was written
      have hwritten : localAt after.locals written.toNat = type := by
        rw [hlocals, localAt_setLocal, if_pos rfl]
      have hle := hafter.locals written.toNat (hwritten ▸ hkind.ne_top)
      rwa [hwritten, hkind.width_eq] at hle
    | increment read amount =>
      obtain ⟨rfl, rfl⟩ := Prod.mk.inj (Option.some.inj hlocal)
      have hread : localAt before.locals read.toNat = .integer := expectLocal_ok h
      have hle := hbefore.locals read.toNat (by rw [hread]; nofun)
      rwa [hread] at hle
    | _ => cases hlocal

/-! ### Jumps to nowhere -/

namespace Body

/-- All labels that branches name are placed. -/
def JumpsPlaced (body : Body) : Prop :=
  ∀ operation, .operation operation ∈ body.nodes → ∀ label ∈ operation.targets,
    .label label ∈ body.nodes

/-- Control may jump to the labels that branches name, and to those of the code of handlers. -/
theorem mem_jumpLabels {body : Body} {label : Label} : label ∈ body.jumpLabels ↔
    (∃ operation, .operation operation ∈ body.nodes ∧ label ∈ operation.targets) ∨
      ∃ handler ∈ body.handlers, handler.handler = label := by
  unfold jumpLabels
  rw [List.mem_append, List.mem_flatMap, List.mem_map]
  refine or_congr ⟨?_, ?_⟩ Iff.rfl
  · rintro ⟨node, hmem, hlabel⟩
    cases node with
    | operation operation => exact ⟨operation, hmem, hlabel⟩
    | label _ | line _ => cases hlabel
  · rintro ⟨operation, hmem, hlabel⟩
    exact ⟨_, hmem, hlabel⟩

/-- The operations to which control may jump are found, or a branch names a label that is nowhere.
-/
theorem frameTargets_cases {body : Body} {flow : Flow} (hflow : body.flow = .ok flow)
    (hhandlers : ∀ handler ∈ body.handlers, .label handler.handler ∈ body.nodes) :
    (body.JumpsPlaced ∧ ∃ targets, body.frameTargets = .ok targets) ∨
      ¬ body.JumpsPlaced ∧ ∃ label, .label label ∉ body.nodes ∧
        body.frameTargets = .error (.unplacedLabel label) := by
  have hd := flow_describes hflow
  unfold frameTargets
  rw [hflow]
  cases htargets : body.jumpLabels.mapM flow.operationAt with
  | ok targets =>
    left
    refine ⟨fun operation hmem label hlabel => ?_, _, except_bind_ok.2 ⟨flow, rfl,
      except_bind_ok.2 ⟨targets, htargets, rfl⟩⟩⟩
    have hjump : label ∈ body.jumpLabels := mem_jumpLabels.2 (.inl ⟨operation, hmem, hlabel⟩)
    rcases forall₂_exists (except_mapM_ok htargets) hjump with ⟨target, _, hfound⟩
    exact hd.mem_of_operationAt hfound
  | error error =>
    right
    rcases except_mapM_error htargets with ⟨label, hmem, hfails⟩
    rcases hd.operationAt_error hfails with ⟨hnowhere, rfl⟩
    -- the code of handlers is placed, so that a branch names the label
    refine ⟨fun hall => ?_, label, hnowhere, ?_⟩
    · rcases mem_jumpLabels.1 hmem with ⟨operation, hnode, hlabel⟩ | ⟨handler, hhandler, rfl⟩
      · exact hnowhere (hall operation hnode label hlabel)
      · exact hnowhere (hhandlers handler hhandler)
    · simp only [bind, Except.bind, htargets]

end Body

/-- The error that is reported when numbers of slots are too high for a class file. -/
def Analysis.overflow? (analysis : Analysis) (body : Body) : Option StructuralError :=
  if 65535 < max analysis.maxStack body.maxStack.toNat then
    some (.stackTooHigh (max analysis.maxStack body.maxStack.toNat))
  else if 65535 < max analysis.maxLocals body.maxLocals.toNat then
    some (.tooManyLocals (max analysis.maxLocals body.maxLocals.toNat))
  else none

namespace Emission

variable {analysis : Analysis} {entry : TypeState} {format : FrameFormat}
  {draft draft' : MethodDraft} {code : Code}

theorem slots_eq {needed : Nat} {tooMany : Nat → StructuralError} {number : UInt16}
    (h : slots needed tooMany draft = .ok number draft') : number.toNat = needed := by
  rcases slots_ok.1 h with ⟨hle, rfl, _⟩
  exact UInt16.toNat_ofNat_of_lt' (Nat.lt_succ_of_le hle)

/-- Both numbers are raised to what is needed. -/
theorem raiseSlots_eq (h : raiseSlots analysis draft = .ok () draft') :
    draft'.body.maxStack.toNat = max analysis.maxStack draft.body.maxStack.toNat ∧
      draft'.body.maxLocals.toNat = max analysis.maxLocals draft.body.maxLocals.toNat := by
  unfold raiseSlots at h
  rcases state_bind_ok.1 h with ⟨_, _, ⟨⟩, h⟩
  rcases state_bind_ok.1 h with ⟨maxStack, _, hstack, h⟩
  rcases state_bind_ok.1 h with ⟨_, _, _, h⟩
  rcases state_bind_ok.1 h with ⟨maxLocals, _, hlocals, h⟩
  rw [setBody_ok h]
  exact ⟨slots_eq hstack, slots_eq hlocals⟩

/-- Raising them fails if one is too high. -/
theorem raiseSlots_error {error : StructuralError} (h : analysis.overflow? draft.body = some error) :
    ∃ draft', raiseSlots analysis draft = .error error draft' := by
  unfold Analysis.overflow? at h
  unfold raiseSlots
  split at h
  · rename_i hlt
    cases h
    exact ⟨_, state_bind_error.2 (.inr ⟨_, _, rfl, state_bind_error.2 (.inl (slots_error hlt))⟩)⟩
  · rename_i hle
    split at h
    · rename_i hlt
      cases h
      -- the number for the stack is raised before the number of locals is looked at
      have hstack : slots (max analysis.maxStack draft.body.maxStack.toNat) .stackTooHigh draft =
          .ok (UInt16.ofNat (max analysis.maxStack draft.body.maxStack.toNat)) draft :=
        slots_ok.2 ⟨Nat.not_lt.1 hle, rfl, rfl⟩
      refine ⟨{ draft with body := { draft.body with
        maxStack := UInt16.ofNat (max analysis.maxStack draft.body.maxStack.toNat) } }, ?_⟩
      refine state_bind_error.2 (.inr ⟨_, _, rfl, state_bind_error.2 (.inr ⟨_, _, hstack, ?_⟩)⟩)
      refine state_bind_error.2 (.inr ⟨_, _, rfl, ?_⟩)
      exact state_bind_error.2 (.inl (slots_error hlt))
    · cases h

/-- The numbers of slots that are declared are those that are needed, if these are higher. -/
theorem emit_slots (h : emit analysis entry format draft = .ok code draft') :
    draft'.body.maxStack.toNat = max analysis.maxStack draft.body.maxStack.toNat ∧
      draft'.body.maxLocals.toNat = max analysis.maxLocals draft.body.maxLocals.toNat := by
  unfold emit at h
  rcases state_bind_ok.1 h with ⟨_, _, ⟨⟩, h⟩
  rcases state_bind_ok.1 h with ⟨targets, _, hcheck, h⟩
  rcases ofExcept_ok.1 hcheck with ⟨_, rfl⟩
  rcases state_bind_ok.1 h with ⟨pruned, _, hcheck, h⟩
  rcases ofExcept_ok.1 hcheck with ⟨hpruned, rfl⟩
  rcases state_bind_ok.1 h with ⟨_, _, hset, h⟩
  cases setBody_ok hset
  rcases state_bind_ok.1 h with ⟨_, _, hraised, h⟩
  rcases state_bind_ok.1 h with ⟨_, _, hdropped, h⟩
  rcases dropFrames_ok hdropped with ⟨_, _, rfl⟩
  rcases state_bind_ok.1 h with ⟨_, _, ⟨⟩, h⟩
  rcases state_bind_ok.1 h with ⟨layout, _, hcheck, h⟩
  rcases ofExcept_ok.1 hcheck with ⟨_, rfl⟩
  -- what follows changes the pool
  rcases state_bind_ok.1 h with ⟨_, _, hedit, h⟩
  rcases edit_ok.1 hedit with ⟨_, _, rfl⟩
  rcases state_bind_ok.1 h with ⟨_, _, hedit, h⟩
  rcases edit_ok.1 hedit with ⟨_, _, rfl⟩
  rcases edit_ok.1 h with ⟨_, _, rfl⟩
  have hsame : pruned.maxStack = draft.body.maxStack ∧ pruned.maxLocals = draft.body.maxLocals := by
    unfold Body.removeUnreachable at hpruned
    rcases except_bind_ok.1 hpruned with ⟨_, _, hbody⟩
    cases hbody
    exact ⟨rfl, rfl⟩
  have hslots := raiseSlots_eq hraised
  dsimp only at hslots ⊢
  rwa [hsame.1, hsame.2] at hslots

/-- Where control may jump is found out before anything is changed. -/
theorem emit_of_frameTargets_error {error : StructuralError}
    (h : draft.body.frameTargets = .error error) :
    emit analysis entry format draft = .error error draft := by
  unfold emit
  refine state_bind_error.2 (.inr ⟨_, _, rfl, state_bind_error.2 (.inl ?_)⟩)
  rw [h]
  rfl

/-- Emission fails when too many slots are needed. A jump to nowhere is noticed first. -/
theorem emit_overflow (he : analysis.Explored draft.body) {error : StructuralError}
    (h : analysis.overflow? draft.body = some error) :
    (draft.body.JumpsPlaced → ∃ draft', emit analysis entry format draft = .error error draft') ∧
      (¬ draft.body.JumpsPlaced → ∃ label, .label label ∉ draft.body.nodes ∧
        emit analysis entry format draft = .error (.unplacedLabel label) draft) := by
  rcases he.flow with ⟨flow, hflow⟩
  have hhandlers : ∀ handler ∈ draft.body.handlers, .label handler.handler ∈ draft.body.nodes := by
    intro handler hhandler
    rcases he.handlers handler hhandler with ⟨_, _, _, _, _, place, hplace, _⟩
    exact List.mem_of_getElem? hplace
  rcases Body.frameTargets_cases hflow hhandlers with ⟨hall, targets, htargets⟩ |
    ⟨hnot, label, hnowhere, hfails⟩
  · refine ⟨fun _ => ?_, fun hnot => absurd hall hnot⟩
    rcases Body.exists_removeUnreachable hflow analysis with ⟨pruned, hpruned, _⟩
    -- what is left out does not change the declared numbers
    have hsame : analysis.overflow? pruned = some error := by
      unfold Body.removeUnreachable at hpruned
      rcases except_bind_ok.1 hpruned with ⟨_, _, hbody⟩
      cases hbody
      exact h
    rcases @raiseSlots_error analysis { draft with body := pruned } error hsame with
      ⟨draft', hraise⟩
    refine ⟨draft', ?_⟩
    unfold emit
    refine state_bind_error.2 (.inr ⟨_, _, rfl, ?_⟩)
    refine state_bind_error.2 (.inr ⟨_, _, ofExcept_ok.2 ⟨htargets, rfl⟩, ?_⟩)
    refine state_bind_error.2 (.inr ⟨_, _, ofExcept_ok.2 ⟨hpruned, rfl⟩, ?_⟩)
    refine state_bind_error.2 (.inr ⟨_, _, rfl, ?_⟩)
    exact state_bind_error.2 (.inl hraise)
  · exact ⟨fun hall => absurd hall hnot, fun _ =>
      ⟨label, hnowhere, emit_of_frameTargets_error hfails⟩⟩

end Emission

end Preverification
