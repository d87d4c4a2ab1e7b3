import Mathlib.Data.Set.Insert
import Mathlib.Logic.Function.Basic
import Preverification.Proofs.UncachedAnswers

/-!
# Runs of calls

A resolver is asked questions and told headers, in any order. What it answers is also what follows
from a ledger in which nothing is kept but the headers that were told and the names that are
settled: those of the classes that were told, or looked up and found. A settled class keeps its
header; one that was looked up in vain can still be told.

* `Ledger`: what was told, and which names are settled.
* `Ledger.Step.unique`, `Ledger.Runs.unique`: there is one reply to each call.
* `Ledger.Describes.step`: a call has the reply that the ledger gives, and is described by it again.
* `Resolver.calls_transparent`: after any calls the replies were those of a ledger.
-/

namespace Preverification

/-- What a resolver can be asked. -/
inductive Question where
  | header (name : BinaryName)
  | ancestorChain (name : BinaryName)
  | commonSuperclass (first second : BinaryName)
  | commonRefType (first second : RefType)

/-- What can be done with a resolver. -/
inductive Call where
  | ask (question : Question)
  | register (header : ClassHeader)

/-- What comes of a call. -/
inductive Reply where
  | header (found : ClassHeader)
  | chain (names : List BinaryName)
  | superclass (name : BinaryName)
  | refType (type : RefType)
  | failed (error : ResolveError)
  | registered

/-- The reply that an answer makes. -/
def Reply.of {α : Type} (form : α → Reply) : Except ResolveError α → Reply
  | .ok value => form value
  | .error error => failed error

namespace Resolver

/-- Runs a question. -/
def reply {α : Type} (form : α → Reply) (question : Query α) (resolver : Resolver) :
    Reply × Resolver :=
  match question resolver with
  | .ok value resolver => (form value, resolver)
  | .error error resolver => (.failed error, resolver)

/-- Makes a call. -/
def perform (call : Call) (resolver : Resolver) : Reply × Resolver :=
  match call with
  | .ask (.header name) => reply .header (header name) resolver
  | .ask (.ancestorChain name) => reply .chain (ancestorChain name) resolver
  | .ask (.commonSuperclass first second) =>
    reply .superclass (commonSuperclass first second) resolver
  | .ask (.commonRefType first second) => reply .refType (commonRefType first second) resolver
  | .register header => (.registered, resolver.register header)

/-- Makes calls one after the other. -/
def performAll : (calls : List Call) → Resolver → List Reply × Resolver
  | [], resolver => ([], resolver)
  | call :: calls, resolver =>
    let first := perform call resolver
    let rest := performAll calls first.2
    (first.1 :: rest.1, rest.2)

/-- The resolver that is left by calls. -/
def after (calls : List Call) (resolver : Resolver) : Resolver := (performAll calls resolver).2

end Resolver

namespace Headers

/-- The headers on a class path. The root is built in. -/
def ofClassPath (classPath : ClassPath) : Headers := fun name =>
  if name = .object then some .object else Resolver.readHeader? classPath name

/-- What a question comes to when nothing is kept: the classes that are looked up, and the reply. -/
def Answers (headers : Headers) (question : Question) (looked : List BinaryName) (reply : Reply) :
    Prop :=
  match question with
  | .header name => looked = [name] ∧ reply = .of .header (headers.find name)
  | .ancestorChain name => ∃ answer, headers.Chain [] name looked answer ∧ reply = .of .chain answer
  | .commonSuperclass first second =>
    ∃ answer, headers.CommonSuperclass first second looked answer ∧ reply = .of .superclass answer
  | .commonRefType first second =>
    ∃ answer, headers.CommonRefType first second looked answer ∧ reply = .of .refType answer

/-- A question has one answer, and the same classes are looked up for it. -/
theorem Answers.unique {headers : Headers} {question : Question} {looked looked' : List BinaryName}
    {reply reply' : Reply} (h : headers.Answers question looked reply)
    (h' : headers.Answers question looked' reply') : looked = looked' ∧ reply = reply' := by
  -- a header is a function of its name, and the walks are unique
  cases question with
  | header name =>
    obtain ⟨rfl, rfl⟩ := h
    obtain ⟨rfl, rfl⟩ := h'
    exact ⟨rfl, rfl⟩
  | ancestorChain name =>
    obtain ⟨answer, h, rfl⟩ := h
    obtain ⟨answer', h', rfl⟩ := h'
    obtain ⟨rfl, rfl⟩ := h.unique h'
    exact ⟨rfl, rfl⟩
  | commonSuperclass first second =>
    obtain ⟨answer, h, rfl⟩ := h
    obtain ⟨answer', h', rfl⟩ := h'
    obtain ⟨rfl, rfl⟩ := h.unique h'
    exact ⟨rfl, rfl⟩
  | commonRefType first second =>
    obtain ⟨answer, h, rfl⟩ := h
    obtain ⟨answer', h', rfl⟩ := h'
    obtain ⟨rfl, rfl⟩ := h.unique h'
    exact ⟨rfl, rfl⟩

end Headers

/-! ### The ledger -/

/-- What counts of the calls that were made. -/
structure Ledger where
  -- the headers that were told, where telling them had an effect
  registered : Headers
  -- the classes that were told, or looked up and found
  settled : Set BinaryName

namespace Ledger

/-- Before any call. -/
def empty : Ledger := ⟨fun _ => none, ∅⟩

/-- The header of a class: the one that was told, or else the one on the class path. -/
def headers (classPath : ClassPath) (ledger : Ledger) : Headers := fun name =>
  (ledger.registered name).or (Headers.ofClassPath classPath name)

/-- A header is told. -/
def register (ledger : Ledger) (header : ClassHeader) : Ledger where
  registered := Function.update ledger.registered header.name (some header)
  settled := insert header.name ledger.settled

/-- Classes are looked up. -/
def look (classPath : ClassPath) (ledger : Ledger) (looked : List BinaryName) : Ledger :=
  { ledger with
    settled := ledger.settled ∪
      {name | name ∈ looked ∧ (ledger.headers classPath name).isSome} }

/-- The reply to a call, and the ledger after it. -/
inductive Step (classPath : ClassPath) : Ledger → Call → Reply → Ledger → Prop where
  -- a settled class is told in vain
  | kept {ledger : Ledger} {header : ClassHeader} (h : header.name ∈ ledger.settled) :
    Step classPath ledger (.register header) .registered ledger
  | registered {ledger : Ledger} {header : ClassHeader} (h : header.name ∉ ledger.settled) :
    Step classPath ledger (.register header) .registered (ledger.register header)
  | answered {ledger : Ledger} {question : Question} {looked : List BinaryName} {reply : Reply}
    (h : (ledger.headers classPath).Answers question looked reply) :
    Step classPath ledger (.ask question) reply (ledger.look classPath looked)

/-- The replies to calls one after the other, and the ledger after them. -/
inductive Runs (classPath : ClassPath) : Ledger → List Call → List Reply → Ledger → Prop where
  | nil (ledger : Ledger) : Runs classPath ledger [] [] ledger
  | cons {ledger middle last : Ledger} {call : Call} {calls : List Call} {reply : Reply}
    {replies : List Reply} (h : Step classPath ledger call reply middle)
    (hrest : Runs classPath middle calls replies last) :
    Runs classPath ledger (call :: calls) (reply :: replies) last

/-- There is one reply to a call, and one ledger behind it. -/
theorem Step.unique {classPath : ClassPath} {ledger after after' : Ledger} {call : Call}
    {reply reply' : Reply} (h : Step classPath ledger call reply after)
    (h' : Step classPath ledger call reply' after') : reply = reply' ∧ after = after' := by
  cases h with
  | kept hsettled =>
    cases h' with
    | kept => exact ⟨rfl, rfl⟩
    | registered hnot => exact absurd hsettled hnot
  | registered hnot =>
    cases h' with
    | kept hsettled => exact absurd hsettled hnot
    | registered => exact ⟨rfl, rfl⟩
  | answered h =>
    cases h' with
    | answered h' =>
      obtain ⟨rfl, rfl⟩ := h.unique h'
      exact ⟨rfl, rfl⟩

/-- There is one list of replies to several calls, and one ledger behind them. -/
theorem Runs.unique {classPath : ClassPath} {ledger last last' : Ledger} {calls : List Call}
    {replies replies' : List Reply} (h : Runs classPath ledger calls replies last)
    (h' : Runs classPath ledger calls replies' last') : replies = replies' ∧ last = last' := by
  induction h generalizing replies' last' with
  | nil =>
    cases h'
    exact ⟨rfl, rfl⟩
  | cons hstep _ ih =>
    cases h' with
    | cons hstep' hrest =>
      obtain ⟨rfl, rfl⟩ := hstep.unique hstep'
      obtain ⟨rfl, rfl⟩ := ih hrest
      exact ⟨rfl, rfl⟩

end Ledger

/-! ### What a resolver keeps -/

namespace Resolver

variable {resolver : Resolver}

/-- What is known about a class is its header, or that it has none. -/
theorem getElem?_eq_some_iff {name : BinaryName} {known : Option ClassHeader} :
    resolver.headers[name]? = some known ↔
      name ∈ resolver.headers ∧ resolver.header? name = known := by
  rw [← Std.HashMap.isSome_getElem?_iff_mem]
  unfold header?
  cases resolver.headers[name]? with
  | none => simp
  | some known => simp

/-- A class is loaded from the class path. -/
theorem load_fst_eq (name : BinaryName) (resolver : Resolver) :
    (load name resolver).1 = Headers.ofClassPath resolver.classPath name := by
  unfold load Headers.ofClassPath
  split <;> rfl

/-- At first the headers are those on the class path. -/
theorem header?_ofClassPath (classPath : ClassPath) :
    (ofClassPath classPath).header? = Headers.ofClassPath classPath := by
  funext name
  simp [header?, ofClassPath, load_fst_eq]

/-- Without files there is only the root. -/
theorem header?_of_empty :
    (ofClassPath ∅).header? = fun name => if name = .object then some .object else none := by
  rw [header?_ofClassPath]
  rfl

/-- What was found for a class is kept when classes are looked up. -/
theorem Looked.kept {names : List BinaryName} {old new : Resolver} (h : Looked names old new)
    {name : BinaryName} {found : ClassHeader} (hfound : old.headers[name]? = some (some found)) :
    new.headers[name]? = some (some found) := by
  rw [getElem?_eq_some_iff] at hfound ⊢
  rw [h.mem_headers, h.header?_eq]
  exact ⟨.inl hfound.1, hfound.2⟩

/-- A class that was found keeps its header. -/
theorem register_of_found {header found : ClassHeader}
    (h : resolver.headers[header.name]? = some (some found)) :
    resolver.register header = resolver := by
  unfold register
  rw [h]

/-- A class that was not found gets the header that is told. -/
theorem register_of_not_found {header : ClassHeader}
    (h : ∀ found, resolver.headers[header.name]? ≠ some (some found)) :
    resolver.register header =
      { resolver with headers := resolver.headers.insert header.name (some header) } := by
  unfold register
  split
  · rename_i found hfound
    exact absurd hfound (h found)
  · rfl

/-- A header that was told is the header of its class, and no other class has another one. -/
theorem header?_insert (resolver : Resolver) (header : ClassHeader) :
    header? { resolver with headers := resolver.headers.insert header.name (some header) } =
      Function.update resolver.header? header.name (some header) := by
  funext name
  unfold header?
  rw [Std.HashMap.getElem?_insert]
  by_cases hname : header.name = name
  · subst hname
    simp
  · rw [Function.update_of_ne (Ne.symm hname)]
    simp only [beq_iff_eq, hname, if_false]
    cases resolver.headers[name]? with
    | some known => rfl
    | none =>
      change (load name _).1 = (load name resolver).1
      rw [load_fst_eq, load_fst_eq]

/-- The header of a class that was not found is the one that is told. -/
theorem header?_register_of_none {header : ClassHeader}
    (h : resolver.header? header.name = none) :
    (resolver.register header).header? =
      Function.update resolver.header? header.name (some header) := by
  rw [register_of_not_found, header?_insert]
  intro found hfound
  exact absurd ((getElem?_eq_some_iff.1 hfound).2.symm.trans h) nofun

/-- A reply is the answer of a question, and what is looked up for it is known from then on. -/
theorem Gives.reply_eq {α : Type} {question : Query α} {looked : List BinaryName}
    {answer : Except ResolveError α} (form : α → Reply)
    (h : Gives question resolver looked answer) :
    (reply form question resolver).1 = .of form answer ∧
      Looked looked resolver (reply form question resolver).2 := by
  obtain ⟨resolver', hrun, hlooked⟩ := h
  unfold reply
  rw [hrun]
  cases answer <;> exact ⟨rfl, hlooked⟩

/-- A question has the answer that it has without a memory. -/
theorem perform_ask (question : Question) (resolver : Resolver) :
    ∃ looked, Headers.Answers resolver.header? question looked
        (perform (.ask question) resolver).1 ∧
      Looked looked resolver (perform (.ask question) resolver).2 := by
  cases question with
  | header name =>
    obtain ⟨hreply, hlooked⟩ := (header_gives name resolver).reply_eq .header
    exact ⟨[name], ⟨rfl, hreply⟩, hlooked⟩
  | ancestorChain name =>
    obtain ⟨looked, answer, hanswer, hgives⟩ := ancestorChain_gives name resolver
    obtain ⟨hreply, hlooked⟩ := hgives.reply_eq .chain
    exact ⟨looked, ⟨answer, hanswer, hreply⟩, hlooked⟩
  | commonSuperclass first second =>
    obtain ⟨looked, answer, hanswer, hgives⟩ := commonSuperclass_gives first second resolver
    obtain ⟨hreply, hlooked⟩ := hgives.reply_eq .superclass
    exact ⟨looked, ⟨answer, hanswer, hreply⟩, hlooked⟩
  | commonRefType first second =>
    obtain ⟨looked, answer, hanswer, hgives⟩ := commonRefType_gives first second resolver
    obtain ⟨hreply, hlooked⟩ := hgives.reply_eq .refType
    exact ⟨looked, ⟨answer, hanswer, hreply⟩, hlooked⟩

/-- What was found for a class is kept by every call. -/
theorem perform_keeps (call : Call) {name : BinaryName} {found : ClassHeader}
    (h : resolver.headers[name]? = some (some found)) :
    (perform call resolver).2.headers[name]? = some (some found) := by
  cases call with
  | ask question =>
    obtain ⟨looked, -, hlooked⟩ := perform_ask question resolver
    exact hlooked.kept h
  | register header =>
    change (resolver.register header).headers[name]? = some (some found)
    by_cases hknown : ∃ other, resolver.headers[header.name]? = some (some other)
    · obtain ⟨other, hother⟩ := hknown
      rw [register_of_found hother, h]
    · rw [register_of_not_found (not_exists.1 hknown), Std.HashMap.getElem?_insert, if_neg, h]
      intro hname
      rw [beq_iff_eq.1 hname] at hknown
      exact hknown ⟨found, h⟩

/-- A header that was found is kept by all calls. -/
theorem after_keeps (calls : List Call) {name : BinaryName} {found : ClassHeader}
    (h : resolver.headers[name]? = some (some found)) :
    (resolver.after calls).headers[name]? = some (some found) := by
  induction calls generalizing resolver with
  | nil => exact h
  | cons call calls ih => exact ih (perform_keeps call h)

/-- The header of a class that was found is the reply. -/
theorem perform_header_of_found {name : BinaryName} {found : ClassHeader}
    (h : resolver.headers[name]? = some (some found)) :
    (perform (.ask (.header name)) resolver).1 = .header found := by
  unfold perform reply header
  simp only [h]

/-- A class whose header was answered is known. -/
theorem found_of_perform_header {name : BinaryName} {found : ClassHeader}
    (h : (perform (.ask (.header name)) resolver).1 = .header found) :
    (perform (.ask (.header name)) resolver).2.headers[name]? = some (some found) := by
  obtain ⟨hreply, hlooked⟩ := (header_gives name resolver).reply_eq .header
  have hfound : resolver.header? name = some found := by
    rw [show (reply .header (header name) resolver).1 = .header found from h] at hreply
    unfold Headers.find at hreply
    cases hname : resolver.header? name with
    | none => simp [hname, Reply.of] at hreply
    | some other =>
      simp only [hname, Reply.of, Reply.header.injEq] at hreply
      rw [hreply]
  rw [getElem?_eq_some_iff]
  refine ⟨(hlooked.mem_headers name).2 (.inr (List.mem_singleton_self name)), ?_⟩
  exact (congrFun hlooked.header?_eq name).trans hfound

end Resolver

/-! ### The ledger describes the resolver -/

namespace Ledger

open Resolver

/-- A ledger says what a resolver knows. -/
structure Describes (classPath : ClassPath) (ledger : Ledger) (resolver : Resolver) : Prop where
  classPath_eq : resolver.classPath = classPath
  header?_eq : resolver.header? = ledger.headers classPath
  mem_settled : ∀ name, name ∈ ledger.settled ↔
    name ∈ resolver.headers ∧ (resolver.header? name).isSome
  tidy : resolver.Tidy

/-- The empty ledger describes a resolver to which nothing happened. -/
theorem describes_empty (classPath : ClassPath) :
    empty.Describes classPath (.ofClassPath classPath) where
  classPath_eq := rfl
  header?_eq := header?_ofClassPath classPath
  mem_settled := by simp [empty, ofClassPath]
  tidy := ⟨List.nodup_nil, List.not_mem_nil, nofun⟩

section Describes

variable {classPath : ClassPath} {ledger : Ledger} {resolver : Resolver}

/-- The settled names are those of the classes that were found. -/
theorem Describes.settled_iff (h : ledger.Describes classPath resolver) (name : BinaryName) :
    name ∈ ledger.settled ↔ ∃ found, resolver.headers[name]? = some (some found) := by
  simp only [h.mem_settled, getElem?_eq_some_iff, Option.isSome_iff_exists, exists_and_left]

theorem Describes.register_kept (h : ledger.Describes classPath resolver) {header : ClassHeader}
    (hsettled : header.name ∈ ledger.settled) : resolver.register header = resolver := by
  obtain ⟨found, hfound⟩ := (h.settled_iff _).1 hsettled
  exact register_of_found hfound

theorem Describes.register_eq (h : ledger.Describes classPath resolver) {header : ClassHeader}
    (hnot : header.name ∉ ledger.settled) : resolver.register header =
      { resolver with headers := resolver.headers.insert header.name (some header) } :=
  register_of_not_found fun found hfound => hnot ((h.settled_iff _).2 ⟨found, hfound⟩)

/-- Telling a header settles its class. -/
theorem Describes.register (h : ledger.Describes classPath resolver) {header : ClassHeader}
    (hnot : header.name ∉ ledger.settled) :
    (ledger.register header).Describes classPath (resolver.register header) := by
  rw [h.register_eq hnot]
  refine ⟨h.classPath_eq, ?_, ?_, ?_⟩
  · -- the new header is at its own name, and elsewhere nothing has changed
    rw [header?_insert, h.header?_eq]
    funext name
    by_cases hname : name = header.name
    · subst hname
      simp [headers, Ledger.register]
    · simp [headers, Ledger.register, Function.update_of_ne hname]
  · intro name
    rw [header?_insert, Std.HashMap.mem_insert, beq_iff_eq]
    by_cases hname : name = header.name
    · subst hname
      simp [Ledger.register]
    · rw [Function.update_of_ne hname]
      simp only [Ledger.register, Set.mem_insert_iff, hname, false_or, Ne.symm hname]
      exact h.mem_settled name
  · -- nothing was looked up
    refine ⟨h.tidy.nodup, h.tidy.object_notMem, fun name hname => ?_⟩
    exact Std.HashMap.mem_insert.2 (.inr (h.tidy.known name hname))

/-- Looking classes up settles those that have a header. -/
theorem Describes.look (h : ledger.Describes classPath resolver) {looked : List BinaryName}
    {resolver' : Resolver} (hlooked : Looked looked resolver resolver') :
    (ledger.look classPath looked).Describes classPath resolver' where
  classPath_eq := hlooked.classPath_eq.trans h.classPath_eq
  header?_eq := hlooked.header?_eq.trans h.header?_eq
  mem_settled name := by
    rw [hlooked.header?_eq, hlooked.mem_headers, or_and_right, ← h.mem_settled, h.header?_eq]
    rfl
  tidy := hlooked.tidy h.tidy

/-- A call has the reply that the ledger gives, and the ledger goes on describing the resolver. -/
theorem Describes.step (h : ledger.Describes classPath resolver) (call : Call) :
    ∃ ledger', Step classPath ledger call (perform call resolver).1 ledger' ∧
      ledger'.Describes classPath (perform call resolver).2 := by
  cases call with
  | ask question =>
    obtain ⟨looked, hanswers, hlooked⟩ := perform_ask question resolver
    rw [h.header?_eq] at hanswers
    exact ⟨_, .answered hanswers, h.look hlooked⟩
  | register header =>
    by_cases hsettled : header.name ∈ ledger.settled
    · refine ⟨ledger, .kept hsettled, ?_⟩
      change ledger.Describes classPath (resolver.register header)
      rw [h.register_kept hsettled]
      exact h
    · exact ⟨_, .registered hsettled, h.register hsettled⟩

/-- Calls have the replies of the ledger, one after the other. -/
theorem Describes.runs (h : ledger.Describes classPath resolver) (calls : List Call) :
    ∃ ledger', Runs classPath ledger calls (performAll calls resolver).1 ledger' ∧
      ledger'.Describes classPath (resolver.after calls) := by
  induction calls generalizing ledger resolver with
  | nil => exact ⟨ledger, .nil ledger, h⟩
  | cons call calls ih =>
    obtain ⟨middle, hstep, hmiddle⟩ := h.step call
    obtain ⟨last, hrest, hlast⟩ := ih hmiddle
    exact ⟨last, .cons hstep hrest, hlast⟩

end Describes

end Ledger

namespace Resolver

/-- After any calls: the replies were those of a ledger, and no others follow from it. The class
path was asked at most once for each class and never for the root. A header that is answered is
answered ever after. A class that is settled by then is told in vain, and one that is not has the
header that is told from then on. -/
theorem calls_transparent (classPath : ClassPath) (calls : List Call) :
    let resolver := (ofClassPath classPath).after calls
    ∃ ledger : Ledger,
      (∀ replies ledger', Ledger.Runs classPath .empty calls replies ledger' ↔
        replies = (performAll calls (ofClassPath classPath)).1 ∧ ledger' = ledger) ∧
      resolver.asked.Nodup ∧ BinaryName.object ∉ resolver.asked ∧
      (∀ name found more, (perform (.ask (.header name)) resolver).1 = .header found →
        (perform (.ask (.header name)) (resolver.after (.ask (.header name) :: more))).1 =
          .header found) ∧
      (∀ header : ClassHeader, header.name ∈ ledger.settled →
        resolver.register header = resolver) ∧
      ∀ (header : ClassHeader) more, header.name ∉ ledger.settled →
        (perform (.ask (.header header.name)) (resolver.after (.register header :: more))).1 =
          .header header := by
  intro resolver
  -- the ledger of the calls describes the resolver behind them
  obtain ⟨ledger, hruns, hdescribes⟩ := (Ledger.describes_empty classPath).runs calls
  refine ⟨ledger, ?_, hdescribes.tidy.nodup, hdescribes.tidy.object_notMem, ?_, ?_, ?_⟩
  · intro replies ledger'
    constructor
    · exact fun h => h.unique hruns
    · rintro ⟨rfl, rfl⟩
      exact hruns
  · intro name found more hanswer
    exact perform_header_of_found (after_keeps more (found_of_perform_header hanswer))
  · exact fun header hsettled => hdescribes.register_kept hsettled
  · intro header more hnot
    refine perform_header_of_found (after_keeps more ?_)
    change (resolver.register header).headers[header.name]? = _
    rw [hdescribes.register_eq hnot, Std.HashMap.getElem?_insert_self]

end Resolver

end Preverification
