import Preverification.Archive
import Preverification.Proofs.PassThrough
import Preverification.Proofs.SameReports

/-!
# The order of an archive

The classes of an archive are preverified with one resolver, which learns from each of them. When
the class path holds all of these classes, with the headers that they have in the archive, nothing
is learned that would not be found anyway: what comes out of an entry is what comes out of it alone,
and the order of the entries decides about the order of the results only.

* `Policy.processEntries_eq`: what comes out of entries is what comes out of each alone.
* `Policy.preverifyArchive_perm`: the order of the entries decides about the order of the results
  only.
-/

namespace Preverification

/-- A class path holds the classes of some entries, with the same headers. The root is not among
them. -/
def ClassPath.HoldsClasses (classPath : ClassPath) (entries : List ArchiveEntry) : Prop :=
  ∀ entry ∈ entries, entry.isClass → ∀ header, ClassHeader.parse entry.contents = .ok header →
    header.name ≠ .object ∧ ∃ bytes, classPath.find? header.name = some bytes ∧
      ClassHeader.parse bytes = .ok header

/-- An entry, and what came out of it. -/
structure EntryResult where
  entry : ArchiveEntry
  -- the report is missing for an entry that was passed on as it is
  report : Option ClassReport

namespace EntryResult

/-- The new entry. -/
def output? (result : EntryResult) : Option ArchiveEntry :=
  match result.report with
  | none => some result.entry
  | some report => report.result.toOption.map fun contents => ⟨result.entry.name, contents⟩

/-- The problems of a class, by the name of its entry. -/
def failure? (result : EntryResult) : Option (String × List Problem) :=
  match result.report with
  | none => none
  | some report => match report.result with
    | .ok _ => none
    | .error problems => some (result.entry.name, problems)

/-- What a listener hears of. -/
def events (archive : String) (result : EntryResult) : List ArchiveEvent :=
  [.entryBegin archive result.entry.name, .entryEnd archive result.entry.name result.report]

end EntryResult

/-- The report on an archive that was processed to its end. -/
def ArchiveReport.ofResults (archive : String) (results : List EntryResult) : ArchiveReport where
  entries := results.filterMap (·.output?)
  failures := results.filterMap (·.failure?)
  stopped := false
  events := [.fileBegin archive] ++ results.flatMap (·.events archive) ++ [.fileEnd archive]

/-- What comes out of an entry that is processed alone. -/
def Policy.resultAlone (policy : Policy) (classPath : ClassPath) (entry : ArchiveEntry) :
    EntryResult :=
  ⟨entry, (policy.processEntry entry (.ofClassPath classPath)).1⟩

/-! ### Headers -/

/-- The header of a class that was read is the one that is read off its file. -/
theorem ClassFile.headerOf_parse {bytes : Bytes} {classFile : ClassFile}
    (h : ClassFile.parse bytes = .ok classFile) : ClassHeader.parse bytes = classFile.header := by
  -- both readers begin in the same way
  obtain ⟨⟨found, rest⟩, hrun, h⟩ := except_bind_ok.1 h
  dsimp only at h
  split at h
  · obtain rfl := Except.ok.inj h
    obtain ⟨position, hread⟩ := Reader.run_ok.1 hrun
    obtain ⟨⟨version, pool⟩, front, hpreamble, hread⟩ := state_bind_ok.1 hread
    obtain ⟨identity, middle, hidentity, hread⟩ := state_bind_ok.1 hread
    -- what follows the identity is no part of the header
    obtain ⟨fields, _, _, hread⟩ := state_bind_ok.1 hread
    obtain ⟨methods, _, _, hread⟩ := state_bind_ok.1 hread
    obtain ⟨attributes, _, _, hread⟩ := state_bind_ok.1 hread
    obtain ⟨rfl, -⟩ := state_pure_ok.1 hread
    unfold ClassHeader.parse
    generalize hfront : Reader.run _ bytes = front'
    obtain rfl : .ok ((pool, identity), middle.rest) = front' := by
      rw [← hfront, eq_comm, Reader.run_ok]
      refine ⟨middle.position, state_bind_ok.2 ⟨(version, pool), front, hpreamble, ?_⟩⟩
      exact state_bind_ok.2 ⟨identity, middle, hidentity, rfl⟩
    rfl
  · cases h

/-- The root has no superclass, whatever is on the class path. -/
theorem Headers.ofClassPath_object (classPath : ClassPath) :
    (Headers.ofClassPath classPath .object).bind (·.superclass) = none := by
  unfold ofClassPath
  rw [if_pos rfl]
  rfl

/-- A class of an archive makes known the header that its name has on the class path. -/
theorem ClassPath.HoldsClasses.header_eq {classPath : ClassPath} {entries : List ArchiveEntry}
    (h : classPath.HoldsClasses entries) {entry : ArchiveEntry} (hentry : entry ∈ entries)
    (hclass : entry.isClass) {classFile : ClassFile} {header : ClassHeader}
    (hparse : ClassFile.parse entry.contents = .ok classFile)
    (hheader : classFile.header = .ok header) :
    Headers.ofClassPath classPath header.name = some header := by
  have hread := ClassFile.headerOf_parse hparse
  rw [hheader] at hread
  obtain ⟨hroot, bytes, hfound, hsame⟩ := h entry hentry hclass header hread
  unfold Headers.ofClassPath Resolver.readHeader?
  rw [if_neg hroot, hfound]
  change ((ClassHeader.parse bytes).toOption.bind fun found =>
    if found.name = header.name then some found else none) = some header
  rw [hsame]
  exact if_pos rfl

/-! ### Entries -/

namespace ArchiveProgress

/-- The progress of an archive behind some more entries. -/
def behind (archive : String) (results : List EntryResult) (progress : ArchiveProgress) :
    ArchiveProgress where
  entries := (results.filterMap (·.output?)).reverse ++ progress.entries
  failures := (results.filterMap (·.failure?)).reverse ++ progress.failures
  events := (results.flatMap (·.events archive)).reverse ++ progress.events

theorem behind_cons (archive : String) (result : EntryResult) (results : List EntryResult)
    (progress : ArchiveProgress) : progress.behind archive (result :: results) =
      (progress.behind archive [result]).behind archive results := by
  unfold behind
  simp only [List.filterMap_cons, List.filterMap_nil, List.flatMap_cons, List.flatMap_nil]
  cases result.output? <;> cases result.failure? <;> simp

/-- What is noted of one entry. -/
theorem behind_singleton (archive : String) (entry : ArchiveEntry) (report : Option ClassReport)
    (progress : ArchiveProgress) : progress.behind archive [⟨entry, report⟩] =
      ((progress.hear (.entryBegin archive entry.name)).finish entry report).hear
        (.entryEnd archive entry.name report) := by
  cases report with
  | none => rfl
  | some report =>
    -- a class has either a new entry or problems
    unfold finish behind
    cases hresult : report.result <;>
      simp [hear, EntryResult.output?, EntryResult.failure?, EntryResult.events, hresult,
        Except.toOption]

/-- What is noted of all entries is the report of their results. -/
theorem toReport_behind_start (archive : String) (results : List EntryResult) :
    ((start archive).behind archive results).toReport archive false =
      .ofResults archive results := by
  simp [behind, start, toReport, hear, ArchiveReport.ofResults]

end ArchiveProgress

namespace Policy

variable {classPath : ClassPath} {entries : List ArchiveEntry}

/-- An entry has one result, whatever was learned before. -/
theorem uniform_processEntry (policy : Policy) (h : classPath.HoldsClasses entries)
    {entry : ArchiveEntry} (hentry : entry ∈ entries) :
    Resolver.Uniform (.ofClassPath classPath) (policy.processEntry entry) := by
  intro first second hshare
  unfold processEntry
  split
  · rename_i hclass
    have huniform := policy.uniform_preverify (Headers.ofClassPath_object classPath)
      (fun classFile header => h.header_eq hentry hclass)
    obtain ⟨hsame, hshare'⟩ := huniform first second hshare
    exact ⟨congrArg some hsame, hshare'⟩
  · exact ⟨rfl, hshare⟩

/-- What follows a run goes on from where the run ends. -/
theorem stateM_bind {σ α β : Type} {run : StateM σ α} {state state' : σ} {value : α}
    (h : run state = (value, state')) (next : α → StateM σ β) :
    (run >>= next) state = next value state' := by
  change next (run state).1 (run state).2 = next value state'
  rw [h]

/-- An entry begins, is dealt with, and ends; then those behind it follow, unless the listener does
not go on. -/
theorem processEntries_step (policy : Policy) (archive : String) (listener : ArchiveListener)
    (progress : ArchiveProgress) (entry : ArchiveEntry) (rest : List ArchiveEntry)
    (resolver : Resolver) :
    policy.processEntries archive listener progress (entry :: rest) resolver =
      let begun := progress.hear (.entryBegin archive entry.name)
      let processed := policy.processEntry entry resolver
      let ended := progress.behind archive [⟨entry, processed.1⟩]
      if listener begun.events then
        if listener ended.events then
          policy.processEntries archive listener ended rest processed.2
        else (ended.toReport archive true, processed.2)
      else (begun.toReport archive true, resolver) := by
  rcases hprocessed : policy.processEntry entry resolver with ⟨report, resolver'⟩
  conv_lhs => unfold processEntries
  dsimp only
  rw [ArchiveProgress.behind_singleton]
  cases listener (progress.hear (.entryBegin archive entry.name)).events with
  | false => rfl
  | true =>
    simp only [Bool.not_true, Bool.false_eq_true, if_false, if_true]
    refine (stateM_bind hprocessed _).trans ?_
    cases listener (((progress.hear (.entryBegin archive entry.name)).finish entry report).hear
      (.entryEnd archive entry.name report)).events <;> rfl

/-- An entry is dealt with, and then those behind it. -/
theorem processEntries_cons (policy : Policy) (archive : String) {listener : ArchiveListener}
    (hgoes : ∀ events, listener events = true) (progress : ArchiveProgress) (entry : ArchiveEntry)
    (rest : List ArchiveEntry) (resolver : Resolver) :
    (policy.processEntries archive listener progress (entry :: rest) resolver).1 =
      (policy.processEntries archive listener
        (progress.behind archive [⟨entry, (policy.processEntry entry resolver).1⟩]) rest
        (policy.processEntry entry resolver).2).1 := by
  rw [processEntries_step]
  simp only [hgoes, if_true]

/-- What comes out of entries is what comes out of each alone, whatever was learned before. -/
theorem processEntries_eq (policy : Policy) (archive : String) {listener : ArchiveListener}
    (hgoes : ∀ events, listener events = true) (h : classPath.HoldsClasses entries)
    (progress : ArchiveProgress) {resolver : Resolver}
    (hheaders : resolver.header? = Headers.ofClassPath classPath) :
    (policy.processEntries archive listener progress entries resolver).1 =
      (progress.behind archive (entries.map (policy.resultAlone classPath))).toReport archive
        false := by
  induction entries generalizing progress resolver with
  | nil => rfl
  | cons entry rest ih =>
    -- the entry adds to what the resolver keeps, but the headers are those of the class path again
    obtain ⟨hsame, hshare⟩ := policy.uniform_processEntry h List.mem_cons_self
      resolver (.ofClassPath classPath) ⟨hheaders, Resolver.header?_ofClassPath classPath⟩
    have hrest : classPath.HoldsClasses rest := fun other hother =>
      h other (List.mem_cons_of_mem entry hother)
    rw [policy.processEntries_cons archive hgoes, ih hrest _ hshare.first_eq, hsame, List.map_cons,
      ArchiveProgress.behind_cons archive (policy.resultAlone classPath entry)]
    rfl

/-- When the class path holds the classes of an archive, what comes out of an entry does not depend
on the order of the entries: it is what comes out of the entry alone. -/
theorem preverifyArchive_perm (policy : Policy) (classPath : ClassPath) (archive : String)
    {listener : ArchiveListener} (hgoes : ∀ events, listener events = true)
    {entries entries' : List ArchiveEntry} (hperm : entries.Perm entries')
    (h : classPath.HoldsClasses entries) :
    let outcome := fun order =>
      (policy.preverifyArchive archive listener order (.ofClassPath classPath)).1
    outcome entries = .ofResults archive (entries.map (policy.resultAlone classPath)) ∧
      outcome entries' = .ofResults archive (entries'.map (policy.resultAlone classPath)) ∧
      (outcome entries).entries.Perm (outcome entries').entries ∧
      (outcome entries).failures.Perm (outcome entries').failures := by
  intro outcome
  -- in any order each entry is dealt with as if it were alone
  have hall : ∀ order, classPath.HoldsClasses order →
      outcome order = .ofResults archive (order.map (policy.resultAlone classPath)) := by
    intro order horder
    have hrun := policy.processEntries_eq archive hgoes horder (.start archive)
      (Resolver.header?_ofClassPath classPath)
    rw [ArchiveProgress.toReport_behind_start] at hrun
    exact hrun
  have hfirst := hall entries h
  have hsecond := hall entries' fun entry hentry => h entry (hperm.mem_iff.2 hentry)
  refine ⟨hfirst, hsecond, ?_, ?_⟩
  · rw [hfirst, hsecond]
    exact (hperm.map _).filterMap _
  · rw [hfirst, hsecond]
    exact (hperm.map _).filterMap _

/-- The name of `extendsClass`. -/
def extendsName : BinaryName := ⟨"B", by decide⟩

/-- The class B, which extends A. -/
def extendsClass : Bytes :=
  [0xCA, 0xFE, 0xBA, 0xBE, 0, 0, 0, 49, 0, 5, 1, 0, 1, 66, 7, 0, 1, 1, 0, 1, 65, 7, 0, 3, 0, 0x21,
    0, 2, 0, 4, 0, 0, 0, 0, 0, 0, 0, 0]

/-- An archive with the class A, the class B and a text. -/
def twoClasses : List ArchiveEntry :=
  [⟨"A.class", holdsConstant.write⟩, ⟨"B.class", extendsClass⟩, ⟨"B.txt", []⟩]

/-- A class path with both classes. -/
def pathOfClasses : ClassPath :=
  ⟨[.classes (((∅ : Std.HashMap BinaryName Bytes).insert holdsConstantName
    holdsConstant.write).insert extendsName extendsClass)]⟩

/-- The class path has both classes, as they are in the archive. -/
theorem holdsClasses_twoClasses : pathOfClasses.HoldsClasses twoClasses := by
  have hfirst : ClassHeader.parse holdsConstant.write =
      .ok ⟨⟨0x21⟩, holdsConstantName, none, []⟩ := by
    rw [ClassFile.headerOf_parse holdsConstant_parse, holdsConstant_header]
  have hsecond : ClassHeader.parse extendsClass =
      .ok ⟨⟨0x21⟩, extendsName, some holdsConstantName, []⟩ := by decide +kernel
  have htext : ClassHeader.parse [] = .error .unexpectedEnd := rfl
  have hne : extendsName ≠ holdsConstantName := by decide
  intro entry hentry _ header hheader
  rcases List.mem_cons.1 hentry with rfl | hentry
  · obtain rfl := Except.ok.inj (hfirst.symm.trans hheader)
    refine ⟨by decide, holdsConstant.write, ?_, hfirst⟩
    simp [pathOfClasses, ClassPath.find?, ClassSource.find?, Std.HashMap.getElem_insert, hne]
  rcases List.mem_cons.1 hentry with rfl | hentry
  · obtain rfl := Except.ok.inj (hsecond.symm.trans hheader)
    refine ⟨by decide, extendsClass, ?_, hsecond⟩
    simp [pathOfClasses, ClassPath.find?, ClassSource.find?]
  · -- the last entry is no class
    obtain rfl := List.mem_singleton.1 hentry
    rw [htext] at hheader
    cases hheader

/-- A class may come before the class that it extends. -/
theorem preverifyArchive_twoClasses :
    let outcome := fun order =>
      (cldc10.preverifyArchive "A.jar" .always order (.ofClassPath pathOfClasses)).1
    (∀ events, ArchiveListener.always events = true) ∧ twoClasses.Perm twoClasses.reverse ∧
      pathOfClasses.HoldsClasses twoClasses ∧
      (outcome twoClasses).entries.Perm (outcome twoClasses.reverse).entries ∧
      (outcome twoClasses).failures.Perm (outcome twoClasses.reverse).failures := by
  intro outcome
  have hgoes : ∀ events, ArchiveListener.always events = true := fun _ => rfl
  have hperm : twoClasses.Perm twoClasses.reverse := (List.reverse_perm _).symm
  obtain ⟨-, -, hentries, hfailures⟩ := preverifyArchive_perm cldc10 pathOfClasses "A.jar" hgoes
    hperm holdsClasses_twoClasses
  exact ⟨hgoes, hperm, holdsClasses_twoClasses, hentries, hfailures⟩

end Policy

end Preverification
