import Preverification.Preverifier

/-!
# Archives

An archive is a list of named entries. Those that are class files are preverified, and all others
are passed on as they are. A listener hears of every step and decides, from what it has heard,
whether to go on.
-/

namespace Preverification

/-- A file of an archive, by its path there. -/
structure ArchiveEntry where
  name : String
  contents : Bytes
deriving DecidableEq, Repr

/-- Whether an entry is a class file, by its name. -/
def ArchiveEntry.isClass (entry : ArchiveEntry) : Bool := entry.name.endsWith ".class"

/-- What a listener hears of. An entry ends without a report if it was passed on as it is. -/
inductive ArchiveEvent where
  | fileBegin (archive : String)
  | entryBegin (archive entry : String)
  | entryEnd (archive entry : String) (report : Option ClassReport)
  | fileEnd (archive : String)

/-- Decides whether to go on, given what has happened, the latest event first. It is asked after the
beginning and after the end of each entry. -/
abbrev ArchiveListener := List ArchiveEvent → Bool

/-- The listener that always goes on. -/
def ArchiveListener.always : ArchiveListener := fun _ => true

/-- What came out of an archive: the new entries, without the classes that have problems, and the
problems of these classes by the names of their entries. Then whether a listener did not go on, and
what has happened in order. -/
structure ArchiveReport where
  entries : List ArchiveEntry
  failures : List (String × List Problem)
  stopped : Bool
  events : List ArchiveEvent

namespace ArchiveReport

/-- Whether every entry has a new one. -/
def isSuccess (report : ArchiveReport) : Bool := report.failures.isEmpty && !report.stopped

end ArchiveReport

/-- An archive under way. What came out is kept with the latest first. -/
structure ArchiveProgress where
  entries : List ArchiveEntry
  failures : List (String × List Problem)
  events : List ArchiveEvent

namespace ArchiveProgress

/-- The state of an archive that has begun. -/
def start (archive : String) : ArchiveProgress := ⟨[], [], [.fileBegin archive]⟩

/-- Notes an event. -/
def hear (event : ArchiveEvent) (progress : ArchiveProgress) : ArchiveProgress :=
  { progress with events := event :: progress.events }

/-- Notes what came out of an entry. -/
def finish (entry : ArchiveEntry) (report : Option ClassReport) (progress : ArchiveProgress) :
    ArchiveProgress :=
  match report with
  | none => { progress with entries := entry :: progress.entries }
  | some report => match report.result with
    | .ok contents => { progress with entries := ⟨entry.name, contents⟩ :: progress.entries }
    | .error problems =>
      { progress with failures := (entry.name, problems) :: progress.failures }

/-- The report on an archive that has ended. -/
def toReport (archive : String) (stopped : Bool) (progress : ArchiveProgress) : ArchiveReport where
  entries := progress.entries.reverse
  failures := progress.failures.reverse
  stopped := stopped
  events := (progress.hear (.fileEnd archive)).events.reverse

end ArchiveProgress

namespace Policy

/-- The report on an entry, if it is a class file. -/
def processEntry (policy : Policy) (entry : ArchiveEntry) : StateM Resolver (Option ClassReport) :=
  if entry.isClass then return some (← policy.preverify entry.contents) else return none

/-- Processes the entries of an archive that has begun, as long as the listener goes on. -/
def processEntries (policy : Policy) (archive : String) (listener : ArchiveListener)
    (progress : ArchiveProgress) : List ArchiveEntry → StateM Resolver ArchiveReport
  | [] => return progress.toReport archive false
  | entry :: rest => do
    let progress := progress.hear (.entryBegin archive entry.name)
    if !listener progress.events then return progress.toReport archive true
    let report ← policy.processEntry entry
    let progress := (progress.finish entry report).hear (.entryEnd archive entry.name report)
    if !listener progress.events then return progress.toReport archive true
    processEntries policy archive listener progress rest

/-- Preverifies the classes of an archive. -/
def preverifyArchive (policy : Policy) (archive : String) (listener : ArchiveListener)
    (entries : List ArchiveEntry) : StateM Resolver ArchiveReport :=
  policy.processEntries archive listener (.start archive) entries

end Policy

end Preverification
