import CompactShell.Proofs.Log.Growth
import CompactShell.Proofs.Log.Lines

/-!
# Logs grow by the entries that are put behind them

A log holds some entries if its file has their lines and nothing else; one without entries has no
file at all (`Holds`). Where the way to the logs is open (`IsWritable`), putting an entry behind a
log gives a log that holds one more (`Holds.append`), leaves every other log as it was
(`Holds.append_other`), and keeps the way open (`Holds.isWritable_append`). A log that holds some
entries is read as these entries (`Holds.entriesAt`).
-/

namespace CompactShell.Log

open Host Json Text

variable {host : Host} {file other : Name} {entries : List Entry}

/-! ## Hosts with logs -/

/-- Logs can be written: on the way to them there are only directories and free places. -/
structure IsWritable (host : Host) : Prop where
  plain : ∀ name ∈ host.home, IsPlainName name
  isOpen : host.files.IsOpen (directory host)

/-- The log has the lines of the entries and nothing else. Without entries there is no log. -/
def Holds (host : Host) (file : Name) (entries : List Entry) : Prop :=
  (entries = [] ∧ host.files.get? (directory host ++ [file]) = none) ∨
    host.files.IsMade (directory host) ∧
      ∃ changed, host.files.get? (directory host ++ [file]) =
        some (.file (Utf8.encode (entries.flatMap Entry.line)) changed)

theorem Holds.logBytes_eq (h : Holds host file entries) :
    logBytes host file = Utf8.encode (entries.flatMap Entry.line) := by
  unfold logBytes Files.bytes
  rcases h with ⟨rfl, hnone⟩ | ⟨-, changed, hnode⟩
  · rw [hnone]
    rfl
  · rw [hnode]

/-- **A log is read as the entries that it holds.** -/
theorem Holds.entriesAt (h : Holds host file entries) (hwritable : IsWritable host)
    (hfile : IsPlainName file) :
    Log.entriesAt host (path host file) = .ok (entries.map Entry.members) := by
  have hplain := plain_path hwritable.plain hfile
  by_cases hmade : host.files.IsMade (directory host)
  · rw [entriesAt_of_isMade hplain hmade, h.logBytes_eq, entriesIn, textOf_lines]
    exact entriesOf_lines (host.rooms.log_holds.mono (by decide)) entries
  · rcases h with ⟨rfl, -⟩ | ⟨hway, -⟩
    · exact entriesAt_of_not_isMade hplain hmade
    · exact absurd hway hmade

theorem Holds.isWarned (h : Holds host file entries) (hwritable : IsWritable host)
    (hfile : IsPlainName file) :
    Log.isWarned host (path host file) =
      .ok ((entries.map Entry.members).any (isAbout .unavailable)) := by
  rw [Log.isWarned, h.entriesAt hwritable hfile]
  rfl

/-! ## One more entry -/

/-- Nothing is in the way of the log. -/
theorem Holds.isLoggable (h : Holds host file entries) (hwritable : IsWritable host) :
    IsLoggable host file := by
  refine ⟨hwritable.isOpen, ?_⟩
  unfold Files.isDirectory
  rcases h with ⟨-, hnone⟩ | ⟨-, changed, hnode⟩
  · rw [hnone]
  · rw [hnode]

/-- The log holds one more entry. -/
theorem Holds.append (h : Holds host file entries) (hwritable : IsWritable host) (entry : Entry) :
    Holds (append host file entry) file (entries ++ [entry]) := by
  obtain ⟨files, happend, hgrown⟩ := append_of_isLoggable (h.isLoggable hwritable) entry
  obtain ⟨changed, hwritten⟩ := hgrown.written
  have hbytes : host.files.bytes (directory host ++ [file]) =
      Utf8.encode (entries.flatMap Entry.line) := h.logBytes_eq
  rw [hbytes, ← Utf8.encode_append, ← List.flatMap_singleton Entry.line entry,
    ← List.flatMap_append] at hwritten
  rw [happend]
  exact .inr ⟨hgrown.made, changed, hwritten⟩

/-- Every other log holds what it did. -/
theorem Holds.append_other {others : List Entry} (h : Holds host other others)
    (hfile : Holds host file entries) (hwritable : IsWritable host) (entry : Entry)
    (hne : other ≠ file) : Holds (Log.append host file entry) other others := by
  obtain ⟨files, happend, hgrown⟩ := append_of_isLoggable (hfile.isLoggable hwritable) entry
  have hnode := hgrown.get?_other hne
  rw [happend]
  rcases h with ⟨hnil, hnone⟩ | ⟨-, changed, hwritten⟩
  · exact .inl ⟨hnil, hnode.trans hnone⟩
  · exact .inr ⟨hgrown.made, changed, hnode.trans hwritten⟩

theorem Holds.isWritable_append (h : Holds host file entries) (hwritable : IsWritable host)
    (entry : Entry) : IsWritable (Log.append host file entry) := by
  have hmade := isMade_append (h.isLoggable hwritable) entry
  constructor
  · rw [append_home]
    exact hwritable.plain
  · rw [directory_append]
    exact hmade.isOpen

end CompactShell.Log
