import CompactShell.Log.Store
import CompactShell.Proofs.Host.Files
import Mathlib.Data.List.DropRight

/-!
# What an entry changes

An entry is put behind a log or it is lost. It is lost where a file stands on the way to the logs
or a directory in the place of the log (`append_of_not_isLoggable`). Everywhere else the log has
afterwards the bytes that it had, and the line of the entry behind them. Nothing that stood anywhere
else is touched (`append_of_isLoggable`).

What a session is called has no say in where its log stands: the name of a log has no separator, it
does not start with a dot, and it is never long (`isLogName_of_fileName?`).
-/

namespace CompactShell

open Host Text

/-- The bytes of the file at a place. Where no file stands there are none. -/
def Host.Files.bytes (files : Files) (place : Location) : List UInt8 :=
  match files.get? place with
  | some (.file bytes _) => bytes
  | _ => []

theorem Host.Files.bytes_congr {files other : Files} {place : Location}
    (h : other.get? place = files.get? place) : other.bytes place = files.bytes place := by
  rw [bytes, bytes, h]

namespace Log

variable {host : Host} {file : Name} {entry : Entry}

/-! ## Names -/

theorem isSafe_of_mem_replaceUnsafe {inRun : Bool} {text : List Char} {c : Char}
    (h : c ∈ replaceUnsafe inRun text) : isSafe c = true := by
  induction text generalizing inRun with
  | nil => cases h
  | cons d text ih =>
    rw [replaceUnsafe] at h
    split at h
    · rename_i hsafe
      rcases List.mem_cons.1 h with rfl | h
      · exact hsafe
      · exact ih h
    · split at h
      · exact ih h
      · rcases List.mem_cons.1 h with rfl | h
        · rfl
        · exact ih h

theorem mem_of_mem_trimPunctuation {text : List Char} {c : Char} (h : c ∈ trimPunctuation text) :
    c ∈ text := by
  have hend := (List.dropWhile_suffix isPunctuation).subset (List.mem_reverse.1 h)
  exact (List.dropWhile_suffix isPunctuation).subset (List.mem_reverse.1 hend)

/-- The name of a log has only safe characters. -/
theorem isSafe_of_mem_name? {session name : List Char} (h : name? session = some name) {c : Char}
    (hc : c ∈ name) : isSafe c = true := by
  unfold name? at h
  dsimp only at h
  split at h
  · cases h
  · cases h
    exact isSafe_of_mem_replaceUnsafe (mem_of_mem_trimPunctuation (List.mem_of_mem_take hc))

theorem isPlainName_of_fileName? {session : List Char} (h : fileName? session = some file) :
    IsPlainName file := by
  obtain ⟨name, hname, rfl⟩ := Option.map_eq_some_iff.1 h
  constructor
  · intro heq
    have hlen := congrArg List.length heq
    rw [List.length_append] at hlen
    have hextension : extension.length = 6 := rfl
    have hdots : ['.', '.'].length = 2 := rfl
    omega
  · intro hnull
    rcases List.mem_append.1 hnull with hnull | hnull
    · exact absurd (isSafe_of_mem_name? hname hnull) (by decide)
    · exact absurd hnull (by decide)

/-- The name of a log: one to 128 safe characters, the first a letter or a digit, in front of the
extension. -/
def IsLogName (file : Name) : Prop :=
  ∃ name, file = name ++ extension ∧ 1 ≤ name.length ∧ name.length ≤ 128 ∧
    (∀ c ∈ name, isSafe c = true) ∧ ∀ c ∈ name.head?, c.isAlphanum = true

theorem isAlphanum_of_isSafe {c : Char} (hsafe : isSafe c = true)
    (hpunctuation : isPunctuation c = false) : c.isAlphanum = true := by
  simp only [isSafe, isPunctuation, Bool.or_eq_true, Bool.or_eq_false_iff, decide_eq_true_eq,
    decide_eq_false_iff_not] at hsafe hpunctuation
  obtain ⟨⟨hdot, hunderscore⟩, hdash⟩ := hpunctuation
  rcases hsafe with ((h | h) | h) | h
  · exact h
  · exact absurd h hunderscore
  · exact absurd h hdot
  · exact absurd h hdash

/-- A trimmed text starts with no punctuation. -/
theorem isPunctuation_head?_trimPunctuation {text : List Char} {c : Char}
    (h : c ∈ (trimPunctuation text).head?) : isPunctuation c = false := by
  have hprefix : trimPunctuation text <+: text.dropWhile isPunctuation :=
    List.rdropWhile_prefix isPunctuation _
  obtain ⟨rest, hrest⟩ := hprefix
  obtain ⟨more, hmore⟩ := List.head?_eq_some_iff.1 (Option.mem_def.1 h)
  have hhead := List.head?_dropWhile_not isPunctuation text
  rw [← hrest, hmore] at hhead
  exact hhead

theorem isLogName_of_fileName? {session : List Char} (h : fileName? session = some file) :
    IsLogName file := by
  obtain ⟨name, hname, rfl⟩ := Option.map_eq_some_iff.1 h
  have hsafe : ∀ c ∈ name, isSafe c = true := fun c hc => isSafe_of_mem_name? hname hc
  unfold name? at hname
  dsimp only at hname
  split at hname
  · cases hname
  · rename_i hne
    cases hname
    refine ⟨_, rfl, ?_, List.length_take_le .., hsafe, fun c hc => ?_⟩
    · rw [List.isEmpty_iff] at hne
      exact List.length_pos_iff.2 hne
    · have hmem := List.mem_of_mem_head? hc
      rw [List.head?_take, if_neg (by decide)] at hc
      exact isAlphanum_of_isSafe (hsafe c hmem) (isPunctuation_head?_trimPunctuation hc)

/-- The path of a log has plain names if that of the home directory has. -/
theorem plain_path (hhome : ∀ name ∈ host.home, IsPlainName name) (hfile : IsPlainName file) :
    ∀ name ∈ directory host ++ [file], IsPlainName name := by
  have hstore : ∀ name ∈ [Config.storeName, "logs".toList], IsPlainName name := by
    intro name hname
    simp only [List.mem_cons, List.not_mem_nil, or_false] at hname
    rcases hname with rfl | rfl
    · exact ⟨by decide, by decide⟩
    · exact ⟨by decide, by decide⟩
  intro name hname
  rcases List.mem_append.1 hname with hname | hname
  · rcases List.mem_append.1 hname with hname | hname
    · exact hhome name hname
    · exact hstore name hname
  · rw [List.mem_singleton.1 hname]
    exact hfile

/-! ## Entries -/

@[simp] theorem append_home (host : Host) (file : Name) (entry : Entry) :
    (append host file entry).home = host.home := by
  unfold append
  dsimp only
  split <;> rfl

@[simp] theorem append_environment (host : Host) (file : Name) (entry : Entry) :
    (append host file entry).environment = host.environment := by
  unfold append
  dsimp only
  split <;> rfl

@[simp] theorem append_rooms (host : Host) (file : Name) (entry : Entry) :
    (append host file entry).rooms = host.rooms := by
  unfold append
  dsimp only
  split <;> rfl

@[simp] theorem directory_append (host : Host) (file : Name) (entry : Entry) :
    directory (append host file entry) = directory host := by
  rw [directory, append_home, directory]

theorem not_prefix_concat {location : Location} {name : Name} :
    ¬ location ++ [name] <+: location := by
  intro h
  have hlen := h.length_le
  rw [List.length_append, List.length_singleton] at hlen
  omega

/-- Nothing is in the way of the log. -/
def IsLoggable (host : Host) (file : Name) : Prop :=
  host.files.IsOpen (directory host) ∧ host.files.isDirectory (directory host ++ [file]) = false

/-- A file of a directory has a line more, and what stood anywhere else still stands there. Where
nothing stood on the way, there are directories now. -/
structure IsGrown (before after : Files) (directory : Location) (file : Name)
    (line : List Char) : Prop where
  made : after.IsMade directory
  written : ∃ changed, after.get? (directory ++ [file]) =
    some (.file (before.bytes (directory ++ [file]) ++ Utf8.encode line) changed)
  kept : ∀ place, place ≠ directory ++ [file] → after.get? place = before.get? place ∨
    place <+: directory ∧ before.get? place = none ∧ after.isDirectory place = true

namespace IsGrown

variable {before after : Files} {place : Location} {line : List Char}

theorem bytes_self (h : IsGrown before after place file line) :
    after.bytes (place ++ [file]) = before.bytes (place ++ [file]) ++ Utf8.encode line := by
  obtain ⟨changed, hwritten⟩ := h.written
  rw [Files.bytes, hwritten]

/-- Nothing else of the directory is changed. -/
theorem get?_other (h : IsGrown before after place file line) {other : Name} (hne : other ≠ file) :
    after.get? (place ++ [other]) = before.get? (place ++ [other]) := by
  have hplace : place ++ [other] ≠ place ++ [file] := by
    intro heq
    exact hne (List.singleton_inj.1 (List.append_cancel_left heq))
  rcases h.kept _ hplace with hsame | ⟨hway, -⟩
  · exact hsame
  · exact absurd hway not_prefix_concat

end IsGrown

theorem Files.append_eq {files : Files} {place : Location}
    (h : files.isDirectory place = false) (now : Nat) (bytes : List UInt8) :
    files.append now place bytes =
      some (files.put place (.file (files.bytes place ++ bytes) now)) := by
  unfold Files.isDirectory at h
  unfold Files.append Files.bytes
  cases hnode : files.get? place with
  | none => rfl
  | some node =>
    cases node with
    | file old changed => rfl
    | directory changed =>
      rw [hnode] at h
      cases h

/-- **An entry adds its line to the log and changes nothing else.** -/
theorem append_of_isLoggable (h : IsLoggable host file) (entry : Entry) :
    ∃ files, append host file entry = { host with files } ∧
      IsGrown host.files files (directory host) file entry.line := by
  obtain ⟨hopen, hlog⟩ := h
  obtain ⟨files, hfiles, hway⟩ := hopen.makeDirectories host.now
  have hnode : files.get? (directory host ++ [file]) =
      host.files.get? (directory host ++ [file]) := hway.kept _ not_prefix_concat
  have hne : directory host ++ [file] ≠ [] := by simp
  have hwritten := Files.append_eq (by rw [Files.isDirectory_congr hnode]; exact hlog) host.now
    (Utf8.encode entry.line)
  rw [Files.bytes_congr hnode] at hwritten
  refine ⟨files.put (directory host ++ [file])
    (.file (host.files.bytes (directory host ++ [file]) ++ Utf8.encode entry.line) host.now),
    ?_, ?_, ⟨host.now, ?_⟩, fun place hplace => ?_⟩
  · unfold append
    rw [hfiles]
    dsimp only [Option.bind_eq_bind, Option.bind_some]
    rw [hwritten]
  · intro place hplace
    have hother : place ≠ directory host ++ [file] := by
      intro heq
      rw [heq] at hplace
      exact not_prefix_concat hplace
    rw [Files.isDirectory, Files.get?_put _ _ _ _ hne, if_neg hother]
    exact hway.made place hplace
  · rw [Files.get?_put _ _ _ _ hne, if_pos rfl]
  · rw [Files.isDirectory, Files.get?_put _ _ _ _ hne, if_neg hplace]
    exact Files.get?_makeDirectories hfiles place

/-- Where something is in the way, the entry is lost. -/
theorem append_of_not_isLoggable (h : ¬ IsLoggable host file) (entry : Entry) :
    append host file entry = host := by
  unfold append
  cases hfiles : host.files.makeDirectories host.now [] (directory host) with
  | none => rfl
  | some files =>
    have hroot : host.files.IsMade [] := by
      intro place hplace
      rw [List.prefix_nil.1 hplace]
      rfl
    have hopen := Files.makeDirectories_isOpen hroot hfiles
    have hnode : files.get? (directory host ++ [file]) =
        host.files.get? (directory host ++ [file]) := by
      obtain ⟨other, hother, hway⟩ := hopen.makeDirectories host.now
      rw [List.nil_append] at hway hother
      rw [hfiles] at hother
      cases hother
      exact hway.kept _ not_prefix_concat
    have hdirectory : files.isDirectory (directory host ++ [file]) = true := by
      rw [Files.isDirectory_congr hnode]
      exact Bool.not_eq_false _ |>.mp fun hlog => h ⟨hopen, hlog⟩
    have hrefused : files.append host.now (directory host ++ [file]) (Utf8.encode entry.line) =
        none := by
      unfold Files.isDirectory at hdirectory
      unfold Files.append
      split at hdirectory
      · rename_i hplace
        rw [hplace]
      · cases hdirectory
    dsimp only [Option.bind_eq_bind, Option.bind_some]
    rw [hrefused]

/-! ## Logs behind entries -/

/-- The bytes of a log. -/
def logBytes (host : Host) (file : Name) : List UInt8 :=
  host.files.bytes (directory host ++ [file])

variable {other : Name}

theorem logBytes_append (h : IsLoggable host file) (entry : Entry) :
    logBytes (append host file entry) file = logBytes host file ++ Utf8.encode entry.line := by
  obtain ⟨files, happend, hgrown⟩ := append_of_isLoggable h entry
  rw [happend]
  exact hgrown.bytes_self

theorem logBytes_append_other (hne : other ≠ file) (entry : Entry) :
    logBytes (append host file entry) other = logBytes host other := by
  by_cases h : IsLoggable host file
  · obtain ⟨files, happend, hgrown⟩ := append_of_isLoggable h entry
    rw [happend]
    exact Files.bytes_congr (hgrown.get?_other hne)
  · rw [append_of_not_isLoggable h]

/-- Behind an entry any log is as it was, or it has the line of the entry more. -/
theorem logBytes_append_cases (host : Host) (file other : Name) (entry : Entry) :
    logBytes (append host file entry) other = logBytes host other ∨
      logBytes (append host file entry) other =
        logBytes host other ++ Utf8.encode entry.line := by
  by_cases hsame : other = file
  · by_cases h : IsLoggable host file
    · right
      rw [hsame]
      exact logBytes_append h entry
    · left
      rw [append_of_not_isLoggable h]
  · left
    exact logBytes_append_other hsame entry

/-- The way to the logs that an entry needs is made. -/
theorem isMade_append (h : IsLoggable host file) (entry : Entry) :
    (append host file entry).files.IsMade (directory host) := by
  obtain ⟨files, happend, hgrown⟩ := append_of_isLoggable h entry
  rw [happend]
  exact hgrown.made

/-- No entry makes the way to the logs worse. -/
theorem IsMade.append (h : host.files.IsMade (directory host)) (file : Name) (entry : Entry) :
    (append host file entry).files.IsMade (directory host) := by
  by_cases hloggable : IsLoggable host file
  · exact isMade_append hloggable entry
  · rw [append_of_not_isLoggable hloggable]
    exact h

/-- **No entry clears the way of a log, and none blocks it.** -/
theorem isLoggable_append_iff (host : Host) (file other : Name) (entry : Entry) :
    IsLoggable (append host file entry) other ↔ IsLoggable host other := by
  by_cases h : IsLoggable host file
  · obtain ⟨files, happend, hgrown⟩ := append_of_isLoggable h entry
    rw [happend]
    have hlog : files.isDirectory (directory host ++ [other]) =
        host.files.isDirectory (directory host ++ [other]) := by
      by_cases hsame : other = file
      · obtain ⟨changed, hwritten⟩ := hgrown.written
        rw [hsame, h.2, Files.isDirectory, hwritten]
      · exact Files.isDirectory_congr (hgrown.get?_other hsame)
    have hlogs : files.isDirectory (directory host ++ [other]) = false ↔
        host.files.isDirectory (directory host ++ [other]) = false := by rw [hlog]
    exact and_congr (iff_of_true hgrown.made.isOpen h.1) hlogs
  · rw [append_of_not_isLoggable h]

/-! ## Logs at their paths -/

/-- The entries of a log that has some bytes. -/
def entriesIn (room : Json.Room) (bytes : List UInt8) : Except Failure (List Json.Members) :=
  textOf bytes >>= entriesOf room

/-- A log on a way of directories is read as its bytes are. -/
theorem entriesAt_of_isMade (hplain : ∀ name ∈ directory host ++ [file], IsPlainName name)
    (hmade : host.files.IsMade (directory host)) :
    entriesAt host (path host file) = entriesIn host.rooms.log (logBytes host file) := by
  have hway : host.files.IsMade (directory host ++ [file]).dropLast := by
    rw [List.dropLast_concat]
    exact hmade
  have hfind : host.find? (path host file) = host.files.get? (directory host ++ [file]) :=
    find?_ofLocation hplain (.inr hway)
  rw [entriesAt, contents, hfind, logBytes, Files.bytes]
  cases host.files.get? (directory host ++ [file]) with
  | none => rfl
  | some node =>
    cases node with
    | directory changed => rfl
    | file bytes changed =>
      dsimp only
      unfold entriesIn
      cases textOf bytes with
      | error failure => rfl
      | ok text => rfl

/-- Any other log is read as one without entries. -/
theorem entriesAt_of_not_isMade (hplain : ∀ name ∈ directory host ++ [file], IsPlainName name)
    (hmade : ¬ host.files.IsMade (directory host)) :
    entriesAt host (path host file) = .ok [] := by
  have hfind : host.find? (path host file) = none := by
    cases hnode : host.find? (path host file) with
    | none => rfl
    | some node =>
      have hway := ((find?_eq_some_iff hplain).1 hnode).2
      rw [List.dropLast_concat] at hway
      exact absurd hway hmade
  rw [entriesAt, contents, hfind]
  rfl

end Log

end CompactShell
