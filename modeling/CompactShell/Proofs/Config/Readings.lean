import CompactShell.Config.File
import CompactShell.Proofs.Json.Nesting

/-!
# Two readings of a configuration

A file is read by the check, which reports what is wrong with it, and by the hook, which goes by it.
Each goes its own way through the file. They come to the same: the hook reads what the check accepts
(`fromText?_eq`, `load?_of_check`). How much room each has for nested values makes no difference as
long as neither is refused for it (`ofText_cases`, `inForce?_congr`).
-/

namespace CompactShell.Config

open Host Json Text

variable {room : Room} {text : List Char}

/-! ## Texts -/

/-- **The configuration that is read of a text is the one that a check accepts.** -/
theorem fromText?_eq (room : Room) (text : List Char) :
    fromText? room text = (ofText room text).map Except.toOption := by
  unfold fromText? ofText
  split
  · rfl
  · cases readWithin room text with
    | error fault =>
      cases fault with
      | malformed cause left => rfl
      | refused refusal => rfl
    | ok v =>
      cases v with
      | obj members =>
        dsimp only
        cases ofMembers? members with
        | error fault => rfl
        | ok config => rfl
      | null | bool | int | real | str | arr => rfl

/-- A text is checked as it is without a limit, or there is no room for it. -/
theorem ofText_cases (room : Room) (text : List Char) :
    ofText room text = ofText none text ∨
      ∃ refusal, ofText room text = .error (.refused refusal) := by
  unfold ofText
  split
  · exact .inl rfl
  · rcases readWithin_cases room text with hsame | ⟨refusal, -, hfull⟩
    · rw [hsame]
      exact .inl rfl
    · rw [hfull]
      exact .inr ⟨refusal, rfl⟩

theorem ofText_of_ok {result : Except Problem Config} (h : ofText room text = .ok result) :
    ofText none text = .ok result := by
  rcases ofText_cases room text with hsame | ⟨refusal, hfull⟩
  · rw [← hsame, h]
  · rw [hfull] at h
    cases h

/-- Whatever the room, a configuration that is read of a text is the one that a check accepts
without a limit. -/
theorem ofText_of_fromText? {config : Option Config} (h : fromText? room text = .ok config) :
    (ofText none text).map Except.toOption = .ok config := by
  rw [fromText?_eq] at h
  obtain ⟨result, hresult, rfl⟩ := map_ok h
  rw [ofText_of_ok hresult]
  rfl

/-! ## Files -/

variable {host : Host} {path : Path}

/-- What is made of a file that is used. -/
theorem load?_eq (host : Host) (path : Path) :
    load? host path =
      host.contentsIfThere path >>= fun
        | .text text => fromText? host.rooms.config text
        | .missing | .directory => .ok none := by
  unfold load? contentsIfThere
  cases host.isThere? path with
  | error failure => rfl
  | ok isThere =>
    cases isThere with
    | false => rfl
    | true => rfl

/-- **The hook reads what the check accepts.** -/
theorem load?_of_check {shown : List Char} {result : Except Problem Config}
    {loaded : Option Config} (hcheck : check host shown path = .ok result)
    (hload : load? host path = .ok loaded) : loaded = result.toOption := by
  rw [load?_eq] at hload
  unfold check at hcheck
  cases hcontents : host.contentsIfThere path with
  | error failure =>
    rw [hcontents] at hload
    cases hload
  | ok contents =>
    rw [hcontents] at hload hcheck
    cases contents with
    | missing =>
      cases hload
      cases hcheck
      rfl
    | directory =>
      cases hload
      cases hcheck
      rfl
    | text text =>
      have htext := ofText_of_fromText? hload
      rw [ofText_of_ok hcheck] at htext
      exact (Except.ok.inj htext).symm

section Rooms

variable {rooms : Rooms}

/-- A file that is read with other room is read as the same configuration. -/
theorem load?_congr {loaded other : Option Config} (h : load? host path = .ok loaded)
    (hother : load? { host with rooms } path = .ok other) : other = loaded := by
  rw [load?_eq] at h hother
  have hsame : contentsIfThere { host with rooms } path = host.contentsIfThere path := rfl
  rw [hsame] at hother
  cases hcontents : host.contentsIfThere path with
  | error failure =>
    rw [hcontents] at h
    cases h
  | ok contents =>
    rw [hcontents] at h hother
    cases contents with
    | missing =>
      cases h
      cases hother
      rfl
    | directory =>
      cases h
      cases hother
      rfl
    | text text =>
      have htext := ofText_of_fromText? h
      rw [ofText_of_fromText? hother] at htext
      exact Except.ok.inj htext

theorem inForce?_none (host : Host) :
    inForce? host none = (load? host (userPath host)).map fun user => mergeScopes user none := by
  unfold inForce?
  cases load? host (userPath host) with
  | error failure => rfl
  | ok user => rfl

theorem inForce?_some (host : Host) {directory : List Char} (h : directory ≠ []) :
    inForce? host (some directory) =
      load? host (userPath host) >>= fun user =>
        (load? host (projectPath (Path.ofText directory))).map (mergeScopes user) := by
  unfold inForce?
  cases directory with
  | nil => exact absurd rfl h
  | cons c rest =>
    cases load? host (userPath host) with
    | error failure => rfl
    | ok user =>
      dsimp only [bind, Except.bind]
      cases load? host (projectPath (Path.ofText (c :: rest))) with
      | error failure => rfl
      | ok project => rfl

/-- The configuration in force in a directory is that of the user and that of the project. -/
theorem inForce?_eq_ok {directory : List Char} (hne : directory ≠ []) {config : Option Config}
    (h : inForce? host (some directory) = .ok config) :
    ∃ user project, load? host (userPath host) = .ok user ∧
      load? host (projectPath (Path.ofText directory)) = .ok project ∧
      config = mergeScopes user project := by
  rw [inForce?_some host hne] at h
  cases huser : load? host (userPath host) with
  | error failure =>
    rw [huser] at h
    cases h
  | ok user =>
    rw [huser] at h
    obtain ⟨project, hproject, rfl⟩ := map_ok h
    exact ⟨user, project, rfl, hproject, rfl⟩

/-- **The configuration in force does not depend on the room that it is read with.** -/
theorem inForce?_congr {directory : List Char} (hne : directory ≠ [])
    {config other : Option Config} (h : inForce? host (some directory) = .ok config)
    (hother : inForce? { host with rooms } (some directory) = .ok other) : other = config := by
  obtain ⟨user, project, huser, hproject, rfl⟩ := inForce?_eq_ok hne h
  obtain ⟨user', project', huser', hproject', rfl⟩ := inForce?_eq_ok hne hother
  rw [load?_congr huser huser', load?_congr hproject hproject']

end Rooms

end CompactShell.Config
