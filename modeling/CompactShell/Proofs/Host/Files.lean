import CompactShell.Host.Basic

/-!
# Directories on the way to a place

A place can be made if every place on the way to it is a directory or still free
(`Files.IsOpen`). Making the directories then succeeds, leaves a directory everywhere on the way,
and changes nothing anywhere else (`makeDirectories_spec`). It succeeds in no other case
(`makeDirectories_isOpen`), and what stands somewhere is never changed by it
(`get?_makeDirectories`). A path of plain names is followed to the place of the same names, where
all the places on the way are directories (`find?_ofLocation`, `find?_eq_some_iff`).
-/

namespace CompactShell.Host

namespace Files

/-- On the way to the place, the place included, there are only directories and free places. -/
def IsOpen (files : Files) (location : Location) : Prop :=
  ∀ place, place <+: location → files.get? place = none ∨ files.isDirectory place = true

/-- There are directories all the way to the place, the place included. -/
def IsMade (files : Files) (location : Location) : Prop :=
  ∀ place, place <+: location → files.isDirectory place = true

theorem isDirectory_nil (files : Files) : files.isDirectory [] = true :=
  rfl

theorem isDirectory_congr {files other : Files} {place : Location}
    (h : other.get? place = files.get? place) :
    other.isDirectory place = files.isDirectory place := by
  rw [isDirectory, isDirectory, h]

theorem IsMade.isOpen {files : Files} {location : Location} (h : files.IsMade location) :
    files.IsOpen location :=
  fun place hplace => .inr (h place hplace)

theorem isMade_concat {files : Files} {location : Location} {name : Name} :
    files.IsMade (location ++ [name]) ↔
      files.IsMade location ∧ files.isDirectory (location ++ [name]) = true := by
  constructor
  · intro h
    exact ⟨fun place hplace => h place (hplace.trans (List.prefix_append location [name])),
      h _ (List.prefix_refl _)⟩
  · rintro ⟨hmade, hlast⟩ place hplace
    rcases List.prefix_concat_iff.1 hplace with rfl | hplace
    · exact hlast
    · exact hmade place hplace

/-- A directory made where nothing stands yet is the only place that changes. -/
theorem put_directory_spec {files : Files} {location : Location} (now : Nat) (hne : location ≠ [])
    (hopen : files.get? location = none ∨ files.isDirectory location = true) :
    let next :=
      if (files.get? location).isNone then files.put location (.directory now) else files
    next.isDirectory location = true ∧
      ∀ place, place ≠ location → next.get? place = files.get? place := by
  intro next
  by_cases hnone : (files.get? location).isNone = true
  · have hnext : next = files.put location (.directory now) := if_pos hnone
    constructor
    · rw [hnext, isDirectory, get?_put _ _ _ _ hne, if_pos rfl]
    · intro place hplace
      rw [hnext, get?_put _ _ _ _ hne, if_neg hplace]
  · have hnext : next = files := if_neg hnone
    rw [hnext]
    refine ⟨?_, fun _ _ => rfl⟩
    rcases hopen with hfree | hdirectory
    · rw [hfree] at hnone
      exact absurd rfl hnone
    · exact hdirectory

/-- What making directories leaves: a directory everywhere on the way, and all else as it was. -/
structure IsWay (before after : Files) (location : Location) : Prop where
  made : after.IsMade location
  kept : ∀ place, ¬ place <+: location → after.get? place = before.get? place

/-- **Directories can be made on an open way.** -/
theorem makeDirectories_spec {files : Files} {done rest : Location} (now : Nat)
    (hdone : files.IsMade done) (hopen : files.IsOpen (done ++ rest)) :
    ∃ after, files.makeDirectories now done rest = some after ∧
      IsWay files after (done ++ rest) := by
  induction rest generalizing files done with
  | nil =>
    rw [List.append_nil]
    refine ⟨files, ?_, hdone, fun _ _ => rfl⟩
    rw [makeDirectories, if_pos (hdone done (List.prefix_refl done))]
  | cons name rest ih =>
    rw [List.append_cons] at hopen ⊢
    have hprefix : done ++ [name] <+: done ++ [name] ++ rest := List.prefix_append _ _
    have hne : done ++ [name] ≠ [] := List.append_ne_nil_of_right_ne_nil done (by simp)
    rw [makeDirectories, if_pos (hdone done (List.prefix_refl done))]
    obtain ⟨hdirectory, hkept⟩ := put_directory_spec now hne (hopen _ hprefix)
    dsimp only
    generalize (if (files.get? (done ++ [name])).isNone = true then
      files.put (done ++ [name]) (.directory now) else files) = next at hdirectory hkept ⊢
    have hkept' : ∀ place, place ≠ done ++ [name] →
        next.isDirectory place = files.isDirectory place := fun place hplace =>
      isDirectory_congr (hkept place hplace)
    have hmade : next.IsMade (done ++ [name]) := by
      refine isMade_concat.2 ⟨fun place hplace => ?_, hdirectory⟩
      have hshort : place ≠ done ++ [name] := by
        rintro rfl
        have hlen := hplace.length_le
        rw [List.length_append, List.length_singleton] at hlen
        omega
      rw [hkept' place hshort, hdone place hplace]
    have hstill : next.IsOpen (done ++ [name] ++ rest) := by
      intro place hplace
      by_cases hsame : place = done ++ [name]
      · exact .inr (hsame ▸ hdirectory)
      · rw [hkept place hsame, hkept' place hsame]
        exact hopen place hplace
    obtain ⟨after, hafter, hway⟩ := ih hmade hstill
    refine ⟨after, hafter, hway.made, fun place hplace => ?_⟩
    rw [hway.kept place hplace, hkept place]
    rintro rfl
    exact hplace hprefix

theorem IsOpen.makeDirectories {files : Files} {location : Location}
    (h : files.IsOpen location) (now : Nat) :
    ∃ after, files.makeDirectories now [] location = some after ∧ IsWay files after location := by
  have hroot : files.IsMade [] := by
    intro place hplace
    rw [List.prefix_nil.1 hplace]
    rfl
  exact makeDirectories_spec now hroot h

/-- Only a free place changes when its directory is made. -/
theorem get?_put_directory (files : Files) {location : Location} (now : Nat)
    (hne : location ≠ []) (place : Location) :
    let next :=
      if (files.get? location).isNone then files.put location (.directory now) else files
    next.get? place = files.get? place ∨
      place = location ∧ files.get? place = none ∧ next.isDirectory place = true := by
  intro next
  by_cases hnone : (files.get? location).isNone = true
  · have hnext : next = files.put location (.directory now) := if_pos hnone
    by_cases hplace : place = location
    · refine .inr ⟨hplace, by rw [hplace]; exact Option.isNone_iff_eq_none.1 hnone, ?_⟩
      rw [hnext, isDirectory, get?_put _ _ _ _ hne, if_pos hplace]
    · left
      rw [hnext, get?_put _ _ _ _ hne, if_neg hplace]
  · left
    have hnext : next = files := if_neg hnone
    rw [hnext]

/-- **Making directories changes nothing that is there.** -/
theorem get?_makeDirectories {files after : Files} {done rest : Location} {now : Nat}
    (h : files.makeDirectories now done rest = some after) (place : Location) :
    after.get? place = files.get? place ∨
      place <+: done ++ rest ∧ files.get? place = none ∧ after.isDirectory place = true := by
  induction rest generalizing files done with
  | nil =>
    rw [makeDirectories] at h
    split at h
    · cases h
      exact .inl rfl
    · cases h
  | cons name rest ih =>
    rw [makeDirectories] at h
    split at h
    · have hne : done ++ [name] ≠ [] := by simp
      have hstep := get?_put_directory files now hne place
      dsimp only at h hstep
      generalize (if (files.get? (done ++ [name])).isNone = true then
        files.put (done ++ [name]) (.directory now) else files) = next at h hstep
      rw [List.append_cons]
      rcases hstep with hsame | ⟨rfl, hfree, hmade⟩
      · rw [← hsame]
        exact ih h
      · -- the rest of the way is made below, so the new directory stays
        refine .inr ⟨List.prefix_append _ _, hfree, ?_⟩
        rcases ih h with hsame | ⟨-, -, hmade⟩
        · rw [isDirectory_congr hsame]
          exact hmade
        · exact hmade
    · cases h

theorem isDirectory_of_makeDirectories {files after : Files} {done rest : Location} {now : Nat}
    (h : files.makeDirectories now done rest = some after) : files.isDirectory done = true := by
  cases rest with
  | nil =>
    rw [makeDirectories] at h
    split at h
    · assumption
    · cases h
  | cons name rest =>
    rw [makeDirectories] at h
    split at h
    · assumption
    · cases h

/-- Directories that could be made are there. -/
theorem isMade_of_makeDirectories {files after : Files} {done rest : Location} {now : Nat}
    (hdone : files.IsMade done) (h : files.makeDirectories now done rest = some after) :
    after.IsMade (done ++ rest) := by
  induction rest generalizing files done with
  | nil =>
    rw [makeDirectories, if_pos (hdone done (List.prefix_refl done))] at h
    cases h
    rw [List.append_nil]
    exact hdone
  | cons name rest ih =>
    rw [makeDirectories, if_pos (hdone done (List.prefix_refl done))] at h
    have hne : done ++ [name] ≠ [] := by simp
    have hstep := get?_put_directory files now hne
    dsimp only at h hstep
    generalize (if (files.get? (done ++ [name])).isNone = true then
      files.put (done ++ [name]) (.directory now) else files) = next at h hstep
    have hstill : next.IsMade done := by
      intro place hplace
      rcases hstep place with hsame | ⟨-, -, hmade⟩
      · rw [isDirectory_congr hsame]
        exact hdone place hplace
      · exact hmade
    rw [List.append_cons]
    exact ih (isMade_concat.2 ⟨hstill, isDirectory_of_makeDirectories h⟩) h

/-- **Directories cannot be made through a file.** -/
theorem makeDirectories_isOpen {files after : Files} {done rest : Location} {now : Nat}
    (hdone : files.IsMade done) (h : files.makeDirectories now done rest = some after) :
    files.IsOpen (done ++ rest) := by
  intro place hplace
  obtain hback | ⟨-, hnone, -⟩ := get?_makeDirectories h place
  · right
    rw [← isDirectory_congr hback]
    exact isMade_of_makeDirectories hdone h place hplace
  · exact .inl hnone

/-! ## Following a path -/

/-- Names that no path gives another meaning: none of them leads up. -/
theorem walk_of_isMade {files : Files} {location : Location} {names : List Name}
    (hup : ['.', '.'] ∉ names) (hmade : files.IsMade (location ++ names).dropLast) :
    files.walk location names =
      if (files.get? (location ++ names)).isSome then some (location ++ names) else none := by
  induction names generalizing location with
  | nil => rw [walk, List.append_nil]
  | cons name names ih =>
    rw [List.mem_cons, not_or] at hup
    have hprefix : location <+: (location ++ name :: names).dropLast := by
      rw [List.dropLast_append_cons]
      exact List.prefix_append _ _
    have hdirectory : files.isDirectory location = true := hmade location hprefix
    rw [List.append_cons] at hmade
    rw [walk, hdirectory, Bool.not_true, if_neg Bool.false_ne_true, if_neg (Ne.symm hup.1),
      ih hup.2 hmade, ← List.append_cons]

theorem walk_of_get?_eq_none {files : Files} {location : Location} {names : List Name}
    (hup : ['.', '.'] ∉ names) (hnone : files.get? (location ++ names) = none) :
    files.walk location names = none := by
  induction names generalizing location with
  | nil =>
    rw [List.append_nil] at hnone
    rw [walk, hnone]
    rfl
  | cons name names ih =>
    rw [List.mem_cons, not_or] at hup
    rw [List.append_cons] at hnone
    rw [walk, if_neg (Ne.symm hup.1), ih hup.2 hnone, ite_self]

/-- What a path is followed to is the place of its names, and on the way are directories. -/
theorem walk_eq_some {files : Files} {location place : Location} {names : List Name}
    (hup : ['.', '.'] ∉ names) (h : files.walk location names = some place) :
    place = location ++ names ∧
      ∀ front, front <+: names → front ≠ names → files.isDirectory (location ++ front) = true := by
  induction names generalizing location with
  | nil =>
    rw [walk] at h
    split at h
    · cases h
      refine ⟨(List.append_nil _).symm, fun front hfront hne => ?_⟩
      exact absurd (List.prefix_nil.1 hfront) hne
    · cases h
  | cons name names ih =>
    rw [List.mem_cons, not_or] at hup
    rw [walk, if_neg (Ne.symm hup.1)] at h
    split at h
    · cases h
    · rename_i hdirectory
      rw [Bool.not_eq_true, Bool.not_eq_false'] at hdirectory
      obtain ⟨hplace, hway⟩ := ih hup.2 h
      rw [← List.append_cons] at hplace
      refine ⟨hplace, fun front hfront hne => ?_⟩
      cases front with
      | nil =>
        rw [List.append_nil]
        exact hdirectory
      | cons first front =>
        obtain ⟨rfl, hrest⟩ := List.cons_prefix_cons.1 hfront
        rw [List.append_cons]
        exact hway front hrest fun heq => hne (congrArg _ heq)

end Files

/-- A name that stands for itself in a path: it does not lead up, and it has no null character. -/
def IsPlainName (name : Name) : Prop :=
  name ≠ ['.', '.'] ∧ '\x00' ∉ name

variable {host : Host} {location : Location}

theorem up_not_mem (hplain : ∀ name ∈ location, IsPlainName name) : ['.', '.'] ∉ location :=
  fun hmem => (hplain _ hmem).1 rfl

theorem locate?_ofLocation (hplain : ∀ name ∈ location, IsPlainName name) :
    host.locate? (.ofLocation location) = host.files.walk [] location := by
  have hnull : (Path.ofLocation location).hasNull = false :=
    List.any_eq_false.2 fun name hname hmem => (hplain name hname).2 (List.elem_iff.1 hmem)
  rw [locate?, hnull, if_neg Bool.false_ne_true]
  rfl

theorem find?_ofLocation (hplain : ∀ name ∈ location, IsPlainName name)
    (hmade : host.files.get? location = none ∨ host.files.IsMade location.dropLast) :
    host.find? (.ofLocation location) = host.files.get? location := by
  have hup := up_not_mem hplain
  rw [find?, locate?_ofLocation hplain]
  rcases hmade with hnone | hmade
  · rw [Files.walk_of_get?_eq_none hup hnone, hnone]
    rfl
  · rw [Files.walk_of_isMade hup hmade, List.nil_append]
    cases hget : host.files.get? location with
    | none => rfl
    | some node => exact hget

/-- **A path of plain names leads to what stands at its place, on a way of directories.** -/
theorem find?_eq_some_iff (hplain : ∀ name ∈ location, IsPlainName name) {node : Node} :
    host.find? (.ofLocation location) = some node ↔
      host.files.get? location = some node ∧ host.files.IsMade location.dropLast := by
  constructor
  · intro h
    rw [find?, locate?_ofLocation hplain] at h
    obtain ⟨place, hwalk, hnode⟩ := Option.bind_eq_some_iff.1 h
    obtain ⟨hsame, hway⟩ := Files.walk_eq_some (up_not_mem hplain) hwalk
    rw [hsame] at hnode
    refine ⟨hnode, fun place hplace => ?_⟩
    by_cases hroot : place = []
    · rw [hroot]
      exact Files.isDirectory_nil _
    · refine hway place (hplace.trans (List.dropLast_prefix location)) fun heq => hroot ?_
      -- a place that is on the way to itself is the root
      have hlen := hplace.length_le
      rw [heq, List.length_dropLast] at hlen
      exact List.length_eq_zero_iff.1 (by rw [heq]; omega)
  · intro hboth
    obtain ⟨hnode, hmade⟩ := hboth
    rw [find?_ofLocation hplain (.inr hmade), hnode]

end CompactShell.Host
