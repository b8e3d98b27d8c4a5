import CompactShell.Config.File
import CompactShell.Proofs.Json.RoundTrip

/-!
# Which configurations are accepted

A configuration is accepted from some object exactly if the rules that it disables are built-in ones
and each comes once (`isAccepted_iff`). Such a configuration can be written as an object again, and
a file with that text gives the same configuration (`IsAccepted.ofText_write`).
-/

namespace CompactShell.Config

open Json Text

variable {config : Config} {labels : List String}

/-! ## Disabled rules -/

/-- The labels of some built-in rules, each once. -/
structure AreRules (labels : List String) : Prop where
  nodup : labels.Nodup
  subset : labels ⊆ Rule.labels

theorem isEmpty_label {label : String} (h : label ∈ Rule.labels) : label.isEmpty = false := by
  have hall : ∀ label ∈ Rule.labels, label.isEmpty = false := by decide
  exact hall label h

/-- An entry is in order if it is the label of a rule that did not come before. -/
theorem entryFault?_eq_none_iff {seen : List String} {entry : Value} :
    entryFault? seen entry = none ↔
      ∃ label, entry = .str label ∧ label ∈ Rule.labels ∧ label ∉ seen := by
  constructor
  · intro h
    unfold entryFault? at h
    split at h
    · rename_i label
      split at h
      · cases h
      · split at h
        · cases h
        · rename_i hknown
          split at h
          · cases h
          · rename_i hnew
            refine ⟨label, rfl, ?_, ?_⟩
            · rw [Bool.not_eq_true', Bool.not_eq_false] at hknown
              exact List.contains_iff_mem.1 hknown
            · exact fun hmem => hnew (List.contains_iff_mem.2 hmem)
    · cases h
  · intro h
    obtain ⟨label, rfl, hknown, hnew⟩ := h
    have hseen : seen.contains label = false :=
      Bool.eq_false_iff.2 fun h => hnew (List.contains_iff_mem.1 h)
    rw [entryFault?, isEmpty_label hknown, List.contains_iff_mem.2 hknown, hseen]
    rfl

/-- No entry is wrong exactly if the entries are labels of rules, each new where it stands. -/
theorem entryFaults_eq_nil_iff {position : Nat} {seen : List String} {entries : List Value} :
    entryFaults position seen entries = [] ↔
      ∃ labels, entries = labels.map .str ∧ AreRules labels ∧ ∀ label ∈ labels, label ∉ seen := by
  induction entries generalizing position seen with
  | nil =>
    refine iff_of_true rfl ⟨[], rfl, ⟨List.nodup_nil, List.nil_subset _⟩, ?_⟩
    intro label hlabel
    cases hlabel
  | cons entry rest ih =>
    constructor
    · intro h
      rw [entryFaults] at h
      split at h
      · cases h
      · rename_i hentry
        obtain ⟨label, rfl, hknown, hnew⟩ := entryFault?_eq_none_iff.1 hentry
        obtain ⟨labels, rfl, hrules, hseen⟩ := ih.1 h
        have hother : label ∉ labels := fun hmem => hseen label hmem (List.mem_cons_self ..)
        refine ⟨label :: labels, rfl, ⟨List.nodup_cons.2 ⟨hother, hrules.nodup⟩,
          List.cons_subset.2 ⟨hknown, hrules.subset⟩⟩, List.forall_mem_cons.2 ⟨hnew, ?_⟩⟩
        exact fun other hmem hin => hseen other hmem (List.mem_cons_of_mem _ hin)
    · intro h
      obtain ⟨labels, hentries, hrules, hseen⟩ := h
      cases labels with
      | nil => cases hentries
      | cons label labels =>
        cases hentries
        obtain ⟨hother, hnodup⟩ := List.nodup_cons.1 hrules.nodup
        obtain ⟨hknown, hsubset⟩ := List.cons_subset.1 hrules.subset
        obtain ⟨hnew, hrest⟩ := List.forall_mem_cons.1 hseen
        have hentry := entryFault?_eq_none_iff.2 ⟨label, rfl, hknown, hnew⟩
        rw [entryFaults, hentry]
        refine ih.2 ⟨labels, rfl, ⟨hnodup, hsubset⟩, fun other hmem hin => ?_⟩
        rcases List.mem_cons.1 hin with rfl | hin
        · exact hother hmem
        · exact hrest other hmem hin

theorem map_labelOf (labels : List String) : (labels.map Value.str).map labelOf = labels := by
  rw [List.map_map]
  exact List.map_id labels

/-- **A value lists rules exactly if it is an array of their labels, each once.** -/
theorem rulesOf?_eq_ok_iff {entries : Value} :
    rulesOf? entries = .ok labels ↔ entries = .arr (labels.map .str) ∧ AreRules labels := by
  constructor
  · intro h
    unfold rulesOf? at h
    split at h
    · split at h
      · rename_i hfaults
        obtain ⟨listed, rfl, hrules, -⟩ := entryFaults_eq_nil_iff.1 hfaults
        cases h
        rw [map_labelOf]
        exact ⟨rfl, hrules⟩
      · cases h
    · cases h
  · intro h
    obtain ⟨rfl, hrules⟩ := h
    have hfaults : entryFaults 0 [] (labels.map Value.str) = [] :=
      entryFaults_eq_nil_iff.2 ⟨labels, rfl, hrules, fun _ _ => List.not_mem_nil⟩
    rw [rulesOf?, hfaults]
    exact congrArg Except.ok (map_labelOf labels)

/-! ## Configurations -/

/-- Some object sets the configuration. -/
def IsAccepted (config : Config) : Prop :=
  ∃ members, ofMembers? members = .ok config

/-- The object that a configuration is written as. What is not set is left out. -/
def members (config : Config) : Members :=
  ("version", .int version) ::
    (config.settings.map fun (name, value) => (name, .bool value)) ++
      [("disabled_rules", .arr (config.disabledRules.map .str))]

/-- The object of a configuration sets it. -/
theorem ofMembers?_members (h : AreRules config.disabledRules) :
    ofMembers? config.members = .ok config := by
  obtain ⟨enabled, throughOperators, disabled⟩ := config
  have hrules : rulesOf? (.arr (disabled.map .str)) = .ok disabled :=
    rulesOf?_eq_ok_iff.2 ⟨rfl, h⟩
  -- each switch is found in its place, or nothing is found for it
  have hread : ofMembers? (members ⟨enabled, throughOperators, disabled⟩) =
      (rulesOf? (.arr (disabled.map .str))).map fun disabled =>
        ⟨enabled, throughOperators, disabled⟩ := by
    cases enabled with
    | none =>
      cases throughOperators with
      | none => rfl
      | some throughOperators => rfl
    | some enabled =>
      cases throughOperators with
      | none => rfl
      | some throughOperators => rfl
  rw [hread, hrules]
  rfl

/-- What goes on to a result has started with one. -/
theorem bind_eq_ok {α β ε : Type} {result : Except ε α} {next : α → Except ε β} {b : β}
    (h : result >>= next = .ok b) : ∃ a, result = .ok a ∧ next a = .ok b := by
  cases result with
  | error fault => cases h
  | ok a => exact ⟨a, rfl, h⟩

/-- **Which configurations are accepted.** -/
theorem isAccepted_iff : IsAccepted config ↔ AreRules config.disabledRules := by
  constructor
  · intro h
    obtain ⟨members, hmembers⟩ := h
    obtain ⟨_, -, hswitches⟩ := bind_eq_ok hmembers
    obtain ⟨enabled, -, hswitches⟩ := bind_eq_ok hswitches
    obtain ⟨throughOperators, -, hrules⟩ := bind_eq_ok hswitches
    obtain ⟨disabled, hdisabled, hconfig⟩ := bind_eq_ok hrules
    cases hconfig
    exact (rulesOf?_eq_ok_iff.1 hdisabled).2
  · exact fun h => ⟨config.members, ofMembers?_members h⟩

theorem isAccepted_unset : IsAccepted unset :=
  isAccepted_iff.2 ⟨List.nodup_nil, List.nil_subset _⟩

theorem isExact_members (config : Config) : (Value.obj config.members).IsExact := by
  obtain ⟨enabled, throughOperators, disabled⟩ := config
  have hnames : ((members ⟨enabled, throughOperators, disabled⟩).map Prod.fst).Nodup := by
    cases enabled with
    | none =>
      cases throughOperators with
      | none => show ["version", "disabled_rules"].Nodup; decide
      | some _ =>
        show ["version", "rewrite_through_operators", "disabled_rules"].Nodup
        decide
    | some _ =>
      cases throughOperators with
      | none => show ["version", "enabled", "disabled_rules"].Nodup; decide
      | some _ =>
        show ["version", "enabled", "rewrite_through_operators", "disabled_rules"].Nodup
        decide
  refine .obj _ hnames fun member hmember => ?_
  rcases List.mem_append.1 hmember with hmember | hmember
  · rcases List.mem_cons.1 hmember with rfl | hmember
    · exact .int _ (by decide)
    · obtain ⟨⟨name, value⟩, -, rfl⟩ := List.mem_map.1 hmember
      exact .bool value
  · rw [List.mem_singleton.1 hmember]
    refine .arr _ fun item hitem => ?_
    obtain ⟨label, -, rfl⟩ := List.mem_map.1 hitem
    exact .str label

/-- Only the list of rules stands in a configuration. -/
theorem depth_members_le (config : Config) : (Value.obj config.members).depth ≤ 2 := by
  refine Nat.succ_le_succ (depthMembers_le fun member hmember => ?_)
  rcases List.mem_append.1 hmember with hmember | hmember
  · rcases List.mem_cons.1 hmember with rfl | hmember
    · exact Nat.zero_le 1
    · obtain ⟨⟨name, value⟩, -, rfl⟩ := List.mem_map.1 hmember
      exact Nat.zero_le 1
  · rw [List.mem_singleton.1 hmember]
    refine Nat.succ_le_succ (depthItems_le fun item hitem => ?_)
    obtain ⟨label, -, rfl⟩ := List.mem_map.1 hitem
    exact Nat.le_refl 0

/-- **An accepted configuration is read from the text that it is written as.** -/
theorem IsAccepted.ofText_write (h : IsAccepted config) {room : Room} (hroom : room.Holds 2) :
    ofText room (write (.obj config.members)) = .ok (.ok config) := by
  have hwhite : isWhite (write (.obj config.members)) = false := rfl
  rw [ofText, hwhite, if_neg Bool.false_ne_true,
    readWithin_write config.isExact_members (hroom.mono config.depth_members_le)]
  dsimp only
  rw [ofMembers?_members (isAccepted_iff.1 h)]
  rfl

end CompactShell.Config
