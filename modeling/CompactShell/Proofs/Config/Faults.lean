import CompactShell.Proofs.Config.Accepted
import CompactShell.Proofs.Json.Taken

/-!
# What is wrong with disabled rules

An array of disabled rules is read from front to back, and each entry is held against the labels that
were accepted in front of it. `Offends` says what is wrong with an entry without that list of labels,
from the entries in front alone (`Keeps.entryFault?_eq_some_iff`). So the faults that are found are
those of the wrong entries, each once and in their order (`areFaults_entryFaults`), and a
configuration with nothing else wrong is accepted exactly if there are none
(`IsValidBut.ofText_eq_ok_iff`).
-/

namespace CompactShell.Config

open Json

variable {front rest entries : List Value} {seen : List String} {entry : Value}
  {fault : EntryFault} {position : Nat}

/-! ## Wrong entries -/

/-- What is wrong with an entry behind others. A label that was accepted in front is that of a rule,
and it was accepted where it first stood. -/
inductive Offends (front : List Value) : Value → EntryFault → Prop where
  | notText {entry : Value} : (∀ label, entry ≠ .str label) → Offends front entry .notText
  | empty : Offends front (.str "") .empty
  | unknown {label : String} : label ≠ "" → label ∉ Rule.labels →
      Offends front (.str label) (.unknown label)
  | repeated {label : String} : label ∈ Rule.labels → .str label ∈ front →
      Offends front (.str label) (.repeated label)

/-- What is wrong with the entry at a position. -/
def OffendsAt (entries : List Value) (position : Nat) (fault : EntryFault) : Prop :=
  ∃ entry, entries[position]? = some entry ∧ Offends (entries.take position) entry fault

/-- The wrong entries of an array with their positions, each once and in order. -/
structure AreFaults (entries : List Value) (faults : List (Nat × EntryFault)) : Prop where
  ordered : (faults.map Prod.fst).Pairwise (· < ·)
  complete : ∀ position fault, (position, fault) ∈ faults ↔ OffendsAt entries position fault

theorem offendsAt_length_iff :
    OffendsAt (front ++ entry :: rest) front.length fault ↔ Offends front entry fault := by
  rw [OffendsAt, List.take_left, List.getElem?_append_right (Nat.le_refl _), Nat.sub_self,
    List.getElem?_cons_zero]
  constructor
  · intro h
    obtain ⟨other, hother, hoffends⟩ := h
    cases hother
    exact hoffends
  · exact fun h => ⟨entry, rfl, h⟩

/-- The labels that are kept are those that were accepted in front. -/
def Keeps (seen : List String) (front : List Value) : Prop :=
  ∀ label, label ∈ seen ↔ label ∈ Rule.labels ∧ .str label ∈ front

theorem Keeps.entryFault?_eq_some_iff (h : Keeps seen front) :
    entryFault? seen entry = some fault ↔ Offends front entry fault := by
  constructor
  · intro hfault
    unfold entryFault? at hfault
    split at hfault
    · rename_i label
      split at hfault
      · rename_i hempty
        cases hfault
        rw [String.isEmpty_iff.1 hempty]
        exact .empty
      · rename_i hsome
        split at hfault
        · rename_i hunknown
          cases hfault
          refine .unknown (fun hnil => hsome (String.isEmpty_iff.2 hnil)) fun hknown => ?_
          rw [List.contains_iff_mem.2 hknown] at hunknown
          cases hunknown
        · split at hfault
          · rename_i hseen
            cases hfault
            obtain ⟨hknown, hfront⟩ := (h label).1 (List.contains_iff_mem.1 hseen)
            exact .repeated hknown hfront
          · cases hfault
    · rename_i hother
      cases hfault
      exact .notText hother
  · intro hoffends
    cases hoffends with
    | notText hother =>
      unfold entryFault?
      split
      · rename_i label
        exact absurd rfl (hother label)
      · rfl
    | empty => rfl
    | @unknown label hne hunknown =>
      have hempty : label.isEmpty = false := by
        rw [Bool.eq_false_iff]
        exact fun hnil => hne (String.isEmpty_iff.1 hnil)
      have hcontains : Rule.labels.contains label = false := by
        rw [Bool.eq_false_iff]
        exact fun hmem => hunknown (List.contains_iff_mem.1 hmem)
      rw [entryFault?, hempty, hcontains]
      rfl
    | @repeated label hknown hfront =>
      have hseen : label ∈ seen := (h label).2 ⟨hknown, hfront⟩
      rw [entryFault?, isEmpty_label hknown, List.contains_iff_mem.2 hknown,
        List.contains_iff_mem.2 hseen]
      rfl

/-- A wrong entry adds no label to those that were accepted. -/
theorem Keeps.concat_wrong (h : Keeps seen front) (hwrong : Offends front entry fault) :
    Keeps seen (front ++ [entry]) := by
  intro label
  rw [h label, List.mem_append, List.mem_singleton]
  refine and_congr_right fun hknown => ⟨.inl, fun hmem => ?_⟩
  rcases hmem with hmem | heq
  · exact hmem
  · subst heq
    -- a rule's label is wrong only if it stands in front already
    cases hwrong with
    | notText hother => exact absurd rfl (hother label)
    | empty => cases isEmpty_label hknown
    | unknown _ hunknown => exact absurd hknown hunknown
    | repeated _ hfront => exact hfront

theorem Keeps.concat_right (h : Keeps seen front) {label : String} (hknown : label ∈ Rule.labels) :
    Keeps (label :: seen) (front ++ [.str label]) := by
  intro other
  rw [List.mem_cons, h other, List.mem_append, List.mem_singleton, Value.str.injEq]
  constructor
  · intro hmem
    rcases hmem with rfl | ⟨hother, hfront⟩
    · exact ⟨hknown, .inr rfl⟩
    · exact ⟨hother, .inl hfront⟩
  · intro hmem
    obtain ⟨hother, hfront | rfl⟩ := hmem
    · exact .inr ⟨hother, hfront⟩
    · exact .inl rfl

/-- Of an array that is read up to some position, the wrong entries from there on are found. -/
theorem mem_entryFaults_iff (h : Keeps seen front) :
    (position, fault) ∈ entryFaults front.length seen rest ↔
      front.length ≤ position ∧ OffendsAt (front ++ rest) position fault := by
  induction rest generalizing front seen with
  | nil =>
    refine iff_of_false List.not_mem_nil fun hat => ?_
    obtain ⟨hle, entry, hentry, -⟩ := hat
    rw [List.append_nil, List.getElem?_eq_none hle] at hentry
    cases hentry
  | cons entry rest ih =>
    -- the entry at the position in front, and those behind it
    have hsplit : front.length ≤ position ∧ OffendsAt (front ++ entry :: rest) position fault ↔
        (position = front.length ∧ entryFault? seen entry = some fault) ∨
          ((front ++ [entry]).length ≤ position ∧
            OffendsAt ((front ++ [entry]) ++ rest) position fault) := by
      rw [h.entryFault?_eq_some_iff, List.append_assoc, List.singleton_append, List.length_append,
        List.length_singleton]
      constructor
      · intro hat
        obtain ⟨hle, hoffends⟩ := hat
        rcases Nat.eq_or_lt_of_le hle with rfl | hlt
        · exact .inl ⟨rfl, offendsAt_length_iff.1 hoffends⟩
        · exact .inr ⟨hlt, hoffends⟩
      · intro hat
        rcases hat with ⟨rfl, hoffends⟩ | ⟨hlt, hoffends⟩
        · exact ⟨Nat.le_refl _, offendsAt_length_iff.2 hoffends⟩
        · exact ⟨Nat.le_of_lt hlt, hoffends⟩
    have hlength : front.length + 1 = (front ++ [entry]).length := by
      rw [List.length_append, List.length_singleton]
    rw [hsplit, entryFaults, hlength]
    split
    · rename_i wrong hwrong
      have hkeeps := h.concat_wrong (h.entryFault?_eq_some_iff.1 hwrong)
      rw [List.mem_cons, ih hkeeps, hwrong, Prod.mk.injEq, Option.some_inj, eq_comm (a := fault)]
    · rename_i hright
      obtain ⟨label, rfl, hknown, -⟩ := entryFault?_eq_none_iff.1 hright
      rw [labelOf, ih (h.concat_right hknown), hright]
      refine ⟨.inr, fun hat => ?_⟩
      rcases hat with ⟨-, hnone⟩ | hat
      · cases hnone
      · exact hat

theorem le_of_mem_entryFaults {wrong : Nat × EntryFault}
    (h : wrong ∈ entryFaults position seen rest) : position ≤ wrong.1 := by
  induction rest generalizing position seen with
  | nil => cases h
  | cons entry rest ih =>
    rw [entryFaults] at h
    split at h
    · rcases List.mem_cons.1 h with rfl | h
      · exact Nat.le_refl _
      · exact Nat.le_of_lt (ih h)
    · exact Nat.le_of_lt (ih h)

theorem pairwise_entryFaults (position : Nat) (seen : List String) (rest : List Value) :
    ((entryFaults position seen rest).map Prod.fst).Pairwise (· < ·) := by
  induction rest generalizing position seen with
  | nil => exact .nil
  | cons entry rest ih =>
    rw [entryFaults]
    split
    · refine List.pairwise_cons.2 ⟨fun later hlater => ?_, ih _ _⟩
      obtain ⟨wrong, hwrong, rfl⟩ := List.mem_map.1 hlater
      exact le_of_mem_entryFaults hwrong
    · exact ih _ _

/-- **The wrong entries are found**, each once and in order. -/
theorem areFaults_entryFaults (entries : List Value) :
    AreFaults entries (entryFaults 0 [] entries) where
  ordered := pairwise_entryFaults 0 [] entries
  complete := by
    intro position fault
    have hkeeps : Keeps [] [] := fun label =>
      iff_of_false List.not_mem_nil fun h => List.not_mem_nil h.2
    have hmem : (position, fault) ∈ entryFaults ([] : List Value).length [] entries ↔
        0 ≤ position ∧ OffendsAt ([] ++ entries) position fault := mem_entryFaults_iff hkeeps
    rwa [List.nil_append, List.length_nil, and_iff_right (Nat.zero_le _)] at hmem

/-! ## Configurations -/

variable {members : Members}

/-- The object sets a configuration, but for the entries of its array of disabled rules. -/
structure IsValidBut (entries : List Value) (members : Members) : Prop where
  version : checkVersion members = .ok ()
  enabled : ∃ value, switch? members "enabled" = .ok value
  throughOperators : ∃ value, switch? members "rewrite_through_operators" = .ok value
  rules : members.get? "disabled_rules" = some (.arr entries)

/-- The switches and the version leave the last word to the entries. -/
theorem IsValidBut.ofMembers?_eq (h : IsValidBut entries members) :
    ∃ enabled throughOperators, ofMembers? members =
      (rulesOf? (.arr entries)).map fun labels => ⟨enabled, throughOperators, labels⟩ := by
  obtain ⟨enabled, henabled⟩ := h.enabled
  obtain ⟨throughOperators, hthrough⟩ := h.throughOperators
  refine ⟨enabled, throughOperators, ?_⟩
  rw [ofMembers?, h.version, henabled, hthrough, h.rules]
  dsimp only [bind, Except.bind, Option.getD_some]
  cases rulesOf? (.arr entries) with
  | error fault => rfl
  | ok labels => rfl

variable {room : Room} {text : List Char}

/-- An object is no white space, so what it sets is read. -/
theorem ofText_of_readWithin (h : Json.readWithin room text = .ok (.obj members)) :
    ofText room text = .ok ((ofMembers? members).mapError .invalid) := by
  have hwhite : ¬ Text.isWhite text = true := by
    intro hwhite
    obtain ⟨cause, left, hread⟩ := isMalformed_readWithin_of_isWhite hwhite room
    rw [h] at hread
    cases hread
  rw [ofText, if_neg hwhite, h]

/-- **Such an object is accepted exactly if no entry is wrong.** -/
theorem IsValidBut.ofText_eq_ok_iff (h : IsValidBut entries members)
    (hread : Json.readWithin room text = .ok (.obj members)) :
    (∃ config, ofText room text = .ok (.ok config)) ↔ entryFaults 0 [] entries = [] := by
  obtain ⟨enabled, throughOperators, heq⟩ := h.ofMembers?_eq
  rw [ofText_of_readWithin hread, heq, rulesOf?]
  cases entryFaults 0 [] entries with
  | nil => exact iff_of_true ⟨_, rfl⟩ rfl
  | cons wrong faults =>
    refine iff_of_false (fun haccepted => ?_) (List.cons_ne_nil _ _)
    obtain ⟨config, hconfig⟩ := haccepted
    cases hconfig

theorem IsValidBut.ofText_eq_error (h : IsValidBut entries members)
    (hread : Json.readWithin room text = .ok (.obj members))
    (hwrong : entryFaults 0 [] entries ≠ []) :
    ofText room text = .ok (.error (.invalid (.entries (entryFaults 0 [] entries)))) := by
  obtain ⟨enabled, throughOperators, heq⟩ := h.ofMembers?_eq
  rw [ofText_of_readWithin hread, heq, rulesOf?]
  cases hfaults : entryFaults 0 [] entries with
  | nil => exact absurd hfaults hwrong
  | cons wrong faults => rfl

end CompactShell.Config
