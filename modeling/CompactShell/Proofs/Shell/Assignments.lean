import CompactShell.Proofs.Shell.Operators
import CompactShell.Shell.Assignment
import Mathlib.Data.List.TakeWhile

/-!
# The grammar of assignments

`assignment?` reads from the left and stops at the first blank that is neither quoted nor escaped.
`IsAssignment` says which texts it accepts by their parts, and `assignment?_eq_some_iff` that the
two agree: whatever follows an assignment has no say in where it ends.

So the split in front of a body is decided by the assignments alone. They can be kept and the body
exchanged (`splitAssignments_append`), and since every value closes its quotes, the scan of a whole
command is back at its start where the body begins (`Assignments.after`).
-/

namespace CompactShell.Shell

open Text

/-! ## Values -/

/-- The text is a value, whatever stands behind the blank that ends it. -/
def IsValue (value : List Char) : Prop :=
  Scan.start.after value = .start ∧
    ∀ c rest, isBlank c = true →
      assignedValue? .start (value ++ c :: rest) = some (value, c :: rest)

theorem assignedValue?_of_isBlank {c : Char} (h : isBlank c = true) (rest : List Char) :
    assignedValue? .start (c :: rest) = some ([], c :: rest) := by
  rw [assignedValue?]
  simp [Scan.start, h, isSpace_of_isBlank h]

/-- **A value is known when its blank is.** What is read as a value once is read so in front of any
text that starts with a blank. -/
theorem assignedValue?_spec {s : Scan} {text value rest : List Char}
    (h : assignedValue? s text = some (value, rest)) :
    (∃ b more, rest = b :: more ∧ isBlank b = true) ∧ s.after value = .start ∧
      ∀ c more, isBlank c = true →
        assignedValue? s (value ++ c :: more) = some (value, c :: more) := by
  induction text generalizing s value with
  | nil => simp [assignedValue?] at h
  | cons c text ih =>
    rw [assignedValue?] at h
    split at h
    · cases h
    · rename_i hnl
      split at h
      · rename_i hs
        simp only [Bool.and_eq_true, decide_eq_true_eq] at hs
        obtain ⟨rfl, -⟩ := hs
        split at h
        · rename_i hb
          cases h
          exact ⟨⟨c, text, rfl, hb⟩, rfl, fun d more hd => assignedValue?_of_isBlank hd more⟩
        · cases h
      · rename_i hs
        obtain ⟨⟨v, r⟩, hv, hr⟩ := Option.map_eq_some_iff.1 h
        cases hr
        obtain ⟨hrest, hafter, hread⟩ := ih hv
        refine ⟨hrest, hafter, fun d more hd => ?_⟩
        rw [List.cons_append, assignedValue?, if_neg hnl, if_neg hs, hread d more hd]
        rfl

/-! ## Single assignments -/

/-- The text is one assignment, with the blanks behind it. -/
def IsAssignment (text : List Char) : Prop :=
  ∃ first name value blanks, text = first :: name ++ '=' :: (value ++ blanks) ∧
    isNameStart first = true ∧ (∀ c ∈ name, isNameChar c = true) ∧ IsValue value ∧
    blanks ≠ [] ∧ ∀ c ∈ blanks, isBlank c = true

theorem isNameChar_of_isNameStart {c : Char} (h : isNameStart c = true) : isNameChar c = true := by
  simp only [isNameStart, isNameChar, Bool.or_eq_true, Char.isAlphanum] at h ⊢
  rcases h with h | h
  · exact Or.inl (Or.inl h)
  · exact Or.inr h

theorem isNameChar_equals : isNameChar '=' = false := by decide

theorem head?_dropWhile {p : Char → Bool} {text : List Char} :
    ∀ c ∈ (text.dropWhile p).head?, p c = false := by
  intro c hc
  have := List.head?_dropWhile_not p text
  rw [Option.mem_def.1 hc] at this
  exact this

/-- What was read as an assignment is one, and no blank is left behind it. -/
theorem isAssignment_of_assignment? {text a rest : List Char}
    (h : assignment? text = some (a, rest)) :
    IsAssignment a ∧ text = a ++ rest ∧ ∀ c ∈ rest.head?, isBlank c = false := by
  have happ := (append_of_assignment? h).symm
  simp only [assignment?] at h
  split at h
  · rename_i first tail hfirst htail
    split at h
    · rename_i hstart
      obtain ⟨⟨value, more⟩, hv, hr⟩ := Option.map_eq_some_iff.1 h
      obtain ⟨ha, hrest⟩ := Prod.mk.inj hr
      obtain ⟨⟨b, more, rfl, hb⟩, hafter, hread⟩ := assignedValue?_spec hv
      obtain ⟨name, hname⟩ := List.head?_eq_some_iff.1 hfirst
      refine ⟨⟨first, name, value, (b :: more).takeWhile isBlank, ?_, hstart, ?_, ⟨hafter, hread⟩,
        ?_, fun c hc => List.mem_takeWhile_imp hc⟩, happ, ?_⟩
      · rw [← ha, hname]
      · intro c hc
        exact List.mem_takeWhile_imp (hname ▸ List.mem_cons_of_mem _ hc)
      · rw [List.takeWhile_cons_of_pos hb]; simp
      · rw [← hrest]; exact head?_dropWhile
    · cases h
  · cases h

/-- An assignment is read as one in front of everything that starts with no blank. -/
theorem IsAssignment.read {a : List Char} (h : IsAssignment a) {rest : List Char}
    (hrest : ∀ c ∈ rest.head?, isBlank c = false) : assignment? (a ++ rest) = some (a, rest) := by
  obtain ⟨first, name, value, blanks, rfl, hfirst, hname, hvalue, hne, hblanks⟩ := h
  obtain ⟨b, blanks, rfl⟩ := List.exists_cons_of_ne_nil hne
  have hnames : ∀ c ∈ first :: name, isNameChar c = true := by
    intro c hc
    rcases List.mem_cons.mp hc with rfl | hc
    · exact isNameChar_of_isNameStart hfirst
    · exact hname c hc
  have htake : List.takeWhile isBlank ((b :: blanks) ++ rest) = b :: blanks := by
    rw [List.takeWhile_append_of_pos hblanks]
    cases rest with
    | nil => simp
    | cons c rest => rw [List.takeWhile_cons_of_neg (by simp [hrest c rfl]), List.append_nil]
  have hdrop : List.dropWhile isBlank ((b :: blanks) ++ rest) = rest := by
    rw [List.dropWhile_append_of_pos hblanks]
    cases rest with
    | nil => rfl
    | cons c rest => rw [List.dropWhile_cons_of_neg (by simp [hrest c rfl])]
  have hread : assignedValue? .start (value ++ ((b :: blanks) ++ rest)) =
      some (value, (b :: blanks) ++ rest) :=
    hvalue.2 b (blanks ++ rest) (hblanks b (List.mem_cons_self ..))
  have hequals : ¬ isNameChar '=' = true := by rw [isNameChar_equals]; simp
  have hassoc : first :: name ++ '=' :: (value ++ b :: blanks) ++ rest =
      first :: name ++ '=' :: (value ++ ((b :: blanks) ++ rest)) := by simp
  rw [hassoc, assignment?, List.takeWhile_append_of_pos hnames,
    List.dropWhile_append_of_pos hnames, List.takeWhile_cons_of_neg hequals,
    List.dropWhile_cons_of_neg hequals]
  simp only [List.append_nil, List.head?_cons, hfirst, if_true, hread, Option.map_some, htake,
    hdrop]

/-- **The grammar of one assignment.** -/
theorem assignment?_eq_some_iff {text a rest : List Char} :
    assignment? text = some (a, rest) ↔
      IsAssignment a ∧ text = a ++ rest ∧ ∀ c ∈ rest.head?, isBlank c = false := by
  constructor
  · exact isAssignment_of_assignment?
  · rintro ⟨ha, rfl, hrest⟩
    exact ha.read hrest

/-- An assignment leaves the scan where it started. -/
theorem IsAssignment.after {a : List Char} (h : IsAssignment a) : Scan.start.after a = .start := by
  obtain ⟨first, name, value, blanks, rfl, hfirst, hname, hvalue, -, hblanks⟩ := h
  have hlead : PlainText (first :: name ++ ['=']) := by
    intro c hc
    simp only [List.mem_append, List.mem_cons, List.not_mem_nil, or_false] at hc
    rcases hc with (rfl | hc) | rfl
    · exact isPlain_of_class (by decide) hfirst
    · exact isPlain_of_class (by decide) (hname c hc)
    · decide
  have hsplit : first :: name ++ '=' :: (value ++ blanks) =
      (first :: name ++ ['=']) ++ (value ++ blanks) := by simp
  rw [hsplit, Scan.after_append, Scan.after_plainText hlead, Scan.after_append, hvalue.1]
  exact Scan.after_plainText fun c hc => isPlain_of_isBlank (hblanks c hc)

theorem IsAssignment.head {a : List Char} (h : IsAssignment a) :
    ∃ c rest, a = c :: rest ∧ isNameStart c = true := by
  obtain ⟨first, name, value, blanks, rfl, hfirst, -⟩ := h
  exact ⟨first, _, rfl, hfirst⟩

/-! ## Runs of assignments -/

/-- Assignments one behind the other. -/
inductive Assignments : List Char → Prop where
  | nil : Assignments []
  | cons {a rest : List Char} : IsAssignment a → Assignments rest → Assignments (a ++ rest)

/-- A run of assignments leaves the scan where it started. -/
theorem Assignments.after {p : List Char} (h : Assignments p) : Scan.start.after p = .start := by
  induction h with
  | nil => rfl
  | cons ha _ ih => rw [Scan.after_append, ha.after, ih]

theorem not_isSpace_of_isNameChar {c : Char} (h : isNameChar c = true) : isSpace c = false := by
  rw [isNameChar, Bool.or_eq_true, decide_eq_true_eq] at h
  rcases h with hletter | rfl
  · -- the letters are too many to try, so compare their ranges with those of white space
    exact not_covers_of_apart (by decide) (isAlphanum_iff.1 hletter)
  · decide

theorem not_isSpace_of_isNameStart {c : Char} (h : isNameStart c = true) : isSpace c = false :=
  not_isSpace_of_isNameChar (isNameChar_of_isNameStart h)

theorem not_isBlank_of_not_isSpace {c : Char} (h : isSpace c = false) : isBlank c = false := by
  by_contra hblank
  rw [isSpace_of_isBlank (eq_true_of_ne_false hblank)] at h
  cases h

/-- A run of assignments starts with the name of a variable. A class without such characters starts
it no more than it starts the body. -/
theorem Assignments.head {q : Char → Bool} (hq : ∀ c, isNameStart c = true → q c = false)
    {p body : List Char} (h : Assignments p) (hbody : ∀ c ∈ body.head?, q c = false) :
    ∀ c ∈ (p ++ body).head?, q c = false := by
  cases h with
  | nil => exact hbody
  | cons ha _ =>
    obtain ⟨d, rest, rfl, hd⟩ := ha.head
    intro c hc
    obtain rfl : d = c := by simpa using hc
    exact hq d hd

/-- What is split off is a run of assignments, and the body starts with none. -/
theorem splitAssignments_spec (command : List Char) :
    Assignments (splitAssignments command).1 ∧ assignment? (splitAssignments command).2 = none := by
  fun_induction splitAssignments command with
  | case1 command h => exact ⟨.nil, h⟩
  | case2 command a rest h _ p body hsplit ih =>
    rw [hsplit] at ih
    exact ⟨.cons (isAssignment_of_assignment? h).1 ih.1, ih.2⟩

theorem splitAssignments_of_eq_none {text : List Char} (h : assignment? text = none) :
    splitAssignments text = ([], text) := by
  rw [splitAssignments]
  split
  · rfl
  · rename_i hsome
    rw [h] at hsome
    cases hsome

/-- **The body has no say in the split.** A run of assignments is split off in front of every body
that starts neither with an assignment nor with a blank. -/
theorem Assignments.splitAssignments_append {p body : List Char} (hp : Assignments p)
    (hbody : assignment? body = none) (hhead : ∀ c ∈ body.head?, isBlank c = false) :
    splitAssignments (p ++ body) = (p, body) := by
  induction hp with
  | nil => exact splitAssignments_of_eq_none hbody
  | @cons a rest ha hrest ih =>
    have hblank := hrest.head
      (fun c hc => not_isBlank_of_not_isSpace (not_isSpace_of_isNameStart hc)) hhead
    rw [List.append_assoc, splitAssignments]
    split
    · rename_i h
      rw [ha.read hblank] at h; cases h
    · rename_i a' rest' h
      rw [ha.read hblank] at h
      obtain ⟨rfl, rfl⟩ := Prod.mk.inj (Option.some.inj h)
      dsimp only
      rw [ih]

/-- Behind assignments no blank is left. -/
theorem head?_splitAssignments {command : List Char} (hne : (splitAssignments command).1 ≠ []) :
    ∀ c ∈ (splitAssignments command).2.head?, isBlank c = false := by
  fun_induction splitAssignments command with
  | case1 => exact absurd rfl hne
  | case2 command a rest h _ p body hsplit ih =>
    rw [hsplit] at ih
    cases p with
    | cons c p => exact ih (List.cons_ne_nil c p)
    | nil =>
      have hbody := CompactShell.Shell.splitAssignments_append rest
      rw [hsplit, List.nil_append] at hbody
      rw [hbody]
      exact (isAssignment_of_assignment? h).2.2

end CompactShell.Shell
