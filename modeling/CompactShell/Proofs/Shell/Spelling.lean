import CompactShell.Proofs.Shell.Assignments
import CompactShell.Proofs.Shell.Layout

/-!
# How assignments are written

`IsValue` says which values are read, in terms of the reader. `IsSpelled` says how a value is
written: closed quotes, escaped characters and bare ones. The two differ in one place. Between
double quotes a backslash may have a newline behind it, and the reader takes that for the end of
the line and refuses the value (`isValue_iff_isSpelled`).

So a run of assignments as they are written is what `splitAssignments` takes off, in front of any
body, exactly if no newline is escaped in it (`assignments_iff_areSpelled`). What it takes off is
words of the command, each a name, an equals sign and a value (`Assignments.words_append`).
-/

namespace CompactShell.Shell

open Text

/-! ## Characters that the scan meets -/

/-- Some character of the text has the property where the scan reads it. -/
def Scan.meets (p : Scan → Char → Bool) (s : Scan) : List Char → Bool
  | [] => false
  | c :: rest => p s c || (s.next c).meets p rest

theorem Scan.meets_append (p : Scan → Char → Bool) (s : Scan) (a b : List Char) :
    s.meets p (a ++ b) = (s.meets p a || (s.after a).meets p b) := by
  induction a generalizing s with
  | nil => rfl
  | cons c a ih => rw [List.cons_append, meets, meets, ih, Bool.or_assoc, Scan.after_cons]

/-- The newline is escaped. -/
def isContinuation (s : Scan) (c : Char) : Bool :=
  s.escaped && c = '\n'

/-- The white space is neither quoted nor escaped. -/
def isBareSpace (s : Scan) (c : Char) : Bool :=
  s = .start && isSpace c

/-- A plain text escapes nothing. -/
theorem not_meets_isContinuation {text : List Char} (h : PlainText text) :
    Scan.start.meets isContinuation text = false := by
  induction text with
  | nil => rfl
  | cons c text ih =>
    rw [PlainText, List.forall_mem_cons] at h
    have hnext : Scan.start.next c = .start := Scan.next_of_isPlain .start h.1
    rw [Scan.meets, hnext, ih h.2]
    rfl

theorem not_meets_isBareSpace {text : List Char} (h : ∀ c ∈ text, isSpace c = false) (s : Scan) :
    s.meets isBareSpace text = false := by
  induction text generalizing s with
  | nil => rfl
  | cons c text ih =>
    rw [List.forall_mem_cons] at h
    rw [Scan.meets, ih h.2, isBareSpace, h.1, Bool.and_false]
    rfl

/-! ## Values that are read -/

/-- The reader takes a text into the value as long as it meets no bare white space and no
continuation. -/
theorem assignedValue?_append {s : Scan} {text : List Char}
    (hcontinuation : s.meets isContinuation text = false)
    (hspace : s.meets isBareSpace text = false) (rest : List Char) :
    assignedValue? s (text ++ rest) =
      (assignedValue? (s.after text) rest).map fun (value, rest) => (text ++ value, rest) := by
  induction text generalizing s with
  | nil => simp
  | cons c text ih =>
    rw [Scan.meets, Bool.or_eq_false_iff] at hcontinuation hspace
    have hnewline : ¬ (s.escaped && c = '\n') = true := by
      rw [← isContinuation, hcontinuation.1]
      exact Bool.false_ne_true
    have hbare : ¬ (s = .start && isSpace c) = true := by
      rw [← isBareSpace, hspace.1]
      exact Bool.false_ne_true
    rw [List.cons_append, assignedValue?, if_neg hnewline, if_neg hbare, ih hcontinuation.2 hspace.2,
      Option.map_map]
    rfl

theorem not_meets_of_assignedValue? {s : Scan} {text value rest : List Char}
    (h : assignedValue? s text = some (value, rest)) :
    s.meets isContinuation value = false ∧ s.meets isBareSpace value = false := by
  induction text generalizing s value with
  | nil => cases h
  | cons c text ih =>
    rw [assignedValue?] at h
    split at h
    · cases h
    · rename_i hnewline
      split at h
      · split at h
        · cases h
          exact ⟨rfl, rfl⟩
        · cases h
      · rename_i hbare
        obtain ⟨⟨v, r⟩, hv, hr⟩ := Option.map_eq_some_iff.1 h
        cases hr
        obtain ⟨hcontinuation, hspace⟩ := ih hv
        rw [Scan.meets, Scan.meets, hcontinuation, hspace, Bool.or_false, Bool.or_false]
        exact ⟨eq_false_of_ne_true hnewline, eq_false_of_ne_true hbare⟩

/-- **Which values are read**: closed texts without bare white space and without continuations. -/
theorem isValue_iff {value : List Char} :
    IsValue value ↔ IsWhole value ∧ Scan.start.meets isContinuation value = false ∧
      Scan.start.meets isBareSpace value = false := by
  constructor
  · rintro ⟨hwhole, hread⟩
    exact ⟨hwhole, not_meets_of_assignedValue? (hread ' ' [] rfl)⟩
  · rintro ⟨hwhole, hcontinuation, hspace⟩
    refine ⟨hwhole, fun c rest hc => ?_⟩
    rw [assignedValue?_append hcontinuation hspace, hwhole, assignedValue?_of_isBlank hc]
    simp

/-! ## Values as they are written -/

/-- What may stand between double quotes: a quote only behind a backslash, and each backslash in
front of the character that it escapes. -/
inductive IsInDouble : List Char → Prop where
  | nil : IsInDouble []
  | char {c : Char} {rest : List Char} : c ≠ '"' → c ≠ '\\' → IsInDouble rest →
      IsInDouble (c :: rest)
  | pair {c : Char} {rest : List Char} : IsInDouble rest → IsInDouble ('\\' :: c :: rest)

/-- A value as it is written: closed quotes, backslashes each with a character behind it that is no
newline, and bare characters. -/
inductive IsSpelled : List Char → Prop where
  | nil : IsSpelled []
  | bare {c : Char} {rest : List Char} : isSpace c = false → c ∉ ['\'', '"', '\\'] →
      IsSpelled rest → IsSpelled (c :: rest)
  | pair {c : Char} {rest : List Char} : c ≠ '\n' → IsSpelled rest → IsSpelled ('\\' :: c :: rest)
  | single {inner rest : List Char} : '\'' ∉ inner → IsSpelled rest →
      IsSpelled ('\'' :: (inner ++ '\'' :: rest))
  | double {inner rest : List Char} : IsInDouble inner → IsSpelled rest →
      IsSpelled ('"' :: (inner ++ '"' :: rest))

/-- Single quotes hold whatever is no single quote. -/
theorem scan_single {inner : List Char} (h : '\'' ∉ inner) :
    (Scan.mk .single false).after inner = ⟨.single, false⟩ ∧
      (Scan.mk .single false).meets isBareSpace inner = false := by
  induction inner with
  | nil => exact ⟨rfl, rfl⟩
  | cons c inner ih =>
    rw [List.mem_cons, not_or] at h
    have hnext : (Scan.mk .single false).next c = ⟨.single, false⟩ := by
      simp [Scan.next, Scan.isEscape, Scan.isToggle, Ne.symm h.1]
    rw [Scan.after_cons, Scan.meets, hnext]
    exact ⟨(ih h.2).1, (ih h.2).2⟩

theorem scan_double {inner : List Char} (h : IsInDouble inner) :
    (Scan.mk .double false).after inner = ⟨.double, false⟩ ∧
      (Scan.mk .double false).meets isBareSpace inner = false := by
  induction h with
  | nil => exact ⟨rfl, rfl⟩
  | @char c rest hquote hback _ ih =>
    have hnext : (Scan.mk .double false).next c = ⟨.double, false⟩ := by
      simp [Scan.next, Scan.isEscape, Scan.isToggle, hquote, hback]
    rw [Scan.after_cons, Scan.meets, hnext]
    exact ih
  | pair _ ih => exact ih

theorem next_start_of_not_mem {c : Char} (h : c ∉ ['\'', '"', '\\']) :
    Scan.start.next c = .start := by
  simp only [List.mem_cons, List.not_mem_nil, or_false, not_or] at h
  simp [Scan.next, Scan.isEscape, Scan.isToggle, Scan.start, h]

/-- A value as it is written is closed, and shows no white space. -/
theorem IsSpelled.scan {value : List Char} (h : IsSpelled value) :
    IsWhole value ∧ Scan.start.meets isBareSpace value = false := by
  induction h with
  | nil => exact ⟨rfl, rfl⟩
  | @bare c rest hspace hspecial _ ih =>
    rw [IsWhole, Scan.after_cons, Scan.meets, next_start_of_not_mem hspecial, isBareSpace, hspace,
      Bool.and_false]
    exact ih
  | pair _ _ ih => exact ih
  | @single inner rest hinner _ ih =>
    have hopen : Scan.start.next '\'' = ⟨.single, false⟩ := rfl
    have hclose : (Scan.mk .single false).next '\'' = .start := rfl
    obtain ⟨hafter, hspace⟩ := scan_single hinner
    rw [IsWhole, Scan.after_cons, Scan.meets, hopen, Scan.after_append, Scan.meets_append, hafter,
      hspace, Scan.after_cons, Scan.meets, hclose]
    exact ih
  | @double inner rest hinner _ ih =>
    have hopen : Scan.start.next '"' = ⟨.double, false⟩ := rfl
    have hclose : (Scan.mk .double false).next '"' = .start := rfl
    obtain ⟨hafter, hspace⟩ := scan_double hinner
    rw [IsWhole, Scan.after_cons, Scan.meets, hopen, Scan.after_append, Scan.meets_append, hafter,
      hspace, Scan.after_cons, Scan.meets, hclose]
    exact ih

/-! ## Reading quotes -/

theorem exists_single_close {text : List Char}
    (h : (Scan.mk .single false).after text = .start) :
    ∃ inner rest, text = inner ++ '\'' :: rest ∧ '\'' ∉ inner := by
  have hmem : '\'' ∈ text := by
    by_contra hno
    rw [(scan_single hno).1] at h
    cases h
  exact List.eq_append_cons_of_mem hmem

theorem exists_double_close {text : List Char}
    (h : (Scan.mk .double false).after text = .start) :
    ∃ inner rest, text = inner ++ '"' :: rest ∧ IsInDouble inner := by
  match text with
  | [] => cases h
  | c :: text =>
    by_cases hquote : c = '"'
    · exact ⟨[], text, by rw [hquote]; rfl, .nil⟩
    · by_cases hback : c = '\\'
      · subst hback
        match text with
        | [] => cases h
        | d :: text =>
          have hrest : (Scan.mk .double false).after text = .start := h
          obtain ⟨inner, rest, rfl, hinner⟩ := exists_double_close hrest
          exact ⟨'\\' :: d :: inner, rest, rfl, .pair hinner⟩
      · have hnext : (Scan.mk .double false).next c = ⟨.double, false⟩ := by
          simp [Scan.next, Scan.isEscape, Scan.isToggle, hquote, hback]
        rw [Scan.after_cons, hnext] at h
        obtain ⟨inner, rest, rfl, hinner⟩ := exists_double_close h
        exact ⟨c :: inner, rest, rfl, .char hquote hback hinner⟩

/-- Behind the quotes a value goes on as it would by itself. -/
theorem behind_quotes {s : Scan} {inner : List Char} {quote : Char} (hinner : s.after inner = s)
    (hclose : s.next quote = .start) (rest : List Char) :
    s.after (inner ++ quote :: rest) = Scan.start.after rest ∧
      ∀ p, s.meets p (inner ++ quote :: rest) = false → Scan.start.meets p rest = false := by
  refine ⟨by rw [Scan.after_append, hinner, Scan.after_cons, hclose], fun p h => ?_⟩
  rw [Scan.meets_append, hinner, Scan.meets, hclose, Bool.or_eq_false_iff,
    Bool.or_eq_false_iff] at h
  exact h.2.2

/-- What is closed, shows no white space and has no continuation can be written. -/
theorem isSpelled_of_isWhole {value : List Char} (hwhole : IsWhole value)
    (hcontinuation : Scan.start.meets isContinuation value = false)
    (hspace : Scan.start.meets isBareSpace value = false) : IsSpelled value := by
  induction hlength : value.length using Nat.strong_induction_on generalizing value with
  | h n ih =>
    subst hlength
    cases value with
    | nil => exact .nil
    | cons c text =>
      rw [IsWhole, Scan.after_cons] at hwhole
      rw [Scan.meets, Bool.or_eq_false_iff] at hcontinuation hspace
      -- the part that the character starts is over before the rest, which is shorter
      have hrest : ∀ {rest : List Char}, rest.length < (c :: text).length → IsWhole rest →
          Scan.start.meets isContinuation rest = false →
          Scan.start.meets isBareSpace rest = false → IsSpelled rest :=
        fun hshort hwhole hcontinuation hspace => ih _ hshort hwhole hcontinuation hspace rfl
      by_cases hsingle : c = '\''
      · subst hsingle
        obtain ⟨inner, rest, rfl, hinner⟩ := exists_single_close hwhole
        have hclose : (Scan.mk .single false).next '\'' = .start := rfl
        obtain ⟨hafter, hmeets⟩ := behind_quotes (scan_single hinner).1 hclose rest
        refine .single hinner (hrest ?_ (hafter.symm.trans hwhole) (hmeets _ hcontinuation.2)
          (hmeets _ hspace.2))
        simp only [List.length_cons, List.length_append]
        omega
      by_cases hdouble : c = '"'
      · subst hdouble
        obtain ⟨inner, rest, rfl, hinner⟩ := exists_double_close hwhole
        have hclose : (Scan.mk .double false).next '"' = .start := rfl
        obtain ⟨hafter, hmeets⟩ := behind_quotes (scan_double hinner).1 hclose rest
        refine .double hinner (hrest ?_ (hafter.symm.trans hwhole) (hmeets _ hcontinuation.2)
          (hmeets _ hspace.2))
        simp only [List.length_cons, List.length_append]
        omega
      by_cases hback : c = '\\'
      · subst hback
        cases text with
        | nil => cases hwhole
        | cons d text =>
          rw [Scan.meets, Bool.or_eq_false_iff] at hcontinuation hspace
          have hd : d ≠ '\n' := by
            rintro rfl
            exact absurd hcontinuation.2.1 (by decide)
          refine .pair hd (hrest ?_ hwhole hcontinuation.2.2 hspace.2.2)
          simp only [List.length_cons]
          omega
      · have hspecial : c ∉ ['\'', '"', '\\'] := by simp [hsingle, hdouble, hback]
        have hsolid : isSpace c = false := hspace.1
        rw [next_start_of_not_mem hspecial] at hwhole hcontinuation hspace
        exact .bare hsolid hspecial (hrest (Nat.lt_succ_self _) hwhole hcontinuation.2 hspace.2)

/-- **A value is read as it is written**, unless a line goes on between its double quotes. -/
theorem isValue_iff_isSpelled {value : List Char} :
    IsValue value ↔ IsSpelled value ∧ Scan.start.meets isContinuation value = false := by
  rw [isValue_iff]
  constructor
  · rintro ⟨hwhole, hcontinuation, hspace⟩
    exact ⟨isSpelled_of_isWhole hwhole hcontinuation hspace, hcontinuation⟩
  · rintro ⟨hspelled, hcontinuation⟩
    exact ⟨hspelled.scan.1, hcontinuation, hspelled.scan.2⟩

/-! ## Runs of assignments -/

/-- The name of a variable. -/
def IsName (name : List Char) : Prop :=
  ∃ first more, name = first :: more ∧ isNameStart first = true ∧
    ∀ c ∈ more, isNameChar c = true

/-- Assignments as they are written, one behind the other, each with blanks behind it. -/
inductive AreSpelled : List Char → Prop where
  | nil : AreSpelled []
  | cons {name value blanks rest : List Char} : IsName name → IsSpelled value → blanks ≠ [] →
      (∀ c ∈ blanks, isBlank c = true) → AreSpelled rest →
      AreSpelled (name ++ '=' :: (value ++ (blanks ++ rest)))

theorem isAssignment_iff {text : List Char} :
    IsAssignment text ↔ ∃ name value blanks, text = name ++ '=' :: (value ++ blanks) ∧
      IsName name ∧ IsValue value ∧ blanks ≠ [] ∧ ∀ c ∈ blanks, isBlank c = true := by
  constructor
  · rintro ⟨first, more, value, blanks, htext, hfirst, hmore, hvalue, hne, hblanks⟩
    exact ⟨first :: more, value, blanks, htext, ⟨first, more, rfl, hfirst, hmore⟩, hvalue, hne,
      hblanks⟩
  · rintro ⟨-, value, blanks, htext, ⟨first, more, rfl, hfirst, hmore⟩, hvalue, hne, hblanks⟩
    exact ⟨first, more, value, blanks, htext, hfirst, hmore, hvalue, hne, hblanks⟩

/-- A name and its equals sign mean nothing to the scan, and hold no white space. -/
theorem IsName.solid {name : List Char} (h : IsName name) :
    PlainText (name ++ ['=']) ∧ ∀ c ∈ name ++ ['='], isSpace c = false := by
  obtain ⟨first, more, rfl, hfirst, hmore⟩ := h
  have hchar : ∀ c ∈ first :: more ++ ['='], isNameChar c = true ∨ c = '=' := by
    intro c hc
    rw [List.mem_append, List.mem_cons, List.mem_singleton] at hc
    rcases hc with (rfl | hc) | hc
    · exact .inl (isNameChar_of_isNameStart hfirst)
    · exact .inl (hmore c hc)
    · exact .inr hc
  constructor
  · intro c hc
    rcases hchar c hc with hname | rfl
    · exact isPlain_of_class (by decide) hname
    · decide
  · intro c hc
    rcases hchar c hc with hname | rfl
    · exact not_isSpace_of_isNameChar hname
    · decide

/-- In an assignment only the value can have its lines continued. -/
theorem IsName.meets_isContinuation {name value blanks : List Char} (hname : IsName name)
    (hvalue : IsWhole value) (hblanks : ∀ c ∈ blanks, isBlank c = true) (rest : List Char) :
    Scan.start.meets isContinuation (name ++ '=' :: (value ++ (blanks ++ rest))) =
      (Scan.start.meets isContinuation value || Scan.start.meets isContinuation rest) := by
  have hlead := hname.solid.1
  have hplain : PlainText blanks := fun c hc => isPlain_of_isBlank (hblanks c hc)
  rw [List.append_cons name, Scan.meets_append _ _ (name ++ ['=']), Scan.after_plainText hlead,
    not_meets_isContinuation hlead, Scan.meets_append, hvalue, Scan.meets_append,
    Scan.after_plainText hplain, not_meets_isContinuation hplain, Bool.false_or, Bool.false_or]

/-- **A run of assignments is read as it is written**, unless a newline is escaped in it. -/
theorem assignments_iff_areSpelled {run : List Char} :
    Assignments run ↔ AreSpelled run ∧ Scan.start.meets isContinuation run = false := by
  constructor
  · intro h
    induction h with
    | nil => exact ⟨.nil, rfl⟩
    | @cons a rest ha _ ih =>
      obtain ⟨name, value, blanks, rfl, hname, hvalue, hne, hblanks⟩ := isAssignment_iff.1 ha
      obtain ⟨hspelled, hcontinuation⟩ := isValue_iff_isSpelled.1 hvalue
      rw [List.append_assoc, List.cons_append, List.append_assoc]
      refine ⟨.cons hname hspelled hne hblanks ih.1, ?_⟩
      rw [hname.meets_isContinuation hvalue.1 hblanks, hcontinuation, ih.2]
      rfl
  · rintro ⟨hspelled, hcontinuation⟩
    induction hspelled with
    | nil => exact .nil
    | @cons name value blanks rest hname hvalue hne hblanks _ ih =>
      rw [hname.meets_isContinuation hvalue.scan.1 hblanks, Bool.or_eq_false_iff] at hcontinuation
      have hread := isValue_iff_isSpelled.2 ⟨hvalue, hcontinuation.1⟩
      have ha := isAssignment_iff.2 ⟨name, value, blanks, rfl, hname, hread, hne, hblanks⟩
      have hrun := Assignments.cons ha (ih hcontinuation.2)
      rwa [List.append_assoc, List.cons_append, List.append_assoc] at hrun

/-! ## Assignments as words -/

/-- What separates words is bare white space, or a newline that is escaped. -/
theorem isGapless_of_not_meets {s : Scan} {text : List Char}
    (hcontinuation : s.meets isContinuation text = false)
    (hspace : s.meets isBareSpace text = false) : isGapless s text = true := by
  induction text generalizing s with
  | nil => rfl
  | cons c text ih =>
    rw [Scan.meets, Bool.or_eq_false_iff] at hcontinuation hspace
    rw [isGapless, ih hcontinuation.2 hspace.2, Bool.and_true, Bool.not_eq_true']
    by_contra hsep
    rw [Bool.not_eq_false] at hsep
    have hquoting := (separates_cases hsep).1
    rw [Scan.separates, hquoting] at hsep
    by_cases hescaped : s.escaped = true
    · -- the newline behind the backslash
      obtain rfl : c = '\n' := by simpa [hescaped] using hsep
      rw [isContinuation, hescaped] at hcontinuation
      exact absurd hcontinuation.1 (by decide)
    · obtain rfl : s = .start := Scan.eq_start hquoting (eq_false_of_ne_true hescaped)
      have hcases : isBlank c = true ∨ c = '\\' ∧ text.head? = some '\n' := by
        simpa [Scan.start] using hsep
      rcases hcases with hblank | ⟨rfl, hnewline⟩
      · rw [isBareSpace, isSpace_of_isBlank hblank] at hspace
        exact absurd hspace.1 (by decide)
      · obtain ⟨text, rfl⟩ := List.head?_eq_some_iff.1 hnewline
        rw [Scan.meets, Bool.or_eq_false_iff] at hcontinuation
        exact absurd hcontinuation.2.1 (by decide)

/-- An assignment is one word, up to the blanks behind it. -/
theorem IsName.isWord {name value : List Char} (hname : IsName name) (hvalue : IsValue value) :
    IsWord (name ++ '=' :: value) := by
  obtain ⟨hplain, hsolid⟩ := hname.solid
  obtain ⟨hwhole, hcontinuation, hspace⟩ := isValue_iff.1 hvalue
  have hstart := Scan.after_plainText hplain
  rw [List.append_cons name]
  refine ⟨by simp, isGapless_of_not_meets ?_ ?_, ?_⟩
  · rw [Scan.meets_append, not_meets_isContinuation hplain, hstart, hcontinuation]
    rfl
  · rw [Scan.meets_append, not_meets_isBareSpace hsolid, hstart, hspace]
    rfl
  · rw [IsWhole, Scan.after_append, hstart]
    exact hwhole

/-- An assignment is read as one word, whatever stands behind it. -/
theorem IsAssignment.exists_word {a : List Char} (h : IsAssignment a) :
    ∃ name value, IsName name ∧ IsValue value ∧
      ∀ body, words (a ++ body) = Word.ofText (name ++ '=' :: value) :: words body := by
  obtain ⟨name, value, blanks, rfl, hname, hvalue, hne, hblanks⟩ := isAssignment_iff.1 h
  refine ⟨name, value, hname, hvalue, fun body => ?_⟩
  have hword := hname.isWord hvalue
  have hsplit : name ++ '=' :: (value ++ blanks) ++ body =
      (name ++ '=' :: value) ++ (blanks ++ body) := by simp
  rw [hsplit, words_append_gap hword.whole (isGap_of_blank hblanks) hne, hword.words_eq]
  rfl

/-- A run of assignments is cut off between two words. -/
theorem Assignments.words_append {run : List Char} (h : Assignments run) (body : List Char) :
    words (run ++ body) = words run ++ words body := by
  induction h with
  | nil => rfl
  | cons ha _ ih =>
    obtain ⟨name, value, -, -, hword⟩ := ha.exists_word
    rw [List.append_assoc, hword, hword, ih, List.cons_append]

theorem Assignments.eq_of_mem_words {run : List Char} (h : Assignments run) {w : Word}
    (hw : w ∈ words run) :
    ∃ name value, IsName name ∧ IsValue value ∧ w.raw = name ++ '=' :: value := by
  induction h with
  | nil => exact absurd hw List.not_mem_nil
  | cons ha _ ih =>
    obtain ⟨name, value, hname, hvalue, hword⟩ := ha.exists_word
    rw [hword] at hw
    rcases List.mem_cons.1 hw with rfl | hw
    · exact ⟨name, value, hname, hvalue, rfl⟩
    · exact ih hw

/-! ## The split -/

/-- **The split in front of the body.** It takes off all assignments and the blanks behind them, and
cuts between words: in front of the cut each is a name, an equals sign and a value. Assignments as
they are written are taken off in front of a body exactly if no newline is escaped in them. -/
theorem splitAssignments_maximal (command assignments body : List Char) :
    (splitAssignments command = (assignments, body) →
      assignments ++ body = command ∧ splitAssignments body = ([], body) ∧
        (assignments ≠ [] → ∀ c ∈ body.head?, isBlank c = false) ∧
        words command = words assignments ++ words body ∧
        ∀ w ∈ words assignments, ∃ name value, IsName name ∧ IsSpelled value ∧
          w.raw = name ++ '=' :: value) ∧
    (AreSpelled assignments → (∀ c ∈ body.head?, isBlank c = false) →
      splitAssignments body = ([], body) →
        (splitAssignments (assignments ++ body) = (assignments, body) ↔
          Scan.start.meets isContinuation assignments = false)) := by
  constructor
  · intro hsplit
    have happend := splitAssignments_append command
    have hspec := splitAssignments_spec command
    have hhead := @head?_splitAssignments command
    rw [hsplit] at happend hspec hhead
    refine ⟨happend, splitAssignments_of_eq_none hspec.2, hhead, ?_, ?_⟩
    · rw [← happend, hspec.1.words_append]
    · intro w hw
      obtain ⟨name, value, hname, hvalue, hraw⟩ := hspec.1.eq_of_mem_words hw
      exact ⟨name, value, hname, (isValue_iff_isSpelled.1 hvalue).1, hraw⟩
  · intro hspelled hhead hbody
    constructor
    · intro hsplit
      have hrun := (splitAssignments_spec (assignments ++ body)).1
      rw [hsplit] at hrun
      exact (assignments_iff_areSpelled.1 hrun).2
    · intro hcontinuation
      have hnone := (splitAssignments_spec body).2
      rw [hbody] at hnone
      exact (assignments_iff_areSpelled.2 ⟨hspelled, hcontinuation⟩).splitAssignments_append hnone
        hhead

/-- Quoted and escaped blanks in front of a body, and the first assignment in front of another. -/
theorem splitAssignments_maximal_quoted :
    splitAssignments "A='b c' D_1=x\\ y ls -l".toList =
        ("A='b c' D_1=x\\ y ".toList, "ls -l".toList) ∧
      words "A='b c' D_1=x\\ y ls -l".toList =
        words "A='b c' D_1=x\\ y ".toList ++ words "ls -l".toList ∧
      AreSpelled "A='b c' ".toList ∧
      splitAssignments "A='b c' make".toList = ("A='b c' ".toList, "make".toList) := by
  have hsplit : splitAssignments "A='b c' D_1=x\\ y ls -l".toList =
      ("A='b c' D_1=x\\ y ".toList, "ls -l".toList) := by decide +kernel
  have hinner : '\'' ∉ "b c".toList := by decide
  have hvalue : IsSpelled "'b c'".toList := .single hinner .nil
  have hrun : AreSpelled "A='b c' ".toList :=
    .cons ⟨'A', [], rfl, by decide, by simp⟩ hvalue (List.cons_ne_nil ' ' []) (by simp [isBlank])
      .nil
  obtain ⟨-, -, -, hwords, -⟩ := (splitAssignments_maximal _ _ _).1 hsplit
  have hbody : splitAssignments "make".toList = ([], "make".toList) :=
    splitAssignments_of_eq_none (by decide)
  have hhead : ∀ c ∈ "make".toList.head?, isBlank c = false := by
    intro c hc
    obtain rfl : 'm' = c := by simpa using hc
    decide
  have hback := (splitAssignments_maximal [] _ _).2 hrun hhead hbody
  exact ⟨hsplit, hwords, hrun, hback.2 (by decide)⟩

/-- A value in closed quotes ends the run all the same if a line goes on between them. -/
theorem continued_value_refused :
    AreSpelled "A=\"x\\\ny\" ".toList ∧ splitAssignments "ls".toList = ([], "ls".toList) ∧
      splitAssignments "A=\"x\\\ny\" ls".toList = ([], "A=\"x\\\ny\" ls".toList) := by
  have hinner : IsInDouble "x\\\ny".toList :=
    .char (by decide) (by decide) (.pair (.char (by decide) (by decide) .nil))
  refine ⟨?_, splitAssignments_of_eq_none (by decide), splitAssignments_of_eq_none (by decide)⟩
  exact .cons ⟨'A', [], rfl, by decide, by simp⟩ (.double hinner .nil)
    (List.cons_ne_nil ' ' []) (by simp [isBlank]) .nil

end CompactShell.Shell
