import CompactShell.Log.Redaction
import CompactShell.Proofs.Log.Replacing
import CompactShell.Proofs.Shell.Assignments

/-!
# Assigned secrets

What is assigned to a name that speaks of a secret is replaced up to the first white space, and what
stands behind the white space is looked at as a text of its own (`replaceAll_assignedSecret`). So
nothing in a log depends on the value up to there (`assigned_secret_leaves_no_trace`).

White space ends a value here that the shell would go on reading: in quotes, or behind a backslash.
The rest of such a value is no secret to anyone who reads the log (`quoted_blank_leaves_trace`).
-/

namespace CompactShell.Log

open Text Shell

/-! ## Characters of names -/

theorem toNat_toLower (c : Char) :
    c.toLower.toNat = if 65 ≤ c.toNat ∧ c.toNat ≤ 90 then c.toNat + 32 else c.toNat := by
  unfold Char.toLower
  simp only [ge_iff_le, UInt32.le_iff_toNat_le]
  split
  · rename_i h
    have hupper : 65 ≤ c.toNat ∧ c.toNat ≤ 90 := h
    have hsmall : c.toNat + 32 < 2 ^ 32 := by omega
    rw [if_pos hupper]
    exact Nat.mod_eq_of_lt hsmall
  · rename_i h
    have hother : ¬ (65 ≤ c.toNat ∧ c.toNat ≤ 90) := h
    rw [if_neg hother]

theorem isAlphanum_toLower (c : Char) : c.toLower.isAlphanum = c.isAlphanum := by
  rw [Bool.eq_iff_iff, isAlphanum_iff, isAlphanum_iff, covers_iff, covers_iff]
  simp only [List.mem_cons, List.not_mem_nil, or_false, exists_eq_or_imp, exists_eq_left,
    toNat_toLower]
  split
  · omega
  · omega

/-- The letters outside ASCII that stand for one in a name. -/
def foldedLetters : List Char :=
  ['\u0130', '\u0131', '\u017F', '\u212A']

/-- A class of characters that holds none of them is folded by lowering its letters. -/
theorem fold_of_class {p : Char → Bool} (hp : foldedLetters.all (fun c => !p c) = true) {c : Char}
    (h : p c = true) : fold c = c.toLower := by
  have hother : c ∉ foldedLetters := by
    intro hc
    have hno := List.all_eq_true.1 hp c hc
    rw [h] at hno
    exact Bool.noConfusion hno
  simp only [foldedLetters, List.mem_cons, List.not_mem_nil, or_false, not_or] at hother
  obtain ⟨hdotted, hdotless, hlong, hkelvin⟩ := hother
  rw [fold, decide_eq_false hdotted, decide_eq_false hdotless, Bool.or_false,
    if_neg Bool.false_ne_true, if_neg hlong, if_neg hkelvin]

/-- White space ends a name. -/
theorem isKeyChar_of_isSpace {c : Char} (h : isSpace c = true) : isKeyChar c = false := by
  have hletter : c.isAlphanum = false := by
    rw [Bool.eq_false_iff, ne_eq, isAlphanum_iff, Bool.not_eq_true]
    exact not_covers_of_apart (by decide) h
  have hunderscore : c ≠ '_' := by
    intro heq
    rw [heq] at h
    cases h
  rw [isKeyChar, fold_of_class (by decide) h, isAlphanum_toLower, hletter,
    decide_eq_false hunderscore]
  rfl

/-- The name of a variable that speaks of a secret, in capital letters. -/
def IsSecretName (name : List Char) : Prop :=
  (name.all fun c => c.isUpper || c.isDigit || c = '_') = true ∧
    ∃ word ∈ ["TOKEN", "SECRET", "PASSWORD", "PASS", "KEY", "CREDENTIALS"], word.toList <:+: name

theorem IsSecretName.isKeyChar {name : List Char} (h : IsSecretName name) {c : Char}
    (hc : c ∈ name) : isKeyChar c = true := by
  have hclass := List.all_eq_true.1 h.1 c hc
  rw [Bool.or_eq_true, Bool.or_eq_true, decide_eq_true_eq] at hclass
  have hletter : c.isAlphanum = true ∨ c = '_' := by
    show ((c.isUpper || c.isLower) || c.isDigit) = true ∨ c = '_'
    rcases hclass with (hupper | hdigit) | hunderscore
    · rw [hupper]
      exact .inl rfl
    · rw [hdigit, Bool.or_true]
      exact .inl rfl
    · exact .inr hunderscore
  rcases hletter with hletter | hunderscore
  · rw [Log.isKeyChar, fold_of_class (by decide) hletter, isAlphanum_toLower, hletter, Bool.true_or]
  · rw [hunderscore]
    decide

theorem IsSecretName.holds_keyword {name : List Char} (h : IsSecretName name) :
    (keywords.any fun keyword => holds keyword (name.map fold)) = true := by
  obtain ⟨-, word, hword, hinside⟩ := h
  have hlower : ∀ word ∈ ["TOKEN", "SECRET", "PASSWORD", "PASS", "KEY", "CREDENTIALS"],
      ∃ keyword ∈ keywords, keyword.toList = word.toList.map fold := by
    decide
  obtain ⟨keyword, hkeyword, hfold⟩ := hlower word hword
  refine List.any_eq_true.2 ⟨keyword, hkeyword, ?_⟩
  rw [holds_iff, hfold]
  exact hinside.map fold

/-! ## Assignments -/

/-- The secret that is assigned to a name, given what stands behind the name. -/
def assigned (name : List Char) : List Char → Option Finding
  | '=' :: rest =>
    let value := rest.takeWhile (!isSpace ·)
    if keywords.any (holds · (name.map fold)) && !value.isEmpty then
      some ⟨name ++ '=' :: mark, name.length + 1 + value.length⟩
    else none
  | _ => none

theorem assignedSecret_eq (before : Option Char) (text : List Char) :
    assignedSecret before text =
      if insideWord before then none
      else assigned (text.takeWhile isKeyChar) (text.dropWhile isKeyChar) := by
  unfold assignedSecret assigned
  rfl

theorem assigned_of_ne {name : List Char} {c : Char} (hc : c ≠ '=') (rest : List Char) :
    assigned name (c :: rest) = none := by
  unfold assigned
  split
  · rename_i heq
    exact absurd (List.cons.inj heq).1 hc
  · rfl

theorem length_le_of_assigned {name behind : List Char} {finding : Finding}
    (h : assigned name behind = some finding) :
    finding.length ≤ name.length + behind.length := by
  unfold assigned at h
  split at h
  · rename_i rest
    dsimp only at h
    split at h
    · have hvalue := (List.takeWhile_prefix (!isSpace ·) (l := rest)).length_le
      cases h
      rw [List.length_cons]
      dsimp only
      omega
    · cases h
  · cases h

variable {c : Char}

theorem ne_equals_of_isSpace (hc : isSpace c = true) : c ≠ '=' := by
  intro heq
  rw [heq] at hc
  cases hc

/-- White space ends a value. -/
theorem assigned_append (hc : isSpace c = true) (name behind rest : List Char) :
    assigned name (behind ++ c :: rest) = assigned name (behind ++ [c]) := by
  cases behind with
  | nil =>
    have hequals := ne_equals_of_isSpace hc
    rw [List.nil_append, List.nil_append, assigned_of_ne hequals, assigned_of_ne hequals]
  | cons d behind =>
    rw [List.cons_append, List.cons_append]
    by_cases hd : d = '='
    · have hend : (!isSpace c) = false := by
        rw [hc]
        rfl
      have hvalue : ∀ more : List Char, (behind ++ c :: more).takeWhile (!isSpace ·) =
          behind.takeWhile (!isSpace ·) :=
        takeWhile_append_cons hend behind
      rw [hd, assigned, assigned, hvalue, hvalue]
    · rw [assigned_of_ne hd, assigned_of_ne hd]

/-- **No assigned secret reaches over white space.** -/
theorem isClosed_assignedSecret (hc : isSpace c = true) (text : List Char) :
    IsClosed assignedSecret (text ++ [c]) := by
  have hkey := isKeyChar_of_isSpace hc
  intro front back htext hne before rest
  rw [assignedSecret_eq, assignedSecret_eq]
  constructor
  · -- whatever is left of the text ends with the white space too
    rcases List.eq_nil_or_concat back with hnil | ⟨other, d, hback⟩
    · exact absurd hnil hne
    · rw [List.concat_eq_append] at hback
      rw [hback, ← List.append_assoc] at htext
      have hlast : [c] = [d] := List.append_inj_right' htext rfl
      rw [hback, ← hlast, List.append_assoc, List.singleton_append, takeWhile_append_cons hkey,
        takeWhile_append_cons hkey, dropWhile_append_cons hkey, dropWhile_append_cons hkey,
        assigned_append hc]
  · intro finding hfinding
    split at hfinding
    · cases hfinding
    · have hlength := length_le_of_assigned hfinding
      rw [← List.length_append, List.takeWhile_append_dropWhile] at hlength
      exact hlength

/-- A text that starts with white space is no assignment, whatever stands in front of it. -/
theorem replaceFrom_assignedSecret_of_space {text : List Char}
    (h : ∀ c ∈ text.head?, isSpace c = true) (before : Option Char) :
    replaceFrom assignedSecret 0 before text = replaceAll assignedSecret text := by
  cases text with
  | nil => rfl
  | cons c rest =>
    have hc := h c rfl
    have hkey := isKeyChar_of_isSpace hc
    have hnone : ∀ before, assignedSecret before (c :: rest) = none := by
      intro before
      rw [assignedSecret_eq, List.dropWhile_cons, hkey, if_neg Bool.false_ne_true,
        assigned_of_ne (ne_equals_of_isSpace hc)]
      split
      · rfl
      · rfl
    rw [replaceAll, replaceFrom, replaceFrom, hnone, hnone]

theorem insideWord_lastOr {text : List Char} (h : ∀ c ∈ text.getLast?, isBlank c = true) :
    insideWord (lastOr none text) = false := by
  rcases List.eq_nil_or_concat text with rfl | ⟨front, c, rfl⟩
  · rfl
  · rw [List.concat_eq_append] at h ⊢
    have hc : isBlank c = true := h c List.getLast?_concat
    rw [lastOr_concat]
    simp only [isBlank, Bool.or_eq_true, decide_eq_true_eq] at hc
    rcases hc with rfl | rfl
    · decide
    · decide

/-- A value that the shell reads starts with no white space. -/
theorem not_isSpace_head_of_isValue {value : List Char} (h : IsValue value) :
    ∀ c ∈ value.head?, isSpace c = false := by
  intro c hc
  obtain ⟨rest, rfl⟩ := List.head?_eq_some_iff.1 hc
  have hread := h.2 ' ' [] rfl
  rw [List.cons_append, assignedValue?] at hread
  by_contra hspace
  rw [Bool.not_eq_false] at hspace
  rw [hspace] at hread
  split at hread
  · cases hread
  · split at hread
    · split at hread
      · cases hread
      · cases hread
    · rename_i hstart
      exact hstart rfl

variable {a name value b : List Char}

theorem isClosed_of_isBlank (h : ∀ c ∈ a.getLast?, isBlank c = true) :
    IsClosed assignedSecret a := by
  rcases List.eq_nil_or_concat a with rfl | ⟨front, c, rfl⟩
  · exact isClosed_nil _
  · rw [List.concat_eq_append] at h ⊢
    exact isClosed_assignedSecret (isSpace_of_isBlank (h c List.getLast?_concat)) front

/-- The secret that is found at its name: its value goes up to the first white space. -/
theorem assignedSecret_of_isSecretName (hname : IsSecretName name) {before : Option Char}
    (hbefore : insideWord before = false) (hne : value ≠ [])
    (hvalue : ∀ c ∈ value, isSpace c = false) {rest : List Char}
    (hrest : ∀ c ∈ rest.head?, isSpace c = true) :
    assignedSecret before ((name ++ '=' :: value) ++ rest) =
      some ⟨name ++ '=' :: mark, (name ++ '=' :: value).length⟩ := by
  have hkeys : ∀ c ∈ name, isKeyChar c = true := fun c hc => hname.isKeyChar hc
  have hequals : isKeyChar '=' = false := by decide
  have hsolid : ∀ c ∈ value, (!isSpace c) = true := by
    intro c hc
    rw [hvalue c hc]
    rfl
  have hstop : rest.takeWhile (!isSpace ·) = [] := by
    cases rest with
    | nil => rfl
    | cons c rest =>
      rw [List.takeWhile_cons, hrest c rfl]
      rfl
  have hfound : (value ++ rest).takeWhile (!isSpace ·) = value := by
    rw [List.takeWhile_append_of_pos hsolid, hstop, List.append_nil]
  rw [assignedSecret_eq, hbefore, if_neg Bool.false_ne_true, List.append_assoc, List.cons_append,
    takeWhile_append_cons hequals, dropWhile_append_cons hequals,
    List.takeWhile_eq_self_iff.2 hkeys, List.dropWhile_eq_nil_iff.2 hkeys, List.nil_append, assigned,
    hfound, hname.holds_keyword, List.isEmpty_eq_false_iff.2 hne, Bool.not_false, Bool.and_self,
    if_pos rfl, List.length_append, List.length_cons, Nat.add_right_comm, Nat.add_assoc]

/-- **An assigned secret is replaced up to the first white space.** What stands in front of it and
what stands behind are texts of their own. -/
theorem replaceAll_assignedSecret (ha : ∀ c ∈ a.getLast?, isBlank c = true)
    (hname : IsSecretName name) (hne : value ≠ []) (hhead : ∀ c ∈ value.head?, isSpace c = false)
    (hb : ∀ c ∈ b.head?, isSpace c = true) :
    replaceAll assignedSecret (a ++ name ++ '=' :: value ++ b) =
      replaceAll assignedSecret a ++ (name ++ '=' :: mark) ++
        replaceAll assignedSecret (value.dropWhile (!isSpace ·) ++ b) := by
  have hsolid : value.takeWhile (!isSpace ·) ≠ [] := by
    cases value with
    | nil => exact absurd rfl hne
    | cons c value =>
      rw [List.takeWhile_cons, hhead c rfl]
      exact List.cons_ne_nil _ _
  have hvalue : ∀ c ∈ value.takeWhile (!isSpace ·), isSpace c = false := by
    intro c hc
    have hin := List.mem_takeWhile_imp hc
    rwa [Bool.not_eq_true'] at hin
  have hrest : ∀ c ∈ (value.dropWhile (!isSpace ·) ++ b).head?, isSpace c = true := by
    intro c hc
    cases hdrop : value.dropWhile (!isSpace ·) with
    | nil =>
      rw [hdrop] at hc
      exact hb c hc
    | cons d rest =>
      have hd := head?_dropWhile d (show d ∈ (value.dropWhile (!isSpace ·)).head? by rw [hdrop]; rfl)
      rw [hdrop] at hc
      cases hc
      rwa [Bool.not_eq_false'] at hd
  -- what the finder takes for the value ends where the white space starts
  have hwhole : a ++ name ++ '=' :: value ++ b =
      a ++ ((name ++ '=' :: value.takeWhile (!isSpace ·)) ++
        (value.dropWhile (!isSpace ·) ++ b)) := by
    simp only [List.append_assoc, List.cons_append]
    rw [← List.append_assoc (value.takeWhile _), List.takeWhile_append_dropWhile]
  have hfound := assignedSecret_of_isSecretName hname (insideWord_lastOr ha) hsolid hvalue hrest
  have htext : name ++ '=' :: value.takeWhile (!isSpace ·) ≠ [] :=
    List.append_ne_nil_of_right_ne_nil _ (List.cons_ne_nil _ _)
  rw [hwhole, replaceAll, replaceFrom_append (isClosed_of_isBlank ha) (Nat.zero_le _),
    replaceFrom_of_found htext hfound, replaceFrom_assignedSecret_of_space hrest,
    List.append_assoc (replaceAll assignedSecret a)]
  rfl

/-- The other kinds of secrets are looked for in what replacing the assigned ones leaves. -/
theorem redact_eq (text : List Char) :
    redact text =
      [quotedHeader, bareHeader, urlCredentials, accessToken].foldl
        (fun text find => replaceAll find text) (replaceAll assignedSecret text) := rfl

/-- **An assigned secret leaves no trace of its value up to the first white space.** Two values that
the shell reads, whether bare, escaped or quoted, are logged alike if they agree from their first
white space on. So they are if there is none. -/
theorem assigned_secret_leaves_no_trace {first second : List Char}
    (ha : ∀ c ∈ a.getLast?, isBlank c = true) (hname : IsSecretName name)
    (hfirst : IsValue first) (hfirst' : first ≠ []) (hsecond : IsValue second)
    (hsecond' : second ≠ []) (hb : ∀ c ∈ b.head?, isBlank c = true)
    (hrest : first.dropWhile (!isSpace ·) = second.dropWhile (!isSpace ·)) :
    redact (a ++ name ++ '=' :: first ++ b) = redact (a ++ name ++ '=' :: second ++ b) := by
  have hb' : ∀ c ∈ b.head?, isSpace c = true := fun c hc => isSpace_of_isBlank (hb c hc)
  have hsame : replaceAll assignedSecret (a ++ name ++ '=' :: first ++ b) =
      replaceAll assignedSecret (a ++ name ++ '=' :: second ++ b) := by
    rw [replaceAll_assignedSecret ha hname hfirst' (not_isSpace_head_of_isValue hfirst) hb',
      replaceAll_assignedSecret ha hname hsecond' (not_isSpace_head_of_isValue hsecond) hb', hrest]
  rw [redact_eq, redact_eq, hsame]

/-- What is read as a value in front of a blank is one. -/
theorem isValue_of_assignedValue? {rest : List Char}
    (h : assignedValue? .start (value ++ rest) = some (value, rest)) : IsValue value :=
  (assignedValue?_spec h).2

/-- A quoted value and an escaped one. -/
theorem assigned_secret_leaves_no_trace_quoted :
    redact ("env ".toList ++ "API_KEY".toList ++ '=' :: "\"it's\"".toList ++ " make".toList) =
        redact ("env ".toList ++ "API_KEY".toList ++ '=' :: "a\\;b".toList ++ " make".toList) ∧
      redact ("env ".toList ++ "API_KEY".toList ++ '=' :: "a\\;b".toList ++ " make".toList) =
        "env API_KEY=<redacted> make".toList := by
  have ha : ∀ c ∈ "env ".toList.getLast?, isBlank c = true := by
    intro c hc
    cases hc
    rfl
  have hname : IsSecretName "API_KEY".toList :=
    ⟨by decide, "KEY", by decide, "API_".toList, [], rfl⟩
  have hquoted : assignedValue? .start ("\"it's\"".toList ++ [' ']) =
      some ("\"it's\"".toList, [' ']) := by decide
  have hescaped : assignedValue? .start ("a\\;b".toList ++ [' ']) =
      some ("a\\;b".toList, [' ']) := by decide
  have hb : ∀ c ∈ " make".toList.head?, isBlank c = true := by
    intro c hc
    cases hc
    rfl
  refine ⟨?_, by decide +kernel⟩
  exact assigned_secret_leaves_no_trace ha hname (isValue_of_assignedValue? hquoted) (by decide)
    (isValue_of_assignedValue? hescaped) (by decide) hb (by decide)

/-- The shell reads on behind the blank, the log does not. -/
theorem quoted_blank_leaves_trace :
    IsSecretName "TOKEN".toList ∧ IsValue "\"my secret\"".toList ∧ IsValue "x".toList ∧
      redact ("TOKEN".toList ++ '=' :: "\"my secret\"".toList ++ " ls".toList) ≠
        redact ("TOKEN".toList ++ '=' :: "x".toList ++ " ls".toList) := by
  have hname : IsSecretName "TOKEN".toList := ⟨by decide, "TOKEN", by decide, [], [], rfl⟩
  have hquoted : assignedValue? .start ("\"my secret\"".toList ++ [' ']) =
      some ("\"my secret\"".toList, [' ']) := by decide
  have hbare : assignedValue? .start ("x".toList ++ [' ']) = some ("x".toList, [' ']) := by decide
  exact ⟨hname, isValue_of_assignedValue? hquoted, isValue_of_assignedValue? hbare,
    by decide +kernel⟩

end CompactShell.Log
