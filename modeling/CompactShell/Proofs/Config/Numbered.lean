import CompactShell.Proofs.Config.Faults
import CompactShell.Proofs.Config.Reports
import CompactShell.Proofs.Shell.Lines

/-!
# How the faults of disabled rules are printed

The messages of the faults are joined with a semicolon and a space into one, and the check cuts that
one where a semicolon has a space behind it, to number the faults. Cutting undoes joining exactly if
no message has the two characters in it (`flatMap_splitParts_eq_self_iff`), and only the label of an
unknown rule can bring them there (`holds_faultMessage`). The label may bring a newline too, which
is printed as it is.

Nothing else comes between the faults and their numbered lines (`faults_numbered_iff`).
-/

namespace CompactShell.Command.Verification

open Config Host Json Text

variable {host : Host} {text a b : List Char} {texts : List (List Char)}

/-! ## Cutting at the separator -/

theorem splitParts_ne_nil (text : List Char) : splitParts text ≠ [] := by
  fun_cases splitParts text with
  | case1 => exact List.cons_ne_nil _ _
  | case2 => exact List.cons_ne_nil _ _
  | case3 => exact List.cons_ne_nil _ _
  | case4 => exact List.cons_ne_nil _ _

/-- A character goes in front of the first part, unless it starts a separator. -/
theorem splitParts_cons {c : Char} (h : c = ';' → text.head? ≠ some ' ') :
    splitParts (c :: text) = (splitParts text).modifyHead (c :: ·) := by
  rw [splitParts]
  · cases hparts : splitParts text with
    | nil => exact absurd hparts (splitParts_ne_nil text)
    | cons part parts => rfl
  · intro rest hc htext
    rw [htext] at h
    exact h hc rfl

/-- **A text is cut at every separator.** The separator cannot overlap with itself, so it does not
matter what stands in front of it. -/
theorem splitParts_append (a b : List Char) :
    splitParts (a ++ ';' :: ' ' :: b) = splitParts a ++ splitParts b := by
  fun_induction splitParts a with
  | case1 => rfl
  | case2 rest ih =>
    rw [List.cons_append, List.cons_append, splitParts, ih]
    rfl
  | case3 c rest hc hrest ih => exact absurd hrest (splitParts_ne_nil rest)
  | case4 c rest hc part parts hrest ih =>
    -- what follows the character is what followed it before, or the semicolon
    have hnext : c = ';' → (rest ++ ';' :: ' ' :: b).head? ≠ some ' ' := by
      intro hsemicolon
      cases rest with
      | nil => exact fun hspace => absurd (Option.some.inj hspace) (by decide)
      | cons d rest =>
        intro hspace
        obtain rfl : d = ' ' := Option.some.inj hspace
        exact hc rest hsemicolon rfl
    rw [List.cons_append, splitParts_cons hnext, ih, hrest]
    rfl

/-- The text is its parts with the separator between each two. -/
theorem intercalate_splitParts (text : List Char) :
    "; ".toList.intercalate (splitParts text) = text := by
  fun_induction splitParts text with
  | case1 => rfl
  | case2 rest ih =>
    obtain ⟨part, parts, hparts⟩ := List.exists_cons_of_ne_nil (splitParts_ne_nil rest)
    rw [hparts] at ih ⊢
    rw [List.intercalate_cons_cons, ih]
    rfl
  | case3 c rest hc hrest ih => exact absurd hrest (splitParts_ne_nil rest)
  | case4 c rest hc part parts hrest ih =>
    rw [hrest] at ih
    cases parts with
    | nil =>
      rw [List.intercalate_singleton] at ih ⊢
      rw [ih]
    | cons second parts =>
      rw [List.intercalate_cons_cons] at ih ⊢
      rw [← ih]
      rfl

theorem splitParts_eq_singleton_iff : splitParts text = [text] ↔ holds "; " text = false := by
  rw [Bool.eq_false_iff, ne_eq, holds_iff]
  constructor
  · intro h hinfix
    -- a separator leaves a part on each side
    obtain ⟨front, back, rfl⟩ := hinfix
    have hcut := splitParts_append front back
    have hfront := List.length_pos_iff.2 (splitParts_ne_nil front)
    have hback := List.length_pos_iff.2 (splitParts_ne_nil back)
    have hlength := congrArg List.length h
    rw [List.append_assoc, List.length_singleton] at hlength
    have htwo := congrArg List.length hcut
    rw [List.length_append] at htwo
    change (splitParts (front ++ ';' :: ' ' :: back)).length = 1 at hlength
    omega
  · intro hnone
    have hjoin := intercalate_splitParts text
    obtain ⟨part, parts, hparts⟩ := List.exists_cons_of_ne_nil (splitParts_ne_nil text)
    rw [hparts] at hjoin ⊢
    cases parts with
    | nil =>
      rw [List.intercalate_singleton] at hjoin
      rw [hjoin]
    | cons second parts =>
      rw [List.intercalate_cons_cons] at hjoin
      exact absurd ⟨part, _, hjoin⟩ hnone

/-- **What joined texts are cut into.** -/
theorem splitParts_intercalate (hne : texts ≠ []) :
    splitParts ("; ".toList.intercalate texts) = texts.flatMap splitParts := by
  induction texts with
  | nil => exact absurd rfl hne
  | cons first texts ih =>
    cases texts with
    | nil => rw [List.intercalate_singleton, List.flatMap_singleton]
    | cons second texts =>
      rw [List.intercalate_cons_cons, List.append_assoc, List.flatMap_cons,
        ← ih (List.cons_ne_nil _ _)]
      exact splitParts_append _ _

theorem length_le_length_flatMap_splitParts (texts : List (List Char)) :
    texts.length ≤ (texts.flatMap splitParts).length := by
  have hpositive : ∀ n ∈ texts.map fun text => (splitParts text).length, 1 ≤ n := by
    intro n hn
    obtain ⟨text, -, rfl⟩ := List.mem_map.1 hn
    exact List.length_pos_iff.2 (splitParts_ne_nil text)
  have hsum := List.length_le_sum_of_one_le _ hpositive
  rwa [List.length_map, ← List.length_flatMap] at hsum

/-- **Cutting undoes joining** exactly if no text has a separator of its own. -/
theorem flatMap_splitParts_eq_self_iff :
    texts.flatMap splitParts = texts ↔ ∀ text ∈ texts, holds "; " text = false := by
  constructor
  · intro h
    -- every text has a part, so none has two
    induction texts with
    | nil => exact List.forall_mem_nil _
    | cons first texts ih =>
      rw [List.flatMap_cons] at h
      have htotal := congrArg List.length h
      have hrest := length_le_length_flatMap_splitParts texts
      have hfirst := List.length_pos_iff.2 (splitParts_ne_nil first)
      rw [List.length_append, List.length_cons] at htotal
      obtain ⟨part, hpart⟩ := List.length_eq_one_iff.1 (show (splitParts first).length = 1 by omega)
      rw [hpart, List.singleton_append] at h
      obtain ⟨rfl, htexts⟩ := List.cons.inj h
      exact List.forall_mem_cons.2 ⟨splitParts_eq_singleton_iff.1 hpart, ih htexts⟩
  · intro h
    calc texts.flatMap splitParts = texts.flatMap fun text => [text] :=
          List.flatMap_congr fun text htext => splitParts_eq_singleton_iff.2 (h text htext)
      _ = texts := List.flatMap_singleton' texts

/-! ## Messages -/

/-- The message of one fault. -/
def faultMessage : Nat × EntryFault → String
  | (position, fault) => s!"disabled_rules[{position}]: {fault.message}"

theorem message_entries (faults : List (Nat × EntryFault)) :
    (Fault.entries faults).message = "; ".intercalate (faults.map faultMessage) := rfl

/-- The label that a fault is about. -/
def label? : EntryFault → Option String
  | .notText => none
  | .empty => none
  | .unknown label => some label
  | .repeated label => some label

theorem isDigit_of_mem_toString {n : Nat} {c : Char} (h : c ∈ (toString n).toList) :
    c.isDigit = true := by
  have hdigits : c ∈ Nat.toDigits 10 n := by
    rw [← Nat.toList_repr]
    exact h
  exact Nat.isDigit_of_mem_toDigits (by decide) (by decide) hdigits

/-- A character of neither the separator nor the end of a line. -/
def isOrdinary (c : Char) : Bool :=
  c != ';' && c != '\n'

theorem isOrdinary_of_isDigit {c : Char} (h : c.isDigit = true) : isOrdinary c = true := by
  have hsemicolon : c ≠ ';' := by
    intro hc
    rw [hc] at h
    cases h
  have hnewline : c ≠ '\n' := by
    intro hc
    rw [hc] at h
    cases h
  rw [isOrdinary, bne_iff_ne.2 hsemicolon, bne_iff_ne.2 hnewline]
  rfl

theorem toList_faultMessage (position : Nat) (fault : EntryFault) :
    (faultMessage (position, fault)).toList = "disabled_rules[".toList ++
      ((toString position).toList ++ ("]: ".toList ++ fault.message.toList)) := by
  change (("disabled_rules[" ++ toString position) ++ "]: " ++ fault.message).toList = _
  simp only [String.toList_append, List.append_assoc]

/-- What is said of an entry is ordinary up to the label, and has at most a quote behind it. -/
theorem exists_toList_message (fault : EntryFault) :
    ∃ front back, fault.message.toList = front ++ (((label? fault).getD "").toList ++ back) ∧
      (∀ c ∈ front, isOrdinary c = true) ∧ (back = [] ∨ back = ['\'']) := by
  cases fault with
  | notText => exact ⟨"must be a string".toList, [], rfl, by decide, .inl rfl⟩
  | empty => exact ⟨"must not be empty".toList, [], rfl, by decide, .inl rfl⟩
  | unknown label =>
    refine ⟨"unknown rule '".toList, ['\''], ?_, by decide, .inr rfl⟩
    change (("unknown rule '" ++ label) ++ "'").toList = _
    rw [String.toList_append, String.toList_append, List.append_assoc]
    rfl
  | repeated label =>
    refine ⟨"duplicate rule '".toList, ['\''], ?_, by decide, .inr rfl⟩
    change (("duplicate rule '" ++ label) ++ "'").toList = _
    rw [String.toList_append, String.toList_append, List.append_assoc]
    rfl

/-- So is a message. -/
theorem exists_toList_faultMessage (position : Nat) (fault : EntryFault) :
    ∃ front back, (faultMessage (position, fault)).toList =
        front ++ (((label? fault).getD "").toList ++ back) ∧
      (∀ c ∈ front, isOrdinary c = true) ∧ (back = [] ∨ back = ['\'']) := by
  obtain ⟨front, back, hmessage, hfront, hback⟩ := exists_toList_message fault
  refine ⟨"disabled_rules[".toList ++ ((toString position).toList ++ ("]: ".toList ++ front)), back,
    ?_, ?_, hback⟩
  · rw [toList_faultMessage, hmessage]
    simp only [List.append_assoc]
  · intro c hc
    rcases List.mem_append.1 hc with hc | hc
    · exact (show ∀ c ∈ "disabled_rules[".toList, isOrdinary c = true by decide) c hc
    rcases List.mem_append.1 hc with hc | hc
    · exact isOrdinary_of_isDigit (isDigit_of_mem_toString hc)
    rcases List.mem_append.1 hc with hc | hc
    · exact (show ∀ c ∈ "]: ".toList, isOrdinary c = true by decide) c hc
    · exact hfront c hc

theorem ne_of_isOrdinary {c : Char} (h : isOrdinary c = true) : c ≠ ';' ∧ c ≠ '\n' := by
  rw [isOrdinary, Bool.and_eq_true, bne_iff_ne, bne_iff_ne] at h
  exact h

theorem holds_append_of_ordinary {front text : List Char}
    (h : ∀ c ∈ front, isOrdinary c = true) : holds "; " (front ++ text) = holds "; " text := by
  rw [Bool.eq_iff_iff, holds_iff, holds_iff]
  induction front with
  | nil => rfl
  | cons c front ih =>
    obtain ⟨hc, hfront⟩ := List.forall_mem_cons.1 h
    rw [List.cons_append, List.infix_cons_iff, ih hfront]
    refine or_iff_right fun hstart => ?_
    exact (ne_of_isOrdinary hc).1 (List.cons_prefix_cons.1 hstart).1.symm

theorem holds_concat_quote (text : List Char) : holds "; " (text ++ ['\'']) = holds "; " text := by
  rw [Bool.eq_iff_iff, holds_iff, holds_iff, List.infix_concat_iff]
  refine or_iff_right fun hend => ?_
  obtain ⟨front, hfront⟩ := hend
  have hlast := congrArg List.getLast? hfront
  rw [List.getLast?_concat, List.getLast?_append_of_ne_nil _ (by decide)] at hlast
  exact absurd hlast (by decide)

/-- **A message holds a separator exactly if its label does.** -/
theorem holds_faultMessage (position : Nat) (fault : EntryFault) :
    holds "; " (faultMessage (position, fault)).toList =
      holds "; " ((label? fault).getD "").toList := by
  obtain ⟨front, back, hline, hfront, hback⟩ := exists_toList_faultMessage position fault
  rw [hline, holds_append_of_ordinary hfront]
  rcases hback with rfl | rfl
  · rw [List.append_nil]
  · exact holds_concat_quote _

/-- **A message holds a newline exactly if its label does.** -/
theorem newline_mem_faultMessage_iff (position : Nat) (fault : EntryFault) :
    '\n' ∈ (faultMessage (position, fault)).toList ↔ '\n' ∈ ((label? fault).getD "").toList := by
  obtain ⟨front, back, hline, hfront, hback⟩ := exists_toList_faultMessage position fault
  have hquote : '\n' ∉ back := by
    rcases hback with rfl | rfl
    · exact List.not_mem_nil
    · decide
  rw [hline, List.mem_append, List.mem_append, or_iff_left hquote]
  exact or_iff_right fun h => (ne_of_isOrdinary (hfront _ h)).2 rfl

/-- What the labels decide, and what all rules have, is decided by the labels of unknown rules. -/
theorem forall_faultMessage_iff {P : List Char → Prop} {entries : List Value}
    (hlabel : ∀ position fault,
      P (faultMessage (position, fault)).toList ↔ P ((label? fault).getD "").toList)
    (hnil : P []) (hknown : ∀ label ∈ Rule.labels, P label.toList) :
    (∀ message ∈ (entryFaults 0 [] entries).map faultMessage, P message.toList) ↔
      ∀ position label, (position, .unknown label) ∈ entryFaults 0 [] entries →
        P label.toList := by
  rw [List.forall_mem_map]
  constructor
  · intro h position label hwrong
    exact (hlabel position _).1 (h _ hwrong)
  · intro h wrong hwrong
    obtain ⟨position, fault⟩ := wrong
    rw [hlabel]
    cases fault with
    | notText => exact hnil
    | empty => exact hnil
    | unknown label => exact h position label hwrong
    | repeated label =>
      obtain ⟨entry, -, hoffends⟩ := ((areFaults_entryFaults entries).complete _ _).1 hwrong
      cases hoffends with
      | repeated hlabels => exact hknown label hlabels

/-! ## Lines -/

variable {lines : List String} {faults : List (Nat × EntryFault)}

theorem mem_of_mem_splitParts {part : List Char} {c : Char} (hpart : part ∈ splitParts text)
    (hc : c ∈ part) : c ∈ text := by
  fun_induction splitParts text generalizing part with
  | case1 =>
    rw [List.mem_singleton.1 hpart] at hc
    exact absurd hc List.not_mem_nil
  | case2 rest ih =>
    rcases List.mem_cons.1 hpart with rfl | hpart
    · exact absurd hc List.not_mem_nil
    · exact List.mem_cons_of_mem _ (List.mem_cons_of_mem _ (ih hpart hc))
  | case3 d rest hd hrest ih => exact absurd hrest (splitParts_ne_nil rest)
  | case4 d rest hd first parts hrest ih =>
    rw [hrest] at ih
    rcases List.mem_cons.1 hpart with rfl | hpart
    · rcases List.mem_cons.1 hc with rfl | hc
      · exact List.mem_cons_self
      · exact List.mem_cons_of_mem _ (ih List.mem_cons_self hc)
    · exact List.mem_cons_of_mem _ (ih (List.mem_cons_of_mem _ hpart) hc)

/-- A number brings no newline. -/
theorem newline_not_mem_numbered_iff :
    (∀ line ∈ numbered lines, '\n' ∉ line.toList) ↔ ∀ line ∈ lines, '\n' ∉ line.toList := by
  have hline : ∀ (i : Nat) (line : String),
      '\n' ∈ (s!"    {i + 1}. {line}" : String).toList ↔ '\n' ∈ line.toList := by
    intro i line
    change '\n' ∈ (("    " ++ toString (i + 1)) ++ ". " ++ line).toList ↔ _
    simp only [String.toList_append, List.append_assoc, List.mem_append]
    have hdigits : '\n' ∉ (toString (i + 1)).toList := fun h => by
      cases isDigit_of_mem_toString h
    rw [or_iff_right (by decide), or_iff_right hdigits, or_iff_right (by decide)]
  constructor
  · intro h line hmem
    obtain ⟨i, hi, rfl⟩ := List.mem_iff_getElem.1 hmem
    rw [← hline i]
    exact h _ (List.mem_mapIdx.2 ⟨i, hi, rfl⟩)
  · intro h line hmem
    obtain ⟨i, hi, rfl⟩ := List.mem_mapIdx.1 hmem
    rw [hline i]
    exact h _ (List.getElem_mem hi)

/-- Printed lines are found in what is printed, with nothing behind the last. -/
theorem splitLines_printed (h : ∀ line ∈ lines, '\n' ∉ line.toList) :
    splitLines (printed lines).toList = lines.map String.toList ++ [[]] := by
  induction lines with
  | nil => rfl
  | cons line lines ih =>
    obtain ⟨hline, hlines⟩ := List.forall_mem_cons.1 h
    have hprinted : (printed (line :: lines)).toList =
        line.toList ++ '\n' :: (printed lines).toList := by
      simp only [printed, String.toList_join, List.map_cons, List.flatMap_cons,
        String.toList_append, List.append_assoc]
      rfl
    rw [hprinted, Shell.splitLines_append_newline, Shell.splitLines_of_not_mem hline, ih hlines]
    rfl

/-- The numbered lines are the parts of the messages. -/
theorem problemLines_entries (hne : faults ≠ []) :
    problemLines (.invalid (.entries faults)) =
      numbered ((((faults.map faultMessage).map String.toList).flatMap splitParts).map
        String.ofList) := by
  have hmessages : (faults.map faultMessage).map String.toList ≠ [] := by
    intro hnil
    exact hne (List.map_eq_nil_iff.1 (List.map_eq_nil_iff.1 hnil))
  rw [← splitParts_intercalate hmessages, ← String.toList_intercalate, ← message_entries]
  rfl

/-- **Each message gets its line** exactly if none holds a separator. -/
theorem problemLines_eq_numbered_iff (hne : faults ≠ []) :
    problemLines (.invalid (.entries faults)) = numbered (faults.map faultMessage) ↔
      ∀ message ∈ faults.map faultMessage, holds "; " message.toList = false := by
  have hmessages : ((faults.map faultMessage).map String.toList).map String.ofList =
      faults.map faultMessage := by
    rw [List.map_map]
    exact List.map_id'' (fun message => String.ofList_toList) _
  calc problemLines (.invalid (.entries faults)) = numbered (faults.map faultMessage)
      ↔ (((faults.map faultMessage).map String.toList).flatMap splitParts).map String.ofList =
          ((faults.map faultMessage).map String.toList).map String.ofList := by
        rw [problemLines_entries hne, numbered_injective.eq_iff, hmessages]
    _ ↔ ((faults.map faultMessage).map String.toList).flatMap splitParts =
          (faults.map faultMessage).map String.toList :=
        (List.map_injective_iff.2 fun _ _ => String.ofList_injective).eq_iff
    _ ↔ ∀ message ∈ faults.map faultMessage, holds "; " message.toList = false := by
        rw [flatMap_splitParts_eq_self_iff]
        exact List.forall_mem_map

/-- **Each is printed on one line** exactly if no message holds a newline either. -/
theorem splitLines_problemLines_iff (hne : faults ≠ []) :
    splitLines (printed (problemLines (.invalid (.entries faults)))).toList =
        (numbered (faults.map faultMessage)).map String.toList ++ [[]] ↔
      ∀ message ∈ faults.map faultMessage,
        holds "; " message.toList = false ∧ '\n' ∉ message.toList := by
  constructor
  · intro h
    have hnumbered : ∀ line ∈ numbered (faults.map faultMessage), '\n' ∉ line.toList := by
      intro line hline
      have hfound : line.toList ∈
          splitLines (printed (problemLines (.invalid (.entries faults)))).toList := by
        rw [h]
        exact List.mem_append_left _ (List.mem_map_of_mem hline)
      exact Shell.not_mem_of_mem_splitLines hfound
    have hmessages := newline_not_mem_numbered_iff.1 hnumbered
    -- the parts have no newline either, so they are what is found
    have hproblem : ∀ line ∈ problemLines (.invalid (.entries faults)), '\n' ∉ line.toList := by
      rw [problemLines_entries hne, newline_not_mem_numbered_iff]
      intro line hline hnewline
      obtain ⟨part, hpart, rfl⟩ := List.mem_map.1 hline
      obtain ⟨_, htext, hpart⟩ := List.mem_flatMap.1 hpart
      obtain ⟨message, hmessage, rfl⟩ := List.mem_map.1 htext
      rw [String.toList_ofList] at hnewline
      exact hmessages message hmessage (mem_of_mem_splitParts hpart hnewline)
    rw [splitLines_printed hproblem, List.append_cancel_right_eq] at h
    have hlines := List.map_injective_iff.2 (fun _ _ => String.toList_inj.1) h
    exact fun message hmessage =>
      ⟨(problemLines_eq_numbered_iff hne).1 hlines message hmessage, hmessages message hmessage⟩
  · intro h
    rw [(problemLines_eq_numbered_iff hne).2 fun message hmessage => (h message hmessage).1]
    exact splitLines_printed (newline_not_mem_numbered_iff.2 fun message hmessage =>
      (h message hmessage).2)

/-! ## Runs -/

variable {earlier later : List Scope} {scope : Scope}

/-- The lines of some files start with an empty one, if there are any. -/
theorem head?_errors (host : Host) (files : List Scope) :
    ∀ line ∈ ((blocks host files).1.flatMap Block.errors).head?, line = "" := by
  induction files with
  | nil =>
    intro line hline
    cases hline
  | cons scope rest ih =>
    unfold blocks
    cases checkGiven host scope.path.text with
    | error failure =>
      intro line hline
      cases hline
    | ok result =>
      cases result with
      | ok config => exact ih
      | error problem =>
        intro line hline
        exact (Option.some.inj hline).symm

/-- The files in front of one are checked first. -/
theorem blocks_append {rest : List Scope}
    (h : ∀ other ∈ earlier, ∃ result, checkGiven host other.path.text = .ok result) :
    (blocks host (earlier ++ rest)).1 = (blocks host earlier).1 ++ (blocks host rest).1 := by
  induction earlier with
  | nil => rfl
  | cons other earlier ih =>
    obtain ⟨⟨result, hresult⟩, hrest⟩ := List.forall_mem_cons.1 h
    rw [List.cons_append, blocks, blocks, hresult]
    dsimp only
    rw [ih hrest]
    rfl

theorem blocks_cons_of_ok {result : Except Problem Config}
    (h : checkGiven host scope.path.text = .ok result) :
    (blocks host (scope :: later)).1 = scope.block result :: (blocks host later).1 := by
  rw [blocks, h]

/-- Behind the lines of the files there is at most a last word, which starts with an empty line. -/
theorem errors_run (host : Host) :
    ∃ last, (run host).errors =
        printed ((blocks host (scopes host)).1.flatMap Block.errors ++ last) ∧
      (last = [] ∨
        last = ["", "Config validation failed. Invalid files are ignored by the hook."]) := by
  unfold run
  dsimp only
  split
  · exact ⟨[], by rw [List.append_nil], .inl rfl⟩
  · split
    · exact ⟨[], by rw [List.append_nil], .inl rfl⟩
    · split
      · exact ⟨_, rfl, .inr rfl⟩
      · refine ⟨[], ?_, .inl rfl⟩
        rw [List.append_nil]
        split
        · rfl
        · rfl

/-- Where the lines of a file with a problem stand. -/
theorem errors_run_of_check (hscopes : scopes host = earlier ++ scope :: later)
    (hearlier : ∀ other ∈ earlier, ∃ result, checkGiven host other.path.text = .ok result)
    {problem : Problem} (hcheck : checkGiven host scope.path.text = .ok (.error problem)) :
    ∃ back, (∀ line ∈ back.head?, line = "") ∧
      (run host).errors = printed ((blocks host earlier).1.flatMap Block.errors ++
        ["", s!"✗ {scope.name} config: " ++ String.ofList scope.path.text, "  Errors:"] ++
        problemLines problem ++ back) := by
  obtain ⟨last, herrors, hlast⟩ := errors_run host
  refine ⟨(blocks host later).1.flatMap Block.errors ++ last, ?_, ?_⟩
  · intro line hline
    -- the next file with a problem comes first, or else the last word
    have hfirst := head?_errors host later line
    cases hlater : (blocks host later).1.flatMap Block.errors with
    | nil =>
      rw [hlater, List.nil_append] at hline
      rcases hlast with rfl | rfl
      · cases hline
      · exact (Option.some.inj hline).symm
    | cons first rest =>
      rw [hlater] at hfirst hline
      exact hfirst hline
  · rw [herrors, hscopes, blocks_append hearlier, blocks_cons_of_ok hcheck, List.flatMap_append,
      List.flatMap_cons]
    simp only [Scope.block, List.append_assoc]

/-- **The faults of disabled rules are numbered one by one.** Where all but the disabled rules of a
file is valid, the file is accepted exactly if no entry is wrong. If the check gets to a file with
wrong entries, their lines stand between its header and the next empty line. There is one for each,
with its message, exactly if no unknown label holds a semicolon and a space; and each is printed on
one line exactly if none holds a newline either. -/
theorem faults_numbered_iff {host : Host} {earlier later : List Scope} {scope : Scope}
    {text : List Char} {members : Members} {entries : List Value} (hwritten : IsWritten host)
    (hscopes : scopes host = earlier ++ scope :: later)
    (hearlier : ∀ other ∈ earlier, ∃ result, checkGiven host other.path.text = .ok result)
    (hcontents : host.contentsIfThere scope.path = .ok (.text text))
    (hread : Json.readWithin host.rooms.check text = .ok (.obj members))
    (hvalid : IsValidBut entries members) :
    AreFaults entries (entryFaults 0 [] entries) ∧
      ((∃ config, ofText host.rooms.check text = .ok (.ok config)) ↔
        entryFaults 0 [] entries = []) ∧
      (entryFaults 0 [] entries ≠ [] →
        (∃ back, (∀ line ∈ back.head?, line = "") ∧
          (run host).errors = printed ((blocks host earlier).1.flatMap Block.errors ++
            ["", s!"✗ {scope.name} config: " ++ String.ofList scope.path.text, "  Errors:"] ++
            problemLines (.invalid (.entries (entryFaults 0 [] entries))) ++ back)) ∧
        (problemLines (.invalid (.entries (entryFaults 0 [] entries))) =
            numbered ((entryFaults 0 [] entries).map faultMessage) ↔
          ∀ position label, (position, .unknown label) ∈ entryFaults 0 [] entries →
            holds "; " label.toList = false) ∧
        (splitLines
            (printed (problemLines (.invalid (.entries (entryFaults 0 [] entries))))).toList =
            (numbered ((entryFaults 0 [] entries).map faultMessage)).map String.toList ++ [[]] ↔
          ∀ position label, (position, .unknown label) ∈ entryFaults 0 [] entries →
            holds "; " label.toList = false ∧ '\n' ∉ label.toList)) := by
  refine ⟨areFaults_entryFaults entries, hvalid.ofText_eq_ok_iff hread,
    fun hwrong => ⟨?_, ?_, ?_⟩⟩
  · have hmem : scope ∈ scopes host := by
      rw [hscopes]
      exact List.mem_append_right _ List.mem_cons_self
    have hcheck : checkGiven host scope.path.text =
        .ok (.error (.invalid (.entries (entryFaults 0 [] entries)))) := by
      rw [checkGiven_scope hwritten hmem, check, hcontents]
      exact hvalid.ofText_eq_error hread hwrong
    exact errors_run_of_check hscopes hearlier hcheck
  · rw [problemLines_eq_numbered_iff hwrong]
    exact forall_faultMessage_iff (P := fun text => holds "; " text = false)
      (fun position fault => by rw [holds_faultMessage]) rfl (by decide)
  · rw [splitLines_problemLines_iff hwrong]
    exact forall_faultMessage_iff (P := fun text => holds "; " text = false ∧ '\n' ∉ text)
      (fun position fault => by rw [holds_faultMessage, newline_mem_faultMessage_iff])
      ⟨rfl, List.not_mem_nil⟩ (by decide)

/-- A host with a configuration of the user that lists disabled rules and sets nothing else. -/
def listingHost (entries : List Value) : Host :=
  Hook.storeHost
    [(["home".toList, "user".toList, storeName, "config.json".toList],
      .file (Utf8.encode (write (.obj [("version", .int 1), ("disabled_rules", .arr entries)]))) 0)]

theorem isWritten_listingHost (entries : List Value) : IsWritten (listingHost entries) := by
  constructor
  · intro name hname
    simp only [listingHost, Hook.storeHost, Hook.bareHost, List.mem_cons, List.not_mem_nil,
      or_false] at hname
    rcases hname with rfl | rfl
    · exact ⟨by decide, by decide, by decide⟩
    · exact ⟨by decide, by decide, by decide⟩
  · intro name hname
    cases hname

/-- A number, no text, a label with a semicolon at its end, and a rule that is listed twice. -/
theorem faults_numbered_iff_listed :
    ∃ back, (∀ line ∈ back.head?, line = "") ∧
      (run (listingHost [.int 5, .str "", .str "nope;", .str "curl", .str "curl"])).errors =
        printed (["", "✗ User config: /home/user/.cc-rtk-rewrite/config.json", "  Errors:",
          "    1. disabled_rules[0]: must be a string",
          "    2. disabled_rules[1]: must not be empty",
          "    3. disabled_rules[2]: unknown rule 'nope;'",
          "    4. disabled_rules[4]: duplicate rule 'curl'"] ++ back) := by
  let entries : List Value := [.int 5, .str "", .str "nope;", .str "curl", .str "curl"]
  let members : Members := [("version", .int 1), ("disabled_rules", .arr entries)]
  have hexact : (Value.obj members).IsExact := by
    have hentries : ∀ entry ∈ entries, entry.IsExact := by
      simp only [entries, List.forall_mem_cons]
      exact ⟨.int _ (by decide), .str _, .str _, .str _, .str _, List.forall_mem_nil _⟩
    refine .obj _ (by decide) ?_
    simp only [members, List.forall_mem_cons]
    exact ⟨.int _ (by decide), .arr _ hentries, List.forall_mem_nil _⟩
  have hvalid : IsValidBut entries members := ⟨rfl, ⟨none, rfl⟩, ⟨none, rfl⟩, rfl⟩
  have hscopes : scopes (listingHost entries) =
      [] ++ ⟨"User", userPath (listingHost entries)⟩ :: [] := by
    rw [scopes, List.filter_cons_of_pos (by decide +kernel),
      List.filter_cons_of_neg (by decide +kernel)]
    rfl
  have hcontents : (listingHost entries).contentsIfThere (userPath (listingHost entries)) =
      .ok (.text (write (.obj members))) := by decide +kernel
  have hfaults : entryFaults 0 [] entries =
      [(0, .notText), (1, .empty), (2, .unknown "nope;"), (4, .repeated "curl")] := by
    decide +kernel
  obtain ⟨-, -, hprinted⟩ := faults_numbered_iff (isWritten_listingHost entries) hscopes
    (List.forall_mem_nil _) hcontents (readWithin_write hexact (Room.holds_none _)) hvalid
  rw [hfaults] at hprinted
  obtain ⟨⟨back, hback, herrors⟩, hnumbered, -⟩ := hprinted (List.cons_ne_nil _ _)
  have hwhole := hnumbered.2 fun position label hmem => by
    simp only [List.mem_cons, List.not_mem_nil, Prod.mk.injEq, reduceCtorEq, and_false, or_false,
      false_or, EntryFault.unknown.injEq] at hmem
    rw [hmem.2]
    decide
  rw [hwhole] at herrors
  exact ⟨back, hback, herrors⟩

/-- A label with a separator is torn in two, and one with a newline is printed over two lines. -/
theorem torn_label_numbered_twice :
    entryFaults 0 [] [.str "a; b"] = [(0, .unknown "a; b")] ∧
      (run (listingHost [.str "a; b"])).errors =
        printed ["", "✗ User config: /home/user/.cc-rtk-rewrite/config.json", "  Errors:",
          "    1. disabled_rules[0]: unknown rule 'a", "    2. b'", "",
          "Config validation failed. Invalid files are ignored by the hook."] := by
  decide +kernel

end CompactShell.Command.Verification
