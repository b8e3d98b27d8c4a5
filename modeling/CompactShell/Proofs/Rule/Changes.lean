import CompactShell.Proofs.Search.Emitted

/-!
# What a rule does to a command

Forty rules do one of two things. They exchange a front that means nothing to the scan for one of
the tool's own, or they put the words of the simple command in front of the first operator in a new
order and keep the rest of the line. `Change` says so, and `Rule.change_of_rewrite?` says it of
every rule of the table.

The rest of the theory looks at the two cases of `Change` and never at a rule again.

* The new command runs the compact tool (`Change.startsTool`).
* It is as unbroken as the old one (`Change.unbroken`).
* It closes its quotes if the old one does, and ends in the same operator tail
  (`Change.closed_and_tail`).
-/

namespace CompactShell.Rule

open Search Shell Text

/-- A rule may make the one body of the other. -/
inductive Change (body : List Char) : List Char → Prop where
  /-- A plain front is exchanged for the tool's name and a plain front. -/
  | front {front own rest : List Char} : body = front ++ rest → PlainText front → PlainText own →
      '\n' ∉ own → Change body ("rtk ".toList ++ (own ++ rest))
  /-- The simple command is put together anew, and the operator tail kept. -/
  | words {texts : List (List Char)} : texts ≠ [] →
      (∀ t ∈ texts, Emitted (splitAtOperator body).1 t) →
      Change body (joinBlank ("rtk".toList :: texts) ++ (splitAtOperator body).2)

/-! ## Every rule of the table makes such a change -/

theorem change_of_replace {phrases : List Phrase} {stop : Stop} {extent : Extent} {text : String}
    (ha : (Action.replace phrases stop extent text).isProper = true) {body : List Char}
    (hne : (Action.replace phrases stop extent text).apply body ≠ body) :
    Change body ((Action.replace phrases stop extent text).apply body) := by
  simp only [Action.isProper, Bool.and_eq_true] at ha
  obtain ⟨⟨⟨hphrases, hextent⟩, htool⟩, hown⟩ := ha
  obtain ⟨own, htext⟩ := startsWith_iff.1 htool
  rw [Action.apply] at hne ⊢
  split
  · rename_i rest hrest
    obtain ⟨front, hbody, hfront⟩ := afterAny?_spec hphrases hrest
    obtain ⟨more, hmore, hplain⟩ := extent.trim_spec hextent rest
    obtain ⟨hplainText, hnewline⟩ := isOwn_iff.1 hown
    rw [htext] at hplainText hnewline
    rw [htext, List.append_assoc]
    have hsplit : body = (front ++ more) ++ extent.trim rest := by
      rw [hbody, List.append_assoc, ← hmore]
    refine .front hsplit (hfront.plain.append hplain) ?_ ?_
    · exact fun c hc => hplainText c (List.mem_append_right _ hc)
    · exact fun hn => hnewline (List.mem_append_right _ hn)
  · rename_i hnone
    rw [hnone] at hne
    exact absurd rfl hne

theorem change_of_wrap {body : List Char} (h : ∃ c rest, body = c :: rest ∧ c.isAlpha = true) :
    Change body (Action.wrap.apply body) := by
  obtain ⟨c, rest, rfl, hc⟩ := h
  have hplain : PlainText [c] := by
    intro d hd
    obtain rfl := List.mem_singleton.1 hd
    exact isPlain_of_class (by decide) hc
  have hnewline : '\n' ∉ [c] := by
    intro hn
    obtain rfl := List.mem_singleton.1 hn
    exact absurd hc (by decide)
  have hsplit : c :: rest = [c] ++ rest := rfl
  exact .front hsplit hplain hplain hnewline

theorem change_of_translateGrep? {body new : List Char} (h : translateGrep? body = some new) :
    Change body new := by
  obtain ⟨query, hquery, rfl⟩ := Option.map_eq_some_iff.1 h
  obtain ⟨texts, htexts, hall⟩ := emitted_of_query hquery
  rw [htexts]
  refine .words (List.cons_ne_nil _ _) ?_
  intro t ht
  rcases List.mem_cons.mp ht with rfl | ht
  · exact Emitted.ofString _ (by decide)
  · exact hall t ht

theorem change_of_translateFind? {body new : List Char} (h : translateFind? body = some new) :
    Change body new := by
  obtain ⟨criteria, hcriteria, hnew⟩ := Option.bind_eq_some_iff.1 h
  obtain ⟨texts, htexts, rfl⟩ := Option.map_eq_some_iff.1 hnew
  obtain ⟨rest, rfl, hall⟩ := emitted_of_criteria hcriteria htexts
  refine .words (List.cons_ne_nil _ _) ?_
  intro t ht
  rcases List.mem_cons.mp ht with rfl | ht
  · exact Emitted.ofString _ (by decide)
  · exact hall t ht

theorem change_of_translateHead? {body new : List Char} (h : translateHead? body = some new) :
    Change body new := by
  obtain ⟨⟨count, rest⟩, hcount, hnew⟩ := Option.bind_eq_some_iff.1 h
  obtain ⟨target, htarget, rfl⟩ := Option.map_eq_some_iff.1 hnew
  obtain ⟨htarget, hcount⟩ := emitted_of_head hcount htarget
  refine .words (List.cons_ne_nil _ _) ?_
  intro t ht
  simp only [List.mem_cons, List.not_mem_nil, or_false] at ht
  rcases ht with rfl | rfl | rfl | rfl
  · exact Emitted.ofString _ (by decide)
  · exact htarget
  · exact Emitted.ofString _ (by decide)
  · exact hcount

/-- A translation that is not there changes nothing. -/
theorem eq_some_of_getD_ne {body : List Char} {translated : Option (List Char)}
    (h : translated.getD body ≠ body) : translated = some (translated.getD body) := by
  cases translated with
  | none => exact absurd rfl h
  | some new => rfl

/-- A rule that rewrites a command is about it and changes it. -/
theorem rewrite?_eq_some_iff_apply {rule : Rule} {body new : List Char} :
    rule.rewrite? body = some new ↔
      rule.guard.accepts body = true ∧ rule.action.apply body ≠ body ∧
        rule.action.apply body = new := by
  simp only [Rule.rewrite?, Option.ite_none_right_eq_some, Option.some.injEq, Bool.and_eq_true,
    bne_iff_ne, and_assoc]

/-- **What a rule of the table can do.** -/
theorem change_of_rewrite? {rule : Rule} (hrule : rule ∈ table) {body new : List Char}
    (h : rule.rewrite? body = some new) : Change body new := by
  have hproper := table_isProper rule hrule
  simp only [isProper, Bool.and_eq_true] at hproper
  obtain ⟨haccepts, hne, rfl⟩ := rewrite?_eq_some_iff_apply.1 h
  cases ha : rule.action with
  | wrap => exact change_of_wrap (Guard.exists_head_of_accepts hproper.1 haccepts)
  | replace phrases stop extent text =>
    rw [ha] at hne hproper
    exact change_of_replace hproper.2 hne
  | grep =>
    rw [ha] at hne
    exact change_of_translateGrep? (eq_some_of_getD_ne hne)
  | find =>
    rw [ha] at hne
    exact change_of_translateFind? (eq_some_of_getD_ne hne)
  | head =>
    rw [ha] at hne
    exact change_of_translateHead? (eq_some_of_getD_ne hne)

/-! ## What every change keeps -/

/-- **The new body runs the compact tool.** -/
theorem Change.startsTool {body new : List Char} (h : Change body new) :
    ∃ rest, new = "rtk ".toList ++ rest := by
  cases h with
  | front => exact ⟨_, rfl⟩
  | words hne _ =>
    obtain ⟨t, texts, rfl⟩ := List.exists_cons_of_ne_nil hne
    rw [joinBlank_cons_cons]
    exact ⟨joinBlank (t :: texts) ++ (splitAtOperator body).2, by simp⟩

theorem unbroken_blank : Unbroken [' '] :=
  unbroken_of_not_mem (by simp)

theorem unbroken_joinBlank {texts : List (List Char)} (h : ∀ t ∈ texts, Unbroken t) :
    Unbroken (joinBlank texts) := by
  induction texts with
  | nil => exact unbroken_nil
  | cons t texts ih =>
    have ht := h t (List.mem_cons_self ..)
    have hrest := ih fun u hu => h u (List.mem_cons_of_mem _ hu)
    cases texts with
    | nil => rw [joinBlank_singleton]; exact ht
    | cons u texts =>
      rw [joinBlank_cons_cons]
      exact ht.append (unbroken_blank.append hrest)

/-- Both parts of an unbroken command are unbroken. -/
theorem unbroken_splitAtOperator {body : List Char} (h : Unbroken body) :
    Unbroken (splitAtOperator body).1 ∧ Unbroken (splitAtOperator body).2 := by
  cases hi : findOperator body with
  | none =>
    rw [splitAtOperator, hi]
    exact ⟨h, unbroken_nil⟩
  | some i =>
    obtain ⟨front, tail, hcut⟩ := exists_isCut hi
    obtain ⟨white, hfront, -⟩ := trimEnd_spec front
    obtain ⟨c, rest, rfl, hc⟩ := hcut.head
    rw [hcut.split]
    rw [← hcut.append] at h
    refine ⟨?_, ?_⟩
    · have := h.left
      rw [hfront] at this
      exact this.left
    · refine unbroken_blank.append ⟨?_, h.2.right_of_append⟩
      intro hn
      obtain rfl := Option.some.inj hn
      rcases hc with hd | hs
      · exact absurd hd (by decide)
      · exact absurd hs (by decide)

/-- **Unbroken bodies stay unbroken.** -/
theorem Change.unbroken {body new : List Char} (h : Change body new) (hb : Unbroken body) :
    Unbroken new := by
  have htool : Unbroken "rtk ".toList := unbroken_of_not_mem (by decide)
  cases h with
  | front hbody hfront _ hnewline =>
    rw [hbody] at hb
    exact htool.append ((unbroken_of_not_mem hnewline).append
      (hb.right (getLast?_ne_backslash hfront)))
  | words _ hall =>
    obtain ⟨hcommand, htail⟩ := unbroken_splitAtOperator hb
    refine (unbroken_joinBlank ?_).append htail
    intro t ht
    rcases List.mem_cons.mp ht with rfl | ht
    · exact unbroken_of_not_mem (by decide)
    · exact (hall t ht).unbroken hcommand

theorem isClosed_iff {text : List Char} :
    isClosed text = true ↔ (Scan.start.after text).quoting = .bare := by
  rw [isClosed, beq_iff_eq]

/-- **Closed quotes stay closed, and the operator tail stays as it is.** The one exception is a `>`
that runs into a chain, whose ampersands the cut would part. -/
theorem Change.closed_and_tail {body new : List Char} (h : Change body new)
    (hclosed : isClosed body = true) (hcopy : holds ">&&" body = false) :
    isClosed new = true ∧ operatorTail? new = operatorTail? body := by
  rw [isClosed_iff] at hclosed ⊢
  cases h with
  | @front front own rest hbody hfront hown _ =>
    have htool : PlainText ("rtk ".toList ++ own) :=
      (plainText_of_isOwn (by decide)).append hown
    rw [hbody, Scan.after_append, Scan.after_plainText hfront] at hclosed
    rw [← List.append_assoc, Scan.after_append, Scan.after_plainText htool,
      operatorTail?_plainText_append htool, hbody, operatorTail?_plainText_append hfront]
    exact ⟨hclosed, rfl⟩
  | @words texts _ hall =>
    have hjoin : Inert (splitAtOperator body).1 → Inert (joinBlank ("rtk".toList :: texts)) := by
      intro hcommand
      refine inert_joinBlank fun t ht => ?_
      rcases List.mem_cons.mp ht with rfl | ht
      · exact inert_of_plainText (plainText_of_isOwn (by decide))
      · exact (hall t ht).inert hcommand
    cases hi : findOperator body with
    | none =>
      -- without an operator there is no tail, and the whole command is put together anew
      have hsplit : splitAtOperator body = (body, []) := by rw [splitAtOperator, hi]
      rw [hsplit] at hjoin ⊢
      have hnew := hjoin ⟨hclosed, hi⟩
      rw [List.append_nil]
      refine ⟨hnew.closed, ?_⟩
      rw [operatorTail?_eq_none_iff.2 hnew.free, operatorTail?_eq_none_iff.2 hi]
    | some i =>
      obtain ⟨front, tail, hcut⟩ := exists_isCut hi
      rw [hcut.split] at hjoin ⊢
      -- the blank in front of the tail brings the scan to where the cut left it
      have hnew := hjoin (hcut.inert hcopy)
      rw [hnew.after_append_blank, hnew.operatorTail?_append_blank, hcut.after_tail,
        hcut.operatorTail?_eq]
      exact ⟨hclosed, rfl⟩

end CompactShell.Rule
