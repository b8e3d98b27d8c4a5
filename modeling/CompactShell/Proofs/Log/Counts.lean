import CompactShell.Log.Entry
import CompactShell.Proofs.Rewriter.Lines

/-!
# What an entry counts for

An entry about a command that passed through counts as one that was skipped, an entry about a
rewritten command counts for its rule, and an entry about the missing tool for nothing
(`recordOf?_ofCommand`). An entry whose rule is empty would be counted for a question mark. No
rewriter over the table gives such a rule (`OverTable.rule_ne_empty`).
-/

namespace CompactShell

open Json Text

/-! ## The rule of a rewrite -/

namespace Rewriter

variable {rewriter : Rewriter}

theorem label_ne_empty {rule : Rule} (h : rule ∈ Rule.table) : rule.label ≠ "" := by
  have hall : ∀ rule ∈ Rule.table, rule.label ≠ "" := by decide
  exact hall rule h

theorem OverTable.label_ne_empty (htable : rewriter.OverTable) {line new : List Char}
    {label : String} (h : rewriter.rewriteLine? line = some (new, label)) : label ≠ "" := by
  obtain ⟨body, hbody, -⟩ := exists_body_of_rewriteLine? h
  obtain ⟨rule, hrule, -, rfl⟩ := exists_rule_of_rewriteBody? hbody
  exact Rewriter.label_ne_empty (htable rule hrule)

theorem OverTable.label_ne_empty_of_rewriteOne (htable : rewriter.OverTable) {line : List Char}
    {label : String} (h : (rewriter.rewriteOne line).2 = some label) : label ≠ "" := by
  rw [rewriteOne] at h
  split at h
  · cases h
  · split at h
    · cases h
    · rename_i hline
      cases h
      exact htable.label_ne_empty hline

theorem intercalate_ne_empty {labels : List String} (hne : labels ≠ [])
    (h : ∀ label ∈ labels, label ≠ "") : ", ".intercalate labels ≠ "" := by
  cases labels with
  | nil => exact absurd rfl hne
  | cons label labels =>
    have hlabel : label ≠ "" := h label (List.mem_cons_self ..)
    cases labels with
    | nil =>
      rw [String.intercalate_singleton]
      exact hlabel
    | cons next labels =>
      rw [String.intercalate_cons_cons]
      intro hempty
      exact hlabel (String.append_eq_empty_iff.1 (String.append_eq_empty_iff.1 hempty).1).1

/-- **What a rewriter over the table reports as the rule is never empty.** -/
theorem OverTable.rule_ne_empty (htable : rewriter.OverTable) {command : List Char}
    {rewrite : Rewrite} (h : rewriter.rewrite? command = some rewrite) : rewrite.rule ≠ "" := by
  unfold rewrite? at h
  split at h
  · obtain ⟨⟨new, label⟩, hline, rfl⟩ := Option.map_eq_some_iff.1 h
    refine intercalate_ne_empty (List.cons_ne_nil label []) ?_
    intro other hother
    rw [List.mem_singleton.1 hother]
    exact htable.label_ne_empty hline
  · split at h
    · cases h
    · dsimp only at h
      split at h
      · cases h
      · rename_i hlabels
        cases h
        refine intercalate_ne_empty (fun hnil => hlabels (List.isEmpty_iff.2 hnil)) ?_
        intro label hlabel
        obtain ⟨outcome, houtcome, hsome⟩ := List.mem_filterMap.1 (List.mem_eraseDups.1 hlabel)
        obtain ⟨line, -, rfl⟩ := List.mem_map.1 houtcome
        exact htable.label_ne_empty_of_rewriteOne hsome

end Rewriter

/-! ## Entries -/

namespace Log

theorem isAbout_members (event : Event) (entry : Entry) :
    isAbout event entry.members = decide (entry.event = event) := by
  show (entry.event.name == event.name) = _
  cases entry.event <;> cases event <;> rfl

/-- What an entry counts for: the rule that rewrote its command, or that the command passed. -/
def Entry.record? (entry : Entry) : Option (Option String) :=
  match entry.event with
  | .pass => some none
  | .rewrite => some (some (entry.rule.getD "?"))
  | .unavailable => none

/-- **What an entry counts for.** -/
theorem recordOf?_members (entry : Entry) (hrule : ∀ rule, entry.rule = some rule → rule ≠ "") :
    recordOf? entry.members = entry.record? := by
  have hname : ruleOf entry.members = entry.rule.getD "?" := by
    have hget : Members.get? entry.members "rule" = some (orNull .str entry.rule) := rfl
    rw [ruleOf, hget]
    cases hsome : entry.rule with
    | none => rfl
    | some rule =>
      have hvoid : (Value.str rule).isVoid = false := by
        have hne : rule ≠ "" := hrule rule hsome
        simpa [Value.isVoid] using hne
      show (if (Value.str rule).isVoid then "?" else String.ofList rule.toList) = rule
      rw [hvoid, if_neg Bool.false_ne_true, String.ofList_toList]
  rw [recordOf?, isAbout_members, isAbout_members, hname, Entry.record?]
  cases entry.event <;> rfl

end Log

end CompactShell
