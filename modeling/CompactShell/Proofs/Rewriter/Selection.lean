import CompactShell.Proofs.Rewriter.Quoted
import CompactShell.Proofs.Rule.Exclusive

/-!
# Which rules a rewriter has

At most one rule of the table is about a command, so a rewriter over the table is not asked for the
first of its rules that fits but for the only one. What it makes of a body depends on which rules it
has, and not on their order (`OverTable.rewriteBody?_eq_some_iff`).

A disabled rule leaves a gap that no other rule fills. What becomes of the lines of a command is
what became of them before, with those put back that the disabled rules changed (`putBack`).
-/

namespace CompactShell

open Rule Shell Text

/-! ## The outcomes of a command's lines -/

/-- The rewrite that lines make up, given what becomes of each and the label of the rule that
changed it. There is none if no line was changed. -/
def Rewrite.ofOutcomes? (outcomes : List (List Char × Option String)) : Option Rewrite :=
  let labels := (outcomes.filterMap Prod.snd).eraseDups
  if labels.isEmpty then none else some ⟨joinLines (outcomes.map Prod.fst), labels⟩

namespace Rewriter

variable {rewriter other : Rewriter}

/-- What becomes of each logical line of a command, with the label of the rule that changed it. -/
def outcomes (rewriter : Rewriter) (command : List Char) : List (List Char × Option String) :=
  (linesOf command).map fun line =>
    if holdsHeredoc command then (line, none) else rewriter.rewriteOne line

/-- **A rewrite is the outcomes of the lines**, for a command of one line as for others. -/
theorem OverTable.rewrite?_eq_ofOutcomes? (htable : rewriter.OverTable) (command : List Char) :
    rewriter.rewrite? command = Rewrite.ofOutcomes? (rewriter.outcomes command) := by
  unfold outcomes
  by_cases hd : holdsHeredoc command = true
  · have hquiet : ((linesOf command).map fun line => (line, (none : Option String))).filterMap
        Prod.snd = [] := by
      rw [List.filterMap_eq_nil_iff]
      intro outcome houtcome
      obtain ⟨line, -, rfl⟩ := List.mem_map.1 houtcome
      rfl
    rw [rewrite?_eq_none_of_holdsHeredoc hd]
    simp only [hd, if_true]
    rw [Rewrite.ofOutcomes?, hquiet]
    rfl
  · have hd : holdsHeredoc command = false := by simpa using hd
    simp only [hd, Bool.false_eq_true, if_false]
    by_cases hn : '\n' ∈ command
    · have hlines : (linesOf command).map rewriter.lineAfter =
          ((linesOf command).map rewriter.rewriteOne).map Prod.fst := by
        rw [List.map_map]
        rfl
      rw [rewrite?_of_mem hn hd, hlines]
      rfl
    · rw [rewrite?_of_not_mem hn, (unbroken_of_not_mem hn).linesOf_eq, List.map_singleton,
        htable.rewriteOne_eq]
      cases rewriter.rewriteLine? command with
      | none => rfl
      | some new => simp [Rewrite.ofOutcomes?, List.eraseDups_cons]

/-! ## Order -/

theorem accepts_of_rewrite? {rule : Rule} {body new : List Char}
    (h : rule.rewrite? body = some new) : rule.guard.accepts body = true := by
  simp only [Rule.rewrite?, Option.ite_none_right_eq_some, Bool.and_eq_true] at h
  exact h.1.1

/-- **A body is changed by the only rule that is about it**, wherever it stands. -/
theorem OverTable.rewriteBody?_eq_some_iff (htable : rewriter.OverTable) {body new : List Char}
    {label : String} : rewriter.rewriteBody? body = some (new, label) ↔
      ∃ rule ∈ rewriter.rules, rule.rewrite? body = some new ∧ rule.label = label := by
  constructor
  · exact exists_rule_of_rewriteBody?
  · rintro ⟨rule, hrule, hnew, rfl⟩
    have hsome : (rewriter.rewriteBody? body).isSome = true := by
      unfold rewriteBody?
      rw [List.findSome?_isSome_iff]
      exact ⟨rule, hrule, by rw [hnew]; rfl⟩
    obtain ⟨⟨found, label⟩, hfound⟩ := Option.isSome_iff_exists.1 hsome
    obtain ⟨first, hfirst, hfirstNew, rfl⟩ := exists_rule_of_rewriteBody? hfound
    -- the rule that is found is about the body too, so it is the same one
    obtain rfl := eq_of_accepts (htable first hfirst) (htable rule hrule)
      (accepts_of_rewrite? hfirstNew) (accepts_of_rewrite? hnew)
    obtain rfl : found = new := Option.some.inj (hfirstNew.symm.trans hnew)
    exact hfound

/-- Rewriters with the same rules, in whatever order, do the same to a body. -/
theorem OverTable.rewriteBody?_congr (htable : rewriter.OverTable) (hother : other.OverTable)
    (hrules : ∀ rule, rule ∈ rewriter.rules ↔ rule ∈ other.rules) (body : List Char) :
    rewriter.rewriteBody? body = other.rewriteBody? body := by
  refine Option.ext fun ⟨new, label⟩ => ?_
  rw [htable.rewriteBody?_eq_some_iff, hother.rewriteBody?_eq_some_iff]
  simp only [hrules]

/-- **The order of the rules makes no difference.** -/
theorem OverTable.rewrite?_congr (htable : rewriter.OverTable) (hother : other.OverTable)
    (hrules : ∀ rule, rule ∈ rewriter.rules ↔ rule ∈ other.rules)
    (hgate : rewriter.throughOperators = other.throughOperators) (command : List Char) :
    rewriter.rewrite? command = other.rewrite? command := by
  have hline : ∀ line, rewriter.rewriteLine? line = other.rewriteLine? line := by
    intro line
    rw [rewriteLine?_eq, rewriteLine?_eq, hgate, htable.rewriteBody?_congr hother hrules]
  have hone : rewriter.rewriteOne = other.rewriteOne := by
    funext line
    rw [htable.rewriteOne_eq, hother.rewriteOne_eq, hline]
  rw [htable.rewrite?_eq_ofOutcomes?, hother.rewrite?_eq_ofOutcomes?, outcomes, outcomes, hone]

/-! ## Disabled rules -/

/-- What becomes of a line if it is put back in case a disabled rule changed it. -/
def putBack (disabled : List String) (line : List Char)
    (outcome : List Char × Option String) : List Char × Option String :=
  if outcome.2.any disabled.contains then (line, none) else outcome

section Disabled

variable {rules : List Rule} (hrules : ∀ rule ∈ rules, rule ∈ table) (disabled : List String)
  (throughOperators : Bool)

include hrules

/-- **Nothing takes over from a disabled rule.** -/
theorem rewriteBody?_disabled (body : List Char) :
    (ofRules rules disabled throughOperators).rewriteBody? body =
      ((ofRules rules [] throughOperators).rewriteBody? body).filter
        fun new => !disabled.contains new.2 := by
  refine Option.ext fun ⟨new, label⟩ => ?_
  rw [Option.filter_eq_some_iff,
    (overTable_ofRules hrules disabled throughOperators).rewriteBody?_eq_some_iff,
    (overTable_ofRules hrules [] throughOperators).rewriteBody?_eq_some_iff]
  simp only [ofRules, List.mem_filter]
  constructor
  · rintro ⟨rule, ⟨hrule, hlabel⟩, hnew, rfl⟩
    exact ⟨⟨rule, ⟨hrule, rfl⟩, hnew, rfl⟩, hlabel⟩
  · rintro ⟨⟨rule, ⟨hrule, -⟩, hnew, rfl⟩, hlabel⟩
    exact ⟨rule, ⟨hrule, hlabel⟩, hnew, rfl⟩

theorem rewriteLine?_disabled (line : List Char) :
    (ofRules rules disabled throughOperators).rewriteLine? line =
      ((ofRules rules [] throughOperators).rewriteLine? line).filter
        fun new => !disabled.contains new.2 := by
  have hgate : ∀ labels, (ofRules rules labels throughOperators).throughOperators =
      throughOperators := fun _ => rfl
  rw [rewriteLine?_eq, rewriteLine?_eq, hgate, hgate, rewriteBody?_disabled hrules]
  split
  · rfl
  · split
    · rfl
    · cases (ofRules rules [] throughOperators).rewriteBody? (bodyOf line) with
      | none => rfl
      | some new =>
        rw [Option.filter_some, Option.map_some, Option.filter_some]
        split <;> rfl

/-- **A line that a disabled rule changed is put back, every other one becomes what it did.** -/
theorem rewriteOne_disabled (line : List Char) :
    (ofRules rules disabled throughOperators).rewriteOne line =
      putBack disabled line ((ofRules rules [] throughOperators).rewriteOne line) := by
  rw [(overTable_ofRules hrules disabled throughOperators).rewriteOne_eq,
    (overTable_ofRules hrules [] throughOperators).rewriteOne_eq,
    rewriteLine?_disabled hrules disabled]
  cases (ofRules rules [] throughOperators).rewriteLine? line with
  | none => rfl
  | some new =>
    rw [Option.filter_some, putBack, Option.any_some]
    cases disabled.contains new.2 with
    | true => rfl
    | false => rfl

theorem outcomes_disabled (command : List Char) :
    (ofRules rules disabled throughOperators).outcomes command =
      List.zipWith (putBack disabled) (linesOf command)
        ((ofRules rules [] throughOperators).outcomes command) := by
  unfold outcomes
  rw [List.zipWith_map_right, List.zipWith_self]
  refine List.map_congr_left fun line _ => ?_
  split
  · rfl
  · exact rewriteOne_disabled hrules disabled throughOperators line

end Disabled

/-- **The rules of the table exclude each other.** At most one of them is about any command. So
their order makes no difference, and disabling some of them puts back the lines that they changed
and nothing else. -/
theorem rules_exclude_each_other :
    (∀ body, (table.filter fun rule => rule.guard.accepts body).length ≤ 1) ∧
      (∀ rules disabled throughOperators command, rules.Perm table →
        (ofRules rules disabled throughOperators).rewrite? command =
          (ofRules table disabled throughOperators).rewrite? command) ∧
      ∀ disabled throughOperators command,
        (ofRules table disabled throughOperators).rewrite? command =
            Rewrite.ofOutcomes? ((ofRules table disabled throughOperators).outcomes command) ∧
          (ofRules table disabled throughOperators).outcomes command =
            List.zipWith (putBack disabled) (linesOf command)
              ((ofRules table [] throughOperators).outcomes command) := by
  have htable : ∀ rule ∈ table, rule ∈ table := fun _ hrule => hrule
  refine ⟨length_accepting_le_one, ?_, ?_⟩
  · intro rules disabled throughOperators command hperm
    have hrules : ∀ rule ∈ rules, rule ∈ table := fun rule hrule => hperm.mem_iff.1 hrule
    refine (overTable_ofRules hrules disabled throughOperators).rewrite?_congr
      (overTable_ofRules htable disabled throughOperators) (fun rule => ?_) rfl command
    exact (hperm.filter _).mem_iff
  · intro disabled throughOperators command
    exact ⟨(overTable_ofRules htable disabled throughOperators).rewrite?_eq_ofOutcomes? command,
      outcomes_disabled htable disabled throughOperators command⟩

/-- The last rule first, and a disabled rule next to one for the same program. -/
theorem rules_exclude_each_other_docker :
    table.reverse.Perm table ∧
      (ofRules table.reverse ["docker compose"] false).rewrite?
          "docker compose logs\ndocker logs web".toList =
        some ⟨"docker compose logs\nrtk docker logs web".toList, ["docker"]⟩ ∧
      (ofRules table ["docker compose"] false).outcomes
          "docker compose logs\ndocker logs web".toList =
        [("docker compose logs".toList, none), ("rtk docker logs web".toList, some "docker")] := by
  obtain ⟨-, horder, hdisabled⟩ := rules_exclude_each_other
  have hperm : table.reverse.Perm table := table.reverse_perm
  obtain ⟨hwhole, hlines⟩ :=
    hdisabled ["docker compose"] false "docker compose logs\ndocker logs web".toList
  have hall : List.zipWith (putBack ["docker compose"])
      (linesOf "docker compose logs\ndocker logs web".toList)
      ((ofRules table [] false).outcomes "docker compose logs\ndocker logs web".toList) =
      [("docker compose logs".toList, none), ("rtk docker logs web".toList, some "docker")] := by
    decide +kernel
  refine ⟨hperm, ?_, hlines.trans hall⟩
  rw [horder _ _ _ _ hperm, hwhole, hlines, hall]
  decide +kernel

end Rewriter

end CompactShell
