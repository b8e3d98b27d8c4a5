import CompactShell.Session.Tally
import Mathlib.Algebra.GroupWithZero.Nat
import Mathlib.Data.List.Induction
import Mathlib.Data.List.Nodup
import Mathlib.Data.List.ReduceOption

/-!
# What a tally counts

A tally is the count of a list of records: of all of them, of those without a rule, and of each rule
in the order in which it was first recorded (`Counts`). One more record keeps it so
(`Counts.record`), because a rule that is known is counted where it stands and a new one goes last
(`bump_firstCounts`).

A report lists the rules by their counts. `filter_ranking` says what becomes of equal counts: those
rules stand in the order in which they were first recorded.
-/

namespace CompactShell.Session.Tally

/-! ## Counting labels -/

/-- Each label once, in the order in which they first occur, with how often it occurs. -/
def firstCounts (labels : List String) : List (String × Nat) :=
  labels.eraseDups.map fun label => (label, labels.count label)

theorem eraseDups_concat (labels : List String) (label : String) :
    (labels ++ [label]).eraseDups =
      if label ∈ labels then labels.eraseDups else labels.eraseDups ++ [label] := by
  rw [List.eraseDups_append]
  by_cases h : label ∈ labels
  · rw [if_pos h]
    simp [List.removeAll, h]
  · rw [if_neg h]
    simp [List.removeAll, h, List.eraseDups_cons]

theorem nodup_eraseDups (labels : List String) : labels.eraseDups.Nodup := by
  induction labels using List.reverseRecOn with
  | nil => exact List.nodup_nil
  | append_singleton labels label ih =>
    rw [eraseDups_concat]
    split
    · exact ih
    · rename_i hnew
      have hout : label ∉ labels.eraseDups := fun h => hnew (List.mem_eraseDups.1 h)
      exact List.Nodup.append ih (List.nodup_singleton label)
        (List.disjoint_singleton.2 hout)

/-- A rule is counted where it stands; a new one goes last. -/
theorem bump_map {keys : List String} (hkeys : keys.Nodup) (count : String → Nat) (rule : String) :
    bump rule (keys.map fun key => (key, count key)) =
      if rule ∈ keys then keys.map fun key => (key, count key + if key = rule then 1 else 0)
      else (keys.map fun key => (key, count key)) ++ [(rule, 1)] := by
  induction keys with
  | nil => rfl
  | cons key keys ih =>
    obtain ⟨hout, hnodup⟩ := List.nodup_cons.1 hkeys
    rw [List.map_cons, bump]
    by_cases hkey : key = rule
    · -- the keys behind it are others
      have hsame : (keys.map fun key => (key, count key)) =
          keys.map fun key => (key, count key + if key = rule then 1 else 0) := by
        refine List.map_congr_left fun other hother => ?_
        have hne : other ≠ rule := by
          intro heq
          exact hout (hkey ▸ heq ▸ hother)
        rw [if_neg hne, Nat.add_zero]
      rw [if_pos hkey, if_pos (by simp [hkey]), List.map_cons, if_pos hkey, hsame]
    · rw [if_neg hkey, ih hnodup]
      by_cases hrule : rule ∈ keys
      · rw [if_pos hrule, if_pos (List.mem_cons_of_mem _ hrule), List.map_cons, if_neg hkey,
          Nat.add_zero]
      · have hout : rule ∉ key :: keys := by
          rw [List.mem_cons, not_or]
          exact ⟨fun heq => hkey heq.symm, hrule⟩
        rw [if_neg hrule, if_neg hout]
        rfl

/-- **One more label** is counted where it first occurred, or goes last. -/
theorem bump_firstCounts (labels : List String) (label : String) :
    bump label (firstCounts labels) = firstCounts (labels ++ [label]) := by
  have hcount : ∀ key, (labels ++ [label]).count key =
      labels.count key + if key = label then 1 else 0 := by
    intro key
    rw [List.count_append, List.count_singleton]
    simp only [beq_iff_eq, eq_comm (a := key)]
  unfold firstCounts
  rw [bump_map (nodup_eraseDups labels), eraseDups_concat]
  by_cases h : label ∈ labels
  · rw [if_pos (List.mem_eraseDups.2 h), if_pos h]
    simp only [hcount]
  · have hout : label ∉ labels.eraseDups := fun hin => h (List.mem_eraseDups.1 hin)
    have hsame : ∀ key ∈ labels.eraseDups, (key, labels.count key) =
        (key, labels.count key + if key = label then 1 else 0) := by
      intro key hkey
      have hne : key ≠ label := by
        intro heq
        exact hout (heq ▸ hkey)
      rw [if_neg hne, Nat.add_zero]
    rw [if_neg hout, if_neg h, List.map_append, List.map_singleton, List.map_congr_left hsame]
    simp only [hcount, List.count_eq_zero_of_not_mem h, if_true]

theorem sum_bump (rule : String) (counts : List (String × Nat)) :
    ((bump rule counts).map Prod.snd).sum = (counts.map Prod.snd).sum + 1 := by
  induction counts with
  | nil => rfl
  | cons entry counts ih =>
    obtain ⟨other, count⟩ := entry
    rw [bump]
    split
    · rw [List.map_cons, List.map_cons, List.sum_cons, List.sum_cons]
      omega
    · rw [List.map_cons, List.map_cons, List.sum_cons, List.sum_cons, ih]
      omega

theorem sum_firstCounts (labels : List String) :
    ((firstCounts labels).map Prod.snd).sum = labels.length := by
  induction labels using List.reverseRecOn with
  | nil => rfl
  | append_singleton labels label ih =>
    rw [← bump_firstCounts, sum_bump, ih, List.length_append, List.length_singleton]

theorem one_le_of_mem_firstCounts {labels : List String} {entry : String × Nat}
    (h : entry ∈ firstCounts labels) : 1 ≤ entry.2 := by
  obtain ⟨label, hlabel, rfl⟩ := List.mem_map.1 h
  exact List.count_pos_iff.2 (List.mem_eraseDups.1 hlabel)

theorem map_fst_firstCounts (labels : List String) :
    (firstCounts labels).map Prod.fst = labels.eraseDups := by
  unfold firstCounts
  rw [List.map_map]
  exact List.map_id _

/-! ## Records -/

/-- The tally is the count of the records: a rule stands for a command that it rewrote, none for one
that passed through. -/
structure Counts (records : List (Option String)) (tally : Tally) : Prop where
  total : tally.total = records.length
  skipped : tally.skipped = records.count none
  byRule : tally.byRule = firstCounts records.reduceOption

theorem counts_empty : Counts [] empty :=
  ⟨rfl, rfl, rfl⟩

/-- **One more record** is counted. -/
theorem Counts.record {records : List (Option String)} {tally : Tally} (h : Counts records tally)
    (record : Option String) : Counts (records ++ [record]) (tally.record record) := by
  have hlength : tally.total + 1 = (records ++ [record]).length := by
    rw [h.total, List.length_append, List.length_singleton]
  cases record with
  | none =>
    refine ⟨hlength, ?_, ?_⟩
    · show tally.skipped + 1 = _
      rw [h.skipped, List.count_append, List.count_singleton_self]
    · show tally.byRule = _
      rw [h.byRule, List.reduceOption_append]
      exact congrArg firstCounts (List.append_nil _).symm
  | some rule =>
    refine ⟨hlength, ?_, ?_⟩
    · show tally.skipped = _
      rw [h.skipped, List.count_append]
      rfl
    · show bump rule tally.byRule = _
      rw [h.byRule, bump_firstCounts, List.reduceOption_append]
      rfl

theorem length_eq_count_add_length (records : List (Option String)) :
    records.length = records.count none + records.reduceOption.length := by
  induction records with
  | nil => rfl
  | cons record records ih =>
    cases record with
    | none =>
      rw [List.reduceOption_cons_of_none, List.count_cons_self, List.length_cons]
      omega
    | some rule =>
      rw [List.reduceOption_cons_of_some, List.count_cons_of_ne (by simp), List.length_cons,
        List.length_cons]
      omega

/-- **What was seen is what passed through and what the rules rewrote.** -/
theorem Counts.total_eq {records : List (Option String)} {tally : Tally} (h : Counts records tally) :
    tally.total = tally.skipped + (tally.byRule.map Prod.snd).sum := by
  rw [h.total, h.skipped, h.byRule, sum_firstCounts]
  exact length_eq_count_add_length records

/-! ## The ranking -/

theorem perm_ranking (tally : Tally) : tally.ranking.Perm tally.byRule :=
  List.mergeSort_perm _ _

theorem ranking_trans (a b c : String × Nat) (hab : decide (b.2 ≤ a.2) = true)
    (hbc : decide (c.2 ≤ b.2) = true) : decide (c.2 ≤ a.2) = true := by
  simp only [decide_eq_true_eq] at *
  omega

theorem ranking_total (a b : String × Nat) :
    (decide (b.2 ≤ a.2) || decide (a.2 ≤ b.2)) = true := by
  simp only [Bool.or_eq_true, decide_eq_true_eq]
  omega

theorem pairwise_ranking (tally : Tally) : tally.ranking.Pairwise fun a b => b.2 ≤ a.2 := by
  have h := List.pairwise_mergeSort ranking_trans ranking_total tally.byRule
  exact h.imp fun hle => of_decide_eq_true hle

/-- **Rules with the same count stay in their order.** -/
theorem filter_ranking (tally : Tally) (count : Nat) :
    tally.ranking.filter (·.2 = count) = tally.byRule.filter (·.2 = count) := by
  have hequal : ∀ entry ∈ tally.byRule.filter (·.2 = count), entry.2 = count := by
    intro entry hentry
    exact of_decide_eq_true (List.mem_filter.1 hentry).2
  have hordered : (tally.byRule.filter (·.2 = count)).Pairwise
      fun a b => decide (b.2 ≤ a.2) = true := by
    refine List.pairwise_of_forall_mem_list fun a ha b hb => ?_
    rw [hequal a ha, hequal b hb]
    exact decide_eq_true (Nat.le_refl count)
  have hkept : (tally.byRule.filter (·.2 = count)).Sublist tally.ranking :=
    List.sublist_mergeSort ranking_trans ranking_total hordered List.filter_sublist
  -- a part of the ranking with that count, and as long as all of it
  have hpart := hkept.filter (·.2 = count)
  rw [List.filter_filter] at hpart
  simp only [Bool.and_self] at hpart
  exact (hpart.eq_of_length ((tally.perm_ranking.filter _).length_eq).symm).symm

end CompactShell.Session.Tally
