import CompactShell.Config.Effect
import CompactShell.Proofs.Config.Accepted
import Mathlib.Data.Fintype.Option
import Mathlib.Data.List.Nodup

/-!
# Configurations of two scopes

The configurations of the user and of a project are merged. What is merged is accepted again, the
rules that it disables are those of both scopes, each once (`isUnion_union`), and a switch is the
project's where that is set (`Overrides`). Merging is associative and gives a configuration back that
is merged with itself, with nothing, or with one that sets nothing. So the rewriter keeps a rule
exactly if both scopes keep it, and keeps the order of the table (`merged_scopes_laws`).
-/

namespace CompactShell.Config

open Json

variable {user project config : Config} {first second third : List String}

/-! ## Labels of both scopes -/

/-- The labels of the first list and then those that are new in the second. -/
def union (first second : List String) : List String :=
  first ++ second.filter fun label => !first.contains label

theorem disabledRules_merge (user project : Config) :
    (user.merge project).disabledRules = union user.disabledRules project.disabledRules := rfl

@[simp] theorem union_nil (labels : List String) : union labels [] = labels :=
  List.append_nil labels

@[simp] theorem nil_union (labels : List String) : union [] labels = labels :=
  List.filter_eq_self.2 fun _ _ => rfl

theorem mem_union {label : String} : label ∈ union first second ↔ label ∈ first ∨ label ∈ second := by
  rw [union, List.mem_append, List.mem_filter, Bool.not_eq_true', ← Bool.not_eq_true,
    List.contains_iff_mem]
  by_cases h : label ∈ first
  · exact iff_of_true (.inl h) (.inl h)
  · rw [and_iff_left h]

theorem union_self (labels : List String) : union labels labels = labels := by
  have hnone : labels.filter (fun label => !labels.contains label) = [] := by
    rw [List.filter_eq_nil_iff]
    intro label hlabel
    rw [List.contains_iff_mem.2 hlabel]
    exact Bool.false_ne_true
  rw [union, hnone, List.append_nil]

/-- A label is new behind two lists if it is new behind each. -/
theorem union_assoc (first second third : List String) :
    union (union first second) third = union first (union second third) := by
  have hnew : third.filter (fun label => !(union first second).contains label) =
      (third.filter fun label => !second.contains label).filter
        fun label => !first.contains label := by
    rw [List.filter_filter]
    refine List.filter_congr fun label _ => ?_
    rw [← Bool.not_or, Bool.not_inj_iff, Bool.eq_iff_iff, Bool.or_eq_true, List.contains_iff_mem,
      List.contains_iff_mem, List.contains_iff_mem, mem_union]
  rw [union, hnew, union, union, union, List.filter_append, List.append_assoc]

/-- The labels of two lists: each once, those of the first in front, and both in their order. -/
structure IsUnion (first second whole : List String) : Prop where
  count : ∀ label, whole.count label = if label ∈ first ∨ label ∈ second then 1 else 0
  order : ∃ more, whole = first ++ more ∧ more.Sublist second

theorem nodup_union (hfirst : first.Nodup) (hsecond : second.Nodup) : (union first second).Nodup := by
  refine List.nodup_append.2 ⟨hfirst, hsecond.filter _, fun label hlabel other hother heq => ?_⟩
  have hnew := (List.mem_filter.1 hother).2
  rw [← heq, List.contains_iff_mem.2 hlabel] at hnew
  cases hnew

theorem isUnion_union (hfirst : first.Nodup) (hsecond : second.Nodup) :
    IsUnion first second (union first second) where
  count := by
    intro label
    split
    · rename_i h
      exact List.count_eq_one_of_mem (nodup_union hfirst hsecond) (mem_union.2 h)
    · rename_i h
      exact List.count_eq_zero_of_not_mem fun hmem => h (mem_union.1 hmem)
  order := ⟨_, rfl, List.filter_sublist⟩

theorem AreRules.union (hfirst : AreRules first) (hsecond : AreRules second) :
    AreRules (union first second) where
  nodup := nodup_union hfirst.nodup hsecond.nodup
  subset := by
    intro label hlabel
    rcases mem_union.1 hlabel with h | h
    · exact hfirst.subset h
    · exact hsecond.subset h

/-! ## Two configurations -/

/-- A switch of the project over that of the user. -/
def Overrides (user project merged : Option Bool) : Prop :=
  (∀ value, project = some value → merged = some value) ∧ (project = none → merged = user)

theorem overrides_orElse (user project : Option Bool) :
    Overrides user project (project <|> user) := by
  cases project with
  | none =>
    refine ⟨fun value h => ?_, fun _ => rfl⟩
    cases h
  | some value =>
    refine ⟨fun other h => h, fun h => ?_⟩
    cases h

theorem IsAccepted.merge (huser : IsAccepted user) (hproject : IsAccepted project) :
    IsAccepted (user.merge project) :=
  isAccepted_iff.2 ((isAccepted_iff.1 huser).union (isAccepted_iff.1 hproject))

theorem merge_assoc (a b c : Config) : (a.merge b).merge c = a.merge (b.merge c) := by
  have hswitch : ∀ x y z : Option Bool, (z <|> (y <|> x)) = ((z <|> y) <|> x) := by decide
  simp only [Config.merge, hswitch, mk.injEq, true_and]
  exact union_assoc a.disabledRules b.disabledRules c.disabledRules

theorem merge_self (config : Config) : config.merge config = config := by
  have hswitch : ∀ x : Option Bool, (x <|> x) = x := by decide
  obtain ⟨enabled, throughOperators, disabled⟩ := config
  simp only [Config.merge, hswitch, mk.injEq, true_and]
  exact union_self disabled

theorem unset_merge (config : Config) : unset.merge config = config := by
  have hswitch : ∀ x : Option Bool, (x <|> none) = x := by decide
  obtain ⟨enabled, throughOperators, disabled⟩ := config
  simp only [Config.merge, unset, hswitch, mk.injEq, true_and]
  exact nil_union disabled

theorem merge_unset (config : Config) : config.merge unset = config := by
  obtain ⟨enabled, throughOperators, disabled⟩ := config
  simp only [Config.merge, unset, mk.injEq]
  exact ⟨rfl, rfl, union_nil disabled⟩

/-! ## Two scopes -/

/-- The configuration of two scopes, either of which may be missing. Where both are, it sets
nothing. -/
def merged (user project : Option Config) : Config :=
  (mergeScopes user project).getD unset

/-- A missing scope counts as one that sets nothing. -/
theorem merged_eq (user project : Option Config) :
    merged user project = (user.getD unset).merge (project.getD unset) := by
  cases user with
  | none =>
    cases project with
    | none => exact (unset_merge unset).symm
    | some project => exact (unset_merge project).symm
  | some user =>
    cases project with
    | none => exact (merge_unset user).symm
    | some project => rfl

theorem disabledIn_eq (scope : Option Config) :
    disabledIn scope = (scope.getD unset).disabledRules := by
  cases scope with
  | none => rfl
  | some config => rfl

/-- The switch of a scope, unset where the scope is missing. -/
theorem bind_eq_getD (switch : Config → Option Bool) (h : switch unset = none)
    (scope : Option Config) : scope.bind switch = switch (scope.getD unset) := by
  cases scope with
  | none => exact h.symm
  | some config => rfl

theorem isAccepted_getD {scope : Option Config} (h : ∀ config ∈ scope, IsAccepted config) :
    IsAccepted (scope.getD unset) := by
  cases scope with
  | none => exact isAccepted_unset
  | some config => exact h config rfl

/-- A rule is active under a scope if the rewriter of that scope has it. -/
theorem mem_rules_rewriter {host : Host} {scope : Option Config} {rule : Rule} :
    rule ∈ (rewriter host scope).rules ↔ rule ∈ Rule.table ∧ rule.label ∉ disabledIn scope := by
  show rule ∈ Rule.table.filter (fun rule => !(disabledIn scope).contains rule.label) ↔ _
  rw [List.mem_filter, Bool.not_eq_true', ← Bool.not_eq_true, List.contains_iff_mem]

/-- **The rules of both scopes.** The rewriter of the merged configuration has the rules of the
table, in their order, that the rewriters of both scopes have. -/
theorem rules_rewriter_merged (host : Host) (user project : Option Config) :
    (rewriter host (some (merged user project))).rules =
      Rule.table.filter fun rule => decide
        (rule ∈ (rewriter host user).rules ∧ rule ∈ (rewriter host project).rules) := by
  refine List.filter_congr fun rule hrule => ?_
  rw [Bool.eq_iff_iff, decide_eq_true_eq, mem_rules_rewriter, mem_rules_rewriter, disabledIn_eq,
    disabledIn_eq user, disabledIn_eq project, Option.getD_some, merged_eq, disabledRules_merge,
    Bool.not_eq_true', ← Bool.not_eq_true, List.contains_iff_mem, mem_union, not_or,
    and_iff_right hrule, and_iff_right hrule]

/-- **What merging does.** The configurations of accepted scopes merge into one that is accepted,
also from its text. It disables the rules of both, each once, and its switches are the project's
over the user's. Merging is associative and idempotent, and a scope that is missing or sets nothing
adds nothing. The rewriter of the merged configuration has the rules that are active under both. -/
theorem merged_scopes_laws {user project : Option Config}
    (huser : ∀ config ∈ user, IsAccepted config)
    (hproject : ∀ config ∈ project, IsAccepted config) (other : Option Config) (host : Host) :
    IsAccepted (merged user project) ∧
      ofText host.rooms.check (write (.obj (merged user project).members)) =
        .ok (.ok (merged user project)) ∧
      IsUnion (disabledIn user) (disabledIn project) (merged user project).disabledRules ∧
      Overrides (user.bind enabled) (project.bind enabled) (merged user project).enabled ∧
      Overrides (user.bind throughOperators) (project.bind throughOperators)
        (merged user project).throughOperators ∧
      merged (merged user project) other = merged user (merged project other) ∧
      merged user user = user.getD unset ∧
      (∀ nothing ∈ [none, some unset],
        merged user nothing = user.getD unset ∧ merged nothing user = user.getD unset) ∧
      (rewriter host (some (merged user project))).rules =
        Rule.table.filter fun rule => decide
          (rule ∈ (rewriter host user).rules ∧ rule ∈ (rewriter host project).rules) := by
  have haccepted : IsAccepted (merged user project) := by
    rw [merged_eq]
    exact (isAccepted_getD huser).merge (isAccepted_getD hproject)
  have hunion : IsUnion (disabledIn user) (disabledIn project)
      (merged user project).disabledRules := by
    rw [disabledIn_eq, disabledIn_eq, merged_eq, disabledRules_merge]
    exact isUnion_union (isAccepted_iff.1 (isAccepted_getD huser)).nodup
      (isAccepted_iff.1 (isAccepted_getD hproject)).nodup
  refine ⟨haccepted, haccepted.ofText_write (host.rooms.check_holds.mono (by decide)), hunion,
    ?_, ?_, ?_, ?_, ?_, rules_rewriter_merged host user project⟩
  · rw [bind_eq_getD enabled rfl, bind_eq_getD enabled rfl, merged_eq]
    exact overrides_orElse _ _
  · rw [bind_eq_getD throughOperators rfl, bind_eq_getD throughOperators rfl, merged_eq]
    exact overrides_orElse _ _
  · rw [merged_eq, merged_eq user project, merged_eq user, merged_eq project other]
    exact merge_assoc _ _ _
  · rw [merged_eq, merge_self]
  · intro nothing hnothing
    have hunset : nothing.getD unset = unset := by
      simp only [List.mem_cons, List.not_mem_nil, or_false] at hnothing
      rcases hnothing with rfl | rfl
      · rfl
      · rfl
    rw [merged_eq, merged_eq nothing, hunset]
    exact ⟨merge_unset _, unset_merge _⟩

/-- A configuration of the user that shares a rule with that of a project. -/
def userScope : Config := ⟨some false, none, ["git", "ls"]⟩

/-- The configuration of the project. -/
def projectScope : Config := ⟨none, some true, ["ls", "curl"]⟩

/-- The rules of the user come first, and the rule of both comes once. -/
theorem merged_scopes_laws_overlapping :
    IsAccepted ⟨some false, some true, ["git", "ls", "curl"]⟩ ∧
      IsUnion ["git", "ls"] ["ls", "curl"] ["git", "ls", "curl"] := by
  have huser : ∀ config ∈ some userScope, IsAccepted config := by
    intro config hconfig
    cases hconfig
    exact isAccepted_iff.2 ⟨by decide, by decide⟩
  have hproject : ∀ config ∈ some projectScope, IsAccepted config := by
    intro config hconfig
    cases hconfig
    exact isAccepted_iff.2 ⟨by decide, by decide⟩
  obtain ⟨haccepted, -, hunion, -⟩ :=
    merged_scopes_laws huser hproject none ⟨.empty, [], [], [], false, [], 0, .unlimited⟩
  exact ⟨haccepted, hunion⟩

end CompactShell.Config
