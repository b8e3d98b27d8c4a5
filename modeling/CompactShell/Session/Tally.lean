/-!
# Counting what was rewritten

A tally counts the commands that were seen, those that passed through unchanged, and for each rule
the commands that it rewrote. The rules are kept in the order in which each was first recorded; the
report lists them by count, those with equal counts in that order.
-/

namespace CompactShell.Session

structure Tally where
  total : Nat
  skipped : Nat
  /-- The rules that have rewritten a command, with how many. -/
  byRule : List (String × Nat)
  deriving DecidableEq, Repr

namespace Tally

def empty : Tally := ⟨0, 0, []⟩

/-- One more for a rule, which goes last if it is new. -/
def bump (rule : String) : List (String × Nat) → List (String × Nat)
  | [] => [(rule, 1)]
  | (other, count) :: rest =>
    if other = rule then (other, count + 1) :: rest else (other, count) :: bump rule rest

/-- One more command, with the rule that rewrote it if one did. -/
def record (tally : Tally) : Option String → Tally
  | none => { tally with total := tally.total + 1, skipped := tally.skipped + 1 }
  | some rule => { tally with total := tally.total + 1, byRule := bump rule tally.byRule }

/-- The counts of a whole run. -/
def ofList (records : List (Option String)) : Tally :=
  records.foldl record empty

def rewritten (tally : Tally) : Nat :=
  tally.total - tally.skipped

/-- The rules with the highest count first. -/
def ranking (tally : Tally) : List (String × Nat) :=
  tally.byRule.mergeSort fun a b => decide (b.2 ≤ a.2)

def ruleLine (rule : String) (count : Nat) : String :=
  s!"  {rule}: {count}"

def reportLines (tally : Tally) (enabled : Bool) : List String :=
  let status := if enabled then "enabled" else "DISABLED"
  let head :=
    [s!"RTK Rewrite - {status}",
      s!"Commands seen:  {tally.total}",
      s!"Rewritten:      {tally.rewritten}",
      s!"Passed through: {tally.skipped}"]
  if tally.byRule.isEmpty then head
  else head ++ ["", "By rule:"] ++ tally.ranking.map fun (rule, count) => ruleLine rule count

/-- The report on the counts, and on whether rewriting is switched on. -/
def report (tally : Tally) (enabled : Bool) : String :=
  "\n".intercalate (tally.reportLines enabled)

end Tally

end CompactShell.Session
