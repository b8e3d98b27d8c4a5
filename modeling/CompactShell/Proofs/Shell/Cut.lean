import CompactShell.Proofs.Shell.Operators
import CompactShell.Text.Choice
import Mathlib.Data.List.TakeWhile

/-!
# Cutting a line in front of its first operator

`splitAtOperator` cuts a little in front of the operator when digits or an ampersand belong to a
redirection. `IsCut` says what every caller needs to know about the two parts: they make up the
line, the scan is back at its start at the cut, and no operator stands in front of it.

The part in front of the cut loses its last white space. A backslash in front of that white space
stays behind as the last character, which is why an inert text may end in one.
-/

namespace CompactShell.Shell

open Text

/-! ## What belongs to a redirection -/

/-- What goes with the operator: nothing, or in front of a `>` the digits of a descriptor or the
ampersand of `&>`. -/
def IsLead (operator : Char) (lead : List Char) : Prop :=
  lead = [] ∨ operator = '>' ∧ (lead = ['&'] ∨ ∀ c ∈ lead, isDigit c = true)

theorem IsLead.mem {operator : Char} {lead : List Char} (h : IsLead operator lead) :
    ∀ c ∈ lead, isDigit c = true ∨ c = '&' := by
  rcases h with rfl | ⟨-, rfl | hdigits⟩
  · simp
  · simp
  · exact fun c hc => .inl (hdigits c hc)

/-- If anything goes with a redirection, a blank or nothing stands in front of it. -/
theorem redirectLead_spec (before : List Char) :
    ∃ lead rest, before = lead ++ rest ∧ lead.length = redirectLead before ∧
      (lead = ['&'] ∨ ∀ c ∈ lead, isDigit c = true) ∧
      (lead ≠ [] → ∀ c ∈ rest.head?, isBlank c = true) := by
  obtain ⟨lead, rest, rfl, hlen, hlead⟩ : ∃ lead rest, before = lead ++ rest ∧
      lead.length = (if (before.takeWhile isDigit).isEmpty && before.head? == some '&' then 1
        else (before.takeWhile isDigit).length) ∧
      (lead = ['&'] ∨ ∀ c ∈ lead, isDigit c = true) := by
    split
    · rename_i h
      simp only [Bool.and_eq_true, beq_iff_eq] at h
      obtain ⟨rest, rfl⟩ := List.head?_eq_some_iff.1 h.2
      exact ⟨['&'], rest, rfl, rfl, .inl rfl⟩
    · exact ⟨before.takeWhile isDigit, before.dropWhile isDigit,
        List.takeWhile_append_dropWhile.symm, rfl, .inr fun c hc => List.mem_takeWhile_imp hc⟩
  rw [redirectLead, ← hlen, List.drop_left]
  split
  · exact ⟨lead, [], by simp, rfl, hlead, by simp⟩
  · rename_i c rest
    split
    · rename_i hc
      exact ⟨lead, c :: rest, rfl, rfl, hlead, by simp [hc]⟩
    · exact ⟨[], lead ++ c :: rest, rfl, rfl, by simp, by simp⟩

/-- Digits and ampersands open no quote and close none. -/
theorem quoting_after_lead {s : Scan} {lead : List Char}
    (h : ∀ c ∈ lead, isDigit c = true ∨ c = '&') : (s.after lead).quoting = s.quoting := by
  induction lead generalizing s with
  | nil => rfl
  | cons c lead ih =>
    rw [Scan.after_cons, ih fun d hd => h d (List.mem_cons_of_mem _ hd)]
    rcases h c (List.mem_cons_self ..) with hc | rfl
    · rw [Scan.next_of_isPlain s (isPlain_of_isDigit hc)]
    · simp [Scan.next, Scan.isEscape, Scan.isToggle]

/-! ## The cut -/

/-- The command is cut into `front` and `tail` in front of its first operator. -/
structure IsCut (command front tail : List Char) : Prop where
  /-- What `splitAtOperator` makes of the two parts. -/
  split : splitAtOperator command = (trimEnd front, ' ' :: tail)
  /-- Nothing is lost. -/
  append : front ++ tail = command
  /-- The scan is back at its start at the cut. -/
  start : Scan.start.after front = .start
  /-- The first operator stands behind the cut. -/
  first : ∀ i, findOperator command = some i → front.length ≤ i
  /-- The tail starts with an operator or with what belongs to it. -/
  head : ∃ c rest, tail = c :: rest ∧ (isDigit c = true ∨ c ∈ specials)
  /-- In front of a descriptor's digits stands a blank, or nothing. -/
  digit : (∀ c ∈ tail.head?, c ∉ specials) → ∀ c ∈ front.getLast?, isBlank c = true
  /-- If the cut goes through `>&`, a chain follows at once. -/
  copy : front.getLast? = some '>' → tail.head? = some '&' → holds ">&&" command = true

theorem splitAtOperator_of_eq_none {command : List Char} (h : findOperator command = none) :
    splitAtOperator command = (command, []) := by
  rw [splitAtOperator, h]

theorem Scan.eq_start_of_isLive {s : Scan} {c : Char} (h : s.isLive c = true) : s = .start := by
  simp only [isLive, Bool.and_eq_true, Bool.not_eq_true', beq_iff_eq] at h
  exact Scan.eq_start h.1.1.1.2 h.1.1.1.1

theorem mem_specials_of_isOperator {c : Char} {x : Option Char} (h : isOperator c x = true) :
    c ∈ specials := by
  by_contra hc
  have hp : isPlain c = true := by simp [isPlain, hc]
  rw [isOperator_of_isPlain hp] at h
  exact Bool.noConfusion h

/-- The two parts of a redirection's front: what stays, and what goes with the operator. -/
theorem exists_lead {command before rest : List Char} {op : Char}
    (hc : command = before ++ op :: rest) :
    ∃ front lead, before = front ++ lead ∧ operatorStart command before.length = front.length ∧
      IsLead op lead ∧ (lead ≠ [] → ∀ c ∈ front.getLast?, isBlank c = true) := by
  have hget : command[before.length]? = some op := by rw [hc]; simp
  have htake : command.take before.length = before := by rw [hc]; exact List.take_left
  rw [operatorStart, hget, htake]
  split
  · rename_i hop
    obtain ⟨lead, front, he, hlen, hlead, hblank⟩ := redirectLead_spec before.reverse
    have hb : before = front.reverse ++ lead.reverse := by
      rw [← List.reverse_append, ← he, List.reverse_reverse]
    refine ⟨front.reverse, lead.reverse, hb, ?_, .inr ⟨?_, ?_⟩, ?_⟩
    · rw [← hlen, hb]; simp
    · exact Option.some.inj hop
    · refine hlead.imp (fun hamp => by rw [hamp]; rfl) fun hdigits c hcl => ?_
      exact hdigits c (List.mem_reverse.1 hcl)
    · intro hne c hcf
      rw [List.getLast?_reverse] at hcf
      exact hblank (by simpa using hne) c hcf
  · exact ⟨before, [], by simp, rfl, .inl rfl, by simp⟩

/-- **Every command with an operator is cut**, in front of the operator and of what goes with it. In
front of what goes with it stands a blank, or nothing. -/
theorem exists_isCut_operator {command : List Char} {i : Nat} (h : findOperator command = some i) :
    ∃ front lead op rest, IsCut command front (lead ++ op :: rest) ∧ (front ++ lead).length = i ∧
      IsLead op lead ∧ (lead ≠ [] → ∀ c ∈ front.getLast?, isBlank c = true) ∧
      isOperator op rest.head? = true := by
  obtain ⟨before, op, rest, hc, rfl, hlive, hop⟩ := operatorAt_of_operatorFrom h
  obtain ⟨front, lead, rfl, hstart, hlead, hblank⟩ := exists_lead hc
  have happ : front ++ (lead ++ op :: rest) = command := by rw [hc, List.append_assoc]
  have hspecial : op ∈ specials := mem_specials_of_isOperator hop
  refine ⟨front, lead, op, rest, ⟨?_, happ, ?_, ?_, ?_, ?_, ?_⟩, rfl, hlead, hblank, hop⟩
  · rw [splitAtOperator, h]
    dsimp only
    rw [hstart, ← happ, List.take_left, List.drop_left]
  · -- the lead changes no quotes, and a blank in front of it cannot leave an escape behind
    have hs := Scan.eq_start_of_isLive hlive
    rcases List.eq_nil_or_concat' front with rfl | ⟨init, b, rfl⟩
    · rfl
    · cases lead with
      | nil => simpa using hs
      | cons d lead =>
        have hb : isBlank b = true := hblank (by simp) b (by simp)
        have hq := quoting_after_lead (s := Scan.start.after (init ++ [b])) hlead.mem
        rw [← Scan.after_append, hs] at hq
        rw [Scan.after_append, Scan.after_cons, Scan.after_nil,
          Scan.next_of_isPlain _ (isPlain_of_isBlank hb)] at hq ⊢
        rw [← hq]; rfl
  · intro j hj
    rw [h] at hj
    obtain rfl := Option.some.inj hj
    simp
  · cases lead with
    | nil => exact ⟨op, rest, rfl, Or.inr hspecial⟩
    | cons d lead =>
      refine ⟨d, lead ++ op :: rest, rfl, ?_⟩
      rcases hlead.mem d (List.mem_cons_self ..) with hd | rfl
      · exact Or.inl hd
      · exact Or.inr (by decide)
  · intro hhead
    cases lead with
    | nil => exact absurd hspecial (hhead op rfl)
    | cons d lead => exact hblank (by simp)
  · intro hlast hhead
    cases lead with
    | cons d lead =>
      exact absurd (hblank (by simp) '>' hlast) (by decide)
    | nil =>
      -- the operator itself is the ampersand, so a second one follows it
      obtain rfl : op = '&' := by simpa using hhead
      have hnext : rest.head? = some '&' := by simpa [isOperator] using hop
      obtain ⟨rest, rfl⟩ := List.head?_eq_some_iff.1 hnext
      obtain ⟨init, rfl⟩ := List.getLast?_eq_some_iff.1 hlast
      rw [holds_iff]
      exact ⟨init, rest, by rw [hc]; simp⟩

theorem exists_isCut_lead {command : List Char} {i : Nat} (h : findOperator command = some i) :
    ∃ front lead op rest, IsCut command front (lead ++ op :: rest) ∧ (front ++ lead).length = i ∧
      IsLead op lead := by
  obtain ⟨front, lead, op, rest, hcut, hlength, hlead, -⟩ := exists_isCut_operator h
  exact ⟨front, lead, op, rest, hcut, hlength, hlead⟩

theorem exists_isCut {command : List Char} {i : Nat} (h : findOperator command = some i) :
    ∃ front tail, IsCut command front tail := by
  obtain ⟨front, lead, op, rest, hcut, -⟩ := exists_isCut_lead h
  exact ⟨front, _, hcut⟩

/-! ## The part in front of the cut -/

theorem trimEnd_spec (text : List Char) :
    ∃ white, text = trimEnd text ++ white ∧ ∀ c ∈ white, isSpace c = true := by
  refine ⟨(text.reverse.takeWhile isSpace).reverse, ?_, ?_⟩
  · rw [trimEnd, ← List.reverse_append, List.takeWhile_append_dropWhile, List.reverse_reverse]
  · intro c hc
    exact List.mem_takeWhile_imp (List.mem_reverse.1 hc)

theorem isNeutral_head?_of_isSpace {white : List Char} (h : ∀ c ∈ white, isSpace c = true) :
    IsNeutral white.head? := by
  cases white with
  | nil => exact isNeutral_none
  | cons c white => exact isNeutral_of_isPlain (isPlain_of_isSpace (h c (List.mem_cons_self ..)))

/-- White space opens no quote and closes none. -/
theorem quoting_after_white {s : Scan} {white : List Char} (h : ∀ c ∈ white, isSpace c = true) :
    (s.after white).quoting = s.quoting := by
  induction white generalizing s with
  | nil => rfl
  | cons c white ih =>
    rw [Scan.after_cons, ih fun d hd => h d (List.mem_cons_of_mem _ hd),
      Scan.next_of_isPlain s (isPlain_of_isSpace (h c (List.mem_cons_self ..)))]

/-- A text stays inert when it is cut short at white space. -/
theorem Inert.of_append_white {a white : List Char} (hw : ∀ c ∈ white, isSpace c = true)
    (h : Inert (a ++ white)) : Inert a := by
  refine ⟨?_, ?_⟩
  · have := h.closed
    rwa [Scan.after_append, quoting_after_white hw] at this
  · have := h.free
    rw [findOperator, operatorFrom_append (isNeutral_head?_of_isSpace hw), Option.or_eq_none_iff]
      at this
    exact this.1

/-- **The part in front of the cut is inert**, unless the command has a `>` that runs into a
chain. -/
theorem IsCut.inert {command front tail : List Char} (h : IsCut command front tail)
    (hcopy : holds ">&&" command = false) : Inert (trimEnd front) := by
  obtain ⟨white, hfront, hwhite⟩ := trimEnd_spec front
  refine Inert.of_append_white hwhite ?_
  rw [← hfront]
  refine ⟨by rw [h.start]; rfl, operatorFrom_take (b := tail) ?_ ?_⟩
  · rw [h.append]; exact h.first
  · rintro ⟨hlast, hhead⟩
    rw [h.copy hlast hhead] at hcopy
    exact Bool.noConfusion hcopy

/-- Behind the cut the scan goes on as it would have in the whole command. -/
theorem IsCut.after_tail {command front tail : List Char} (h : IsCut command front tail) :
    Scan.start.after tail = Scan.start.after command := by
  rw [← h.append, Scan.after_append, h.start]

/-- The tail holds the operator tail of the command. -/
theorem IsCut.operatorTail?_eq {command front tail : List Char} (h : IsCut command front tail) :
    operatorTail? tail = operatorTail? command := by
  unfold operatorTail?
  cases hi : findOperator command with
  | none =>
    have hn : findOperator tail = none := by
      have := hi
      rw [findOperator, ← h.append] at this
      rw [findOperator, ← h.start]
      exact operatorFrom_eq_none_of_append this
    rw [hn]; rfl
  | some i =>
    obtain ⟨k, rfl⟩ := Nat.exists_eq_add_of_le (h.first i hi)
    have hk : findOperator tail = some k := by
      rw [findOperator, ← h.append] at hi
      rw [findOperator, ← h.start]
      exact operatorFrom_of_append hi
    rw [hk, Option.map_some, Option.map_some, ← h.append, List.drop_append]
    simp

end CompactShell.Shell
