import CompactShell.Proofs.Json.Proper
import CompactShell.Proofs.Log.Counts
import CompactShell.Proofs.Log.Growth
import CompactShell.Proofs.Log.Lines

/-!
# Entries behind a complete log

An entry is written behind the bytes that are there, whatever they are. It is an entry of its own
exactly where the log's last line is complete: the log is empty, or its text ends with a line break
(`IsComplete`). Then the log is read as the entries that it had and the new one
(`entriesIn_append`). Behind a line that was broken off, the entry is lost with that line. But every
entry ends its own line, so one entry later the log is complete, whatever it was before
(`isComplete_append`).
-/

namespace CompactShell

open Host Json Text

/-! ## Text behind text -/

/-- A reading that goes on with ASCII after a first reading, and fails if the first one does. -/
def Text.Utf8.ReadsOn (more : List Char) (first second : Except Fault (List Char)) : Prop :=
  ∀ text, second = .ok text ↔ ∃ front, first = .ok front ∧ text = front ++ more

namespace Text.Utf8

theorem ReadsOn.map {more : List Char} {first second : Except Fault (List Char)}
    (h : ReadsOn more first second) (c : Char) :
    ReadsOn more (first.map (c :: ·)) (second.map (c :: ·)) := by
  intro text
  constructor
  · intro hsecond
    obtain ⟨rest, hrest, rfl⟩ := map_ok hsecond
    obtain ⟨front, hfront, rfl⟩ := (h rest).1 hrest
    exact ⟨c :: front, by rw [hfront]; rfl, rfl⟩
  · intro hread
    obtain ⟨front, hfirst, htext⟩ := hread
    obtain ⟨rest, hrest, rfl⟩ := map_ok hfirst
    rw [htext, (h (rest ++ more)).2 ⟨rest, hrest, rfl⟩]
    rfl

theorem readsOn_error {more : List Char} (fault other : Fault) :
    ReadsOn more (.error fault) (.error other) := by
  intro text
  constructor
  · intro h
    cases h
  · intro hread
    obtain ⟨front, hfront, _⟩ := hread
    cases hfront

theorem le_low_of_ofFirst? {b : UInt8} {p : Pending} (h : Pending.ofFirst? b = some p) :
    0x80 ≤ p.low := by
  unfold Pending.ofFirst? at h
  dsimp only at h
  repeat' split at h
  all_goals cases h
  all_goals
    dsimp only
    decide

/-- **ASCII is read on behind any bytes.** A character that the bytes leave unfinished is not
finished by it. -/
theorem readsOn_decodeFrom {more : List Char} (hmore : ∀ c ∈ more, c.toNat < 0x80)
    (bytes : List UInt8) (position : Nat) {pending : Option Pending}
    (hpending : ∀ p ∈ pending, 0x80 ≤ p.low) :
    ReadsOn more (decodeFrom position pending bytes)
      (decodeFrom position pending (bytes ++ encode more)) := by
  induction bytes generalizing position pending with
  | nil =>
    cases pending with
    | none =>
      intro text
      rw [List.nil_append, decodeFrom_encode_ascii hmore, decodeFrom]
      constructor
      · intro h
        cases h
        exact ⟨[], rfl, rfl⟩
      · intro hread
        obtain ⟨front, hfront, htext⟩ := hread
        cases hfront
        rw [htext, List.nil_append]
    | some p =>
      cases more with
      | nil => exact readsOn_error _ _
      | cons c more =>
        have hc : c.toNat < 0x80 := hmore c (List.mem_cons_self ..)
        have hlow : c.toNat.toUInt8 < p.low := by
          have hp := UInt8.le_iff_toNat_le.1 (hpending p rfl)
          have hnat : c.toNat.toUInt8.toNat = c.toNat :=
            Nat.mod_eq_of_lt (Nat.lt_trans hc (by decide))
          rw [UInt8.lt_iff_toNat_lt, hnat]
          exact Nat.lt_of_lt_of_le hc hp
        rw [List.nil_append, encode_cons_ascii hc, decodeFrom, decodeFrom,
          if_pos (by rw [decide_eq_true hlow]; rfl)]
        exact readsOn_error _ _
  | cons b bytes ih =>
    have hnone : ∀ p ∈ (none : Option Pending), 0x80 ≤ p.low := by
      intro p hp
      cases hp
    cases pending with
    | none =>
      rw [List.cons_append, decodeFrom, decodeFrom]
      by_cases hascii : b < 0x80
      · rw [if_pos hascii, if_pos hascii]
        exact (ih _ hnone).map _
      · rw [if_neg hascii, if_neg hascii]
        cases hfirst : Pending.ofFirst? b with
        | none => exact readsOn_error _ _
        | some p =>
          refine ih _ fun q hq => ?_
          cases hq
          exact le_low_of_ofFirst? hfirst
    | some p =>
      rw [List.cons_append, decodeFrom, decodeFrom]
      split
      · exact readsOn_error _ _
      · split
        · exact (ih _ hnone).map _
        · refine ih _ fun q hq => ?_
          cases hq
          exact UInt8.le_refl _

end Text.Utf8

theorem Text.unifyNewlines_append {more : List Char} (h : ∀ c ∈ more.head?, c ≠ '\n')
    (text : List Char) : unifyNewlines (text ++ more) = unifyNewlines text ++ unifyNewlines more := by
  fun_induction unifyNewlines text with
  | case1 => rfl
  | case2 rest ih =>
    rw [List.cons_append, List.cons_append, unifyNewlines, ih]
    rfl
  | case3 c rest hpair ih =>
    rw [List.cons_append, unifyNewlines, ih]
    · rfl
    · -- a carriage return that ends the text finds no newline behind it
      intro after hc hafter
      cases rest with
      | nil =>
        rw [List.nil_append] at hafter
        exact h '\n' (by rw [hafter]; rfl) rfl
      | cons d rest =>
        cases hafter
        exact hpair rest hc rfl

/-- A file is read on as its text is. -/
theorem Host.textOf_append_iff {bytes : List UInt8} {more text : List Char}
    (hmore : ∀ c ∈ more, IsPlainAscii c) (hhead : ∀ c ∈ more.head?, c ≠ '\n') :
    textOf (bytes ++ Utf8.encode more) = .ok text ↔
      ∃ front, textOf bytes = .ok front ∧ text = front ++ more := by
  have hreturn : '\r' ∉ more := fun hmem => (hmore '\r' hmem).2 rfl
  have hpending : ∀ p ∈ (none : Option Utf8.Pending), 0x80 ≤ p.low := by
    intro p hp
    cases hp
  have hreads := Utf8.readsOn_decodeFrom (fun c hc => (hmore c hc).1) bytes 0 hpending
  unfold textOf Utf8.decode
  constructor
  · intro h
    split at h
    · rename_i whole hwhole
      cases h
      obtain ⟨front, hfront, rfl⟩ := (hreads whole).1 hwhole
      refine ⟨unifyNewlines front, by rw [hfront], ?_⟩
      rw [unifyNewlines_append hhead, unifyNewlines_of_not_mem hreturn]
    · cases h
  · intro hfirst
    obtain ⟨front, hfront, htext⟩ := hfirst
    split at hfront
    · rename_i whole hwhole
      cases hfront
      rw [(hreads (whole ++ more)).2 ⟨whole, hwhole, rfl⟩, htext]
      dsimp only
      rw [unifyNewlines_append hhead, unifyNewlines_of_not_mem hreturn]
    · cases hfront

namespace Log

/-! ## Lines behind lines -/

/-- The last line of the text is complete. -/
def EndsLine (text : List Char) : Prop :=
  ∀ c ∈ text.getLast?, isLineBreak c = true

/-- Lines are read on behind lines. -/
theorem entriesOn_append (room : Room) (first second : List (List Char)) :
    entriesOn room (first ++ second) =
      entriesOn room first >>= fun front => (entriesOn room second).map (front ++ ·) := by
  have hmap : ∀ result : Except Failure (List Members), result.map ([] ++ ·) = result := by
    intro result
    cases result with
    | error failure => rfl
    | ok entries => rfl
  induction first with
  | nil => exact (hmap _).symm
  | cons line first ih =>
    rw [List.cons_append, entriesOn, entriesOn]
    split
    · exact ih
    · split
      · rfl
      · rw [ih]
        cases entriesOn room first with
        | error failure => rfl
        | ok front =>
          cases entriesOn room second with
          | error failure => rfl
          | ok back => rfl
      · exact ih

/-- **A complete text is read on.** -/
theorem entriesOf_append (room : Room) {text : List Char} (h : EndsLine text) (more : List Char) :
    entriesOf room (text ++ more) =
      entriesOf room text >>= fun front => (entriesOf room more).map (front ++ ·) := by
  rcases List.eq_nil_or_concat text with rfl | ⟨front, c, rfl⟩
  · have hnil : entriesOf room [] = .ok [] := rfl
    rw [List.nil_append, hnil]
    show _ = (entriesOf room more).map ([] ++ ·)
    cases entriesOf room more with
    | error failure => rfl
    | ok entries => rfl
  · -- the line that the last character ends is followed by nothing
    have hbreak : isLineBreak c = true := h c (by rw [List.concat_eq_append]; simp)
    have hlast : entriesOn room [[]] = .ok [] := rfl
    have hsplit : splitAtBreaks [c] = [[], []] := by
      rw [splitAtBreaks, ← List.nil_append [c], List.splitOnP_append_cons [] [] hbreak]
      rfl
    rw [List.concat_eq_append, List.append_assoc, List.singleton_append, entriesOf, entriesOf,
      entriesOf, splitAtBreaks, splitAtBreaks, splitAtBreaks,
      List.splitOnP_append_cons front more hbreak, List.splitOnP_append_cons front [] hbreak,
      entriesOn_append, entriesOn_append]
    cases entriesOn room (front.splitOnP isLineBreak) with
    | error failure => rfl
    | ok entries =>
      show _ = (entriesOn room (more.splitOnP isLineBreak)).map (entries ++ [] ++ ·)
      rw [List.append_nil]
      rfl

/-! ## Logs -/

/-- The last line of a log is complete, if it can be read. -/
def IsComplete (bytes : List UInt8) : Prop :=
  ∀ text, textOf bytes = .ok text → EndsLine text

variable {room : Room} {bytes : List UInt8} {entries : List Members}

theorem textOf_append_line_iff {text : List Char} (entry : Entry) :
    textOf (bytes ++ Utf8.encode entry.line) = .ok text ↔
      ∃ front, textOf bytes = .ok front ∧ text = front ++ entry.line := by
  refine textOf_append_iff (fun c hc => isPlainAscii_of_mem_line hc) fun c hc => ?_
  cases hc
  decide

/-- **Behind an entry a log is complete,** whatever stands in front of it. -/
theorem isComplete_append (bytes : List UInt8) (entry : Entry) :
    IsComplete (bytes ++ Utf8.encode entry.line) := by
  intro text htext c hc
  obtain ⟨front, -, rfl⟩ := (textOf_append_line_iff entry).1 htext
  rw [Entry.line, ← List.append_assoc, List.getLast?_concat] at hc
  cases hc
  decide

/-- **An entry behind a complete log is an entry more.** -/
theorem entriesIn_append (hroom : room.Holds 1) (h : IsComplete bytes) (entry : Entry) :
    entriesIn room (bytes ++ Utf8.encode entry.line) = .ok entries ↔
      ∃ front, entriesIn room bytes = .ok front ∧ entries = front ++ [entry.members] := by
  have hline : entriesOf room entry.line = .ok [entry.members] := by
    have happend := entriesOf_line_append hroom entry []
    rw [List.append_nil] at happend
    exact happend
  have hbehind : ∀ text, textOf bytes = .ok text →
      entriesOf room (text ++ entry.line) = (entriesOf room text).map (· ++ [entry.members]) := by
    intro text htext
    rw [entriesOf_append room (h text htext), hline]
    rfl
  unfold entriesIn
  constructor
  · intro hentries
    cases htext : textOf (bytes ++ Utf8.encode entry.line) with
    | error failure =>
      rw [htext] at hentries
      cases hentries
    | ok whole =>
      obtain ⟨text, hread, rfl⟩ := (textOf_append_line_iff entry).1 htext
      rw [htext] at hentries
      have hmapped := (hbehind text hread).symm.trans hentries
      obtain ⟨front, hfront, rfl⟩ := map_ok hmapped
      exact ⟨front, by rw [hread]; exact hfront, rfl⟩
  · intro hread
    obtain ⟨front, hfront, hentries⟩ := hread
    cases hread : textOf bytes with
    | error failure =>
      rw [hread] at hfront
      cases hfront
    | ok text =>
      rw [hread] at hfront
      have hwhole := (textOf_append_line_iff entry).2 ⟨text, hread, rfl⟩
      rw [hwhole, hentries]
      refine (hbehind text hread).trans ?_
      show (entriesOf room text).map _ = _
      rw [show entriesOf room text = .ok front from hfront]
      rfl

/-! ## Notices -/

/-- If the log can be read, it says that the compact tool is missing. -/
def IsNoted (bytes : List UInt8) : Prop :=
  ∀ room entries, room.Holds 1 → entriesIn room bytes = .ok entries →
    entries.any (isAbout .unavailable) = true

/-- A notice behind a complete log is noted. -/
theorem isNoted_notice (h : IsComplete bytes) {entry : Entry} (hevent : entry.event = .unavailable) :
    IsNoted (bytes ++ Utf8.encode entry.line) := by
  intro room entries hroom hentries
  obtain ⟨front, -, rfl⟩ := (entriesIn_append hroom h entry).1 hentries
  rw [List.any_append, List.any_cons, isAbout_members, hevent, decide_eq_true rfl, Bool.true_or,
    Bool.or_true]

/-- What a complete log has noted stays noted. -/
theorem IsNoted.append (hnoted : IsNoted bytes) (h : IsComplete bytes) (entry : Entry) :
    IsNoted (bytes ++ Utf8.encode entry.line) := by
  intro room entries hroom hentries
  obtain ⟨front, hfront, rfl⟩ := (entriesIn_append hroom h entry).1 hentries
  rw [List.any_append, hnoted room front hroom hfront, Bool.true_or]

end Log

end CompactShell
