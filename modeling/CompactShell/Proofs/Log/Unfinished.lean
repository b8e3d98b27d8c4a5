import CompactShell.Proofs.Json.Unfinished
import CompactShell.Proofs.Log.Endings
import CompactShell.Proofs.Log.Readings

/-!
# Entries behind an unfinished line

The last line of a log may be broken off, and an entry is then written behind what there is of it.
Where that is only white space between JSON texts, the entry is read as if it stood on a line of its
own. Behind anything else it is lost: the line is no JSON any more, whatever is missing of it. If
what is there of it is an object, this is lost as well (`entries_behind_unfinished`). And where it
opens so many brackets that there is no room behind them, the line is refused, and the log with
it.
-/

namespace CompactShell

open Host Json Text

namespace Log

/-! ## Entries as texts -/

/-- **An entry is read at the end of a text.** -/
theorem Entry.isObjectText (entry : Entry) :
    IsObjectText (write (.obj entry.members)) (.obj entry.members) where
  front := ⟨'t', _, rfl, rfl⟩
  read := by
    intro room fuel hroom hfuel
    have hfits := entry.isExact.fitsIn (entry.depth_eq ▸ hroom)
    have hread := entry.isExact.isReadAs room fuel [] hfits hfuel isNumberEnd_nil
    rwa [List.append_nil] at hread

/-- What is written for a value has no line break in it. -/
theorem isLineBreak_of_mem_write {v : Value} (h : v.IsExact) :
    ∀ c ∈ write v, isLineBreak c = false := fun c hc =>
  isLineBreak_of_isVisible (h.isProper.isVisible c hc)

variable {room : Room} {line : List Char}

/-- What is read of one line. -/
theorem entriesOf_line (h : ∀ c ∈ line, isLineBreak c = false) :
    entriesOf room line =
      match refusal? room line with
      | some refusal => .error (.refused refusal)
      | none => .ok (object? line).toList := by
  rw [entriesOf_eq, splitAtBreaks, List.splitOnP_eq_singleton h, List.findSome?_cons,
    List.filterMap_cons]
  cases refusal? room line with
  | some refusal => rfl
  | none =>
    cases object? line with
    | none => rfl
    | some members => rfl

/-- The end of a line is no entry. -/
theorem entriesOf_line_newline (h : ∀ c ∈ line, isLineBreak c = false) :
    entriesOf room (line ++ ['\n']) = entriesOf room line := by
  have hempty : ∀ room, IsMalformed (readWithin room []) := isMalformed_readWithin_of_isWhite rfl
  rw [entriesOf_eq, entriesOf_eq, splitAtBreaks, splitAtBreaks,
    List.splitOnP_append_cons_of_forall_mem h '\n' rfl, List.splitOnP_eq_singleton h,
    List.splitOnP_nil, List.findSome?_cons, List.findSome?_cons, List.findSome?_cons,
    List.filterMap_cons, List.filterMap_cons, List.filterMap_cons, refusal?_eq_none (hempty room),
    object?_eq_none (hempty none)]

/-! ## The last line -/

/-- What there is of a last line that was broken off. A log that ends with a line break has none. -/
def unfinished (text : List Char) : List Char :=
  text.rtakeWhile (!isLineBreak ·)

/-- The lines of a log that have an end. -/
def finished (text : List Char) : List Char :=
  text.rdropWhile (!isLineBreak ·)

theorem finished_append_unfinished (text : List Char) : finished text ++ unfinished text = text :=
  List.rdropWhile_append_rtakeWhile

theorem endsLine_finished (text : List Char) : EndsLine (finished text) := by
  intro c hc
  obtain ⟨hne, rfl⟩ := List.mem_getLast?_eq_getLast hc
  have hlast := List.rdropWhile_last_not (!isLineBreak ·) text hne
  rwa [Bool.not_eq_true', Bool.not_eq_false] at hlast

theorem isLineBreak_of_mem_unfinished {text : List Char} {c : Char} (h : c ∈ unfinished text) :
    isLineBreak c = false := by
  have hmem := List.mem_rtakeWhile_imp h
  rwa [Bool.not_eq_true'] at hmem

/-- A log is read as its finished lines and the one that was broken off. -/
theorem entriesOf_finished_append (room : Room) (text more : List Char) :
    entriesOf room (text ++ more) =
      entriesOf room (finished text) >>= fun kept =>
        (entriesOf room (unfinished text ++ more)).map (kept ++ ·) := by
  have hsplit : text ++ more = finished text ++ (unfinished text ++ more) := by
    rw [← List.append_assoc, finished_append_unfinished]
  rw [hsplit, entriesOf_append room (endsLine_finished text)]

/-- What is read of a log that is not refused: the entries of its finished lines, and what there is
of the last one if that is an object. -/
theorem entriesOf_finished {text : List Char} {old : List Members}
    (h : entriesOf room text = .ok old) :
    refusal? room (unfinished text) = none ∧ ∃ kept, entriesOf room (finished text) = .ok kept ∧
      old = kept ++ (object? (unfinished text)).toList := by
  have hbreak : ∀ c ∈ unfinished text, isLineBreak c = false := fun _ =>
    isLineBreak_of_mem_unfinished
  have hsplit := entriesOf_finished_append room text []
  rw [List.append_nil, List.append_nil, h] at hsplit
  cases hkept : entriesOf room (finished text) with
  | error failure =>
    rw [hkept] at hsplit
    cases hsplit
  | ok kept =>
    rw [hkept] at hsplit
    obtain ⟨last, hlast, rfl⟩ := map_ok hsplit.symm
    rw [entriesOf_line hbreak] at hlast
    cases hrefusal : refusal? room (unfinished text) with
    | some refusal =>
      rw [hrefusal] at hlast
      cases hlast
    | none =>
      rw [hrefusal] at hlast
      cases hlast
      exact ⟨rfl, kept, rfl, rfl⟩

/-- White space is no entry. -/
theorem object?_of_gap {text : List Char} (h : text.all isGap = true) :
    object? text = none := by
  have hwhite : isWhite text = true := List.all_eq_true.2 fun c hc => by
    have hgap := List.all_eq_true.1 h c hc
    simp only [isGap, Bool.or_eq_true, decide_eq_true_eq] at hgap
    rcases hgap with ((rfl | rfl) | rfl) | rfl <;> rfl
  exact object?_eq_none (isMalformed_readWithin_of_isWhite hwhite none)

theorem entriesOf_append_line (hline : ∀ c ∈ line, isLineBreak c = false) (entry : Entry) :
    entriesOf room (line ++ entry.line) =
      match refusal? room (line ++ write (.obj entry.members)) with
      | some refusal => .error (.refused refusal)
      | none => .ok (object? (line ++ write (.obj entry.members))).toList := by
  have hbreak : ∀ c ∈ line ++ write (.obj entry.members), isLineBreak c = false := by
    intro c hc
    rcases List.mem_append.1 hc with hc | hc
    · exact hline c hc
    · exact isLineBreak_of_mem_write entry.isExact c hc
  rw [Entry.line, ← List.append_assoc, entriesOf_line_newline hbreak, entriesOf_line hbreak]

/-- Behind white space an entry is read. -/
theorem entriesOf_gap_line (hroom : room.Holds 1) (hline : ∀ c ∈ line, isLineBreak c = false)
    (hgap : line.all isGap = true) (entry : Entry) :
    entriesOf room (line ++ entry.line) = .ok [entry.members] := by
  have hread := readWithin_gap_append entry.isObjectText hroom hgap
  rw [entriesOf_append_line hline, refusal?, object?, hread, read_of_readWithin hread]
  rfl

/-- Behind anything else that is not refused nothing is read, or there is no room for the entry. -/
theorem entriesOf_broken_line (hline : ∀ c ∈ line, isLineBreak c = false)
    (hgap : ¬ line.all isGap = true) (hrefusal : refusal? room line = none) (entry : Entry) :
    entriesOf room (line ++ entry.line) = .ok [] ∨
      ¬ room.Holds (openings line + reportCalls) ∧
        ∃ refusal, entriesOf room (line ++ entry.line) = .error (.refused refusal) := by
  rw [entriesOf_append_line hline]
  rcases readWithin_append_object entry.isObjectText room hgap with
    hread | ⟨refusal, hfirst, -⟩ | ⟨hroom, refusal, hread⟩
  · have hnone := refusal?_eq_none hread
    rw [hnone]
    rw [readWithin_of_refusal? hnone] at hread
    rw [object?_eq_none hread]
    exact .inl rfl
  · rw [refusal?_eq_some_iff.2 hfirst] at hrefusal
    cases hrefusal
  · rw [refusal?_eq_some_iff.2 hread]
    exact .inr ⟨hroom, refusal, rfl⟩

/-! ## Logs -/

variable {host : Host} {session : List Char} {file : Name} {bytes : List UInt8} {changed : Nat}
  {text : List Char} {old : List Members}

/-- Behind a log that is there, an entry is written. -/
theorem entriesAt_append_file (hplain : ∀ name ∈ directory host ++ [file], IsPlainName name)
    (hthere : host.find? (path host file) = some (.file bytes changed))
    (htext : textOf bytes = .ok text) (entry : Entry) :
    entriesAt (append host file entry) (path host file) =
      entriesOf host.rooms.log (text ++ entry.line) := by
  obtain ⟨hnode, hway⟩ := (find?_eq_some_iff hplain).1 hthere
  rw [List.dropLast_concat] at hway
  have hloggable : IsLoggable host file :=
    ⟨hway.isOpen, by rw [Files.isDirectory, hnode]⟩
  have hbytes : logBytes host file = bytes := by rw [logBytes, Files.bytes, hnode]
  have hmade := isMade_append hloggable entry
  have hpath : path (append host file entry) file = path host file := by
    rw [path, directory_append, path]
  rw [← directory_append host file entry] at hplain hmade
  rw [← hpath, entriesAt_of_isMade hplain hmade, append_rooms, logBytes_append hloggable, hbytes,
    entriesIn, (textOf_append_line_iff entry).2 ⟨text, htext, rfl⟩]
  rfl

/-- **What becomes of an entry behind a broken line.** The finished lines of a log are read as
before. The entry is read behind all that was read before if there is nothing but white space of the
line that was broken off, and only then. Otherwise it is lost with that line, or, if that line opens
so many brackets that there is no room behind them, with the whole log. -/
theorem entries_behind_unfinished (hhome : ∀ name ∈ host.home, IsPlainName name)
    (hfile : fileName? session = some file)
    (hthere : host.find? (path host file) = some (.file bytes changed))
    (htext : textOf bytes = .ok text) (hold : entriesAt host (path host file) = .ok old)
    (entry : Entry) :
    ∃ kept, entriesOf host.rooms.log (finished text) = .ok kept ∧
      old = kept ++ (object? (unfinished text)).toList ∧
      (entriesAt (append host file entry) (path host file) =
          .ok (if (unfinished text).all isGap then old ++ [entry.members] else kept) ∨
        ¬ host.rooms.log.Holds (openings (unfinished text) + reportCalls) ∧
          ∃ refusal, entriesAt (append host file entry) (path host file) =
            .error (.refused refusal)) ∧
      (entriesAt (append host file entry) (path host file) = .ok (old ++ [entry.members]) ↔
        (unfinished text).all isGap = true) := by
  have hplain := plain_path hhome (isPlainName_of_fileName? hfile)
  have hbreak : ∀ c ∈ unfinished text, isLineBreak c = false := fun _ =>
    isLineBreak_of_mem_unfinished
  rw [entriesAt_file hthere htext] at hold
  obtain ⟨hrefusal, kept, hkept, rfl⟩ := entriesOf_finished hold
  rw [entriesAt_append_file hplain hthere htext, entriesOf_finished_append, hkept]
  refine ⟨kept, rfl, rfl, ?_⟩
  by_cases hgap : (unfinished text).all isGap = true
  · have hline := entriesOf_gap_line (host.rooms.log_holds.mono (by decide)) hbreak hgap entry
    rw [hline, object?_of_gap hgap, if_pos hgap, Option.toList_none, List.append_nil]
    exact ⟨.inl rfl, iff_of_true rfl hgap⟩
  · rw [if_neg hgap]
    rcases entriesOf_broken_line hbreak hgap hrefusal entry with hline | ⟨hroom, refusal, hline⟩
    · have hlost : (Except.ok kept >>= fun kept =>
          (entriesOf host.rooms.log (unfinished text ++ entry.line)).map (kept ++ ·)) =
          .ok kept := by
        rw [hline]
        exact congrArg Except.ok (List.append_nil kept)
      rw [hlost]
      refine ⟨.inl rfl, iff_of_false (fun hsame => ?_) hgap⟩
      -- what is kept is shorter than what was read
      have hlength := congrArg List.length (Except.ok.inj hsame)
      rw [List.length_append, List.length_append, List.length_singleton] at hlength
      omega
    · rw [hline]
      exact ⟨.inr ⟨hroom, refusal, rfl⟩, iff_of_false (fun h => by cases h) hgap⟩

/-- A command that passed through. -/
def passEntry : Entry :=
  .ofCommand "2024-01-01T00:00:00+00:00" .pass "true".toList none none

/-- A log of one object without a line break behind it. -/
def brokenLog : List Char :=
  write (.obj saying)

theorem plain_storedHost (text : List Char) :
    ∀ name ∈ (storedHost text).home, IsPlainName name := by
  intro name hname
  cases hname

theorem isPlainAscii_of_mem_brokenLog : ∀ c ∈ brokenLog, IsPlainAscii c := fun c hc =>
  isPlainAscii_of_isVisible (isExact_saying.isProper.isVisible c hc)

theorem entriesOf_brokenLog (hroom : room.Holds 1) : entriesOf room brokenLog = .ok [saying] := by
  rw [brokenLog, entriesOf_line (isLineBreak_of_mem_write isExact_saying),
    refusal?_write isExact_saying hroom, object?_write isExact_saying]
  rfl

/-- Behind the line break that the log should have, an entry is read. -/
theorem entries_behind_unfinished_complete :
    entriesAt (append (storedHost (brokenLog ++ ['\n'])) "s.jsonl".toList passEntry)
        (path (storedHost (brokenLog ++ ['\n'])) "s.jsonl".toList) =
      .ok [saying, passEntry.members] := by
  have hfile : fileName? "s".toList = some "s.jsonl".toList := by decide
  have hthere := find?_storedHost (brokenLog ++ ['\n'])
  have htext : textOf (Utf8.encode (brokenLog ++ ['\n'])) = .ok (brokenLog ++ ['\n']) := by
    refine textOf_encode fun c hc => ?_
    rcases List.mem_append.1 hc with hc | hc
    · exact isPlainAscii_of_mem_brokenLog c hc
    · rw [List.mem_singleton.1 hc]
      exact ⟨by decide, by decide⟩
  have hold : entriesAt (storedHost (brokenLog ++ ['\n']))
      (path (storedHost (brokenLog ++ ['\n'])) "s.jsonl".toList) = .ok [saying] := by
    have hbreak : ∀ c ∈ brokenLog, isLineBreak c = false := isLineBreak_of_mem_write isExact_saying
    rw [entriesAt_file hthere htext, entriesOf_line_newline hbreak]
    exact entriesOf_brokenLog (Room.holds_none 1)
  have hnothing : unfinished (brokenLog ++ ['\n']) = [] :=
    List.rtakeWhile_concat_neg _ _ _ (by decide)
  obtain ⟨_, -, -, -, hiff⟩ :=
    entries_behind_unfinished (plain_storedHost _) hfile hthere htext hold passEntry
  exact hiff.2 (by rw [hnothing]; rfl)

/-- Behind the broken log an entry is lost, and the entry of the log with it. -/
theorem entry_lost_behind_unfinished :
    entriesAt (storedHost brokenLog) (path (storedHost brokenLog) "s.jsonl".toList) =
        .ok [saying] ∧
      entriesAt (append (storedHost brokenLog) "s.jsonl".toList passEntry)
        (path (storedHost brokenLog) "s.jsonl".toList) = .ok [] := by
  have hthere := find?_storedHost brokenLog
  have htext := textOf_encode isPlainAscii_of_mem_brokenLog
  have hfile : fileName? "s".toList = some "s.jsonl".toList := by decide
  have hplain := plain_path (plain_storedHost brokenLog) (isPlainName_of_fileName? hfile)
  have hbreak : ∀ c ∈ brokenLog, isLineBreak c = false := isLineBreak_of_mem_write isExact_saying
  have hrefusal : refusal? none brokenLog = none :=
    refusal?_write isExact_saying (Room.holds_none _)
  constructor
  · rw [entriesAt_file hthere htext]
    exact entriesOf_brokenLog (Room.holds_none 1)
  · rw [entriesAt_append_file hplain hthere htext]
    rcases entriesOf_broken_line hbreak (by decide) hrefusal passEntry with hline | ⟨hroom, -⟩
    · exact hline
    · exact absurd (Room.holds_none _) hroom

end Log

end CompactShell
