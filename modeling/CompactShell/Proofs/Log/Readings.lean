import CompactShell.Log.Store
import CompactShell.Proofs.Json.Nesting
import CompactShell.Proofs.Log.Lines

/-!
# What is read of a log

A log is read line by line. The lines that are JSON objects are its entries, in their order, and
other lines are passed over. Some bad lines are not: a line that is refused ends the reading, and
nothing is read of the whole log (`entriesOf_eq`). Such a line has a run of more digits than a whole
number may have, or it opens so many arrays and objects that there is no room for them, or none for
reporting what is wrong inside them. Only a log without such a line is read as the objects that it
has (`objects_are_read`).
-/

namespace CompactShell

open Host Json Text

/-! ## Long numbers -/

/-- **A whole number of too many digits is refused.** -/
theorem Json.readWithin_long (room : Room) {digits : List Char} (h : IsWholePart digits)
    (hlong : maxDigits < digits.length) :
    readWithin room digits = .error (.refused (.hugeInteger digits.length)) := by
  have hend : IsNumberEnd [] := isNumberEnd_nil
  have hnumber : unsignedNumber? false digits =
      some (.error (.refused (.hugeInteger digits.length))) := by
    have hwhole := wholeDigits?_append h hend.endsDigits
    rw [List.append_nil] at hwhole
    rw [unsignedNumber?, hwhole, Option.map_some]
    simp only [hend.fractionDigits, hend.powerOfTen?, List.isEmpty_nil, Bool.not_true]
    rw [if_neg Bool.false_ne_true, if_pos hlong]
  have hne : digits ≠ [] := List.ne_nil_of_length_pos (Nat.lt_of_le_of_lt (Nat.zero_le _) hlong)
  obtain ⟨c, rest, rfl⟩ := List.exists_cons_of_ne_nil hne
  have hc : c.isDigit = true := h.isDigit c (List.mem_cons_self ..)
  have hother : ∀ d, d.isDigit = false → c ≠ d := fun d => ne_of_isDigit hc
  have hsign : ((c :: rest).head? == some '-') = false :=
    beq_eq_false_iff_ne.2 fun heq => hother '-' rfl (Option.some.inj heq)
  have hscalar : ∀ room, scalar room (c :: rest) =
      .error (.refused (.hugeInteger (c :: rest).length)) := by
    intro room
    rw [scalar, (find?_namedValues hc rest).1]
    dsimp only
    rw [hsign, if_neg Bool.false_ne_true, hnumber]
    rfl
  have hskip : skipGap (c :: rest) = c :: rest := (startsValue_digits hc rest).skipGap
  have hmark : ∀ more, c :: rest ≠ '\uFEFF' :: more := fun more heq =>
    hother _ rfl (List.cons.inj heq).1
  rw [readWithin_of_ne_mark room hmark, hskip, enoughFuel,
    value_scalar _ _ (hother _ rfl) (hother _ rfl) (hother _ rfl), hscalar]
  rfl

namespace Log

/-! ## Lines -/

/-- The entry that a line is, if it is a JSON object. -/
def object? (line : List Char) : Option Members :=
  match Json.read line with
  | .ok (.obj members) => some members
  | _ => none

/-- Why a line is refused, if it is. -/
def refusal? (room : Room) (line : List Char) : Option Refusal :=
  match Json.readWithin room line with
  | .error (.refused refusal) => some refusal
  | _ => none

variable {room : Room} {line : List Char}

theorem object?_eq_none (h : IsMalformed (Json.read line)) : object? line = none := by
  obtain ⟨cause, left, hread⟩ := h
  rw [object?, hread]

theorem refusal?_eq_none (h : IsMalformed (Json.readWithin room line)) :
    refusal? room line = none := by
  obtain ⟨cause, left, hread⟩ := h
  rw [refusal?, hread]

theorem refusal?_eq_some_iff {refusal : Refusal} :
    refusal? room line = some refusal ↔ Json.readWithin room line = .error (.refused refusal) := by
  unfold refusal?
  split
  · rename_i other hread
    rw [hread, Option.some_inj, Except.error.injEq, Fault.refused.injEq]
  · rename_i hother
    exact iff_of_false (fun h => by cases h) (hother refusal)

/-- A line that is not refused is read as it would be without a limit. -/
theorem readWithin_of_refusal? (h : refusal? room line = none) :
    Json.readWithin room line = Json.read line := by
  rcases readWithin_cases room line with hsame | ⟨refusal, -, hfull⟩
  · exact hsame
  · rw [refusal?_eq_some_iff.2 hfull] at h
    cases h

/-- **What is read of lines**: the objects among them, if none of them is refused. -/
theorem entriesOn_eq (room : Room) (lines : List (List Char)) :
    entriesOn room lines =
      match lines.findSome? (refusal? room) with
      | some refusal => .error (.refused refusal)
      | none => .ok (lines.filterMap object?) := by
  induction lines with
  | nil => rfl
  | cons line lines ih =>
    rw [List.findSome?_cons, List.filterMap_cons, entriesOn]
    split
    · rename_i hwhite
      rw [refusal?_eq_none (isMalformed_readWithin_of_isWhite hwhite room),
        object?_eq_none (isMalformed_readWithin_of_isWhite hwhite none)]
      exact ih
    · split
      · rename_i refusal hread
        rw [refusal?_eq_some_iff.2 hread]
      · rename_i members hread
        rw [refusal?, hread, object?, read_of_readWithin hread, ih]
        cases lines.findSome? (refusal? room) with
        | none => rfl
        | some refusal => rfl
      · rename_i hrefused hobject
        have hnone : refusal? room line = none :=
          Option.eq_none_iff_forall_ne_some.2 fun refusal h =>
            hrefused refusal (refusal?_eq_some_iff.1 h)
        have hother : object? line = none := by
          rw [readWithin_of_refusal? hnone] at hobject
          unfold object?
          split
          · rename_i members hread
            exact absurd hread (hobject members)
          · rfl
        rw [hnone, hother]
        exact ih

theorem entriesOf_eq (room : Room) (text : List Char) :
    entriesOf room text =
      match (splitAtBreaks text).findSome? (refusal? room) with
      | some refusal => .error (.refused refusal)
      | none => .ok ((splitAtBreaks text).filterMap object?) :=
  entriesOn_eq room (splitAtBreaks text)

/-! ## Logs -/

variable {host : Host} {place : Path} {bytes : List UInt8} {changed : Nat} {text : List Char}

theorem entriesAt_file (hfile : host.find? place = some (.file bytes changed))
    (htext : textOf bytes = .ok text) :
    entriesAt host place = entriesOf host.rooms.log text := by
  rw [entriesAt, contents, hfile]
  dsimp only
  rw [htext]
  rfl

/-- **A bad line is passed over, unless a number in it is too long or it is nested too deep.** All
lines that are objects are read, in their order, whatever else stands in the log, exactly if no line
of it is refused. Otherwise the first line that is refused ends the reading. A line is refused only
for a run of too many digits or for so many brackets that there is no room behind them. A line that
is JSON but deeper than there is room for is refused for that. -/
theorem objects_are_read (hfile : host.find? place = some (.file bytes changed))
    (htext : textOf bytes = .ok text) :
    (entriesAt host place = .ok ((splitAtBreaks text).filterMap object?) ↔
      ∀ line ∈ splitAtBreaks text, refusal? host.rooms.log line = none) ∧
    (∀ refusal, entriesAt host place = .error (.refused refusal) ↔
      (splitAtBreaks text).findSome? (refusal? host.rooms.log) = some refusal) ∧
    (∀ line ∈ splitAtBreaks text, ∀ refusal, refusal? host.rooms.log line = some refusal →
      HasCause host.rooms.log line refusal) ∧
    ∀ line ∈ splitAtBreaks text, ∀ v, Json.read line = .ok v → ¬ host.rooms.log.Holds v.depth →
      ∃ refusal : Refusal, refusal.WantsRoom ∧
        refusal? host.rooms.log line = some refusal := by
  rw [entriesAt_file hfile htext, entriesOf_eq, ← List.findSome?_eq_none_iff]
  have hcause : ∀ line ∈ splitAtBreaks text, ∀ refusal,
      refusal? host.rooms.log line = some refusal → HasCause host.rooms.log line refusal :=
    fun line _ refusal hrefusal => hasCause_of_readWithin (refusal?_eq_some_iff.1 hrefusal)
  have hdeep : ∀ line ∈ splitAtBreaks text, ∀ v, Json.read line = .ok v →
      ¬ host.rooms.log.Holds v.depth →
      ∃ refusal : Refusal, refusal.WantsRoom ∧
        refusal? host.rooms.log line = some refusal := by
    intro line _ v hread hroom
    obtain ⟨refusal, hwants, hfull⟩ := readWithin_of_not_holds hread hroom
    exact ⟨refusal, hwants, refusal?_eq_some_iff.2 hfull⟩
  cases (splitAtBreaks text).findSome? (refusal? host.rooms.log) with
  | none =>
    refine ⟨iff_of_true rfl rfl, fun refusal => ?_, hcause, hdeep⟩
    exact iff_of_false (fun h => by cases h) fun h => by cases h
  | some refusal =>
    refine ⟨iff_of_false (fun h => by cases h) (fun h => by cases h), fun other => ?_, hcause,
      hdeep⟩
    rw [Except.error.injEq, Failure.refused.injEq, Option.some_inj]

/-- A host with one log. -/
def storedHost (text : List Char) : Host :=
  { files := ⟨[([Config.storeName], .directory 0),
      ([Config.storeName, "logs".toList], .directory 0),
      ([Config.storeName, "logs".toList, "s.jsonl".toList], .file (Utf8.encode text) 0)]⟩
    home := [], current := [], environment := [], hasTool := false, accounts := [], now := 0
    rooms := .unlimited }

theorem find?_storedHost (text : List Char) :
    (storedHost text).find? (path (storedHost text) "s.jsonl".toList) =
      some (.file (Utf8.encode text) 0) := by
  rfl

theorem object?_write {members : Members} (h : (Value.obj members).IsExact) :
    object? (write (.obj members)) = some members := by
  rw [object?, read_write h]

theorem refusal?_write {v : Value} (h : v.IsExact) (hroom : room.Holds v.depth) :
    refusal? room (write v) = none := by
  rw [refusal?, readWithin_write h hroom]

/-- An object that says something. -/
def saying : Members :=
  [("a", .bool true)]

theorem isExact_saying : (Value.obj saying).IsExact := by
  refine .obj saying (by decide) fun member hmember => ?_
  rw [List.mem_singleton.1 hmember]
  exact .bool true

/-- A log with bad lines in front of an object and behind it. -/
def mixedLog : List Char :=
  "\x7b\n".toList ++ write (.obj saying) ++ "\n[]\n".toList

/-- The object of a log with bad lines is read. -/
theorem objects_are_read_mixed :
    entriesAt (storedHost mixedLog) (path (storedHost mixedLog) "s.jsonl".toList) =
      .ok [saying] := by
  have hplain : ∀ c ∈ mixedLog, c.toNat < 0x80 ∧ c ≠ '\r' := by decide +kernel
  have htext : textOf (Utf8.encode mixedLog) = .ok mixedLog := textOf_encode hplain
  have hlines : splitAtBreaks mixedLog = [['\x7b'], write (.obj saying), ['[', ']'], []] := by
    decide +kernel
  have hbrace : object? ['\x7b'] = none := Option.isNone_iff_eq_none.1 (by decide +kernel)
  have hlist : object? ['[', ']'] = none := Option.isNone_iff_eq_none.1 (by decide +kernel)
  have hempty : object? [] = none := Option.isNone_iff_eq_none.1 (by decide +kernel)
  have hread := (objects_are_read (find?_storedHost mixedLog) htext).1
  rw [hlines] at hread
  simp only [List.filterMap_cons, List.filterMap_nil, hbrace, hlist, hempty,
    object?_write isExact_saying] at hread
  refine hread.2 fun line hline => ?_
  simp only [List.mem_cons, List.not_mem_nil, or_false] at hline
  rcases hline with rfl | rfl | rfl | rfl
  · decide +kernel
  · exact refusal?_write isExact_saying (Room.holds_none _)
  · decide +kernel
  · decide +kernel

/-- A log with an object behind a line that is one long number. -/
def spoiledLog : List Char :=
  List.replicate 4301 '1' ++ '\n' :: write (.obj saying)

/-- A line of 4301 digits keeps the object behind it from being read. -/
theorem long_number_spoils_log :
    textOf (Utf8.encode spoiledLog) = .ok spoiledLog ∧
      (splitAtBreaks spoiledLog).filterMap object? = [saying] ∧
      entriesAt (storedHost spoiledLog) (path (storedHost spoiledLog) "s.jsonl".toList) =
        .error (.refused (.hugeInteger 4301)) := by
  have hdigit : ∀ c ∈ List.replicate 4301 '1', c = '1' := fun c => List.eq_of_mem_replicate
  have htext : textOf (Utf8.encode spoiledLog) = .ok spoiledLog := by
    refine textOf_encode fun c hc => ?_
    rcases List.mem_append.1 hc with hc | hc
    · rw [hdigit c hc]
      exact ⟨by decide, by decide⟩
    · rcases List.mem_cons.1 hc with rfl | hc
      · exact ⟨by decide, by decide⟩
      · exact isPlainAscii_of_isVisible (isExact_saying.isProper.isVisible c hc)
  have hbehind : splitAtBreaks (write (.obj saying)) = [write (.obj saying)] := by decide +kernel
  have hlines : splitAtBreaks spoiledLog = [List.replicate 4301 '1', write (.obj saying)] := by
    have hplain : ∀ c ∈ List.replicate 4301 '1', isLineBreak c = false := by
      intro c hc
      rw [hdigit c hc]
      rfl
    rw [spoiledLog, splitAtBreaks, List.splitOnP_append_cons_of_forall_mem hplain '\n' rfl]
    exact congrArg (_ :: ·) hbehind
  have hwhole : IsWholePart (List.replicate 4301 '1') := by
    refine ⟨fun c hc => ?_, .inr ⟨'1', List.replicate 4300 '1', List.replicate_succ, by decide⟩⟩
    rw [hdigit c hc]
    rfl
  have hlong := readWithin_long none hwhole (by rw [List.length_replicate]; decide)
  rw [List.length_replicate] at hlong
  refine ⟨htext, ?_, ?_⟩
  · rw [hlines, List.filterMap_cons, object?, Json.read, hlong, List.filterMap_cons,
      object?_write isExact_saying]
    rfl
  · have hrefusal : refusal? (storedHost spoiledLog).rooms.log (List.replicate 4301 '1') =
        some (.hugeInteger 4301) := refusal?_eq_some_iff.2 hlong
    rw [entriesAt_file (find?_storedHost spoiledLog) htext, entriesOf_eq, hlines,
      List.findSome?_cons, hrefusal]

end Log

end CompactShell
