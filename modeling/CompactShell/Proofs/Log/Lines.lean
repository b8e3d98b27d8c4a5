import CompactShell.Host.Basic
import CompactShell.Log.Entry
import CompactShell.Proofs.Json.RoundTrip

/-!
# The lines of a log are its entries

An entry is written as one line of ASCII, whatever stands in its command: the escapes of JSON leave
no character in it that ends a line or that takes more than one byte. So a file that was written
entry by entry is read entry by entry (`entriesOf_lines`, `textOf_lines`).
-/

namespace CompactShell

open Json Text

/-! ## Text of ASCII in files -/

/-- The character is ASCII, and no carriage return. -/
def IsPlainAscii (c : Char) : Prop :=
  c.toNat < 0x80 ∧ c ≠ '\r'

theorem isPlainAscii_of_isVisible {c : Char} (h : IsVisible c) : IsPlainAscii c := by
  refine ⟨Nat.lt_trans h.2 (by decide), ?_⟩
  rintro rfl
  exact absurd h (by decide)

theorem Text.Utf8.encode_append (a b : List Char) : encode (a ++ b) = encode a ++ encode b :=
  List.flatMap_append

theorem Text.Utf8.encode_cons_ascii {c : Char} (h : c.toNat < 0x80) (text : List Char) :
    encode (c :: text) = c.toNat.toUInt8 :: encode text := by
  have hle : c.val.toNat ≤ 0x7F := Nat.lt_succ_iff.1 h
  have hchar : String.utf8EncodeChar c = [c.toNat.toUInt8] := by
    rw [String.utf8EncodeChar, if_pos hle]
    rfl
  rw [encode, List.flatMap_cons, hchar]
  rfl

theorem Text.Utf8.decodeFrom_encode_ascii {text : List Char} (h : ∀ c ∈ text, c.toNat < 0x80)
    (position : Nat) : decodeFrom position none (encode text) = .ok text := by
  induction text generalizing position with
  | nil => rfl
  | cons c text ih =>
    have hc : c.toNat < 0x80 := h c (List.mem_cons_self ..)
    have hnat : c.toNat.toUInt8.toNat = c.toNat :=
      Nat.mod_eq_of_lt (Nat.lt_trans hc (by decide))
    have hbyte : c.toNat.toUInt8 < 0x80 := by
      rw [UInt8.lt_iff_toNat_lt, hnat]
      exact hc
    rw [encode_cons_ascii hc, decodeFrom, if_pos hbyte,
      ih (fun d hd => h d (List.mem_cons_of_mem c hd)), hnat, Char.ofNat_toNat]
    rfl

theorem Text.unifyNewlines_of_not_mem {text : List Char} (h : '\r' ∉ text) :
    unifyNewlines text = text := by
  induction text with
  | nil => rfl
  | cons c text ih =>
    rw [List.mem_cons, not_or] at h
    unfold unifyNewlines
    split
    · rename_i heq
      cases heq
    · rename_i heq
      exact absurd (List.cons.inj heq).1.symm h.1
    · rename_i heq
      cases heq
      rw [if_neg (Ne.symm h.1), ih h.2]

/-- A text of ASCII without carriage returns is read as it was written. -/
theorem Host.textOf_encode {text : List Char} (h : ∀ c ∈ text, IsPlainAscii c) :
    textOf (Utf8.encode text) = .ok text := by
  have hreturn : '\r' ∉ text := fun hmem => (h '\r' hmem).2 rfl
  rw [textOf, Utf8.decode, Utf8.decodeFrom_encode_ascii fun c hc => (h c hc).1]
  show Except.ok (unifyNewlines text) = _
  rw [unifyNewlines_of_not_mem hreturn]

/-! ## Entries -/

namespace Log

theorem isExact_orNull {α : Type} {value : α → Value} (h : ∀ a, (value a).IsExact) (a : Option α) :
    (orNull value a).IsExact := by
  cases a with
  | none => exact .null
  | some a => exact h a

theorem Entry.isExact (entry : Entry) : (Value.obj entry.members).IsExact := by
  have hnames : (entry.members.map Prod.fst).Nodup := by
    show ["ts", "event", "rule", "command", "rewritten", "cwd"].Nodup
    decide
  refine .obj entry.members hnames ?_
  intro member hmember
  simp only [Entry.members, List.mem_cons, List.not_mem_nil, or_false] at hmember
  rcases hmember with rfl | rfl | rfl | rfl | rfl | rfl
  · exact .str _
  · exact .str _
  · exact isExact_orNull (fun text => .str text) _
  · exact .str _
  · exact isExact_orNull (fun text => .str _) _
  · exact isExact_orNull (fun text => .str _) _

theorem depth_orNull {α : Type} {value : α → Value} (h : ∀ a, (value a).depth = 0)
    (a : Option α) : (orNull value a).depth = 0 := by
  cases a with
  | none => rfl
  | some a => exact h a

/-- There are no arrays and objects in an entry. -/
theorem Entry.depth_eq (entry : Entry) : (Value.obj entry.members).depth = 1 := by
  have hmembers : depthMembers entry.members ≤ 0 := by
    refine depthMembers_le fun member hmember => Nat.le_of_eq ?_
    simp only [Entry.members, List.mem_cons, List.not_mem_nil, or_false] at hmember
    rcases hmember with rfl | rfl | rfl | rfl | rfl | rfl
    · rfl
    · rfl
    · exact depth_orNull (fun text => rfl) _
    · rfl
    · exact depth_orNull (fun text => rfl) _
    · exact depth_orNull (fun text => rfl) _
  rw [Value.depth, Nat.le_zero.1 hmembers]

/-- An entry is read as it was written. -/
theorem Entry.readWithin_write {room : Room} (hroom : room.Holds 1) (entry : Entry) :
    readWithin room (write (.obj entry.members)) = .ok (.obj entry.members) :=
  Json.readWithin_write entry.isExact (entry.depth_eq ▸ hroom)

/-- No character of an entry ends its line. -/
theorem isLineBreak_of_isVisible {c : Char} (h : IsVisible c) : isLineBreak c = false := by
  obtain ⟨hlow, hhigh⟩ := h
  simp only [isLineBreak, Bool.or_eq_false_iff, Bool.and_eq_false_iff, decide_eq_false_iff_not,
    beq_eq_false_iff_ne]
  omega

theorem isPlainAscii_of_mem_line {entry : Entry} {c : Char} (h : c ∈ entry.line) :
    IsPlainAscii c := by
  rcases List.mem_append.1 h with h | h
  · exact isPlainAscii_of_isVisible (entry.isExact.isProper.isVisible c h)
  · rw [List.mem_singleton.1 h]
    exact ⟨by decide, by decide⟩

variable {room : Room}

/-- The first line of a log that starts with an entry is the entry. -/
theorem entriesOf_line_append (hroom : room.Holds 1) (entry : Entry) (rest : List Char) :
    entriesOf room (entry.line ++ rest) = (entriesOf room rest).map (entry.members :: ·) := by
  have hbreak : ∀ c ∈ write (.obj entry.members), isLineBreak c = false := fun c hc =>
    isLineBreak_of_isVisible (entry.isExact.isProper.isVisible c hc)
  have hsplit : splitAtBreaks (entry.line ++ rest) =
      write (.obj entry.members) :: splitAtBreaks rest := by
    rw [Entry.line, List.append_assoc, List.singleton_append, splitAtBreaks,
      List.splitOnP_append_cons_of_forall_mem hbreak '\n' rfl]
    rfl
  have hwhite : isWhite (write (.obj entry.members)) = false := rfl
  rw [entriesOf, hsplit, entriesOn, hwhite, if_neg Bool.false_ne_true,
    entry.readWithin_write hroom]
  rfl

/-- **What was written entry by entry is read entry by entry.** -/
theorem entriesOf_lines (hroom : room.Holds 1) (entries : List Entry) :
    entriesOf room (entries.flatMap Entry.line) = .ok (entries.map Entry.members) := by
  induction entries with
  | nil => rfl
  | cons entry entries ih =>
    rw [List.flatMap_cons, entriesOf_line_append hroom, ih]
    rfl

/-- The bytes of a log that was written entry by entry are its text. -/
theorem textOf_lines (entries : List Entry) :
    Host.textOf (Utf8.encode (entries.flatMap Entry.line)) = .ok (entries.flatMap Entry.line) := by
  refine Host.textOf_encode fun c hc => ?_
  obtain ⟨entry, -, hentry⟩ := List.mem_flatMap.1 hc
  exact isPlainAscii_of_mem_line hentry

end Log

end CompactShell
