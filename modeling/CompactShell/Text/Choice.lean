/-!
# Fixed texts

Flags, subcommands and program names are written as strings in tables, while commands are lists of
characters. The functions here compare the two.
-/

namespace CompactShell.Text

/-- The text is one of a few fixed ones. -/
def isOneOf (choices : List String) (text : List Char) : Bool :=
  choices.any fun choice => choice.toList == text

/-- The text starts with a fixed one. -/
def startsWith (lead : String) (text : List Char) : Bool :=
  lead.toList.isPrefixOf text

/-- A fixed text stands somewhere in the text. -/
def holds (part : String) : List Char → Bool
  | [] => part.isEmpty
  | c :: text => startsWith part (c :: text) || holds part text

theorem isOneOf_iff {choices : List String} {text : List Char} :
    isOneOf choices text = true ↔ ∃ choice ∈ choices, choice.toList = text := by
  simp [isOneOf]

theorem startsWith_iff {lead : String} {text : List Char} :
    startsWith lead text = true ↔ ∃ rest, text = lead.toList ++ rest := by
  simp only [startsWith, List.isPrefixOf_iff_prefix]
  exact ⟨fun ⟨rest, h⟩ => ⟨rest, h.symm⟩, fun ⟨rest, h⟩ => ⟨rest, h.symm⟩⟩

theorem holds_iff {part : String} {text : List Char} :
    holds part text = true ↔ part.toList <:+: text := by
  induction text with
  | nil => simp [holds]
  | cons c text ih =>
    rw [holds, Bool.or_eq_true, ih, startsWith, List.isPrefixOf_iff_prefix, List.infix_cons_iff]

end CompactShell.Text
