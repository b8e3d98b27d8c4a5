import CompactShell.Proofs.Shell.Cut
import CompactShell.Proofs.Shell.Words

/-!
# The places of words, and where a simple command ends

The words of a command come in the order in which they stand in it. `wordsAt` gives them with the
places where they start (`map_word_wordsAt`), one behind the other (`pairwise_wordsAt`), each with
what was typed there (`append_of_mem_wordsAt`). The first operator of a command is found word by
word (`findOperator_eq_findSome?`).

An operator is not all that ends a simple command. So do an ampersand that sends it to the
background and the number sign of a comment, which `commandEnd?` looks for. Both are characters of
words (`exists_word_of_commandEnd?`).
-/

namespace CompactShell.Shell

open Text

/-! ## Spans -/

/-- The characters of a text from `start` up to, and not including, `stop`. -/
structure Span where
  start : Nat
  stop : Nat
  deriving DecidableEq, Repr

/-- The character at the position is one of the span's. -/
def Span.Holds (span : Span) (position : Nat) : Prop :=
  span.start ≤ position ∧ position < span.stop

instance (span : Span) (position : Nat) : Decidable (span.Holds position) :=
  inferInstanceAs (Decidable (_ ∧ _))

/-! ## Words with their places -/

/-- A word and the position of its first character. -/
structure PlacedWord where
  start : Nat
  word : Word
  deriving DecidableEq, Repr

def PlacedWord.span (placed : PlacedWord) : Span :=
  ⟨placed.start, placed.start + placed.word.raw.length⟩

/-- A possible word that starts at the position, in front of others. -/
def flushAt (start : Nat) (piece : Word) (placed : List PlacedWord) : List PlacedWord :=
  if piece.raw.isEmpty then placed else ⟨start, piece⟩ :: placed

/-- The words behind the one that the scan is in, where the text starts at the position `start`. -/
def laterWords (s : Scan) (start : Nat) : List Char → List PlacedWord
  | [] => []
  | c :: rest =>
    let placed := laterWords (s.next c) (start + 1) rest
    if s.separates c rest then flushAt (start + 1) (pieces (s.next c) rest).1 placed else placed

/-- The words of a command with their places. -/
def wordsAt (command : List Char) : List PlacedWord :=
  flushAt 0 (pieces .start command).1 (laterWords .start 0 command)

theorem map_word_flushAt (start : Nat) (piece : Word) (placed : List PlacedWord) :
    (flushAt start piece placed).map PlacedWord.word =
      flush piece (placed.map PlacedWord.word) := by
  rw [flushAt, flush]
  split
  · rfl
  · rfl

theorem map_word_laterWords (s : Scan) (start : Nat) (text : List Char) :
    (laterWords s start text).map PlacedWord.word = (pieces s text).2 := by
  induction text generalizing s start with
  | nil => rfl
  | cons c rest ih =>
    rw [laterWords]
    by_cases hsep : s.separates c rest = true
    · rw [if_pos hsep, map_word_flushAt, ih, pieces_of_separates hsep]
    · rw [if_neg hsep, ih, (raw_pieces_of_not_separates hsep).2]

/-- **Placed words are the words of the command.** -/
theorem map_word_wordsAt (command : List Char) :
    (wordsAt command).map PlacedWord.word = words command := by
  rw [wordsAt, map_word_flushAt, map_word_laterWords, words_eq_flush]

theorem mem_flushAt {start : Nat} {piece : Word} {placed : List PlacedWord} {w : PlacedWord}
    (h : w ∈ flushAt start piece placed) : w = ⟨start, piece⟩ ∨ w ∈ placed := by
  rw [flushAt] at h
  split at h
  · exact .inr h
  · exact List.mem_cons.1 h

theorem mem_flushAt_of_mem {start : Nat} {piece : Word} {placed : List PlacedWord} {w : PlacedWord}
    (h : w ∈ placed) : w ∈ flushAt start piece placed := by
  rw [flushAt]
  split
  · exact h
  · exact List.mem_cons_of_mem _ h

/-- Later words start behind the piece that the text starts with. -/
theorem lt_of_mem_laterWords {s : Scan} {start : Nat} {text : List Char} {w : PlacedWord}
    (h : w ∈ laterWords s start text) : start + (pieces s text).1.raw.length < w.start := by
  induction text generalizing s start with
  | nil => cases h
  | cons c rest ih =>
    rw [laterWords] at h
    by_cases hsep : s.separates c rest = true
    · rw [if_pos hsep] at h
      rw [pieces_of_separates hsep]
      rcases mem_flushAt h with rfl | h
      · exact Nat.lt_succ_self start
      · have hlater := ih h
        simp only [List.length_nil]
        omega
    · rw [if_neg hsep] at h
      have hlater := ih h
      rw [(raw_pieces_of_not_separates hsep).1, List.length_cons]
      omega

/-- Words come one behind the other. -/
def Ordered (placed : List PlacedWord) : Prop :=
  placed.Pairwise fun a b => a.span.stop ≤ b.span.start

theorem ordered_flushAt {start : Nat} {piece : Word} {placed : List PlacedWord}
    (hplaced : Ordered placed) (hlater : ∀ w ∈ placed, start + piece.raw.length ≤ w.start) :
    Ordered (flushAt start piece placed) := by
  rw [flushAt]
  split
  · exact hplaced
  · exact List.pairwise_cons.2 ⟨hlater, hplaced⟩

theorem ordered_laterWords (s : Scan) (start : Nat) (text : List Char) :
    Ordered (laterWords s start text) := by
  induction text generalizing s start with
  | nil => exact List.Pairwise.nil
  | cons c rest ih =>
    rw [laterWords]
    split
    · exact ordered_flushAt (ih _ _) fun w hw => Nat.le_of_lt (lt_of_mem_laterWords hw)
    · exact ih _ _

/-- **Words stand one behind the other.** -/
theorem pairwise_wordsAt (command : List Char) : Ordered (wordsAt command) :=
  ordered_flushAt (ordered_laterWords _ _ _) fun _ hw => Nat.le_of_lt (lt_of_mem_laterWords hw)

theorem append_of_mem_laterWords {s : Scan} {start : Nat} {text : List Char} {w : PlacedWord}
    (h : w ∈ laterWords s start text) :
    ∃ before after, text = before ++ (w.word.raw ++ after) ∧ w.start = start + before.length := by
  induction text generalizing s start with
  | nil => cases h
  | cons c rest ih =>
    have hrest : w ∈ laterWords (s.next c) (start + 1) rest →
        ∃ before after, c :: rest = before ++ (w.word.raw ++ after) ∧
          w.start = start + before.length := by
      intro hw
      obtain ⟨before, after, hsplit, hstart⟩ := ih hw
      refine ⟨c :: before, after, ?_, ?_⟩
      · rw [List.cons_append, ← hsplit]
      · rw [List.length_cons]
        omega
    rw [laterWords] at h
    split at h
    · rcases mem_flushAt h with rfl | h
      · obtain ⟨after, hsplit, -⟩ := exists_after_piece (s.next c) rest
        exact ⟨[c], after, congrArg (c :: ·) hsplit, rfl⟩
      · exact hrest h
    · exact hrest h

/-- **Each word is what was typed at its place.** -/
theorem append_of_mem_wordsAt {command : List Char} {w : PlacedWord} (h : w ∈ wordsAt command) :
    ∃ before after, command = before ++ (w.word.raw ++ after) ∧ before.length = w.start := by
  rcases mem_flushAt h with rfl | h
  · obtain ⟨after, hsplit, -⟩ := exists_after_piece .start command
    exact ⟨[], after, hsplit, rfl⟩
  · obtain ⟨before, after, hsplit, hstart⟩ := append_of_mem_laterWords h
    exact ⟨before, after, hsplit, by omega⟩

/-- A character that does not separate belongs to the piece that the text starts with, or to a later
word. -/
theorem exists_holds_of_not_separates {s : Scan} (start : Nat) {before after : List Char} {c : Char}
    (h : ¬ (s.after before).separates c after = true) :
    before.length < (pieces s (before ++ c :: after)).1.raw.length ∨
      ∃ w ∈ laterWords s start (before ++ c :: after), w.span.Holds (start + before.length) := by
  induction before generalizing s start with
  | nil =>
    rw [Scan.after_nil] at h
    refine .inl ?_
    rw [List.nil_append, (raw_pieces_of_not_separates h).1]
    exact Nat.succ_pos _
  | cons d before ih =>
    have hplace : start + 1 + before.length = start + (d :: before).length := by
      rw [List.length_cons]
      omega
    have hrest := ih (start + 1) h
    rw [hplace] at hrest
    rw [List.cons_append, laterWords]
    by_cases hsep : s.separates d (before ++ c :: after) = true
    · rw [if_pos hsep]
      rcases hrest with hpiece | ⟨w, hw, hholds⟩
      · refine .inr ⟨⟨start + 1, (pieces (s.next d) (before ++ c :: after)).1⟩, ?_, ?_⟩
        · have hne : ((pieces (s.next d) (before ++ c :: after)).1.raw).isEmpty = false := by
            rw [List.isEmpty_eq_false_iff, ← List.length_pos_iff]
            omega
          rw [flushAt, hne, if_neg Bool.false_ne_true]
          exact List.mem_cons_self ..
        · rw [Span.Holds, PlacedWord.span, ← hplace]
          dsimp only
          omega
      · exact .inr ⟨w, mem_flushAt_of_mem hw, hholds⟩
    · rw [if_neg hsep, (raw_pieces_of_not_separates hsep).1]
      exact hrest.imp (fun hpiece => Nat.succ_lt_succ hpiece) id

theorem exists_word_of_not_separates {before after : List Char} {c : Char}
    (h : ¬ (Scan.start.after before).separates c after = true) :
    ∃ w ∈ wordsAt (before ++ c :: after), w.span.Holds before.length := by
  rcases exists_holds_of_not_separates 0 h with hpiece | ⟨w, hw, hholds⟩
  · refine ⟨⟨0, (pieces .start (before ++ c :: after)).1⟩, ?_, ?_⟩
    · have hne : ((pieces .start (before ++ c :: after)).1.raw).isEmpty = false := by
        rw [List.isEmpty_eq_false_iff, ← List.length_pos_iff]
        omega
      rw [wordsAt, flushAt, hne, if_neg Bool.false_ne_true]
      exact List.mem_cons_self ..
    · rw [Span.Holds, PlacedWord.span]
      dsimp only
      omega
  · rw [Nat.zero_add] at hholds
    exact ⟨w, mem_flushAt_of_mem hw, hholds⟩

/-! ## Where the first operator stands -/

/-- The place of the word's first operator in the command. -/
def PlacedWord.operator? (placed : PlacedWord) : Option Nat :=
  (findOperator placed.word.raw).map (placed.start + ·)

theorem findSome?_flushAt (start : Nat) (piece : Word) (placed : List PlacedWord) :
    (flushAt start piece placed).findSome? PlacedWord.operator? =
      ((findOperator piece.raw).map (start + ·)).or (placed.findSome? PlacedWord.operator?) := by
  rw [flushAt]
  split
  · rename_i hempty
    rw [List.isEmpty_iff.1 hempty]
    rfl
  · rw [List.findSome?_cons]
    cases hfirst : findOperator piece.raw with
    | none => simp [PlacedWord.operator?, hfirst]
    | some i => simp [PlacedWord.operator?, hfirst]

/-- What separates words begins no operator. -/
theorem isOperator_of_separates {s : Scan} {c : Char} {rest : List Char}
    (h : s.separates c rest = true) (successor : Option Char) : isOperator c successor = false := by
  rcases (separates_cases h).2 with ⟨-, hblank | rfl⟩ | ⟨-, rfl, -⟩
  · exact isOperator_of_isPlain (isPlain_of_isBlank hblank) successor
  · exact isOperator_of_isPlain (by decide) successor
  · simp [isOperator]

/-- A character of a word begins the same operator in the word as in the text. -/
theorem isOperator_head?_piece (s : Scan) (c : Char) (rest : List Char) :
    isOperator c (pieces s rest).1.raw.head? = isOperator c rest.head? := by
  obtain ⟨after, hrest, hends⟩ := exists_after_piece s rest
  cases hraw : (pieces s rest).1.raw with
  | nil =>
    rw [hraw] at hrest hends
    rw [List.nil_append] at hrest
    rw [hrest, isOperator_of_isNeutral hends.isNeutral]
    rfl
  | cons d raw =>
    rw [hraw] at hrest
    rw [hrest]
    rfl

/-- Behind a separator the word is read from the start of the scan. -/
theorem operatorFrom_piece_of_separates {s : Scan} {c : Char} {rest : List Char}
    (h : s.separates c rest = true) :
    operatorFrom (s.next c) (pieces (s.next c) rest).1.raw =
      findOperator (pieces (s.next c) rest).1.raw := by
  rcases (separates_cases h).2 with ⟨hstart, -⟩ | ⟨hescaped, -, hnewline⟩
  · rw [hstart]
    rfl
  · rw [hescaped, raw_pieces_newline hnewline]
    rfl

/-- **The first operator of a text** is that of the piece it starts with, or else that of the first
later word that has one. -/
theorem operatorFrom_eq_or (s : Scan) (start : Nat) (text : List Char) :
    (operatorFrom s text).map (start + ·) =
      ((operatorFrom s (pieces s text).1.raw).map (start + ·)).or
        ((laterWords s start text).findSome? PlacedWord.operator?) := by
  induction text generalizing s start with
  | nil => rfl
  | cons c rest ih =>
    have hplace : ∀ found : Option Nat,
        (found.map (· + 1)).map (start + ·) = found.map (start + 1 + ·) := by
      intro found
      rw [Option.map_map]
      congr 1
      funext i
      simp only [Function.comp_apply]
      omega
    rw [laterWords]
    by_cases hsep : s.separates c rest = true
    · rw [pieces_of_separates hsep, if_pos hsep, findSome?_flushAt, operatorFrom_nil, operatorFrom,
        isOperator_of_separates hsep, Bool.and_false, if_neg Bool.false_ne_true, hplace, ih,
        operatorFrom_piece_of_separates hsep]
      rfl
    · rw [(raw_pieces_of_not_separates hsep).1, if_neg hsep, operatorFrom, operatorFrom,
        isOperator_head?_piece]
      split
      · rfl
      · rw [hplace, hplace, ih]

theorem findOperator_eq_findSome? (command : List Char) :
    findOperator command = (wordsAt command).findSome? PlacedWord.operator? := by
  have hfirst := operatorFrom_eq_or .start 0 command
  have hzero : ∀ found : Option Nat, found.map (0 + ·) = found := by
    intro found
    simp
  rw [wordsAt, findSome?_flushAt, findOperator, ← hzero (operatorFrom .start command), hfirst]
  rfl

/-- **Operators are parts of words.** A command has an operator exactly if one of its words has one
by itself, and its first operator is the first one of the first such word. The words are taken in
order, each at the place where it stands. So the scanner that looks for operators and the one that
reads words agree on what is quoted. -/
theorem first_operator_in_first_word (command : List Char) :
    (hasOperator command = true ↔ ∃ w ∈ words command, hasOperator w.raw = true) ∧
      (∀ i, findOperator command = some i ↔
        ∃ before w after, wordsAt command = before ++ w :: after ∧
          (∀ v ∈ before, hasOperator v.word.raw = false) ∧
          ∃ j, findOperator w.word.raw = some j ∧ i = w.start + j) ∧
      (wordsAt command).map PlacedWord.word = words command ∧ Ordered (wordsAt command) ∧
      ∀ w ∈ wordsAt command, ∃ front rest, command = front ++ (w.word.raw ++ rest) ∧
        front.length = w.start := by
  have hnone : ∀ w : PlacedWord, w.operator? = none ↔ hasOperator w.word.raw = false := by
    intro w
    rw [PlacedWord.operator?, Option.map_eq_none_iff, hasOperator_eq_false_iff]
  refine ⟨?_, ?_, map_word_wordsAt command, pairwise_wordsAt command,
    fun _ hw => append_of_mem_wordsAt hw⟩
  · rw [hasOperator, findOperator_eq_findSome?, List.findSome?_isSome_iff, ← map_word_wordsAt]
    simp [PlacedWord.operator?, hasOperator]
  · intro i
    have hsome : ∀ w : PlacedWord, w.operator? = some i ↔
        ∃ j, findOperator w.word.raw = some j ∧ i = w.start + j := by
      intro w
      rw [PlacedWord.operator?, Option.map_eq_some_iff]
      simp only [eq_comm]
    rw [findOperator_eq_findSome?, List.findSome?_eq_some_iff]
    simp only [hnone, hsome, and_comm]

/-! ## Where a simple command ends without an operator -/

/-- What stands right in front of a character. -/
inductive Before where
  /-- A separator of words, or nothing. -/
  | gap
  /-- A live `>` or `<`. -/
  | redirection
  | other
  deriving DecidableEq, Repr

/-- What a character, in front of `rest`, is to the character behind it. -/
def Scan.before (s : Scan) (c : Char) (rest : List Char) : Before :=
  if s.separates c rest then .gap
  else if s.isLive c && (c = '>' || c = '<') then .redirection
  else .other

/-- A live character ends the simple command though it is no operator: an ampersand that is no part
of `>&`, `<&` or `&>`, or the number sign that starts a comment. -/
def isCommandEnd (before : Before) (c : Char) (successor : Option Char) : Bool :=
  (c = '&' && before != .redirection && successor != some '>') || (c = '#' && before == .gap)

def commandEndFrom (s : Scan) (before : Before) : List Char → Option Nat
  | [] => none
  | c :: rest =>
    if s.isLive c && isCommandEnd before c rest.head? then some 0
    else (commandEndFrom (s.next c) (s.before c rest) rest).map (· + 1)

/-- The position of the first character that ends the simple command though it is no operator. -/
def commandEnd? (command : List Char) : Option Nat :=
  commandEndFrom .start .gap command

theorem split_of_commandEndFrom {s : Scan} {before : Before} {text : List Char} {i : Nat}
    (h : commandEndFrom s before text = some i) :
    ∃ front c rest, text = front ++ c :: rest ∧ front.length = i ∧
      (s.after front).isLive c = true ∧ (c = '&' ∨ c = '#') := by
  induction text generalizing s before i with
  | nil => cases h
  | cons c rest ih =>
    rw [commandEndFrom] at h
    split at h
    · rename_i hc
      cases h
      rw [Bool.and_eq_true] at hc
      refine ⟨[], c, rest, rfl, rfl, hc.1, ?_⟩
      simp only [isCommandEnd, Bool.or_eq_true, Bool.and_eq_true, decide_eq_true_eq] at hc
      exact hc.2.imp (fun h => h.1.1) (fun h => h.1)
    · obtain ⟨j, hj, rfl⟩ := Option.map_eq_some_iff.1 h
      obtain ⟨front, d, more, rfl, rfl, hlive, hd⟩ := ih hj
      exact ⟨c :: front, d, more, rfl, rfl, hlive, hd⟩

theorem not_separates_of_isLive {s : Scan} {c : Char} {rest : List Char} (hlive : s.isLive c = true)
    (hc : c = '&' ∨ c = '#') : ¬ s.separates c rest = true := by
  rw [Scan.eq_start_of_isLive hlive]
  rcases hc with rfl | rfl
  · simp [Scan.separates, Scan.start, isBlank]
  · simp [Scan.separates, Scan.start, isBlank]

/-- **What ends the command is a character of a word.** -/
theorem exists_word_of_commandEnd? {command : List Char} {p : Nat}
    (h : commandEnd? command = some p) : ∃ w ∈ wordsAt command, w.span.Holds p := by
  obtain ⟨front, c, rest, rfl, rfl, hlive, hc⟩ := split_of_commandEndFrom h
  exact exists_word_of_not_separates (not_separates_of_isLive hlive hc)

end CompactShell.Shell
