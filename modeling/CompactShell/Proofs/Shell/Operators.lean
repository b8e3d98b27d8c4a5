import CompactShell.Shell.Operator
import Mathlib.Data.List.Basic

/-!
# Where operators stand

An operator is decided by one live character and the one behind it, so almost everything about
operators is local: `OperatorFrom` says that one stands at a position, and `operatorFrom` finds the
first of them. The lemmas here say what happens to both when texts are joined and cut.

Two facts carry the rest of the theory.

* **A front that ends where it started is transparent.** If the scan is back at its start behind a
  text, the operators behind that text are those of what follows (`operatorFrom_of_append`).
* **Cutting hides at most a descriptor copy.** The only character that is no operator in front of
  its successor and becomes one at the end of a text is a `>` in front of an ampersand
  (`operatorFrom_take`).
-/

namespace CompactShell.Shell

open Text

/-! ## Characters that mean nothing to the scan -/

/-- The characters that quote, escape, or take part in an operator. -/
def specials : List Char :=
  ['\\', '\'', '"', '|', ';', '\x60', '>', '<', '$', '&', '(']

/-- The character is none of the special ones. -/
def isPlain (c : Char) : Bool :=
  !specials.contains c

/-- A text of such characters. -/
def PlainText (text : List Char) : Prop :=
  ∀ c ∈ text, isPlain c = true

/-- A class of characters that holds no special one is plain. -/
theorem isPlain_of_class {p : Char → Bool} (hp : specials.all (fun c => !p c) = true) {c : Char}
    (h : p c = true) : isPlain c = true := by
  simp only [isPlain, Bool.not_eq_true', List.contains_eq_mem, decide_eq_false_iff_not]
  intro hc
  have hno := List.all_eq_true.1 hp c hc
  rw [h] at hno
  exact Bool.noConfusion hno

theorem isPlain_of_isSpace {c : Char} (h : isSpace c = true) : isPlain c = true :=
  isPlain_of_class (by decide) h

theorem isPlain_of_isBlank {c : Char} (h : isBlank c = true) : isPlain c = true :=
  isPlain_of_isSpace (isSpace_of_isBlank h)

theorem isPlain_of_isDigit {c : Char} (h : isDigit c = true) : isPlain c = true :=
  isPlain_of_class (by decide) h

theorem isPlain_of_isDecimal {c : Char} (h : isDecimal c = true) : isPlain c = true :=
  isPlain_of_class (by decide) h

theorem ne_of_isPlain {c d : Char} (h : isPlain c = true) (hd : d ∈ specials) : c ≠ d := by
  rintro rfl
  simp [isPlain, hd] at h

theorem PlainText.append {a b : List Char} (ha : PlainText a) (hb : PlainText b) :
    PlainText (a ++ b) := by
  intro c hc
  rcases List.mem_append.mp hc with h | h
  · exact ha c h
  · exact hb c h

/-- A plain character changes nothing but that what comes next is not escaped. -/
theorem Scan.next_of_isPlain (s : Scan) {c : Char} (h : isPlain c = true) :
    s.next c = ⟨s.quoting, false⟩ := by
  have hb : c ≠ '\\' := ne_of_isPlain h (by decide)
  have hs : c ≠ '\'' := ne_of_isPlain h (by decide)
  have hd : c ≠ '"' := ne_of_isPlain h (by decide)
  simp [Scan.next, Scan.isEscape, Scan.isToggle, hb, hs, hd]

theorem Scan.after_plainText {text : List Char} (h : PlainText text) :
    Scan.start.after text = .start := by
  induction text with
  | nil => rfl
  | cons c text ih =>
    have hc : Scan.start.next c = .start :=
      Scan.next_of_isPlain .start (h c (List.mem_cons_self ..))
    rw [Scan.after_cons, hc]
    exact ih fun d hd => h d (List.mem_cons_of_mem _ hd)

/-- A scan outside quotes with nothing escaped is where every command starts. -/
theorem Scan.eq_start {s : Scan} (hquoting : s.quoting = .bare) (hescaped : s.escaped = false) :
    s = .start := by
  obtain ⟨q, e⟩ := s
  obtain rfl : q = .bare := hquoting
  obtain rfl : e = false := hescaped
  rfl

theorem isOperator_of_isPlain {c : Char} (h : isPlain c = true) (x : Option Char) :
    isOperator c x = false := by
  have ne : ∀ d ∈ specials, c ≠ d := fun d hd => ne_of_isPlain h hd
  simp only [specials, List.forall_mem_cons] at ne
  obtain ⟨-, -, -, h1, h2, h3, h4, h5, h6, h7, -⟩ := ne
  simp [isOperator, h1, h2, h3, h4, h5, h6, h7]

/-! ## What the character behind decides -/

/-- The character completes no operator that the one in front of it begins, and breaks none. -/
def IsNeutral (x : Option Char) : Prop :=
  x ≠ some '&' ∧ x ≠ some '('

theorem isNeutral_none : IsNeutral none := ⟨by simp, by simp⟩

theorem isNeutral_of_isPlain {c : Char} (h : isPlain c = true) : IsNeutral (some c) :=
  ⟨fun e => ne_of_isPlain h (by decide) (Option.some.inj e),
    fun e => ne_of_isPlain h (by decide) (Option.some.inj e)⟩

theorem isOperator_of_isNeutral {x : Option Char} (hx : IsNeutral x) (c : Char) :
    isOperator c x = isOperator c none := by
  have ha : (x == some '&') = false := beq_eq_false_iff_ne.2 hx.1
  have hp : (x == some '(') = false := beq_eq_false_iff_ne.2 hx.2
  simp [isOperator, bne, ha, hp]

/-- **Only a descriptor copy is hidden by a cut.** -/
theorem isOperator_of_isOperator_none {c : Char} {x : Option Char}
    (h : isOperator c none = true) (hx : ¬ (c = '>' ∧ x = some '&')) :
    isOperator c x = true := by
  simp only [isOperator, Bool.or_eq_true, Bool.and_eq_true, decide_eq_true_eq, beq_iff_eq,
    bne_iff_ne, reduceCtorEq, and_false, or_false] at h ⊢
  rcases h with h | ⟨h, -⟩
  · exact Or.inl (Or.inl (Or.inl h))
  · exact Or.inl (Or.inl (Or.inr ⟨h, fun e => hx ⟨h, e⟩⟩))

/-! ## Finding the first operator in joined and cut texts -/

@[simp] theorem operatorFrom_nil (s : Scan) : operatorFrom s [] = none := rfl

theorem operatorFrom_cons_eq_none {s : Scan} {c : Char} {text : List Char} :
    operatorFrom s (c :: text) = none ↔
      ¬ (s.isLive c = true ∧ isOperator c text.head? = true) ∧
        operatorFrom (s.next c) text = none := by
  rw [operatorFrom]
  by_cases h : (s.isLive c && isOperator c text.head?) = true
  · simp only [h, if_true]
    simp_all
  · simp only [h]
    simp_all

/-- **Joining at a neutral seam.** The first operator of two texts one behind the other is the
first of the front, or else the first of what follows. -/
theorem operatorFrom_append {s : Scan} {a b : List Char} (hb : IsNeutral b.head?) :
    operatorFrom s (a ++ b) =
      (operatorFrom s a).or ((operatorFrom (s.after a) b).map (· + a.length)) := by
  induction a generalizing s with
  | nil => simp
  | cons c a ih =>
    have hhead : isOperator c (a ++ b).head? = isOperator c a.head? := by
      cases a with
      | nil => exact isOperator_of_isNeutral hb c
      | cons d a => rfl
    rw [List.cons_append, operatorFrom, operatorFrom, hhead, ih]
    split
    · rfl
    · cases operatorFrom (s.next c) a with
      | some i => simp
      | none =>
        simp only [Scan.after_cons, Option.none_or, Option.map_map, Option.map_none,
          List.length_cons]
        congr 1

/-- A text in front without an operator moves the first operator on by its length. -/
theorem operatorFrom_append_of_eq_none {s : Scan} {a b : List Char} (hb : IsNeutral b.head?)
    (ha : operatorFrom s a = none) :
    operatorFrom s (a ++ b) = (operatorFrom (s.after a) b).map (· + a.length) := by
  rw [operatorFrom_append hb, ha, Option.none_or]

/-- What stands behind a front without the first operator has that operator as its own first. -/
theorem operatorFrom_of_append {s : Scan} {a b : List Char} {i : Nat}
    (h : operatorFrom s (a ++ b) = some (a.length + i)) :
    operatorFrom (s.after a) b = some i := by
  induction a generalizing s with
  | nil => simpa using h
  | cons c a ih =>
    rw [List.cons_append, operatorFrom] at h
    split at h
    · have := Option.some.inj h
      simp only [List.length_cons] at this; omega
    · obtain ⟨j, hj, he⟩ := Option.map_eq_some_iff.1 h
      have : j = a.length + i := by simp only [List.length_cons] at he; omega
      exact ih (this ▸ hj)

/-- A text without operators has none behind any of its fronts. -/
theorem operatorFrom_eq_none_of_append {s : Scan} {a b : List Char}
    (h : operatorFrom s (a ++ b) = none) : operatorFrom (s.after a) b = none := by
  induction a generalizing s with
  | nil => exact h
  | cons c a ih => exact ih (operatorFrom_cons_eq_none.1 h).2

/-- **Cutting in front of the first operator.** Nothing in front of the cut becomes an operator,
unless the cut goes through a descriptor copy. -/
theorem operatorFrom_take {s : Scan} {a b : List Char}
    (h : ∀ i, operatorFrom s (a ++ b) = some i → a.length ≤ i)
    (hseam : ¬ (a.getLast? = some '>' ∧ b.head? = some '&')) : operatorFrom s a = none := by
  induction a generalizing s with
  | nil => rfl
  | cons c a ih =>
    have hno : ¬ (s.isLive c = true ∧ isOperator c (a ++ b).head? = true) := by
      intro hc
      have := h 0 (by
        rw [List.cons_append, operatorFrom, if_pos (by rw [hc.1, hc.2]; rfl)])
      simp at this
    refine operatorFrom_cons_eq_none.2 ⟨?_, ih ?_ ?_⟩
    · rintro ⟨hl, ho⟩
      cases a with
      | nil =>
        refine hno ⟨hl, isOperator_of_isOperator_none ho ?_⟩
        rintro ⟨rfl, hx⟩
        exact hseam ⟨rfl, hx⟩
      | cons d a => exact hno ⟨hl, ho⟩
    · intro i hi
      have := h (i + 1) (by
        rw [List.cons_append, operatorFrom, if_neg (by simpa using hno), hi]; rfl)
      simp only [List.length_cons] at this; omega
    · rintro ⟨ha, hx⟩
      refine hseam ⟨?_, hx⟩
      cases a with
      | nil => simp at ha
      | cons d a => simpa using ha

/-- A plain front has no operator and begins none. -/
theorem findOperator_plainText_append {a b : List Char} (ha : PlainText a) :
    findOperator (a ++ b) = (findOperator b).map (· + a.length) := by
  unfold findOperator
  induction a with
  | nil => simp
  | cons c a ih =>
    have hc := ha c (List.mem_cons_self ..)
    have hn : Scan.start.next c = .start := Scan.next_of_isPlain .start hc
    rw [List.cons_append, operatorFrom, isOperator_of_isPlain hc, Bool.and_false, hn,
      ih fun d hd => ha d (List.mem_cons_of_mem _ hd), if_neg Bool.false_ne_true, Option.map_map]
    rfl

/-! ## Every operator, not only the first -/

/-- An operator begins at position `i` of the text, when the scan starts in the state `s`. -/
def OperatorAt (s : Scan) (text : List Char) (i : Nat) : Prop :=
  ∃ before c rest, text = before ++ c :: rest ∧ before.length = i ∧
    (s.after before).isLive c = true ∧ isOperator c rest.head? = true

theorem operatorAt_zero {s : Scan} {c : Char} {text : List Char} :
    OperatorAt s (c :: text) 0 ↔ s.isLive c = true ∧ isOperator c text.head? = true := by
  constructor
  · rintro ⟨before, d, rest, he, hb, hl, ho⟩
    obtain rfl := List.eq_nil_of_length_eq_zero hb
    obtain ⟨rfl, rfl⟩ := List.cons.inj he
    exact ⟨hl, ho⟩
  · rintro ⟨hl, ho⟩
    exact ⟨[], c, text, rfl, rfl, hl, ho⟩

/-- The operators behind a front are those of what follows, from the state that the front leaves. -/
theorem operatorAt_append {s : Scan} {a b : List Char} {i : Nat} :
    OperatorAt s (a ++ b) (a.length + i) ↔ OperatorAt (s.after a) b i := by
  constructor
  · rintro ⟨before, c, rest, he, hb, hl, ho⟩
    obtain ⟨mid, rfl⟩ : a <+: before := by
      refine List.prefix_of_prefix_length_le ⟨b, he⟩ ⟨c :: rest, rfl⟩ (by omega)
    rw [List.append_assoc, List.append_cancel_left_eq] at he
    rw [List.length_append] at hb
    rw [Scan.after_append] at hl
    exact ⟨mid, c, rest, he, by omega, hl, ho⟩
  · rintro ⟨before, c, rest, rfl, rfl, hl, ho⟩
    exact ⟨a ++ before, c, rest, by simp, by simp, by rw [Scan.after_append]; exact hl, ho⟩

/-- The position that the search answers with is one of an operator. -/
theorem operatorAt_of_operatorFrom {s : Scan} {text : List Char} {i : Nat}
    (h : operatorFrom s text = some i) : OperatorAt s text i := by
  induction text generalizing s i with
  | nil => simp at h
  | cons c text ih =>
    rw [operatorFrom] at h
    split at h
    · rename_i hc
      rw [Bool.and_eq_true] at hc
      obtain rfl := Option.some.inj h
      exact operatorAt_zero.2 hc
    · obtain ⟨j, hj, rfl⟩ := Option.map_eq_some_iff.1 h
      have := operatorAt_append (s := s) (a := [c]) (b := text) (i := j)
      rw [List.length_singleton, Nat.add_comm] at this
      exact this.2 (ih hj)

theorem operatorFrom_isSome_iff {s : Scan} {text : List Char} :
    (operatorFrom s text).isSome = true ↔ ∃ i, OperatorAt s text i := by
  induction text generalizing s with
  | nil => simp [OperatorAt]
  | cons c text ih =>
    have hsucc : ∀ i, OperatorAt s (c :: text) (i + 1) ↔ OperatorAt (s.next c) text i := by
      intro i
      have := operatorAt_append (s := s) (a := [c]) (b := text) (i := i)
      rwa [List.length_singleton, Nat.add_comm] at this
    rw [operatorFrom]
    split
    · rename_i h
      rw [Bool.and_eq_true] at h
      exact ⟨fun _ => ⟨0, operatorAt_zero.2 h⟩, fun _ => rfl⟩
    · rename_i h
      rw [Option.isSome_map, ih]
      constructor
      · rintro ⟨i, hi⟩
        exact ⟨i + 1, (hsucc i).2 hi⟩
      · rintro ⟨i, hi⟩
        cases i with
        | zero => exact absurd (operatorAt_zero.1 hi) (by simpa using h)
        | succ i => exact ⟨i, (hsucc i).1 hi⟩

theorem hasOperator_eq_false_iff {command : List Char} :
    hasOperator command = false ↔ findOperator command = none := by
  rw [hasOperator, Option.isSome_eq_false_iff, Option.isNone_iff_eq_none]

/-- A command has an operator exactly if one begins somewhere in it. -/
theorem hasOperator_iff {command : List Char} :
    hasOperator command = true ↔ ∃ i, OperatorAt .start command i :=
  operatorFrom_isSome_iff

/-! ## Texts that can stand between blanks -/

/-- The text closes its quotes and holds no operator. What stands behind a blank at its end is read
as if it stood at the start of a command. -/
structure Inert (text : List Char) : Prop where
  /-- No quote is open at the end; a last backslash may still wait for its character. -/
  closed : (Scan.start.after text).quoting = .bare
  /-- No operator begins in it. -/
  free : findOperator text = none

theorem inert_of_plainText {text : List Char} (h : PlainText text) : Inert text := by
  refine ⟨by rw [Scan.after_plainText h]; rfl, ?_⟩
  have := findOperator_plainText_append (b := []) h
  rwa [List.append_nil] at this

/-- The blank behind an inert text brings the scan back to its start, even if it is escaped. -/
theorem Inert.after_append_blank {a : List Char} (h : Inert a) (b : List Char) :
    Scan.start.after (a ++ ' ' :: b) = Scan.start.after b := by
  have hnext : (Scan.start.after a).next ' ' = .start := by
    rw [Scan.next_of_isPlain _ (by decide), h.closed]
    rfl
  rw [Scan.after_append, Scan.after_cons, hnext]

theorem Inert.findOperator_append_blank {a : List Char} (h : Inert a) (b : List Char) :
    findOperator (a ++ ' ' :: b) = (findOperator b).map (· + (a.length + 1)) := by
  have hnext : (Scan.start.after a).next ' ' = .start := by
    rw [Scan.next_of_isPlain _ (by decide), h.closed]
    rfl
  have hplain : isOperator ' ' b.head? = false := isOperator_of_isPlain (by decide) _
  have hseam : IsNeutral (' ' :: b).head? := isNeutral_of_isPlain (c := ' ') (by decide)
  unfold findOperator
  rw [operatorFrom_append_of_eq_none hseam h.free, operatorFrom, hplain, Bool.and_false, hnext,
    if_neg Bool.false_ne_true, Option.map_map]
  congr 1
  funext i
  simp only [Function.comp_apply]; omega

theorem Inert.append_blank {a b : List Char} (ha : Inert a) (hb : Inert b) :
    Inert (a ++ ' ' :: b) :=
  ⟨by rw [ha.after_append_blank]; exact hb.closed,
    by rw [ha.findOperator_append_blank, hb.free]; rfl⟩

/-- What stands behind a plain front of an inert text is inert. -/
theorem Inert.of_plainText_append {a b : List Char} (ha : PlainText a) (h : Inert (a ++ b)) :
    Inert b := by
  refine ⟨?_, ?_⟩
  · have := h.closed
    rwa [Scan.after_append, Scan.after_plainText ha] at this
  · have := h.free
    rwa [findOperator_plainText_append ha, Option.map_eq_none_iff] at this

/-! ## The operator tail -/

/-- The first operator of a command and all that is behind it. -/
def operatorTail? (command : List Char) : Option (List Char) :=
  (findOperator command).map command.drop

theorem operatorTail?_eq_none_iff {command : List Char} :
    operatorTail? command = none ↔ findOperator command = none :=
  Option.map_eq_none_iff

theorem operatorTail?_plainText_append {a : List Char} (ha : PlainText a) (b : List Char) :
    operatorTail? (a ++ b) = operatorTail? b := by
  unfold operatorTail?
  rw [findOperator_plainText_append ha, Option.map_map]
  congr 1
  funext i
  simp [Nat.add_comm i, List.drop_append]

theorem Inert.operatorTail?_append_blank {a : List Char} (h : Inert a) (b : List Char) :
    operatorTail? (a ++ ' ' :: b) = operatorTail? b := by
  unfold operatorTail?
  rw [h.findOperator_append_blank, Option.map_map]
  congr 1
  funext i
  have : i + (a.length + 1) = (a ++ [' ']).length + i := by simp; omega
  rw [Function.comp_apply, this, show a ++ ' ' :: b = (a ++ [' ']) ++ b by simp, List.drop_append]
  simp

end CompactShell.Shell
