import CompactShell.Proofs.Json.Taken

/-!
# What a limit on calls changes

A reader with less room reads the same as one without a limit, or it ends where it has no room for a
call (`readWithin_cases`). It never reads anything else instead. A value that there is no room for is
refused (`readWithin_of_not_holds`).
-/

namespace CompactShell.Json

/-- A text is refused so for want of room. -/
inductive Refusal.WantsRoom : Refusal → Prop
  | tooDeep (nest : Nest) : WantsRoom (.tooDeep nest)
  | noCall : WantsRoom .noCall

/-- The first reading came to the same as the second, or had no room. -/
inductive Curtails {α : Type} : Read α → Read α → Prop
  | same (result : Read α) : Curtails result result
  | full {refusal : Refusal} (h : refusal.WantsRoom) (result : Read α) :
      Curtails (.error (.refused refusal)) result

namespace Curtails

variable {α β : Type} {limited whole : Read α}

theorem map (h : Curtails limited whole) (f : α → β) :
    Curtails (limited.map fun (a, rest) => (f a, rest))
      (whole.map fun (a, rest) => (f a, rest)) := by
  cases h with
  | same => exact .same _
  | full hfull => exact .full hfull _

theorem andThen {next more : α → List Char → Read β} (h : Curtails limited whole)
    (hnext : ∀ a rest, Curtails (next a rest) (more a rest)) :
    Curtails (limited.andThen next) (whole.andThen more) := by
  cases h with
  | same =>
    cases limited with
    | error fault => exact .same _
    | ok read => exact hnext read.1 read.2
  | full hfull => exact .full hfull _

/-- Without a limit, any calls can be made. -/
theorem calling (h : Curtails limited whole) (room : Room) (calls : Nat) :
    Curtails (calling room calls limited) whole := by
  unfold Json.calling
  split
  · exact h
  · exact .full .noCall _

theorem reported (h : Curtails limited whole) (room : Room) :
    Curtails (reported room limited) whole := by
  unfold Json.reported
  split
  · exact h
  · exact h.calling room reportCalls
  · exact h

/-- Without a limit, every bracket is entered. -/
theorem enter {room : Room} {nest : Nest} {inside : Room → Read α}
    (h : ∀ inner, Curtails (inside inner) (inside none)) :
    Curtails (Json.enter room nest inside) (Json.enter none nest inside) := by
  have hwhole : Json.enter none nest inside = inside none := by rw [enter_eq rfl, reported_none]
  cases hinner : room.inside? with
  | none =>
    rw [enter_eq_error hinner]
    exact .full (.tooDeep nest) _
  | some inner =>
    rw [enter_eq hinner, hwhole]
    exact (h inner).reported inner

end Curtails

theorem curtails_scalar (room : Room) (text : List Char) :
    Curtails (scalar room text) (scalar none text) := by
  cases hnamed : named? text with
  | some named =>
    rw [scalar_of_named? room hnamed, scalar_of_named? none hnamed,
      calling_of_holds (Room.holds_none _)]
    exact (Curtails.same _).calling room _
  | none =>
    rw [scalar_of_number room hnamed, scalar_of_number none hnamed]
    exact .same _

section Parts

variable {α : Type} {close : Char} {limited whole : List Char → Read α}
  (h : ∀ text, Curtails (limited text) (whole text))

include h

theorem curtails_openedBehind (empty : α) (rest : List Char) :
    Curtails (openedBehind close empty limited rest) (openedBehind close empty whole rest) := by
  unfold openedBehind
  split
  · exact .same _
  · exact h _

theorem curtails_partsBehind (last : α) (rest : List Char) :
    Curtails (partsBehind close last limited rest) (partsBehind close last whole rest) := by
  unfold partsBehind
  split
  · exact .same _
  · split
    · exact .same _
    · split
      · exact h _
      · exact .same _

end Parts

/-- With the fuel, the three readers read the same as without a limit, or have no room. -/
structure ReadersCurtail (fuel : Nat) : Prop where
  value : ∀ room text, Curtails (Json.value room fuel text) (Json.value none fuel text)
  items : ∀ room text, Curtails (Json.items room fuel text) (Json.items none fuel text)
  pairs : ∀ room text, Curtails (Json.pairs room fuel text) (Json.pairs none fuel text)

namespace ReadersCurtail

variable {fuel : Nat} (h : ReadersCurtail fuel) (room : Room) (text : List Char)

include h

theorem value_succ :
    Curtails (Json.value room (fuel + 1) text) (Json.value none (fuel + 1) text) := by
  cases text with
  | nil => exact curtails_scalar room []
  | cons c rest =>
    by_cases hquote : c = '"'
    · subst hquote
      exact .same _
    by_cases harr : c = '['
    · subst harr
      rw [value_arr, value_arr]
      exact .enter fun inner =>
        curtails_openedBehind (fun text => (h.items inner text).map Value.arr) _ rest
    by_cases hobj : c = '\x7b'
    · subst hobj
      rw [value_obj, value_obj]
      exact .enter fun inner => curtails_openedBehind
        (fun text => (h.pairs inner text).map fun pairs => Value.obj (Members.ofList pairs)) _ rest
    rw [value_scalar room fuel hquote harr hobj, value_scalar none fuel hquote harr hobj]
    exact curtails_scalar room (c :: rest)

theorem items_succ :
    Curtails (Json.items room (fuel + 1) text) (Json.items none (fuel + 1) text) := by
  rw [Json.items_succ, Json.items_succ]
  exact (h.value room text).andThen fun item rest =>
    curtails_partsBehind (fun text => (h.items room text).map _) [item] rest

theorem memberBehind (name : String) :
    Curtails (Json.memberBehind room fuel name text) (Json.memberBehind none fuel name text) := by
  unfold Json.memberBehind
  split
  · exact .same _
  · split
    · refine (h.value room _).andThen fun item rest => ?_
      rw [pairsBehind_eq_partsBehind, pairsBehind_eq_partsBehind]
      exact curtails_partsBehind (fun text => (h.pairs room text).map _) [(name, item)] rest
    · exact .same _

theorem pairs_succ :
    Curtails (Json.pairs room (fuel + 1) text) (Json.pairs none (fuel + 1) text) := by
  by_cases hquote : ∃ rest, text = '"' :: rest
  · obtain ⟨rest, rfl⟩ := hquote
    rw [pairs_quote, pairs_quote]
    exact (Curtails.same _).andThen fun name rest => h.memberBehind room rest name
  · have hother : ∀ rest, text ≠ '"' :: rest := fun rest h => hquote ⟨rest, h⟩
    rw [pairs_of_ne_quote room fuel hother, pairs_of_ne_quote none fuel hother]
    exact .same _

end ReadersCurtail

/-- **The three readers read the same as without a limit, or have no room.** -/
theorem readersCurtail (fuel : Nat) : ReadersCurtail fuel := by
  induction fuel with
  | zero => exact ⟨fun _ _ => .same _, fun _ _ => .same _, fun _ _ => .same _⟩
  | succ fuel ih => exact ⟨ih.value_succ, ih.items_succ, ih.pairs_succ⟩

/-! ## Whole texts -/

/-- **A text is read as it is without a limit, or there is no room for it.** -/
theorem readWithin_cases (room : Room) (text : List Char) :
    readWithin room text = read text ∨
      ∃ refusal : Refusal, refusal.WantsRoom ∧ readWithin room text = .error (.refused refusal) := by
  by_cases hmark : ∃ rest, text = '\uFEFF' :: rest
  · obtain ⟨rest, rfl⟩ := hmark
    exact .inl rfl
  · have hother : ∀ rest, text ≠ '\uFEFF' :: rest := fun rest h => hmark ⟨rest, h⟩
    have hvalue := (readersCurtail (enoughFuel text)).value room (skipGap text)
    rw [read, readWithin_of_ne_mark room hother, readWithin_of_ne_mark none hother]
    generalize value room (enoughFuel text) (skipGap text) = limited at hvalue ⊢
    generalize value none (enoughFuel text) (skipGap text) = whole at hvalue ⊢
    cases hvalue with
    | same => exact .inl rfl
    | full hfull => exact .inr ⟨_, hfull, rfl⟩

section Results

variable {room : Room} {text : List Char} {v : Value}

theorem read_of_readWithin (h : readWithin room text = .ok v) : read text = .ok v := by
  rcases readWithin_cases room text with hsame | ⟨refusal, -, hfull⟩
  · rw [← hsame, h]
  · rw [hfull] at h
    cases h

/-- **A value that there is no room for is refused.** -/
theorem readWithin_of_not_holds (hread : read text = .ok v) (h : ¬ room.Holds v.depth) :
    ∃ refusal : Refusal, refusal.WantsRoom ∧ readWithin room text = .error (.refused refusal) := by
  rcases readWithin_cases room text with hsame | hfull
  · exact absurd (holds_of_readWithin (hsame.trans hread)) h
  · exact hfull

end Results

end CompactShell.Json
