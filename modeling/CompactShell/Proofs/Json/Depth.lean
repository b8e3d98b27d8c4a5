import CompactShell.Json.Reader

/-!
# How deep a value is

Each array and each object that is entered takes one level of the room that a reader has
(`Room.Holds.exists_inside`). A value takes as many levels as arrays and objects stand in each other
in it (`Value.depth`).
-/

namespace CompactShell.Json

/-! ## Room -/

namespace Room

variable {room inner : Room} {m n : Nat}

theorem Holds.mono (h : room.Holds n) (hle : m ≤ n) : room.Holds m := by
  cases room with
  | none => rfl
  | some levels => exact holds_some.2 (Nat.le_trans hle (holds_some.1 h))

theorem holds_zero (room : Room) : room.Holds 0 := by
  cases room with
  | none => rfl
  | some levels => exact holds_some.2 (Nat.zero_le levels)

theorem holds_succ_iff (h : room.inside? = some inner) : room.Holds (n + 1) ↔ inner.Holds n := by
  cases room with
  | none =>
    cases h
    exact Iff.rfl
  | some levels =>
    cases levels with
    | zero => cases h
    | succ levels =>
      cases h
      rw [holds_some, holds_some]
      exact Nat.succ_le_succ_iff

theorem not_holds_succ (h : room.inside? = none) : ¬ room.Holds (n + 1) := by
  cases room with
  | none => cases h
  | some levels =>
    cases levels with
    | zero => exact fun hholds => absurd (holds_some.1 hholds) (Nat.not_succ_le_zero n)
    | succ levels => cases h

/-- Where there is room for a level, it can be entered. -/
theorem Holds.exists_inside (h : room.Holds (n + 1)) :
    ∃ inner, room.inside? = some inner ∧ inner.Holds n := by
  cases hinner : room.inside? with
  | none => exact absurd h (not_holds_succ hinner)
  | some inner => exact ⟨inner, rfl, (holds_succ_iff hinner).1 h⟩

end Room

section Enter

variable {α : Type} {room inner : Room} {nest : Nest} {inside : Room → Read α}

theorem calling_of_holds {calls : Nat} (h : room.Holds calls) (result : Read α) :
    calling room calls result = result :=
  if_pos h

theorem calling_eq_ok {calls : Nat} {result : Read α} {read : α × List Char}
    (h : calling room calls result = .ok read) : result = .ok read := by
  unfold calling at h
  split at h
  · exact h
  · cases h

theorem reported_eq_ok {result : Read α} {read : α × List Char}
    (h : reported room result = .ok read) : result = .ok read := by
  unfold reported at h
  split at h
  · exact h
  · exact calling_eq_ok h
  · exact h

@[simp] theorem reported_none (result : Read α) : reported none result = result := by
  unfold reported
  split
  · rfl
  · exact calling_of_holds (Room.holds_none _) _
  · rfl

/-- A fault is reported, or there is no room for that. -/
theorem reported_malformed (room : Room) (cause : Cause) (left : Nat) :
    reported (α := α) room (.error (.malformed cause left)) = .error (.malformed cause left) ∨
      ¬ room.Holds reportCalls ∧
        reported (α := α) room (.error (.malformed cause left)) = .error (.refused .noCall) := by
  unfold reported
  split
  · exact .inl rfl
  · by_cases hroom : room.Holds reportCalls
    · exact .inl (if_pos hroom)
    · exact .inr ⟨hroom, if_neg hroom⟩
  · exact .inl rfl

theorem enter_eq (h : room.inside? = some inner) (nest : Nest) (inside : Room → Read α) :
    enter room nest inside = reported inner (inside inner) := by
  rw [enter, h]

theorem enter_of_ok (h : room.inside? = some inner) {read : α × List Char}
    (hread : inside inner = .ok read) : enter room nest inside = .ok read := by
  rw [enter_eq h, hread]
  rfl

theorem enter_eq_error (h : room.inside? = none) (nest : Nest) (inside : Room → Read α) :
    enter room nest inside = .error (.refused (.tooDeep nest)) := by
  rw [enter, h]

end Enter

/-! ## Depth -/

mutual

/-- How many arrays and objects stand in each other, where they are most. -/
def Value.depth : Value → Nat
  | .arr items => depthItems items + 1
  | .obj members => depthMembers members + 1
  | _ => 0

/-- The depth of the deepest item. -/
def depthItems : List Value → Nat
  | [] => 0
  | item :: items => max item.depth (depthItems items)

/-- The depth of the deepest member. -/
def depthMembers : List (String × Value) → Nat
  | [] => 0
  | (_, item) :: members => max item.depth (depthMembers members)

end

theorem depth_le_depthItems {item : Value} {items : List Value} (h : item ∈ items) :
    item.depth ≤ depthItems items := by
  induction items with
  | nil => cases h
  | cons first items ih =>
    rw [depthItems]
    rcases List.mem_cons.1 h with rfl | h
    · exact Nat.le_max_left ..
    · exact Nat.le_trans (ih h) (Nat.le_max_right ..)

theorem depth_le_depthMembers {member : String × Value} {members : Members}
    (h : member ∈ members) : member.2.depth ≤ depthMembers members := by
  induction members with
  | nil => cases h
  | cons first members ih =>
    obtain ⟨name, item⟩ := first
    rw [depthMembers]
    rcases List.mem_cons.1 h with rfl | h
    · exact Nat.le_max_left ..
    · exact Nat.le_trans (ih h) (Nat.le_max_right ..)

theorem depthItems_le {items : List Value} {n : Nat} (h : ∀ item ∈ items, item.depth ≤ n) :
    depthItems items ≤ n := by
  induction items with
  | nil => exact Nat.zero_le n
  | cons item items ih =>
    obtain ⟨hitem, hitems⟩ := List.forall_mem_cons.1 h
    exact Nat.max_le.2 ⟨hitem, ih hitems⟩

theorem depthMembers_le {members : Members} {n : Nat}
    (h : ∀ member ∈ members, member.2.depth ≤ n) : depthMembers members ≤ n := by
  induction members with
  | nil => exact Nat.zero_le n
  | cons member members ih =>
    obtain ⟨hmember, hmembers⟩ := List.forall_mem_cons.1 h
    exact Nat.max_le.2 ⟨hmember, ih hmembers⟩

theorem Room.holds_depthItems {room : Room} {items : List Value}
    (h : ∀ item ∈ items, room.Holds item.depth) : room.Holds (depthItems items) := by
  cases room with
  | none => rfl
  | some levels => exact holds_some.2 (depthItems_le fun item hitem => holds_some.1 (h item hitem))

theorem Room.holds_depthMembers {room : Room} {members : Members}
    (h : ∀ member ∈ members, room.Holds member.2.depth) : room.Holds (depthMembers members) := by
  cases room with
  | none => rfl
  | some levels =>
    exact holds_some.2 (depthMembers_le fun member hmember => holds_some.1 (h member hmember))

/-- There is room for what stands in an array that there is room for, and for as many calls more. -/
theorem Room.Holds.item {room inner : Room} (hinner : room.inside? = some inner) (calls : Nat)
    {items : List Value} (h : room.Holds ((Value.arr items).depth + calls)) :
    ∀ item ∈ items, inner.Holds (item.depth + calls) := by
  intro item hitem
  rw [Value.depth, Nat.add_right_comm, holds_succ_iff hinner] at h
  exact h.mono (Nat.add_le_add_right (depth_le_depthItems hitem) calls)

theorem Room.Holds.member {room inner : Room} (hinner : room.inside? = some inner) (calls : Nat)
    {members : Members} (h : room.Holds ((Value.obj members).depth + calls)) :
    ∀ member ∈ members, inner.Holds (member.2.depth + calls) := by
  intro member hmember
  rw [Value.depth, Nat.add_right_comm, holds_succ_iff hinner] at h
  exact h.mono (Nat.add_le_add_right (depth_le_depthMembers hmember) calls)

end CompactShell.Json
