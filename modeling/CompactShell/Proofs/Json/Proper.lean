import CompactShell.Proofs.Json.RoundTrip
import Mathlib.Data.List.TakeWhile
import Mathlib.Data.Nat.Digits.Defs

/-!
# What is read can be written and read again

A reader gives proper values only (`isProper_of_readWithin`): a name that comes again in an object
changes the value of the first, and a whole number of too many digits is refused. It gives no value
that it had no room for (`holds_of_readWithin`). The inductions are on the steps that the three
readers may take, for all three at once.

So a value that was read, and has no fractions, comes back unchanged when it is written and read
again (`Value.IsProper.isExact`).
-/

namespace CompactShell.Json

open Text

/-! ## Values without fractions -/

theorem Value.IsProper.isExact {v : Value} (h : v.IsProper) (hwhole : v.IsWhole) : v.IsExact := by
  induction h with
  | null => exact .null
  | bool b => exact .bool b
  | int n h => exact .int n h
  | real x => cases hwhole
  | str text => exact .str text
  | arr items _ ih =>
    cases hwhole with
    | arr _ hitems => exact .arr items fun item hitem => ih item hitem (hitems item hitem)
  | obj members hnames _ ih =>
    cases hwhole with
    | obj _ hmembers =>
      exact .obj members hnames fun member hmember => ih member hmember (hmembers member hmember)

/-! ## Members -/

namespace Members

variable {name : String} {v : Value} {members : Members}

/-- A new value keeps the names that are there, and a new name goes last. -/
theorem map_fst_put (name : String) (v : Value) (members : Members) :
    (put name v members).map Prod.fst =
      if name ∈ members.map Prod.fst then members.map Prod.fst
      else members.map Prod.fst ++ [name] := by
  induction members with
  | nil => rfl
  | cons member members ih =>
    obtain ⟨other, old⟩ := member
    rw [put]
    by_cases h : other = name
    · rw [if_pos h, if_pos (by rw [h]; exact List.mem_cons_self ..)]
      rfl
    · rw [if_neg h, List.map_cons, ih]
      by_cases hmem : name ∈ members.map Prod.fst
      · have hthere : name ∈ ((other, old) :: members).map Prod.fst :=
          List.mem_cons_of_mem _ hmem
        rw [if_pos hmem, if_pos hthere]
        rfl
      · have hnot : name ∉ ((other, old) :: members).map Prod.fst := by
          rw [List.map_cons, List.mem_cons, not_or]
          exact ⟨Ne.symm h, hmem⟩
        rw [if_neg hmem, if_neg hnot]
        rfl

theorem nodup_put (h : (members.map Prod.fst).Nodup) (name : String) (v : Value) :
    ((put name v members).map Prod.fst).Nodup := by
  rw [map_fst_put]
  split
  · exact h
  · rename_i hnew
    refine List.nodup_append.2 ⟨h, by simp, ?_⟩
    intro a ha b hb
    rw [List.mem_singleton.1 hb]
    exact fun he => hnew (he ▸ ha)

/-- What stands in the members afterwards is the new member, or stood there before. -/
theorem mem_put {member : String × Value} (h : member ∈ put name v members) :
    member = (name, v) ∨ member ∈ members := by
  induction members with
  | nil => exact .inl (List.mem_singleton.1 h)
  | cons first members ih =>
    obtain ⟨other, old⟩ := first
    rw [put] at h
    split at h
    · rename_i heq
      rcases List.mem_cons.1 h with rfl | h
      · exact .inl (by rw [heq])
      · exact .inr (List.mem_cons_of_mem _ h)
    · rcases List.mem_cons.1 h with rfl | h
      · exact .inr (List.mem_cons_self ..)
      · exact (ih h).imp id (List.mem_cons_of_mem _)

/-- A new value for one name leaves the others theirs. -/
theorem get?_put_of_ne {other : String} (h : other ≠ name) (v : Value) (members : Members) :
    get? (put name v members) other = get? members other := by
  induction members with
  | nil => simp only [put, get?, if_neg (Ne.symm h)]
  | cons member members ih =>
    obtain ⟨first, old⟩ := member
    rw [put]
    split
    · rename_i heq
      simp only [get?, if_neg (heq ▸ Ne.symm h)]
    · simp only [get?, ih]

theorem mem_of_get? (h : get? members name = some v) : (name, v) ∈ members := by
  induction members with
  | nil => cases h
  | cons member members ih =>
    obtain ⟨other, old⟩ := member
    rw [get?] at h
    split at h
    · rename_i heq
      rw [← heq, ← Option.some.inj h]
      exact List.mem_cons_self ..
    · exact List.mem_cons_of_mem _ (ih h)

/-- Members that come one after the other make an object with each name once, and each of its values
is one of theirs. -/
theorem ofList_spec {Q : Value → Prop} {pairs : List (String × Value)}
    (h : ∀ pair ∈ pairs, Q pair.2) :
    ((ofList pairs).map Prod.fst).Nodup ∧ ∀ member ∈ ofList pairs, Q member.2 := by
  have hfold : ∀ before : Members, (before.map Prod.fst).Nodup →
      (∀ member ∈ before, Q member.2) →
      ((pairs.foldl (fun members pair => put pair.1 pair.2 members) before).map
        Prod.fst).Nodup ∧
      ∀ member ∈ pairs.foldl (fun members pair => put pair.1 pair.2 members) before,
        Q member.2 := by
    induction pairs with
    | nil => exact fun before hnames hall => ⟨hnames, hall⟩
    | cons pair pairs ih =>
      intro before hnames hall
      rw [List.foldl_cons]
      refine ih (fun pair hpair => h pair (List.mem_cons_of_mem _ hpair)) _
        (nodup_put hnames pair.1 pair.2) fun member hmember => ?_
      rcases mem_put hmember with rfl | hmember
      · exact h pair (List.mem_cons_self ..)
      · exact hall member hmember
  exact hfold [] List.nodup_nil (List.forall_mem_nil _)

end Members

/-! ## Numbers -/

theorem natOfDigits_lt {digits : List Char} (h : ∀ c ∈ digits, c.isDigit = true) :
    natOfDigits digits < 10 ^ digits.length := by
  have hfold : ∀ n, digits.foldl (fun n c => 10 * n + (c.toNat - '0'.toNat)) n <
      (n + 1) * 10 ^ digits.length := by
    induction digits with
    | nil => intro n; simp
    | cons c digits ih =>
      intro n
      have hc : c.toNat - '0'.toNat < 10 := by
        have hdigit := h c (List.mem_cons_self ..)
        simp only [Char.isDigit, Bool.and_eq_true, decide_eq_true_eq,
          UInt32.le_iff_toNat_le] at hdigit
        have hhigh : c.toNat ≤ 57 := hdigit.2
        have hzero : '0'.toNat = 48 := rfl
        omega
      have hrest := ih (fun d hd => h d (List.mem_cons_of_mem _ hd))
        (10 * n + (c.toNat - '0'.toNat))
      rw [List.foldl_cons, List.length_cons, Nat.pow_succ]
      refine Nat.lt_of_lt_of_le hrest ?_
      rw [Nat.mul_comm (10 ^ digits.length), ← Nat.mul_assoc]
      exact Nat.mul_le_mul_right _ (by omega)
  have hzero := hfold 0
  rw [Nat.zero_add, Nat.one_mul] at hzero
  exact hzero

theorem wholeDigits?_spec {text digits rest : List Char}
    (h : wholeDigits? text = some (digits, rest)) :
    digits ≠ [] ∧ ∀ c ∈ digits, c.isDigit = true := by
  unfold wholeDigits? at h
  split at h
  · cases h
    exact ⟨by simp, by simp⟩
  · split at h
    · cases h
    · rename_i hne
      cases h
      exact ⟨hne, fun c hc => List.mem_takeWhile_imp hc⟩

theorem unsignedNumber?_spec {negative : Bool} {text rest : List Char} {v : Value}
    (h : unsignedNumber? negative text = some (.ok (v, rest))) : v.IsProper ∧ v.depth = 0 := by
  obtain ⟨⟨whole, behind⟩, hwhole, hread⟩ := Option.map_eq_some_iff.1 h
  obtain ⟨hne, hdigits⟩ := wholeDigits?_spec hwhole
  dsimp only at hread
  split at hread
  · cases hread
    exact ⟨.real _, rfl⟩
  · split at hread
    · cases hread
      exact ⟨.real _, rfl⟩
    · split at hread
      · cases hread
      · rename_i hsize
        cases hread
        refine ⟨.int _ ?_, rfl⟩
        have habs : (if negative then -(natOfDigits whole : Int) else natOfDigits whole).natAbs =
            natOfDigits whole := by
          split <;> simp
        rw [habs]
        exact Nat.le_trans (Nat.toDigits_length 10 _ _ (List.length_pos_iff.2 hne)
          (natOfDigits_lt hdigits)) (Nat.not_lt.1 hsize)

/-- A scalar is proper, and there is nothing in it. -/
theorem scalar_spec {room : Room} {text rest : List Char} {v : Value}
    (h : scalar room text = .ok (v, rest)) : v.IsProper ∧ v.depth = 0 := by
  unfold scalar at h
  split at h
  · rename_i name named hfind
    cases calling_eq_ok h
    have hmem := List.mem_of_find?_eq_some hfind
    simp only [namedValues, List.mem_cons, List.not_mem_nil, or_false, Prod.mk.injEq] at hmem
    rcases hmem with ⟨-, rfl⟩ | ⟨-, rfl⟩ | ⟨-, rfl⟩ | ⟨-, rfl⟩ | ⟨-, rfl⟩ | ⟨-, rfl⟩
    · exact ⟨.null, rfl⟩
    · exact ⟨.bool true, rfl⟩
    · exact ⟨.bool false, rfl⟩
    · exact ⟨.real _, rfl⟩
    · exact ⟨.real _, rfl⟩
    · exact ⟨.real _, rfl⟩
  · dsimp only at h
    cases hnumber : unsignedNumber? (text.head? == some '-')
        (if (text.head? == some '-') = true then text.tail else text) with
    | none =>
      rw [hnumber] at h
      cases h
    | some result =>
      rw [hnumber, Option.getD_some] at h
      exact unsignedNumber?_spec (hnumber.trans (congrArg some h))

/-! ## All values -/

theorem map_ok {α β ε : Type} {f : α → β} {result : Except ε α} {b : β}
    (h : result.map f = .ok b) : ∃ a, result = .ok a ∧ f a = b := by
  cases result with
  | error fault => cases h
  | ok a => exact ⟨a, rfl, Except.ok.inj h⟩

/-- What is read inside an array or an object was read where there is room for one. -/
theorem enter_ok {α : Type} {room : Room} {nest : Nest} {inside : Room → Read α}
    {read : α × List Char} (h : enter room nest inside = .ok read) :
    ∃ inner, room.inside? = some inner ∧ inside inner = .ok read := by
  unfold enter at h
  split at h
  · cases h
  · rename_i inner hinner
    exact ⟨inner, hinner, reported_eq_ok h⟩

/-- With the fuel, the three readers give values that have a property, if there is room for them. -/
structure ReadsValues (P : Room → Value → Prop) (fuel : Nat) : Prop where
  value : ∀ room text v rest, Json.value room fuel text = .ok (v, rest) → P room v
  items : ∀ room text read rest,
    Json.items room fuel text = .ok (read, rest) → ∀ item ∈ read, P room item
  pairs : ∀ room text read rest,
    Json.pairs room fuel text = .ok (read, rest) → ∀ pair ∈ read, P room pair.2

/-- What has to be known of a property of values for every value that is read to have it. -/
structure IsBuilt (P : Room → Value → Prop) : Prop where
  str : ∀ room text, P room (.str text)
  scalar : ∀ room text v rest, Json.scalar room text = .ok (v, rest) → P room v
  arr : ∀ room inner items, room.inside? = some inner → (∀ item ∈ items, P inner item) →
    P room (.arr items)
  obj : ∀ room inner pairs, room.inside? = some inner → (∀ pair ∈ pairs, P inner pair.2) →
    P room (.obj (Members.ofList pairs))

namespace ReadsValues

variable {P : Room → Value → Prop} {fuel : Nat} {room : Room}

theorem value_succ (h : ReadsValues P fuel) (hbuilt : IsBuilt P) {text rest : List Char} {v : Value}
    (hread : Json.value room (fuel + 1) text = .ok (v, rest)) : P room v := by
  unfold Json.value at hread
  split at hread
  · obtain ⟨⟨s, behind⟩, -, hs⟩ := map_ok hread
    cases hs
    exact hbuilt.str room s
  · obtain ⟨inner, hinner, hread⟩ := enter_ok hread
    split at hread
    · cases hread
      exact hbuilt.arr room inner [] hinner (List.forall_mem_nil _)
    · obtain ⟨⟨items, behind⟩, hitems, hs⟩ := map_ok hread
      cases hs
      exact hbuilt.arr room inner items hinner (h.items _ _ _ _ hitems)
  · obtain ⟨inner, hinner, hread⟩ := enter_ok hread
    split at hread
    · cases hread
      exact hbuilt.obj room inner [] hinner (List.forall_mem_nil _)
    · obtain ⟨⟨pairs, behind⟩, hpairs, hs⟩ := map_ok hread
      cases hs
      exact hbuilt.obj room inner pairs hinner (h.pairs _ _ _ _ hpairs)
  · exact hbuilt.scalar room _ _ _ hread

theorem items_succ (h : ReadsValues P fuel) {text rest : List Char} {read : List Value}
    (hread : Json.items room (fuel + 1) text = .ok (read, rest)) : ∀ item ∈ read, P room item := by
  unfold Json.items at hread
  split at hread
  · cases hread
  · rename_i item behind hitem
    have hfirst := h.value _ _ _ _ hitem
    split at hread
    · cases hread
      exact List.forall_mem_singleton.2 hfirst
    · obtain ⟨⟨more, last⟩, hmore, hs⟩ := map_ok hread
      cases hs
      exact List.forall_mem_cons.2 ⟨hfirst, h.items _ _ _ _ hmore⟩
    · cases hread

theorem pairs_succ (h : ReadsValues P fuel) {text rest : List Char}
    {read : List (String × Value)} (hread : Json.pairs room (fuel + 1) text = .ok (read, rest)) :
    ∀ pair ∈ read, P room pair.2 := by
  unfold Json.pairs at hread
  split at hread
  · split at hread
    · cases hread
    · split at hread
      · split at hread
        · cases hread
        · rename_i item behind hitem
          have hfirst := h.value _ _ _ _ hitem
          split at hread
          · cases hread
            exact List.forall_mem_singleton.2 hfirst
          · obtain ⟨⟨more, last⟩, hmore, hs⟩ := map_ok hread
            cases hs
            exact List.forall_mem_cons.2 ⟨hfirst, h.pairs _ _ _ _ hmore⟩
          · cases hread
      · cases hread
  · cases hread

end ReadsValues

/-- **The three readers give values that have the property.** -/
theorem IsBuilt.readsValues {P : Room → Value → Prop} (h : IsBuilt P) (fuel : Nat) :
    ReadsValues P fuel := by
  induction fuel with
  | zero => exact ⟨nofun, nofun, nofun⟩
  | succ fuel ih =>
    exact ⟨fun _ _ _ _ => ih.value_succ h, fun _ _ _ _ => ih.items_succ,
      fun _ _ _ _ => ih.pairs_succ⟩

/-- **Every value that is read has the property.** -/
theorem IsBuilt.of_readWithin {P : Room → Value → Prop} (h : IsBuilt P) {room : Room}
    {text : List Char} {v : Value} (hread : readWithin room text = .ok v) : P room v := by
  unfold readWithin at hread
  split at hread
  · cases hread
  · split at hread
    · cases hread
    · rename_i hvalue
      split at hread
      · cases hread
        exact (h.readsValues _).value _ _ _ _ hvalue
      · cases hread

/-! ## What a value that is read is like -/

theorem isBuilt_isProper : IsBuilt fun _ v => v.IsProper where
  str _ text := .str text
  scalar _ _ _ _ hread := (scalar_spec hread).1
  arr _ _ items _ h := .arr items h
  obj _ _ _ _ h := by
    obtain ⟨hnames, hall⟩ := Members.ofList_spec h
    exact .obj _ hnames hall

/-- **Every value that is read is proper.** -/
theorem isProper_of_readWithin {room : Room} {text : List Char} {v : Value}
    (h : readWithin room text = .ok v) : v.IsProper :=
  isBuilt_isProper.of_readWithin h

theorem isBuilt_holds : IsBuilt fun room v => room.Holds v.depth where
  str room _ := room.holds_zero
  scalar room _ _ _ hread := by
    rw [(scalar_spec hread).2]
    exact room.holds_zero
  arr _ _ _ hinner h := (Room.holds_succ_iff hinner).2 (Room.holds_depthItems h)
  obj room inner pairs hinner h := by
    have hmembers := (Members.ofList_spec (Q := fun item => inner.Holds item.depth) h).2
    exact (Room.holds_succ_iff hinner).2 (Room.holds_depthMembers hmembers)

/-- **There was room for every value that is read.** -/
theorem holds_of_readWithin {room : Room} {text : List Char} {v : Value}
    (h : readWithin room text = .ok v) : room.Holds v.depth :=
  isBuilt_holds.of_readWithin h

end CompactShell.Json
