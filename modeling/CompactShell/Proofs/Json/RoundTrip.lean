import CompactShell.Json.Writer
import CompactShell.Proofs.Json.Decimals
import CompactShell.Proofs.Json.Depth
import CompactShell.Proofs.Json.Strings
import Mathlib.Tactic.Choose

/-!
# Values are read as they were written

A value without fractions is read from what is written for it (`Value.IsExact.isReadAs`), if there
is room for it and whatever stands behind it, unless that could belong to a number. The induction is
on the value. Its three readers are called with one step less each time, and every call has at least
one character of its own, so as many steps as there are characters are enough.

An object whose names are all different keeps its members; one with a name that comes twice is
never read. Numbers with a fraction are read as some number, so a value that has them is read as one
of the same shape (`Value.IsProper.exists_isReadAs`).
-/

namespace CompactShell.Json

open Text

/-! ## Values -/

/-- A value that can be read: it has no whole number of too many digits, and no object with a name
twice. -/
inductive Value.IsProper : Value → Prop
  | null : IsProper .null
  | bool (value : Bool) : IsProper (.bool value)
  | int (n : Int) (h : (Nat.toDigits 10 n.natAbs).length ≤ maxDigits) : IsProper (.int n)
  | real (x : Number.Binary64) : IsProper (.real x)
  | str (text : String) : IsProper (.str text)
  | arr (items : List Value) (h : ∀ item ∈ items, IsProper item) : IsProper (.arr items)
  | obj (members : Members) (hnames : (members.map Prod.fst).Nodup)
    (h : ∀ member ∈ members, IsProper member.2) : IsProper (.obj members)

/-- Reading gives the value back: it has no fractions, no whole number of too many digits, and no
object with a name twice. -/
inductive Value.IsExact : Value → Prop
  | null : IsExact .null
  | bool (value : Bool) : IsExact (.bool value)
  | int (n : Int) (h : (Nat.toDigits 10 n.natAbs).length ≤ maxDigits) : IsExact (.int n)
  | str (text : String) : IsExact (.str text)
  | arr (items : List Value) (h : ∀ item ∈ items, IsExact item) : IsExact (.arr items)
  | obj (members : Members) (hnames : (members.map Prod.fst).Nodup)
    (h : ∀ member ∈ members, IsExact member.2) : IsExact (.obj members)

theorem Value.IsExact.isProper {v : Value} (h : v.IsExact) : v.IsProper := by
  induction h with
  | null => exact .null
  | bool b => exact .bool b
  | int n h => exact .int n h
  | str text => exact .str text
  | arr items _ ih => exact .arr items ih
  | obj members hnames _ ih => exact .obj members hnames ih

/-- No number in the value has a fraction or a power of ten. -/
inductive Value.IsWhole : Value → Prop
  | null : IsWhole .null
  | bool (value : Bool) : IsWhole (.bool value)
  | int (n : Int) : IsWhole (.int n)
  | str (text : String) : IsWhole (.str text)
  | arr (items : List Value) (h : ∀ item ∈ items, IsWhole item) : IsWhole (.arr items)
  | obj (members : Members) (h : ∀ member ∈ members, IsWhole member.2) : IsWhole (.obj members)

theorem Value.IsExact.isWhole {v : Value} (h : v.IsExact) : v.IsWhole := by
  induction h with
  | null => exact .null
  | bool b => exact .bool b
  | int n _ => exact .int n
  | str text => exact .str text
  | arr items _ ih => exact .arr items ih
  | obj members _ _ ih => exact .obj members ih

/-- There is room to read what is written for the value: for the arrays and objects in it and, where
a number has a fraction, for the call that may make that number of a word. -/
def Value.FitsIn (room : Room) (v : Value) : Prop :=
  room.Holds v.depth ∧ (v.IsWhole ∨ room.Holds (v.depth + 1))

theorem Value.IsExact.fitsIn {v : Value} (h : v.IsExact) {room : Room}
    (hroom : room.Holds v.depth) : v.FitsIn room :=
  ⟨hroom, .inl h.isWhole⟩

theorem Value.fitsIn_none (v : Value) : v.FitsIn none :=
  ⟨Room.holds_none _, .inr (Room.holds_none _)⟩

/-- A number with a fraction may be written as a word. -/
theorem Value.FitsIn.real {x : Number.Binary64} {room : Room} (h : (Value.real x).FitsIn room) :
    room.Holds 1 := by
  rcases h.2 with hwhole | hroom
  · cases hwhole
  · exact hroom

theorem Value.FitsIn.item {room inner : Room} (hinner : room.inside? = some inner)
    {items : List Value} (h : (Value.arr items).FitsIn room) :
    ∀ item ∈ items, item.FitsIn inner := by
  intro item hitem
  refine ⟨h.1.item hinner 0 item hitem, ?_⟩
  rcases h.2 with hwhole | hroom
  · cases hwhole with
    | arr _ hitems => exact .inl (hitems item hitem)
  · exact .inr (hroom.item hinner 1 item hitem)

theorem Value.FitsIn.member {room inner : Room} (hinner : room.inside? = some inner)
    {members : Members} (h : (Value.obj members).FitsIn room) :
    ∀ member ∈ members, member.2.FitsIn inner := by
  intro member hmember
  refine ⟨h.1.member hinner 0 member hmember, ?_⟩
  rcases h.2 with hwhole | hroom
  · cases hwhole with
    | obj _ hmembers => exact .inl (hmembers member hmember)
  · exact .inr (hroom.member hinner 1 member hmember)

/-- What is written for the value `v` is read as `w` where there is room for it, in front of
anything that ends a number. -/
def Value.IsReadAs (v w : Value) : Prop :=
  ∀ (room : Room) fuel rest, v.FitsIn room → (write v).length ≤ fuel → IsNumberEnd rest →
    value room fuel (write v ++ rest) = .ok (w, rest)

/-- The text starts with a character that starts a value. -/
def StartsValue (text : List Char) : Prop :=
  ∃ c rest, text = c :: rest ∧ isGap c = false ∧ c ≠ ']'

theorem StartsValue.append {text : List Char} (h : StartsValue text) (rest : List Char) :
    StartsValue (text ++ rest) := by
  obtain ⟨c, text, rfl, hgap, hend⟩ := h
  exact ⟨c, text ++ rest, rfl, hgap, hend⟩

theorem StartsValue.skipGap {text : List Char} (h : StartsValue text) : skipGap text = text := by
  obtain ⟨c, text, rfl, hgap, -⟩ := h
  rw [Json.skipGap, List.dropWhile_cons, hgap, if_neg Bool.false_ne_true]

theorem startsValue_digits {c : Char} (h : c.isDigit = true) (rest : List Char) :
    StartsValue (c :: rest) := by
  refine ⟨c, rest, rfl, ?_, ?_⟩
  · have hne : ∀ d, d.isDigit = false → decide (c = d) = false := fun d hd =>
      decide_eq_false (ne_of_isDigit h hd)
    rw [isGap, hne ' ' rfl, hne '\t' rfl, hne '\n' rfl, hne '\r' rfl]
    rfl
  · exact ne_of_isDigit h rfl

theorem Value.IsProper.startsValue {v : Value} (h : v.IsProper) : StartsValue (write v) := by
  cases h with
  | null => exact ⟨'n', _, rfl, rfl, by decide⟩
  | bool value =>
    cases value with
    | true => exact ⟨'t', _, rfl, rfl, by decide⟩
    | false => exact ⟨'f', _, rfl, rfl, by decide⟩
  | int n h =>
    rw [write, writeInt]
    split
    · exact ⟨'-', _, rfl, rfl, by decide⟩
    · obtain ⟨c, digits, hdigits⟩ := List.exists_cons_of_ne_nil
        (Nat.toDigits_ne_nil : Nat.toDigits 10 n.natAbs ≠ [])
      have hc : c.isDigit = true := isDigit_of_mem_toDigits (hdigits ▸ List.mem_cons_self ..)
      rw [List.nil_append, hdigits]
      exact startsValue_digits hc digits
  | real x =>
    cases x with
    | nan => exact ⟨'N', _, rfl, rfl, by decide⟩
    | infinite negative =>
      cases negative with
      | true => exact ⟨'-', _, rfl, rfl, by decide⟩
      | false => exact ⟨'I', _, rfl, rfl, by decide⟩
    | finite negative significand exponent =>
      cases negative with
      | true => exact ⟨'-', _, rfl, rfl, by decide⟩
      | false =>
        obtain ⟨c, digits, hdigits, hc⟩ :=
          (isReal_text (Number.shortest significand exponent)).exists_digit
        rw [write, Number.Binary64.text, if_neg Bool.false_ne_true, List.nil_append, hdigits]
        exact startsValue_digits hc digits
  | str text => exact ⟨'"', _, rfl, rfl, by decide⟩
  | arr items h => exact ⟨'[', _, rfl, rfl, by decide⟩
  | obj members hnames h => exact ⟨'\x7b', _, rfl, rfl, by decide⟩

/-! ### Values without parts -/

section Scalar

variable (room : Room)

theorem value_null (fuel : Nat) (rest : List Char) :
    value room (fuel + 1) (write .null ++ rest) = .ok (.null, rest) :=
  calling_of_holds room.holds_zero (.ok (Value.null, rest))

theorem value_bool (fuel : Nat) (b : Bool) (rest : List Char) :
    value room (fuel + 1) (write (.bool b) ++ rest) = .ok (.bool b, rest) := by
  cases b with
  | true => exact calling_of_holds room.holds_zero (.ok (Value.bool true, rest))
  | false => exact calling_of_holds room.holds_zero (.ok (Value.bool false, rest))

theorem value_str (fuel : Nat) (text : String) (rest : List Char) :
    value room (fuel + 1) (write (.str text) ++ rest) = .ok (.str text, rest) := by
  rw [write, writeString, List.cons_append, List.cons_append, List.append_assoc,
    List.singleton_append, value, string_writeString]
  rfl

theorem value_scalar (fuel : Nat) {c : Char} {rest : List Char} (hquote : c ≠ '"') (harr : c ≠ '[')
    (hobj : c ≠ '\x7b') : value room (fuel + 1) (c :: rest) = scalar room (c :: rest) := by
  unfold value
  split
  · rename_i heq
    exact absurd (List.cons.inj heq).1 hquote
  · rename_i heq
    exact absurd (List.cons.inj heq).1 harr
  · rename_i heq
    exact absurd (List.cons.inj heq).1 hobj
  · rfl

/-- No value's name starts with a digit, or with a minus and a digit. -/
theorem find?_namedValues {c : Char} (h : c.isDigit = true) (rest : List Char) :
    (namedValues.find? fun (name, _) => startsWith name (c :: rest)) = none ∧
      (namedValues.find? fun (name, _) => startsWith name ('-' :: c :: rest)) = none := by
  have hne : ∀ d, d.isDigit = false → (d == c) = false := fun d hd =>
    beq_eq_false_iff_ne.2 (ne_of_isDigit h hd).symm
  have hstart : ∀ name ∈ namedValues, ¬ startsWith name.1 (c :: rest) = true ∧
      ¬ startsWith name.1 ('-' :: c :: rest) = true := by
    intro name hname
    simp only [namedValues, List.mem_cons, List.not_mem_nil, or_false] at hname
    rcases hname with rfl | rfl | rfl | rfl | rfl | rfl <;>
      simp [startsWith, List.isPrefixOf, hne]
  constructor
  · exact List.find?_eq_none.2 fun name hname => (hstart name hname).1
  · exact List.find?_eq_none.2 fun name hname => (hstart name hname).2

/-- A number is read with its sign. -/
theorem value_signed (fuel : Nat) (negative : Bool) {c : Char} (hc : c.isDigit = true)
    {digits rest : List Char} {v : Value}
    (hread : unsignedNumber? negative (c :: digits) = some (.ok (v, rest))) :
    value room (fuel + 1) ((if negative then ['-'] else []) ++ c :: digits) = .ok (v, rest) := by
  obtain ⟨hplain, hminus⟩ := find?_namedValues hc digits
  cases negative with
  | true =>
    rw [if_pos rfl, List.singleton_append,
      value_scalar room fuel (by decide) (by decide) (by decide), scalar, hminus]
    show (unsignedNumber? true (c :: digits)).getD _ = _
    rw [hread]
    rfl
  | false =>
    have hsign : ((c :: digits).head? == some '-') = false :=
      beq_eq_false_iff_ne.2 fun heq => ne_of_isDigit hc rfl (Option.some.inj heq)
    rw [if_neg Bool.false_ne_true, List.nil_append,
      value_scalar room fuel (ne_of_isDigit hc rfl) (ne_of_isDigit hc rfl) (ne_of_isDigit hc rfl),
      scalar, hplain]
    simp only [hsign]
    rw [if_neg Bool.false_ne_true, hread]
    rfl

theorem value_int (fuel : Nat) {n : Int} (h : (Nat.toDigits 10 n.natAbs).length ≤ maxDigits)
    {rest : List Char} (hrest : IsNumberEnd rest) :
    value room (fuel + 1) (write (.int n) ++ rest) = .ok (.int n, rest) := by
  have hread := unsignedNumber?_toDigits (decide (n < 0)) h hrest
  have hsize : (if decide (n < 0) then -(n.natAbs : Int) else n.natAbs) = n := by
    split
    · rename_i hn
      have := of_decide_eq_true hn
      omega
    · rename_i hn
      have : ¬ n < 0 := fun h => hn (decide_eq_true h)
      omega
  obtain ⟨c, digits, hdigits⟩ := List.exists_cons_of_ne_nil
    (Nat.toDigits_ne_nil : Nat.toDigits 10 n.natAbs ≠ [])
  have hc : c.isDigit = true := isDigit_of_mem_toDigits (hdigits ▸ List.mem_cons_self ..)
  rw [hsize, hdigits, List.cons_append] at hread
  have hvalue := value_signed room fuel (decide (n < 0)) hc hread
  simp only [decide_eq_true_eq] at hvalue
  rw [write, writeInt, hdigits, List.append_assoc, List.cons_append]
  exact hvalue

/-- A number with a fraction is read as one. -/
theorem exists_value_real (x : Number.Binary64) :
    ∃ y, ∀ room fuel rest, (Value.real x).FitsIn room → IsNumberEnd rest →
      value room (fuel + 1) (write (.real x) ++ rest) = .ok (.real y, rest) := by
  cases x with
  | nan => exact ⟨.nan, fun _ _ rest hroom _ => calling_of_holds hroom.real (.ok (_, rest))⟩
  | infinite negative =>
    cases negative with
    | true =>
      exact ⟨.infinite true, fun _ _ rest hroom _ => calling_of_holds hroom.real (.ok (_, rest))⟩
    | false =>
      exact ⟨.infinite false, fun _ _ rest hroom _ => calling_of_holds hroom.real (.ok (_, rest))⟩
  | finite negative significand exponent =>
    have htext := isReal_text (Number.shortest significand exponent)
    obtain ⟨c, digits, hdigits, hc⟩ := htext.exists_digit
    obtain ⟨y, hread⟩ := htext.exists_unsignedNumber? negative
    rw [hdigits] at hread
    refine ⟨y, fun room fuel rest _ hrest => ?_⟩
    rw [write, Number.Binary64.text, hdigits, List.append_assoc, List.cons_append]
    exact value_signed room fuel negative hc (hread rest hrest)

end Scalar

/-! ### Arrays -/

theorem isNumberEnd_cons {c : Char} (h : c ∈ [',', ']', '\x7d']) (rest : List Char) :
    IsNumberEnd (c :: rest) := by
  intro d hd
  cases hd
  simp only [List.mem_cons, List.not_mem_nil, or_false] at h
  rcases h with rfl | rfl | rfl <;> decide

theorem skipGap_space (rest : List Char) : skipGap (' ' :: rest) = skipGap rest :=
  rfl

theorem writeItems_cons_cons (item next : Value) (more : List Value) :
    writeItems (item :: next :: more) = write item ++ ',' :: ' ' :: writeItems (next :: more) :=
  rfl

theorem startsValue_writeItems {item : Value} (h : StartsValue (write item)) (more : List Value) :
    StartsValue (writeItems (item :: more)) := by
  cases more with
  | nil => exact h.append [']']
  | cons next more => exact h.append _

/-- The items of an array that are written one by one are read one by one. -/
theorem items_write {f : Value → Value} {items : List Value} (hne : items ≠ [])
    (hread : ∀ item ∈ items, item.IsReadAs (f item))
    (hstart : ∀ item ∈ items, StartsValue (write item)) {room : Room}
    (hroom : ∀ item ∈ items, item.FitsIn room) {fuel : Nat}
    (hfuel : (writeItems items).length ≤ fuel) (rest : List Char) :
    Json.items room fuel (writeItems items ++ rest) = .ok (items.map f, rest) := by
  induction items generalizing fuel with
  | nil => exact absurd rfl hne
  | cons item more ih =>
    have hitem := hread item (List.mem_cons_self ..) room
    have hfirst := hroom item (List.mem_cons_self ..)
    cases more with
    | nil =>
      rw [writeItems, List.length_append, List.length_singleton] at hfuel
      obtain ⟨fuel, rfl⟩ : ∃ n, fuel = n + 1 := ⟨fuel - 1, by omega⟩
      rw [writeItems, List.append_assoc, List.singleton_append, Json.items,
        hitem fuel _ hfirst (by omega) (isNumberEnd_cons (by decide) rest)]
      rfl
    | cons next more =>
      rw [writeItems_cons_cons, List.length_append, List.length_cons, List.length_cons] at hfuel
      obtain ⟨fuel, rfl⟩ : ∃ n, fuel = n + 1 := ⟨fuel - 1, by omega⟩
      have hlength : (writeItems (next :: more)).length ≤ fuel := by omega
      have hmore := ih (List.cons_ne_nil next more)
        (fun item hitem => hread item (List.mem_cons_of_mem _ hitem))
        (fun item hitem => hstart item (List.mem_cons_of_mem _ hitem))
        (fun item hitem => hroom item (List.mem_cons_of_mem _ hitem)) hlength
      have hnext : StartsValue (writeItems (next :: more) ++ rest) :=
        (startsValue_writeItems (hstart next (List.mem_cons_of_mem _ (List.mem_cons_self ..)))
          more).append rest
      rw [writeItems_cons_cons, List.append_assoc, List.cons_append, List.cons_append, Json.items,
        hitem fuel _ hfirst (by omega) (isNumberEnd_cons (by decide) _)]
      show (Json.items room fuel (skipGap (' ' :: (writeItems (next :: more) ++ rest)))).map _ = _
      rw [skipGap_space, hnext.skipGap, hmore]
      rfl

theorem isReadAs_arr {f : Value → Value} {items : List Value}
    (hread : ∀ item ∈ items, item.IsReadAs (f item))
    (hstart : ∀ item ∈ items, StartsValue (write item)) :
    (Value.arr items).IsReadAs (.arr (items.map f)) := by
  intro room fuel rest hroom hfuel _
  rw [write, List.length_cons] at hfuel
  obtain ⟨fuel, rfl⟩ : ∃ n, fuel = n + 1 := ⟨fuel - 1, by omega⟩
  obtain ⟨inner, hinner, -⟩ := hroom.1.exists_inside
  rw [write, List.cons_append, value]
  refine enter_of_ok hinner ?_
  cases items with
  | nil => rfl
  | cons item more =>
    have hlength : (writeItems (item :: more)).length ≤ fuel := by omega
    have hitems := items_write (List.cons_ne_nil item more) hread hstart (hroom.item hinner)
      hlength rest
    obtain ⟨c, text, htext, hgap, hend⟩ :=
      (startsValue_writeItems (hstart item (List.mem_cons_self ..)) more).append rest
    have hskip : skipGap (c :: text) = c :: text := by
      rw [skipGap, List.dropWhile_cons, hgap, if_neg Bool.false_ne_true]
    rw [htext] at hitems ⊢
    simp only [hskip]
    split
    · rename_i heq
      exact absurd (List.cons.inj heq).1 hend
    · rw [hitems]
      rfl

/-! ### Objects -/

theorem writeMembers_cons_cons (name : String) (item : Value) (next : String × Value)
    (more : Members) :
    writeMembers ((name, item) :: next :: more) =
      writeString name.toList ++ ':' :: ' ' :: (write item ++ ',' :: ' ' ::
        writeMembers (next :: more)) :=
  rfl

/-- What is read of the members from one of them on that is read already. -/
def pairsBehind (room : Room) (fuel : Nat) (member : String × Value) (rest : List Char) :
    Read (List (String × Value)) :=
  match skipGap rest with
  | '\x7d' :: rest => .ok ([member], rest)
  | ',' :: rest => (pairs room fuel (skipGap rest)).map fun (more, rest) => (member :: more, rest)
  | rest => malformed .noComma rest

/-- A member is read up to the character that ends it, and what follows goes by that. -/
theorem pairs_member (name : String) {item read : Value} (hread : item.IsReadAs read)
    (hstart : StartsValue (write item)) {room : Room} (hroom : item.FitsIn room) {fuel : Nat}
    (hfuel : (write item).length ≤ fuel) {rest : List Char} (hrest : IsNumberEnd rest) :
    pairs room (fuel + 1) (writeString name.toList ++ ':' :: ' ' :: (write item ++ rest)) =
      pairsBehind room fuel (name, read) rest := by
  have hitem : value room fuel (skipGap (' ' :: (write item ++ rest))) = .ok (read, rest) := by
    rw [skipGap_space, (hstart.append rest).skipGap, hread room fuel rest hroom hfuel hrest]
  have hcolon : ∀ rest, skipGap (':' :: rest) = ':' :: rest := fun _ => rfl
  rw [writeString, List.cons_append, List.cons_append, List.append_assoc, List.singleton_append,
    pairs, string_writeString]
  simp only [hcolon, hitem]
  rfl

/-- The members of an object that are written one by one are read one by one. -/
theorem pairs_write {f : Value → Value} {members : Members} (hne : members ≠ [])
    (hread : ∀ member ∈ members, member.2.IsReadAs (f member.2))
    (hstart : ∀ member ∈ members, StartsValue (write member.2)) {room : Room}
    (hroom : ∀ member ∈ members, member.2.FitsIn room) {fuel : Nat}
    (hfuel : (writeMembers members).length ≤ fuel) (rest : List Char) :
    pairs room fuel (writeMembers members ++ rest) =
      .ok (members.map fun member => (member.1, f member.2), rest) := by
  induction members generalizing fuel with
  | nil => exact absurd rfl hne
  | cons member more ih =>
    obtain ⟨name, item⟩ := member
    have hitem : item.IsReadAs (f item) := hread (name, item) (List.mem_cons_self ..)
    have hvalue : StartsValue (write item) := hstart (name, item) (List.mem_cons_self ..)
    have hfirst : item.FitsIn room := hroom (name, item) (List.mem_cons_self ..)
    cases more with
    | nil =>
      rw [writeMembers, List.length_append, List.length_cons, List.length_cons,
        List.length_append] at hfuel
      obtain ⟨fuel, rfl⟩ : ∃ n, fuel = n + 1 := ⟨fuel - 1, by omega⟩
      rw [writeMembers, List.append_assoc, List.cons_append, List.cons_append, List.append_assoc,
        List.singleton_append, pairs_member name hitem hvalue hfirst (by omega)
          (isNumberEnd_cons (by decide) rest)]
      rfl
    | cons next more =>
      rw [writeMembers_cons_cons, List.length_append, List.length_cons, List.length_cons,
        List.length_append, List.length_cons, List.length_cons] at hfuel
      obtain ⟨fuel, rfl⟩ : ∃ n, fuel = n + 1 := ⟨fuel - 1, by omega⟩
      have hlength : (writeMembers (next :: more)).length ≤ fuel := by omega
      have hmore := ih (List.cons_ne_nil next more)
        (fun member hmember => hread member (List.mem_cons_of_mem _ hmember))
        (fun member hmember => hstart member (List.mem_cons_of_mem _ hmember))
        (fun member hmember => hroom member (List.mem_cons_of_mem _ hmember)) hlength
      have hquote : skipGap (' ' :: (writeMembers (next :: more) ++ rest)) =
          writeMembers (next :: more) ++ rest := by
        cases more with
        | nil => rfl
        | cons _ _ => rfl
      rw [writeMembers_cons_cons, List.append_assoc, List.cons_append, List.cons_append,
        List.append_assoc, List.cons_append, List.cons_append, pairs_member name hitem hvalue hfirst
          (by omega) (isNumberEnd_cons (by decide) _)]
      show (pairs room fuel (skipGap (' ' :: (writeMembers (next :: more) ++ rest)))).map _ = _
      rw [hquote, hmore]
      rfl

theorem Members.put_of_not_mem {name : String} {members : Members}
    (h : name ∉ members.map Prod.fst) (item : Value) :
    members.put name item = members ++ [(name, item)] := by
  induction members with
  | nil => rfl
  | cons member members ih =>
    rw [List.map_cons, List.mem_cons, not_or] at h
    rw [Members.put, if_neg (Ne.symm h.1), ih h.2]
    rfl

theorem Members.foldl_put {before members : Members}
    (h : ((before ++ members).map Prod.fst).Nodup) :
    members.foldl (fun members (name, value) => put name value members) before =
      before ++ members := by
  induction members generalizing before with
  | nil => rw [List.foldl_nil, List.append_nil]
  | cons member members ih =>
    rw [List.append_cons] at h ⊢
    have hnew : member.1 ∉ before.map Prod.fst := by
      intro hmem
      rw [List.map_append, List.map_append, List.nodup_append, List.nodup_append] at h
      exact h.1.2.2 _ hmem _ (List.mem_singleton_self _) rfl
    rw [List.foldl_cons]
    show List.foldl _ (put member.1 member.2 before) members = _
    rw [Members.put_of_not_mem hnew]
    exact ih h

/-- Members whose names are all different are kept as they are. -/
theorem Members.ofList_eq_self {members : Members} (h : (members.map Prod.fst).Nodup) :
    Members.ofList members = members :=
  foldl_put h

theorem isReadAs_obj {f : Value → Value} {members : Members}
    (hnames : (members.map Prod.fst).Nodup)
    (hread : ∀ member ∈ members, member.2.IsReadAs (f member.2))
    (hstart : ∀ member ∈ members, StartsValue (write member.2)) :
    (Value.obj members).IsReadAs (.obj (members.map fun member => (member.1, f member.2))) := by
  intro room fuel rest hroom hfuel _
  rw [write, List.length_cons] at hfuel
  obtain ⟨fuel, rfl⟩ : ∃ n, fuel = n + 1 := ⟨fuel - 1, by omega⟩
  obtain ⟨inner, hinner, -⟩ := hroom.1.exists_inside
  rw [write, List.cons_append, value]
  refine enter_of_ok hinner ?_
  cases members with
  | nil => rfl
  | cons member more =>
    have hlength : (writeMembers (member :: more)).length ≤ fuel := by omega
    have hpairs := pairs_write (List.cons_ne_nil member more) hread hstart (hroom.member hinner)
      hlength rest
    have hquote : ∃ text, writeMembers (member :: more) = '"' :: text := by
      cases more with
      | nil => exact ⟨_, rfl⟩
      | cons _ _ => exact ⟨_, rfl⟩
    have hkept : (((member :: more).map fun member => (member.1, f member.2)).map
        Prod.fst).Nodup := by
      rw [List.map_map]
      exact hnames
    obtain ⟨text, htext⟩ := hquote
    rw [htext, List.cons_append] at hpairs ⊢
    show (pairs inner fuel ('"' :: (text ++ rest))).map _ = _
    rw [hpairs]
    show Except.ok (Value.obj (Members.ofList _), rest) = _
    rw [Members.ofList_eq_self hkept]

/-! ### All values -/

/-- Every value takes a character, so one step can be taken off. -/
theorem Value.IsProper.isReadAs {v w : Value} (h : v.IsProper)
    (hread : ∀ room fuel rest, v.FitsIn room → IsNumberEnd rest →
      value room (fuel + 1) (write v ++ rest) = .ok (w, rest)) :
    v.IsReadAs w := by
  intro room fuel rest hroom hfuel hrest
  obtain ⟨c, text, htext, -⟩ := h.startsValue
  rw [htext, List.length_cons] at hfuel
  obtain ⟨fuel, rfl⟩ : ∃ n, fuel = n + 1 := ⟨fuel - 1, by omega⟩
  exact hread room fuel rest hroom hrest

/-- **A value is read as it was written**, in front of anything that ends a number. -/
theorem Value.IsExact.isReadAs {v : Value} (h : v.IsExact) : v.IsReadAs v := by
  induction h with
  | null => exact IsProper.null.isReadAs fun room fuel rest _ _ => value_null room fuel rest
  | bool b => exact (IsProper.bool b).isReadAs fun room fuel rest _ _ => value_bool room fuel b rest
  | int n h => exact (IsProper.int n h).isReadAs fun room fuel _ _ hrest => value_int room fuel h hrest
  | str text =>
    exact (IsProper.str text).isReadAs fun room fuel rest _ _ => value_str room fuel text rest
  | arr items h ih =>
    have harr := isReadAs_arr (f := id) ih fun item hitem => (h item hitem).isProper.startsValue
    rwa [List.map_id] at harr
  | obj members hnames h ih =>
    have hobj := isReadAs_obj (f := id) hnames ih fun member hmember =>
      (h member hmember).isProper.startsValue
    have hsame : (fun member : String × Value => (member.1, id member.2)) = id := rfl
    rwa [hsame, List.map_id] at hobj

/-- The value is an object. -/
def Value.isObject : Value → Bool
  | .obj _ => true
  | _ => false

/-- **A proper value is read again**, and an object as an object. Only its fractions may come back
different. -/
theorem Value.IsProper.exists_isReadAs {v : Value} (h : v.IsProper) :
    ∃ w, v.IsReadAs w ∧ w.isObject = v.isObject := by
  induction h with
  | null => exact ⟨.null, IsExact.null.isReadAs, rfl⟩
  | bool b => exact ⟨.bool b, (IsExact.bool b).isReadAs, rfl⟩
  | int n h => exact ⟨.int n, (IsExact.int n h).isReadAs, rfl⟩
  | real x =>
    obtain ⟨y, hy⟩ := exists_value_real x
    exact ⟨.real y, (IsProper.real x).isReadAs hy, rfl⟩
  | str text => exact ⟨.str text, (IsExact.str text).isReadAs, rfl⟩
  | arr items h ih =>
    have hall : ∀ item, ∃ w, item ∈ items → item.IsReadAs w := by
      intro item
      by_cases hmem : item ∈ items
      · obtain ⟨w, hw, -⟩ := ih item hmem
        exact ⟨w, fun _ => hw⟩
      · exact ⟨item, fun h => absurd h hmem⟩
    choose f hf using hall
    exact ⟨_, isReadAs_arr hf fun item hitem => (h item hitem).startsValue, rfl⟩
  | obj members hnames h ih =>
    have hall : ∀ item, ∃ w, (∃ name, (name, item) ∈ members) → item.IsReadAs w := by
      intro item
      by_cases hmem : ∃ name, (name, item) ∈ members
      · obtain ⟨name, hname⟩ := hmem
        obtain ⟨w, hw, -⟩ := ih (name, item) hname
        exact ⟨w, fun _ => hw⟩
      · exact ⟨item, fun h => absurd h hmem⟩
    choose f hf using hall
    exact ⟨_, isReadAs_obj hnames (fun member hmember => hf member.2 ⟨member.1, hmember⟩)
      fun member hmember => (h member hmember).startsValue, rfl⟩

/-! ### One line of ASCII -/

theorem isVisible_of_isDigit {c : Char} (h : c.isDigit = true) : IsVisible c := by
  simp only [Char.isDigit, Bool.and_eq_true, decide_eq_true_eq, UInt32.le_iff_toNat_le] at h
  exact ⟨Nat.le_trans (by decide) h.1, Nat.lt_of_le_of_lt h.2 (by decide)⟩

theorem isVisible_of_all {text : List Char}
    (h : text.all (fun c => decide (IsVisible c)) = true) : ∀ c ∈ text, IsVisible c := by
  intro c hc
  exact of_decide_eq_true (List.all_eq_true.1 h c hc)

theorem isVisible_of_mem_writeItems {items : List Value}
    (h : ∀ item ∈ items, ∀ c ∈ write item, IsVisible c) : ∀ c ∈ writeItems items, IsVisible c := by
  induction items with
  | nil => exact isVisible_of_all rfl
  | cons item more ih =>
    have hitem := h item (List.mem_cons_self ..)
    intro c hc
    cases more with
    | nil =>
      rcases List.mem_append.1 hc with hc | hc
      · exact hitem c hc
      · exact isVisible_of_all rfl c hc
    | cons next more =>
      rw [writeItems_cons_cons, List.mem_append, List.mem_cons, List.mem_cons] at hc
      rcases hc with hc | rfl | rfl | hc
      · exact hitem c hc
      · decide
      · decide
      · exact ih (fun item hitem => h item (List.mem_cons_of_mem _ hitem)) c hc

theorem isVisible_of_mem_writeMembers {members : Members}
    (h : ∀ member ∈ members, ∀ c ∈ write member.2, IsVisible c) :
    ∀ c ∈ writeMembers members, IsVisible c := by
  induction members with
  | nil => exact isVisible_of_all rfl
  | cons member more ih =>
    obtain ⟨name, item⟩ := member
    have hitem : ∀ c ∈ write item, IsVisible c := h (name, item) (List.mem_cons_self ..)
    intro c hc
    cases more with
    | nil =>
      rw [writeMembers, List.mem_append, List.mem_cons, List.mem_cons, List.mem_append] at hc
      rcases hc with hc | rfl | rfl | hc | hc
      · exact isVisible_of_mem_writeString hc
      · decide
      · decide
      · exact hitem c hc
      · exact isVisible_of_all rfl c hc
    | cons next more =>
      rw [writeMembers_cons_cons, List.mem_append, List.mem_cons, List.mem_cons, List.mem_append,
        List.mem_cons, List.mem_cons] at hc
      rcases hc with hc | rfl | rfl | hc | rfl | rfl | hc
      · exact isVisible_of_mem_writeString hc
      · decide
      · decide
      · exact hitem c hc
      · decide
      · decide
      · exact ih (fun member hmember => h member (List.mem_cons_of_mem _ hmember)) c hc

theorem isVisible_of_mem_isReal {text : List Char} (h : IsReal text) :
    ∀ c ∈ text, IsVisible c := by
  obtain @⟨whole, fraction, power, hwhole, hfraction, hpower, -⟩ := h
  intro c hc
  rcases List.mem_append.1 hc with hc | hc
  · exact isVisible_of_isDigit (hwhole.isDigit c hc)
  rcases List.mem_append.1 hc with hc | hc
  · rcases hfraction with rfl | ⟨digits, rfl, -, hd⟩
    · cases hc
    · rcases List.mem_cons.1 hc with rfl | hc
      · decide
      · exact isVisible_of_isDigit (hd c hc)
  · rcases hpower with rfl | ⟨sign, digits, rfl, hsign, -, hd⟩
    · cases hc
    · rw [List.mem_cons, List.mem_cons] at hc
      rcases hc with rfl | rfl | hc
      · decide
      · rcases hsign with rfl | rfl
        · decide
        · decide
      · exact isVisible_of_isDigit (hd c hc)

theorem isVisible_of_mem_sign {negative : Bool} {c : Char}
    (h : c ∈ if negative then ['-'] else []) : IsVisible c := by
  split at h
  · exact isVisible_of_all rfl c h
  · cases h

/-- **A value is written on one line of ASCII**, whatever characters are in its strings. -/
theorem Value.IsProper.isVisible {v : Value} (h : v.IsProper) : ∀ c ∈ write v, IsVisible c := by
  induction h with
  | null => exact isVisible_of_all rfl
  | bool b =>
    cases b with
    | true => exact isVisible_of_all rfl
    | false => exact isVisible_of_all rfl
  | int n h =>
    intro c hc
    rw [write, writeInt] at hc
    rcases List.mem_append.1 hc with hc | hc
    · split at hc
      · exact isVisible_of_all rfl c hc
      · cases hc
    · exact isVisible_of_isDigit (isDigit_of_mem_toDigits hc)
  | real x =>
    cases x with
    | nan => exact isVisible_of_all rfl
    | infinite negative =>
      cases negative with
      | true => exact isVisible_of_all rfl
      | false => exact isVisible_of_all rfl
    | finite negative significand exponent =>
      intro c hc
      rcases List.mem_append.1 hc with hc | hc
      · exact isVisible_of_mem_sign hc
      · exact isVisible_of_mem_isReal (isReal_text _) c hc
  | str text => exact fun c => isVisible_of_mem_writeString
  | arr items h ih =>
    intro c hc
    rcases List.mem_cons.1 hc with rfl | hc
    · decide
    · exact isVisible_of_mem_writeItems ih c hc
  | obj members hnames h ih =>
    intro c hc
    rcases List.mem_cons.1 hc with rfl | hc
    · decide
    · exact isVisible_of_mem_writeMembers ih c hc

theorem Value.IsReadAs.readWithin_write {v w : Value} (h : v.IsReadAs w) (hv : v.IsProper)
    {room : Room} (hroom : v.FitsIn room) : readWithin room (write v) = .ok w := by
  have hvalue : value room (enoughFuel (write v)) (write v) = .ok (w, []) := by
    have hread := h room (enoughFuel (write v)) [] hroom (by rw [enoughFuel]; omega)
      isNumberEnd_nil
    rwa [List.append_nil] at hread
  unfold readWithin
  split
  · rename_i heq
    have hmark := hv.isVisible '\uFEFF' (heq ▸ List.mem_cons_self ..)
    exact absurd hmark (by decide)
  · rw [hv.startsValue.skipGap, hvalue]
    rfl

theorem Value.IsReadAs.read_write {v w : Value} (h : v.IsReadAs w) (hv : v.IsProper) :
    read (write v) = .ok w :=
  h.readWithin_write hv v.fitsIn_none

/-- **Reading a text gives the value that it was written for,** if there is room for it. -/
theorem readWithin_write {v : Value} (h : v.IsExact) {room : Room} (hroom : room.Holds v.depth) :
    readWithin room (write v) = .ok v :=
  h.isReadAs.readWithin_write h.isProper (h.fitsIn hroom)

theorem read_write {v : Value} (h : v.IsExact) : read (write v) = .ok v :=
  h.isReadAs.read_write h.isProper

end CompactShell.Json
