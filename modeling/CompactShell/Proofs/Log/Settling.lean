import CompactShell.Proofs.Log.Kinds
import Mathlib.Data.List.Infix

/-!
# Replacing settles each kind

Replacing the secrets of a kind leaves a text that is settled for it. For a name, a header or a
scheme that is left over behind the replacing there was one before it at the same place, and what
stood behind it then started a secret as well; so it was replaced. Nothing starts inside what leads
to a secret: no name stands inside another one, no part of the name of a header but the whole of it
is its start (`name_unbordered`), and a scheme has one letter that it starts with.

For four kinds the text is steady. A quoted header is different: the quote that closes it may open
another one, which replacing does not come to.
-/

namespace CompactShell.Log

open Text

/-! ## Assignments -/

section Assigned

variable {before : Option Char} {name : List Char}

theorem ne_nil_of_keyword
    (h : (keywords.any fun word => holds word (name.map fold)) = true) : name ≠ [] := by
  intro hnil
  rw [hnil] at h
  revert h
  decide

/-- Whatever is assigned to such a name is a secret, up to white space. -/
theorem exists_assignedSpot (houtside : insideWord before = false)
    (hname : ∀ c ∈ name, isKeyChar c = true)
    (hkeyword : (keywords.any fun word => holds word (name.map fold)) = true) {b : List Char}
    (hb : b.head?.any (!isSpace ·) = true) :
    ∃ value rest, b = value ++ rest ∧ AssignedSpot before ⟨name ++ ['='], value, mark, []⟩ rest := by
  obtain ⟨value, rest, rfl, hvalue, hrest, -, -⟩ := exists_run (!isSpace ·) b
  simp only [Bool.not_eq_true'] at hvalue
  simp only [Bool.not_eq_false'] at hrest
  refine ⟨value, rest, rfl, .intro houtside hname hkeyword ?_ hvalue hrest⟩
  rintro rfl
  rw [List.nil_append] at hb
  obtain ⟨c, hc, hsolid⟩ := (Option.any_eq_true _ _).1 hb
  rw [hrest c hc] at hsolid
  cases hsolid

theorem AssignedSpot.insideWord_eq {spot : Spot} {rest : List Char}
    (h : AssignedSpot before spot rest) : insideWord before = false := by
  cases h
  assumption

theorem AssignedSpot.ends_head? {spot : Spot} {rest : List Char}
    (h : AssignedSpot before spot rest) : ∀ c ∈ rest.head?, (!isSpace c) = false := by
  cases h
  simpa only [Bool.not_eq_false']

theorem AssignedSpot.lead_ne_nil {before : Option Char} {spot : Spot} {rest : List Char}
    (h : AssignedSpot before spot rest) : spot.lead ≠ [] := by
  cases h
  exact List.append_ne_nil_of_right_ne_nil _ (List.cons_ne_nil _ _)

theorem AssignedSpot.insideWord_head? {spot : Spot} {rest : List Char}
    (h : AssignedSpot before spot rest) : insideWord (spot.text ++ rest).head? = true := by
  obtain ⟨-, hname, hkeyword, -, -, -⟩ := h
  rename_i name value
  rw [Spot.text_append, List.append_assoc,
    List.head?_append_of_ne_nil _ (ne_nil_of_keyword hkeyword)]
  cases name with
  | nil => exact absurd rfl (ne_nil_of_keyword hkeyword)
  | cons c name => exact isWordChar_of_isKeyChar (hname c List.mem_cons_self)

/-- What is assigned behind the replacing was assigned before it. -/
theorem exists_assignedSpot_of_replaced {before' : Option Char} {c : Char}
    {text text' rest : List Char} {spot : Spot} (hagree : Agree before before' (c :: text))
    (h : Replaced AssignedSpot (some c) text text') (htext : c :: text' = spot.text ++ rest)
    (hspot : AssignedSpot before' spot rest) :
    ∃ spot rest, c :: text = spot.text ++ rest ∧ AssignedSpot before spot rest := by
  have hword := hspot.insideWord_head?
  rw [← htext] at hword
  have hbefore := (hagree.eq_of_word hword).trans hspot.insideWord_eq
  obtain ⟨-, hname, hkeyword, hne, hvalue, -⟩ := hspot
  rename_i name value
  have hmarked : Marked AssignedSpot.erases before (c :: text) (c :: text') :=
    .keep (describes_assigned.marked h)
  rw [htext, Spot.text_append_of_open] at hmarked
  obtain ⟨b, hb, hmarked⟩ := hmarked.front (isForeign_assigned hname).not_mem_start
  have hhead : b.head?.any (!isSpace ·) = true := by
    refine hmarked.head ?_ (any_head? hne (by simpa only [Bool.not_eq_true'] using hvalue) _)
    rintro _ _ _ ⟨front, spot, behind, ⟨-, -, -, -, hsolid, -⟩, -, rfl, -, -⟩
    exact all_head? (by simpa only [Bool.not_eq_true'] using hsolid)
  obtain ⟨value', rest', rfl, hspot'⟩ := exists_assignedSpot hbefore hname hkeyword hhead
  exact ⟨_, rest', by rw [hb, Spot.text_append_of_open], hspot'⟩

/-- A name does not start inside another one. -/
theorem calm_assigned_lead {before' : Option Char} {spot : Spot} {rest rest' : List Char}
    (hagree : Agree before before' (spot.text ++ rest)) (hspot : AssignedSpot before spot rest)
    (h : Replaced AssignedSpot (lastOr before spot.text) rest rest') (front back : List Char)
    (hlead : spot.lead = front ++ back) (hne : back ≠ []) :
    Calm AssignedSpot (lastOr before' front) (back ++ (spot.shown ++ (spot.close ++ rest'))) := by
  have hbefore := hagree.eq_of_word hspot.insideWord_head?
  rw [hspot.insideWord_eq] at hbefore
  have hrest' := h.head?_eq AssignedSpot.lead_ne_nil
  obtain ⟨-, hname, hkeyword, -, -, hrest⟩ := hspot
  rename_i name value
  rcases List.eq_nil_or_concat front with rfl | ⟨init, c, rfl⟩
  · rw [← hrest'] at hrest
    have hspot : AssignedSpot before' ⟨name ++ ['='], mark, mark, []⟩ rest' :=
      .intro hbefore.symm hname hkeyword (by decide) (by decide) hrest
    rw [List.nil_append] at hlead
    rw [← hlead]
    exact describes_assigned.calm_marked hspot
  · intro spot' rest'' htext hspot'
    rw [List.concat_eq_append] at hlead hspot'
    have hword : insideWord (some c) = true :=
      isWordChar_of_isKeyChar (hname c (mem_of_append_concat hlead hne c (by simp)))
    have hout := hspot'.insideWord_eq
    rw [lastOr_concat, hword] at hout
    cases hout

/-- **Replacing what is assigned to such names settles a text.** -/
theorem steady_assigned {before' : Option Char} {text text' : List Char}
    (h : Replaced AssignedSpot before text text') (hagree : Agree before before' text) :
    Steady AssignedSpot before' text' := by
  refine describes_assigned.steady exists_assignedSpot_of_replaced calm_assigned_lead ?_ h hagree
  intro before spot rest hspot front back hclose hne
  cases hspot
  exact absurd (List.append_eq_nil_iff.1 hclose.symm).2 hne

end Assigned

/-! ## Headers -/

section Headers

variable {before : Option Char} {header after : List Char}

theorem not_mem_markLetters_of_isQuote {c : Char} (h : isQuote c = true) : c ∉ markLetters := by
  have hplain : ∀ d ∈ markLetters, isQuote d = false := by decide
  intro hc
  rw [hplain c hc] at h
  cases h

theorem not_isSpace_of_fold {c : Char} (h : (fold c).isAlphanum = true) : isSpace c = false := by
  by_contra hspace
  rw [Bool.not_eq_false] at hspace
  have hkey := isKeyChar_of_isSpace hspace
  rw [isKeyChar, h] at hkey
  cases hkey

/-- No part of the name of a header but the whole of it is a start of the name. -/
theorem name_unbordered : ∀ part ∈ "authorization".toList.tails,
    part <+: "authorization".toList → part = [] ∨ part = "authorization".toList := by
  decide

/-- So the rest of a name is the start of none. -/
theorem eq_nil_of_name {word word' front part : List Char}
    (hfold : word.map fold = "authorization".toList)
    (hfold' : word'.map fold = "authorization".toList) (hword : word = front ++ part)
    (hfront : front ≠ []) (hpart : part <+: word') : part = [] := by
  have hsuffix : part.map fold <:+ "authorization".toList := by
    rw [← hfold, hword, List.map_append]
    exact List.suffix_append _ _
  have hprefix : part.map fold <+: "authorization".toList := by
    rw [← hfold']
    exact hpart.map fold
  rcases name_unbordered _ ((List.mem_tails _ _).2 hsuffix) hprefix with hnil | hwhole
  · exact List.map_eq_nil_iff.1 hnil
  · have hlength := congrArg List.length (hwhole.trans hfold.symm)
    rw [List.length_map, List.length_map, hword, List.length_append] at hlength
    exact absurd (List.eq_nil_of_length_eq_zero (by omega)) hfront

/-- Behind the name of a header there is no letter that it could start with. -/
theorem fold_ne_of_gap {gap : List Char} (hgap : ∀ c ∈ gap, isSpace c = true)
    (hafter : ∀ c ∈ after, isSpace c = true) : ∀ c ∈ gap ++ ([':'] ++ after), fold c ≠ 'a' := by
  intro c hc hletter
  have hsolid : isSpace c = false := not_isSpace_of_fold (by rw [hletter]; decide)
  simp only [List.mem_append, List.mem_singleton] at hc
  rcases hc with hc | rfl | hc
  · rw [hgap c hc] at hsolid
    cases hsolid
  · revert hletter
    decide
  · rw [hafter c hc] at hsolid
    cases hsolid

/-- **A header does not start inside another one** or inside the white space behind it. -/
theorem IsHeader.not_inside {header' front back rest rest' : List Char} (h : IsHeader header)
    (h' : IsHeader header') (hafter : ∀ c ∈ after, isSpace c = true)
    (hsplit : header ++ after = front ++ back) (hfront : front ≠ []) (hback : back ≠ []) :
    back ++ rest ≠ header' ++ rest' := by
  obtain ⟨word, gap, rfl, hfold, hgap⟩ := h
  obtain ⟨word', gap', rfl, hfold', -⟩ := h'
  intro hsame
  have hstart : ∀ c ∈ back.head?, fold c = 'a' := by
    intro c hc
    rw [← List.head?_append_of_ne_nil _ hback, hsame] at hc
    cases word' with
    | nil => cases hfold'
    | cons d word' =>
      cases hc
      exact (List.cons.inj hfold').1
  have hinside : ∀ part, part ++ back = gap ++ ([':'] ++ after) → False := by
    intro part hpart
    cases back with
    | nil => exact hback rfl
    | cons c back =>
      have hin : c ∈ gap ++ ([':'] ++ after) :=
        hpart ▸ List.mem_append_right _ List.mem_cons_self
      exact fold_ne_of_gap hgap hafter c hin (hstart c rfl)
  rw [List.append_assoc, List.append_assoc] at hsplit
  -- the second header starts behind the first name or in the middle of it
  rcases List.append_eq_append_iff.1 hsplit with ⟨k, -, hk⟩ | ⟨k, hk, hback'⟩
  · exact hinside k hk.symm
  · by_cases hnil : k = []
    · rw [hnil, List.nil_append] at hback'
      exact hinside [] hback'
    · have hlength : k.length ≤ word'.length := by
        have hsum := congrArg List.length hk
        have hwhole : word.length = word'.length := by
          rw [← List.length_map fold, hfold, ← hfold', List.length_map]
        rw [List.length_append] at hsum
        omega
      have hpart : k <+: back ++ rest := by
        rw [hback', List.append_assoc]
        exact List.prefix_append _ _
      have hname : word' <+: back ++ rest := by
        rw [hsame, List.append_assoc, List.append_assoc]
        exact List.prefix_append _ _
      have hprefix : k <+: word' := List.prefix_of_prefix_length_le hpart hname hlength
      exact hnil (eq_nil_of_name hfold hfold' hk hfront hprefix)

theorem BareSpot.ends_head? {spot : Spot} {rest : List Char} (h : BareSpot before spot rest) :
    ∀ c ∈ rest.head?, (!isSpace c && !isQuote c) = false := by
  cases h
  assumption

theorem BareSpot.lead_ne_nil {spot : Spot} {rest : List Char} (h : BareSpot before spot rest) :
    spot.lead ≠ [] := by
  obtain ⟨⟨word, gap, rfl, -, -⟩, -, -, -, -⟩ := h
  simp

/-- Whatever stands behind a header is its value, up to white space or a quote. -/
theorem exists_bareSpot (hheader : IsHeader header) (hafter : ∀ c ∈ after, isSpace c = true)
    {b : List Char} (hb : b.head?.any (fun c => !isSpace c && !isQuote c) = true)
    (before : Option Char) :
    ∃ value rest, b = value ++ rest ∧ BareSpot before ⟨header ++ after, value, mark, []⟩ rest := by
  obtain ⟨value, rest, rfl, hvalue, hrest, -, -⟩ :=
    exists_run (fun c => !isSpace c && !isQuote c) b
  refine ⟨value, rest, rfl, .intro hheader hafter ?_ hvalue hrest⟩
  rintro rfl
  rw [List.nil_append] at hb
  obtain ⟨c, hc, hsolid⟩ := (Option.any_eq_true _ _).1 hb
  rw [hrest c hc] at hsolid
  cases hsolid

/-- What stands behind a header behind the replacing stood there before it. -/
theorem exists_bareSpot_of_replaced {before' : Option Char} {c : Char}
    {text text' rest : List Char} {spot : Spot} (_hagree : Agree before before' (c :: text))
    (h : Replaced BareSpot (some c) text text') (htext : c :: text' = spot.text ++ rest)
    (hspot : BareSpot before' spot rest) :
    ∃ spot rest, c :: text = spot.text ++ rest ∧ BareSpot before spot rest := by
  obtain ⟨hheader, hafter, hne, hvalue, -⟩ := hspot
  rename_i header after value
  have hmarked : Marked BareSpot.erases before (c :: text) (c :: text') :=
    .keep (describes_bare.marked h)
  rw [htext, Spot.text_append_of_open] at hmarked
  have hforeign := hheader.isForeign.append_right (ends_of_isSpace hafter)
  obtain ⟨b, hb, hmarked⟩ := hmarked.front hforeign.not_mem_start
  have hhead : b.head?.any (fun c => !isSpace c && !isQuote c) = true := by
    refine hmarked.head ?_ (any_head? hne hvalue _)
    rintro _ _ _ ⟨front, spot, behind, ⟨-, -, -, hsolid, -⟩, -, rfl, -, -⟩
    exact all_head? hsolid
  obtain ⟨value', rest', rfl, hspot'⟩ := exists_bareSpot hheader hafter hhead before
  exact ⟨_, rest', by rw [hb, Spot.text_append_of_open], hspot'⟩

/-- What leads to the value of a header holds no other header. -/
theorem calm_bare_lead {before' : Option Char} {spot : Spot} {rest rest' : List Char}
    (_hagree : Agree before before' (spot.text ++ rest)) (hspot : BareSpot before spot rest)
    (h : Replaced BareSpot (lastOr before spot.text) rest rest') (front back : List Char)
    (hlead : spot.lead = front ++ back) (hne : back ≠ []) :
    Calm BareSpot (lastOr before' front) (back ++ (spot.shown ++ (spot.close ++ rest'))) := by
  have hrest' := h.head?_eq BareSpot.lead_ne_nil
  obtain ⟨hheader, hafter, -, -, hrest⟩ := hspot
  rename_i header after value
  by_cases hfront : front = []
  · rw [← hrest'] at hrest
    have hspot : BareSpot before' ⟨header ++ after, mark, mark, []⟩ rest' :=
      .intro hheader hafter (by decide) (by decide) hrest
    rw [hfront, List.nil_append] at hlead
    rw [hfront, ← hlead]
    exact describes_bare.calm_marked hspot
  · intro spot' rest'' htext hspot'
    obtain ⟨hheader', -, -, -, -⟩ := hspot'
    rw [Spot.text_append, List.append_assoc] at htext
    exact absurd htext (hheader.not_inside hheader' hafter hlead hfront hne)

/-- **Replacing what stands behind headers settles a text.** -/
theorem steady_bare {before' : Option Char} {text text' : List Char}
    (h : Replaced BareSpot before text text') (hagree : Agree before before' text) :
    Steady BareSpot before' text' := by
  refine describes_bare.steady exists_bareSpot_of_replaced calm_bare_lead ?_ h hagree
  intro before spot rest hspot front back hclose hne
  cases hspot
  exact absurd (List.append_eq_nil_iff.1 hclose.symm).2 hne

/-- What stands up to a quote is white space and a value, and the last of it is the value if there
is nothing but white space. -/
theorem exists_quotedValue {text : List Char} (hne : text ≠ []) :
    ∃ after value, text = after ++ value ∧ (∀ c ∈ after, isSpace c = true) ∧ value ≠ [] ∧
      ∀ c ∈ value.head?, isSpace c = true → value = [c] := by
  obtain ⟨after, value, rfl, hafter, hvalue, -, -⟩ := exists_run isSpace text
  by_cases hnil : value = []
  · rw [hnil, List.append_nil] at hne ⊢
    rcases List.eq_nil_or_concat after with rfl | ⟨after, c, rfl⟩
    · exact absurd rfl hne
    · rw [List.concat_eq_append] at hafter ⊢
      refine ⟨after, [c], rfl, fun d hd => hafter d (List.mem_append_left _ hd),
        List.cons_ne_nil _ _, ?_⟩
      rintro d ⟨⟩ -
      rfl
  · refine ⟨after, value, rfl, hafter, hnil, ?_⟩
    intro c hc hspace
    rw [hvalue c hc] at hspace
    cases hspace

/-- Whatever stands between a header and a quote is its value, if a quote stands in front of the
header. -/
theorem exists_quotedSpot {quote : Char} {gap b : List Char} (hquote : isQuote quote = true)
    (hgap : ∀ c ∈ gap, isSpace c = true) (hheader : IsHeader header)
    (hb : b.head?.any (!isQuote ·) = true) {closing : Char} (hclosing : isQuote closing = true)
    (hin : closing ∈ b) (before : Option Char) :
    ∃ spot rest, quote :: gap ++ header ++ b = spot.text ++ rest ∧ QuotedSpot before spot rest := by
  obtain ⟨inner, tail, rfl, hinner, htail, -, -⟩ := exists_run (!isQuote ·) b
  simp only [Bool.not_eq_true'] at hinner
  cases tail with
  | nil =>
    rw [List.append_nil] at hin
    rw [hinner closing hin] at hclosing
    cases hclosing
  | cons close rest =>
    have hclose := htail close rfl
    rw [Bool.not_eq_false'] at hclose
    have hne : inner ≠ [] := by
      rintro rfl
      have hopen : (!isQuote close) = true := hb
      rw [hclose] at hopen
      cases hopen
    obtain ⟨after, value, rfl, hafter, hvalue, hstart⟩ := exists_quotedValue hne
    refine ⟨⟨quote :: gap ++ header ++ after, value, mark, [close]⟩, rest, by simp [Spot.text],
      .intro hquote hgap hheader hafter hvalue ?_ hstart hclose⟩
    intro c hc
    exact hinner c (List.mem_append_right _ hc)

/-- What stands around a quoted header makes no difference. -/
theorem QuotedSpot.anywhere {spot : Spot} {rest : List Char} (h : QuotedSpot before spot rest)
    (before' : Option Char) (rest' : List Char) : QuotedSpot before' spot rest' := by
  obtain ⟨hquote, hgap, hheader, hafter, hne, hvalue, hstart, hclosing⟩ := h
  exact .intro hquote hgap hheader hafter hne hvalue hstart hclosing

theorem IsHeader.lastOr (h : IsHeader header) (before : Option Char) (front : List Char) :
    lastOr before (front ++ header) = some ':' := by
  obtain ⟨word, gap, rfl, -, -⟩ := h
  rw [← List.append_assoc, lastOr_concat]

/-- **Where a quoted header stands behind the replacing, one stood before it**, whatever has become
of its value. -/
theorem exists_quotedSpot_of_marked {erases : Erasure}
    (hhead : ∀ secret shown rest, erases (some ':') secret shown rest →
      secret.head?.all (!isQuote ·) = true)
    {c : Char} {text text' rest : List Char} {spot : Spot} (h : Marked erases (some c) text text')
    (htext : c :: text' = spot.text ++ rest) (hspot : QuotedSpot before spot rest) :
    ∃ spot rest, c :: text = spot.text ++ rest ∧ QuotedSpot before spot rest := by
  obtain ⟨hquote, hgap, hheader, hafter, hne, hvalue, hstart, hclosing⟩ := hspot
  rename_i quote closing gap header after value
  have hmarked : Marked erases before (c :: text) (c :: text') := .keep h
  have hbehind : Spot.text ⟨quote :: gap ++ header ++ after, value, mark, [closing]⟩ ++ rest =
      quote :: gap ++ header ++ (after ++ value ++ closing :: rest) := by
    simp [Spot.text]
  rw [htext, hbehind] at hmarked
  have hforeign := isForeign_quoted hquote hgap hheader
  obtain ⟨b, hb, hmarked⟩ := hmarked.front hforeign.not_mem_start
  have hplain : ∀ c ∈ after ++ value, (!isQuote c) = true := by
    intro c hc
    rw [Bool.not_eq_true']
    rcases List.mem_append.1 hc with hc | hc
    · exact not_isQuote_of_isSpace (hafter c hc)
    · exact hvalue c hc
  have hin : closing ∈ b :=
    hmarked.mem (List.mem_append_right _ List.mem_cons_self) (not_mem_markLetters_of_isQuote hclosing)
  rw [hheader.lastOr] at hmarked
  have hstart' := hmarked.head hhead
    (any_head? (List.append_ne_nil_of_right_ne_nil _ hne) hplain _)
  rw [hb]
  exact exists_quotedSpot hquote hgap hheader hstart' hclosing hin before

/-- **Replacing quoted headers settles a text.** -/
theorem settled_quoted {text text' : List Char} (h : Replaced QuotedSpot before text text')
    (before' : Option Char) : Settled QuotedSpot before' text' := by
  induction h generalizing before' with
  | nil => exact .nil
  | @keep before c text text' hnone hreplaced ih =>
    refine .keep ?_ (ih (some c))
    intro spot rest htext hspot
    have hhead : ∀ secret shown rest, QuotedSpot.erases (some ':') secret shown rest →
        secret.head?.all (!isQuote ·) = true := by
      rintro _ _ _ ⟨front, spot, behind, ⟨-, -, -, -, -, hvalue, -, -⟩, -, rfl, -, -⟩
      exact all_head? (by simpa only [Bool.not_eq_true'] using hvalue)
    obtain ⟨spot', rest', htext', hspot'⟩ :=
      exists_quotedSpot_of_marked hhead (describes_quoted.marked hreplaced) htext hspot
    exact hnone spot' rest' htext' (hspot'.anywhere before rest')
  | @spot before spot rest rest' text text' htext htext' hspot hreplaced ih =>
    obtain ⟨hquote, hgap, hheader, hafter, -, -, -, hclosing⟩ := hspot
    rename_i quote closing gap header after value
    have hstart : ∀ c ∈ mark.head?, isSpace c = true → mark = [c] := by
      intro c hc hspace
      cases hc
      cases hspace
    have hspot : QuotedSpot before' ⟨quote :: gap ++ header ++ after, mark, mark, [closing]⟩ rest' :=
      .intro hquote hgap hheader hafter (by decide) (by decide) hstart hclosing
    exact .spot htext' hspot rfl (ih _)

end Headers

/-! ## Web addresses -/

section Urls

variable {before : Option Char} {scheme : List Char}

/-- The letters of a scheme, and what stands behind its first one. -/
theorem IsScheme.exists_cons (h : IsScheme scheme) :
    ∃ c more, scheme = c :: more ∧ fold c = 'h' ∧ ∀ d ∈ more, fold d ≠ 'h' := by
  have hletters : ∃ letters, scheme.map fold = 'h' :: letters ∧ 'h' ∉ letters := by
    rcases h with h | h
    · exact ⟨"ttps://".toList, h, by decide⟩
    · exact ⟨"ttp://".toList, h, by decide⟩
  obtain ⟨letters, hfold, hother⟩ := hletters
  cases scheme with
  | nil => cases hfold
  | cons c more =>
    rw [List.map_cons, List.cons.injEq] at hfold
    obtain ⟨hc, hmore⟩ := hfold
    refine ⟨c, more, rfl, hc, ?_⟩
    intro d hd hh
    rw [← hmore, ← hh] at hother
    exact hother (List.mem_map_of_mem hd)

theorem UrlSpot.exists_cons {spot : Spot} {rest : List Char} (h : UrlSpot before spot rest) :
    ∃ c more, spot.lead = c :: more ∧ fold c = 'h' := by
  obtain ⟨hscheme, -, -, -, -⟩ := h
  obtain ⟨c, more, hlead, hfold, -⟩ := hscheme.exists_cons
  exact ⟨c, more, hlead, hfold⟩

theorem UrlSpot.lead_ne_nil {spot : Spot} {rest : List Char} (h : UrlSpot before spot rest) :
    spot.lead ≠ [] := by
  obtain ⟨c, more, hlead, -⟩ := h.exists_cons
  rw [hlead]
  exact List.cons_ne_nil _ _

/-- No secret of a web address starts with such a character. -/
theorem calm_url_of_fold {c : Char} (hc : fold c ≠ 'h') (before : Option Char) (text : List Char) :
    Calm UrlSpot before (c :: text) := by
  intro spot rest htext hspot
  obtain ⟨d, more, hlead, hfold⟩ := hspot.exists_cons
  rw [Spot.text_append, hlead, List.cons_append, List.cons.injEq] at htext
  rw [htext.1] at hc
  exact absurd hfold hc

/-- Where no scheme starts, replacing web addresses goes on. -/
theorem Replaced.url_front {x text b' : List Char} (h : Replaced UrlSpot before text (x ++ b'))
    (hx : ∀ c ∈ x, fold c ≠ 'h') :
    ∃ b, text = x ++ b ∧ Replaced UrlSpot (lastOr before x) b b' := by
  induction x generalizing before text with
  | nil => exact ⟨text, rfl, h⟩
  | cons c x ih =>
    obtain ⟨hc, hx⟩ := List.forall_mem_cons.1 hx
    rw [List.cons_append] at h
    cases h with
    | keep hnone h =>
      obtain ⟨b, rfl, hb⟩ := ih h hx
      exact ⟨b, rfl, hb⟩
    | spot htext htext' hspot h =>
      obtain ⟨d, more, hlead, hfold⟩ := hspot.exists_cons
      rw [Spot.logged_append, hlead, List.cons_append, List.cons.injEq] at htext'
      rw [htext'.1] at hc
      exact absurd hfold hc

theorem eq_of_fold {c d : Char} (h : fold c = d) (hd : d.isLower = false) : c = d := by
  have hletters : 'i'.isLower = true ∧ 's'.isLower = true ∧ 'k'.isLower = true := by decide
  obtain ⟨hi, hs, hk⟩ := hletters
  unfold fold at h
  split at h
  · rw [← h, hi] at hd
    cases hd
  · split at h
    · rw [← h, hs] at hd
      cases hd
    · split at h
      · rw [← h, hk] at hd
        cases hd
      · have hcode := toNat_toLower c
        rw [h] at hcode
        split at hcode
        · have hlower : d.isLower = true := by
            show (decide (97 ≤ d.val) && decide (d.val ≤ 122)) = true
            rw [Bool.and_eq_true, decide_eq_true_eq, decide_eq_true_eq, UInt32.le_iff_toNat_le,
              UInt32.le_iff_toNat_le]
            show 97 ≤ d.toNat ∧ d.toNat ≤ 122
            omega
          rw [hlower] at hd
          cases hd
        · exact (Char.toNat_inj.1 hcode).symm

/-- A scheme is a word that could be a user name, a colon and two slashes. -/
theorem IsScheme.exists_word (h : IsScheme scheme) :
    ∃ word, scheme = word ++ "://".toList ∧ ∀ c ∈ word, isUserChar c = true := by
  have hword : ∃ letters, scheme.map fold = letters ++ "://".toList ∧
      ∀ d ∈ letters, d ∈ "https".toList := by
    rcases h with h | h
    · exact ⟨"https".toList, h, by decide⟩
    · exact ⟨"http".toList, h, by decide⟩
  obtain ⟨letters, hfold, hletters⟩ := hword
  obtain ⟨word, more, rfl, hword, hmore⟩ := List.map_eq_append_iff.1 hfold
  refine ⟨word, ?_, ?_⟩
  · have hsame : ∀ c ∈ more, fold c = c := by
      intro c hc
      have hin : fold c ∈ "://".toList := hmore ▸ List.mem_map_of_mem hc
      have hlower : ∀ d ∈ "://".toList, d.isLower = false := by decide
      exact (eq_of_fold rfl (hlower _ hin)).symm
    rw [← hmore, List.map_congr_left hsame, List.map_id']
  · intro c hc
    have hin := hletters (fold c) (hword ▸ List.mem_map_of_mem hc)
    have halnum : ∀ d ∈ "https".toList, d.isAlphanum = true := by decide
    have hother : ∀ d ∈ ['/', ':', '@'], fold d ∉ "https".toList := by decide
    have hne : ∀ d ∈ ['/', ':', '@'], c ≠ d := by
      intro d hd heq
      exact hother d hd (heq ▸ hin)
    simp only [List.forall_mem_cons] at hne
    rw [isUserChar, not_isSpace_of_fold (halnum _ hin), bne_iff_ne.2 hne.1, bne_iff_ne.2 hne.2.1,
      bne_iff_ne.2 hne.2.2.1]
    rfl

/-- **A user name stays where it is.** If a scheme stands in it, its colon is the one behind the user
name. -/
theorem Replaced.url_user {user text p' : List Char} (husers : ∀ c ∈ user, isUserChar c = true)
    (h : Replaced UrlSpot before text (user ++ ':' :: p')) :
    ∃ p, text = user ++ ':' :: p ∧ Marked UrlSpot.erases (some ':') p p' := by
  induction user generalizing before text with
  | nil =>
    obtain ⟨p, rfl, hp⟩ := h.url_front (x := [':']) (by decide)
    exact ⟨p, rfl, describes_url.marked hp⟩
  | cons c user ih =>
    obtain ⟨hc, husers'⟩ := List.forall_mem_cons.1 husers
    rw [List.cons_append] at h
    have hmarked := describes_url.marked h
    cases h with
    | keep hnone h =>
      obtain ⟨p, rfl, hp⟩ := ih husers' h
      exact ⟨p, rfl, hp⟩
    | spot htext htext' hspot h =>
      obtain ⟨hscheme, -, -, -, -⟩ := hspot
      have hends := hscheme.isForeign.ends
      obtain ⟨word, rfl, hword⟩ := hscheme.exists_word
      rw [Spot.logged_append, List.append_assoc] at htext'
      obtain ⟨hsame, -⟩ :=
        run_unique husers (isUserChar_colon _) hword (isUserChar_colon _) htext'
      have hplain : '<' ∉ word ++ [':'] := by
        intro hin
        refine (hends '<' ?_).1 rfl
        rcases List.mem_append.1 hin with hin | hin
        · exact List.mem_append_left _ hin
        · cases List.mem_singleton.1 hin
      have hsplit : c :: (user ++ ':' :: p') = word ++ [':'] ++ p' := by
        rw [← hsame, List.append_assoc]
        rfl
      rw [hsplit] at hmarked
      obtain ⟨p, rfl, hp⟩ := hmarked.front hplain
      rw [lastOr_concat] at hp
      exact ⟨p, by rw [hsame, List.append_assoc]; rfl, hp⟩

theorem isPasswordChar_of_isUserChar {c : Char} (h : isUserChar c = true) :
    isPasswordChar c = true := by
  simp only [isUserChar, Bool.and_eq_true] at h
  rw [isPasswordChar, h.1.1.1, h.2]
  rfl

theorem UrlSpot.isPasswordChar_of_erases {secret shown rest : List Char}
    (h : UrlSpot.erases before secret shown rest) :
    (∀ c ∈ secret, isPasswordChar c = true) ∧ ∀ c ∈ shown, isPasswordChar c = true := by
  obtain ⟨front, spot, behind, ⟨-, -, husers, -, hpasswords⟩, -, rfl, rfl, -⟩ := h
  refine ⟨?_, show ∀ c ∈ mark ++ ':' :: mark, isPasswordChar c = true by decide⟩
  intro c hc
  rcases List.mem_append.1 hc with hc | hc
  · exact isPasswordChar_of_isUserChar (husers c hc)
  · rcases List.mem_cons.1 hc with rfl | hc
    · decide
    · exact hpasswords c hc

/-- Credentials in a web address behind the replacing were some before it. -/
theorem exists_urlSpot_of_replaced {before' : Option Char} {c : Char} {text text' rest : List Char}
    {spot : Spot} (_hagree : Agree before before' (c :: text))
    (h : Replaced UrlSpot (some c) text text') (htext : c :: text' = spot.text ++ rest)
    (hspot : UrlSpot before' spot rest) :
    ∃ spot rest, c :: text = spot.text ++ rest ∧ UrlSpot before spot rest := by
  obtain ⟨hscheme, huser, husers, hpassword, hpasswords⟩ := hspot
  rename_i scheme user password
  obtain ⟨d, more, rfl, -, hmore⟩ := hscheme.exists_cons
  have hbehind : Spot.text ⟨d :: more, user ++ ':' :: password, mark ++ ':' :: mark, ['@']⟩ ++ rest =
      d :: (more ++ (user ++ ':' :: (password ++ '@' :: rest))) := by
    simp [Spot.text]
  rw [hbehind, List.cons.injEq] at htext
  obtain ⟨rfl, rfl⟩ := htext
  obtain ⟨b, rfl, hb⟩ := h.url_front hmore
  obtain ⟨p, rfl, hmarked⟩ := hb.url_user husers
  obtain ⟨password', rest', rfl, hpasswords', hne, -⟩ :=
    hmarked.run (fun _ _ _ _ h => UrlSpot.isPasswordChar_of_erases h) hpasswords (by decide)
  have hspot : UrlSpot before ⟨c :: more, user ++ ':' :: password', mark ++ ':' :: mark, ['@']⟩
      rest' :=
    .intro hscheme huser husers (fun hnil => hpassword (hne hnil)) hpasswords'
  exact ⟨_, rest', by simp [Spot.text], hspot⟩

/-- A scheme does not start inside another one. -/
theorem calm_url_lead {before' : Option Char} {spot : Spot} {rest rest' : List Char}
    (_hagree : Agree before before' (spot.text ++ rest)) (hspot : UrlSpot before spot rest)
    (_hreplaced : Replaced UrlSpot (lastOr before spot.text) rest rest') (front back : List Char)
    (hlead : spot.lead = front ++ back) (hne : back ≠ []) :
    Calm UrlSpot (lastOr before' front) (back ++ (spot.shown ++ (spot.close ++ rest'))) := by
  obtain ⟨hscheme, -, -, -, -⟩ := hspot
  rename_i scheme user password
  cases front with
  | nil =>
    have hspot : UrlSpot before' ⟨scheme, mark ++ ':' :: mark, mark ++ ':' :: mark, ['@']⟩ rest' :=
      .intro hscheme (by decide) (by decide) (by decide) (by decide)
    rw [List.nil_append] at hlead
    rw [← hlead]
    exact describes_url.calm_marked hspot
  | cons e front =>
    obtain ⟨c, more, rfl, -, hmore⟩ := hscheme.exists_cons
    cases back with
    | nil => exact absurd rfl hne
    | cons d back =>
      have hd : d ∈ more := (List.cons.inj hlead).2 ▸ List.mem_append_right _ List.mem_cons_self
      exact calm_url_of_fold (hmore d hd) _ _

/-- **Replacing credentials in web addresses settles a text.** -/
theorem steady_url {before' : Option Char} {text text' : List Char}
    (h : Replaced UrlSpot before text text') (hagree : Agree before before' text) :
    Steady UrlSpot before' text' := by
  refine describes_url.steady exists_urlSpot_of_replaced calm_url_lead ?_ h hagree
  intro before spot rest hspot front back hclose hne before' rest'
  cases hspot
  cases back with
  | nil => exact absurd rfl hne
  | cons d back =>
    have hd : d ∈ front ++ d :: back := List.mem_append_right _ List.mem_cons_self
    rw [← hclose] at hd
    rw [List.mem_singleton.1 hd]
    exact calm_url_of_fold (by decide) _ _

end Urls

/-! ## Access tokens -/

section Tokens

variable {before : Option Char}

theorem TokenSpot.isWordChar {spot : Spot} {rest : List Char} (h : TokenSpot before spot rest) :
    ∀ c ∈ spot.secret, isWordChar c = true := by
  obtain ⟨-, hkind, hbody, -, -⟩ := h
  rename_i kind body
  have hkinds : ∀ d ∈ ['p', 'o', 'u', 's', 'r'], Text.isWordChar d = true := by decide
  intro c hc
  simp only [List.mem_cons] at hc
  rcases hc with rfl | rfl | rfl | rfl | hc
  · decide
  · decide
  · exact hkinds c hkind
  · decide
  · exact isWordChar_of_isAlphanum (hbody c hc)

theorem insideWord_lastOr_of_word {word : List Char} (hne : word ≠ [])
    (h : ∀ c ∈ word, isWordChar c = true) (before : Option Char) :
    insideWord (lastOr before word) = true := by
  rcases List.eq_nil_or_concat word with hnil | ⟨init, c, rfl⟩
  · exact absurd hnil hne
  · rw [List.concat_eq_append] at h ⊢
    rw [lastOr_concat]
    exact h c (List.mem_append_right _ (List.mem_singleton_self c))

/-- A token behind the replacing was one before it: no other one starts right behind it. -/
theorem exists_tokenSpot_of_replaced {before' : Option Char} {c : Char}
    {text text' rest : List Char} {spot : Spot} (hagree : Agree before before' (c :: text))
    (h : Replaced TokenSpot (some c) text text') (htext : c :: text' = spot.text ++ rest)
    (hspot : TokenSpot before' spot rest) :
    ∃ spot rest, c :: text = spot.text ++ rest ∧ TokenSpot before spot rest := by
  have hwords := hspot.isWordChar
  obtain ⟨houtside, hkind, hbody, hlength, hrest⟩ := hspot
  rename_i kind body
  have hwhole (rest : List Char) : Spot.text ⟨[], 'g' :: 'h' :: kind :: '_' :: body, mark, []⟩ ++
      rest = ('g' :: 'h' :: kind :: '_' :: body) ++ rest :=
    Spot.text_append_of_open [] _ mark rest
  have hmarked : Marked TokenSpot.erases before (c :: text) (c :: text') :=
    .keep (describes_token.marked h)
  rw [htext, hwhole] at hmarked
  obtain ⟨b, hb, hmarked⟩ := hmarked.front (isForeign_token hkind hbody).not_mem_start
  have hword : insideWord (c :: text).head? = true := by
    rw [hb, List.cons_append, List.head?_cons]
    decide
  have hbehind : insideWord b.head? = false := by
    -- a token right behind this one would not stand as a word
    rcases hmarked.head?_cases with hsame | ⟨_, _, _, -, -, herases⟩
    · rw [← hsame]
      exact hrest
    · obtain ⟨front, spot, behind, ⟨houtside', -, -, -, -⟩, hfront, -, -, -⟩ := herases
      have hlast := insideWord_lastOr_of_word (List.cons_ne_nil _ _) hwords before
      have hsame : lastOr before ('g' :: 'h' :: kind :: '_' :: body) = front := hfront
      rw [hsame, houtside'] at hlast
      cases hlast
  have hspot : TokenSpot before ⟨[], 'g' :: 'h' :: kind :: '_' :: body, mark, []⟩ b :=
    .intro ((hagree.eq_of_word hword).trans houtside) hkind hbody hlength hbehind
  exact ⟨_, b, by rw [hb, hwhole], hspot⟩

/-- **Replacing access tokens settles a text.** -/
theorem steady_token {before' : Option Char} {text text' : List Char}
    (h : Replaced TokenSpot before text text') (hagree : Agree before before' text) :
    Steady TokenSpot before' text' := by
  refine describes_token.steady exists_tokenSpot_of_replaced ?_ ?_ h hagree
  · intro before before' spot rest rest' _ hspot _ front back hlead hne
    cases hspot
    exact absurd (List.append_eq_nil_iff.1 hlead.symm).2 hne
  · intro before spot rest hspot front back hclose hne
    cases hspot
    exact absurd (List.append_eq_nil_iff.1 hclose.symm).2 hne

end Tokens

end CompactShell.Log
