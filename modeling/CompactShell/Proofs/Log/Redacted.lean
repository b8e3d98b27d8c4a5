import CompactShell.Proofs.Log.Settling

/-!
# Redacted texts are settled

The kinds of secrets are looked for one after the other, and each one replaces some parts of what
the ones before it have settled. That unsettles none of them: what a later kind replaces stands
behind white space, a colon or a slash, or is an access token, and no word goes on behind it. So no
name, header or scheme comes to stand anywhere, and no mark in its place is touched.

`redact_settled` says so of all five kinds together, and with it that redacting a second time
changes nothing.
-/

namespace CompactShell.Log

open Text

/-! ## Where the later kinds find their secrets -/

/-- What leads to the secret of a header or a web address ends with such a character. -/
def isLeadEnd (c : Char) : Bool :=
  isSpace c || c = ':' || c = '/'

def isSlash (c : Char) : Bool :=
  c = '/'

/-- What leads to the value of a header ends with white space or a colon. -/
theorem exists_lastOr_header {header after : List Char} (hheader : IsHeader header)
    (hafter : ∀ c ∈ after, isSpace c = true) (before : Option Char) (front : List Char) :
    ∃ c, lastOr before (front ++ header ++ after) = some c ∧ (isSpace c = true ∨ c = ':') := by
  rcases List.eq_nil_or_concat after with rfl | ⟨init, c, rfl⟩
  · rw [List.append_nil, hheader.lastOr]
    exact ⟨':', rfl, .inr rfl⟩
  · rw [List.concat_eq_append] at hafter ⊢
    rw [← List.append_assoc, lastOr_concat]
    exact ⟨c, rfl, .inl (hafter c (List.mem_append_right _ (List.mem_singleton_self c)))⟩

theorem any_lastOr_header {header after : List Char} (hheader : IsHeader header)
    (hafter : ∀ c ∈ after, isSpace c = true) (before : Option Char) (front : List Char) :
    (lastOr before (front ++ header ++ after)).any isLeadEnd = true := by
  obtain ⟨c, hlast, hc⟩ := exists_lastOr_header hheader hafter before front
  rw [hlast, Option.any_some, isLeadEnd]
  rcases hc with hspace | rfl
  · rw [hspace]
    rfl
  · rfl

theorem opensAt_quoted : QuotedSpot.erases.OpensAt isLeadEnd := by
  rintro _ _ _ _ ⟨front, spot, behind, ⟨-, -, hheader, hafter, -, -, -, -⟩, rfl, -, -, -⟩
  exact .inl (any_lastOr_header hheader hafter _ _)

theorem opensAt_bare : BareSpot.erases.OpensAt isLeadEnd := by
  rintro _ _ _ _ ⟨front, spot, behind, ⟨hheader, hafter, -, -, -⟩, rfl, -, -, -⟩
  exact .inl (any_lastOr_header hheader hafter front [])

theorem opensAt_url : UrlSpot.erases.OpensAt isSlash := by
  rintro _ _ _ _ ⟨front, spot, behind, ⟨hscheme, -, -, -, -⟩, rfl, -, -, -⟩
  obtain ⟨word, rfl, -⟩ := hscheme.exists_word
  have hlast : lastOr front (word ++ "://".toList) = some '/' := by
    rw [show "://".toList = [':', '/'] ++ ['/'] from rfl, ← List.append_assoc, lastOr_concat]
  left
  rw [hlast]
  rfl

theorem opensAt_token (opens : Char → Bool) : TokenSpot.erases.OpensAt opens := by
  rintro _ _ _ _ ⟨front, spot, behind, hspot, -, rfl, -, -⟩
  cases hspot
  exact .inr rfl

theorem stops_url (before : Option Char) (secret shown rest : List Char)
    (h : UrlSpot.erases before secret shown rest) :
    rest.head? = some '@' ∨ ∀ c ∈ secret, isQuote c = false := by
  obtain ⟨front, spot, behind, hspot, -, -, -, rfl⟩ := h
  cases hspot
  exact .inl rfl

theorem stops_token (before : Option Char) (secret shown rest : List Char)
    (h : TokenSpot.erases before secret shown rest) :
    rest.head? = some '@' ∨ ∀ c ∈ secret, isQuote c = false := by
  obtain ⟨front, spot, behind, hspot, -, rfl, -, -⟩ := h
  right
  intro c hc
  by_contra hquote
  rw [Bool.not_eq_false] at hquote
  have hword := hspot.isWordChar c hc
  rw [not_isWordChar_of_isQuote hquote] at hword
  cases hword

theorem isUserChar_of_isWordChar {c : Char} (h : isWordChar c = true) : isUserChar c = true := by
  have hspace : isSpace c = false := by
    by_contra hspace
    rw [Bool.not_eq_false] at hspace
    rw [not_isWordChar_of_isSpace hspace] at h
    cases h
  have hother : ∀ d ∈ ['/', ':', '@'], isWordChar d = false := by decide
  have hne : ∀ d ∈ ['/', ':', '@'], c ≠ d := by
    intro d hd heq
    rw [heq, hother d hd] at h
    cases h
  simp only [List.forall_mem_cons] at hne
  rw [isUserChar, hspace, bne_iff_ne.2 hne.1, bne_iff_ne.2 hne.2.1, bne_iff_ne.2 hne.2.2.1]
  rfl

theorem TokenSpot.isUserChar_of_erases (before : Option Char) (secret shown rest : List Char)
    (h : TokenSpot.erases before secret shown rest) :
    (∀ c ∈ secret, isUserChar c = true) ∧ ∀ c ∈ shown, isUserChar c = true := by
  obtain ⟨front, spot, behind, hspot, -, rfl, rfl, -⟩ := h
  refine ⟨fun c hc => isUserChar_of_isWordChar (hspot.isWordChar c hc), ?_⟩
  cases hspot
  exact (show ∀ c ∈ mark, isUserChar c = true by decide)

theorem Erasure.OpensAt.mono {erases : Erasure} {opens opens' : Char → Bool}
    (h : erases.OpensAt opens) (hle : ∀ c, opens c = true → opens' c = true) :
    erases.OpensAt opens' := by
  intro before secret shown rest herases
  rcases h before secret shown rest herases with hopen | hstart
  · obtain ⟨c, rfl, hc⟩ := (Option.any_eq_true _ _).1 hopen
    exact .inl (hle c hc)
  · exact .inr hstart

theorem isLeadEnd_of_isSlash (c : Char) (h : isSlash c = true) : isLeadEnd c = true := by
  rw [isSlash] at h
  rw [isLeadEnd, h, Bool.or_true]

/-! ## What is settled stays settled -/

section Later

variable {erases : Erasure} {before : Option Char} {text text' : List Char}

/-- **Assigned values stay settled** under every kind that is looked for later. -/
theorem steady_assigned_of_marked (hopens : erases.OpensAt isLeadEnd)
    (hstop : ∀ before secret shown rest, erases before secret shown rest →
      insideWord rest.head? = false)
    (h : Steady AssignedSpot before text) (hmarked : Marked erases before text text') :
    Steady AssignedSpot before text' := by
  intro front' back' htext' spot rest hback hspot
  have hinside := hspot.insideWord_head?
  obtain ⟨houtside, hname, hkeyword, hne, hvalue, hrest⟩ := hspot
  rename_i name value
  rw [htext', hback, Spot.text_append_of_open] at hmarked
  obtain ⟨a, b, rfl, hbefore, hb⟩ := hmarked.back (isForeign_assigned hname)
  have hout : insideWord (lastOr before a) = false := by
    -- a secret that ends in front of the name would have the name for its next word
    rcases hbefore with hsame | ⟨_, _, _, herases⟩
    · rw [hsame, houtside]
    · have hlead : name ++ ['='] ≠ [] := List.append_ne_nil_of_right_ne_nil _ (List.cons_ne_nil _ _)
      have hstop' := hstop _ _ _ _ herases
      rw [Spot.text_append_of_open, List.head?_append_of_ne_nil _ hlead] at hinside
      rw [List.head?_append_of_ne_nil _ hlead, hinside] at hstop'
      cases hstop'
  rw [← List.append_assoc, lastOr_concat] at hb
  have hplain : ∀ c ∈ value, (!isSpace c) = true := by simpa only [Bool.not_eq_true'] using hvalue
  have hend : ∀ c ∈ rest.head?, (!isSpace c) = false := by
    simpa only [Bool.not_eq_false'] using hrest
  have hhead : b.head?.any (!isSpace ·) = true := by
    refine hb.head ?_ (any_head? hne hplain _)
    intro secret shown rest herases
    rw [hopens.head?_eq (by decide) herases]
    decide
  obtain ⟨value', rest', rfl, hspot⟩ := exists_assignedSpot hout hname hkeyword hhead
  have hmark : value' = mark := h a _ rfl _ rest' (Spot.text_append_of_open _ _ _ _).symm hspot
  rw [hmark] at hb
  have hkept := hb.kept_run hopens (by decide) (by decide) (by decide) hspot.ends_head? (by decide)
  rw [takeWhile_run hplain hend] at hkept
  exact hkept

/-- **Values of headers stay settled** under the two kinds that are looked for later. -/
theorem steady_bare_of_marked (hopens : erases.OpensAt isSlash) (h : Steady BareSpot before text)
    (hmarked : Marked erases before text text') : Steady BareSpot before text' := by
  intro front' back' htext' spot rest hback hspot
  obtain ⟨hheader, hafter, hne, hvalue, hrest⟩ := hspot
  rename_i header after value
  rw [htext', hback, Spot.text_append_of_open] at hmarked
  have hforeign := hheader.isForeign.append_right (ends_of_isSpace hafter)
  obtain ⟨a, b, rfl, -, hb⟩ := hmarked.back hforeign
  have hlast : (lastOr before (a ++ (header ++ after))).any isSlash = false := by
    obtain ⟨c, hlast, hc⟩ := exists_lastOr_header hheader hafter before a
    rw [← List.append_assoc, hlast, Option.any_some, isSlash, decide_eq_false_iff_not]
    rintro rfl
    rcases hc with hspace | hcolon
    · cases hspace
    · cases hcolon
  have hhead : b.head?.any (fun c => !isSpace c && !isQuote c) = true := by
    refine hb.head ?_ (any_head? hne hvalue _)
    intro secret shown rest herases
    rw [hopens.head?_eq hlast herases]
    decide
  obtain ⟨value', rest', rfl, hspot⟩ := exists_bareSpot hheader hafter hhead (lastOr before a)
  have hmark : value' = mark := h a _ rfl _ rest' (Spot.text_append_of_open _ _ _ _).symm hspot
  rw [hmark] at hb
  have hkept := hb.kept_run hopens hlast (by decide) (by decide) hspot.ends_head? (by decide)
  rw [takeWhile_run hvalue hrest] at hkept
  exact hkept

/-- **Credentials in web addresses stay settled** under the kind that is looked for last. -/
theorem steady_url_of_marked (hopens : erases.OpensAt fun _ => false)
    (hclass : ∀ before secret shown rest, erases before secret shown rest →
      (∀ c ∈ secret, isUserChar c = true) ∧ ∀ c ∈ shown, isUserChar c = true)
    (h : Steady UrlSpot before text) (hmarked : Marked erases before text text') :
    Steady UrlSpot before text' := by
  intro front' back' htext' spot rest hback hspot
  obtain ⟨hscheme, huser, husers, hpassword, hpasswords⟩ := hspot
  rename_i scheme user password
  have hbehind : Spot.text ⟨scheme, user ++ ':' :: password, mark ++ ':' :: mark, ['@']⟩ ++ rest =
      scheme ++ (user ++ ':' :: (password ++ '@' :: rest)) := by
    simp [Spot.text]
  rw [htext', hback, hbehind] at hmarked
  obtain ⟨a, b, rfl, -, hb⟩ := hmarked.back hscheme.isForeign
  have hclass' : ∀ before secret shown rest, erases before secret shown rest →
      (∀ c ∈ secret, isPasswordChar c = true) ∧ ∀ c ∈ shown, isPasswordChar c = true := by
    intro before secret shown rest herases
    obtain ⟨hsecret, hshown⟩ := hclass before secret shown rest herases
    exact ⟨fun c hc => isPasswordChar_of_isUserChar (hsecret c hc),
      fun c hc => isPasswordChar_of_isUserChar (hshown c hc)⟩
  obtain ⟨user', b', rfl, husers', hne, hb'⟩ := hb.run hclass husers (by decide)
  obtain ⟨password', rest', rfl, hpasswords', hne', -⟩ := hb'.run hclass' hpasswords (by decide)
  have hspot : UrlSpot (lastOr before a)
      ⟨scheme, user' ++ ':' :: password', mark ++ ':' :: mark, ['@']⟩ rest' :=
    .intro hscheme (fun hnil => huser (hne hnil)) husers' (fun hnil => hpassword (hne' hnil))
      hpasswords'
  have hmark : user' ++ ':' :: password' = mark ++ ':' :: mark :=
    h a _ rfl _ rest' (by simp [Spot.text]) hspot
  have hmarks : ∀ c ∈ mark, isUserChar c = true := by decide
  have hmarks' : ∀ c ∈ mark, isPasswordChar c = true := by decide
  have hclosed : user' ++ ':' :: (password' ++ '@' :: []) = mark ++ ':' :: (mark ++ '@' :: []) := by
    simpa using congrArg (· ++ ['@']) hmark
  obtain ⟨rfl, rfl⟩ := credentials_unique husers' hpasswords' hmarks hmarks' hclosed
  -- neither mark is a token
  have hstays : ∀ c ∈ mark ++ ':' :: mark ++ ['@'], false = false ∧ c ≠ 'g' := by decide
  have hsplit (more : List Char) : mark ++ ':' :: (mark ++ '@' :: more) =
      (mark ++ ':' :: mark ++ ['@']) ++ more := by
    simp
  rw [hsplit] at hb
  obtain ⟨more, hkept, -⟩ := hb.kept hopens (by cases lastOr before (a ++ scheme) <;> rfl) hstays
  rw [← hsplit] at hkept
  obtain ⟨rfl, rfl⟩ := credentials_unique husers hpasswords hmarks hmarks' hkept
  rfl

end Later

/-! ## Quoted headers stay settled -/

section Quoted

variable {before : Option Char} {text text' : List Char}

theorem not_quotedSpot {c : Char} (hc : isQuote c = false) (spot : Spot) (rest : List Char)
    (htext : c :: text = spot.text ++ rest) : ¬ QuotedSpot before spot rest := by
  intro hspot
  obtain ⟨hquote, -, -, -, -, -, -, -⟩ := hspot
  rw [Spot.text_append] at htext
  rw [(List.cons.inj htext).1, hquote] at hc
  cases hc

theorem Settled.anywhere (h : Settled QuotedSpot before text) (before' : Option Char) :
    Settled QuotedSpot before' text := by
  induction h generalizing before' with
  | nil => exact .nil
  | @keep before c text hnone h ih =>
    refine .keep ?_ h
    intro spot rest htext hspot
    exact hnone spot rest htext (hspot.anywhere before rest)
  | spot htext hspot hsecret h ih => exact .spot htext (hspot.anywhere before' _) hsecret (ih _)

/-- What has no quote in it makes no difference. -/
theorem settled_quoted_append {x : List Char} (hx : ∀ c ∈ x, isQuote c = false) :
    Settled QuotedSpot before (x ++ text) ↔ Settled QuotedSpot before text := by
  induction x generalizing before with
  | nil => exact Iff.rfl
  | cons c x ih =>
    obtain ⟨hc, hx⟩ := List.forall_mem_cons.1 hx
    constructor
    · intro h
      cases h with
      | keep hnone h => exact ((ih hx).1 h).anywhere before
      | @spot _ spot rest _ htext hspot => exact absurd hspot (not_quotedSpot hc spot rest htext)
    · intro h
      exact .keep (not_quotedSpot hc) ((ih hx).2 (h.anywhere (some c)))

/-- A settled quoted header has no at sign in it, and none of what later secrets start with or stand
behind. -/
theorem QuotedSpot.not_mem {spot : Spot} {rest : List Char} (h : QuotedSpot before spot rest)
    (hsecret : spot.secret = spot.shown) : ∀ c ∈ spot.text, c ∉ ['@', '/', 'g'] := by
  obtain ⟨hquote, hgap, ⟨word, gap', rfl, hfold, hgap'⟩, hafter, -, -, -, hclosing⟩ := h
  have hother {p : Char → Bool} (hp : ∀ d ∈ ['@', '/', 'g'], p d = false) {c : Char}
      (hc : p c = true) : c ∉ ['@', '/', 'g'] := by
    intro hin
    rw [hp c hin] at hc
    cases hc
  intro c hc
  rw [Spot.text, hsecret] at hc
  simp only [List.cons_append, List.mem_cons, List.mem_append, List.not_mem_nil, or_false,
    or_assoc] at hc
  rcases hc with rfl | hc | hc | hc | rfl | hc | hc | rfl
  · exact hother (p := isQuote) (by decide) hquote
  · exact hother (p := isSpace) (by decide) (hgap c hc)
  · exact hother (p := fun d => fold d ∈ "authorization".toList) (by decide) (fold_mem hfold c hc)
  · exact hother (p := isSpace) (by decide) (hgap' c hc)
  · decide
  · exact hother (p := isSpace) (by decide) (hafter c hc)
  · have hmark : ∀ d ∈ mark, d ∉ ['@', '/', 'g'] := by decide
    exact hmark c hc
  · exact hother (p := isQuote) (by decide) hclosing

/-- A settled quoted header does not reach over an at sign. -/
theorem settled_quoted_of_at {x : List Char} (h : Settled QuotedSpot before (x ++ '@' :: text)) :
    Settled QuotedSpot before ('@' :: text) := by
  generalize hwhole : x ++ '@' :: text = whole at h
  induction h generalizing x with
  | nil => exact absurd (List.append_eq_nil_iff.1 hwhole).2 (List.cons_ne_nil _ _)
  | @keep before c rest hnone h ih =>
    cases x with
    | nil =>
      rw [List.nil_append] at hwhole
      rw [hwhole]
      exact .keep hnone h
    | cons d x => exact (ih (List.cons.inj hwhole).2).anywhere before
  | @spot before spot rest whole htext hspot hsecret h ih =>
    rw [htext] at hwhole
    rcases List.append_eq_append_iff.1 hwhole with ⟨k, hk, hrest⟩ | ⟨k, -, hrest⟩
    · cases k with
      | nil => exact (ih (x := []) hrest).anywhere before
      | cons d k =>
        have hat : '@' ∈ spot.text := by
          rw [hk, (List.cons.inj hrest).1]
          exact List.mem_append_right _ List.mem_cons_self
        exact absurd List.mem_cons_self (hspot.not_mem hsecret '@' hat)
    · exact (ih hrest.symm).anywhere before

/-- **A settled quoted header stays** where later secrets are replaced, unless one of them starts
right where it does. -/
theorem Marked.kept_quoted {erases : Erasure} (hopens : erases.OpensAt isSlash) {spot : Spot}
    {c : Char} {more rest : List Char} (hspot : QuotedSpot before spot rest)
    (hsecret : spot.secret = spot.shown) (hwhole : spot.text = c :: more)
    (h : Marked erases (some c) (more ++ rest) text') :
    ∃ rest', text' = more ++ rest' ∧ Marked erases (lastOr before spot.text) rest rest' := by
  have hstays : ∀ d ∈ c :: more, isSlash d = false ∧ d ≠ 'g' := by
    intro d hd
    have hother := hspot.not_mem hsecret d (hwhole ▸ hd)
    simp only [List.mem_cons, List.not_mem_nil, or_false, not_or] at hother
    exact ⟨decide_eq_false hother.2.1, hother.2.2⟩
  obtain ⟨hc, hmore⟩ := List.forall_mem_cons.1 hstays
  rw [hwhole]
  exact h.kept hopens hc.1 hmore

theorem IsShown.not_isQuote {shown : List Char} (h : IsShown shown) :
    ∀ c ∈ shown, isQuote c = false := by
  intro c hc
  by_contra hquote
  rw [Bool.not_eq_false] at hquote
  exact not_mem_markLetters_of_isQuote hquote (h.mem_markLetters hc)

/-- **Quoted headers stay settled** under the kinds whose secrets have no quotes or end at an at
sign. -/
theorem settled_quoted_of_marked {erases : Erasure} (hopens : erases.OpensAt isSlash)
    (hstop : ∀ before secret shown rest, erases before secret shown rest →
      rest.head? = some '@' ∨ ∀ c ∈ secret, isQuote c = false)
    (h : Settled QuotedSpot before text) (hmarked : Marked erases before text text') :
    Settled QuotedSpot before text' := by
  -- a whole secret or a whole header is passed at once
  induction hlength : text.length using Nat.strong_induction_on generalizing before text text' with
  | h n ih =>
    cases hmarked with
    | nil => exact .nil
    | @secret _ secret shown rest rest' _ _ htext htext' hne hshown herases hmarked =>
      have hshorter : rest.length < n := by
        have hpos := List.length_pos_iff.2 hne
        rw [← hlength, htext, List.length_append]
        omega
      rw [htext] at h
      rw [htext', settled_quoted_append hshown.not_isQuote]
      refine (ih _ hshorter ?_ hmarked rfl).anywhere before
      rcases hstop _ _ _ _ herases with hat | hquotes
      · obtain ⟨more, rfl⟩ := List.head?_eq_some_iff.1 hat
        exact (settled_quoted_of_at h).anywhere _
      · exact ((settled_quoted_append hquotes).1 h).anywhere _
    | @keep _ c rest rest' hmarked =>
      cases h with
      | keep hnone h =>
        refine .keep ?_ (ih _ ?_ h hmarked rfl)
        · intro spot behind htext hspot
          have hhead : ∀ secret shown rest, erases (some ':') secret shown rest →
              secret.head?.all (!isQuote ·) = true := by
            intro secret shown rest herases
            rw [hopens.head?_eq (by decide) herases]
            decide
          obtain ⟨spot', behind', htext', hspot'⟩ :=
            exists_quotedSpot_of_marked hhead hmarked htext hspot
          exact hnone spot' behind' htext' hspot'
        · rw [← hlength, List.length_cons]
          omega
      | @spot _ spot behind _ htext hspot hsecret h =>
        have hshorter := describes_quoted.length_lt hspot
        rw [← htext, hlength] at hshorter
        cases hwhole : spot.text with
        | nil => exact absurd hwhole (describes_quoted.text_ne_nil hspot)
        | cons d more =>
          rw [hwhole, List.cons_append, List.cons.injEq] at htext
          obtain ⟨rfl, rfl⟩ := htext
          obtain ⟨behind', rfl, hbehind⟩ := hmarked.kept_quoted hopens hspot hsecret hwhole
          have htext' : c :: (more ++ behind') = spot.text ++ behind' := by
            rw [hwhole, List.cons_append]
          exact .spot htext' (hspot.anywhere before behind') hsecret (ih _ hshorter h hbehind rfl)

theorem Replaced.kept {kind : Kind} {x : List Char} (h : Replaced kind before (x ++ text) text')
    (hx : ∀ c ∈ x, ∀ before rest spot behind, c :: rest = spot.text ++ behind →
      ¬ kind before spot behind) :
    ∃ rest, text' = x ++ rest ∧ Replaced kind (lastOr before x) text rest := by
  induction x generalizing before text' with
  | nil => exact ⟨text', rfl, h⟩
  | cons c x ih =>
    obtain ⟨hc, hx⟩ := List.forall_mem_cons.1 hx
    rw [List.cons_append] at h
    cases h with
    | keep hnone h =>
      obtain ⟨rest, rfl, hrest⟩ := ih h hx
      exact ⟨rest, rfl, hrest⟩
    | @spot _ spot behind _ _ _ htext htext' hspot h =>
      exact absurd hspot (hc before _ spot behind htext)

/-- Replacing comes to a spot and replaces it. -/
theorem Describes.replaced_of_spot {kind : Kind} {find : Finder} (h : Describes kind find)
    {spot : Spot} {rest : List Char} (hspot : kind before spot rest)
    (hreplaced : Replaced kind before (spot.text ++ rest) text') :
    ∃ rest', text' = spot.logged ++ rest' ∧ Replaced kind (lastOr before spot.text) rest rest' := by
  generalize hwhole : spot.text ++ rest = whole at hreplaced
  cases hreplaced with
  | nil => exact absurd (List.append_eq_nil_iff.1 hwhole).1 (h.text_ne_nil hspot)
  | keep hnone hreplaced => exact absurd hspot (hnone spot rest hwhole.symm)
  | @spot _ spot' rest' behind _ _ htext htext' hspot' hreplaced =>
    rw [htext] at hwhole
    obtain ⟨hsame, hlogged⟩ := h.unique hspot hspot' hwhole
    rw [hsame] at hwhole ⊢
    rw [List.append_cancel_left hwhole, hlogged]
    exact ⟨behind, htext', hreplaced⟩

theorem not_bareSpot {c : Char} (hc : fold c ≠ 'a') (before : Option Char) (rest : List Char)
    (spot : Spot) (behind : List Char) (htext : c :: rest = spot.text ++ behind) :
    ¬ BareSpot before spot behind := by
  intro hspot
  obtain ⟨⟨word, gap, rfl, hfold, -⟩, -, -, -, -⟩ := hspot
  rw [Spot.text_append] at htext
  cases word with
  | nil => cases hfold
  | cons d word =>
    rw [List.map_cons] at hfold
    rw [(List.cons.inj htext).1] at hc
    exact hc (List.cons.inj hfold).1

theorem IsHeader.not_isQuote {header : List Char} (h : IsHeader header) :
    ∀ c ∈ header, isQuote c = false := by
  obtain ⟨word, gap, rfl, hfold, hgap⟩ := h
  intro c hc
  simp only [List.mem_append, List.mem_singleton, or_assoc] at hc
  rcases hc with hc | hc | rfl
  · have hletter := fold_mem hfold c hc
    by_contra hquote
    rw [Bool.not_eq_false] at hquote
    simp only [isQuote, Bool.or_eq_true, decide_eq_true_eq] at hquote
    rcases hquote with rfl | rfl
    · exact absurd hletter (by decide)
    · exact absurd hletter (by decide)
  · exact not_isQuote_of_isSpace (hgap c hc)
  · decide

theorem BareSpot.not_isQuote {spot : Spot} {rest : List Char} (h : BareSpot before spot rest) :
    (∀ c ∈ spot.text, isQuote c = false) ∧ ∀ c ∈ spot.logged, isQuote c = false := by
  obtain ⟨hheader, hafter, -, hvalue, -⟩ := h
  rename_i header after value
  have hlead : ∀ c ∈ header ++ after, isQuote c = false := by
    intro c hc
    rcases List.mem_append.1 hc with hc | hc
    · exact hheader.not_isQuote c hc
    · exact not_isQuote_of_isSpace (hafter c hc)
  have hmark : ∀ c ∈ mark, isQuote c = false := by decide
  constructor
  · intro c hc
    rw [Spot.text, List.append_nil] at hc
    rcases List.mem_append.1 hc with hc | hc
    · exact hlead c hc
    · have hsolid := hvalue c hc
      rw [Bool.and_eq_true, Bool.not_eq_true', Bool.not_eq_true'] at hsolid
      exact hsolid.2
  · intro c hc
    rw [Spot.logged, List.append_nil] at hc
    rcases List.mem_append.1 hc with hc | hc
    · exact hlead c hc
    · exact hmark c hc

/-- **A settled quoted header stays** where values of headers are replaced. -/
theorem Replaced.kept_quoted {spot : Spot} {rest : List Char} (hspot : QuotedSpot before spot rest)
    (hsecret : spot.secret = spot.shown)
    (h : Replaced BareSpot before (spot.text ++ rest) text') :
    ∃ rest', text' = spot.text ++ rest' ∧
      Replaced BareSpot (lastOr before spot.text) rest rest' := by
  obtain ⟨hquote, hgap, hheader, hafter, -, -, -, hclosing⟩ := hspot
  rename_i quote closing gap header after value
  have hvalue : value = mark := hsecret
  subst hvalue
  have hwhole (rest : List Char) :
      Spot.text ⟨quote :: gap ++ header ++ after, mark, mark, [closing]⟩ ++ rest =
        (quote :: gap) ++ (Spot.text ⟨header ++ after, mark, mark, []⟩ ++ ([closing] ++ rest)) := by
    simp [Spot.text]
  have hquotes : ∀ c, isQuote c = true → fold c ≠ 'a' := by
    intro c hc
    simp only [isQuote, Bool.or_eq_true, decide_eq_true_eq] at hc
    rcases hc with rfl | rfl
    · decide
    · decide
  have hspaces : ∀ c, isSpace c = true → fold c ≠ 'a' := by
    intro c hc hletter
    rw [not_isSpace_of_fold (by rw [hletter]; decide)] at hc
    cases hc
  have hfront : ∀ c ∈ quote :: gap, fold c ≠ 'a' :=
    List.forall_mem_cons.2 ⟨hquotes quote hquote, fun c hc => hspaces c (hgap c hc)⟩
  have hclose : ∀ c ∈ [closing], fold c ≠ 'a' := by
    intro c hc
    rw [List.mem_singleton.1 hc]
    exact hquotes closing hclosing
  have hends : ∀ c ∈ ([closing] ++ rest).head?, (!isSpace c && !isQuote c) = false := by
    rintro c ⟨⟩
    rw [hclosing, Bool.not_true, Bool.and_false]
  rw [hwhole] at h
  obtain ⟨behind, rfl, hbehind⟩ := h.kept fun c hc => not_bareSpot (hfront c hc)
  have hbare : BareSpot (lastOr before (quote :: gap)) ⟨header ++ after, mark, mark, []⟩
      ([closing] ++ rest) :=
    .intro hheader hafter (by decide) (by decide) hends
  obtain ⟨tail, rfl, htail⟩ := describes_bare.replaced_of_spot hbare hbehind
  obtain ⟨rest', rfl, hrest'⟩ := htail.kept fun c hc => not_bareSpot (hclose c hc)
  refine ⟨rest', (hwhole rest').symm, ?_⟩
  rw [Spot.text, lastOr_concat]
  exact hrest'

/-- **Quoted headers stay settled** where values of headers are replaced. -/
theorem settled_quoted_of_bare (h : Settled QuotedSpot before text)
    (hreplaced : Replaced BareSpot before text text') : Settled QuotedSpot before text' := by
  induction hlength : text.length using Nat.strong_induction_on generalizing before text text' with
  | h n ih =>
    cases hreplaced with
    | nil => exact .nil
    | @keep _ c rest rest' hnone hreplaced =>
      cases h with
      | keep hnone' h =>
        refine .keep ?_ (ih _ ?_ h hreplaced rfl)
        · intro spot behind htext hspot
          have hhead : ∀ secret shown rest, BareSpot.erases (some ':') secret shown rest →
              secret.head?.all (!isQuote ·) = true := by
            rintro _ _ _ ⟨front, spot, behind, ⟨-, -, -, hvalue, -⟩, -, rfl, -, -⟩
            refine all_head? fun c hc => ?_
            have hsolid := hvalue c hc
            rw [Bool.and_eq_true] at hsolid
            exact hsolid.2
          obtain ⟨spot', behind', htext', hspot'⟩ :=
            exists_quotedSpot_of_marked hhead (describes_bare.marked hreplaced) htext hspot
          exact hnone' spot' behind' htext' hspot'
        · rw [← hlength, List.length_cons]
          omega
      | @spot _ spot behind _ htext hspot hsecret h =>
        -- the header in the quotes is replaced, by the mark that it has already
        have hkept := Replaced.keep hnone hreplaced
        rw [htext] at hkept
        obtain ⟨behind', htext', hbehind⟩ := hkept.kept_quoted hspot hsecret
        have hshorter := describes_quoted.length_lt hspot
        rw [← htext, hlength] at hshorter
        exact .spot htext' (hspot.anywhere before behind') hsecret (ih _ hshorter h hbehind rfl)
    | @spot _ spot rest rest' _ _ htext htext' hspot hreplaced =>
      have hshorter := describes_bare.length_lt hspot
      rw [← htext, hlength] at hshorter
      obtain ⟨hplain, hplain'⟩ := hspot.not_isQuote
      rw [htext, settled_quoted_append hplain] at h
      rw [htext', settled_quoted_append hplain']
      exact (ih _ hshorter (h.anywhere _) hreplaced rfl).anywhere before

end Quoted

/-! ## All kinds together -/

/-- The kinds of secrets, each with its finder, in the order in which they are looked for. -/
def kinds : List (Finder × Kind) :=
  [(assignedSecret, AssignedSpot), (quotedHeader, QuotedSpot), (bareHeader, BareSpot),
    (urlCredentials, UrlSpot), (accessToken, TokenSpot)]

theorem describes_of_mem_kinds {entry : Finder × Kind} (h : entry ∈ kinds) :
    Describes entry.2 entry.1 := by
  simp only [kinds, List.mem_cons, List.not_mem_nil, or_false] at h
  rcases h with rfl | rfl | rfl | rfl | rfl
  · exact describes_assigned
  · exact describes_quoted
  · exact describes_bare
  · exact describes_url
  · exact describes_token

theorem settled_redact (text : List Char) :
    ∀ entry ∈ kinds, Settled entry.2 none (redact text) := by
  show ∀ entry ∈ kinds, Settled entry.2 none (replaceAll accessToken (replaceAll urlCredentials
    (replaceAll bareHeader (replaceAll quotedHeader (replaceAll assignedSecret text)))))
  unfold replaceAll
  have h₁ := describes_assigned.replaced none text
  generalize replaceFrom assignedSecret 0 none text = text₁ at h₁ ⊢
  have h₂ := describes_quoted.replaced none text₁
  generalize replaceFrom quotedHeader 0 none text₁ = text₂ at h₂ ⊢
  have h₃ := describes_bare.replaced none text₂
  generalize replaceFrom bareHeader 0 none text₂ = text₃ at h₃ ⊢
  have h₄ := describes_url.replaced none text₃
  generalize replaceFrom urlCredentials 0 none text₃ = text₄ at h₄ ⊢
  have h₅ := describes_token.replaced none text₄
  generalize replaceFrom accessToken 0 none text₄ = text₅ at h₅ ⊢
  -- each kind is settled where it is replaced, and stays so under every kind behind it
  have quoted := describes_quoted.marked h₂
  have bare := describes_bare.marked h₃
  have url := describes_url.marked h₄
  have token := describes_token.marked h₅
  have hassigned : Steady AssignedSpot none text₅ := by
    have h := steady_assigned h₁ (.inl rfl)
    have h := steady_assigned_of_marked opensAt_quoted describes_quoted.outside_of_erases h quoted
    have h := steady_assigned_of_marked opensAt_bare describes_bare.outside_of_erases h bare
    have h := steady_assigned_of_marked (opensAt_url.mono isLeadEnd_of_isSlash)
      describes_url.outside_of_erases h url
    exact steady_assigned_of_marked (opensAt_token _) describes_token.outside_of_erases h token
  have hquoted : Settled QuotedSpot none text₅ := by
    have h := settled_quoted_of_bare (settled_quoted h₂ none) h₃
    have h := settled_quoted_of_marked opensAt_url stops_url h url
    exact settled_quoted_of_marked (opensAt_token _) stops_token h token
  have hbare : Steady BareSpot none text₅ := by
    have h := steady_bare_of_marked opensAt_url (steady_bare h₃ (.inl rfl)) url
    exact steady_bare_of_marked (opensAt_token _) h token
  have hurl : Steady UrlSpot none text₅ :=
    steady_url_of_marked (opensAt_token _) TokenSpot.isUserChar_of_erases
      (steady_url h₄ (.inl rfl)) token
  have htoken : Steady TokenSpot none text₅ := steady_token h₅ (.inl rfl)
  intro entry hentry
  simp only [kinds, List.mem_cons, List.not_mem_nil, or_false] at hentry
  rcases hentry with rfl | rfl | rfl | rfl | rfl
  · exact describes_assigned.settled hassigned
  · exact hquoted
  · exact describes_bare.settled hbare
  · exact describes_url.settled hurl
  · exact describes_token.settled htoken

/-- **A redacted text is settled for every kind of secret.** Each finder finds the spots of its kind
and no others, and logs nothing but marks for their secrets. Where it still finds one in a redacted
text, the secret of that is the mark already; so replacing the secrets of any kind leaves the text as
it is, and so does redacting it. -/
theorem redact_settled (text : List Char) :
    kinds.map Prod.fst = finders ∧
      (∀ entry ∈ kinds, Finds entry.1 entry.2 ∧
        (∀ before spot rest, entry.2 before spot rest → IsShown spot.shown) ∧
        Settled entry.2 none (redact text)) ∧
      (∀ find ∈ finders, replaceAll find (redact text) = redact text) ∧
      redact (redact text) = redact text := by
  have hsame : ∀ find ∈ finders, replaceAll find (redact text) = redact text := by
    intro find hfind
    obtain ⟨entry, hentry, rfl⟩ := List.mem_map.1 (show find ∈ kinds.map Prod.fst from hfind)
    exact (describes_of_mem_kinds hentry).replaceFrom_of_settled (settled_redact text entry hentry)
  refine ⟨rfl, fun entry hentry => ?_, hsame, ?_⟩
  · have hdescribes := describes_of_mem_kinds hentry
    exact ⟨hdescribes.finds, fun _ _ _ hspot => hdescribes.isShown hspot,
      settled_redact text entry hentry⟩
  · show finders.foldl (fun text find => replaceAll find text) (redact text) = redact text
    generalize redact text = redacted at hsame ⊢
    generalize finders = rest at hsame ⊢
    induction rest with
    | nil => rfl
    | cons find rest ih =>
      obtain ⟨hfind, hrest⟩ := List.forall_mem_cons.1 hsame
      rw [List.foldl_cons, hfind]
      exact ih hrest

end CompactShell.Log
