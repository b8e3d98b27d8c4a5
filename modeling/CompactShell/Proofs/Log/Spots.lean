import CompactShell.Proofs.Log.Secrets

/-!
# Where the secrets are

A finder answers with what is logged and with a length. Here a place where it finds a secret is
taken apart: what leads to the secret, the secret, what is logged for it and what closes it
(`Spot`). Each kind of secret is a relation that says which spots there are between a character and
a rest, and its finder finds the spots of that relation and no others (`Finds`).
-/

namespace CompactShell.Log

open Text Shell

/-- A place where there is a secret. -/
structure Spot where
  lead : List Char
  secret : List Char
  /-- What is logged for the secret. -/
  shown : List Char
  close : List Char

def Spot.text (spot : Spot) : List Char :=
  spot.lead ++ spot.secret ++ spot.close

def Spot.logged (spot : Spot) : List Char :=
  spot.lead ++ spot.shown ++ spot.close

theorem Spot.text_append (spot : Spot) (rest : List Char) :
    spot.text ++ rest = spot.lead ++ (spot.secret ++ (spot.close ++ rest)) := by
  rw [Spot.text, List.append_assoc, List.append_assoc]

theorem Spot.logged_append (spot : Spot) (rest : List Char) :
    spot.logged ++ rest = spot.lead ++ (spot.shown ++ (spot.close ++ rest)) := by
  rw [Spot.logged, List.append_assoc, List.append_assoc]

theorem Spot.text_append_of_open (lead secret shown rest : List Char) :
    Spot.text ⟨lead, secret, shown, []⟩ ++ rest = lead ++ (secret ++ rest) :=
  Spot.text_append ⟨lead, secret, shown, []⟩ rest

/-- Which spots there are behind a character and in front of a rest. -/
abbrev Kind := Option Char → Spot → List Char → Prop

/-- The finder finds the spots of the kind and no others. -/
def Finds (find : Finder) (kind : Kind) : Prop :=
  ∀ before text finding, find before text = some finding ↔
    ∃ spot rest, text = spot.text ++ rest ∧ kind before spot rest ∧
      finding = ⟨spot.logged, spot.text.length⟩

/-! ## Runs of a class -/

/-- What is said of the characters of a text is decided by going through the text, not through all
the characters that there are. -/
instance (priority := 2000) decidableForallMem {P : Char → Prop} [DecidablePred P]
    (text : List Char) : Decidable (∀ c ∈ text, P c) :=
  List.decidableBAll P text

section Runs

variable {p : Char → Bool} {run rest : List Char}

theorem takeWhile_run (hrun : ∀ c ∈ run, p c = true) (hrest : ∀ c ∈ rest.head?, p c = false) :
    (run ++ rest).takeWhile p = run := by
  rw [List.takeWhile_append_of_pos hrun]
  cases rest with
  | nil => exact List.append_nil run
  | cons c rest =>
    rw [List.takeWhile_cons, hrest c rfl]
    exact List.append_nil run

theorem dropWhile_run (hrun : ∀ c ∈ run, p c = true) (hrest : ∀ c ∈ rest.head?, p c = false) :
    (run ++ rest).dropWhile p = rest := by
  rw [List.dropWhile_append_of_pos hrun]
  cases rest with
  | nil => rfl
  | cons c rest =>
    rw [List.dropWhile_cons, hrest c rfl]
    rfl

/-- A text is taken apart into a run of a class and the rest in one way only. -/
theorem run_unique {run' rest' : List Char} (hrun : ∀ c ∈ run, p c = true)
    (hrest : ∀ c ∈ rest.head?, p c = false) (hrun' : ∀ c ∈ run', p c = true)
    (hrest' : ∀ c ∈ rest'.head?, p c = false) (h : run ++ rest = run' ++ rest') :
    run = run' ∧ rest = rest' := by
  have hsame := congrArg (List.takeWhile p) h
  have hbehind := congrArg (List.dropWhile p) h
  rw [takeWhile_run hrun hrest, takeWhile_run hrun' hrest'] at hsame
  rw [dropWhile_run hrun hrest, dropWhile_run hrun' hrest'] at hbehind
  exact ⟨hsame, hbehind⟩

/-- A text taken apart where a class ends. -/
theorem exists_run (p : Char → Bool) (text : List Char) :
    ∃ run rest, text = run ++ rest ∧ (∀ c ∈ run, p c = true) ∧ (∀ c ∈ rest.head?, p c = false) ∧
      text.takeWhile p = run ∧ text.dropWhile p = rest :=
  ⟨text.takeWhile p, text.dropWhile p, List.takeWhile_append_dropWhile.symm,
    fun _ hc => List.mem_takeWhile_imp hc, head?_dropWhile, rfl, rfl⟩

end Runs

/-! ## Characters of words -/

theorem isWordChar_of_isAlphanum {c : Char} (h : c.isAlphanum = true) : isWordChar c = true := by
  have hsmall : c.toNat < 128 := by
    obtain ⟨range, hrange, -, hhigh⟩ := covers_iff.1 (isAlphanum_iff.1 h)
    have hlimit : ∀ range ∈ [(48, 57), (65, 90), (97, 122)], range.2 ≤ 122 := by decide
    have := hlimit range hrange
    omega
  rw [isWordChar, isAlphanumeric, if_pos hsmall, h, Bool.or_true]

theorem isWordChar_of_isKeyChar {c : Char} (h : isKeyChar c = true) : isWordChar c = true := by
  by_cases hfolded : c ∈ foldedLetters
  · have hall : foldedLetters.all isWordChar = true := by decide +kernel
    exact List.all_eq_true.1 hall c hfolded
  · rw [isKeyChar, Bool.or_eq_true, decide_eq_true_eq] at h
    rcases h with h | rfl
    · have hother : (!foldedLetters.contains c) = true := by
        rw [Bool.not_eq_true', ← Bool.not_eq_true, List.contains_iff_mem]
        exact hfolded
      rw [fold_of_class (p := fun d => !foldedLetters.contains d) (by decide) hother,
        isAlphanum_toLower] at h
      exact isWordChar_of_isAlphanum h
    · decide

theorem not_isWordChar_of_isSpace {c : Char} (h : isSpace c = true) : isWordChar c = false := by
  have hunderscore : decide (c = '_') = false := by
    rw [decide_eq_false_iff_not]
    rintro rfl
    cases h
  rw [isWordChar, hunderscore, Bool.false_or, isAlphanumeric]
  split
  · rw [Bool.eq_false_iff, ne_eq, isAlphanum_iff, Bool.not_eq_true]
    exact not_covers_of_apart (by decide) h
  · exact not_covers_of_apart (by decide +kernel) h

theorem not_isWordChar_of_isQuote {c : Char} (h : isQuote c = true) : isWordChar c = false := by
  simp only [isQuote, Bool.or_eq_true, decide_eq_true_eq] at h
  rcases h with rfl | rfl
  · decide
  · decide

/-! ## Words in any case -/

theorem splitFolded?_eq_some_iff {word text taken rest : List Char} :
    splitFolded? word text = some (taken, rest) ↔
      text = taken ++ rest ∧ taken.map fold = word := by
  induction word generalizing text taken rest with
  | nil =>
    rw [splitFolded?, Option.some.injEq, Prod.mk.injEq, List.map_eq_nil_iff]
    constructor
    · rintro ⟨rfl, rfl⟩
      exact ⟨rfl, rfl⟩
    · rintro ⟨rfl, rfl⟩
      exact ⟨rfl, rfl⟩
  | cons w word ih =>
    cases text with
    | nil =>
      rw [splitFolded?]
      constructor
      · intro h
        cases h
      · rintro ⟨htext, hword⟩
        rw [(List.append_eq_nil_iff.1 htext.symm).1] at hword
        cases hword
    | cons c text =>
      rw [splitFolded?]
      constructor
      · intro h
        split at h
        · rename_i hc
          obtain ⟨⟨more, behind⟩, hmore, hpair⟩ := Option.map_eq_some_iff.1 h
          obtain ⟨htext, hword⟩ := ih.1 hmore
          cases hpair
          rw [htext, List.map_cons, hc, hword]
          exact ⟨rfl, rfl⟩
        · cases h
      · rintro ⟨htext, hword⟩
        cases taken with
        | nil => cases hword
        | cons d taken =>
          obtain ⟨rfl, hrest⟩ := List.cons.inj htext
          obtain ⟨hc, hmore⟩ := List.cons.inj hword
          rw [if_pos hc, ih.2 ⟨hrest, hmore⟩]
          rfl

/-- The name of an authorization header in any case, with its colon. -/
def IsHeader (header : List Char) : Prop :=
  ∃ word gap, header = word ++ gap ++ [':'] ∧ word.map fold = "authorization".toList ∧
    ∀ c ∈ gap, isSpace c = true

theorem headerName?_eq_some_iff {text header rest : List Char} :
    headerName? text = some (header, rest) ↔ text = header ++ rest ∧ IsHeader header := by
  unfold headerName?
  rw [Option.bind_eq_some_iff]
  constructor
  · rintro ⟨⟨word, behind⟩, hword, h⟩
    obtain ⟨rfl, hfold⟩ := splitFolded?_eq_some_iff.1 hword
    dsimp only at h
    split at h
    · rename_i after hafter
      cases h
      refine ⟨?_, word, behind.takeWhile isSpace, rfl, hfold, fun c hc => List.mem_takeWhile_imp hc⟩
      rw [List.append_assoc, List.append_assoc, List.singleton_append, ← hafter,
        List.takeWhile_append_dropWhile]
    · cases h
  · rintro ⟨rfl, word, gap, rfl, hfold, hgap⟩
    refine ⟨(word, gap ++ ':' :: rest), splitFolded?_eq_some_iff.2 ⟨by simp, hfold⟩, ?_⟩
    have hcolon : ∀ c ∈ (':' :: rest).head?, isSpace c = false := by
      rintro c ⟨⟩
      decide
    dsimp only
    rw [dropWhile_run hgap hcolon, takeWhile_run hgap hcolon]
    rfl

/-- The scheme of a web address in any case. -/
def IsScheme (scheme : List Char) : Prop :=
  scheme.map fold = "https://".toList ∨ scheme.map fold = "http://".toList

theorem webScheme?_eq_some_iff {text scheme rest : List Char} :
    webScheme? text = some (scheme, rest) ↔ text = scheme ++ rest ∧ IsScheme scheme := by
  unfold webScheme?
  rw [Option.orElse_eq_orElse, Option.orElse_eq_or, Option.or_eq_some_iff, splitFolded?_eq_some_iff,
    splitFolded?_eq_some_iff]
  constructor
  · rintro (⟨htext, hfold⟩ | ⟨-, htext, hfold⟩)
    · exact ⟨htext, .inl hfold⟩
    · exact ⟨htext, .inr hfold⟩
  · rintro ⟨htext, hfold | hfold⟩
    · exact .inl ⟨htext, hfold⟩
    · refine .inr ⟨?_, htext, hfold⟩
      -- the two schemes differ behind their first four letters
      rw [Option.eq_none_iff_forall_ne_some]
      rintro ⟨other, behind⟩ hother
      obtain ⟨htext', hfold'⟩ := splitFolded?_eq_some_iff.1 hother
      have hsame := congrArg (fun text => (text.map fold).take 5) (htext.symm.trans htext')
      simp only [List.map_append, hfold, hfold'] at hsame
      cases hsame

theorem IsHeader.not_isSpace_head {header : List Char} (h : IsHeader header) (rest : List Char) :
    ∀ c ∈ (header ++ rest).head?, isSpace c = false := by
  obtain ⟨word, gap, rfl, hfold, -⟩ := h
  intro c hc
  cases word with
  | nil => cases hfold
  | cons d word =>
    cases hc
    by_contra hspace
    rw [Bool.not_eq_false] at hspace
    have hkey := isKeyChar_of_isSpace hspace
    rw [isKeyChar, (List.cons.inj hfold).1] at hkey
    cases hkey

theorem not_isSpace_of_isQuote {c : Char} (h : isQuote c = true) : isSpace c = false := by
  simp only [isQuote, Bool.or_eq_true, decide_eq_true_eq] at h
  rcases h with rfl | rfl
  · decide
  · decide

theorem not_isQuote_of_isSpace {c : Char} (h : isSpace c = true) : isQuote c = false := by
  by_contra hquote
  rw [Bool.not_eq_false] at hquote
  rw [not_isSpace_of_isQuote hquote] at h
  cases h

/-! ## The five kinds -/

/-- A value behind a name that speaks of a secret, up to white space or the end. -/
inductive AssignedSpot : Kind
  | intro {before : Option Char} {name value rest : List Char}
      (houtside : insideWord before = false) (hname : ∀ c ∈ name, isKeyChar c = true)
      (hkeyword : (keywords.any fun word => holds word (name.map fold)) = true)
      (hne : value ≠ []) (hvalue : ∀ c ∈ value, isSpace c = false)
      (hrest : ∀ c ∈ rest.head?, isSpace c = true) :
      AssignedSpot before ⟨name ++ ['='], value, mark, []⟩ rest

/-- A value behind the name of a header, all inside quotes. It is white space only if there is
nothing else. -/
inductive QuotedSpot : Kind
  | intro {before : Option Char} {quote closing : Char} {gap header after value rest : List Char}
      (hquote : isQuote quote = true) (hgap : ∀ c ∈ gap, isSpace c = true)
      (hheader : IsHeader header) (hafter : ∀ c ∈ after, isSpace c = true) (hne : value ≠ [])
      (hvalue : ∀ c ∈ value, isQuote c = false)
      (hstart : ∀ c ∈ value.head?, isSpace c = true → value = [c])
      (hclosing : isQuote closing = true) :
      QuotedSpot before ⟨quote :: gap ++ header ++ after, value, mark, [closing]⟩ rest

/-- A value behind the name of a header, up to white space, a quote or the end. -/
inductive BareSpot : Kind
  | intro {before : Option Char} {header after value rest : List Char}
      (hheader : IsHeader header) (hafter : ∀ c ∈ after, isSpace c = true) (hne : value ≠ [])
      (hvalue : ∀ c ∈ value, (!isSpace c && !isQuote c) = true)
      (hrest : ∀ c ∈ rest.head?, (!isSpace c && !isQuote c) = false) :
      BareSpot before ⟨header ++ after, value, mark, []⟩ rest

/-- A character of a user name in a web address. -/
def isUserChar (c : Char) : Bool :=
  !isSpace c && c != '/' && c != ':' && c != '@'

/-- A character of a password in a web address. -/
def isPasswordChar (c : Char) : Bool :=
  !isSpace c && c != '@'

theorem isUserChar_colon (rest : List Char) : ∀ c ∈ (':' :: rest).head?, isUserChar c = false := by
  intro c hc
  cases hc
  decide

theorem isPasswordChar_at (rest : List Char) :
    ∀ c ∈ ('@' :: rest).head?, isPasswordChar c = false := by
  intro c hc
  cases hc
  decide

/-- What stands in front of an at sign is a user name and a password in one way only. -/
theorem credentials_unique {user password user' password' rest rest' : List Char}
    (husers : ∀ c ∈ user, isUserChar c = true)
    (hpasswords : ∀ c ∈ password, isPasswordChar c = true)
    (husers' : ∀ c ∈ user', isUserChar c = true)
    (hpasswords' : ∀ c ∈ password', isPasswordChar c = true)
    (h : user ++ ':' :: (password ++ '@' :: rest) = user' ++ ':' :: (password' ++ '@' :: rest')) :
    user = user' ∧ password = password' := by
  obtain ⟨huser, hbehind⟩ :=
    run_unique husers (isUserChar_colon _) husers' (isUserChar_colon _) h
  obtain ⟨hpassword, -⟩ := run_unique hpasswords (isPasswordChar_at _) hpasswords'
    (isPasswordChar_at _) (List.cons.inj hbehind).2
  exact ⟨huser, hpassword⟩

/-- The user name and the password in a web address. -/
inductive UrlSpot : Kind
  | intro {before : Option Char} {scheme user password rest : List Char}
      (hscheme : IsScheme scheme) (huser : user ≠ []) (husers : ∀ c ∈ user, isUserChar c = true)
      (hpassword : password ≠ []) (hpasswords : ∀ c ∈ password, isPasswordChar c = true) :
      UrlSpot before ⟨scheme, user ++ ':' :: password, mark ++ ':' :: mark, ['@']⟩ rest

/-- An access token that stands as a word. -/
inductive TokenSpot : Kind
  | intro {before : Option Char} {kind : Char} {body rest : List Char}
      (houtside : insideWord before = false) (hkind : kind ∈ ['p', 'o', 'u', 's', 'r'])
      (hbody : ∀ c ∈ body, c.isAlphanum = true) (hlength : 20 ≤ body.length)
      (hrest : insideWord rest.head? = false) :
      TokenSpot before ⟨[], 'g' :: 'h' :: kind :: '_' :: body, mark, []⟩ rest

theorem finds_assigned : Finds assignedSecret AssignedSpot := by
  intro before text finding
  rw [assignedSecret_eq]
  constructor
  · intro h
    obtain ⟨name, behind, rfl, hname, -, htake, hdrop⟩ := exists_run isKeyChar text
    rw [htake, hdrop] at h
    split at h
    · cases h
    · rename_i houtside
      rw [Bool.not_eq_true] at houtside
      unfold assigned at h
      split at h
      · rename_i rest
        obtain ⟨value, rest, rfl, hvalue, hrest, htake, -⟩ := exists_run (!isSpace ·) rest
        dsimp only at h
        rw [htake] at h
        split at h
        · rename_i hfound
          rw [Bool.and_eq_true, Bool.not_eq_true', List.isEmpty_eq_false_iff] at hfound
          cases h
          simp only [Bool.not_eq_true'] at hvalue
          simp only [Bool.not_eq_false'] at hrest
          refine ⟨_, rest, ?_, .intro houtside hname hfound.1 hfound.2 hvalue hrest, ?_⟩
          · simp [Spot.text]
          · simp [Spot.text, Spot.logged, Nat.add_comm 1, Nat.add_assoc]
        · cases h
      · cases h
  · rintro ⟨spot, rest, rfl, ⟨houtside, hname, hkeyword, hne, hvalue, hrest⟩, rfl⟩
    rename_i name value
    have hstop : ∀ c ∈ ('=' :: (value ++ rest)).head?, isKeyChar c = false := by
      rintro c ⟨⟩
      decide
    have hsolid : ∀ c ∈ value, (!isSpace c) = true := by simpa only [Bool.not_eq_true'] using hvalue
    have hend : ∀ c ∈ rest.head?, (!isSpace c) = false := by
      simpa only [Bool.not_eq_false'] using hrest
    have htext : Spot.text ⟨name ++ ['='], value, mark, []⟩ ++ rest =
        name ++ '=' :: (value ++ rest) := by
      simp [Spot.text]
    rw [htext, houtside, if_neg Bool.false_ne_true, takeWhile_run hname hstop,
      dropWhile_run hname hstop, assigned, takeWhile_run hsolid hend, hkeyword,
      List.isEmpty_eq_false_iff.2 hne, Bool.not_false, Bool.and_self, if_pos rfl]
    simp [Spot.text, Spot.logged, Nat.add_comm 1, Nat.add_assoc]

theorem exists_spot_of_quotedHeader {before : Option Char} {text : List Char} {finding : Finding}
    (h : quotedHeader before text = some finding) :
    ∃ spot rest, text = spot.text ++ rest ∧ QuotedSpot before spot rest ∧
      finding = ⟨spot.logged, spot.text.length⟩ := by
  unfold quotedHeader at h
  split at h
  · cases h
  · rename_i quote inner
    split at h
    · cases h
    · rename_i hquote
      rw [Bool.not_eq_true, Bool.not_eq_false'] at hquote
      obtain ⟨gap, inner, rfl, hgap, -, hgap', hinner⟩ := exists_run isSpace inner
      rw [hgap', hinner] at h
      obtain ⟨⟨header, behind⟩, hname, hfound⟩ := Option.bind_eq_some_iff.1 h
      obtain ⟨rfl, hheader⟩ := headerName?_eq_some_iff.1 hname
      obtain ⟨after, behind, rfl, hafter, hhead, hafter', hbehind⟩ := exists_run isSpace behind
      obtain ⟨value, tail, rfl, hvalue, htail, hvalue', htail'⟩ := exists_run (!isQuote ·) behind
      dsimp only at hfound
      rw [hafter', hbehind, hvalue', htail'] at hfound
      simp only [Bool.not_eq_true'] at hvalue
      split at hfound
      · cases hfound
      · rename_i closing rest
        have hclosing := htail closing rfl
        rw [Bool.not_eq_false'] at hclosing
        split at hfound
        · rename_i hne
          rw [Bool.not_eq_true', List.isEmpty_eq_false_iff] at hne
          cases hfound
          refine ⟨_, rest, ?_, .intro hquote hgap hheader hafter hne hvalue ?_ hclosing, ?_⟩
          · simp [Spot.text]
          · intro c hc hspace
            rw [hhead c (by rw [List.head?_append_of_ne_nil _ hne]; exact hc)] at hspace
            cases hspace
          · simp [Spot.text, Spot.logged]
            omega
        · -- the last of the white space is the value
          rename_i hempty
          rw [Bool.not_eq_true, Bool.not_eq_false', List.isEmpty_iff] at hempty
          rcases List.eq_nil_or_concat after with rfl | ⟨after, c, rfl⟩
          · cases hfound
          · rw [List.concat_eq_append] at hafter hfound ⊢
            obtain ⟨hafter, hlast⟩ := List.forall_mem_append.1 hafter
            have hplain : ∀ d ∈ [c], isQuote d = false :=
              fun d hd => not_isQuote_of_isSpace (hlast d hd)
            rw [if_pos (by simp), List.dropLast_concat] at hfound
            cases hfound
            refine ⟨_, rest, ?_, .intro hquote hgap hheader hafter (List.cons_ne_nil c []) hplain
              ?_ hclosing, ?_⟩
            · simp [Spot.text, hempty]
            · rintro d ⟨⟩ -
              rfl
            · simp [Spot.text, Spot.logged]
              omega

theorem quotedHeader_of_spot {before : Option Char} {spot : Spot} {rest : List Char}
    (h : QuotedSpot before spot rest) :
    quotedHeader before (spot.text ++ rest) = some ⟨spot.logged, spot.text.length⟩ := by
  obtain ⟨hquote, hgap, hheader, hafter, hne, hvalue, hstart, hclosing⟩ := h
  rename_i quote closing gap header after value
  have hplain : ∀ c ∈ value, (!isQuote c) = true := by simpa only [Bool.not_eq_true'] using hvalue
  have hend : ∀ c ∈ (closing :: rest).head?, (!isQuote c) = false := by
    rintro c ⟨⟩
    rw [hclosing]
    rfl
  have hspace : ∀ c ∈ (closing :: rest).head?, isSpace c = false := by
    rintro c ⟨⟩
    exact not_isSpace_of_isQuote hclosing
  have htext : Spot.text ⟨quote :: gap ++ header ++ after, value, mark, [closing]⟩ ++ rest =
      quote :: (gap ++ (header ++ (after ++ (value ++ closing :: rest)))) := by
    simp [Spot.text]
  rw [htext, quotedHeader, hquote, Bool.not_true, if_neg Bool.false_ne_true,
    takeWhile_run hgap (hheader.not_isSpace_head _), dropWhile_run hgap (hheader.not_isSpace_head _),
    headerName?_eq_some_iff.2 ⟨rfl, hheader⟩, Option.bind_some]
  dsimp only
  cases value with
  | nil => exact absurd rfl hne
  | cons c value =>
    cases hc : isSpace c with
    | true =>
      obtain rfl : value = [] := (List.cons.inj (hstart c rfl hc)).2
      have hafter' : ∀ d ∈ after ++ [c], isSpace d = true := by
        refine List.forall_mem_append.2 ⟨hafter, fun d hd => ?_⟩
        rw [List.mem_singleton.1 hd]
        exact hc
      rw [← List.append_assoc after, takeWhile_run hafter' hspace, dropWhile_run hafter' hspace,
        List.takeWhile_cons, List.dropWhile_cons, hend closing rfl]
      simp [Spot.text, Spot.logged, Nat.add_assoc]
    | false =>
      have hhead : ∀ d ∈ (c :: value ++ closing :: rest).head?, isSpace d = false := by
        rintro d ⟨⟩
        exact hc
      rw [takeWhile_run hafter hhead, dropWhile_run hafter hhead, takeWhile_run hplain hend,
        dropWhile_run hplain hend]
      simp [Spot.text, Spot.logged]
      omega

theorem finds_quoted : Finds quotedHeader QuotedSpot := by
  intro before text finding
  constructor
  · exact exists_spot_of_quotedHeader
  · rintro ⟨spot, rest, rfl, hspot, rfl⟩
    exact quotedHeader_of_spot hspot

theorem finds_bare : Finds bareHeader BareSpot := by
  intro before text finding
  unfold bareHeader
  rw [Option.bind_eq_some_iff]
  constructor
  · rintro ⟨⟨header, behind⟩, hname, h⟩
    obtain ⟨rfl, hheader⟩ := headerName?_eq_some_iff.1 hname
    obtain ⟨after, behind, rfl, hafter, -, hafter', hbehind⟩ := exists_run isSpace behind
    obtain ⟨value, rest, rfl, hvalue, hrest, hvalue', -⟩ :=
      exists_run (fun c => !isSpace c && !isQuote c) behind
    dsimp only at h
    rw [hafter', hbehind, hvalue'] at h
    split at h
    · cases h
    · rename_i hne
      rw [Bool.not_eq_true, List.isEmpty_eq_false_iff] at hne
      cases h
      refine ⟨_, rest, ?_, .intro hheader hafter hne hvalue hrest, ?_⟩
      · simp [Spot.text]
      · simp [Spot.text, Spot.logged, Nat.add_assoc]
  · rintro ⟨spot, rest, rfl, ⟨hheader, hafter, hne, hvalue, hrest⟩, rfl⟩
    rename_i header after value
    refine ⟨(header, after ++ (value ++ rest)), headerName?_eq_some_iff.2 ⟨?_, hheader⟩, ?_⟩
    · simp [Spot.text]
    · have hhead : ∀ c ∈ (value ++ rest).head?, isSpace c = false := by
        intro c hc
        rw [List.head?_append_of_ne_nil _ hne] at hc
        have hsolid := hvalue c (List.mem_of_mem_head? hc)
        rw [Bool.and_eq_true, Bool.not_eq_true'] at hsolid
        exact hsolid.1
      dsimp only
      rw [takeWhile_run hafter hhead, dropWhile_run hafter hhead, takeWhile_run hvalue hrest,
        List.isEmpty_eq_false_iff.2 hne, if_neg Bool.false_ne_true]
      simp [Spot.text, Spot.logged, Nat.add_assoc]

theorem finds_url : Finds urlCredentials UrlSpot := by
  intro before text finding
  unfold urlCredentials
  rw [Option.bind_eq_some_iff]
  constructor
  · rintro ⟨⟨scheme, behind⟩, hread, h⟩
    obtain ⟨rfl, hscheme⟩ := webScheme?_eq_some_iff.1 hread
    obtain ⟨user, behind, rfl, husers, -, huser', -⟩ :=
      exists_run (fun c => !isSpace c && c != '/' && c != ':' && c != '@') behind
    dsimp only at h
    rw [huser', List.drop_left] at h
    split at h
    · rename_i rest
      obtain ⟨password, rest, rfl, hpasswords, -, hpassword', -⟩ :=
        exists_run (fun c => !isSpace c && c != '@') rest
      rw [hpassword', List.drop_left] at h
      split at h
      · rename_i hfound
        rw [Bool.and_eq_true, Bool.and_eq_true, Bool.not_eq_true', Bool.not_eq_true',
          List.isEmpty_eq_false_iff, List.isEmpty_eq_false_iff, beq_iff_eq,
          List.head?_eq_some_iff] at hfound
        obtain ⟨⟨⟨rest, rfl⟩, huser⟩, hpassword⟩ := hfound
        cases h
        refine ⟨_, rest, ?_, .intro hscheme huser husers hpassword hpasswords, ?_⟩
        · simp [Spot.text]
        · simp [Spot.text, Spot.logged]
          omega
      · cases h
    · cases h
  · rintro ⟨spot, rest, rfl, ⟨hscheme, huser, husers, hpassword, hpasswords⟩, rfl⟩
    rename_i scheme user password
    have huser' := takeWhile_run husers (isUserChar_colon (password ++ '@' :: rest))
    have hpassword' := takeWhile_run hpasswords (isPasswordChar_at rest)
    unfold isUserChar at huser'
    unfold isPasswordChar at hpassword'
    refine ⟨(scheme, user ++ ':' :: (password ++ '@' :: rest)),
      webScheme?_eq_some_iff.2 ⟨?_, hscheme⟩, ?_⟩
    · simp [Spot.text]
    · dsimp only
      rw [huser', List.drop_left]
      simp only [hpassword', List.drop_left, List.isEmpty_eq_false_iff.2 huser,
        List.isEmpty_eq_false_iff.2 hpassword]
      simp [Spot.text, Spot.logged]
      omega

theorem finds_token : Finds accessToken TokenSpot := by
  intro before text finding
  unfold accessToken
  constructor
  · intro h
    split at h
    · rename_i kind rest
      obtain ⟨body, rest, rfl, hbody, -, hbody', -⟩ := exists_run Char.isAlphanum rest
      dsimp only at h
      rw [hbody', List.drop_left] at h
      split at h
      · rename_i hfound
        simp only [Bool.and_eq_true, Bool.not_eq_true', decide_eq_true_eq,
          List.contains_iff_mem] at hfound
        obtain ⟨⟨⟨houtside, hkind⟩, hlength⟩, hrest⟩ := hfound
        cases h
        refine ⟨_, rest, ?_, .intro houtside hkind hbody hlength hrest, ?_⟩
        · simp [Spot.text]
        · simp [Spot.text, Spot.logged]
      · cases h
    · cases h
  · rintro ⟨spot, rest, rfl, ⟨houtside, hkind, hbody, hlength, hrest⟩, rfl⟩
    rename_i kind body
    have htext : Spot.text ⟨[], 'g' :: 'h' :: kind :: '_' :: body, mark, []⟩ ++ rest =
        'g' :: 'h' :: kind :: '_' :: (body ++ rest) := by
      simp [Spot.text]
    have hstop : ∀ c ∈ rest.head?, c.isAlphanum = false := by
      intro c hc
      by_contra hletter
      rw [Bool.not_eq_false] at hletter
      have hword : insideWord rest.head? = isWordChar c := by
        rw [Option.mem_def.1 hc]
        rfl
      rw [hword, isWordChar_of_isAlphanum hletter] at hrest
      cases hrest
    rw [htext]
    simp only [takeWhile_run hbody hstop, List.drop_left, houtside, hrest,
      List.contains_iff_mem.2 hkind, decide_eq_true hlength]
    simp [Spot.text, Spot.logged]

end CompactShell.Log
