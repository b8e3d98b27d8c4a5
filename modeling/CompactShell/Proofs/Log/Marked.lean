import CompactShell.Proofs.Log.Spots

/-!
# Texts with marks

Replacing the secrets of a kind goes through a text from left to right (`Replaced`). What it leaves
is the text with some parts replaced by marks (`Marked`), where the kind says which parts those are
and what stands around them. A mark starts and ends with a character that stands in no name and in
no header, so what looks like one behind the replacing was there before it (`Marked.back`), at the
same place between the same parts.
-/

namespace CompactShell.Log

open Text

theorem lastOr_append (before : Option Char) (a b : List Char) :
    lastOr before (a ++ b) = lastOr (lastOr before a) b := by
  induction a generalizing before with
  | nil => rfl
  | cons c a ih => exact ih (some c)

theorem lastOr_of_ne_nil {a : List Char} (hne : a ≠ []) (before before' : Option Char) :
    lastOr before a = lastOr before' a := by
  cases a with
  | nil => exact absurd rfl hne
  | cons c a => rfl

/-! ## Marks -/

/-- What is logged for a secret: a mark, or one for a user name and one for a password. -/
def IsShown (shown : List Char) : Prop :=
  shown = mark ∨ shown = mark ++ ':' :: mark

/-- The characters of what is logged for secrets. -/
def markLetters : List Char :=
  "<redacted>:".toList

namespace IsShown

variable {shown : List Char}

theorem exists_start (h : IsShown shown) : ∃ more, shown = '<' :: more := by
  rcases h with rfl | rfl
  · exact ⟨_, rfl⟩
  · exact ⟨_, rfl⟩

theorem exists_end (h : IsShown shown) : ∃ more, shown = more ++ ['>'] := by
  rcases h with rfl | rfl
  · exact ⟨"<redacted".toList, rfl⟩
  · exact ⟨"<redacted>:<redacted".toList, rfl⟩

theorem mem_markLetters (h : IsShown shown) {c : Char} (hc : c ∈ shown) : c ∈ markLetters := by
  rcases h with rfl | rfl
  · revert c
    decide
  · revert c
    decide

end IsShown

/-- Nothing of the text can stand inside a mark: it has neither end of one in it, and a character
that no mark has. -/
structure IsForeign (text : List Char) : Prop where
  ends : ∀ c ∈ text, c ≠ '<' ∧ c ≠ '>'
  other : ∃ c ∈ text, c ∉ markLetters

theorem IsForeign.not_mem_start {text : List Char} (h : IsForeign text) : '<' ∉ text :=
  fun hin => (h.ends '<' hin).1 rfl

theorem IsForeign.not_inside {text shown a b rest rest' : List Char} (h : IsForeign text)
    (hshown : IsShown shown) (hsplit : shown = a ++ b) (hne : b ≠ []) :
    b ++ rest ≠ text ++ rest' := by
  obtain ⟨more, hend⟩ := hshown.exists_end
  have hlast : '>' ∈ b := by
    rcases List.eq_nil_or_concat b with hnil | ⟨init, c, rfl⟩
    · exact absurd hnil hne
    · rw [List.concat_eq_append] at hsplit ⊢
      rw [hend, ← List.append_assoc] at hsplit
      have hc := List.append_inj_right' hsplit rfl
      rw [← hc]
      exact List.mem_append_right _ (List.mem_singleton_self _)
  intro hsame
  rcases List.append_eq_append_iff.1 hsame with ⟨more, htext, -⟩ | ⟨more, hb, -⟩
  · exact (h.ends '>' (htext ▸ List.mem_append_left _ hlast)).2 rfl
  · obtain ⟨c, hc, hout⟩ := h.other
    have hin : c ∈ shown := hsplit ▸ List.mem_append_right _ (hb ▸ List.mem_append_left _ hc)
    exact hout (hshown.mem_markLetters hin)

/-! ## Replacing as a relation -/

/-- Replacing the secrets of a kind from left to right. A character stays where no spot starts, and
the replacing goes on behind a spot. -/
inductive Replaced (kind : Kind) : Option Char → List Char → List Char → Prop
  | nil {before : Option Char} : Replaced kind before [] []
  | keep {before : Option Char} {c : Char} {text text' : List Char}
      (hnone : ∀ spot rest, c :: text = spot.text ++ rest → ¬ kind before spot rest)
      (h : Replaced kind (some c) text text') : Replaced kind before (c :: text) (c :: text')
  | spot {before : Option Char} {spot : Spot} {rest rest' text text' : List Char}
      (htext : text = spot.text ++ rest) (htext' : text' = spot.logged ++ rest')
      (hspot : kind before spot rest) (h : Replaced kind (lastOr before spot.text) rest rest') :
      Replaced kind before text text'

/-- What all kinds of secrets have in common, with the finder of the kind. -/
structure Describes (kind : Kind) (find : Finder) : Prop where
  finds : Finds find kind
  secret_ne_nil : ∀ {before spot rest}, kind before spot rest → spot.secret ≠ []
  isShown : ∀ {before spot rest}, kind before spot rest → IsShown spot.shown
  /-- A spot starts with something that no mark has. -/
  isForeign : ∀ {before spot rest}, kind before spot rest →
    ∃ front back, spot.text = front ++ back ∧ IsForeign front
  /-- No word goes on behind a secret. -/
  outside : ∀ {before spot rest}, kind before spot rest →
    insideWord (spot.close ++ rest).head? = false

namespace Describes

variable {kind : Kind} {find : Finder} {before : Option Char} {spot : Spot} {rest : List Char}

theorem text_ne_nil (h : Describes kind find) (hspot : kind before spot rest) : spot.text ≠ [] := by
  unfold Spot.text
  intro hnil
  exact h.secret_ne_nil hspot (List.append_eq_nil_iff.1 (List.append_eq_nil_iff.1 hnil).1).2

theorem length_lt (h : Describes kind find) (hspot : kind before spot rest) :
    rest.length < (spot.text ++ rest).length := by
  have hpos := List.length_pos_iff.2 (h.text_ne_nil hspot)
  rw [List.length_append]
  omega

theorem replaced (h : Describes kind find) (before : Option Char) (text : List Char) :
    Replaced kind before text (replaceFrom find 0 before text) := by
  induction hlength : text.length using Nat.strong_induction_on generalizing before text with
  | h n ih =>
    cases text with
    | nil => exact .nil
    | cons c text =>
      cases hfind : find before (c :: text) with
      | none =>
        rw [replaceFrom, hfind]
        refine .keep ?_ (ih _ ?_ (some c) text rfl)
        · intro spot rest htext hspot
          rw [(h.finds _ _ _).2 ⟨spot, rest, htext, hspot, rfl⟩] at hfind
          cases hfind
        · rw [← hlength, List.length_cons]
          omega
      | some finding =>
        obtain ⟨spot, rest, htext, hspot, rfl⟩ := (h.finds _ _ _).1 hfind
        rw [htext] at hfind hlength ⊢
        rw [replaceFrom_of_found (h.text_ne_nil hspot) hfind]
        exact .spot rfl rfl hspot (ih _ (hlength ▸ h.length_lt hspot) _ rest rfl)

/-- There is one spot at a place. -/
theorem unique (h : Describes kind find) {spot' : Spot} {rest' : List Char}
    (hspot : kind before spot rest) (hspot' : kind before spot' rest')
    (htext : spot.text ++ rest = spot'.text ++ rest') :
    spot.text = spot'.text ∧ spot.logged = spot'.logged := by
  have hfind := (h.finds before _ _).2 ⟨spot, rest, rfl, hspot, rfl⟩
  rw [(h.finds before _ _).2 ⟨spot', rest', htext, hspot', rfl⟩] at hfind
  injection hfind with hfinding
  injection hfinding with hlogged hlength
  exact ⟨(List.append_inj htext hlength.symm).1, hlogged.symm⟩

end Describes

/-! ## Marked texts -/

/-- Which secrets are replaced: what is in front of one, the secret, what is logged for it and what
is behind it. -/
abbrev Erasure := Option Char → List Char → List Char → List Char → Prop

/-- A secret stands behind a character of the class, or starts like an access token. -/
def Erasure.OpensAt (erases : Erasure) (opens : Char → Bool) : Prop :=
  ∀ before secret shown rest, erases before secret shown rest →
    before.any opens = true ∨ secret.head? = some 'g'

/-- What a secret behind another character starts with. -/
theorem Erasure.OpensAt.head?_eq {erases : Erasure} {opens : Char → Bool} (h : erases.OpensAt opens)
    {before : Option Char} (hbefore : before.any opens = false) {secret shown rest : List Char}
    (herases : erases before secret shown rest) : secret.head? = some 'g' := by
  rcases h before secret shown rest herases with hopen | hstart
  · rw [hbefore] at hopen
    cases hopen
  · exact hstart

/-- The secrets of a kind. -/
def Kind.erases (kind : Kind) : Erasure := fun before secret shown rest =>
  ∃ front spot behind, kind front spot behind ∧ before = lastOr front spot.lead ∧
    secret = spot.secret ∧ shown = spot.shown ∧ rest = spot.close ++ behind

/-- A text with some of the secrets replaced by marks. -/
inductive Marked (erases : Erasure) : Option Char → List Char → List Char → Prop
  | nil {before : Option Char} : Marked erases before [] []
  | keep {before : Option Char} {c : Char} {text text' : List Char}
      (h : Marked erases (some c) text text') : Marked erases before (c :: text) (c :: text')
  | secret {before : Option Char} {secret shown rest rest' text text' : List Char}
      (htext : text = secret ++ rest) (htext' : text' = shown ++ rest') (hne : secret ≠ [])
      (hshown : IsShown shown) (herases : erases before secret shown rest)
      (h : Marked erases (lastOr before secret) rest rest') : Marked erases before text text'

namespace Marked

variable {erases : Erasure} {before : Option Char} {text text' : List Char}

theorem append (x : List Char) (h : Marked erases (lastOr before x) text text') :
    Marked erases before (x ++ text) (x ++ text') := by
  induction x generalizing before with
  | nil => exact h
  | cons c x ih => exact .keep (ih h)

/-- What has no start of a mark in it was there before. -/
theorem front {x b' : List Char} (h : Marked erases before text (x ++ b')) (hx : '<' ∉ x) :
    ∃ b, text = x ++ b ∧ Marked erases (lastOr before x) b b' := by
  induction x generalizing before text with
  | nil => exact ⟨text, rfl, h⟩
  | cons c x ih =>
    rw [List.cons_append] at h
    cases h with
    | keep h =>
      obtain ⟨b, rfl, hb⟩ := ih h fun hin => hx (List.mem_cons_of_mem _ hin)
      exact ⟨b, rfl, hb⟩
    | secret htext htext' hne hshown =>
      obtain ⟨more, rfl⟩ := hshown.exists_start
      rw [List.cons_append] at htext'
      exact absurd ((List.cons.inj htext').1 ▸ List.mem_cons_self) hx

/-- **What no mark has a part of was there before**, at the same place: behind the same character,
unless a secret ended there. -/
theorem back {x a' b' : List Char} (h : Marked erases before text (a' ++ (x ++ b')))
    (hx : IsForeign x) :
    ∃ a b, text = a ++ (x ++ b) ∧
      (lastOr before a = lastOr before a' ∨
        ∃ front secret shown, erases front secret shown (x ++ b)) ∧
      Marked erases (lastOr before (a ++ x)) b b' := by
  generalize htext' : a' ++ (x ++ b') = text' at h
  induction h generalizing a' with
  | nil =>
    obtain ⟨c, hc, -⟩ := hx.other
    have hnil := (List.append_eq_nil_iff.1 (List.append_eq_nil_iff.1 htext').2).1
    rw [hnil] at hc
    cases hc
  | @keep before c text text' h ih =>
    cases a' with
    | nil =>
      rw [List.nil_append] at htext'
      obtain ⟨b, htext, hb⟩ := front (htext' ▸ h.keep) hx.not_mem_start
      exact ⟨[], b, htext, .inl rfl, hb⟩
    | cons d a' =>
      rw [List.cons_append, List.cons.injEq] at htext'
      obtain ⟨rfl, htext'⟩ := htext'
      obtain ⟨a, b, rfl, hbefore, hb⟩ := ih htext'
      exact ⟨d :: a, b, rfl, hbefore, hb⟩
  | @secret before secret shown rest rest' text text' htext hmarked hne hshown herases h ih =>
    -- what is looked for starts right behind the mark, further behind it or inside it
    have hbehind (hrest : rest' = x ++ b') : ∃ a b, text = a ++ (x ++ b) ∧
        (lastOr before a = lastOr before a' ∨
          ∃ front secret shown, erases front secret shown (x ++ b)) ∧
        Marked erases (lastOr before (a ++ x)) b b' := by
      obtain ⟨b, rfl, hb⟩ := front (hrest ▸ h) hx.not_mem_start
      refine ⟨secret, b, htext, .inr ⟨before, secret, shown, herases⟩, ?_⟩
      rw [lastOr_append]
      exact hb
    rw [hmarked] at htext'
    rcases List.append_eq_append_iff.1 htext' with ⟨k, hk, hrest⟩ | ⟨k, hk, hrest⟩
    · by_cases hnil : k = []
      · rw [hnil] at hrest
        exact hbehind hrest.symm
      · exact absurd hrest.symm (hx.not_inside hshown hk hnil)
    · by_cases hnil : k = []
      · rw [hnil] at hrest
        exact hbehind hrest
      · obtain ⟨a, b, hrest', hbefore, hb⟩ := ih hrest.symm
        refine ⟨secret ++ a, b, by rw [htext, hrest', List.append_assoc], ?_, ?_⟩
        · rw [hk, lastOr_append, lastOr_append, lastOr_of_ne_nil hnil (lastOr before shown)]
          exact hbefore
        · rw [List.append_assoc, lastOr_append]
          exact hb

/-- What has no secret in it stays. -/
theorem kept {opens : Char → Bool} (hopens : erases.OpensAt opens)
    {x b : List Char} (h : Marked erases before (x ++ b) text')
    (hbefore : before.any opens = false) (hx : ∀ c ∈ x, opens c = false ∧ c ≠ 'g') :
    ∃ b', text' = x ++ b' ∧ Marked erases (lastOr before x) b b' := by
  induction x generalizing before text' with
  | nil => exact ⟨text', rfl, h⟩
  | cons c x ih =>
    obtain ⟨hc, hx⟩ := List.forall_mem_cons.1 hx
    rw [List.cons_append] at h
    cases h with
    | keep h =>
      obtain ⟨b', rfl, hb⟩ := ih h hc.1 hx
      exact ⟨b', rfl, hb⟩
    | @secret _ secret _ _ _ _ _ htext _ hne _ herases =>
      cases secret with
      | nil => exact absurd rfl hne
      | cons d secret =>
        have hg := hopens.head?_eq hbefore herases
        rw [List.head?_cons, Option.some.injEq] at hg
        rw [List.cons_append] at htext
        exact absurd ((List.cons.inj htext).1.trans hg) hc.2

/-- A run of a class stays one up to the same character, if the secrets are in the class. -/
theorem run {p : Char → Bool}
    (hsecret : ∀ before secret shown rest, erases before secret shown rest →
      (∀ c ∈ secret, p c = true) ∧ ∀ c ∈ shown, p c = true)
    {s' r' : List Char} {d : Char} (h : Marked erases before text (s' ++ d :: r'))
    (hs' : ∀ c ∈ s', p c = true) (hd : p d = false) :
    ∃ s r, text = s ++ d :: r ∧ (∀ c ∈ s, p c = true) ∧ (s = [] → s' = []) ∧
      Marked erases (some d) r r' := by
  generalize htext' : s' ++ d :: r' = text' at h
  induction h generalizing s' with
  | nil =>
    have hcons := (List.append_eq_nil_iff.1 htext').2
    cases hcons
  | @keep before c text text' h ih =>
    cases s' with
    | nil =>
      obtain ⟨rfl, rfl⟩ := List.cons.inj htext'
      exact ⟨[], text, rfl, by simp, fun _ => rfl, h⟩
    | cons e s' =>
      rw [List.cons_append, List.cons.injEq] at htext'
      obtain ⟨rfl, htext'⟩ := htext'
      obtain ⟨he, hs'⟩ := List.forall_mem_cons.1 hs'
      obtain ⟨s, r, rfl, hs, -, hr⟩ := ih hs' htext'
      refine ⟨e :: s, r, rfl, List.forall_mem_cons.2 ⟨he, hs⟩, ?_, hr⟩
      intro hnil
      cases hnil
  | @secret before secret shown rest rest' text text' htext hmarked hne hshown herases h ih =>
    obtain ⟨hclass, hclass'⟩ := hsecret _ _ _ _ herases
    rw [hmarked] at htext'
    -- the character that ends the run stands in no mark
    have hbehind : ∃ k, s' = shown ++ k ∧ rest' = k ++ d :: r' := by
      rcases List.append_eq_append_iff.1 htext' with ⟨k, hk, hrest⟩ | hbehind
      · cases k with
        | nil => exact ⟨[], by rw [hk, List.append_nil, List.append_nil], hrest.symm⟩
        | cons e k =>
          rw [List.cons_append, List.cons.injEq] at hrest
          have hin := hclass' d (hk ▸ List.mem_append_right _ (hrest.1 ▸ List.mem_cons_self))
          rw [hd] at hin
          cases hin
      · exact hbehind
    obtain ⟨k, hk, hrest⟩ := hbehind
    obtain ⟨s, r, hrest', hs, -, hr⟩ :=
      ih (fun c hc => hs' c (hk ▸ List.mem_append_right _ hc)) hrest.symm
    refine ⟨secret ++ s, r, by rw [htext, hrest', List.append_assoc], ?_, ?_, hr⟩
    · intro c hc
      rcases List.mem_append.1 hc with hc | hc
      · exact hclass c hc
      · exact hs c hc
    · intro hnil
      exact absurd (List.append_eq_nil_iff.1 hnil).1 hne

/-- Only a secret changes the character that a text starts with. -/
theorem head?_cases (h : Marked erases before text text') :
    text'.head? = text.head? ∨
      ∃ secret shown rest, secret.head? = text.head? ∧ secret ≠ [] ∧
        erases before secret shown rest := by
  cases h with
  | nil => exact .inl rfl
  | keep h => exact .inl rfl
  | @secret _ secret shown rest _ _ _ htext _ hne _ herases =>
    refine .inr ⟨secret, shown, rest, ?_, hne, herases⟩
    rw [htext, List.head?_append_of_ne_nil _ hne]

/-- What starts with a character of a class did so before, if the secrets that stand there do. -/
theorem head {p : Char → Bool} (h : Marked erases before text text')
    (hsecret : ∀ secret shown rest, erases before secret shown rest → secret.head?.all p = true)
    (hhead : text'.head?.any p = true) : text.head?.any p = true := by
  rcases h.head?_cases with hsame | ⟨secret, shown, rest, hsame, hne, herases⟩
  · rwa [← hsame]
  · cases secret with
    | nil => exact absurd rfl hne
    | cons c secret =>
      rw [← hsame]
      exact hsecret _ _ _ herases

/-- **A run without secrets stays as long as it is.** -/
theorem kept_run {opens p : Char → Bool} (hopens : erases.OpensAt opens) {x b : List Char}
    (h : Marked erases before (x ++ b) text') (hbefore : before.any opens = false)
    (hx : ∀ c ∈ x, opens c = false ∧ c ≠ 'g') (hrun : ∀ c ∈ x, p c = true)
    (hb : ∀ c ∈ b.head?, p c = false) (hg : p 'g' = true) : text'.takeWhile p = x := by
  obtain ⟨b', rfl, hb'⟩ := h.kept hopens hbefore hx
  refine takeWhile_run hrun ?_
  have hlast : (lastOr before x).any opens = false := by
    rcases List.eq_nil_or_concat x with rfl | ⟨init, c, rfl⟩
    · exact hbefore
    · rw [List.concat_eq_append] at hx ⊢
      rw [lastOr_concat]
      exact (hx c (List.mem_append_right _ (List.mem_singleton_self c))).1
  rcases hb'.head?_cases with hsame | ⟨secret, _, _, hsame, -, herases⟩
  · rw [hsame]
    exact hb
  · rw [hopens.head?_eq hlast herases] at hsame
    rw [hb 'g' hsame.symm] at hg
    cases hg

theorem mem (h : Marked erases before text text') {c : Char} (hc : c ∈ text')
    (hother : c ∉ markLetters) : c ∈ text := by
  induction h with
  | nil => exact hc
  | keep h ih =>
    rcases List.mem_cons.1 hc with rfl | hc
    · exact List.mem_cons_self
    · exact List.mem_cons_of_mem _ (ih hc)
  | secret htext htext' hne hshown herases h ih =>
    rw [htext'] at hc
    rw [htext]
    rcases List.mem_append.1 hc with hc | hc
    · exact absurd (hshown.mem_markLetters hc) hother
    · exact List.mem_append_right _ (ih hc)

end Marked

section Erases

variable {kind : Kind} {find : Finder}

/-- What replacing leaves is the text with its secrets replaced by marks. -/
theorem Describes.marked (h : Describes kind find) {before : Option Char} {text text' : List Char}
    (hreplaced : Replaced kind before text text') : Marked kind.erases before text text' := by
  induction hreplaced with
  | nil => exact .nil
  | keep _ _ ih => exact .keep ih
  | @spot before spot rest rest' text text' htext htext' hspot _ ih =>
    rw [htext, htext', Spot.text_append, Spot.logged_append]
    refine .append spot.lead (.secret rfl rfl (h.secret_ne_nil hspot) (h.isShown hspot)
      ⟨before, spot, rest, hspot, rfl, rfl, rfl, rfl⟩ (.append spot.close ?_))
    rw [← lastOr_append, ← lastOr_append, ← List.append_assoc]
    exact ih

theorem Describes.outside_of_erases (h : Describes kind find) (before : Option Char)
    (secret shown rest : List Char) (herases : kind.erases before secret shown rest) :
    insideWord rest.head? = false := by
  obtain ⟨front, spot, behind, hspot, -, -, -, rfl⟩ := herases
  exact h.outside hspot

end Erases

end CompactShell.Log
