import CompactShell.Proofs.Log.Marked

/-!
# Settled texts

A text is settled for a kind of secrets if replacing them meets no secret but marks (`Settled`);
then it leaves the text as it is. It is steady if that is so wherever one starts to read
(`Steady`).

Replacing the secrets of a kind settles a text: neither a mark nor what stands around it makes a
secret that was none (`Describes.steady`).
-/

namespace CompactShell.Log

open Text

/-- What spots at the place have for a secret is what is logged for it. -/
def Calm (kind : Kind) (before : Option Char) (text : List Char) : Prop :=
  ∀ spot rest, text = spot.text ++ rest → kind before spot rest → spot.secret = spot.shown

/-- So it is at every place of the text. -/
def Steady (kind : Kind) (before : Option Char) (text : List Char) : Prop :=
  ∀ front back, text = front ++ back → Calm kind (lastOr before front) back

/-- So it is at the places that replacing comes to, from left to right. -/
inductive Settled (kind : Kind) : Option Char → List Char → Prop
  | nil {before : Option Char} : Settled kind before []
  | keep {before : Option Char} {c : Char} {text : List Char}
      (hnone : ∀ spot rest, c :: text = spot.text ++ rest → ¬ kind before spot rest)
      (h : Settled kind (some c) text) : Settled kind before (c :: text)
  | spot {before : Option Char} {spot : Spot} {rest text : List Char}
      (htext : text = spot.text ++ rest) (hspot : kind before spot rest)
      (hsecret : spot.secret = spot.shown) (h : Settled kind (lastOr before spot.text) rest) :
      Settled kind before text

theorem Spot.logged_eq_text {spot : Spot} (h : spot.secret = spot.shown) :
    spot.logged = spot.text := by
  unfold Spot.logged Spot.text
  rw [h]

theorem Spot.secret_eq_shown {spot : Spot} (h : spot.logged = spot.text) :
    spot.secret = spot.shown := by
  unfold Spot.logged Spot.text at h
  exact (List.append_cancel_left (List.append_cancel_right h)).symm

section Kinds

variable {kind : Kind} {find : Finder} {before : Option Char} {text : List Char}

theorem Steady.tail {c : Char} (h : Steady kind before (c :: text)) : Steady kind (some c) text := by
  intro front back htext
  exact h (c :: front) back (by rw [htext, List.cons_append])

theorem Steady.cons {c : Char} (hc : Calm kind before (c :: text)) (h : Steady kind (some c) text) :
    Steady kind before (c :: text) := by
  intro front back htext
  cases front with
  | nil =>
    rw [List.nil_append] at htext
    rw [← htext]
    exact hc
  | cons d front =>
    rw [List.cons_append, List.cons.injEq] at htext
    obtain ⟨rfl, htext⟩ := htext
    exact h front back htext

theorem Steady.append {x : List Char}
    (hx : ∀ front back, x = front ++ back → back ≠ [] →
      Calm kind (lastOr before front) (back ++ text))
    (h : Steady kind (lastOr before x) text) : Steady kind before (x ++ text) := by
  intro front back hsplit
  rcases List.append_eq_append_iff.1 hsplit with ⟨k, hk, htext⟩ | ⟨k, hk, hback⟩
  · rw [hk, lastOr_append]
    exact h k back htext
  · by_cases hnil : k = []
    · rw [hnil, List.append_nil] at hk
      rw [hnil, List.nil_append] at hback
      rw [hback, ← hk]
      exact h [] text rfl
    · rw [hback]
      exact hx front k hk hnil

namespace Describes

/-- Where there is a spot with nothing but marks, there is no other. -/
theorem calm (h : Describes kind find) {spot : Spot} {rest : List Char} (hspot : kind before spot rest)
    (hsecret : spot.secret = spot.shown) : Calm kind before (spot.text ++ rest) := by
  intro spot' rest' htext hspot'
  obtain ⟨htext', hlogged⟩ := h.unique hspot hspot' htext
  exact Spot.secret_eq_shown (by rw [← hlogged, ← htext', Spot.logged_eq_text hsecret])

/-- Nothing starts inside a mark. -/
theorem calm_mark (h : Describes kind find) {shown front back : List Char} (hshown : IsShown shown)
    (hsplit : shown = front ++ back) (hne : back ≠ []) (before : Option Char) (rest : List Char) :
    Calm kind before (back ++ rest) := by
  intro spot rest' htext hspot
  obtain ⟨start, more, hstart, hforeign⟩ := h.isForeign hspot
  rw [hstart, List.append_assoc] at htext
  exact absurd htext (hforeign.not_inside hshown hsplit hne)

/-- So it is where the mark stands already. -/
theorem calm_marked (h : Describes kind find) {lead shown close rest : List Char}
    (hspot : kind before ⟨lead, shown, shown, close⟩ rest) :
    Calm kind before (lead ++ (shown ++ (close ++ rest))) := by
  have hcalm := h.calm hspot rfl
  rwa [Spot.text_append] at hcalm

theorem settled (h : Describes kind find) (hsteady : Steady kind before text) :
    Settled kind before text := by
  -- on the length: a spot is passed at once
  induction hlength : text.length using Nat.strong_induction_on generalizing before text with
  | h n ih =>
    cases text with
    | nil => exact .nil
    | cons c text =>
      by_cases hspot : ∃ spot rest, c :: text = spot.text ++ rest ∧ kind before spot rest
      · obtain ⟨spot, rest, htext, hspot⟩ := hspot
        have hshorter := h.length_lt hspot
        rw [← htext, hlength] at hshorter
        refine .spot htext hspot (hsteady [] _ rfl spot rest htext hspot) (ih _ hshorter ?_ rfl)
        intro front back hrest
        rw [← lastOr_append]
        exact hsteady _ back (by rw [htext, hrest, List.append_assoc])
      · refine .keep ?_ (ih _ ?_ hsteady.tail rfl)
        · intro spot rest htext hkind
          exact hspot ⟨spot, rest, htext, hkind⟩
        · rw [← hlength, List.length_cons]
          omega

/-- **Replacing leaves a settled text as it is.** -/
theorem replaceFrom_of_settled (h : Describes kind find) (hsettled : Settled kind before text) :
    replaceFrom find 0 before text = text := by
  induction hsettled with
  | nil => rfl
  | @keep before c text hnone _ ih =>
    have hfind : find before (c :: text) = none := by
      rw [Option.eq_none_iff_forall_ne_some]
      intro finding hfind
      obtain ⟨spot, rest, htext, hspot, -⟩ := (h.finds _ _ _).1 hfind
      exact hnone spot rest htext hspot
    rw [replaceFrom, hfind]
    dsimp only
    rw [ih]
  | @spot before spot rest text htext hspot hsecret _ ih =>
    have hfind := (h.finds before text _).2 ⟨spot, rest, htext, hspot, rfl⟩
    rw [htext] at hfind ⊢
    rw [replaceFrom_of_found (h.text_ne_nil hspot) hfind, ih, Spot.logged_eq_text hsecret]

end Describes

/-! ## Replacing settles -/

/-- The characters in front of a text are alike for a word that starts there. -/
def Agree (before before' : Option Char) (text : List Char) : Prop :=
  insideWord before = insideWord before' ∨ insideWord text.head? = false

theorem Agree.eq_of_word {before before' : Option Char} {text : List Char}
    (h : Agree before before' text) (hword : insideWord text.head? = true) :
    insideWord before = insideWord before' := by
  rcases h with hsame | hout
  · exact hsame
  · rw [hword] at hout
    cases hout

theorem Describes.agree (h : Describes kind find) {spot : Spot} {rest : List Char}
    (hspot : kind before spot rest) (before' : Option Char) :
    Agree (lastOr before spot.text) (lastOr before' spot.logged) rest := by
  by_cases hclose : spot.close = []
  · have hout := h.outside hspot
    rw [hclose, List.nil_append] at hout
    exact .inr hout
  · unfold Spot.text Spot.logged
    rw [lastOr_append, lastOr_append _ (spot.lead ++ spot.shown), lastOr_of_ne_nil hclose]
    exact .inl rfl

/-- A kind whose spots all have something in front of the secret. -/
theorem Replaced.head?_eq (hlead : ∀ {before spot rest}, kind before spot rest → spot.lead ≠ [])
    {text' : List Char} (h : Replaced kind before text text') : text'.head? = text.head? := by
  cases h with
  | nil => rfl
  | keep hnone h => rfl
  | spot htext htext' hspot h =>
    rw [htext, htext', Spot.text_append, Spot.logged_append,
      List.head?_append_of_ne_nil _ (hlead hspot), List.head?_append_of_ne_nil _ (hlead hspot)]

/-- **Replacing settles a text**, if a character that stays starts a secret only where it did before,
and nothing starts in what leads to a secret or closes it. -/
theorem Describes.steady (h : Describes kind find)
    (hkeep : ∀ {before before' c text text' spot rest}, Agree before before' (c :: text) →
      Replaced kind (some c) text text' → c :: text' = spot.text ++ rest →
      kind before' spot rest → ∃ spot rest, c :: text = spot.text ++ rest ∧ kind before spot rest)
    (hlead : ∀ {before before' spot rest rest'}, Agree before before' (spot.text ++ rest) →
      kind before spot rest → Replaced kind (lastOr before spot.text) rest rest' →
      ∀ front back, spot.lead = front ++ back → back ≠ [] →
        Calm kind (lastOr before' front) (back ++ (spot.shown ++ (spot.close ++ rest'))))
    (hclose : ∀ {before spot rest}, kind before spot rest →
      ∀ front back, spot.close = front ++ back → back ≠ [] →
        ∀ before' rest', Calm kind before' (back ++ rest'))
    {before' : Option Char} {text' : List Char} (hreplaced : Replaced kind before text text')
    (hagree : Agree before before' text) : Steady kind before' text' := by
  induction hreplaced generalizing before' with
  | nil =>
    intro front back hnil spot rest htext hspot
    obtain ⟨-, rfl⟩ := List.append_eq_nil_iff.1 hnil.symm
    exact absurd (List.append_eq_nil_iff.1 htext.symm).1 (h.text_ne_nil hspot)
  | @keep before c text text' hnone hreplaced ih =>
    refine .cons ?_ (ih (.inl rfl))
    intro spot rest htext hspot
    obtain ⟨spot', rest', htext', hspot'⟩ := hkeep hagree hreplaced htext hspot
    exact absurd hspot' (hnone spot' rest' htext')
  | @spot before spot rest rest' text text' htext htext' hspot hreplaced ih =>
    rw [htext] at hagree
    rw [htext']
    refine .append ?_ (ih (h.agree hspot before'))
    intro front back hlogged hne
    have hshown := h.isShown hspot
    rw [Spot.logged, List.append_assoc] at hlogged
    -- in what closes the spot, in the mark, or in what leads to it
    rcases List.append_eq_append_iff.1 hlogged with ⟨k, rfl, hbehind⟩ | ⟨k, hk, rfl⟩
    · rcases List.append_eq_append_iff.1 hbehind with ⟨k', rfl, hback⟩ | ⟨k', hk', rfl⟩
      · exact hclose hspot k' back hback hne _ rest'
      · by_cases hnil : k' = []
        · rw [hnil, List.nil_append] at hne ⊢
          exact hclose hspot [] spot.close rfl hne _ rest'
        · rw [List.append_assoc]
          exact h.calm_mark hshown hk' hnil _ _
    · rw [List.append_assoc, List.append_assoc]
      by_cases hnil : k = []
      · rw [hnil, List.nil_append]
        obtain ⟨more, hstart⟩ := hshown.exists_start
        exact h.calm_mark hshown (List.nil_append _).symm (hstart ▸ List.cons_ne_nil _ _) _ _
      · exact hlead hagree hspot hreplaced front k hk hnil

end Kinds

end CompactShell.Log
