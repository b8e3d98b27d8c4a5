import CompactShell.Host.Basic
import Mathlib.Data.List.Basic

/-!
# Paths as they are written

The path of a place is read back as that path if each name on it can be written: it is not empty, it
holds no slash, and it is no single dot (`ofText_text_ofLocation`). Such a path starts at the root,
so no tilde in it asks for a home directory.
-/

namespace CompactShell.Host

/-- A name that is read back from the path that it is written in. -/
structure IsWrittenName (name : Name) : Prop where
  ne_nil : name ≠ []
  slash_not_mem : '/' ∉ name
  ne_dot : name ≠ ['.']

namespace Path

theorem text_ofLocation (location : Location) :
    (ofLocation location).text = '/' :: ['/'].intercalate location := rfl

variable {location : Location}

theorem rootOf_text_ofLocation (h : ∀ name ∈ location, IsWrittenName name) :
    rootOf (ofLocation location).text = .slash := by
  have hone : ((ofLocation location).text.takeWhile (· == '/')).length = 1 := by
    rw [text_ofLocation]
    cases location with
    | nil => rfl
    | cons name rest =>
      have hname := h name (List.mem_cons_self ..)
      cases name with
      | nil => exact absurd rfl hname.ne_nil
      | cons c name =>
        have hc : (c == '/') = false := by
          rw [beq_eq_false_iff_ne]
          intro heq
          exact hname.slash_not_mem (heq ▸ List.mem_cons_self ..)
        have hfront : ∃ more, ['/'].intercalate ((c :: name) :: rest) = c :: more := by
          cases rest with
          | nil => exact ⟨name, List.append_nil _⟩
          | cons other rest => exact ⟨_, rfl⟩
        -- the slash of the root is the only one in front
        obtain ⟨more, hmore⟩ := hfront
        rw [hmore, List.takeWhile_cons_of_pos rfl,
          List.takeWhile_cons_of_neg (by rw [hc]; exact Bool.false_ne_true)]
        rfl
  rw [rootOf, hone]
  rfl

theorem splitOn_text_ofLocation (h : ∀ name ∈ location, IsWrittenName name)
    (hne : location ≠ []) : (ofLocation location).text.splitOn '/' = [] :: location := by
  have hslash : ∀ name ∈ [] :: location, '/' ∉ name := by
    intro name hname
    rcases List.mem_cons.1 hname with rfl | hname
    · exact List.not_mem_nil
    · exact (h name hname).slash_not_mem
  have hwhole : (ofLocation location).text = ['/'].intercalate ([] :: location) := by
    cases location with
    | nil => exact absurd rfl hne
    | cons name rest => rfl
  rw [hwhole, List.splitOn_intercalate '/' hslash (List.cons_ne_nil _ _)]

/-- **The path of a place is read back as it is written.** -/
theorem ofText_text_ofLocation (h : ∀ name ∈ location, IsWrittenName name) :
    ofText (ofLocation location).text = ofLocation location := by
  rw [ofText, rootOf_text_ofLocation h, ofLocation]
  congr 1
  by_cases hne : location = []
  · rw [hne]
    rfl
  · have hkept : ∀ name ∈ location, (!name.isEmpty && name != ['.']) = true := by
      intro name hname
      rw [Bool.and_eq_true, Bool.not_eq_true', List.isEmpty_eq_false_iff, bne_iff_ne]
      exact ⟨(h name hname).ne_nil, (h name hname).ne_dot⟩
    have hsplit := splitOn_text_ofLocation h hne
    rw [ofLocation] at hsplit
    rw [hsplit, List.filter_cons_of_neg (by decide), List.filter_eq_self.2 hkept]

end Path

/-- A path from the root is taken as it is. -/
theorem expandHome_ofLocation (host : CompactShell.Host) (location : Location) :
    host.expandHome (.ofLocation location) = .ok (.ofLocation location) := rfl

end CompactShell.Host
