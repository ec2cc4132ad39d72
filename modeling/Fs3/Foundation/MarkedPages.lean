import Mathlib.Data.List.Infix
import Mathlib.Order.Lattice

/-! # Pages of a sorted listing

A listing answers with a page of its entries and a marker to go on from. -/

namespace Fs3.Foundation

variable {π κ : Type}

structure MarkedPage (π κ : Type) where
  parts : List π := []
  isTruncated : Bool := false
  next : κ

def follow (page : κ → MarkedPage π κ) : Nat → κ → Option (List π)
  | 0, _ => none
  | calls + 1, marker =>
    if (page marker).isTruncated then
      (follow page calls (page marker).next).map ((page marker).parts ++ ·)
    else some (page marker).parts

section Cut

variable (number : π → κ) (zero : κ)

def cutPage (size : Nat) (l : List π) : MarkedPage π κ where
  parts := l.take size
  isTruncated := decide (size < l.length)
  next := if size < l.length then ((l.take size).getLast?.map number).getD zero else zero

variable {number zero} {page : κ → MarkedPage π κ} {rest : κ → List π} {Good : κ → Prop}
  {size : Nat}

/-- Pages that are cut from what is left at their markers add up to it, as long as the
marker of a page leaves what its last entry does. -/
theorem follow_cutPage (hsize : 1 ≤ size)
    (hpage : ∀ marker, page marker = cutPage number zero size (rest marker))
    (hnext : ∀ marker l entry l', Good marker → rest marker = l ++ entry :: l' →
      Good (number entry) ∧ rest (number entry) = l')
    {marker : κ} (hgood : Good marker) :
    ∃ calls, follow page calls marker = some (rest marker) := by
  generalize hlength : (rest marker).length = length
  induction length using Nat.strong_induction_on generalizing marker with
  | _ length ih =>
    by_cases hmore : size < (rest marker).length
    · obtain ⟨entry, l', hdrop⟩ : ∃ entry l', (rest marker).drop (size - 1) = entry :: l' :=
        List.exists_cons_of_ne_nil (by
          intro hnil
          rw [List.drop_eq_nil_iff] at hnil
          omega)
      have hsplit : rest marker = (rest marker).take (size - 1) ++ entry :: l' := by
        rw [← hdrop, List.take_append_drop]
      have hone : (rest marker).take (size - 1 + 1) = (rest marker).take (size - 1) ++ [entry] := by
        rw [List.take_add, hdrop]
        rfl
      rw [Nat.sub_add_cancel hsize] at hone
      obtain ⟨hgood', hrest⟩ := hnext marker _ entry l' hgood hsplit
      have hshorter : l'.length < length := by
        have hcount := congrArg List.length hsplit
        rw [List.length_append, List.length_cons] at hcount
        omega
      obtain ⟨calls, hcalls⟩ := ih l'.length hshorter hgood' (by rw [hrest])
      refine ⟨calls + 1, ?_⟩
      have hmarker : (page marker).next = number entry := by
        simp only [hpage, cutPage, if_pos hmore, hone, List.getLast?_concat, Option.map_some,
          Option.getD_some]
      rw [follow, hmarker, hcalls, if_pos (by simpa [hpage, cutPage] using hmore)]
      simp only [hpage, cutPage, hrest, Option.map_some, hone]
      rw [List.append_assoc, List.singleton_append, ← hsplit]
    · refine ⟨1, ?_⟩
      rw [follow, if_neg (by simpa [hpage, cutPage] using hmore)]
      simp only [hpage, cutPage, List.take_of_length_le (Nat.le_of_not_lt hmore)]

end Cut

section Sorted

variable [LinearOrder κ] {number : π → κ} {all : List π}

/-- From a marker, the pages of every size hold what is behind the marker, and
reading them one after another ends and yields all of it. -/
def ListsAfter (number : π → κ) (all : List π) (page : Nat → κ → MarkedPage π κ) (marker : κ) :
    Prop :=
  ∀ maxParts, 1 ≤ maxParts →
    (page maxParts marker).parts <+: all.filter (marker < number ·) ∧
    (page maxParts marker).parts.length ≤ maxParts ∧
    ∃ calls, follow (page maxParts) calls marker = some (all.filter (marker < number ·))

theorem filter_behind (hsorted : all.Pairwise fun a b => number a < number b) {l l' : List π}
    {entry : π} (hall : all = l ++ entry :: l') :
    all.filter (number entry < number ·) = l' := by
  subst hall
  obtain ⟨-, htail, hbefore⟩ := List.pairwise_append.mp hsorted
  obtain ⟨hbehind, -⟩ := List.pairwise_cons.mp htail
  have hl : l.filter (number entry < number ·) = [] := by
    apply List.filter_eq_nil_iff.mpr
    intro a ha
    simpa using (hbefore a ha entry List.mem_cons_self).le
  have hl' : l'.filter (number entry < number ·) = l' := by
    apply List.filter_eq_self.mpr
    simpa using hbehind
  rw [List.filter_append, hl, List.nil_append, List.filter_cons_of_neg (by simp), hl']

variable {zero : κ} {page : Nat → κ → MarkedPage π κ}

/-- A listing that cuts its pages from what is behind the marker lists it, as far as
what its own markers leave is behind them. -/
theorem listsAfter_of_cutPage (size : Nat → Nat) (rest : κ → List π) (Good : κ → Prop)
    (hsorted : all.Pairwise fun a b => number a < number b)
    (hsize : ∀ maxParts, 1 ≤ maxParts → 1 ≤ size maxParts ∧ size maxParts ≤ maxParts)
    (hpage : ∀ maxParts, 1 ≤ maxParts → ∀ marker,
      page maxParts marker = cutPage number zero (size maxParts) (rest marker))
    (hrest : ∀ marker, Good marker → rest marker = all.filter (marker < number ·))
    (hnext : ∀ marker entry, Good marker → entry ∈ all → marker < number entry →
      Good (number entry))
    {marker : κ} (hgood : Good marker) : ListsAfter number all page marker := by
  intro maxParts hmax
  obtain ⟨hpos, hle⟩ := hsize maxParts hmax
  rw [← hrest marker hgood, hpage maxParts hmax]
  refine ⟨List.take_prefix _ _, le_trans (List.length_take_le _ _) hle, ?_⟩
  apply follow_cutPage hpos (hpage maxParts hmax) _ hgood
  intro marker l entry l' hgood hsplit
  rw [hrest marker hgood] at hsplit
  have hmem : entry ∈ all.filter (marker < number ·) := by simp [hsplit]
  obtain ⟨hall, hlt⟩ := List.mem_filter.mp hmem
  rw [decide_eq_true_eq] at hlt
  have hgood' := hnext marker entry hgood hall hlt
  refine ⟨hgood', ?_⟩
  rw [hrest _ hgood', ← filter_behind (hsorted.filter _) hsplit, List.filter_filter]
  apply List.filter_congr
  intro a _
  simpa using fun hbehind => hlt.trans hbehind

end Sorted

end Fs3.Foundation
