import Mathlib.Data.List.Infix
import Mathlib.Data.List.Lex
import Mathlib.Order.Lattice

/-! # Prefixes in the lexicographic order

The lists that start with a given list stand together in the order, and the list itself comes
before all others of them. -/

namespace Fs3.Foundation

variable {α : Type*} [LinearOrder α] {pre a b : List α}

theorem cons_le_cons_iff {x y : α} : x :: a ≤ y :: b ↔ x < y ∨ x = y ∧ a ≤ b := by
  rw [← not_lt, List.cons_lt_cons_iff, ← not_lt, not_or, not_lt, not_and]
  constructor
  · rintro ⟨hle, hsame⟩
    rcases hle.lt_or_eq with hlt | rfl
    · exact Or.inl hlt
    · exact Or.inr ⟨rfl, hsame rfl⟩
  · rintro (hlt | ⟨rfl, hle⟩)
    · exact ⟨hlt.le, fun heq => absurd heq hlt.ne'⟩
    · exact ⟨le_rfl, fun _ => hle⟩

theorem le_of_isPrefix (hpre : pre <+: a) : pre ≤ a := by
  obtain ⟨rest, rfl⟩ := hpre
  rw [← not_lt]
  exact List.not_lt.mpr List.le_append_left

theorem isPrefix_of_le_of_le (hfirst : pre ≤ a) (hle : a ≤ b) (hlast : pre <+: b) :
    pre <+: a := by
  induction pre generalizing a b with
  | nil => exact List.nil_prefix
  | cons x pre ih =>
    obtain ⟨rest, rfl⟩ := hlast
    cases a with
    | nil => exact absurd hfirst (not_le.mpr (List.nil_lt_cons x pre))
    | cons y a =>
      rw [List.cons_append, cons_le_cons_iff] at hle
      rw [cons_le_cons_iff] at hfirst
      rcases hfirst with hlt | ⟨rfl, hfirst⟩
      · rcases hle with hlt' | ⟨rfl, -⟩
        · exact absurd hlt (lt_asymm hlt')
        · exact absurd hlt (lt_irrefl y)
      · have hle' : a ≤ pre ++ rest := (hle.resolve_left (lt_irrefl x)).2
        exact (List.prefix_cons_inj x).mpr (ih hfirst hle' (List.prefix_append _ _))

theorem not_isPrefix_of_le (hpast : pre ≤ a) (hnot : ¬ pre <+: a) (hle : a ≤ b) :
    ¬ pre <+: b := fun hlast => hnot (isPrefix_of_le_of_le hpast hle hlast)

@[simp]
theorem append_lt_append_iff : pre ++ a < pre ++ b ↔ a < b := by
  induction pre with
  | nil => rfl
  | cons x pre ih => rw [List.cons_append, List.cons_append, List.cons_lt_cons_iff]; simp [ih]

@[simp]
theorem append_le_append_iff : pre ++ a ≤ pre ++ b ↔ a ≤ b := by
  rw [← not_lt, append_lt_append_iff, not_lt]

theorem lt_append_self (hne : b ≠ []) : a < a ++ b := by
  have hnil : a ++ [] < a ++ b := append_lt_append_iff.mpr (by
    obtain ⟨x, b, rfl⟩ := List.exists_cons_of_ne_nil hne
    exact List.nil_lt_cons x b)
  rwa [List.append_nil] at hnil

theorem append_lt_of_lt (hlt : a < b) (hnot : ¬ a <+: b) (rest : List α) : a ++ rest < b := by
  rw [← not_le]
  intro hle
  exact hnot (isPrefix_of_le_of_le hlt.le hle (List.prefix_append a rest))

theorem append_separator_lt {sep : α} (hsep : sep ∉ b) (hlt : a < b) (hle : b ≤ a ++ [sep]) :
    b ++ [sep] < a ++ [sep] := by
  refine append_lt_of_lt (hle.lt_of_ne fun heq => ?_) (fun hpre => ?_) _
  · rw [heq] at hsep
    exact hsep (List.mem_append_right a List.mem_cons_self)
  · rcases List.prefix_concat_iff.mp hpre with heq | hpre
    · rw [heq] at hsep
      exact hsep (List.mem_append_right a List.mem_cons_self)
    · exact absurd hlt (not_lt.mpr (le_of_isPrefix hpre))

end Fs3.Foundation
