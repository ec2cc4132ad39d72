import Mathlib.Data.List.Basic

/-! # Loops that stop at the first failure

A loop attempts one item after the other. -/

namespace Fs3.Foundation

variable {α : Type*}

/-- What comes of one attempt. -/
inductive Attempt where
  | completed
  /-- It had its effect, and failed after that. -/
  | failedLate
  | failed
  deriving DecidableEq

def effects (attempt : α → Attempt) : List α → List α
  | [] => []
  | item :: items =>
    match attempt item with
    | .completed => item :: effects attempt items
    | .failedLate => [item]
    | .failed => []

section Effects

variable {attempt : α → Attempt}

theorem effects_append_of_completed {before : List α}
    (hbefore : ∀ item ∈ before, attempt item = .completed) (items : List α) :
    effects attempt (before ++ items) = before ++ effects attempt items := by
  induction before with
  | nil => rfl
  | cons item before ih =>
    rw [List.cons_append, effects, hbefore item List.mem_cons_self, List.cons_append,
      ih fun other hother => hbefore other (List.mem_cons_of_mem item hother)]

theorem effects_append_of_failure {before : List α}
    (hbefore : ∃ item ∈ before, attempt item ≠ .completed) (items : List α) :
    effects attempt (before ++ items) = effects attempt before := by
  induction before with
  | nil => simp at hbefore
  | cons item before ih =>
    rw [List.cons_append, effects, effects]
    cases hitem : attempt item with
    | completed =>
      obtain ⟨other, hother, hfailure⟩ := hbefore
      rcases List.mem_cons.mp hother with rfl | hother
      · exact absurd hitem hfailure
      · dsimp only
        rw [ih ⟨other, hother, hfailure⟩]
    | failedLate => rfl
    | failed => rfl

theorem effects_sublist (items : List α) : (effects attempt items).Sublist items := by
  induction items with
  | nil => exact .slnil
  | cons item items ih =>
    rw [effects]
    split
    next => exact ih.cons_cons item
    next => exact (List.nil_sublist items).cons_cons item
    next => exact List.nil_sublist _

/-- An item has its effect where all before it are completed and it does not fail early. -/
theorem mem_effects {items : List α} {item : α} :
    item ∈ effects attempt items ↔ ∃ before after, items = before ++ item :: after ∧
      (∀ other ∈ before, attempt other = .completed) ∧ attempt item ≠ .failed := by
  constructor
  · intro hmem
    induction items with
    | nil => cases hmem
    | cons first items ih =>
      rw [effects] at hmem
      cases hfirst : attempt first with
      | completed =>
        rw [hfirst] at hmem
        rcases List.mem_cons.mp hmem with rfl | hmem
        · exact ⟨[], items, rfl, by simp, by simp [hfirst]⟩
        · obtain ⟨before, after, rfl, hbefore, hitem⟩ := ih hmem
          refine ⟨first :: before, after, rfl, fun other hother => ?_, hitem⟩
          rcases List.mem_cons.mp hother with rfl | hother
          · exact hfirst
          · exact hbefore other hother
      | failedLate =>
        rw [hfirst] at hmem
        cases List.mem_singleton.mp hmem
        exact ⟨[], items, rfl, by simp, by simp [hfirst]⟩
      | failed =>
        rw [hfirst] at hmem
        cases hmem
  · rintro ⟨before, after, rfl, hbefore, hitem⟩
    rw [effects_append_of_completed hbefore, effects]
    apply List.mem_append_right
    split
    next => exact List.mem_cons_self
    next => exact List.mem_cons_self
    next hfailed => exact absurd hfailed hitem

theorem effects_eq_nil {items : List α} :
    effects attempt items = [] ↔ ∀ item, items.head? = some item → attempt item = .failed := by
  cases items with
  | nil => simp [effects]
  | cons item items =>
    rw [effects]
    cases hitem : attempt item <;> simp [hitem]

theorem eq_of_mem_effects_cons {items : List α} {item other : α}
    (hfailure : attempt item ≠ .completed) (hother : other ∈ effects attempt (item :: items)) :
    other = item := by
  rw [effects] at hother
  split at hother
  next hcompleted => exact absurd hcompleted hfailure
  next => exact List.mem_singleton.mp hother
  next => cases hother

variable [DecidableEq α]

theorem filter_ne_append_cons {before after : List α} {item : α}
    (hnodup : (before ++ item :: after).Nodup) :
    (before ++ item :: after).filter (· ≠ item) = before ++ after := by
  obtain ⟨-, hafter, hdisjoint⟩ := List.nodup_append.mp hnodup
  rw [List.filter_append, List.filter_cons_of_neg (by simp)]
  congr 1
  · rw [List.filter_eq_self]
    intro other hother
    exact decide_eq_true (hdisjoint other hother item List.mem_cons_self)
  · rw [List.filter_eq_self]
    intro other hother
    have hne : other ≠ item := fun heq => (List.nodup_cons.mp hafter).1 (heq ▸ hother)
    exact decide_eq_true hne

/-- An item that fails is without consequence for the others if and only if the
loop would have ended there anyway. -/
theorem effects_filter_iff {items : List α} (hnodup : items.Nodup) {item : α}
    (hfailure : attempt item ≠ .completed) :
    (∀ other, other ≠ item →
      (other ∈ effects attempt items ↔ other ∈ effects attempt (items.filter (· ≠ item)))) ↔
    ∀ before after, items = before ++ item :: after →
      (∀ other ∈ before, attempt other = .completed) → effects attempt after = [] := by
  constructor
  · rintro hsame before after rfl hbefore
    rw [List.eq_nil_iff_forall_not_mem]
    intro other hother
    have hafter : other ∈ after := (effects_sublist after).subset hother
    obtain ⟨-, hrest, hdisjoint⟩ := List.nodup_append.mp hnodup
    have hne : other ≠ item := fun heq => (List.nodup_cons.mp hrest).1 (heq ▸ hafter)
    have hmem := hsame other hne
    rw [filter_ne_append_cons hnodup, effects_append_of_completed hbefore,
      effects_append_of_completed hbefore] at hmem
    rcases List.mem_append.mp (hmem.mpr (List.mem_append_right before hother)) with h | h
    · exact hdisjoint other h other (List.mem_cons_of_mem item hafter) rfl
    · exact hne (eq_of_mem_effects_cons hfailure h)
  · intro hends other hne
    by_cases hitem : item ∈ items
    · obtain ⟨before, after, rfl⟩ := List.append_of_mem hitem
      rw [filter_ne_append_cons hnodup]
      by_cases hbefore : ∀ other ∈ before, attempt other = .completed
      · rw [effects_append_of_completed hbefore, effects_append_of_completed hbefore,
          hends before after rfl hbefore, List.append_nil, List.mem_append]
        constructor
        · rintro (h | h)
          · exact h
          · exact absurd (eq_of_mem_effects_cons hfailure h) hne
        · exact Or.inl
      · push Not at hbefore
        rw [effects_append_of_failure hbefore, effects_append_of_failure hbefore]
    · rw [List.filter_eq_self.mpr]
      intro other hother
      have hne : other ≠ item := fun heq => hitem (heq ▸ hother)
      exact decide_eq_true hne

end Effects

end Fs3.Foundation
