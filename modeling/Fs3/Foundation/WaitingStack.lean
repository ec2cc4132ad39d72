import Mathlib.Data.List.Perm.Basic
import Mathlib.Data.List.TakeWhile
import Mathlib.Order.Lattice

/-! # Output that waits on a stack

A loop over sorted input puts something out for each of its elements, at once or when its own time
has come: what has to wait is pushed on a stack, and before every element the stack gives up what
is due before it. -/

namespace Fs3.Foundation

/-- What an element of the input leads to. -/
inductive Response (β : Type*) where
  | now (b : β)
  | wait (b : β)
  | pass

namespace Response

variable {β : Type*}

def output : Response β → Option β
  | now b => some b
  | wait b => some b
  | pass => none

end Response

namespace WaitingStack

variable {α β κ : Type*} [LinearOrder κ] (key : α → κ) (due : β → κ) (visit : α → Response β)

def popped (a : α) (stack : List β) : List β := stack.takeWhile fun b => decide (due b < key a)

def kept (a : α) (stack : List β) : List β := stack.dropWhile fun b => decide (due b < key a)

def run : List α → List β → List β
  | [], stack => stack
  | a :: rest, stack =>
    popped key due a stack ++
      match visit a with
      | .now b => b :: run rest (kept key due a stack)
      | .wait b => run rest (b :: kept key due a stack)
      | .pass => run rest (kept key due a stack)

variable {key due visit}

@[simp]
theorem popped_append_kept (a : α) (stack : List β) :
    popped key due a stack ++ kept key due a stack = stack := List.takeWhile_append_dropWhile

theorem run_perm (l : List α) (stack : List β) :
    (run key due visit l stack).Perm (stack ++ l.filterMap fun a => (visit a).output) := by
  induction l generalizing stack with
  | nil => simp [run]
  | cons a rest ih =>
    have hstack : (stack ++ (a :: rest).filterMap fun a => (visit a).output) =
        popped key due a stack ++ (kept key due a stack ++
          (a :: rest).filterMap fun a => (visit a).output) := by
      rw [← List.append_assoc, popped_append_kept]
    rw [run, hstack]
    refine List.Perm.append_left _ ?_
    cases hvisit : visit a with
    | now b =>
      rw [List.filterMap_cons_some (by rw [hvisit]; rfl)]
      exact ((ih _).cons b).trans List.perm_middle.symm
    | wait b =>
      rw [List.filterMap_cons_some (by rw [hvisit]; rfl)]
      exact (ih _).trans List.perm_middle.symm
    | pass =>
      rw [List.filterMap_cons_none (by rw [hvisit]; rfl)]
      exact ih _

theorem popped_append_run {a : α} {l : List α} (hle : ∀ a' ∈ l, key a ≤ key a')
    (stack : List β) :
    popped key due a stack ++ run key due visit l (kept key due a stack) =
      run key due visit l stack := by
  cases l with
  | nil => exact popped_append_kept a stack
  | cons a' rest =>
    have hlt : ∀ b, due b < key a → due b < key a' := fun b hb =>
      hb.trans_le (hle a' List.mem_cons_self)
    have hsplit : ∀ stack : List β,
        popped key due a' stack =
            popped key due a stack ++ popped key due a' (kept key due a stack) ∧
          kept key due a' stack = kept key due a' (kept key due a stack) := by
      intro stack
      induction stack with
      | nil => exact ⟨rfl, rfl⟩
      | cons b stack ih =>
        by_cases hb : due b < key a
        · simp only [popped, kept, List.takeWhile_cons, List.dropWhile_cons, hb, hlt b hb,
            decide_true, if_true, List.cons_append] at ih ⊢
          exact ⟨congrArg _ ih.1, ih.2⟩
        · simp only [popped, kept, List.takeWhile_cons, List.dropWhile_cons, hb,
            decide_false, Bool.false_eq_true, if_false, List.nil_append, and_self]
    rw [run, run, ← List.append_assoc, ← (hsplit stack).1, ← (hsplit stack).2]

theorem run_filter {l : List α} (hsorted : l.Pairwise fun a a' => key a ≤ key a')
    {p : α → Bool} (hpass : ∀ a ∈ l, p a = false → visit a = .pass) (stack : List β) :
    run key due visit (l.filter p) stack = run key due visit l stack := by
  induction l generalizing stack with
  | nil => rfl
  | cons a rest ih =>
    obtain ⟨hle, hrest⟩ := List.pairwise_cons.mp hsorted
    have ih' := ih hrest fun a' ha' => hpass a' (List.mem_cons_of_mem _ ha')
    cases hp : p a with
    | true =>
      rw [List.filter_cons_of_pos hp, run, run]
      cases visit a <;> simp only [ih']
    | false =>
      rw [List.filter_cons_of_neg (by simp [hp]), ih', run,
        hpass a List.mem_cons_self hp]
      exact (popped_append_run hle stack).symm

theorem run_congr {visit' : α → Response β} {l : List α} (hsame : ∀ a ∈ l, visit a = visit' a)
    (stack : List β) : run key due visit l stack = run key due visit' l stack := by
  induction l generalizing stack with
  | nil => rfl
  | cons a rest ih =>
    have ih' := ih fun a' ha' => hsame a' (List.mem_cons_of_mem _ ha')
    rw [run, run, hsame a List.mem_cons_self]
    cases visit' a <;> simp only [ih']

section Order

variable {before : β → β → Prop}

/-- When the input leads to output in order. -/
structure InOrder (key : α → κ) (due : β → κ) (visit : α → Response β) (before : β → β → Prop)
    (l : List α) : Prop where
  sorted : l.Pairwise fun a a' => key a < key a'
  dueNow : ∀ a ∈ l, ∀ b, visit a = .now b → due b = key a
  dueWait : ∀ a ∈ l, ∀ b, visit a = .wait b → key a < due b
  covered : ∀ a ∈ l, ∀ a' ∈ l, ∀ b b', key a < key a' → visit a = .wait b →
    visit a' = .wait b' → key a' ≤ due b → due b' < due b
  before_of_lt : ∀ b b', due b < due b' → before b b'
  before_of_tie : ∀ a ∈ l, ∀ a' ∈ l, ∀ b b', visit a = .now b → visit a' = .wait b' →
    due b = due b' → before b b'

/-- The stack as the loop leaves it: in order, pushed by elements before the rest. -/
structure Waiting (key : α → κ) (due : β → κ) (visit : α → Response β) (l rest : List α)
    (stack : List β) : Prop where
  sorted : stack.Pairwise fun b b' => due b < due b'
  pushed : ∀ b ∈ stack, ∃ a ∈ l, visit a = .wait b ∧ ∀ a' ∈ rest, key a < key a'

theorem Waiting.kept {l : List α} {a : α} {rest : List α} {stack : List β}
    (h : Waiting key due visit l (a :: rest) stack) :
    Waiting key due visit l rest (kept key due a stack) where
  sorted := h.sorted.sublist (List.dropWhile_sublist _)
  pushed := by
    intro b hb
    obtain ⟨a', ha', hvisit, hlt⟩ := h.pushed b ((List.dropWhile_sublist _).subset hb)
    exact ⟨a', ha', hvisit, fun a'' ha'' => hlt a'' (List.mem_cons_of_mem _ ha'')⟩

theorem key_le_due_of_mem_kept {a : α} {stack : List β}
    (hsorted : stack.Pairwise fun b b' => due b < due b') :
    ∀ b ∈ kept key due a stack, key a ≤ due b := by
  induction stack with
  | nil => exact fun b hb => by cases hb
  | cons first stack ih =>
    obtain ⟨hfirst, hrest⟩ := List.pairwise_cons.mp hsorted
    intro b hb
    rw [kept, List.dropWhile_cons] at hb
    split at hb
    next => exact ih hrest b hb
    next hge =>
      rw [decide_eq_true_iff, not_lt] at hge
      rcases List.mem_cons.mp hb with rfl | hb
      · exact hge
      · exact hge.trans (hfirst b hb).le

theorem due_lt_of_mem_popped {a : α} {stack : List β} {b : β}
    (hb : b ∈ popped key due a stack) : due b < key a := by
  have hpopped := List.mem_takeWhile_imp
    (show b ∈ stack.takeWhile fun b => decide (due b < key a) from hb)
  exact of_decide_eq_true hpopped

theorem exists_of_mem_run {l rest : List α} (h : InOrder key due visit before l)
    (hsub : ∀ a ∈ rest, a ∈ l) {stack : List β} {b : β}
    (hb : b ∈ run key due visit rest stack) :
    b ∈ stack ∨ ∃ a ∈ rest, key a ≤ due b ∧
      (visit a = .now b ∨ visit a = .wait b) := by
  rcases List.mem_append.mp ((run_perm rest stack).mem_iff.mp hb) with hb | hb
  · exact Or.inl hb
  · obtain ⟨a, ha, hout⟩ := List.mem_filterMap.mp hb
    cases hvisit : visit a with
    | now b' =>
      rw [hvisit] at hout
      cases hout
      exact Or.inr ⟨a, ha, (h.dueNow a (hsub a ha) b hvisit).ge, Or.inl hvisit⟩
    | wait b' =>
      rw [hvisit] at hout
      cases hout
      exact Or.inr ⟨a, ha, (h.dueWait a (hsub a ha) b hvisit).le, Or.inr hvisit⟩
    | pass =>
      rw [hvisit] at hout
      cases hout

/-- The output is in order. -/
theorem run_pairwise {l rest : List α} (h : InOrder key due visit before l)
    (hsuffix : rest <:+ l) {stack : List β} (hstack : Waiting key due visit l rest stack) :
    (run key due visit rest stack).Pairwise before := by
  induction rest generalizing stack with
  | nil => exact hstack.sorted.imp fun hlt => h.before_of_lt _ _ hlt
  | cons a rest ih =>
    have hsub : ∀ a' ∈ a :: rest, a' ∈ l := hsuffix.subset
    have ha := hsub a List.mem_cons_self
    have hrest : rest <:+ l := (List.suffix_cons a rest).trans hsuffix
    have hnext : ∀ a' ∈ rest, key a < key a' :=
      (List.pairwise_cons.mp (h.sorted.sublist hsuffix.sublist)).1
    have hkept := hstack.kept
    have hle := @key_le_due_of_mem_kept _ _ _ _ key due a stack hstack.sorted
    rw [run, List.pairwise_append]
    refine ⟨?_, ?_, ?_⟩
    · exact (hstack.sorted.sublist (List.takeWhile_sublist _)).imp fun hlt =>
        h.before_of_lt _ _ hlt
    · cases hvisit : visit a with
      | now b =>
        refine List.pairwise_cons.mpr ⟨fun b' hb' => ?_, ih hrest hkept⟩
        have hdue := h.dueNow a ha b hvisit
        rcases exists_of_mem_run h (fun a' ha' => hrest.subset ha') hb' with
          hb' | ⟨a', ha', hle', -⟩
        · rcases (hle b' hb').lt_or_eq with hlt | heq
          · exact h.before_of_lt _ _ (hdue ▸ hlt)
          · obtain ⟨a', ha', hvisit', -⟩ := hkept.pushed b' hb'
            exact h.before_of_tie a ha a' ha' b b' hvisit hvisit' (hdue.trans heq)
        · exact h.before_of_lt _ _ (hdue ▸ (hnext a' ha').trans_le hle')
      | wait b =>
        refine ih hrest ⟨List.pairwise_cons.mpr ⟨fun b' hb' => ?_, hkept.sorted⟩, ?_⟩
        · -- What the new top covers is due after it.
          obtain ⟨a', ha', hvisit', -⟩ := hkept.pushed b' hb'
          obtain ⟨a'', ha'', hvisit'', hlt⟩ :=
            hstack.pushed b' ((List.dropWhile_sublist _).subset hb')
          exact h.covered a'' ha'' a ha b' b (hlt a List.mem_cons_self) hvisit'' hvisit
            (hle b' hb')
        · intro b' hb'
          rcases List.mem_cons.mp hb' with rfl | hb'
          · exact ⟨a, ha, hvisit, hnext⟩
          · exact hkept.pushed b' hb'
      | pass => exact ih hrest hkept
    · intro b hb b' hb'
      refine h.before_of_lt _ _ ((due_lt_of_mem_popped hb).trans_le ?_)
      have hlater : ∀ stack' : List β, (∀ b ∈ stack', key a ≤ due b) →
          ∀ b' ∈ run key due visit rest stack', key a ≤ due b' := by
        intro stack' hstack' b' hb'
        rcases exists_of_mem_run h (fun a' ha' => hrest.subset ha') hb' with
          hb' | ⟨a', ha', hle', -⟩
        · exact hstack' b' hb'
        · exact (hnext a' ha').le.trans hle'
      cases hvisit : visit a with
      | now b'' =>
        rw [hvisit] at hb'
        rcases List.mem_cons.mp hb' with rfl | hb'
        · exact (h.dueNow a ha b' hvisit).ge
        · exact hlater _ hle b' hb'
      | wait b'' =>
        rw [hvisit] at hb'
        refine hlater _ (fun b hb => ?_) b' hb'
        rcases List.mem_cons.mp hb with rfl | hb
        · exact (h.dueWait a ha b hvisit).le
        · exact hle b hb
      | pass =>
        rw [hvisit] at hb'
        exact hlater _ hle b' hb'

end Order

end WaitingStack

end Fs3.Foundation
