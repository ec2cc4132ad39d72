import Mathlib.Data.List.Basic
import Mathlib.Data.List.TakeWhile

/-! # Binary search

`search` halves the range of indexes until it has the first one with a property, as `sort.Search`
does. -/

namespace Fs3.Foundation

/-- The loop of `sort.Search`. -/
def searchLoop (f : Nat → Bool) (i j : Nat) : Nat :=
  if i < j then
    let h := (i + j) / 2
    if f h then searchLoop f i h else searchLoop f (h + 1) j
  else i
termination_by j - i

/-- `sort.Search`. -/
def search (n : Nat) (f : Nat → Bool) : Nat := searchLoop f 0 n

variable {n : Nat} {f : Nat → Bool}

theorem searchLoop_spec (hmono : ∀ a b, a ≤ b → b < n → f a = true → f b = true) {i j : Nat}
    (hle : i ≤ j) (hjn : j ≤ n) (hlow : ∀ k < i, f k = false)
    (hhigh : ∀ k, j ≤ k → k < n → f k = true) :
    searchLoop f i j ≤ n ∧ (∀ k < searchLoop f i j, f k = false) ∧
      ∀ k, searchLoop f i j ≤ k → k < n → f k = true := by
  fun_induction searchLoop f i j with
  | case1 i j hlt h hf ih =>
    refine ih (by omega) (by omega) hlow fun k hk hkn => ?_
    exact hmono h k hk hkn hf
  | case2 i j hlt h hf ih =>
    refine ih (by omega) hjn (fun k hk => ?_) hhigh
    cases hfk : f k with
    | false => rfl
    | true => exact absurd (hmono k h (by omega) (by omega) hfk) hf
  | case3 i j hlt =>
    have heq : i = j := by omega
    subst heq
    exact ⟨hjn, hlow, hhigh⟩

theorem search_spec (hmono : ∀ a b, a ≤ b → b < n → f a = true → f b = true) :
    search n f ≤ n ∧ (∀ k < search n f, f k = false) ∧
      ∀ k, search n f ≤ k → k < n → f k = true :=
  searchLoop_spec hmono (Nat.zero_le n) le_rfl (fun _ hk => absurd hk (Nat.not_lt_zero _))
    fun _ hk hkn => absurd hkn (Nat.not_lt.mpr hk)

section
variable {α : Type*} {p : α → Bool} {l : List α}

def holdsAt (p : α → Bool) (l : List α) (i : Nat) : Bool := (l[i]?).any p

theorem holdsAt_of_le (hp : l.Pairwise fun a b => p a = true → p b = true) (a b : Nat)
    (hle : a ≤ b) (hb : b < l.length) (ha : holdsAt p l a = true) : holdsAt p l b = true := by
  rcases hle.lt_or_eq with hlt | rfl
  · have halen : a < l.length := hlt.trans hb
    rw [holdsAt, List.getElem?_eq_getElem halen] at ha
    rw [holdsAt, List.getElem?_eq_getElem hb]
    exact List.pairwise_iff_getElem.mp hp a b halen hb hlt ha
  · exact ha

/-- The search finds the end of what a walk passes over. -/
theorem drop_search (hp : l.Pairwise fun a b => p a = true → p b = true) :
    l.drop (search l.length (holdsAt p l)) = l.dropWhile fun a => !p a := by
  obtain ⟨hlen, hlow, hhigh⟩ := search_spec (holdsAt_of_le hp)
  set m := search l.length (holdsAt p l) with hm
  have hfront : ∀ a ∈ l.take m, (!p a) = true := by
    intro a ha
    obtain ⟨k, hk, rfl⟩ := List.mem_iff_getElem.mp ha
    have hkm : k < m := by
      rw [List.length_take] at hk
      omega
    have hfalse := hlow k hkm
    rw [holdsAt, List.getElem?_eq_getElem (hkm.trans_le hlen)] at hfalse
    rw [List.getElem_take, Bool.not_eq_true']
    exact hfalse
  conv_rhs => rw [← List.take_append_drop m l]
  rw [List.dropWhile_append_of_pos hfront]
  cases hrest : l.drop m with
  | nil => rfl
  | cons a rest =>
    have hmlen : m < l.length := by
      rw [← not_le]
      intro hle
      rw [List.drop_eq_nil_of_le hle] at hrest
      cases hrest
    have ha : l[m] = a := by
      rw [List.drop_eq_getElem_cons hmlen] at hrest
      exact (List.cons.inj hrest).1
    have htrue := hhigh m le_rfl hmlen
    rw [holdsAt, List.getElem?_eq_getElem hmlen, ha] at htrue
    rw [List.dropWhile_cons_of_neg]
    rw [show p a = true from htrue]
    exact Bool.false_ne_true

end

end Fs3.Foundation
