import Mathlib.Data.Finset.Card

/-! # Counting votes in a map without an order

A loop counts how often each value occurs in a map and then walks the map to find the most frequent
value. The walk visits every key once, in an order that is not specified, so the order is a
parameter. A value that occurs more often than every other one is found whatever the order is and
however ties are broken; where several values are the most frequent, any of them can be found. -/

namespace Fs3.Foundation

variable {κ : Type*} [DecidableEq κ]

/-- An order to walk the keys of a counting map in. -/
structure MapOrder (κ : Type*) [DecidableEq κ] where
  keys : List κ → List κ
  perm : ∀ votes, (keys votes).Perm votes.dedup

namespace MapOrder

@[simp]
theorem mem_keys (order : MapOrder κ) {votes : List κ} {a : κ} :
    a ∈ order.keys votes ↔ a ∈ votes := by
  rw [(order.perm votes).mem_iff, List.mem_dedup]

/-- The order that visits the values as they first occur, but `a` before all. -/
def visitFirst (a : κ) : MapOrder κ where
  keys votes := if a ∈ votes then a :: votes.dedup.erase a else votes.dedup
  perm votes := by
    split
    next hmem => exact (List.perm_cons_erase (List.mem_dedup.mpr hmem)).symm
    next => exact List.Perm.refl _

end MapOrder

def occurrences (votes : List κ) (a : κ) : Nat := votes.countP fun vote => decide (vote = a)

/-- Walk the keys, keeping the one with the largest count so far. `prefers`
says which of two keys with the same count is kept. -/
def scanCounts (votes : List κ) (prefers : κ → κ → Bool) : List κ → Nat × κ → Nat × κ
  | [], found => found
  | key :: keys, (maxima, best) =>
    let count := occurrences votes key
    if maxima < count ∨ (count = maxima ∧ prefers key best = true) then
      scanCounts votes prefers keys (count, key)
    else scanCounts votes prefers keys (maxima, best)

def mostFrequent (order : MapOrder κ) (prefers : κ → κ → Bool) (default : κ) (votes : List κ) :
    Nat × κ :=
  scanCounts votes prefers (order.keys votes) (0, default)

section Occurrences

variable {votes : List κ} {a b : κ}

theorem occurrences_pos : 0 < occurrences votes a ↔ a ∈ votes := by
  unfold occurrences
  rw [List.countP_pos_iff]
  simp

theorem occurrences_cons (vote : κ) :
    occurrences (vote :: votes) a = occurrences votes a + if vote = a then 1 else 0 := by
  unfold occurrences
  rw [List.countP_cons]
  simp

theorem occurrences_filter {p : κ → Bool} (hkept : p a = true) :
    occurrences (votes.filter p) a = occurrences votes a := by
  unfold occurrences
  rw [List.countP_filter]
  refine List.countP_congr fun vote _ => ?_
  by_cases heq : vote = a
  · simp [heq, hkept]
  · simp [heq]

variable (votes a) in
theorem occurrences_le_map {γ : Type*} [DecidableEq γ] (f : κ → γ) :
    occurrences votes a ≤ occurrences (votes.map f) (f a) := by
  unfold occurrences
  rw [List.countP_map]
  refine List.countP_mono_left fun vote _ hvote => ?_
  have heq : vote = a := of_decide_eq_true hvote
  simp [heq]

theorem occurrences_perm {votes' : List κ} (hperm : votes'.Perm votes) :
    occurrences votes' a = occurrences votes a := hperm.countP_eq _

theorem occurrences_add_le (hne : a ≠ b) :
    occurrences votes a + occurrences votes b ≤ votes.length := by
  induction votes with
  | nil => exact Nat.le_refl _
  | cons vote votes ih =>
    rw [occurrences_cons, occurrences_cons, List.length_cons]
    by_cases ha : vote = a
    · subst ha
      rw [if_pos rfl, if_neg hne]
      omega
    · rw [if_neg ha]
      split <;> omega

end Occurrences

section Scan

variable (votes : List κ) (prefers : κ → κ → Bool)

theorem scanCounts_ge (keys : List κ) (maxima : Nat) (best : κ) :
    maxima ≤ (scanCounts votes prefers keys (maxima, best)).1 ∧
      ∀ key ∈ keys, occurrences votes key ≤ (scanCounts votes prefers keys (maxima, best)).1 := by
  induction keys generalizing maxima best with
  | nil => exact ⟨Nat.le_refl _, fun key hkey => absurd hkey List.not_mem_nil⟩
  | cons key keys ih =>
    rw [scanCounts]
    split
    next htaken =>
      obtain ⟨hmaxima, hkeys⟩ := ih (occurrences votes key) key
      refine ⟨?_, fun other hother => ?_⟩
      · rcases htaken with hlt | ⟨heq, _⟩ <;> omega
      · rcases List.mem_cons.mp hother with rfl | hother
        · exact hmaxima
        · exact hkeys other hother
    next hkept =>
      obtain ⟨hmaxima, hkeys⟩ := ih maxima best
      refine ⟨hmaxima, fun other hother => ?_⟩
      rcases List.mem_cons.mp hother with rfl | hother
      · rw [not_or] at hkept
        omega
      · exact hkeys other hother

theorem scanCounts_mem (keys : List κ) (found : Nat × κ) :
    scanCounts votes prefers keys found = found ∨
      ∃ key ∈ keys, scanCounts votes prefers keys found = (occurrences votes key, key) := by
  induction keys generalizing found with
  | nil => exact Or.inl rfl
  | cons key keys ih =>
    obtain ⟨maxima, best⟩ := found
    rw [scanCounts]
    split
    next =>
      rcases ih (occurrences votes key, key) with hsame | ⟨other, hother, hresult⟩
      · exact Or.inr ⟨key, List.mem_cons_self, hsame⟩
      · exact Or.inr ⟨other, List.mem_cons_of_mem _ hother, hresult⟩
    next =>
      rcases ih (maxima, best) with hsame | ⟨other, hother, hresult⟩
      · exact Or.inl hsame
      · exact Or.inr ⟨other, List.mem_cons_of_mem _ hother, hresult⟩

end Scan

variable (order : MapOrder κ) (prefers : κ → κ → Bool) (default : κ) {votes : List κ}

theorem mostFrequent_nil : mostFrequent order prefers default [] = (0, default) := by
  have hkeys : order.keys [] = [] := List.Perm.eq_nil (order.perm [])
  rw [mostFrequent, hkeys, scanCounts]

theorem mostFrequent_spec (hne : votes ≠ []) :
    ∃ key ∈ votes, mostFrequent order prefers default votes = (occurrences votes key, key) ∧
      ∀ other ∈ votes, occurrences votes other ≤ occurrences votes key := by
  obtain ⟨first, hfirst⟩ := List.exists_mem_of_ne_nil votes hne
  unfold mostFrequent
  obtain ⟨_, hge⟩ := scanCounts_ge votes prefers (order.keys votes) 0 default
  rcases scanCounts_mem votes prefers (order.keys votes) (0, default) with
    hstart | ⟨key, hkey, hresult⟩
  · have hpos : 0 < occurrences votes first := occurrences_pos.mpr hfirst
    have hle := hge first (order.mem_keys.mpr hfirst)
    rw [hstart] at hle
    exact absurd hle (by omega)
  · refine ⟨key, order.mem_keys.mp hkey, hresult, fun other hother => ?_⟩
    have hle := hge other (order.mem_keys.mpr hother)
    rwa [hresult] at hle

theorem mostFrequent_mem (hne : votes ≠ []) :
    (mostFrequent order prefers default votes).2 ∈ votes := by
  obtain ⟨key, hkey, hresult, _⟩ := mostFrequent_spec order prefers default hne
  rw [hresult]
  exact hkey

theorem mostFrequent_of_majority (a : κ) (hmajority : votes.length < 2 * occurrences votes a) :
    mostFrequent order prefers default votes = (occurrences votes a, a) := by
  have hpos : 0 < occurrences votes a := by omega
  have hmem : a ∈ votes := occurrences_pos.mp hpos
  obtain ⟨key, hkey, hresult, hmax⟩ :=
    mostFrequent_spec order prefers default (List.ne_nil_of_mem hmem)
  by_cases heq : key = a
  · rw [hresult, heq]
  · have hshare : occurrences votes key + occurrences votes a ≤ votes.length :=
      occurrences_add_le heq
    have hle := hmax a hmem
    omega

theorem mostFrequent_fst_lt {n : Nat} (hpos : 0 < n) (hless : ∀ a ∈ votes, occurrences votes a < n) :
    (mostFrequent order prefers default votes).1 < n := by
  by_cases hne : votes = []
  · subst hne
    rw [mostFrequent_nil]
    exact hpos
  · obtain ⟨key, hkey, hresult, -⟩ := mostFrequent_spec order prefers default hne
    rw [hresult]
    exact hless key hkey

end Fs3.Foundation

/-! ## How many members are in a phase

The members of a finite population each have a value, and change it one at a
time. How many of them satisfy a property then changes by at most one.
-/

namespace Fs3.Foundation

variable {τ α : Type*} [Fintype τ]

def population (p : α → Prop) [DecidablePred p] (f : τ → α) : Nat :=
  (Finset.univ.filter fun t => p (f t)).card

section Population

variable {p q : α → Prop} [DecidablePred p] [DecidablePred q] {f : τ → α}

theorem population_eq_zero : population p f = 0 ↔ ∀ t, ¬ p (f t) := by
  rw [population, Finset.card_eq_zero, Finset.filter_eq_empty_iff]
  exact ⟨fun h t => h (Finset.mem_univ t), fun h t _ => h t⟩

theorem population_mono (h : ∀ t, p (f t) → q (f t)) : population p f ≤ population q f :=
  Finset.card_le_card (Finset.monotone_filter_right _ fun t _ => h t)

theorem population_update [DecidableEq τ] (t : τ) (x : α) :
    population p (Function.update f t x) + (if p (f t) then 1 else 0) =
      population p f + if p x then 1 else 0 := by
  have hsplit : ∀ g : τ → α, population p g =
      (Finset.univ.filter fun u => u ≠ t ∧ p (g u)).card + if p (g t) then 1 else 0 := by
    intro g
    have hself : (Finset.univ.filter fun u => u = t ∧ p (g u)).card = if p (g t) then 1 else 0 := by
      split
      next hp =>
        rw [Finset.card_eq_one]
        refine ⟨t, Finset.ext fun u => ?_⟩
        rw [Finset.mem_filter, Finset.mem_singleton]
        exact ⟨fun h => h.2.1, fun h => ⟨Finset.mem_univ u, h, h ▸ hp⟩⟩
      next hp =>
        rw [Finset.card_eq_zero, Finset.filter_eq_empty_iff]
        exact fun u _ h => hp (h.1 ▸ h.2)
    rw [← hself, ← Finset.card_union_of_disjoint, population]
    · congr 1
      ext u
      simp only [Finset.mem_filter, Finset.mem_union, Finset.mem_univ, true_and]
      by_cases hu : u = t <;> simp [hu]
    · rw [Finset.disjoint_filter]
      exact fun u _ h h' => h.1 h'.1
  have hrest : (Finset.univ.filter fun u => u ≠ t ∧ p (Function.update f t x u)) =
      Finset.univ.filter fun u => u ≠ t ∧ p (f u) := by
    refine Finset.filter_congr fun u _ => and_congr_right fun hu => ?_
    rw [Function.update_of_ne hu]
  rw [hsplit (Function.update f t x), hsplit f, hrest, Function.update_self]
  omega

end Population

end Fs3.Foundation
