import Mathlib.Data.Nat.Count

/-! # Moving chosen positions to the front by swaps

A loop over the positions of a slice moves every chosen one to the next free place at the front, by
swapping the two, and records for each of the two where its new contents came from. -/

namespace Fs3.Foundation

/-- The state of the loop: where the contents of a position really came from,
where they are recorded to have come from, and the next place at the front. -/
structure SwapChain where
  moved : Equiv.Perm ℕ
  recorded : ℕ → ℕ
  next : ℕ

namespace SwapChain

def start : SwapChain := ⟨Equiv.refl ℕ, id, 0⟩

/-- Move position `i` to the next place. -/
def step (chain : SwapChain) (i : ℕ) : SwapChain :=
  if i = chain.next then { chain with next := chain.next + 1 }
  else
    { moved := (Equiv.swap chain.next i).trans chain.moved
      recorded := Function.update (Function.update chain.recorded chain.next i) i chain.next
      next := chain.next + 1 }

variable (chosen : ℕ → Prop) [DecidablePred chosen]

/-- The state after the first `n` positions. -/
def run : ℕ → SwapChain
  | 0 => start
  | i + 1 => if chosen i then (run i).step i else run i

/-- Every chosen position has only chosen ones before it, and stays, or is not
among the places at the front. -/
def Separated (n : ℕ) : Prop :=
  ∀ i < n, chosen i → (∀ j < i, chosen j) ∨ Nat.count chosen n ≤ i

instance (n : ℕ) : Decidable (Separated chosen n) :=
  inferInstanceAs (Decidable (∀ i < n, chosen i → (∀ j < i, chosen j) ∨ Nat.count chosen n ≤ i))

variable {chosen} {n i k : ℕ}

@[simp]
theorem run_next (n : ℕ) : (run chosen n).next = Nat.count chosen n := by
  induction n with
  | zero => rfl
  | succ i ih =>
    rw [run, Nat.count_succ]
    by_cases hi : chosen i
    · rw [if_pos hi, if_pos hi, step]
      split <;> simp [ih]
    · rw [if_neg hi, if_neg hi, ih, Nat.add_zero]

theorem run_succ_of_stays (hi : chosen i) (hstays : Nat.count chosen i = i) :
    (run chosen (i + 1)).moved = (run chosen i).moved ∧
      (run chosen (i + 1)).recorded = (run chosen i).recorded := by
  rw [run, if_pos hi, step, run_next, if_pos hstays.symm]
  exact ⟨rfl, rfl⟩

theorem run_succ_of_moves (hi : chosen i) (hmoves : Nat.count chosen i < i) :
    (run chosen (i + 1)).moved =
      (Equiv.swap (Nat.count chosen i) i).trans (run chosen i).moved ∧
      (run chosen (i + 1)).recorded =
        Function.update (Function.update (run chosen i).recorded (Nat.count chosen i) i) i
          (Nat.count chosen i) := by
  rw [run, if_pos hi, step, run_next, if_neg (by omega)]
  exact ⟨rfl, rfl⟩

theorem run_succ_of_not (hi : ¬ chosen i) : run chosen (i + 1) = run chosen i := if_neg hi

variable (chosen) in
theorem count_lt_or_eq (i : ℕ) : Nat.count chosen i < i ∨ Nat.count chosen i = i :=
  Nat.lt_or_eq_of_le (Nat.count_le chosen)

theorem untouched (hfront : Nat.count chosen i ≤ k) (hk : i ≤ k ∨ ¬ chosen k) :
    (run chosen i).moved k = k ∧ (run chosen i).recorded k = k := by
  induction i with
  | zero => exact ⟨rfl, rfl⟩
  | succ i ih =>
    rw [Nat.count_succ] at hfront
    have hbefore : i ≤ k ∨ ¬ chosen k := hk.imp_left fun h => by omega
    by_cases hi : chosen i
    · rw [if_pos hi] at hfront
      have hki : k ≠ i := by
        rintro rfl
        exact hk.elim (fun h => by omega) fun h => h hi
      obtain ⟨hmoved, hrecorded⟩ := ih (by omega) hbefore
      rcases count_lt_or_eq chosen i with hmoves | hstays
      · obtain ⟨hmoved', hrecorded'⟩ := run_succ_of_moves hi hmoves
        rw [hmoved', hrecorded', Equiv.trans_apply,
          Equiv.swap_apply_of_ne_of_ne (by omega) hki, Function.update_of_ne hki,
          Function.update_of_ne (by omega)]
        exact ⟨hmoved, hrecorded⟩
      · obtain ⟨hmoved', hrecorded'⟩ := run_succ_of_stays hi hstays
        rw [hmoved', hrecorded']
        exact ⟨hmoved, hrecorded⟩
    · rw [run_succ_of_not hi]
      rw [if_neg hi] at hfront
      exact ih (by omega) hbefore

variable (chosen) in
theorem untouched_of_le (hk : i ≤ k) :
    (run chosen i).moved k = k ∧ (run chosen i).recorded k = k :=
  untouched ((Nat.count_le chosen).trans hk) (Or.inl hk)

theorem Separated.not_chosen_next (hsep : Separated chosen n) (hin : i < n) (hi : chosen i)
    (hmoves : Nat.count chosen i < i) : ¬ chosen (Nat.count chosen i) := by
  intro hnext
  have hcount : Nat.count chosen (i + 1) ≤ Nat.count chosen n := Nat.count_monotone chosen hin
  rw [Nat.count_succ_eq_succ_count hi] at hcount
  rcases hsep (Nat.count chosen i) (by omega) hnext with hall | hpast
  · have hfull : Nat.count chosen (Nat.count chosen i) = Nat.count chosen i :=
      Nat.count_iff_forall.mpr hall
    have hstrict := Nat.count_strict_mono hnext hmoves
    omega
  · omega

theorem Separated.recorded_eq_moved (hsep : Separated chosen n) (hle : i ≤ n) (k : ℕ) :
    (run chosen i).recorded k = (run chosen i).moved k := by
  induction i generalizing k with
  | zero => rfl
  | succ i ih =>
    by_cases hi : chosen i
    · rcases count_lt_or_eq chosen i with hmoves | hstays
      · obtain ⟨hmoved, hrecorded⟩ := run_succ_of_moves hi hmoves
        have hnext := hsep.not_chosen_next hle hi hmoves
        obtain ⟨hmovedNext, _⟩ := untouched (Nat.le_refl (Nat.count chosen i)) (Or.inr hnext)
        obtain ⟨hmovedI, _⟩ := untouched_of_le chosen (Nat.le_refl i)
        rw [hmoved, hrecorded, Equiv.trans_apply]
        by_cases hki : k = i
        · subst hki
          rw [Function.update_self, Equiv.swap_apply_right, hmovedNext]
        · rw [Function.update_of_ne hki]
          by_cases hkn : k = Nat.count chosen i
          · rw [hkn, Function.update_self, Equiv.swap_apply_left, hmovedI]
          · rw [Function.update_of_ne hkn, Equiv.swap_apply_of_ne_of_ne hkn hki]
            exact ih (by omega) k
      · obtain ⟨hmoved, hrecorded⟩ := run_succ_of_stays hi hstays
        rw [hmoved, hrecorded]
        exact ih (by omega) k
    · rw [run_succ_of_not hi]
      exact ih (by omega) k

/-- What a swap has put in its two places, where no later swap puts something else. -/
theorem recorded_of_moves (hki : k < i) (hk : chosen k) (hmoves : Nat.count chosen k < k) :
    (run chosen i).recorded (Nat.count chosen k) = k ∧
      (Nat.count chosen i ≤ k → (run chosen i).recorded k = Nat.count chosen k) := by
  induction i with
  | zero => exact absurd hki (Nat.not_lt_zero k)
  | succ i ih =>
    by_cases hi : chosen i
    · rw [Nat.count_succ, if_pos hi]
      rcases Nat.lt_or_eq_of_le (Nat.le_of_lt_succ hki) with hlt | rfl
      · obtain ⟨hplace, hleft⟩ := ih hlt
        have hstrict := Nat.count_strict_mono hk hlt
        rcases count_lt_or_eq chosen i with hmoves' | hstays
        · obtain ⟨_, hrecorded⟩ := run_succ_of_moves hi hmoves'
          rw [hrecorded, Function.update_of_ne (by omega), Function.update_of_ne (by omega)]
          refine ⟨hplace, fun hfront => ?_⟩
          rw [Function.update_of_ne (by omega), Function.update_of_ne (by omega)]
          exact hleft (by omega)
        · obtain ⟨_, hrecorded⟩ := run_succ_of_stays hi hstays
          rw [hrecorded]
          exact ⟨hplace, fun hfront => hleft (by omega)⟩
      · obtain ⟨_, hrecorded⟩ := run_succ_of_moves hi hmoves
        rw [hrecorded, Function.update_of_ne (by omega), Function.update_self,
          Function.update_self]
        exact ⟨rfl, fun _ => rfl⟩
    · have hlt : k < i := Nat.lt_of_le_of_ne (Nat.le_of_lt_succ hki) fun heq => hi (heq ▸ hk)
      rw [Nat.count_succ, if_neg hi, run_succ_of_not hi]
      exact ih hlt

theorem exists_count_eq {place : ℕ} (hplace : place < Nat.count chosen n) :
    ∃ k < n, chosen k ∧ Nat.count chosen k = place := by
  induction n with
  | zero => exact absurd hplace (Nat.not_lt_zero place)
  | succ i ih =>
    by_cases hlt : place < Nat.count chosen i
    · obtain ⟨k, hk, hchosen, hcount⟩ := ih hlt
      exact ⟨k, by omega, hchosen, hcount⟩
    · have hi : chosen i := by
        by_contra hi
        rw [Nat.count_succ, if_neg hi] at hplace
        omega
      rw [Nat.count_succ, if_pos hi] at hplace
      exact ⟨i, by omega, hi, by omega⟩

theorem exists_recorded_eq (hsep : ¬ Separated chosen n) :
    ∃ i < n, ∃ k < n, i ≠ k ∧ (run chosen n).recorded i = (run chosen n).recorded k := by
  -- Take the last chosen position that moves and lies among the front places.
  let Caught (j : ℕ) : Prop := chosen j ∧ Nat.count chosen j < j ∧ j < Nat.count chosen n
  have hcaught : ∃ j < n, Caught j := by
    unfold Separated at hsep
    push Not at hsep
    obtain ⟨j, hj, hchosen, ⟨before, hbefore, hnot⟩, hfront⟩ := hsep
    have hne : Nat.count chosen j ≠ j := fun heq =>
      hnot (Nat.count_iff_forall.mp heq before hbefore)
    exact ⟨j, hj, hchosen, Nat.lt_of_le_of_ne (Nat.count_le chosen) hne, hfront⟩
  obtain ⟨j, ⟨hj, hchosen, hmoves, hfront⟩, hlast⟩ :
      ∃ j, (j < n ∧ Caught j) ∧ ∀ k, k < n ∧ Caught k → k ≤ j := by
    classical
    obtain ⟨j, hj⟩ := hcaught
    have hspec := @Nat.findGreatest_spec j (fun j => j < n ∧ Caught j) _ n (Nat.le_of_lt hj.1) hj
    exact ⟨_, hspec, fun k hk => Nat.le_findGreatest (Nat.le_of_lt hk.1) hk⟩
  obtain ⟨k, hk, hchosenK, hcount⟩ := exists_count_eq hfront
  have hjk : j < k := by
    rcases count_lt_or_eq chosen k with hlt | heq
    · omega
    · obtain rfl : k = j := heq.symm.trans hcount
      omega
  have hpast : Nat.count chosen n ≤ k := by
    by_contra hwithin
    have hle := hlast k ⟨hk, hchosenK, by omega, by omega⟩
    omega
  refine ⟨Nat.count chosen j, by omega, k, hk, by omega, ?_⟩
  rw [(recorded_of_moves hj hchosen hmoves).1,
    (recorded_of_moves hk hchosenK (by omega)).2 hpast, hcount]

theorem recorded_injOn_iff :
    Set.InjOn (run chosen n).recorded (Set.Iio n) ↔ Separated chosen n := by
  constructor
  · intro hinj
    by_contra hsep
    obtain ⟨i, hi, k, hk, hne, heq⟩ := exists_recorded_eq hsep
    exact hne (hinj hi hk heq)
  · intro hsep i _ k _ heq
    rw [hsep.recorded_eq_moved (Nat.le_refl n), hsep.recorded_eq_moved (Nat.le_refl n)] at heq
    exact (run chosen n).moved.injective heq

theorem moved_of_le (hk : n ≤ k) : (run chosen n).moved k = k := (untouched_of_le chosen hk).1

theorem bijOn_moved : Set.BijOn (run chosen n).moved (Set.Iio n) (Set.Iio n) := by
  have hwithin : ∀ k, (run chosen n).moved k < n ↔ k < n := by
    intro k
    constructor
    · intro hk
      by_contra hout
      rw [moved_of_le (by omega)] at hk
      exact hout hk
    · intro hk
      by_contra hout
      have hfixed : (run chosen n).moved ((run chosen n).moved k) = (run chosen n).moved k :=
        moved_of_le (by omega)
      have heq := (run chosen n).moved.injective hfixed
      omega
  refine ⟨fun k hk => (hwithin k).mpr hk, (run chosen n).moved.injective.injOn, fun k hk => ?_⟩
  refine ⟨(run chosen n).moved.symm k, (hwithin _).mp ?_, Equiv.apply_symm_apply _ k⟩
  rw [Equiv.apply_symm_apply]
  exact hk

end SwapChain

end Fs3.Foundation
