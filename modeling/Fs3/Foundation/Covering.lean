import Mathlib.Algebra.BigOperators.Group.List.Basic
import Mathlib.Algebra.GroupWithZero.Nat
import Mathlib.Data.List.Induction
import Mathlib.Data.List.Sort

/-! # Covering prefixes

The shortest prefix of a list whose weights reach a target, and how it is kept while elements
arrive one by one and the target is lowered. -/

namespace Fs3.Foundation

variable {α κ : Type*} (weight : α → Nat)

def load (l : List α) : Nat := (l.map weight).sum

@[simp]
theorem load_nil : load weight [] = 0 := rfl

@[simp]
theorem load_cons (a : α) (l : List α) : load weight (a :: l) = weight a + load weight l := by
  simp [load]

@[simp]
theorem load_append (l l' : List α) : load weight (l ++ l') = load weight l + load weight l' := by
  simp [load]

theorem load_perm {l l' : List α} (hperm : l.Perm l') : load weight l = load weight l' :=
  (hperm.map weight).sum_eq

theorem load_sublist {l l' : List α} (hsub : l.Sublist l') : load weight l ≤ load weight l' := by
  induction hsub with
  | slnil => simp
  | cons a _ ih => rw [load_cons]; omega
  | cons_cons a _ ih => simp only [load_cons]; omega

def covering : Nat → List α → List α
  | _, [] => []
  | target, a :: l => if target = 0 then [] else a :: covering (target - weight a) l

@[simp]
theorem covering_nil (target : Nat) : covering weight target [] = [] := rfl

@[simp]
theorem covering_zero (l : List α) : covering weight 0 l = [] := by
  cases l <;> simp [covering]

theorem covering_isInitial (target : Nat) (l : List α) : covering weight target l <+: l := by
  induction l generalizing target with
  | nil => simp
  | cons a l ih =>
    rw [covering]
    split
    · exact List.nil_prefix
    · exact (List.prefix_cons_inj a).mpr (ih _)

variable {l : List α} {target : Nat}

theorem load_covering (hreach : target ≤ load weight l) :
    target ≤ load weight (covering weight target l) := by
  induction l generalizing target with
  | nil => simpa using hreach
  | cons a l ih =>
    rw [covering]
    split
    · omega
    · rw [load_cons] at hreach ⊢
      have hrest : target - weight a ≤ load weight l := by omega
      have := ih hrest
      omega

/-- No proper prefix of the covering prefix reaches the target. -/
theorem load_lt_of_prefix {l p : List α} (hp : p <+: covering weight target l)
    (hne : p ≠ covering weight target l) : load weight p < target := by
  induction l generalizing target p with
  | nil => simp_all
  | cons a l ih =>
    rw [covering] at hp hne
    split at hp
    · simp_all
    · rename_i hpos
      rw [if_neg hpos] at hne
      cases p with
      | nil => rw [load_nil]; omega
      | cons b p =>
        obtain ⟨rfl, hp⟩ := List.cons_prefix_cons.mp hp
        have := ih hp fun heq => hne (by rw [heq])
        rw [load_cons]
        omega

theorem covering_eq_self (hshort : ∀ p, p <+: l → p ≠ l → load weight p < target) :
    covering weight target l = l := by
  by_contra hne
  have hlt := hshort _ (covering_isInitial weight target l) hne
  have hprefix := covering_isInitial weight target l
  have hreach : target ≤ load weight l := by
    obtain ⟨rest, hrest⟩ := hprefix
    by_contra hlow
    refine hne ?_
    clear hlt hne hshort hrest
    induction l generalizing target with
    | nil => rfl
    | cons a l ih =>
      rw [load_cons] at hlow
      rw [covering, if_neg (by omega), ih (by omega)]
  exact absurd (load_covering weight hreach) (by omega)

theorem covering_append (hreach : target ≤ load weight l) (m : List α) :
    covering weight target (l ++ m) = covering weight target l := by
  induction l generalizing target with
  | nil =>
    obtain rfl : target = 0 := by simpa using hreach
    simp
  | cons a l ih =>
    rw [load_cons] at hreach
    rw [List.cons_append, covering, covering, ih (by omega)]

theorem covering_concat (hlow : load weight l < target) (a : α) :
    covering weight target (l ++ [a]) = l ++ [a] := by
  refine covering_eq_self weight fun p hp hne => ?_
  have hp : p <+: l := (List.prefix_concat_iff.mp hp).resolve_left hne
  exact (load_sublist weight hp.sublist).trans_lt hlow

theorem covering_covering {target larger : Nat} (hle : target ≤ larger) (l : List α) :
    covering weight target (covering weight larger l) = covering weight target l := by
  induction l generalizing target larger with
  | nil => rfl
  | cons a l ih =>
    by_cases hzero : larger = 0
    · obtain rfl : target = 0 := by omega
      simp
    · rw [covering, if_neg hzero, covering, covering, ih (by omega)]

/-! Arrivals are put in their place by any relation. -/

section Arrivals

variable (r : α → α → Prop) [DecidableRel r]

theorem covering_orderedInsert (target : Nat) (a : α) (l : List α) :
    covering weight target ((covering weight target l).orderedInsert r a) =
      covering weight target (l.orderedInsert r a) := by
  induction l generalizing target with
  | nil => rfl
  | cons b l ih =>
    by_cases hzero : target = 0
    · subst hzero
      simp
    · have hcons (m : List α) : covering weight target (b :: m) =
          b :: covering weight (target - weight b) m := if_neg hzero
      rw [hcons, List.orderedInsert_cons, List.orderedInsert_cons]
      split
      · have hkeep := covering_covering weight (Nat.sub_le target (weight a)) (b :: l)
        have hfront (m : List α) : covering weight target (a :: m) =
            a :: covering weight (target - weight a) m := if_neg hzero
        rw [hfront, hfront, ← hcons, hkeep]
      · rw [hcons, hcons, ih]

theorem orderedInsert_append {a : α} (hnone : ∀ b ∈ l, ¬ r a b) (m : List α) :
    (l ++ m).orderedInsert r a = l ++ m.orderedInsert r a := by
  induction l with
  | nil => rfl
  | cons b l ih =>
    rw [List.cons_append, List.orderedInsert_cons, if_neg (hnone b List.mem_cons_self),
      ih fun c hc => hnone c (List.mem_cons_of_mem b hc), List.cons_append]

end Arrivals

/-! Ranking by a key: largest first, ties in the order of arrival. -/

section Ranking

variable [LinearOrder κ] (key : α → κ)

def rankInsert (a : α) (l : List α) : List α :=
  l.orderedInsert (fun b c => key c < key b) a

def ranking (l : List α) : List α := l.foldl (fun ranked a => rankInsert key a ranked) []

/-- The same elements by decreasing key, those of one key in their old order. -/
structure IsRanking (l ranked : List α) : Prop where
  perm : ranked.Perm l
  descending : ranked.Pairwise fun a b => key b ≤ key a
  arrival : ∀ k, (ranked.filter fun a => key a = k) = l.filter fun a => key a = k

variable {key}

theorem rankInsert_pairwise (a : α) (hl : l.Pairwise fun b c => key c ≤ key b) :
    (rankInsert key a l).Pairwise fun b c => key c ≤ key b := by
  induction l with
  | nil => simp [rankInsert]
  | cons b l ih =>
    obtain ⟨hb, hl⟩ := List.pairwise_cons.mp hl
    rw [rankInsert, List.orderedInsert_cons]
    split
    · rename_i hlt
      refine List.pairwise_cons.mpr ⟨fun c hc => ?_, List.pairwise_cons.mpr ⟨hb, hl⟩⟩
      rcases List.mem_cons.mp hc with rfl | hc
      · exact hlt.le
      · exact (hb c hc).trans hlt.le
    · rename_i hle
      refine List.pairwise_cons.mpr ⟨fun c hc => ?_, ih hl⟩
      rcases (List.mem_orderedInsert _).mp hc with rfl | hc
      · exact not_lt.mp hle
      · exact hb c hc

theorem rankInsert_filter (a : α) (hl : l.Pairwise fun b c => key c ≤ key b) (k : κ) :
    ((rankInsert key a l).filter fun b => key b = k) = (l ++ [a]).filter fun b => key b = k := by
  induction l with
  | nil => rfl
  | cons b l ih =>
    obtain ⟨hb, hl⟩ := List.pairwise_cons.mp hl
    rw [rankInsert, List.orderedInsert_cons]
    split
    · rename_i hlt
      -- everything from here on has a smaller key than the arrival
      by_cases hk : key a = k
      · have hnone : (b :: l).filter (fun c => key c = k) = [] := by
          refine List.filter_eq_nil_iff.mpr fun c hc => ?_
          have hc : key c ≤ key b := by
            rcases List.mem_cons.mp hc with rfl | hc
            · exact le_rfl
            · exact hb c hc
          simpa [← hk] using (hc.trans_lt hlt).ne
        rw [List.filter_cons_of_pos (by simpa using hk), List.filter_append, hnone]
        simp [hk]
      · rw [List.filter_cons_of_neg (by simpa using hk), List.filter_append]
        simp [hk]
    · have := ih hl
      rw [rankInsert] at this
      rw [List.cons_append, List.filter_cons, List.filter_cons, this]

theorem ranking_concat (l : List α) (a : α) :
    ranking key (l ++ [a]) = rankInsert key a (ranking key l) := by
  simp [ranking]

variable (key) in
theorem isRanking_ranking (l : List α) : IsRanking key l (ranking key l) := by
  induction l using List.reverseRec with
  | nil => exact ⟨.refl _, .nil, fun _ => rfl⟩
  | append_singleton l a ih =>
    rw [ranking_concat]
    refine ⟨?_, rankInsert_pairwise a ih.descending, fun k => ?_⟩
    · exact (List.perm_orderedInsert _ a _).trans
        ((ih.perm.cons a).trans (List.perm_append_singleton a l).symm)
    · rw [rankInsert_filter a ih.descending, List.filter_append, List.filter_append, ih.arrival]

end Ranking

end Fs3.Foundation
