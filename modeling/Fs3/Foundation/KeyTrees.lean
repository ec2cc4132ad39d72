import Mathlib.Algebra.BigOperators.Group.List.Basic
import Mathlib.Data.Finset.Card

/-! # Trees kept by their keys

A map that says for each key which keys are its children. -/

namespace Fs3.Foundation

variable {κ : Type*} (kids : κ → List κ)

def Below : κ → κ → Prop := Relation.TransGen fun k c => c ∈ kids k

def Enough (fuel : Nat) : Prop :=
  ∃ rank : κ → Nat, (∀ k, ∀ c ∈ kids k, rank c < rank k) ∧ ∀ k, rank k ≤ fuel

def below : Nat → κ → List κ
  | 0, _ => []
  | fuel + 1, k => (kids k).flatMap fun c => c :: below fuel c

def treeSum {M : Type*} [AddMonoid M] (own : κ → M) : Nat → κ → M
  | 0, k => own k
  | fuel + 1, k => own k + ((kids k).map (treeSum own fuel)).sum

variable {kids} {fuel : Nat} {k x y : κ}

theorem below_iff_exists : Below kids k x ↔ ∃ c ∈ kids k, x = c ∨ Below kids c x := by
  rw [Below, Relation.TransGen.head'_iff]
  refine exists_congr fun c => and_congr_right fun _ => ?_
  exact Relation.reflTransGen_iff_eq_or_transGen

theorem not_below_of_nil (hnil : kids k = []) : ¬ Below kids k x := by
  rw [below_iff_exists, hnil]
  rintro ⟨c, hc, -⟩
  cases hc

namespace Enough

variable (henough : Enough kids fuel)
include henough

theorem induction {motive : κ → Prop} (hstep : ∀ k, (∀ c ∈ kids k, motive c) → motive k)
    (k : κ) : motive k := by
  obtain ⟨rank, hrank, -⟩ := henough
  induction hk : rank k using Nat.strong_induction_on generalizing k with
  | h n ih => exact hstep k fun c hc => ih (rank c) (hk ▸ hrank k c hc) c rfl

theorem not_below_self (k : κ) : ¬ Below kids k k := by
  obtain ⟨rank, hrank, -⟩ := henough
  intro hk
  have hlt : ∀ {x}, Below kids k x → rank x < rank k := by
    intro x hx
    induction hx with
    | single hc => exact hrank _ _ hc
    | tail _ hc ih => exact (hrank _ _ hc).trans ih
  exact lt_irrefl _ (hlt hk)

theorem unfold {β : Type*} {f : Nat → κ → β} (step : κ → (κ → β) → β)
    (hcongr : ∀ k g g', (∀ c ∈ kids k, g c = g' c) → step k g = step k g')
    (hzero : ∀ k g, kids k = [] → f 0 k = step k g)
    (hsucc : ∀ n k, f (n + 1) k = step k (f n)) (k : κ) : f fuel k = step k (f fuel) := by
  obtain ⟨rank, hrank, hfuel⟩ := henough
  have hleaf : ∀ k, rank k = 0 → kids k = [] := fun k hk =>
    List.eq_nil_iff_forall_not_mem.mpr fun c hc =>
      absurd (hrank k c hc) (hk ▸ Nat.not_lt_zero _)
  have hunfold : ∀ n k, rank k ≤ n → f n k = step k (f n) := by
    intro n
    induction n with
    | zero => exact fun k hk => hzero k _ (hleaf k (Nat.le_zero.mp hk))
    | succ n ih =>
      intro k hk
      rw [hsucc]
      refine hcongr k _ _ fun c hc => ?_
      have hc' : rank c ≤ n := Nat.le_of_lt_succ ((hrank k c hc).trans_le hk)
      rw [hsucc, ih c hc']
  exact hunfold fuel k (hfuel k)

theorem recursion_unique {β : Type*} {g g' : κ → β} (step : κ → (κ → β) → β)
    (hcongr : ∀ k g g', (∀ c ∈ kids k, g c = g' c) → step k g = step k g')
    (hg : ∀ k, g k = step k g) (hg' : ∀ k, g' k = step k g') (k : κ) : g k = g' k := by
  refine henough.induction (motive := fun k => g k = g' k) (fun k ih => ?_) k
  rw [hg k, hg' k]
  exact hcongr k g g' ih

theorem below_eq (k : κ) :
    below kids fuel k = (kids k).flatMap fun c => c :: below kids fuel c := by
  refine henough.unfold (fun k g => (kids k).flatMap fun c => c :: g c) ?_ ?_ ?_ k
  · intro k g g' hg
    refine List.flatMap_congr fun c hc => ?_
    rw [hg c hc]
  · intro k g hk
    rw [hk]
    rfl
  · exact fun n k => rfl

theorem treeSum_eq {M : Type*} [AddMonoid M] (own : κ → M) (k : κ) :
    treeSum kids own fuel k = own k + ((kids k).map (treeSum kids own fuel)).sum := by
  refine henough.unfold (fun k g => own k + ((kids k).map g).sum) ?_ ?_ ?_ k
  · intro k g g' hg
    rw [List.map_congr_left hg]
  · intro k g hk
    rw [hk, List.map_nil, List.sum_nil, add_zero]
    rfl
  · exact fun n k => rfl

theorem treeSum_congr {M : Type*} [AddMonoid M] {own own' : κ → M}
    (hown : ∀ x, x = k ∨ Below kids k x → own x = own' x) :
    treeSum kids own fuel k = treeSum kids own' fuel k := by
  revert hown
  refine henough.induction (motive := fun k => (∀ x, x = k ∨ Below kids k x → own x = own' x) →
    treeSum kids own fuel k = treeSum kids own' fuel k) ?_ k
  intro k ih hown
  rw [henough.treeSum_eq own, henough.treeSum_eq own', hown k (Or.inl rfl)]
  congr 2
  refine List.map_congr_left fun c hc => ih c hc fun x hx => hown x (Or.inr ?_)
  exact below_iff_exists.mpr ⟨c, hc, hx⟩

theorem mem_below : x ∈ below kids fuel k ↔ Below kids k x := by
  constructor
  · refine fun hx => ?_
    revert hx
    refine henough.induction (motive := fun k => x ∈ below kids fuel k → Below kids k x) ?_ k
    intro k ih hx
    rw [henough.below_eq, List.mem_flatMap] at hx
    obtain ⟨c, hc, hx⟩ := hx
    rcases List.mem_cons.mp hx with rfl | hx
    · exact Relation.TransGen.single hc
    · exact Relation.TransGen.head hc (ih c hc hx)
  · intro hx
    induction hx using Relation.TransGen.head_induction_on with
    | single hc =>
      rw [henough.below_eq, List.mem_flatMap]
      exact ⟨x, hc, List.mem_cons_self⟩
    | head hc _ ih =>
      rw [henough.below_eq, List.mem_flatMap]
      exact ⟨_, hc, List.mem_cons_of_mem _ ih⟩

end Enough

theorem enough_of_keys {rank : κ → Nat} (hrank : ∀ k, ∀ c ∈ kids k, rank c < rank k)
    {keys : List κ} (hkeys : ∀ k, kids k ≠ [] → k ∈ keys) : Enough kids keys.length := by
  classical
  -- Keys are counted instead of ranked: those that are not higher than a key.
  let lower : κ → Finset κ := fun k => keys.toFinset.filter fun x => rank x ≤ rank k
  have hmem : ∀ {k c}, c ∈ kids k → k ∈ lower k := fun {k c} hc =>
    Finset.mem_filter.mpr ⟨List.mem_toFinset.mpr (hkeys k (List.ne_nil_of_mem hc)), le_rfl⟩
  refine ⟨fun k => if kids k = [] then 0 else (lower k).card, fun k c hc => ?_, fun k => ?_⟩
  · dsimp only
    rw [@if_neg (kids k = []) _ (List.ne_nil_of_mem hc)]
    split
    · exact Finset.card_pos.mpr ⟨k, hmem hc⟩
    · refine Finset.card_lt_card (Finset.ssubset_iff_of_subset ?_ |>.mpr ⟨k, hmem hc, ?_⟩)
      · intro x hx
        obtain ⟨hx, hle⟩ := Finset.mem_filter.mp hx
        exact Finset.mem_filter.mpr ⟨hx, hle.trans (hrank k c hc).le⟩
      · intro hk
        exact absurd (Finset.mem_filter.mp hk).2 (not_le.mpr (hrank k c hc))
  · dsimp only
    split
    · exact Nat.zero_le _
    · exact (Finset.card_filter_le _ _).trans (List.toFinset_card_le _)

/-- Trees: no key is a child of two, and none stands twice among the children of one. -/
structure IsForest (kids : κ → List κ) (fuel : Nat) : Prop where
  enough : Enough kids fuel
  nodup : ∀ k, (kids k).Nodup
  parent : ∀ {k k' c}, c ∈ kids k → c ∈ kids k' → k = k'

namespace IsForest

variable (hforest : IsForest kids fuel)
include hforest

theorem eq_or_below {c : κ} (hc : c ∈ kids k) (hx : Below kids x c) :
    x = k ∨ Below kids x k := by
  cases hx with
  | single hc' => exact Or.inl (hforest.parent hc' hc)
  | tail hx hc' => exact Or.inr (hforest.parent hc' hc ▸ hx)

theorem linear (hx : Below kids x k) (hy : Below kids y k) :
    x = y ∨ Below kids x y ∨ Below kids y x := by
  induction hx with
  | single hc =>
    rcases hforest.eq_or_below hc hy with rfl | hy
    · exact Or.inl rfl
    · exact Or.inr (Or.inr hy)
  | tail hx hc ih =>
    rcases hforest.eq_or_below hc hy with rfl | hy
    · exact Or.inr (Or.inl hx)
    · exact ih hy

theorem disjoint_children {c c' : κ} (hc : c ∈ kids k) (hc' : c' ∈ kids k) (hne : c ≠ c')
    (hx : x = c ∨ Below kids c x) : ¬ (x = c' ∨ Below kids c' x) := by
  have hnot : ∀ {c c'}, c ∈ kids k → c' ∈ kids k → ¬ Below kids c c' := by
    intro c c' hc hc' hbelow
    rcases hforest.eq_or_below hc' hbelow with rfl | hbelow
    · exact hforest.enough.not_below_self c (Relation.TransGen.single hc)
    · exact hforest.enough.not_below_self k ((Relation.TransGen.single hc).trans hbelow)
  intro hx'
  rcases hx with rfl | hx
  · rcases hx' with rfl | hx'
    · exact hne rfl
    · exact hnot hc' hc hx'
  · rcases hx' with rfl | hx'
    · exact hnot hc hc' hx
    · rcases hforest.linear hx hx' with heq | hbelow | hbelow
      · exact hne heq
      · exact hnot hc hc' hbelow
      · exact hnot hc' hc hbelow

theorem nodup_below (k : κ) : (k :: below kids fuel k).Nodup := by
  refine hforest.enough.induction (motive := fun k => (k :: below kids fuel k).Nodup) ?_ k
  intro k ih
  refine List.nodup_cons.mpr ⟨fun hk => ?_, ?_⟩
  · exact hforest.enough.not_below_self k (hforest.enough.mem_below.mp hk)
  · rw [hforest.enough.below_eq]
    refine List.nodup_flatMap.mpr ⟨ih, (hforest.nodup k).imp_of_mem ?_⟩
    intro c c' hc hc' hne x hx hx'
    rw [List.mem_cons, hforest.enough.mem_below] at hx hx'
    exact hforest.disjoint_children hc hc' hne hx hx'

end IsForest

namespace Enough

theorem treeSum_fuel {M : Type*} [AddMonoid M] (henough : Enough kids fuel) {fuel' : Nat}
    (henough' : Enough kids fuel') (own : κ → M) (k : κ) :
    treeSum kids own fuel k = treeSum kids own fuel' k := by
  refine henough.recursion_unique (fun k g => own k + ((kids k).map g).sum) ?_
    (henough.treeSum_eq own) (henough'.treeSum_eq own) k
  intro k g g' hg
  rw [List.map_congr_left hg]

theorem below_fuel (henough : Enough kids fuel) {fuel' : Nat} (henough' : Enough kids fuel')
    (k : κ) : below kids fuel k = below kids fuel' k := by
  refine henough.recursion_unique (fun k g => (kids k).flatMap fun c => c :: g c) ?_
    henough.below_eq henough'.below_eq k
  intro k g g' hg
  refine List.flatMap_congr fun c hc => ?_
  rw [hg c hc]

end Enough

/-- A key gets more of its own, and is a child of another or becomes a new one. -/
structure IsAdded {M : Type*} [AddMonoid M] (kids kids' : κ → List κ) (own own' : κ → M) (r x : κ)
    (added : M) : Prop where
  ne : x ≠ r
  elsewhere : ∀ k, k ≠ r → kids' k = kids k
  child : x ∈ kids r ∧ kids' r = kids r ∨
    (∀ k, x ∉ kids k) ∧ kids x = [] ∧ own x = 0 ∧ kids' r = kids r ++ [x]
  own_eq : ∀ k, k ≠ x → own' k = own k
  own_self : own' x = own x + added

theorem sum_map_add_of_mem {M : Type*} [AddCommMonoid M] {f g : κ → M} {added : M} {l : List κ}
    (hnodup : l.Nodup) (hx : x ∈ l) (hself : g x = f x + added)
    (hne : ∀ c ∈ l, c ≠ x → g c = f c) : (l.map g).sum = (l.map f).sum + added := by
  induction l with
  | nil => cases hx
  | cons c l ih =>
    obtain ⟨hnotin, hnodup⟩ := List.nodup_cons.mp hnodup
    rw [List.map_cons, List.map_cons, List.sum_cons, List.sum_cons]
    by_cases hcx : c = x
    · subst hcx
      rw [hself, List.map_congr_left fun c' hc' => hne c' (List.mem_cons_of_mem _ hc')
        fun heq => hnotin (heq ▸ hc'), add_right_comm]
    · rw [hne c List.mem_cons_self hcx,
        ih hnodup ((List.mem_cons.mp hx).resolve_left (Ne.symm hcx))
          fun c' hc' => hne c' (List.mem_cons_of_mem _ hc'), add_assoc]

/-- The sum of the other key is larger by what is added. -/
theorem IsForest.treeSum_add {M : Type*} [AddCommMonoid M] {kids' : κ → List κ} {fuel' : Nat}
    {own own' : κ → M} {r : κ} {added : M} (hforest : IsForest kids fuel)
    (henough' : Enough kids' fuel') (hadded : IsAdded kids kids' own own' r x added) :
    treeSum kids' own' fuel' r = treeSum kids own fuel r + added := by
  have hsame : ∀ c, x ≠ c ∧ ¬ Below kids c x → r ≠ c ∧ ¬ Below kids c r →
      treeSum kids' own' fuel' c = treeSum kids own fuel c := by
    refine hforest.enough.induction fun c ih hx hr => ?_
    rw [henough'.treeSum_eq, hforest.enough.treeSum_eq, hadded.own_eq c hx.1.symm,
      hadded.elsewhere c hr.1.symm]
    congr 2
    refine List.map_congr_left fun y hy => ih y hy ?_ ?_
    · refine ⟨fun heq => hx.2 (heq ▸ Relation.TransGen.single hy), fun hbelow => ?_⟩
      exact hx.2 (below_iff_exists.mpr ⟨y, hy, Or.inr hbelow⟩)
    · refine ⟨fun heq => hr.2 (heq ▸ Relation.TransGen.single hy), fun hbelow => ?_⟩
      exact hr.2 (below_iff_exists.mpr ⟨y, hy, Or.inr hbelow⟩)
  have hchild : ∀ {y c}, c ∈ kids y → y = r ∨ Below kids r y → r ≠ c ∧ ¬ Below kids c r := by
    intro y c hc hy
    have hrc : Below kids r c := by
      rcases hy with rfl | hy
      · exact Relation.TransGen.single hc
      · exact hy.tail hc
    exact ⟨fun heq => hforest.enough.not_below_self r (by rwa [← heq] at hrc),
      fun hbelow => hforest.enough.not_below_self r (hrc.trans hbelow)⟩
  rw [henough'.treeSum_eq, hforest.enough.treeSum_eq own r, hadded.own_eq r hadded.ne.symm]
  rcases hadded.child with ⟨hx, hr⟩ | ⟨hnew, hnil, hzero, hr⟩
  · have hself : treeSum kids' own' fuel' x = treeSum kids own fuel x + added := by
      rw [henough'.treeSum_eq, hforest.enough.treeSum_eq own x, hadded.own_self,
        hadded.elsewhere x hadded.ne, List.map_congr_left fun y hy => hsame y ?_ ?_,
        add_right_comm]
      · have hxy : Below kids x y := Relation.TransGen.single hy
        exact ⟨fun heq => hforest.enough.not_below_self x (by rwa [← heq] at hxy),
          fun hbelow => hforest.enough.not_below_self x (hxy.trans hbelow)⟩
      · exact hchild hy (Or.inr (Relation.TransGen.single hx))
    rw [hr, sum_map_add_of_mem (hforest.nodup r) hx hself fun c hc hne => hsame c ?_ ?_, add_assoc]
    · exact not_or.mp (hforest.disjoint_children hx hc hne.symm (Or.inl rfl))
    · exact hchild hc (Or.inl rfl)
  · have hself : treeSum kids' own' fuel' x = added := by
      rw [henough'.treeSum_eq, hadded.own_self, hzero, zero_add, hadded.elsewhere x hadded.ne,
        hnil, List.map_nil, List.sum_nil, add_zero]
    rw [hr, List.map_append, List.sum_append, List.map_singleton, List.sum_singleton, hself,
      List.map_congr_left fun c hc => hsame c ?_ ?_, add_assoc]
    · refine ⟨fun heq => hnew r (heq ▸ hc), fun hbelow => ?_⟩
      cases hbelow with
      | single hx => exact hnew _ hx
      | tail _ hx => exact hnew _ hx
    · exact hchild hc (Or.inl rfl)

/-! ## Cutting off what is below keys -/

/-- The same children, except at some keys and below these, where there are none. -/
structure IsCut (kids kids' : κ → List κ) (C : κ → Prop) : Prop where
  at_or_below : ∀ {x k}, C x → k = x ∨ Below kids x k → kids' k = []
  elsewhere : ∀ {k}, (∀ x, C x → k ≠ x ∧ ¬ Below kids x k) → kids' k = kids k

namespace IsCut

variable {kids' kids'' : κ → List κ} {C : κ → Prop}

theorem empty : IsCut kids kids fun _ => False := ⟨fun h => h.elim, fun _ => rfl⟩

theorem congr {C' : κ → Prop} (hcut : IsCut kids kids' C) (hC : ∀ k, C' k ↔ C k) :
    IsCut kids kids' C' :=
  ⟨fun hx hk => hcut.at_or_below ((hC _).mp hx) hk,
    fun hk => hcut.elsewhere fun x hx => hk x ((hC x).mpr hx)⟩

variable (hcut : IsCut kids kids' C)
include hcut

theorem mem_of_mem {c : κ} (hc : c ∈ kids' k) :
    (∀ x, C x → k ≠ x ∧ ¬ Below kids x k) ∧ c ∈ kids k := by
  by_cases hk : ∃ x, C x ∧ (k = x ∨ Below kids x k)
  · obtain ⟨x, hx, hk⟩ := hk
    rw [hcut.at_or_below hx hk] at hc
    cases hc
  · have hnot : ∀ x, C x → k ≠ x ∧ ¬ Below kids x k := fun x hx =>
      not_or.mp fun h => hk ⟨x, hx, h⟩
    exact ⟨hnot, hcut.elsewhere hnot ▸ hc⟩

theorem below_of_below (hy : Below kids' k y) : Below kids k y :=
  Relation.TransGen.mono (fun _ _ hc => (hcut.mem_of_mem hc).2) _ _ hy

theorem enough (henough : Enough kids fuel) : Enough kids' fuel := by
  obtain ⟨rank, hrank, hfuel⟩ := henough
  exact ⟨rank, fun k c hc => hrank k c (hcut.mem_of_mem hc).2, hfuel⟩

theorem isForest (hforest : IsForest kids fuel) : IsForest kids' fuel where
  enough := hcut.enough hforest.enough
  nodup := by
    intro k
    by_cases hk : kids' k = []
    · rw [hk]
      exact List.nodup_nil
    · obtain ⟨c, hc⟩ := List.exists_mem_of_ne_nil _ hk
      rw [hcut.elsewhere (hcut.mem_of_mem hc).1]
      exact hforest.nodup k
  parent hc hc' := hforest.parent (hcut.mem_of_mem hc).2 (hcut.mem_of_mem hc').2

theorem below_iff (hforest : IsForest kids fuel) :
    Below kids' k y ↔ Below kids k y ∧ ∀ x, C x → ¬ Below kids x y := by
  constructor
  · intro hy
    refine ⟨hcut.below_of_below hy, fun x hx hxy => ?_⟩
    have hlast : ∃ m, y ∈ kids' m := by
      cases hy with
      | single hc => exact ⟨_, hc⟩
      | tail _ hc => exact ⟨_, hc⟩
    obtain ⟨m, hm⟩ := hlast
    obtain ⟨hnot, hm⟩ := hcut.mem_of_mem hm
    rcases hforest.eq_or_below hm hxy with heq | hbelow
    · exact (hnot x hx).1 heq.symm
    · exact (hnot x hx).2 hbelow
  · rintro ⟨hy, hnot⟩
    have hkept : ∀ {m c}, c ∈ kids m → (∀ x, C x → ¬ Below kids x c) → c ∈ kids' m := by
      intro m c hc hnot
      rw [hcut.elsewhere fun x hx => ⟨fun hm => hnot x hx (hm ▸ Relation.TransGen.single hc),
        fun hm => hnot x hx (hm.tail hc)⟩]
      exact hc
    induction hy with
    | single hc => exact Relation.TransGen.single (hkept hc hnot)
    | tail _ hc ih =>
      exact (ih fun x hx hm => hnot x hx (hm.tail hc)).tail (hkept hc hnot)

theorem treeSum_eq {M : Type*} [AddMonoid M] {own own' : κ → M} (hforest : IsForest kids fuel)
    (hcutoff : ∀ x, C x → own' x = treeSum kids own fuel x)
    (hown : ∀ k, (∀ x, C x → k ≠ x ∧ ¬ Below kids x k) → own' k = own k)
    (hk : ∀ x, C x → ¬ Below kids x k) :
    treeSum kids' own' fuel k = treeSum kids own fuel k := by
  revert hk
  refine hforest.enough.induction (motive := fun k => (∀ x, C x → ¬ Below kids x k) →
    treeSum kids' own' fuel k = treeSum kids own fuel k) ?_ k
  intro k ih hk
  rw [(hcut.enough hforest.enough).treeSum_eq]
  by_cases hkC : C k
  · rw [hcut.at_or_below hkC (Or.inl rfl), List.map_nil, List.sum_nil, add_zero, hcutoff k hkC]
  · have hnot : ∀ x, C x → k ≠ x ∧ ¬ Below kids x k := fun x hx =>
      ⟨fun heq => hkC (heq ▸ hx), hk x hx⟩
    rw [hcut.elsewhere hnot, hforest.enough.treeSum_eq, hown k hnot]
    congr 2
    refine List.map_congr_left fun c hc => ih c hc fun x hx hbelow => ?_
    rcases hforest.eq_or_below hc hbelow with heq | hbelow
    · exact hkC (heq ▸ hx)
    · exact hk x hx hbelow

theorem length_below (hforest : IsForest kids fuel) (hC : ∀ y, C y ↔ y = x)
    (hx : x = k ∨ Below kids k x) :
    (below kids' fuel k).length + (below kids fuel x).length = (below kids fuel k).length := by
  classical
  have hcard : ∀ {kids : κ → List κ} (_ : IsForest kids fuel) (k : κ),
      (below kids fuel k).length = (below kids fuel k).toFinset.card := fun hforest k =>
    (List.toFinset_card_of_nodup (List.nodup_cons.mp (hforest.nodup_below k)).2).symm
  have hsub : (below kids fuel x).toFinset ⊆ (below kids fuel k).toFinset := by
    intro y hy
    rw [List.mem_toFinset, hforest.enough.mem_below] at hy ⊢
    rcases hx with rfl | hx
    · exact hy
    · exact hx.trans hy
  have hsdiff : (below kids' fuel k).toFinset =
      (below kids fuel k).toFinset \ (below kids fuel x).toFinset := by
    ext y
    rw [Finset.mem_sdiff, List.mem_toFinset, List.mem_toFinset, List.mem_toFinset,
      (hcut.enough hforest.enough).mem_below, hforest.enough.mem_below,
      hforest.enough.mem_below, hcut.below_iff hforest]
    simp only [hC, forall_eq]
  rw [hcard (hcut.isForest hforest), hcard hforest, hcard hforest, hsdiff,
    Finset.card_sdiff_add_card_eq_card hsub]

theorem and_then (hforest : IsForest kids fuel) (hcut' : IsCut kids' kids'' fun k => k = x) :
    IsCut kids kids'' fun k => C k ∨ k = x where
  at_or_below := by
    intro y k hy hk
    have hkept : kids' k = [] → kids'' k = [] := by
      intro hnil
      by_cases hx : k = x ∨ Below kids' x k
      · exact hcut'.at_or_below rfl hx
      · obtain ⟨hne, hnot⟩ := not_or.mp hx
        refine (hcut'.elsewhere fun z hz => ?_).trans hnil
        rw [hz]
        exact ⟨hne, hnot⟩
    rcases hy with hy | rfl
    · exact hkept (hcut.at_or_below hy hk)
    · rcases hk with rfl | hk
      · exact hcut'.at_or_below rfl (Or.inl rfl)
      · by_cases hk' : Below kids' y k
        · exact hcut'.at_or_below rfl (Or.inr hk')
        · rw [hcut.below_iff hforest] at hk'
          push Not at hk'
          obtain ⟨z, hz, hzk⟩ := hk' hk
          exact hkept (hcut.at_or_below hz (Or.inr hzk))
  elsewhere := by
    intro k hk
    rw [hcut'.elsewhere fun z hz => ?_, hcut.elsewhere fun y hy => hk y (Or.inl hy)]
    subst hz
    exact ⟨(hk z (Or.inr rfl)).1, fun hbelow =>
      (hk z (Or.inr rfl)).2 (hcut.below_of_below hbelow)⟩

theorem or_below {z : κ} (hz : C z) (hx : Below kids z x) :
    IsCut kids kids' fun k => C k ∨ k = x where
  at_or_below := by
    intro y k hy hk
    rcases hy with hy | rfl
    · exact hcut.at_or_below hy hk
    · rcases hk with rfl | hk
      · exact hcut.at_or_below hz (Or.inr hx)
      · exact hcut.at_or_below hz (Or.inr (hx.trans hk))
  elsewhere hk := hcut.elsewhere fun y hy => hk y (Or.inl hy)

end IsCut

end Fs3.Foundation
