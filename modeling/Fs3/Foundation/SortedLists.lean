import Mathlib.Data.Multiset.UnionInter

/-! # Lists sorted by a key

Lists of entries that are sorted by a key, where a key may have several entries. -/

namespace Fs3.Foundation

variable {α κ : Type*} [LinearOrder κ] (key : α → κ)

/-- Sorted by a key. -/
abbrev SortedBy (l : List α) : Prop := l.Pairwise fun e e' => key e ≤ key e'

def run (k : κ) (l : List α) : List α := l.filter fun e => key e = k

@[simp]
theorem run_nil (k : κ) : run key k ([] : List α) = [] := rfl

theorem run_cons (k : κ) (e : α) (l : List α) :
    run key k (e :: l) = if key e = k then e :: run key k l else run key k l := by
  unfold run
  simp only [List.filter_cons, decide_eq_true_eq]

theorem run_append (k : κ) (l l' : List α) :
    run key k (l ++ l') = run key k l ++ run key k l' := List.filter_append l l'

theorem mem_run {k : κ} {e : α} {l : List α} : e ∈ run key k l ↔ e ∈ l ∧ key e = k := by
  rw [run, List.mem_filter, decide_eq_true_eq]

theorem run_eq_nil {k : κ} {l : List α} : run key k l = [] ↔ ∀ e ∈ l, key e ≠ k := by
  simp only [run, List.filter_eq_nil_iff, decide_eq_true_eq, ne_eq]

/-! ## One entry for each key -/

section Collapsed

variable (resolve : α → α → α)

/-- What stays of a run when each entry in turn is resolved against what is there. -/
def survivor : List α → Option α
  | [] => none
  | e :: rest => some (rest.foldl resolve e)

/-- What stays of a sorted list when each run is resolved to one entry. -/
structure Collapsed (l kept : List α) : Prop where
  /-- There is at most one entry for each key, and they are sorted. -/
  sorted : kept.Pairwise fun e e' => key e < key e'
  runs : ∀ k, run key k kept = (survivor resolve (run key k l)).toList

variable {key resolve} {l kept : List α} {e obj : α}

theorem survivor_append {run : List α} (hsurvivor : survivor resolve run = some e) :
    survivor resolve (run ++ [obj]) = some (resolve e obj) := by
  cases run with
  | nil => cases hsurvivor
  | cons first rest =>
    rw [survivor, Option.some.injEq] at hsurvivor
    rw [List.cons_append, survivor, List.foldl_append, hsurvivor]
    rfl

theorem survivor_mem (hresolve : ∀ e obj, resolve e obj = e ∨ resolve e obj = obj)
    {run : List α} (hsurvivor : survivor resolve run = some e) : e ∈ run := by
  cases run with
  | nil => cases hsurvivor
  | cons first rest =>
    rw [survivor, Option.some.injEq] at hsurvivor
    subst hsurvivor
    induction rest generalizing first with
    | nil => exact List.mem_singleton.mpr rfl
    | cons next rest ih =>
      rw [List.foldl_cons]
      rcases hresolve first next with hfirst | hnext
      · rw [hfirst]
        exact List.cons_subset_cons first (List.subset_cons_self next rest) (ih first)
      · rw [hnext]
        exact List.mem_cons_of_mem first (ih next)

namespace Collapsed

theorem nil : Collapsed key resolve [] [] := ⟨List.Pairwise.nil, fun _ => rfl⟩

theorem exists_key (hcollapsed : Collapsed key resolve l kept) {k : κ} :
    (∃ e ∈ kept, key e = k) ↔ ∃ e ∈ l, key e = k := by
  have hnil : ∀ l' : List α, (∃ e ∈ l', key e = k) ↔ run key k l' ≠ [] := fun l' => by
    rw [ne_eq, run_eq_nil]
    push Not
    rfl
  rw [hnil, hnil, hcollapsed.runs k]
  cases run key k l with
  | nil => simp [survivor]
  | cons first rest => simp [survivor]

theorem subset (hcollapsed : Collapsed key resolve l kept)
    (hresolve : ∀ e obj, resolve e obj = e ∨ resolve e obj = obj) : kept ⊆ l := by
  intro e he
  have hrun : e ∈ run key (key e) kept := (mem_run key).mpr ⟨he, rfl⟩
  rw [hcollapsed.runs (key e), Option.mem_toList] at hrun
  exact ((mem_run key).mp (survivor_mem hresolve hrun)).1

theorem new_or_same (hcollapsed : Collapsed key resolve l kept)
    (hle : ∀ e ∈ l, key e ≤ key obj) :
    (∀ e ∈ kept, key e < key obj) ∨ ∃ init e, kept = init ++ [e] ∧ key e = key obj := by
  have hkept : ∀ e ∈ kept, key e ≤ key obj := by
    intro e he
    obtain ⟨other, hother, hkey⟩ := hcollapsed.exists_key.mp ⟨e, he, rfl⟩
    exact hkey ▸ hle other hother
  rcases List.eq_nil_or_concat kept with rfl | ⟨init, last, hlast⟩
  · exact Or.inl fun e he => absurd he List.not_mem_nil
  · rw [List.concat_eq_append] at hlast
    subst hlast
    rcases (hkept last List.mem_concat_self).lt_or_eq with hlt | heq
    · refine Or.inl fun e he => ?_
      obtain ⟨-, -, hbefore⟩ := List.pairwise_append.mp hcollapsed.sorted
      rcases List.mem_append.mp he with hinit | he
      · exact (hbefore e hinit last (List.mem_singleton.mpr rfl)).trans hlt
      · rw [List.mem_singleton.mp he]
        exact hlt
    · exact Or.inr ⟨init, last, rfl, heq⟩

theorem append_new (hcollapsed : Collapsed key resolve l kept)
    (hlast : ∀ e ∈ kept, key e < key obj) : Collapsed key resolve (l ++ [obj]) (kept ++ [obj]) := by
  refine ⟨?_, fun k => ?_⟩
  · refine List.pairwise_append.mpr ⟨hcollapsed.sorted, List.pairwise_singleton _ _, ?_⟩
    intro e he other hother
    rw [List.mem_singleton.mp hother]
    exact hlast e he
  · rw [run_append, run_append, hcollapsed.runs k, run_cons, run_nil]
    split
    next hk =>
      have hnone : run key k l = [] := by
        rw [run_eq_nil]
        intro other hother hother'
        obtain ⟨e, he, hek⟩ := hcollapsed.exists_key.mpr ⟨other, hother, hother'⟩
        exact absurd (hek.trans hk.symm) (hlast e he).ne
      rw [hnone]
      rfl
    next => rw [List.append_nil, List.append_nil]

theorem append_same {init : List α} (hcollapsed : Collapsed key resolve l (init ++ [e]))
    (hkey : key e = key obj) (hresolve : key (resolve e obj) = key obj) :
    Collapsed key resolve (l ++ [obj]) (init ++ [resolve e obj]) := by
  obtain ⟨hinit, -, hlast⟩ := List.pairwise_append.mp hcollapsed.sorted
  have hbefore : ∀ other ∈ init, key other < key obj := fun other hother =>
    hkey ▸ hlast other hother e (List.mem_singleton.mpr rfl)
  refine ⟨?_, fun k => ?_⟩
  · refine List.pairwise_append.mpr ⟨hinit, List.pairwise_singleton _ _, ?_⟩
    intro other hother last hlast'
    rw [List.mem_singleton.mp hlast', hresolve]
    exact hbefore other hother
  · have hrun := hcollapsed.runs k
    rw [run_append, run_cons, run_nil, hkey] at hrun
    rw [run_append, run_append, run_cons, run_nil, run_cons, run_nil, hresolve]
    split
    next hk =>
      rw [if_pos hk] at hrun
      have hnone : run key k init = [] := by
        rw [run_eq_nil, ← hk]
        exact fun other hother => (hbefore other hother).ne
      rw [hnone, List.nil_append] at hrun
      have hsurvivor : survivor resolve (run key k l) = some e := by
        cases hs : survivor resolve (run key k l) with
        | none => rw [hs] at hrun; cases hrun
        | some s => rw [hs] at hrun; cases hrun; rfl
      rw [hnone, survivor_append hsurvivor]
      rfl
    next hk =>
      rw [if_neg hk, List.append_nil] at hrun
      rw [List.append_nil, List.append_nil, hrun]

end Collapsed

end Collapsed

/-! ## The union of two lists -/

section Union

def goesFirst (e e' : α) : Bool := decide (key e ≤ key e')

variable {key} {a b c : List α} {x y : α}

theorem lt_of_sorted (hlt : key x < key y) (hb : SortedBy key (y :: b)) :
    ∀ e ∈ y :: b, key x < key e := by
  intro e he
  rcases List.mem_cons.mp he with rfl | he
  · exact hlt
  · exact hlt.trans_le (List.rel_of_pairwise_cons hb he)

theorem merge_cons_left (hle : ∀ e ∈ c, key x ≤ key e) :
    (x :: a).merge c (goesFirst key) = x :: a.merge c (goesFirst key) := by
  cases c with
  | nil => rw [List.merge_right, List.merge_right]
  | cons y c =>
    refine List.cons_merge_cons_pos _ _ _ ?_
    rw [goesFirst, decide_eq_true_eq]
    exact hle y List.mem_cons_self

theorem merge_cons_right (hlt : ∀ e ∈ a, key y < key e) :
    a.merge (y :: c) (goesFirst key) = y :: a.merge c (goesFirst key) := by
  cases a with
  | nil => rw [List.nil_merge, List.nil_merge]
  | cons x a =>
    refine List.cons_merge_cons_neg _ _ _ ?_
    rw [goesFirst, decide_eq_true_eq, not_le]
    exact hlt x List.mem_cons_self

variable [DecidableEq α]
variable (key) in
/-- The entries of the first list and those that the second has besides them, what is of one
key in this order. -/
def union (a b : List α) : List α := a.merge (b.diff a) (goesFirst key)

@[simp]
theorem union_nil_left : union key [] b = b := by
  rw [union, List.diff_nil, List.nil_merge]

@[simp]
theorem union_nil_right : union key a [] = a := by
  rw [union, List.nil_diff, List.merge_right]

theorem coe_union : (union key a b : Multiset α) = (a : Multiset α) ∪ b := by
  have hperm : (union key a b).Perm (a ++ b.diff a) := List.merge_perm_append _
  rw [Multiset.coe_eq_coe.mpr hperm, ← Multiset.coe_add, ← Multiset.coe_sub, Multiset.union_comm,
    Multiset.union_def, Multiset.add_comm]

theorem union_cons_same (hb : SortedBy key (x :: b)) :
    union key (x :: a) (x :: b) = x :: union key a b := by
  rw [union, List.diff_cons, List.erase_cons_head, merge_cons_left]
  · rfl
  · intro e he
    exact List.rel_of_pairwise_cons hb (List.diff_subset b a he)

theorem union_cons_left (hlt : ∀ e ∈ b, key x < key e) :
    union key (x :: a) b = x :: union key a b := by
  have hx : x ∉ b := fun hx => absurd (hlt x hx) (lt_irrefl _)
  rw [union, List.diff_cons, List.erase_of_not_mem hx, merge_cons_left]
  · rfl
  · intro e he
    exact (hlt e (List.diff_subset b a he)).le

theorem union_cons_right (hlt : ∀ e ∈ a, key y < key e) :
    union key a (y :: b) = y :: union key a b := by
  have hy : y ∉ a := fun hy => absurd (hlt y hy) (lt_irrefl _)
  rw [union, List.cons_diff_of_not_mem hy, merge_cons_right hlt]
  rfl

theorem union_cons_tie (hkey : key x = key y) (hb : SortedBy key (y :: b)) :
    ∃ rest, union key (x :: a) (y :: b) = x :: rest := by
  refine ⟨_, merge_cons_left fun e he => ?_⟩
  rcases List.mem_cons.mp (List.diff_subset (y :: b) (x :: a) he) with rfl | he
  · exact hkey.le
  · exact hkey.le.trans (List.rel_of_pairwise_cons hb he)

theorem length_union_le {l : List α} (ha : a.Sublist l) (hb : b.Sublist l) :
    (union key a b).length ≤ l.length := by
  have hle : (union key a b : Multiset α) ≤ l := by
    rw [coe_union]
    exact Multiset.union_le (Multiset.coe_le.mpr ha.subperm) (Multiset.coe_le.mpr hb.subperm)
  exact Multiset.card_le_card hle

/-! ### Where the lists differ, and where they end -/

variable (key)

/-- The lists differ in the entries of a key, after so many entries of their union. -/
def DisputedAt (place : Nat) (a b : List α) : Prop :=
  ∃ a₁ x a₂ b₁ y b₂, a = a₁ ++ x :: a₂ ∧ b = b₁ ++ y :: b₂ ∧ key x = key y ∧ x ≠ y ∧
    run key (key x) a₁ = run key (key x) b₁ ∧ (union key a₁ b₁).length = place

/-- The lists do not differ in the entries of a key before so many entries of their union. -/
def Undisputed (n : Nat) (a b : List α) : Prop := ∀ place < n, ¬ DisputedAt key place a b

def BothLast (n : Nat) (a b : List α) : Prop :=
  ∀ m < n, ¬ a.Sublist ((union key a b).take m) ∧ ¬ b.Sublist ((union key a b).take m)

/-- What the union of two lists takes first, with what is left of the lists, where they do not
differ in it. -/
inductive Takes : List α → List α → α → List α → List α → Prop
  | both (x : α) (a b : List α) : Takes (x :: a) (x :: b) x a b
  | left {x y : α} (a b : List α) (hlt : key x < key y) : Takes (x :: a) (y :: b) x a (y :: b)
  | right {x y : α} (a b : List α) (hlt : key y < key x) : Takes (x :: a) (y :: b) y (x :: a) b

variable {key} {a' b' : List α} {z : α} {n : Nat}

theorem disputedAt_cons_same (hb : SortedBy key (z :: b)) {place : Nat} :
    DisputedAt key place (z :: a) (z :: b) ↔ ∃ p, place = p + 1 ∧ DisputedAt key p a b := by
  have hlength : ∀ a₁ b₁ b₂ : List α, b = b₁ ++ b₂ →
      (union key (z :: a₁) (z :: b₁)).length = (union key a₁ b₁).length + 1 := by
    rintro a₁ b₁ b₂ rfl
    rw [union_cons_same (hb.sublist ((List.sublist_append_left b₁ b₂).cons_cons z)),
      List.length_cons]
  constructor
  · rintro ⟨a₁, x, a₂, b₁, y, b₂, ha, hb, hkey, hne, hrun, hplace⟩
    cases a₁ with
    | nil =>
      obtain ⟨rfl, rfl⟩ := List.cons.inj ha
      cases b₁ with
      | nil => exact absurd (List.cons.inj hb).1 hne
      | cons e b₁ =>
        obtain ⟨rfl, -⟩ := List.cons.inj hb
        rw [run_nil, run_cons, if_pos rfl] at hrun
        cases hrun
    | cons e a₁ =>
      obtain ⟨rfl, rfl⟩ := List.cons.inj ha
      cases b₁ with
      | nil =>
        obtain ⟨rfl, -⟩ := List.cons.inj hb
        rw [run_nil, run_cons, if_pos hkey.symm] at hrun
        cases hrun
      | cons e' b₁ =>
        obtain ⟨rfl, rfl⟩ := List.cons.inj hb
        rw [hlength a₁ b₁ _ rfl] at hplace
        refine ⟨_, hplace.symm, a₁, x, a₂, b₁, y, b₂, rfl, rfl, hkey, hne, ?_, rfl⟩
        rw [run_cons, run_cons] at hrun
        split at hrun
        next => exact (List.cons.inj hrun).2
        next => exact hrun
  · rintro ⟨p, rfl, a₁, x, a₂, b₁, y, b₂, rfl, rfl, hkey, hne, hrun, rfl⟩
    refine ⟨z :: a₁, x, a₂, z :: b₁, y, b₂, rfl, rfl, hkey, hne, ?_, hlength a₁ b₁ _ rfl⟩
    rw [run_cons, run_cons, hrun]

theorem disputedAt_cons_left (hlt : ∀ e ∈ b, key z < key e) {place : Nat} :
    DisputedAt key place (z :: a) b ↔ ∃ p, place = p + 1 ∧ DisputedAt key p a b := by
  have hlength : ∀ a₁ b₁ b₂ : List α, b = b₁ ++ b₂ →
      (union key (z :: a₁) b₁).length = (union key a₁ b₁).length + 1 := by
    rintro a₁ b₁ b₂ rfl
    rw [union_cons_left fun e he => hlt e (List.mem_append_left b₂ he), List.length_cons]
  have hother : ∀ {x y : α} {b₁ b₂ : List α}, b = b₁ ++ y :: b₂ → key x = key y →
      key z ≠ key x := by
    rintro x y b₁ b₂ rfl hkey
    rw [hkey]
    exact (hlt y (List.mem_append_right b₁ List.mem_cons_self)).ne
  constructor
  · rintro ⟨a₁, x, a₂, b₁, y, b₂, ha, hb, hkey, hne, hrun, hplace⟩
    cases a₁ with
    | nil => exact absurd (congrArg key (List.cons.inj ha).1) (hother hb hkey)
    | cons e a₁ =>
      obtain ⟨rfl, rfl⟩ := List.cons.inj ha
      rw [hlength a₁ b₁ _ hb] at hplace
      rw [run_cons, if_neg (hother hb hkey)] at hrun
      exact ⟨_, hplace.symm, a₁, x, a₂, b₁, y, b₂, rfl, hb, hkey, hne, hrun, rfl⟩
  · rintro ⟨p, rfl, a₁, x, a₂, b₁, y, b₂, rfl, hb, hkey, hne, hrun, rfl⟩
    refine ⟨z :: a₁, x, a₂, b₁, y, b₂, rfl, hb, hkey, hne, ?_, hlength a₁ b₁ _ hb⟩
    rw [run_cons, if_neg (hother hb hkey), hrun]

theorem disputedAt_cons_right (hlt : ∀ e ∈ a, key z < key e) {place : Nat} :
    DisputedAt key place a (z :: b) ↔ ∃ p, place = p + 1 ∧ DisputedAt key p a b := by
  have hlength : ∀ b₁ a₁ a₂ : List α, a = a₁ ++ a₂ →
      (union key a₁ (z :: b₁)).length = (union key a₁ b₁).length + 1 := by
    rintro b₁ a₁ a₂ rfl
    rw [union_cons_right fun e he => hlt e (List.mem_append_left a₂ he), List.length_cons]
  have hother : ∀ {x : α} {a₁ a₂ : List α}, a = a₁ ++ x :: a₂ → key z ≠ key x := by
    rintro x a₁ a₂ rfl
    exact (hlt x (List.mem_append_right a₁ List.mem_cons_self)).ne
  constructor
  · rintro ⟨a₁, x, a₂, b₁, y, b₂, ha, hb, hkey, hne, hrun, hplace⟩
    cases b₁ with
    | nil =>
      refine absurd ?_ (hother ha)
      rw [(List.cons.inj hb).1, hkey]
    | cons e b₁ =>
      obtain ⟨rfl, rfl⟩ := List.cons.inj hb
      rw [hlength b₁ a₁ _ ha] at hplace
      rw [run_cons, if_neg (hother ha)] at hrun
      exact ⟨_, hplace.symm, a₁, x, a₂, b₁, y, b₂, ha, rfl, hkey, hne, hrun, rfl⟩
  · rintro ⟨p, rfl, a₁, x, a₂, b₁, y, b₂, ha, rfl, hkey, hne, hrun, rfl⟩
    refine ⟨a₁, x, a₂, z :: b₁, y, b₂, ha, rfl, hkey, hne, ?_, hlength b₁ a₁ _ ha⟩
    rw [run_cons, if_neg (hother ha), hrun]

theorem disputedAt_tie (hkey : key x = key y) (hne : x ≠ y) :
    DisputedAt key 0 (x :: a) (y :: b) :=
  ⟨[], x, a, [], y, b, rfl, rfl, hkey, hne, rfl, by rw [union_nil_left]; rfl⟩

theorem not_disputedAt_nil_left {place : Nat} : ¬ DisputedAt key place [] b := by
  rintro ⟨a₁, x, a₂, b₁, y, b₂, ha, -⟩
  cases a₁ <;> cases ha

theorem not_disputedAt_nil_right {place : Nat} : ¬ DisputedAt key place a [] := by
  rintro ⟨a₁, x, a₂, b₁, y, b₂, -, hb, -⟩
  cases b₁ <;> cases hb

namespace Takes

omit [DecidableEq α] in
theorem sorted_left (htakes : Takes key a b z a' b') (ha : SortedBy key a) : SortedBy key a' := by
  cases htakes with
  | both => exact ha.tail
  | left => exact ha.tail
  | right => exact ha

omit [DecidableEq α] in
theorem sorted_right (htakes : Takes key a b z a' b') (hb : SortedBy key b) :
    SortedBy key b' := by
  cases htakes with
  | both => exact hb.tail
  | left => exact hb
  | right => exact hb.tail

section

variable (htakes : Takes key a b z a' b') (ha : SortedBy key a) (hb : SortedBy key b)
include htakes ha hb

theorem union_eq : union key a b = z :: union key a' b' := by
  cases htakes with
  | both => exact union_cons_same hb
  | left _ _ hlt => exact union_cons_left (lt_of_sorted hlt hb)
  | right _ _ hlt => exact union_cons_right (lt_of_sorted hlt ha)

theorem disputedAt_iff {place : Nat} :
    DisputedAt key place a b ↔ ∃ p, place = p + 1 ∧ DisputedAt key p a' b' := by
  cases htakes with
  | both => exact disputedAt_cons_same hb
  | left _ _ hlt => exact disputedAt_cons_left (lt_of_sorted hlt hb)
  | right _ _ hlt => exact disputedAt_cons_right (lt_of_sorted hlt ha)

theorem undisputed_succ : Undisputed key (n + 1) a b ↔ Undisputed key n a' b' := by
  constructor
  · intro hundisputed place hplace hdisputed
    exact hundisputed (place + 1) (Nat.succ_lt_succ hplace)
      ((htakes.disputedAt_iff ha hb).mpr ⟨place, rfl, hdisputed⟩)
  · intro hundisputed place hplace hdisputed
    obtain ⟨p, rfl, hdisputed'⟩ := (htakes.disputedAt_iff ha hb).mp hdisputed
    exact hundisputed p (Nat.lt_of_succ_lt_succ hplace) hdisputed'

end

omit [DecidableEq α] in
theorem sublist_iff (htakes : Takes key a b z a' b') {l : List α} :
    (a.Sublist (z :: l) ↔ a'.Sublist l) ∧ (b.Sublist (z :: l) ↔ b'.Sublist l) := by
  have hkept : ∀ {e : α} {rest : List α}, key z < key e →
      ((e :: rest).Sublist (z :: l) ↔ (e :: rest).Sublist l) := by
    intro e rest hlt
    rw [List.sublist_cons_iff]
    refine or_iff_left ?_
    rintro ⟨r, hr, -⟩
    rw [(List.cons.inj hr).1] at hlt
    exact absurd hlt (lt_irrefl _)
  cases htakes with
  | both => exact ⟨List.cons_sublist_cons, List.cons_sublist_cons⟩
  | left _ _ hlt => exact ⟨List.cons_sublist_cons, hkept hlt⟩
  | right _ _ hlt => exact ⟨hkept hlt, List.cons_sublist_cons⟩

omit [DecidableEq α] in
theorem not_sublist_nil (htakes : Takes key a b z a' b') : ¬ a.Sublist [] ∧ ¬ b.Sublist [] := by
  cases htakes <;> simp

theorem bothLast_succ (htakes : Takes key a b z a' b') (ha : SortedBy key a)
    (hb : SortedBy key b) : BothLast key (n + 1) a b ↔ BothLast key n a' b' := by
  have hplace : ∀ m, (¬ a.Sublist ((union key a b).take (m + 1)) ∧
      ¬ b.Sublist ((union key a b).take (m + 1))) ↔
      ¬ a'.Sublist ((union key a' b').take m) ∧ ¬ b'.Sublist ((union key a' b').take m) := by
    intro m
    rw [htakes.union_eq ha hb, List.take_succ_cons, htakes.sublist_iff.1, htakes.sublist_iff.2]
  constructor
  · intro hlast m hm
    exact (hplace m).mp (hlast (m + 1) (Nat.succ_lt_succ hm))
  · intro hlast m hm
    cases m with
    | zero =>
      rw [List.take_zero]
      exact htakes.not_sublist_nil
    | succ m => exact (hplace m).mpr (hlast m (Nat.lt_of_succ_lt_succ hm))

end Takes

variable (key) in
omit [DecidableEq α] in
theorem takes_or_tie (x y : α) (a b : List α) :
    (∃ z a' b', Takes key (x :: a) (y :: b) z a' b') ∨ key x = key y ∧ x ≠ y := by
  rcases lt_trichotomy (key x) (key y) with hlt | heq | hlt
  · exact Or.inl ⟨x, a, y :: b, .left a b hlt⟩
  · by_cases hsame : x = y
    · rw [hsame]
      exact Or.inl ⟨y, a, b, .both y a b⟩
    · exact Or.inr ⟨heq, hsame⟩
  · exact Or.inl ⟨y, x :: a, b, .right a b hlt⟩

theorem undisputed_zero : Undisputed key 0 a b := fun _ hplace => absurd hplace (Nat.not_lt_zero _)

theorem bothLast_zero : BothLast key 0 a b := fun _ hm => absurd hm (Nat.not_lt_zero _)

theorem undisputed_tie (hkey : key x = key y) (hne : x ≠ y) :
    Undisputed key n (x :: a) (y :: b) ↔ n = 0 := by
  constructor
  · intro hundisputed
    by_contra hn
    exact hundisputed 0 (Nat.pos_of_ne_zero hn) (disputedAt_tie hkey hne)
  · rintro rfl
    exact undisputed_zero

theorem bothLast_nil_left : BothLast key n [] b ↔ n = 0 := by
  constructor
  · intro hlast
    by_contra hn
    exact (hlast 0 (Nat.pos_of_ne_zero hn)).1 (List.nil_sublist _)
  · rintro rfl
    exact bothLast_zero

theorem bothLast_nil_right : BothLast key n a [] ↔ n = 0 := by
  constructor
  · intro hlast
    by_contra hn
    exact (hlast 0 (Nat.pos_of_ne_zero hn)).2 (List.nil_sublist _)
  · rintro rfl
    exact bothLast_zero

end Union

/-! ## Repeated keys -/

section Repeats

variable {β : Type*} (key? : α → Option κ)

def dropRepeats : κ → List α → List α
  | _, [] => []
  | last, e :: rest =>
    match key? e with
    | none => e :: dropRepeats last rest
    | some k => if k = last then dropRepeats last rest else e :: dropRepeats k rest

theorem dropRepeats_sublist (last : κ) (l : List α) : (dropRepeats key? last l).Sublist l := by
  induction l generalizing last with
  | nil => exact List.Sublist.slnil
  | cons e rest ih =>
    rw [dropRepeats]
    split
    · exact (ih last).cons_cons e
    next k _ =>
      split
      · exact (ih last).cons e
      · exact (ih k).cons_cons e

variable {key?}

theorem filterMap_dropRepeats {f : α → Option β} (hf : ∀ e, key? e ≠ none → f e = none)
    (last : κ) (l : List α) : (dropRepeats key? last l).filterMap f = l.filterMap f := by
  induction l generalizing last with
  | nil => rfl
  | cons e rest ih =>
    rw [dropRepeats, List.filterMap_cons]
    split
    next => rw [List.filterMap_cons, ih]
    next k hk =>
      have hnone : f e = none := hf e (hk ▸ Option.some_ne_none k)
      rw [hnone]
      split
      · exact ih last
      · rw [List.filterMap_cons, hnone, ih]

/-- Where the keys are sorted, each key after the first one is kept once. -/
theorem keys_dropRepeats {last : κ} {l : List α}
    (hsorted : (last :: l.filterMap key?).Pairwise (· ≤ ·)) :
    (last :: (dropRepeats key? last l).filterMap key?).Pairwise (· < ·) ∧
      ∀ k, k ∈ (dropRepeats key? last l).filterMap key? ↔ k ∈ l.filterMap key? ∧ k ≠ last := by
  induction l generalizing last with
  | nil => exact ⟨List.pairwise_singleton _ _, by simp [dropRepeats]⟩
  | cons e rest ih =>
    rw [dropRepeats]
    rw [List.filterMap_cons] at hsorted ⊢
    cases hk : key? e with
    | none =>
      rw [hk] at hsorted
      rw [List.filterMap_cons, hk]
      exact ih hsorted
    | some k =>
      rw [hk] at hsorted
      dsimp only
      obtain ⟨hlast, hrest⟩ := List.pairwise_cons.mp hsorted
      split
      next heq =>
        subst heq
        obtain ⟨hlt, hmem⟩ := ih hrest
        refine ⟨hlt, fun k' => ?_⟩
        rw [hmem, List.mem_cons]
        exact ⟨fun ⟨hin, hne⟩ => ⟨Or.inr hin, hne⟩,
          fun ⟨hin, hne⟩ => ⟨hin.resolve_left hne, hne⟩⟩
      next hne =>
        obtain ⟨hlt, hmem⟩ := ih hrest
        have hlk : last < k := (hlast k List.mem_cons_self).lt_of_ne (Ne.symm hne)
        rw [List.filterMap_cons, hk]
        refine ⟨List.pairwise_cons.mpr ⟨fun k' hk' => ?_, hlt⟩, fun k' => ?_⟩
        · rcases List.mem_cons.mp hk' with rfl | hk'
          · exact hlk
          · exact hlk.trans ((List.pairwise_cons.mp hlt).1 k' hk')
        · rw [List.mem_cons, hmem, List.mem_cons]
          constructor
          · rintro (rfl | ⟨hin, -⟩)
            · exact ⟨Or.inl rfl, hne⟩
            · have hle : k ≤ k' := (List.pairwise_cons.mp hrest).1 k' hin
              exact ⟨Or.inr hin, (hlk.trans_le hle).ne'⟩
          · rintro ⟨rfl | hin, hne'⟩
            · exact Or.inl rfl
            · by_cases heq : k' = k
              · exact Or.inl heq
              · exact Or.inr ⟨hin, heq⟩

end Repeats

end Fs3.Foundation
