import Mathlib.Data.List.Perm.Subperm
import Mathlib.Data.List.Sort
import Mathlib.Data.Prod.Lex

/-! # Sorting by a key, largest first, with ties in any order

A library sort that is not promised to be stable is known only up to the order it gives to elements
of equal key. A `DescendingSort` is any function with the documented behaviour; a statement about
every `DescendingSort` holds whichever way ties are broken, and `DescendingSort.stable` is one of
them. -/

namespace Fs3.Foundation

variable {α κ : Type*} [LinearOrder κ]

/-- A sort by decreasing key. -/
structure DescendingSort (key : α → κ) where
  sort : List α → List α
  perm : ∀ l, (sort l).Perm l
  descending : ∀ l, (sort l).Pairwise fun a b => key b ≤ key a

namespace DescendingSort

variable {key : α → κ} (sorter : DescendingSort key)

@[simp]
theorem mem_sort {l : List α} {a : α} : a ∈ sorter.sort l ↔ a ∈ l :=
  (sorter.perm l).mem_iff

@[simp]
theorem length_sort (l : List α) : (sorter.sort l).length = l.length :=
  (sorter.perm l).length_eq

theorem key_le_head {l rest : List α} {first : α} (hsort : sorter.sort l = first :: rest) :
    ∀ a ∈ l, key a ≤ key first := by
  intro a ha
  have hdesc := sorter.descending l
  rw [← sorter.mem_sort, hsort] at ha
  rw [hsort, List.pairwise_cons] at hdesc
  rcases List.mem_cons.mp ha with rfl | ha
  · exact le_rfl
  · exact hdesc.1 a ha

theorem head?_eq_of_lt {l : List α} {a : α} (ha : a ∈ l)
    (hlt : ∀ b ∈ l, b ≠ a → key b < key a) : (sorter.sort l).head? = some a := by
  cases hsort : sorter.sort l with
  | nil =>
    rw [← sorter.mem_sort, hsort] at ha
    cases ha
  | cons first rest =>
    have hfirst : first ∈ l := by
      rw [← sorter.mem_sort, hsort]
      exact List.mem_cons_self
    by_contra hne
    have hkey := hlt first hfirst fun heq => hne (by rw [heq]; rfl)
    exact absurd (sorter.key_le_head hsort a ha) (not_le_of_gt hkey)

def stable (key : α → κ) : DescendingSort key where
  sort := List.insertionSort fun a b => key b ≤ key a
  perm := List.perm_insertionSort _
  descending := by
    have htotal : Std.Total fun a b : α => key b ≤ key a := ⟨fun a b => le_total _ _⟩
    have htrans : IsTrans α fun a b => key b ≤ key a := ⟨fun _ _ _ hab hbc => hbc.trans hab⟩
    exact List.pairwise_insertionSort _

def putLast [DecidableEq α] (key : α → κ) (a : α) : DescendingSort key where
  sort := (stable fun b => toLex (key b, decide (b ≠ a))).sort
  perm := (stable fun b => toLex (key b, decide (b ≠ a))).perm
  descending l := ((stable fun b => toLex (key b, decide (b ≠ a))).descending l).imp fun h =>
    Prod.Lex.monotone_fst _ _ h

theorem putLast_head_ne [DecidableEq α] {l rest : List α} {a b first : α}
    (hsort : (putLast key a).sort l = first :: rest) (hb : b ∈ l) (hne : b ≠ a)
    (hle : key a ≤ key b) : first ≠ a := by
  rintro rfl
  have hhead := (stable fun c => toLex (key c, decide (c ≠ first))).key_le_head hsort b hb
  rw [Prod.Lex.toLex_le_toLex] at hhead
  rcases hhead with hlt | ⟨_, hflag⟩
  · exact absurd hle (not_le_of_gt hlt)
  · exact absurd hflag (by simp [hne])

/-- The stable sort that puts one element in front of all others of its key. -/
def putFirst [DecidableEq α] (key : α → κ) (a : α) : DescendingSort key where
  sort := (stable fun b => toLex (key b, decide (b = a))).sort
  perm := (stable fun b => toLex (key b, decide (b = a))).perm
  descending l := ((stable fun b => toLex (key b, decide (b = a))).descending l).imp fun h =>
    Prod.Lex.monotone_fst _ _ h

theorem putFirst_head [DecidableEq α] {l : List α} {a : α} (ha : a ∈ l)
    (hlargest : ∀ b ∈ l, key b ≤ key a) : ((putFirst key a).sort l).head? = some a := by
  refine (stable fun b => toLex (key b, decide (b = a))).head?_eq_of_lt ha fun b hb hne => ?_
  rw [Prod.Lex.toLex_lt_toLex]
  rcases lt_or_eq_of_le (hlargest b hb) with hlt | heq
  · exact Or.inl hlt
  · exact Or.inr ⟨heq, by simp [hne]⟩

theorem putFirst_pairwise [DecidableEq α] {l : List α} (a : α) (hnodup : l.Nodup) :
    ((putFirst key a).sort l).Pairwise fun b b' => b' = a → key a < key b := by
  have hdesc := (stable fun b => toLex (key b, decide (b = a))).descending l
  have hsorted : ((putFirst key a).sort l).Nodup :=
    ((putFirst key a).perm l).nodup_iff.mpr hnodup
  refine (List.Pairwise.and hdesc hsorted).imp fun {b b'} h => ?_
  obtain ⟨hle, hne⟩ := h
  rintro rfl
  rw [Prod.Lex.toLex_le_toLex] at hle
  rcases hle with hlt | ⟨_, hflag⟩
  · exact hlt
  · exact absurd hflag (by simp [hne])

/-- A sort that breaks ties one way on one list and another way on all others. -/
def twoFaced [DecidableEq α] (first second : DescendingSort key) (l : List α) :
    DescendingSort key where
  sort l' := if l' = l then first.sort l' else second.sort l'
  perm l' := by
    split
    · exact first.perm l'
    · exact second.perm l'
  descending l' := by
    split
    · exact first.descending l'
    · exact second.descending l'

theorem twoFaced_sort_self [DecidableEq α] (first second : DescendingSort key) (l : List α) :
    (twoFaced first second l).sort l = first.sort l := if_pos rfl

theorem twoFaced_sort_of_ne [DecidableEq α] (first second : DescendingSort key) {l l' : List α}
    (hne : l' ≠ l) : (twoFaced first second l).sort l' = second.sort l' := if_neg hne

/-! Where no two keys are equal the order leaves no choice. -/

theorem sort_strict {l : List α} (hdistinct : (l.map key).Nodup) :
    (sorter.sort l).Pairwise fun a b => key b < key a := by
  have hnodup : ((sorter.sort l).map key).Nodup :=
    ((sorter.perm l).map key).nodup_iff.mpr hdistinct
  rw [List.Nodup, List.pairwise_map] at hnodup
  exact ((sorter.descending l).and hnodup).imp fun ⟨hle, hne⟩ => lt_of_le_of_ne hle (Ne.symm hne)

theorem sort_map {β : Type*} {key' : β → κ} (sorter' : DescendingSort key') {g : α → β}
    (hkey : ∀ a, key' (g a) = key a) {l : List α} (hdistinct : (l.map key).Nodup) :
    sorter'.sort (l.map g) = (sorter.sort l).map g := by
  apply List.Perm.eq_of_pairwise ?_ (sorter'.descending (l.map g))
  · rw [List.pairwise_map]
    exact (sorter.descending l).imp fun hle => by rwa [hkey, hkey]
  · exact (sorter'.perm _).trans ((sorter.perm l).map g).symm
  · intro b b' hb hb' hle hle'
    obtain ⟨a, ha, rfl⟩ := List.mem_map.mp (sorter'.mem_sort.mp hb)
    obtain ⟨a', ha', rfl⟩ := List.mem_map.mp hb'
    rw [hkey, hkey] at hle hle'
    rw [List.inj_on_of_nodup_map hdistinct ha (sorter.mem_sort.mp ha') (le_antisymm hle' hle)]

end DescendingSort

/-! ## The last match of a scan -/

def lastMatch (p : α → Bool) (l : List α) : Option (α × Nat) :=
  (l.zipIdx.filter fun entry => p entry.1).getLast?

variable {l : List α} {p : α → Bool}

theorem lastMatch_eq_none : lastMatch p l = none ↔ ∀ a ∈ l, p a = false := by
  unfold lastMatch
  rw [List.getLast?_eq_none_iff, List.filter_eq_nil_iff]
  constructor
  · intro h a ha
    obtain ⟨index, hlt, rfl⟩ := List.mem_iff_getElem.mp ha
    have hentry := h (l[index], index) (List.mk_mem_zipIdx_iff_getElem?.mpr (by simp [hlt]))
    simpa using hentry
  · intro h entry hentry
    simp [h entry.1 (List.fst_mem_of_mem_zipIdx hentry)]

variable {index : Nat}

theorem mem_of_lastMatch {a : α} (h : lastMatch p l = some (a, index)) : a ∈ l ∧ p a = true := by
  have hmem := List.mem_of_getLast? h
  rw [List.mem_filter] at hmem
  exact ⟨List.fst_mem_of_mem_zipIdx hmem.1, hmem.2⟩

theorem getElem?_of_lastMatch {a : α} (h : lastMatch p l = some (a, index)) :
    l[index]? = some a := by
  have hmem := List.mem_of_getLast? h
  rw [List.mem_filter] at hmem
  exact List.mk_mem_zipIdx_iff_getElem?.mp hmem.1

theorem lastMatch_of_unique {a : α} (hindex : l[index]? = some a) (hmatch : p a = true)
    (hunique : ∀ other b, l[other]? = some b → p b = true → other = index) :
    lastMatch p l = some (a, index) := by
  cases hlast : lastMatch p l with
  | none =>
    rw [lastMatch_eq_none.mp hlast a (List.mem_of_getElem? hindex)] at hmatch
    cases hmatch
  | some found =>
    obtain ⟨b, other⟩ := found
    have hother := getElem?_of_lastMatch hlast
    obtain rfl := hunique other b hother (mem_of_lastMatch hlast).2
    rw [hindex] at hother
    rw [Option.some.inj hother]

theorem lastMatch_pairwise {R : α → α → Prop} {a b : α} (hpairwise : l.Pairwise R)
    (h : lastMatch p l = some (a, index)) (hb : b ∈ l) (hmatch : p b = true) : b = a ∨ R b a := by
  have hzip : (l.zipIdx.filter fun entry => p entry.1).Pairwise fun x y => R x.1 y.1 := by
    apply List.Pairwise.filter
    rw [← List.pairwise_map, List.zipIdx_map_fst]
    exact hpairwise
  obtain ⟨before, hsplit⟩ := List.getLast?_eq_some_iff.mp h
  obtain ⟨position, hlt, rfl⟩ := List.mem_iff_getElem.mp hb
  have hentry : (l[position], position) ∈ l.zipIdx.filter fun entry => p entry.1 :=
    List.mem_filter.mpr ⟨List.mk_mem_zipIdx_iff_getElem?.mpr (by simp [hlt]), hmatch⟩
  rw [hsplit] at hzip hentry
  rcases List.mem_append.mp hentry with hbefore | hlast
  · exact Or.inr ((List.pairwise_append.mp hzip).2.2 _ hbefore _ List.mem_cons_self)
  · exact Or.inl (congrArg Prod.fst (List.mem_singleton.mp hlast))

namespace DescendingSort

variable {key : α → κ} (sorter : DescendingSort key)

theorem lastMatch_le {a b : α} (h : lastMatch p (sorter.sort l) = some (a, index)) (hb : b ∈ l)
    (hmatch : p b = true) : key a ≤ key b := by
  rcases lastMatch_pairwise (sorter.descending l) h (sorter.mem_sort.mpr hb) hmatch with rfl | hle
  · exact le_rfl
  · exact hle

theorem putLast_lastMatch [DecidableEq α] {a : α} (ha : a ∈ l) (hmatch : p a = true)
    (hleast : ∀ b ∈ l, p b = true → key a ≤ key b) :
    ∃ index, lastMatch p ((putLast key a).sort l) = some (a, index) := by
  cases hlast : lastMatch p ((putLast key a).sort l) with
  | none =>
    have hnone := lastMatch_eq_none.mp hlast a ((putLast key a).mem_sort.mpr ha)
    rw [hmatch] at hnone
    cases hnone
  | some found =>
    obtain ⟨b, index⟩ := found
    have hb := mem_of_lastMatch hlast
    have hpairwise := (stable fun b => toLex (key b, decide (b ≠ a))).descending l
    rcases lastMatch_pairwise hpairwise hlast ((putLast key a).mem_sort.mpr ha) hmatch with
      rfl | hle
    · exact ⟨index, rfl⟩
    · by_cases hne : b = a
      · exact ⟨index, by rw [hne]⟩
      · have hkey := hleast b ((putLast key a).mem_sort.mp hb.1) hb.2
        rw [Prod.Lex.toLex_le_toLex] at hle
        rcases hle with hlt | ⟨_, hflag⟩
        · exact absurd hkey (not_le_of_gt hlt)
        · exact absurd hflag (by simp [hne])

end DescendingSort

end Fs3.Foundation

/-! ## Cutting a sorted list at either end

A list that is too long is sorted by a key and cut behind its first elements. What
is dropped depends on the direction of the sort, unless all keys are the same.
-/

namespace Fs3.Foundation

variable {α κ : Type*} [LinearOrder κ] {key : α → κ}

theorem mem_take_of_not_mem_drop {l : List α} {n : Nat} {a : α} (ha : a ∈ l)
    (hdrop : a ∉ l.drop n) : a ∈ l.take n := by
  rw [← List.take_append_drop n l, List.mem_append] at ha
  exact ha.resolve_right hdrop

theorem not_mem_drop_of_mem_take {l : List α} (hnodup : l.Nodup) {n : Nat} {a : α}
    (ha : a ∈ l.take n) : a ∉ l.drop n := fun hdrop =>
  List.disjoint_take_drop hnodup le_rfl ha hdrop

theorem mem_of_subset_of_length {l l' : List α} (hnodup : l.Nodup) (hsubset : l ⊆ l')
    (hlength : l'.length ≤ l.length) {a : α} (ha : a ∈ l') : a ∈ l :=
  ((hnodup.subperm hsubset).perm_of_length_le hlength).mem_iff.mpr ha

section Cut

variable {oldest newest : List α} (hperm : oldest.Perm newest) (hnodup : newest.Nodup)
  (hascending : oldest.Pairwise fun a b => key a ≤ key b)
  (hdescending : newest.Pairwise fun a b => key b ≤ key a)

include hperm hnodup hascending hdescending

/-- If both directions drop the same of what may be dropped, and something may, all
keys are the same. -/
theorem key_eq_of_cut {n : Nat} (hpos : 0 < n) (hlength : n < newest.length) {p : α → Prop}
    (hdown : ∀ a b, p a → key b ≤ key a → p b) (hsome : ∃ a ∈ newest, p a)
    (hcut : ∀ a ∈ newest, p a → (a ∈ oldest.drop n ↔ a ∈ newest.drop n)) :
    ∀ a ∈ newest, ∀ b ∈ newest, key a = key b := by
  have hne : newest ≠ [] := List.ne_nil_of_length_pos (by omega)
  -- The last one has the smallest key, so it may be dropped, and both directions drop it.
  obtain ⟨init, last, hlast⟩ := List.eq_nil_or_concat newest |>.resolve_left hne
  have hmem : last ∈ newest := by rw [hlast]; simp
  have hleast : ∀ a ∈ newest, key last ≤ key a := by
    intro a ha
    rw [hlast, List.concat_eq_append, List.pairwise_append] at hdescending
    rw [hlast, List.concat_eq_append, List.mem_append, List.mem_singleton] at ha
    rcases ha with ha | rfl
    · exact hdescending.2.2 a ha last (List.mem_singleton_self last)
    · exact le_rfl
  have hplast : p last := by
    obtain ⟨a, ha, hpa⟩ := hsome
    exact hdown a last hpa (hleast a ha)
  have hdrop : last ∈ newest.drop n := by
    rw [hlast, List.concat_eq_append, List.drop_append_of_le_length]
    · exact List.mem_append_right _ (List.mem_singleton_self last)
    · rw [hlast, List.concat_eq_append, List.length_append, List.length_singleton] at hlength
      omega
  -- What comes before it when the oldest come first is as old, and is not dropped.
  have htake : ∀ a ∈ oldest.take n, key a = key last := by
    intro a ha
    have hpair := hascending
    rw [← List.take_append_drop n oldest, List.pairwise_append] at hpair
    have hle := hpair.2.2 a ha last ((hcut last hmem hplast).mpr hdrop)
    exact le_antisymm hle (hleast a (hperm.mem_iff.mp (List.mem_of_mem_take ha)))
  have hsubset : oldest.take n ⊆ newest.take n := by
    intro a ha
    have hin := hperm.mem_iff.mp (List.mem_of_mem_take ha)
    refine mem_take_of_not_mem_drop hin fun hdropped => ?_
    have hpa : p a := hdown last a hplast (htake a ha).le
    exact not_mem_drop_of_mem_take (hperm.nodup_iff.mpr hnodup) ha ((hcut a hin hpa).mpr hdropped)
  -- So these are also the first when the newest come first, whose keys are the largest.
  have hfirst : ∀ a ∈ newest, key a ≤ key last := by
    intro a ha
    cases hnewest : newest with
    | nil => exact absurd hnewest hne
    | cons first rest =>
      have hhead : first ∈ newest.take n := by
        obtain ⟨m, rfl⟩ : ∃ m, n = m + 1 := ⟨n - 1, by omega⟩
        rw [hnewest, List.take_succ_cons]
        exact List.mem_cons_self
      have holdest : first ∈ oldest.take n := by
        refine mem_of_subset_of_length ?_ hsubset ?_ hhead
        · exact (hperm.nodup_iff.mpr hnodup).sublist (List.take_sublist n oldest)
        · rw [List.length_take, List.length_take, hperm.length_eq]
      rw [← htake first holdest]
      rw [hnewest, List.pairwise_cons] at hdescending
      rw [hnewest] at ha
      rcases List.mem_cons.mp ha with rfl | ha
      · exact le_rfl
      · exact hdescending.1 a ha
  intro a ha b hb
  rw [le_antisymm (hfirst a ha) (hleast a ha), le_antisymm (hfirst b hb) (hleast b hb)]

end Cut

end Fs3.Foundation
