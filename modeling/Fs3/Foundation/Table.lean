import Mathlib.Data.List.MinMax

/-! # Tables of rows under generated keys

A database keeps rows under keys that it hands out in ascending order. What is assumed of a
database is what is read back afterwards. -/

namespace Fs3.Foundation

variable {δ ρ : Type*}

/-- Rows that carry their key. -/
class Keyed (ρ : Type*) where
  key : ρ → Nat
  withKey : Nat → ρ → ρ
  key_withKey : ∀ k r, key (withKey k r) = k

attribute [simp] Keyed.key_withKey

open Keyed

/-- A table of a database, whose states are `δ`. -/
structure Table (δ ρ : Type*) [Keyed ρ] where
  row : δ → Nat → Option ρ
  rows : δ → List ρ
  first : δ → (ρ → Bool) → Option ρ
  last : δ → Option ρ
  /-- The table with one row more, and the key of that row. -/
  create : δ → ρ → δ × Nat
  save : δ → ρ → δ
  key_of_row : ∀ {d k r}, row d k = some r → key r = k
  row_zero : ∀ d, row d 0 = none
  mem_rows : ∀ {d r}, r ∈ rows d ↔ row d (key r) = some r
  row_of_first : ∀ {d p r}, first d p = some r → row d (key r) = some r ∧ p r = true
  first_isSome : ∀ {d p k r}, row d k = some r → p r = true → (first d p).isSome = true
  last_eq_some : ∀ {d r}, last d = some r ↔
    row d (key r) = some r ∧ ∀ k, row d k ≠ none → k ≤ key r
  key_lt_create : ∀ {d k} (r), row d k ≠ none → k < (create d r).2
  row_create : ∀ d r k, row (create d r).1 k =
    if k = (create d r).2 then some (withKey k r) else row d k
  save_new : ∀ {d r}, key r = 0 → save d r = (create d r).1
  row_save : ∀ {d r}, row d (key r) ≠ none → ∀ k,
    row (save d r) k = if k = key r then some r else row d k

namespace Table

variable [Keyed ρ] (table : Table δ ρ) {d : δ}

theorem last_create (d : δ) (r : ρ) :
    table.last (table.create d r).1 = some (withKey (table.create d r).2 r) := by
  refine table.last_eq_some.mpr ⟨?_, fun k hk => ?_⟩
  · rw [key_withKey, table.row_create, if_pos rfl]
  · rw [key_withKey]
    rw [table.row_create] at hk
    split at hk
    next hnew => exact Nat.le_of_eq hnew
    next => exact Nat.le_of_lt (table.key_lt_create r hk)

theorem row_create_self (d : δ) (r : ρ) :
    table.row (table.create d r).1 (table.create d r).2 =
      some (withKey (table.create d r).2 r) := by
  rw [table.row_create, if_pos rfl]

theorem row_create_of_row {k : Nat} {r : ρ} (hrow : table.row d k = some r) (new : ρ) :
    table.row (table.create d new).1 k = some r := by
  have hne : table.row d k ≠ none := by simp [hrow]
  rw [table.row_create, if_neg (Nat.ne_of_lt (table.key_lt_create new hne)), hrow]

theorem row_save_ne_none {r : ρ} (hrow : table.row d (key r) ≠ none) (k : Nat) :
    table.row (table.save d r) k ≠ none ↔ table.row d k ≠ none := by
  rw [table.row_save hrow]
  split
  next heq => simp [heq, hrow]
  next => exact Iff.rfl

/-- A query for one row is answered with the first in the order of the keys. -/
def FirstByKey : Prop :=
  ∀ {d p k r r'}, table.first d p = some r → table.row d k = some r' → p r' = true → key r ≤ k

end Table

/-! ## Tables kept as lists -/

/-- Rows in the order of their keys. -/
structure Kept (ρ : Type*) [Keyed ρ] where
  rows : List ρ
  key_pos : ∀ r ∈ rows, 0 < key r
  sorted : rows.Pairwise fun r r' => key r < key r'

namespace Kept

variable [Keyed ρ]

def empty : Kept ρ := ⟨[], by simp, .nil⟩

def next (kept : Kept ρ) : Nat := (kept.rows.map key).foldr max 0 + 1

variable {kept : Kept ρ}

theorem key_lt_next {r : ρ} (hr : r ∈ kept.rows) : key r < kept.next :=
  Nat.lt_succ_of_le (List.le_max_of_le' 0 (List.mem_map_of_mem hr) le_rfl)

def add (kept : Kept ρ) (r : ρ) : Kept ρ where
  rows := kept.rows ++ [withKey kept.next r]
  key_pos := by
    intro r' hr'
    rcases List.mem_append.mp hr' with hr' | hr'
    · exact kept.key_pos r' hr'
    · rw [List.mem_singleton.mp hr', key_withKey]
      exact Nat.succ_pos _
  sorted := by
    rw [List.pairwise_append]
    refine ⟨kept.sorted, List.pairwise_singleton _ _, fun r' hr' new hnew => ?_⟩
    rw [List.mem_singleton.mp hnew, key_withKey]
    exact key_lt_next hr'

def replace (kept : Kept ρ) (r : ρ) : Kept ρ where
  rows := kept.rows.map fun old => if key old = key r then r else old
  key_pos := by
    intro r' hr'
    obtain ⟨old, hold, rfl⟩ := List.mem_map.mp hr'
    split
    next heq => exact heq ▸ kept.key_pos old hold
    next => exact kept.key_pos old hold
  sorted := by
    have hkey : ∀ old, key (if key old = key r then r else old) = key old := by
      intro old
      split
      next heq => exact heq.symm
      next => rfl
    rw [List.pairwise_map]
    simp only [hkey]
    exact kept.sorted

def row (kept : Kept ρ) (k : Nat) : Option ρ := kept.rows.find? fun r => key r == k

theorem eq_of_key_eq {r r' : ρ} (hr : r ∈ kept.rows) (hr' : r' ∈ kept.rows) (hkey : key r = key r')
     :
    r = r' := by
  have hleft : kept.rows.Pairwise fun r r' => key r = key r' → r = r' :=
    kept.sorted.imp fun hlt heq => absurd heq (Nat.ne_of_lt hlt)
  have hright : kept.rows.Pairwise (flip fun r r' => key r = key r' → r = r') :=
    kept.sorted.imp fun hlt heq => absurd heq (Nat.ne_of_gt hlt)
  exact hleft.forall_of_forall_of_flip (fun _ _ _ => rfl) hright hr hr' hkey

theorem row_eq_some {k : Nat} {r : ρ} : kept.row k = some r ↔ r ∈ kept.rows ∧ key r = k := by
  constructor
  · intro hrow
    have hkey : (key r == k) = true := @List.find?_some _ (fun r => key r == k) _ _ hrow
    exact ⟨List.mem_of_find?_eq_some hrow, beq_iff_eq.mp hkey⟩
  · rintro ⟨hr, rfl⟩
    have hsome : (kept.row (key r)).isSome = true :=
      List.find?_isSome.mpr ⟨r, hr, beq_iff_eq.mpr rfl⟩
    obtain ⟨found, hfound⟩ := Option.isSome_iff_exists.mp hsome
    have hkey := @List.find?_some _ (fun r' => key r' == key r) _ _ hfound
    rw [hfound, eq_of_key_eq (List.mem_of_find?_eq_some hfound) hr (beq_iff_eq.mp hkey)]

theorem row_ne_none {k : Nat} : kept.row k ≠ none ↔ ∃ r ∈ kept.rows, key r = k := by
  rw [Option.ne_none_iff_exists']
  exact exists_congr fun r => row_eq_some

theorem getLast?_eq_some {r : ρ} : kept.rows.getLast? = some r ↔
    kept.row (key r) = some r ∧ ∀ k, kept.row k ≠ none → k ≤ key r := by
  constructor
  · intro hlast
    obtain ⟨before, hrows⟩ := List.getLast?_eq_some_iff.mp hlast
    have hr : r ∈ kept.rows := hrows ▸ List.mem_append_right before (List.mem_singleton_self r)
    refine ⟨row_eq_some.mpr ⟨hr, rfl⟩, fun k hk => ?_⟩
    obtain ⟨r', hr', rfl⟩ := row_ne_none.mp hk
    have hsorted := kept.sorted
    rw [hrows, List.pairwise_append] at hsorted
    rw [hrows] at hr'
    rcases List.mem_append.mp hr' with hr' | hr'
    · exact Nat.le_of_lt (hsorted.2.2 r' hr' r (List.mem_singleton_self r))
    · rw [List.mem_singleton.mp hr']
  · rintro ⟨hrow, hmax⟩
    have hr := (row_eq_some.mp hrow).1
    obtain ⟨last, hlast⟩ := List.getLast?_isSome.mpr (List.ne_nil_of_mem hr) |>
      Option.isSome_iff_exists.mp
    obtain ⟨before, hrows⟩ := List.getLast?_eq_some_iff.mp hlast
    have hmem : last ∈ kept.rows := List.mem_of_getLast? hlast
    have hle := hmax (key last) (row_ne_none.mpr ⟨last, hmem, rfl⟩)
    have hsorted := kept.sorted
    rw [hrows, List.pairwise_append] at hsorted
    rw [hrows] at hr
    rcases List.mem_append.mp hr with hr | hr
    · have hlt := hsorted.2.2 r hr last (List.mem_singleton_self last)
      omega
    · rw [hlast, List.mem_singleton.mp hr]

theorem row_add (kept : Kept ρ) (r : ρ) (k : Nat) :
    (kept.add r).row k = if k = kept.next then some (withKey k r) else kept.row k := by
  split
  next heq =>
    subst heq
    rw [row_eq_some]
    exact ⟨List.mem_append_right _ (List.mem_singleton_self _), key_withKey _ r⟩
  next hne =>
    rw [row, add, List.find?_append, row]
    have hnew : ([withKey kept.next r].find? fun r => key r == k) = none := by
      rw [List.find?_singleton, key_withKey, if_neg]
      intro heq
      exact hne (beq_iff_eq.mp heq).symm
    rw [hnew, Option.or_none]

theorem row_replace {r : ρ} (hr : kept.row (key r) ≠ none) (k : Nat) :
    (kept.replace r).row k = if k = key r then some r else kept.row k := by
  obtain ⟨old, hold, hkey⟩ := row_ne_none.mp hr
  split
  next heq =>
    rw [row_eq_some]
    exact ⟨List.mem_map.mpr ⟨old, hold, if_pos hkey⟩, heq.symm⟩
  next hne =>
    ext found
    rw [row_eq_some, row_eq_some]
    constructor
    · rintro ⟨hfound, rfl⟩
      obtain ⟨before, hbefore, rfl⟩ := List.mem_map.mp hfound
      split at hne
      · exact absurd rfl hne
      · exact ⟨by rwa [if_neg ‹_›], by rw [if_neg ‹_›]⟩
    · rintro ⟨hfound, rfl⟩
      exact ⟨List.mem_map.mpr ⟨found, hfound, if_neg hne⟩, rfl⟩

def save (kept : Kept ρ) (r : ρ) : Kept ρ := if key r = 0 then kept.add r else kept.replace r

def table : Table (Kept ρ) ρ where
  row := row
  rows := rows
  first kept p := kept.rows.find? p
  last kept := kept.rows.getLast?
  create kept r := (kept.add r, kept.next)
  save := save
  key_of_row hrow := (row_eq_some.mp hrow).2
  row_zero kept := by
    by_contra hrow
    obtain ⟨r, hr, hkey⟩ := row_ne_none.mp hrow
    exact Nat.ne_of_gt (kept.key_pos r hr) hkey
  mem_rows := by
    intro kept r
    rw [row_eq_some]
    exact ⟨fun hr => ⟨hr, rfl⟩, And.left⟩
  row_of_first hfirst :=
    ⟨row_eq_some.mpr ⟨List.mem_of_find?_eq_some hfirst, rfl⟩, List.find?_some hfirst⟩
  first_isSome hrow hp := List.find?_isSome.mpr ⟨_, (row_eq_some.mp hrow).1, hp⟩
  last_eq_some := getLast?_eq_some
  key_lt_create := by
    intro kept k r hrow
    obtain ⟨old, hold, rfl⟩ := row_ne_none.mp hrow
    exact key_lt_next hold
  row_create := row_add
  save_new := by
    intro kept r hkey
    exact if_pos hkey
  row_save := by
    intro kept r hrow k
    have hkey : key r ≠ 0 := by
      obtain ⟨old, hold, hkey⟩ := row_ne_none.mp hrow
      exact hkey ▸ Nat.ne_of_gt (kept.key_pos old hold)
    rw [save, if_neg hkey, row_replace hrow]

theorem table_firstByKey : (table : Table (Kept ρ) ρ).FirstByKey := by
  intro kept p k r r' hfirst hrow hp
  obtain ⟨hmem, rfl⟩ := row_eq_some.mp hrow
  obtain ⟨hr, before, after, hrows, hbefore⟩ := List.find?_eq_some_iff_append.mp hfirst
  have hsorted := kept.sorted
  rw [hrows, List.pairwise_append] at hsorted
  rw [hrows, List.mem_append, List.mem_cons] at hmem
  rcases hmem with hmem | rfl | hmem
  · have hnot := hbefore r' hmem
    rw [hp] at hnot
    cases hnot
  · exact le_rfl
  · exact Nat.le_of_lt ((List.pairwise_cons.mp hsorted.2.1).1 r' hmem)

end Kept

end Fs3.Foundation
