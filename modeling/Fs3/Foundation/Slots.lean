import Mathlib.Data.List.Nodup
import Mathlib.Data.List.Perm.Subperm
import Mathlib.Data.List.Range

/-! # Results put at their slots

A batch answers each of its items at the slot the item came from. -/

namespace Fs3.Foundation

variable {β : Type*}

def putAll (slots : Nat → β) : List (Nat × β) → Nat → β
  | [] => slots
  | (slot, value) :: rest => putAll (Function.update slots slot value) rest

theorem putAll_of_ne {slots : Nat → β} {puts : List (Nat × β)} {slot : Nat}
    (hne : ∀ put ∈ puts, put.1 ≠ slot) : putAll slots puts slot = slots slot := by
  induction puts generalizing slots with
  | nil => rfl
  | cons put rest ih =>
    rw [putAll, ih fun other hother => hne other (List.mem_cons_of_mem _ hother)]
    exact Function.update_of_ne (hne put List.mem_cons_self).symm _ _

theorem mem_of_putAll {slots : Nat → β} {puts : List (Nat × β)} {slot : Nat}
    (hput : ∃ put ∈ puts, put.1 = slot) : (slot, putAll slots puts slot) ∈ puts := by
  induction puts generalizing slots with
  | nil => obtain ⟨put, hmem, -⟩ := hput; cases hmem
  | cons put rest ih =>
    by_cases hrest : ∃ later ∈ rest, later.1 = slot
    · exact List.mem_cons_of_mem _ (ih hrest)
    · push Not at hrest
      obtain ⟨first, hmem, hslot⟩ := hput
      rcases List.mem_cons.mp hmem with rfl | hlater
      · rw [putAll, putAll_of_ne hrest, ← hslot, Function.update_self]
        exact List.mem_cons_self
      · exact absurd hslot (hrest first hlater)

theorem putAll_cases (slots : Nat → β) (puts : List (Nat × β)) (slot : Nat) :
    putAll slots puts slot = slots slot ∨ (slot, putAll slots puts slot) ∈ puts := by
  by_cases hput : ∃ put ∈ puts, put.1 = slot
  · exact Or.inr (mem_of_putAll hput)
  · push Not at hput
    exact Or.inl (putAll_of_ne hput)

theorem putAll_of_forall {slots : Nat → β} {puts : List (Nat × β)} {slot : Nat} {value : β}
    (hput : (slot, value) ∈ puts) (hall : ∀ put ∈ puts, put.1 = slot → put.2 = value) :
    putAll slots puts slot = value :=
  hall _ (mem_of_putAll ⟨_, hput, rfl⟩) rfl

section Once

variable {γ : Type*} [BEq γ] [LawfulBEq γ] {n : Nat} {f : Nat → Option γ} {c : γ}

omit [BEq γ] [LawfulBEq γ] in
theorem mem_filterMap_range : c ∈ (List.range n).filterMap f ↔ ∃ k < n, f k = some c := by
  simp only [List.mem_filterMap, List.mem_range]

theorem one_lt_count_of_slots (f : Nat → Option γ) {j k : Nat} (hj : j < n) (hk : k < n)
    (hne : j ≠ k)
    (hfj : f j = some c) (hfk : f k = some c) : 1 < ((List.range n).filterMap f).count c := by
  rw [List.count_filterMap, List.countP_eq_length_filter]
  have hsub : ([j, k] : List Nat) ⊆ (List.range n).filter fun a => f a == some c := by
    intro slot hslot
    rcases List.mem_pair.mp hslot with rfl | rfl
    · exact List.mem_filter.mpr ⟨List.mem_range.mpr hj, by rw [hfj, beq_self_eq_true]⟩
    · exact List.mem_filter.mpr ⟨List.mem_range.mpr hk, by rw [hfk, beq_self_eq_true]⟩
  have hnodup : ([j, k] : List Nat).Nodup := by simpa using hne
  exact (List.subperm_of_subset hnodup hsub).length_le

theorem count_eq_one_of_slot {k : Nat} (hk : k < n) (hfk : f k = some c)
    (honly : ∀ j < n, f j = some c → j = k) : ((List.range n).filterMap f).count c = 1 := by
  rw [List.count_filterMap, List.countP_eq_length_filter]
  have hfilter : (List.range n).filter (fun a => f a == some c) = [k] := by
    refine List.perm_singleton.mp ((List.perm_ext_iff_of_nodup
      (List.nodup_range.filter _) (List.nodup_singleton k)).mpr fun slot => ?_)
    rw [List.mem_filter, List.mem_range, List.mem_singleton, beq_iff_eq]
    constructor
    · rintro ⟨hslot, hsome⟩
      exact honly slot hslot hsome
    · rintro rfl
      exact ⟨hk, hfk⟩
  rw [hfilter, List.length_singleton]

end Once

section Groups

variable {α κ : Type*} [DecidableEq κ]

def grouped (keyOf : α × Nat → Option κ) (items : List α) (key : κ) : List (α × Nat) :=
  items.zipIdx.filter fun item => keyOf item = some key

def batch (keyOf : α × Nat → Option κ) (items : List α) (key : κ) : List α :=
  (grouped keyOf items key).map Prod.fst

def groupPuts (keyOf : α × Nat → Option κ) (items : List α) (answers : κ → List α → List β)
    (keys : List κ) : List (Nat × β) :=
  keys.flatMap fun key =>
    ((grouped keyOf items key).zip (answers key (batch keyOf items key))).map fun answered =>
      (answered.1.2, answered.2)

variable {keyOf : α × Nat → Option κ} {items : List α} {answers : κ → List α → List β}
  {keys : List κ} {key : κ} {a : α} {i : Nat}

theorem mem_grouped : (a, i) ∈ grouped keyOf items key ↔
    items[i]? = some a ∧ keyOf (a, i) = some key := by
  rw [grouped, List.mem_filter, List.mk_mem_zipIdx_iff_getElem?, decide_eq_true_iff]

theorem grouped_place_unique {k k' : Nat} {a' : α}
    (hk : (grouped keyOf items key)[k]? = some (a, i))
    (hk' : (grouped keyOf items key)[k']? = some (a', i)) : k = k' := by
  have hnodup : ((grouped keyOf items key).map Prod.snd).Nodup := by
    refine List.Nodup.sublist (List.filter_sublist.map Prod.snd) ?_
    rw [List.zipIdx_map_snd]
    exact List.nodup_range'
  have hlength := (List.getElem?_eq_some_iff.mp hk).1
  refine (List.getElem?_inj (by simpa using hlength) hnodup).mp ?_
  rw [List.getElem?_map, List.getElem?_map, hk, hk']
  rfl

theorem mem_groupPuts {b : β} (hput : (i, b) ∈ groupPuts keyOf items answers keys) :
    ∃ key ∈ keys, ∃ (a : α) (k : Nat), (grouped keyOf items key)[k]? = some (a, i) ∧
      (answers key (batch keyOf items key))[k]? = some b := by
  obtain ⟨key, hkey, hput⟩ := List.mem_flatMap.mp hput
  obtain ⟨⟨⟨a, j⟩, b'⟩, hzip, heq⟩ := List.mem_map.mp hput
  obtain ⟨rfl, rfl⟩ := Prod.mk.inj heq
  obtain ⟨k, hk⟩ := List.mem_iff_getElem?.mp hzip
  rw [List.getElem?_zip_eq_some] at hk
  exact ⟨key, hkey, a, k, hk⟩

/-- An item is answered at its slot, by what its group answers at its place. -/
theorem groupPuts_spec (hanswers : ∀ key l, (answers key l).length = l.length)
    (ha : items[i]? = some a) (hkey : keyOf (a, i) = some key) (hmem : key ∈ keys) :
    ∃ (k : Nat) (b : β), (grouped keyOf items key)[k]? = some (a, i) ∧
      (answers key (batch keyOf items key))[k]? = some b ∧
      (i, b) ∈ groupPuts keyOf items answers keys ∧
      ∀ put ∈ groupPuts keyOf items answers keys, put.1 = i → put.2 = b := by
  obtain ⟨k, hk⟩ := List.mem_iff_getElem?.mp (mem_grouped.mpr ⟨ha, hkey⟩)
  have hlt : k < (answers key (batch keyOf items key)).length := by
    rw [hanswers, batch, List.length_map]
    exact (List.getElem?_eq_some_iff.mp hk).1
  obtain ⟨b, hb⟩ : ∃ b, (answers key (batch keyOf items key))[k]? = some b :=
    ⟨_, List.getElem?_eq_getElem hlt⟩
  refine ⟨k, b, hk, hb, ?_, ?_⟩
  · refine List.mem_flatMap.mpr ⟨key, hmem, List.mem_map.mpr ⟨((a, i), b), ?_, rfl⟩⟩
    exact List.mem_iff_getElem?.mpr ⟨k, List.getElem?_zip_eq_some.mpr ⟨hk, hb⟩⟩
  · rintro ⟨j, b'⟩ hput rfl
    obtain ⟨key', -, a', k', hk', hb'⟩ := mem_groupPuts hput
    obtain ⟨ha', hkey'⟩ := mem_grouped.mp (List.mem_of_getElem? hk')
    obtain rfl := Option.some.inj (ha.symm.trans ha')
    obtain rfl := Option.some.inj (hkey.symm.trans hkey')
    obtain rfl := grouped_place_unique hk hk'
    exact Option.some.inj (hb'.symm.trans hb)

theorem groupPuts_ne (ha : items[i]? = some a) (hkey : keyOf (a, i) = none) :
    ∀ put ∈ groupPuts keyOf items answers keys, put.1 ≠ i := by
  rintro ⟨j, b⟩ hput rfl
  obtain ⟨key, -, a', k, hk, -⟩ := mem_groupPuts hput
  obtain ⟨ha', hkey'⟩ := mem_grouped.mp (List.mem_of_getElem? hk)
  obtain rfl := Option.some.inj (ha.symm.trans ha')
  rw [hkey] at hkey'
  cases hkey'

end Groups

end Fs3.Foundation
