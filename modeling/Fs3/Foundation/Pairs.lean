import Mathlib.Data.List.Nodup

/-! # Lists of pairs as finite maps

A list of keys with values stands for the map that gives each key the value of its first pair. -/

namespace Fs3.Foundation

namespace Pairs

variable {κ ν : Type*} [DecidableEq κ] (l : List (κ × ν))

def value (key : κ) : Option ν := (l.find? fun entry => entry.1 == key).map Prod.snd

def keys : List κ := l.map Prod.fst

def put (key : κ) (val : ν) : List (κ × ν) :=
  if key ∈ keys l then l.map fun entry => if entry.1 = key then (entry.1, val) else entry
  else l ++ [(key, val)]

def rename (oldKey newKey : κ) : List (κ × ν) :=
  l.map fun entry => if entry.1 = oldKey then (newKey, entry.2) else entry

def drop (dropped : List κ) : List (κ × ν) := l.filter fun entry => entry.1 ∉ dropped

variable {l} {entry : κ × ν}

@[simp]
theorem value_nil (key : κ) : value ([] : List (κ × ν)) key = none := rfl

theorem value_cons (key : κ) :
    value (entry :: l) key = if entry.1 = key then some entry.2 else value l key := by
  unfold value
  by_cases hkey : entry.1 = key
  · rw [List.find?_cons_of_pos (by simpa using hkey), if_pos hkey]
    rfl
  · rw [List.find?_cons_of_neg (by simpa using hkey), if_neg hkey]

theorem value_isSome {key : κ} : (value l key).isSome = true ↔ key ∈ keys l := by
  induction l with
  | nil => simp [keys]
  | cons entry l ih =>
    unfold keys at ih ⊢
    rw [value_cons, List.map_cons, List.mem_cons]
    split
    next hkey => simp [hkey]
    next hkey => rw [ih, or_iff_right (Ne.symm hkey)]

theorem value_eq_none {key : κ} : value l key = none ↔ key ∉ keys l := by
  rw [← value_isSome, Option.not_isSome_iff_eq_none]

theorem value_append {l' : List (κ × ν)} (key : κ) :
    value (l ++ l') key = (value l key).or (value l' key) := by
  unfold value
  rw [List.find?_append]
  cases l.find? fun entry => entry.1 == key <;> rfl

omit [DecidableEq κ] in
theorem keys_append {l' : List (κ × ν)} : keys (l ++ l') = keys l ++ keys l' := List.map_append

theorem keys_overwrite (key : κ) (val : ν) :
    keys (l.map fun entry => if entry.1 = key then (entry.1, val) else entry) = keys l := by
  unfold keys
  rw [List.map_map]
  apply List.map_congr_left
  intro entry _
  dsimp only [Function.comp]
  split <;> rfl

theorem value_overwrite (key : κ) (val : ν) (other : κ) :
    value (l.map fun entry => if entry.1 = key then (entry.1, val) else entry) other =
      if other = key then (value l key).map fun _ => val else value l other := by
  induction l with
  | nil => simp
  | cons entry l ih =>
    rw [List.map_cons, value_cons, ih, value_cons, value_cons]
    by_cases hentry : entry.1 = key
    · rw [if_pos hentry, if_pos hentry]
      by_cases hother : other = key
      · rw [if_pos (hentry.trans hother.symm), if_pos hother]
        rfl
      · have hne : ¬ entry.1 = other := fun h => hother (h.symm.trans hentry)
        rw [if_neg hne, if_neg hother, if_neg hother, if_neg hne]
    · rw [if_neg hentry, if_neg hentry]
      by_cases hother : other = key
      · have hne : ¬ entry.1 = other := fun h => hentry (h.trans hother)
        rw [if_neg hne, if_pos hother, if_pos hother]
      · rw [if_neg hother, if_neg hother]

theorem value_put (key : κ) (val : ν) (other : κ) :
    value (put l key val) other = if other = key then some val else value l other := by
  unfold put
  split
  next hmem =>
    rw [value_overwrite]
    obtain ⟨old, hold⟩ := Option.isSome_iff_exists.mp (value_isSome.mpr hmem)
    rw [hold]
    rfl
  next hnot =>
    rw [value_append, value_cons]
    by_cases hother : other = key
    · rw [if_pos hother, if_pos hother.symm, hother, value_eq_none.mpr hnot]
      rfl
    · rw [if_neg hother, if_neg (Ne.symm hother), value_nil, Option.or_none]

theorem keys_put (key : κ) (val : ν) :
    keys (put l key val) = if key ∈ keys l then keys l else keys l ++ [key] := by
  unfold put
  split
  · exact keys_overwrite key val
  · exact keys_append

theorem nodup_keys_put {key : κ} {val : ν} : (keys (put l key val)).Nodup ↔ (keys l).Nodup := by
  rw [keys_put]
  split
  next => exact Iff.rfl
  next hnot =>
    rw [List.nodup_append]
    refine ⟨fun h => h.1, fun h => ⟨h, List.nodup_singleton key, ?_⟩⟩
    rintro other hother _ hkey rfl
    exact hnot (List.mem_singleton.mp hkey ▸ hother)

theorem keys_rename (oldKey newKey : κ) :
    keys (rename l oldKey newKey) =
      (keys l).map fun key => if key = oldKey then newKey else key := by
  unfold keys rename
  rw [List.map_map, List.map_map]
  apply List.map_congr_left
  intro entry _
  dsimp only [Function.comp]
  split <;> rfl

/-- Renaming moves a value to a key that is not in use. -/
theorem value_rename {oldKey newKey : κ} (hfree : newKey = oldKey ∨ newKey ∉ keys l)
    (other : κ) :
    value (rename l oldKey newKey) other =
      if other = newKey then value l oldKey else if other = oldKey then none
      else value l other := by
  induction l with
  | nil => simp [rename]
  | cons entry l ih =>
    have hfree' : newKey = oldKey ∨ newKey ∉ keys l :=
      hfree.imp_right fun hnot hmem => hnot (List.mem_cons_of_mem _ hmem)
    have hnew : ¬ newKey = oldKey → ¬ entry.1 = newKey := fun hne hentry =>
      (hfree.resolve_left hne) (hentry ▸ List.mem_cons_self)
    have hcons : rename (entry :: l) oldKey newKey =
        (if entry.1 = oldKey then (newKey, entry.2) else entry) :: rename l oldKey newKey := rfl
    rw [hcons, value_cons, ih hfree', value_cons, value_cons]
    by_cases hentry : entry.1 = oldKey
    · rw [if_pos hentry, if_pos hentry]
      by_cases hother : other = newKey
      · rw [if_pos hother.symm, if_pos hother]
      · rw [if_neg (Ne.symm hother), if_neg hother, if_neg hother]
        by_cases hold : other = oldKey
        · rw [if_pos hold, if_pos hold]
        · rw [if_neg hold, if_neg hold, if_neg fun h => hold (h.symm.trans hentry)]
    · rw [if_neg hentry, if_neg hentry]
      by_cases hother : other = newKey
      · rw [if_pos hother, if_pos hother]
        by_cases hsame : newKey = oldKey
        · rw [if_neg fun h => hentry (h.trans (hother.trans hsame))]
        · rw [if_neg fun h => hnew hsame (h.trans hother)]
      · rw [if_neg hother, if_neg hother]
        by_cases hold : other = oldKey
        · rw [if_pos hold, if_pos hold, if_neg fun h => hentry (h.trans hold)]
        · rw [if_neg hold, if_neg hold]

theorem nodup_keys_rename {oldKey newKey : κ} (hmem : oldKey ∈ keys l) :
    (keys (rename l oldKey newKey)).Nodup ↔
      (keys l).Nodup ∧ (newKey = oldKey ∨ newKey ∉ keys l) := by
  rw [keys_rename]
  generalize keys l = ks at hmem
  constructor
  · intro hnodup
    refine ⟨hnodup.of_map, ?_⟩
    by_contra hused
    rw [not_or, not_not] at hused
    have heq := List.inj_on_of_nodup_map hnodup hmem hused.2
    rw [if_pos rfl, if_neg hused.1] at heq
    exact hused.1 (heq rfl).symm
  · rintro ⟨hnodup, hfree⟩
    refine (List.nodup_map_iff_inj_on hnodup).mpr fun first hfirst second hsecond heq => ?_
    by_cases hold : first = oldKey
    · rw [if_pos hold] at heq
      by_cases hold' : second = oldKey
      · exact hold.trans hold'.symm
      · rw [if_neg hold'] at heq
        rcases hfree with hsame | hnot
        · exact absurd (heq.symm.trans hsame) hold'
        · exact absurd (heq ▸ hsecond) hnot
    · rw [if_neg hold] at heq
      by_cases hold' : second = oldKey
      · rw [if_pos hold'] at heq
        rcases hfree with hsame | hnot
        · exact absurd (heq.trans hsame) hold
        · exact absurd (heq ▸ hfirst) hnot
      · rwa [if_neg hold'] at heq

theorem mem_of_value {key : κ} {val : ν} (hvalue : value l key = some val) : (key, val) ∈ l := by
  unfold value at hvalue
  obtain ⟨entry, hfind, rfl⟩ := Option.map_eq_some_iff.mp hvalue
  have hkey : entry.1 = key := by simpa using List.find?_some hfind
  rw [← hkey]
  exact List.mem_of_find?_eq_some hfind

theorem mem_put {key : κ} {val : ν} :
    entry ∈ put l key val ↔ entry = (key, val) ∨ entry ∈ l ∧ entry.1 ≠ key := by
  unfold put
  split
  next hmem =>
    constructor
    · intro hentry
      obtain ⟨old, hold, rfl⟩ := List.mem_map.mp hentry
      by_cases hkey : old.1 = key
      · rw [if_pos hkey, hkey]
        exact Or.inl rfl
      · rw [if_neg hkey]
        exact Or.inr ⟨hold, hkey⟩
    · rintro (rfl | ⟨hentry, hkey⟩)
      · obtain ⟨old, hold, rfl⟩ := List.mem_map.mp hmem
        exact List.mem_map.mpr ⟨old, hold, if_pos rfl⟩
      · exact List.mem_map.mpr ⟨entry, hentry, if_neg hkey⟩
  next hmem =>
    rw [List.mem_append, List.mem_singleton]
    constructor
    · rintro (hentry | rfl)
      · exact Or.inr ⟨hentry, fun hkey => hmem (hkey ▸ List.mem_map_of_mem hentry)⟩
      · exact Or.inl rfl
    · rintro (rfl | ⟨hentry, -⟩)
      · exact Or.inr rfl
      · exact Or.inl hentry

theorem value_filter {p : κ × ν → Bool} {key : κ} {val : ν} (hvalue : value l key = some val)
    (hpass : p (key, val) = true) : value (l.filter p) key = some val := by
  induction l with
  | nil => exact absurd hvalue (by simp)
  | cons entry l ih =>
    rw [value_cons] at hvalue
    by_cases hkey : entry.1 = key
    · rw [if_pos hkey] at hvalue
      have hentry : entry = (key, val) := Prod.ext hkey (Option.some.inj hvalue)
      rw [hentry, List.filter_cons_of_pos hpass, value_cons, if_pos rfl]
    · rw [if_neg hkey] at hvalue
      rw [List.filter_cons]
      split
      next =>
        rw [value_cons, if_neg hkey]
        exact ih hvalue
      next => exact ih hvalue

theorem keys_drop (dropped : List κ) :
    keys (drop l dropped) = (keys l).filter fun key => key ∉ dropped := by
  unfold keys drop
  rw [List.filter_map]
  rfl

theorem drop_of_disjoint {dropped : List κ} (hnone : ∀ key ∈ keys l, key ∉ dropped) :
    drop l dropped = l :=
  List.filter_eq_self.mpr fun entry hentry =>
    decide_eq_true (hnone entry.1 (List.mem_map_of_mem hentry))

theorem value_drop (dropped : List κ) (other : κ) :
    value (drop l dropped) other = if other ∈ dropped then none else value l other := by
  induction l with
  | nil => simp [drop]
  | cons entry l ih =>
    unfold drop at ih ⊢
    by_cases hentry : entry.1 ∈ dropped
    · rw [List.filter_cons_of_neg (by simpa using hentry), ih, value_cons]
      split
      next => rfl
      next hother =>
        have hne : ¬ entry.1 = other := fun h => hother (h ▸ hentry)
        rw [if_neg hne]
    · rw [List.filter_cons_of_pos (by simpa using hentry), value_cons, ih, value_cons]
      by_cases hkey : entry.1 = other
      · rw [if_pos hkey, if_pos hkey, if_neg fun h => hentry (hkey ▸ h)]
      · rw [if_neg hkey, if_neg hkey]

end Pairs

end Fs3.Foundation
