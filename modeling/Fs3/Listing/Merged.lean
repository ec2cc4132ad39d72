import Fs3.Listing.Deduplicated

/-! # Merging two listings

Sorted lists of entries from two places are merged into one, up to a limit. -/

namespace Fs3.Listing

open Foundation

variable {μ : Type} [DecidableEq μ]

def mergeTurn (x : MetaCacheEntry μ) (a : List (MetaCacheEntry μ)) (y : MetaCacheEntry μ)
    (b : List (MetaCacheEntry μ)) :
    MetaCacheEntry μ × List (MetaCacheEntry μ) × List (MetaCacheEntry μ) :=
  if x.name = y.name ∧ x.metadata = y.metadata then (x, a, b)
  else if x.name < y.name then (x, a, y :: b)
  else (y, x :: a, b)

theorem mergeTurn_length (x : MetaCacheEntry μ) (a : List (MetaCacheEntry μ))
    (y : MetaCacheEntry μ) (b : List (MetaCacheEntry μ)) :
    (mergeTurn x a y b).2.1.length + (mergeTurn x a y b).2.2.length <
      (x :: a).length + (y :: b).length := by
  unfold mergeTurn
  simp only [List.length_cons]
  split
  next => dsimp only; omega
  next =>
    split
    next => simp only [List.length_cons]; omega
    next => simp only [List.length_cons]; omega

/-- The loop of `merge`, with what it leaves of the lists. -/
def mergeLoop (limit : Int) (merged : List (MetaCacheEntry μ)) :
    List (MetaCacheEntry μ) → List (MetaCacheEntry μ) →
      List (MetaCacheEntry μ) × List (MetaCacheEntry μ) × List (MetaCacheEntry μ)
  | x :: a, y :: b =>
    let next := mergeTurn x a y b
    if 0 < limit ∧ limit ≤ (merged ++ [next.1]).length then (merged ++ [next.1], next.2)
    else mergeLoop limit (merged ++ [next.1]) next.2.1 next.2.2
  | a, b => (merged, a, b)
termination_by a b => a.length + b.length
decreasing_by exact mergeTurn_length x a y b

/-- `merge`: the entries of `m`, which are `a`, when those of another list are merged into it. -/
def merge (a b : List (MetaCacheEntry μ)) (limit : Int) : List (MetaCacheEntry μ) :=
  match mergeLoop limit [] a b with
  | (merged, a, b) =>
    -- Append anything left.
    if limit < 0 ∨ merged.length < limit then merged ++ a ++ b else merged

def unionUpTo (a b : List (MetaCacheEntry μ)) (limit : Int) : List (MetaCacheEntry μ) :=
  if 0 < limit then (union MetaCacheEntry.name a b).take limit.toNat
  else union MetaCacheEntry.name a b

theorem length_unionUpTo (a b : List (MetaCacheEntry μ)) (limit : Int) :
    (unionUpTo a b limit).length =
      if 0 < limit then min limit.toNat (union MetaCacheEntry.name a b).length
      else (union MetaCacheEntry.name a b).length := by
  unfold unionUpTo
  split
  next => rw [List.length_take]
  next => rfl

/-! ## The loop without a limit -/

/-- What the loop appends while neither list is over, and what is left then. -/
def weave : List (MetaCacheEntry μ) → List (MetaCacheEntry μ) →
    List (MetaCacheEntry μ) × List (MetaCacheEntry μ)
  | x :: a, y :: b =>
    let next := mergeTurn x a y b
    let woven := weave next.2.1 next.2.2
    (next.1 :: woven.1, woven.2)
  | a, b => ([], a ++ b)
termination_by a b => a.length + b.length
decreasing_by exact mergeTurn_length x a y b

def woven (a b : List (MetaCacheEntry μ)) : List (MetaCacheEntry μ) :=
  (weave a b).1 ++ (weave a b).2

variable {a b a' b' merged : List (MetaCacheEntry μ)} {x y z : MetaCacheEntry μ} {n : Nat}

theorem weave_nil_left : weave [] b = ([], b) := by
  unfold weave
  rfl

theorem weave_nil_right : weave a [] = ([], a) := by
  cases a with
  | nil => exact weave_nil_left
  | cons x a =>
    unfold weave
    rw [List.append_nil]

theorem weave_over (hover : a = [] ∨ b = []) : weave a b = ([], a ++ b) := by
  rcases hover with rfl | rfl
  · rw [weave_nil_left, List.nil_append]
  · rw [weave_nil_right, List.append_nil]

theorem weave_cons (hturn : mergeTurn x a y b = (z, a', b')) :
    weave (x :: a) (y :: b) = (z :: (weave a' b').1, (weave a' b').2) := by
  rw [weave, hturn]

theorem mergeLoop_over (limit : Int) (hover : a = [] ∨ b = []) :
    mergeLoop limit merged a b = (merged, a, b) := by
  unfold mergeLoop
  split
  next => rcases hover with hnil | hnil <;> cases hnil
  next => rfl

theorem mergeLoop_cons (limit : Int) (hturn : mergeTurn x a y b = (z, a', b')) :
    mergeLoop limit merged (x :: a) (y :: b) =
      if 0 < limit ∧ limit ≤ ↑(merged.length + 1) then (merged ++ [z], a', b')
      else mergeLoop limit (merged ++ [z]) a' b' := by
  rw [mergeLoop, hturn, List.length_append, List.length_singleton]

theorem merge_induction {motive : List (MetaCacheEntry μ) → List (MetaCacheEntry μ) → Prop}
    (ended : ∀ a b, a = [] ∨ b = [] → motive a b)
    (turn : ∀ x a y b z a' b', mergeTurn x a y b = (z, a', b') → motive a' b' →
      motive (x :: a) (y :: b)) (a b : List (MetaCacheEntry μ)) : motive a b := by
  induction hlength : a.length + b.length using Nat.strongRecOn generalizing a b with
  | _ length ih =>
    subst hlength
    cases a with
    | nil => exact ended [] b (Or.inl rfl)
    | cons x a =>
      cases b with
      | nil => exact ended (x :: a) [] (Or.inr rfl)
      | cons y b =>
        have hless := mergeTurn_length x a y b
        exact turn x a y b _ _ _ rfl (ih _ hless _ _ rfl)

theorem mergeTurn_takes
    (htakes : Takes MetaCacheEntry.name (x :: a) (y :: b) z a' b') :
    mergeTurn x a y b = (z, a', b') := by
  unfold mergeTurn
  cases htakes with
  | both => rw [if_pos ⟨rfl, rfl⟩]
  | left _ _ hlt =>
    rw [if_neg fun hsame => hlt.ne hsame.1, if_pos hlt]
  | right _ _ hlt =>
    rw [if_neg fun hsame => hlt.ne' hsame.1, if_neg hlt.not_gt]

omit [DecidableEq μ] in
theorem entry_eq (hname : x.name = y.name) (hmetadata : x.metadata = y.metadata) : x = y := by
  cases x
  cases y
  simp only at hname hmetadata
  subst hname hmetadata
  rfl

theorem mergeTurn_tie (hname : x.name = y.name) (hne : x ≠ y) :
    mergeTurn x a y b = (y, x :: a, b) := by
  unfold mergeTurn
  rw [if_neg, if_neg]
  · rw [hname]
    exact lt_irrefl _
  · rintro ⟨-, hmetadata⟩
    exact hne (entry_eq hname hmetadata)

theorem woven_takes (htakes : Takes MetaCacheEntry.name (x :: a) (y :: b) z a' b') :
    woven (x :: a) (y :: b) = z :: woven a' b' := by
  rw [woven, weave_cons (mergeTurn_takes htakes)]
  rfl

theorem woven_tie (hname : x.name = y.name) (hne : x ≠ y) :
    woven (x :: a) (y :: b) = y :: woven (x :: a) b := by
  rw [woven, weave_cons (mergeTurn_tie hname hne)]
  rfl

theorem woven_over (hover : a = [] ∨ b = []) : woven a b = a ++ b := by
  rw [woven, weave_over hover, List.nil_append]

/-! ## The loop with a limit -/

theorem mergeLoop_of_lt (limit : Int)
    (hroom : 0 < limit → ↑(merged.length + (weave a b).1.length) < limit) :
    (mergeLoop limit merged a b).1 = merged ++ (weave a b).1 ∧
      (mergeLoop limit merged a b).2.1 ++ (mergeLoop limit merged a b).2.2 = (weave a b).2 := by
  induction a, b using merge_induction generalizing merged with
  | ended a b hover =>
    rw [mergeLoop_over limit hover, weave_over hover, List.append_nil]
    exact ⟨rfl, rfl⟩
  | turn x a y b z a' b' hturn ih =>
    rw [weave_cons hturn, List.length_cons] at hroom
    have hroom' : 0 < limit → ↑((merged ++ [z]).length + (weave a' b').1.length) < limit := by
      intro hpos
      have := hroom hpos
      rw [List.length_append, List.length_singleton]
      omega
    rw [mergeLoop_cons limit hturn, if_neg (by omega), weave_cons hturn]
    dsimp only
    rw [List.append_cons merged z (weave a' b').1]
    exact ih hroom'

theorem mergeLoop_of_le {limit : Int} (hlt : merged.length < limit)
    (hle : limit ≤ ↑(merged.length + (weave a b).1.length)) :
    (mergeLoop limit merged a b).1 = (merged ++ (weave a b).1).take limit.toNat := by
  induction a, b using merge_induction generalizing merged with
  | ended a b hover =>
    rw [weave_over hover, List.length_nil] at hle
    omega
  | turn x a y b z a' b' hturn ih =>
    have hlength : (merged ++ [z]).length = merged.length + 1 := by
      rw [List.length_append, List.length_singleton]
    rw [weave_cons hturn, List.length_cons] at hle
    rw [mergeLoop_cons limit hturn, weave_cons hturn]
    dsimp only
    rw [List.append_cons merged z (weave a' b').1]
    split
    next hfull =>
      have hlimit : limit.toNat = (merged ++ [z]).length := by omega
      rw [hlimit, List.take_left]
    next hfull => exact ih (by omega) (by omega)

theorem merge_of_neg {limit : Int} (hneg : limit < 0) : merge a b limit = woven a b := by
  obtain ⟨hmerged, hrest⟩ := @mergeLoop_of_lt _ _ a b [] limit (by omega)
  rw [merge, woven, ← hrest]
  simp only [hneg, true_or, if_true, hmerged, List.nil_append, List.append_assoc]

theorem merge_zero : merge a b 0 = (weave a b).1 := by
  obtain ⟨hmerged, -⟩ := @mergeLoop_of_lt _ _ a b [] 0 (by omega)
  rw [merge]
  simp only [lt_irrefl, hmerged, List.nil_append, false_or]
  rw [if_neg (by omega)]

theorem merge_of_lt {limit : Int} (hlt : (weave a b).1.length < limit) :
    merge a b limit = woven a b := by
  obtain ⟨hmerged, hrest⟩ := @mergeLoop_of_lt _ _ a b [] limit (by
    rw [List.length_nil, Nat.zero_add]
    exact fun _ => hlt)
  rw [merge, woven, ← hrest]
  simp only [hmerged, List.nil_append, List.append_assoc]
  rw [if_pos (Or.inr hlt)]

theorem merge_of_le {limit : Int} (hpos : 0 < limit) (hle : limit ≤ (weave a b).1.length) :
    merge a b limit = (weave a b).1.take limit.toNat := by
  have hmerged := @mergeLoop_of_le _ _ a b [] limit
    (by rw [List.length_nil]; omega) (by rw [List.length_nil]; omega)
  rw [List.nil_append] at hmerged
  rw [merge]
  dsimp only
  rw [hmerged, List.length_take, if_neg]
  omega

theorem sublist_woven : a.Sublist (woven a b) ∧ b.Sublist (woven a b) := by
  induction a, b using merge_induction with
  | ended a b hover =>
    rw [woven_over hover]
    exact ⟨List.sublist_append_left a b, List.sublist_append_right a b⟩
  | turn x a y b z a' b' hturn ih =>
    have hwoven : woven (x :: a) (y :: b) = z :: woven a' b' := by
      rw [woven, weave_cons hturn]
      rfl
    rw [hwoven]
    unfold mergeTurn at hturn
    split at hturn
    next hsame =>
      cases hturn
      rw [← entry_eq hsame.1 hsame.2]
      exact ⟨ih.1.cons_cons x, ih.2.cons_cons x⟩
    next =>
      split at hturn
      next =>
        cases hturn
        exact ⟨ih.1.cons_cons x, ih.2.cons x⟩
      next =>
        cases hturn
        exact ⟨ih.1.cons y, ih.2.cons_cons y⟩

/-! ## Against the union -/

section Union

variable (ha : SortedBy MetaCacheEntry.name a) (hb : SortedBy MetaCacheEntry.name b)

include ha hb

theorem take_woven_iff :
    (woven a b).take n = (union MetaCacheEntry.name a b).take n ↔
      Undisputed MetaCacheEntry.name n a b := by
  induction a, b using merge_induction generalizing n with
  | ended a b hover =>
    rw [woven_over hover]
    rcases hover with rfl | rfl
    · rw [union_nil_left, List.nil_append]
      exact iff_of_true rfl fun place _ => not_disputedAt_nil_left
    · rw [union_nil_right, List.append_nil]
      exact iff_of_true rfl fun place _ => not_disputedAt_nil_right
  | turn x a y b z a' b' hturn ih =>
    rcases takes_or_tie MetaCacheEntry.name x y a b with ⟨e, l, r, htakes⟩ | ⟨hname, hne⟩
    · rw [mergeTurn_takes htakes] at hturn
      cases hturn
      cases n with
      | zero => exact iff_of_true rfl undisputed_zero
      | succ n =>
        rw [woven_takes htakes, htakes.union_eq ha hb, List.take_succ_cons,
          List.take_succ_cons, List.cons_inj_right, htakes.undisputed_succ ha hb]
        exact ih (htakes.sorted_left ha) (htakes.sorted_right hb)
    · rw [undisputed_tie hname hne, woven_tie hname hne]
      obtain ⟨rest, hrest⟩ := @union_cons_tie _ _ _ _ a b x y _ hname hb
      rw [hrest]
      cases n with
      | zero => exact iff_of_true rfl rfl
      | succ n =>
        rw [List.take_succ_cons, List.take_succ_cons]
        refine iff_of_false (fun heq => ?_) (Nat.succ_ne_zero n)
        exact hne (List.cons.inj heq).1.symm

theorem le_length_weave_iff (hundisputed : Undisputed MetaCacheEntry.name n a b) :
    n ≤ (weave a b).1.length ↔ BothLast MetaCacheEntry.name n a b := by
  induction a, b using merge_induction generalizing n with
  | ended a b hover =>
    rw [weave_over hover, List.length_nil, Nat.le_zero]
    rcases hover with rfl | rfl
    · exact bothLast_nil_left.symm
    · exact bothLast_nil_right.symm
  | turn x a y b z a' b' hturn ih =>
    cases n with
    | zero => exact iff_of_true (Nat.zero_le _) bothLast_zero
    | succ n =>
      rcases takes_or_tie MetaCacheEntry.name x y a b with ⟨e, l, r, htakes⟩ | ⟨hname, hne⟩
      · rw [weave_cons hturn, List.length_cons, Nat.succ_le_succ_iff]
        rw [mergeTurn_takes htakes] at hturn
        cases hturn
        rw [htakes.bothLast_succ ha hb]
        exact ih (htakes.sorted_left ha) (htakes.sorted_right hb)
          ((htakes.undisputed_succ ha hb).mp hundisputed)
      · rw [undisputed_tie hname hne] at hundisputed
        cases hundisputed

theorem woven_eq_union
    (hundisputed : Undisputed MetaCacheEntry.name (union MetaCacheEntry.name a b).length a b) :
    woven a b = union MetaCacheEntry.name a b := by
  induction a, b using merge_induction with
  | ended a b hover =>
    rw [woven_over hover]
    rcases hover with rfl | rfl
    · rw [union_nil_left, List.nil_append]
    · rw [union_nil_right, List.append_nil]
  | turn x a y b z a' b' hturn ih =>
    rcases takes_or_tie MetaCacheEntry.name x y a b with ⟨e, l, r, htakes⟩ | ⟨hname, hne⟩
    · rw [mergeTurn_takes htakes] at hturn
      cases hturn
      rw [htakes.union_eq ha hb, List.length_cons, htakes.undisputed_succ ha hb] at hundisputed
      rw [woven_takes htakes, htakes.union_eq ha hb,
        ih (htakes.sorted_left ha) (htakes.sorted_right hb) hundisputed]
    · obtain ⟨rest, hrest⟩ := @union_cons_tie _ _ _ _ a b x y _ hname hb
      rw [undisputed_tie hname hne, hrest] at hundisputed
      cases hundisputed

theorem woven_eq_union_iff :
    woven a b = union MetaCacheEntry.name a b ↔
      Undisputed MetaCacheEntry.name (union MetaCacheEntry.name a b).length a b := by
  refine ⟨fun heq => ?_, woven_eq_union ha hb⟩
  rw [← take_woven_iff ha hb, heq]

theorem weave_eq_union_iff :
    (weave a b).1 = union MetaCacheEntry.name a b ↔
      Undisputed MetaCacheEntry.name (union MetaCacheEntry.name a b).length a b ∧
        BothLast MetaCacheEntry.name (union MetaCacheEntry.name a b).length a b := by
  constructor
  · intro heq
    have hundisputed :
        Undisputed MetaCacheEntry.name (union MetaCacheEntry.name a b).length a b := by
      rw [← take_woven_iff ha hb, woven, heq, List.take_left, List.take_length]
    exact ⟨hundisputed, (le_length_weave_iff ha hb hundisputed).mp (heq ▸ Nat.le_refl _)⟩
  · rintro ⟨hundisputed, hlast⟩
    have hwoven := woven_eq_union ha hb hundisputed
    have hlength := (le_length_weave_iff ha hb hundisputed).mpr hlast
    have hrest : (weave a b).2 = [] := by
      rw [← hwoven, woven, List.length_append] at hlength
      exact List.eq_nil_of_length_eq_zero (by omega)
    rw [woven, hrest, List.append_nil] at hwoven
    exact hwoven

theorem take_weave_iff (hle : n ≤ (weave a b).1.length) :
    (weave a b).1.take n = (union MetaCacheEntry.name a b).take n ↔
      n ≤ (union MetaCacheEntry.name a b).length ∧ Undisputed MetaCacheEntry.name n a b := by
  have hwoven : (weave a b).1.take n = (woven a b).take n := by
    rw [woven, List.take_append_of_le_length hle]
  rw [hwoven, take_woven_iff ha hb]
  refine ⟨fun hundisputed => ⟨?_, hundisputed⟩, fun hboth => hboth.2⟩
  have htake := congrArg List.length ((take_woven_iff ha hb).mpr hundisputed)
  rw [← hwoven, List.length_take, List.length_take] at htake
  omega

theorem woven_eq_take_iff :
    woven a b = (union MetaCacheEntry.name a b).take n ↔
      (union MetaCacheEntry.name a b).length ≤ n ∧
        Undisputed MetaCacheEntry.name (union MetaCacheEntry.name a b).length a b := by
  constructor
  · intro heq
    have hlength : (union MetaCacheEntry.name a b).length ≤ n := by
      have hall : (union MetaCacheEntry.name a b).length ≤ (woven a b).length :=
        length_union_le sublist_woven.1 sublist_woven.2
      rw [heq, List.length_take] at hall
      omega
    rw [List.take_of_length_le hlength] at heq
    exact ⟨hlength, (woven_eq_union_iff ha hb).mp heq⟩
  · rintro ⟨hlength, hundisputed⟩
    rw [List.take_of_length_le hlength, woven_eq_union ha hb hundisputed]

end Union

/-- The merge is the union up to the limit just where the lists do not differ that far in the
entries of a name, and with a limit that is not negative either it leaves room for the whole
union or neither list is over before it. -/
theorem merge_eq_unionUpTo_iff (a b : List (MetaCacheEntry μ)) (limit : Int)
    (ha : SortedBy MetaCacheEntry.name a) (hb : SortedBy MetaCacheEntry.name b) :
    merge a b limit = unionUpTo a b limit ↔
      Undisputed MetaCacheEntry.name (unionUpTo a b limit).length a b ∧
        (limit < 0 ∨
          0 < limit ∧ ((union MetaCacheEntry.name a b).length : Int) ≤ limit ∨
          BothLast MetaCacheEntry.name (unionUpTo a b limit).length a b) := by
  rw [length_unionUpTo, unionUpTo]
  rcases lt_trichotomy limit 0 with hneg | rfl | hpos
  · rw [if_neg hneg.not_gt, if_neg hneg.not_gt, merge_of_neg hneg, woven_eq_union_iff ha hb]
    exact (and_iff_left (Or.inl hneg)).symm
  · rw [if_neg (lt_irrefl 0), if_neg (lt_irrefl 0), merge_zero, weave_eq_union_iff ha hb]
    simp only [lt_irrefl, false_and, false_or]
  · rw [if_pos hpos, if_pos hpos]
    by_cases hle : limit ≤ (weave a b).1.length
    · -- The loop stops at the limit.
      rw [merge_of_le hpos hle, take_weave_iff ha hb (by omega)]
      constructor
      · rintro ⟨hlength, hundisputed⟩
        rw [min_eq_left hlength]
        exact ⟨hundisputed, Or.inr (Or.inr
          ((le_length_weave_iff ha hb hundisputed).mp (by omega)))⟩
      · rintro ⟨hundisputed, -⟩
        have hlength : limit.toNat ≤ (union MetaCacheEntry.name a b).length := by
          by_contra hshort
          rw [min_eq_right (by omega)] at hundisputed
          have hwoven := congrArg List.length (woven_eq_union ha hb hundisputed)
          rw [woven, List.length_append] at hwoven
          omega
        rw [min_eq_left hlength] at hundisputed
        exact ⟨hlength, hundisputed⟩
    · -- One list is over before it, and the other is appended whole.
      rw [merge_of_lt (by omega), woven_eq_take_iff ha hb]
      constructor
      · rintro ⟨hlength, hundisputed⟩
        rw [min_eq_right hlength]
        exact ⟨hundisputed, Or.inr (Or.inl ⟨hpos, by omega⟩)⟩
      · rintro ⟨hundisputed, hroom⟩
        have hlength : (union MetaCacheEntry.name a b).length ≤ limit.toNat := by
          rcases hroom with hneg | ⟨-, hlength⟩ | hlast
          · omega
          · omega
          · have := (le_length_weave_iff ha hb hundisputed).mpr hlast
            omega
        rw [min_eq_right hlength] at hundisputed
        exact ⟨hlength, hundisputed⟩

/-- A list with an object merged with itself has the object once, within any limit from one. -/
theorem entryX_merge_iff :
    merge [entryX 1] [entryX 1] 1 = unionUpTo [entryX 1] [entryX 1] 1 ↔
      Undisputed MetaCacheEntry.name (unionUpTo [entryX 1] [entryX 1] 1).length
          [entryX 1] [entryX 1] ∧
        ((1 : Int) < 0 ∨
          0 < (1 : Int) ∧
            ((union MetaCacheEntry.name [entryX 1] [entryX 1]).length : Int) ≤ 1 ∨
          BothLast MetaCacheEntry.name (unionUpTo [entryX 1] [entryX 1] 1).length
            [entryX 1] [entryX 1]) :=
  merge_eq_unionUpTo_iff [entryX 1] [entryX 1] 1 (List.pairwise_singleton _ _)
    (List.pairwise_singleton _ _)

/-- Of two versions of an object the one of the other list comes first. -/
theorem entryX_merged_behind :
    merge [entryX 1] [entryX 2] (-1) ≠ unionUpTo [entryX 1] [entryX 2] (-1) := by
  have hne : entryX 1 ≠ entryX 2 := by decide
  have hname : (entryX 1).name = (entryX 2).name := rfl
  have hmerge : merge [entryX 1] [entryX 2] (-1) = [entryX 2, entryX 1] := by
    rw [merge_of_neg (by decide), woven_tie hname hne, woven_over (Or.inr rfl)]
    rfl
  obtain ⟨rest, hrest⟩ := @union_cons_tie _ _ _ MetaCacheEntry.name [] [] (entryX 1) (entryX 2)
    _ hname (List.pairwise_singleton _ _)
  rw [hmerge, unionUpTo, if_neg (by decide), hrest]
  exact fun heq => hne (List.cons.inj heq).1.symm

end Fs3.Listing
