import Mathlib.Data.List.Basic

/-! # Removing from a slice while ranging over it

A slice is the beginning of an array. -/

namespace Fs3.Foundation

variable {α κ : Type*}

/-- A slice of an array, and whether its owner has dropped it with its last element. -/
structure Slice (α : Type*) where
  array : List α
  len : Nat
  gone : Bool := false

namespace Slice

def elems (s : Slice α) : List α := s.array.take s.len

def kept (s : Slice α) : List α := if s.gone then [] else s.elems

/-- Remove the first element that has a property, or drop the slice with its only one. -/
def removeFirst (p : α → Bool) (s : Slice α) : Slice α :=
  match s.elems.findIdx? p with
  | none => s
  | some j =>
    if s.len = 1 then { s with gone := true }
    else
      { s with
        array := s.elems.take j ++ s.elems.drop (j + 1) ++ s.array.drop (s.len - 1)
        len := s.len - 1 }

section Sweep

variable [DecidableEq κ] (due : α → Bool) (key : α → κ)

def sameKey (x y : α) : Bool := decide (key y = key x)

def visit (s : Slice α) (i : Nat) : Slice α :=
  match s.array[i]? with
  | none => s
  | some x => if due x then s.removeFirst (sameKey key x) else s

def sweep (xs : List α) : Slice α :=
  (List.range xs.length).foldl (visit due key) { array := xs, len := xs.length }

end Sweep

section Removal

variable {s : Slice α} {p : α → Bool}

theorem removeFirst_of_forall (hnone : ∀ x ∈ s.elems, p x = false) : s.removeFirst p = s := by
  have hfind : s.elems.findIdx? p = none := List.findIdx?_eq_none_iff.mpr hnone
  rw [removeFirst, hfind]

theorem removeFirst_of_mem (hlen : s.len ≠ 1) {x : α} (hmem : x ∈ s.elems) (hx : p x = true) :
    s.removeFirst p =
      { s with array := s.elems.eraseP p ++ s.array.drop (s.len - 1), len := s.len - 1 } := by
  obtain ⟨j, hfind⟩ : ∃ j, s.elems.findIdx? p = some j :=
    ⟨_, List.findIdx?_eq_some_of_exists ⟨x, hmem, hx⟩⟩
  rw [removeFirst, hfind]
  dsimp only
  rw [if_neg hlen, List.eraseP_eq_eraseIdx, hfind]
  dsimp only
  rw [List.eraseIdx_eq_take_drop_succ]

theorem removeFirst_of_len (hlen : s.len = 1) {x : α} (hmem : x ∈ s.elems) (hx : p x = true) :
    s.removeFirst p = { s with gone := true } := by
  obtain ⟨j, hfind⟩ : ∃ j, s.elems.findIdx? p = some j :=
    ⟨_, List.findIdx?_eq_some_of_exists ⟨x, hmem, hx⟩⟩
  rw [removeFirst, hfind]
  dsimp only
  rw [if_pos hlen]

end Removal

theorem length_elems {s : Slice α} (hbound : s.len ≤ s.array.length) : s.elems.length = s.len := by
  rw [elems, List.length_take, Nat.min_eq_left hbound]

theorem length_array_removeFirst {s : Slice α} (hpos : 0 < s.len)
    (hbound : s.len ≤ s.array.length) (p : α → Bool) :
    (s.removeFirst p).array.length = s.array.length := by
  unfold removeFirst
  split
  next => rfl
  next j hfind =>
    split
    next => rfl
    next =>
      have hj := (List.findIdx?_eq_some_iff_findIdx_eq.mp hfind).1
      rw [length_elems hbound] at hj
      dsimp only
      rw [List.length_append, List.length_append, List.length_take, List.length_drop,
        List.length_drop, length_elems hbound]
      omega

/-! ## The visits outside of the slice -/

/-- A slice whose visits, from some place on, see the same element again and again. -/
structure Repeats (s : Slice α) (i : Nat) (last : α) : Prop where
  pos : 0 < s.len
  le : s.len ≤ i
  bound : s.len ≤ s.array.length
  gone : s.gone = true → s.len = 1
  repeats : ∀ j x, i ≤ j → s.array[j]? = some x → x = last

section Phases

variable [DecidableEq κ] {due : α → Bool} {key : α → κ}

def erase (key : α → κ) (ys : List α) (x : α) : List α := ys.eraseP (sameKey key x)

theorem Repeats.removeFirst {s : Slice α} {i : Nat} {last : α} (h : s.Repeats i last)
    (p : α → Bool) :
    (s.removeFirst p).Repeats (i + 1) last ∧ (s.removeFirst p).kept = s.kept.eraseP p := by
  have hlater : ∀ j x, i + 1 ≤ j → s.array[j]? = some x → x = last :=
    fun j x hj => h.repeats j x (by omega)
  by_cases hsome : ∃ x ∈ s.elems, p x = true
  · obtain ⟨x, hmem, hx⟩ := hsome
    by_cases hlen : s.len = 1
    · rw [removeFirst_of_len hlen hmem hx]
      refine ⟨⟨h.pos, Nat.le_succ_of_le h.le, h.bound, fun _ => hlen, hlater⟩, ?_⟩
      rw [kept, if_pos rfl, kept]
      split
      next => rfl
      next =>
        obtain ⟨y, hy⟩ := List.length_eq_one_iff.mp ((length_elems h.bound).trans hlen)
        rw [hy, List.mem_singleton] at hmem
        rw [hy, ← hmem, List.eraseP_cons_of_pos hx]
    · rw [removeFirst_of_mem hlen hmem hx]
      have hgone : s.gone = false := by
        rw [← Bool.not_eq_true]
        exact fun hgone => hlen (h.gone hgone)
      have hlength : (s.elems.eraseP p).length = s.len - 1 := by
        rw [List.length_eraseP_of_mem hmem hx, length_elems h.bound]
      have hpos := h.pos
      have hle := h.le
      have hbound := h.bound
      refine ⟨⟨by dsimp only; omega, by dsimp only; omega, ?_, ?_, ?_⟩, ?_⟩
      · dsimp only
        rw [List.length_append, hlength]
        exact Nat.le_add_right _ _
      · intro hdropped
        rw [hgone] at hdropped
        cases hdropped
      · intro j x hj hget
        rw [List.getElem?_append_right (by omega), hlength, List.getElem?_drop,
          Nat.add_sub_cancel' (by omega)] at hget
        exact hlater j x hj hget
      · rw [kept, kept, hgone, if_neg Bool.false_ne_true, if_neg Bool.false_ne_true, elems,
          ← hlength, List.take_left]
  · have hnone : ∀ x ∈ s.elems, p x = false := by
      intro x hmem
      rw [← Bool.not_eq_true]
      exact fun hx => hsome ⟨x, hmem, hx⟩
    rw [removeFirst_of_forall hnone]
    refine ⟨⟨h.pos, Nat.le_succ_of_le h.le, h.bound, h.gone, hlater⟩, ?_⟩
    rw [kept]
    split
    next => rfl
    next =>
      exact (List.eraseP_of_forall_not fun x hmem => by
        rw [hnone x hmem]
        exact Bool.false_ne_true).symm

/-- Visits outside of the slice try to remove the key of the last element, each time. -/
theorem Repeats.kept_foldl {s : Slice α} {i m : Nat} {last : α} (h : s.Repeats i last)
    (hlength : s.array.length = i + m) :
    ((List.range' i m).foldl (visit due key) s).kept =
      (List.replicate (if due last then m else 0) last).foldl (erase key) s.kept := by
  induction m generalizing s i with
  | zero => cases due last <;> rfl
  | succ m ih =>
    obtain ⟨x, hget⟩ : ∃ x, s.array[i]? = some x :=
      ⟨_, List.getElem?_eq_getElem (by omega : i < s.array.length)⟩
    obtain rfl := h.repeats i x (Nat.le_refl i) hget
    rw [List.range'_succ, List.foldl_cons]
    cases hdue : due x with
    | true =>
      have hvisit : visit due key s i = s.removeFirst (sameKey key x) := by
        rw [visit, hget]
        exact if_pos hdue
      obtain ⟨hrepeats, hkept⟩ := h.removeFirst (sameKey key x)
      have hnext : (s.removeFirst (sameKey key x)).array.length = i + 1 + m := by
        rw [length_array_removeFirst h.pos h.bound, hlength]
        omega
      rw [hvisit, ih hrepeats hnext, hdue, if_pos rfl, if_pos rfl, List.replicate_succ,
        List.foldl_cons, hkept, erase]
    | false =>
      have hvisit : visit due key s i = s := by
        rw [visit, hget]
        exact if_neg (by rw [hdue]; exact Bool.false_ne_true)
      have hrepeats : s.Repeats (i + 1) x :=
        ⟨h.pos, Nat.le_succ_of_le h.le, h.bound, h.gone,
          fun j y hj => h.repeats j y (by omega)⟩
      rw [hvisit, ih hrepeats (by omega), hdue]
      rfl

/-! ## The visits inside of the slice -/

/-- The elements whose visit removes one: the element after each of them is not visited. -/
def removers (due : α → Bool) : List α → List α
  | [] => []
  | [x] => if due x then [x] else []
  | x :: y :: ys => if due x then x :: removers due ys else removers due (y :: ys)

def skipped (due : α → Bool) : List α → List α
  | [] => []
  | [_] => []
  | x :: y :: ys =>
    if due x then if due y then y :: skipped due ys else skipped due ys
    else skipped due (y :: ys)

/-- How many elements are left behind in the array by the removals that skip one. -/
def leftBehind (due : α → Bool) : List α → Nat
  | [] => 0
  | [_] => 0
  | x :: y :: ys => if due x then leftBehind due ys + 1 else leftBehind due (y :: ys)

/-- The elements for which one of their key is removed, in the order of the visits. -/
def triggers (due : α → Bool) (last : α) (ahead : List α) (behind : Nat) : List α :=
  removers due ahead ++ List.replicate (if due last then behind + leftBehind due ahead else 0) last

/-- A slice in the middle of a sweep: what has been passed, what is ahead, and the copies of
the last element behind it. -/
def midway (passed ahead : List α) (behind : Nat) (last : α) : Slice α where
  array := passed ++ ahead ++ List.replicate behind last
  len := (passed ++ ahead).length

section Midway

variable {passed rest : List α} {x last : α} {behind : Nat}

theorem elems_midway (passed ahead : List α) :
    (midway passed ahead behind last).elems = passed ++ ahead := by
  rw [elems, midway, List.take_left]

theorem array_midway_getElem? :
    (midway passed (x :: rest) behind last).array[passed.length]? = some x := by
  rw [midway, List.append_assoc, List.getElem?_append_right (Nat.le_refl _), Nat.sub_self]
  rfl

theorem visit_midway_of_not_due (hdue : due x = false) :
    visit due key (midway passed (x :: rest) behind last) passed.length =
      midway (passed ++ [x]) rest behind last := by
  rw [visit, array_midway_getElem?]
  dsimp only
  rw [hdue, if_neg Bool.false_ne_true, midway, midway, List.append_assoc passed [x] rest,
    List.singleton_append]

theorem sameKey_self : sameKey key x x = true := decide_eq_true rfl

theorem visit_midway_of_due (hdue : due x = true) (hlen : (passed ++ x :: rest).length ≠ 1)
    (hlast : (x :: rest).getLast? = some last) :
    visit due key (midway passed (x :: rest) behind last) passed.length =
      { array := (passed ++ x :: rest).eraseP (sameKey key x) ++
          List.replicate (behind + 1) last
        len := (passed ++ x :: rest).length - 1 } := by
  have hmem : x ∈ (midway passed (x :: rest) behind last).elems := by
    rw [elems_midway]
    exact List.mem_append_right _ List.mem_cons_self
  have hdrop : (midway passed (x :: rest) behind last).array.drop
      ((passed ++ x :: rest).length - 1) = List.replicate (behind + 1) last := by
    obtain ⟨front, hfront⟩ := List.getLast?_eq_some_iff.mp hlast
    rw [midway, hfront, ← List.append_assoc, List.length_append, List.length_singleton,
      Nat.add_sub_cancel, List.append_assoc, List.drop_left]
    rfl
  rw [visit, array_midway_getElem?]
  dsimp only
  rw [hdue, if_pos rfl, removeFirst_of_mem hlen hmem sameKey_self, elems_midway]
  congr 2

end Midway

/-- The visits behind a slice, where the array holds copies of one element. -/
theorem kept_foldl_behind {elems : List α} {behind i m : Nat} {last : α} {gone : Bool}
    (hne : elems ≠ []) (hi : elems.length ≤ i) (hm : elems.length + behind = i + m)
    (hgone : gone = true → elems.length = 1) :
    ((List.range' i m).foldl (visit due key)
      (Slice.mk (elems ++ List.replicate behind last) elems.length gone)).kept =
      (List.replicate (if due last then m else 0) last).foldl (erase key)
        (if gone then [] else elems) := by
  have hrepeats : (Slice.mk (elems ++ List.replicate behind last) elems.length gone).Repeats i
      last := by
    refine ⟨List.length_pos_of_ne_nil hne, hi, ?_, hgone, ?_⟩
    · rw [List.length_append]
      exact Nat.le_add_right _ _
    · intro j x hj hget
      rw [List.getElem?_append_right (by omega)] at hget
      exact List.eq_of_mem_replicate (List.mem_of_getElem? hget)
  rw [hrepeats.kept_foldl (by rw [List.length_append, List.length_replicate, hm]), kept,
    Slice.elems, List.take_left]

theorem midway_nil (passed : List α) (behind : Nat) (last : α) :
    midway passed [] behind last =
      Slice.mk (passed ++ List.replicate behind last) passed.length false := by
  rw [midway, List.append_nil]

/-- What a sweep keeps from some place on: for each trigger one of its key is removed. -/
theorem kept_foldl_visit {ahead passed : List α} {behind : Nat} {last : α}
    (hne : passed ++ ahead ≠ []) (hlast : ahead ≠ [] → ahead.getLast? = some last) :
    ((List.range' passed.length (ahead.length + behind)).foldl (visit due key)
      (midway passed ahead behind last)).kept =
      (triggers due last ahead behind).foldl (erase key) (passed ++ ahead) := by
  induction ahead using removers.induct due generalizing passed behind with
  | case1 =>
    rw [List.append_nil] at hne
    rw [List.length_nil, Nat.zero_add, midway_nil, List.append_nil]
    exact kept_foldl_behind hne (Nat.le_refl _) rfl fun hgone => by cases hgone
  | case2 x hdue =>
    obtain rfl : x = last := Option.some.inj (hlast (List.cons_ne_nil x []))
    have hlength : (passed ++ [x]).length = passed.length + 1 := by
      rw [List.length_append, List.length_singleton]
    rw [List.length_singleton, Nat.add_comm 1 behind, List.range'_succ, List.foldl_cons,
      triggers, removers, if_pos hdue, if_pos hdue, leftBehind, Nat.add_zero,
      List.singleton_append, List.foldl_cons]
    by_cases hlen : (passed ++ [x]).length = 1
    · -- The only element is dropped with the slice, and stays in the array.
      have hmem : x ∈ (midway passed [x] behind x).elems := by
        rw [elems_midway]
        exact List.mem_append_right _ List.mem_cons_self
      have hvisit : visit due key (midway passed [x] behind x) passed.length =
          Slice.mk (passed ++ [x] ++ List.replicate behind x) (passed ++ [x]).length true := by
        rw [visit, array_midway_getElem?]
        dsimp only
        rw [if_pos hdue, removeFirst_of_len hlen hmem sameKey_self]
        rfl
      obtain ⟨y, hy⟩ := List.length_eq_one_iff.mp hlen
      have hpassed : erase key (passed ++ [x]) x = [] := by
        have hx : x ∈ passed ++ [x] := List.mem_append_right _ List.mem_cons_self
        rw [hy, List.mem_singleton] at hx
        rw [erase, hy, ← hx, List.eraseP_cons_of_pos sameKey_self]
      rw [hvisit, hpassed]
      refine (kept_foldl_behind hne (Nat.le_of_eq hlength) (by omega) fun _ => hlen).trans ?_
      rw [if_pos hdue, if_pos rfl, Nat.add_zero]
    · have herase : (erase key (passed ++ [x]) x).length = passed.length := by
        rw [erase, List.length_eraseP_of_mem (List.mem_append_right _ List.mem_cons_self)
          sameKey_self, hlength, Nat.add_sub_cancel]
      have hvisit : visit due key (midway passed [x] behind x) passed.length =
          Slice.mk (erase key (passed ++ [x]) x ++ List.replicate (behind + 1) x)
            (erase key (passed ++ [x]) x).length false := by
        rw [visit_midway_of_due hdue hlen List.getLast?_singleton, hlength, Nat.add_sub_cancel,
          herase]
        rfl
      have hleft : erase key (passed ++ [x]) x ≠ [] := by
        refine List.ne_nil_of_length_pos ?_
        omega
      rw [hvisit]
      refine (kept_foldl_behind hleft (by omega) (by omega) fun hgone => by cases hgone).trans ?_
      rw [if_pos hdue, if_neg Bool.false_ne_true, Nat.add_zero]
  | case3 x hdue =>
    obtain rfl : x = last := Option.some.inj (hlast (List.cons_ne_nil x []))
    have hfresh : due x = false := Bool.eq_false_iff.mpr hdue
    have hlength : (passed ++ [x]).length = passed.length + 1 := by
      rw [List.length_append, List.length_singleton]
    rw [List.length_singleton, Nat.add_comm 1 behind, List.range'_succ, List.foldl_cons,
      visit_midway_of_not_due hfresh, midway_nil, triggers, removers, leftBehind, hfresh]
    refine (kept_foldl_behind hne (Nat.le_of_eq hlength) (by omega)
      fun hgone => by cases hgone).trans ?_
    rw [hfresh]
    rfl
  | case4 x y ys hdue ih =>
    have hlast' := hlast (List.cons_ne_nil x _)
    have hlen : (passed ++ x :: y :: ys).length ≠ 1 := by
      rw [List.length_append, List.length_cons, List.length_cons]
      omega
    have hsplit : (passed ++ x :: y :: ys).eraseP (sameKey key x) =
        (passed ++ [x]).eraseP (sameKey key x) ++ [y] ++ ys := by
      rw [← List.singleton_append, ← List.append_assoc,
        List.eraseP_append_left sameKey_self _ (List.mem_append_right _ List.mem_cons_self),
        List.append_assoc]
      rfl
    have hpassed : ((passed ++ [x]).eraseP (sameKey key x) ++ [y]).length =
        passed.length + 1 := by
      rw [List.length_append, List.length_eraseP_of_mem
        (List.mem_append_right _ List.mem_cons_self) sameKey_self, List.length_append]
      rfl
    have hvisit : visit due key (midway passed (x :: y :: ys) behind last) passed.length =
        midway ((passed ++ [x]).eraseP (sameKey key x) ++ [y]) ys (behind + 1) last := by
      rw [visit_midway_of_due hdue hlen hlast', midway, hsplit]
      congr 1
      rw [List.length_append, List.length_append, hpassed, List.length_cons, List.length_cons]
      omega
    have hys : ys ≠ [] → ys.getLast? = some last := by
      intro hys
      rw [List.getLast?_cons_cons, List.getLast?_cons_of_ne_nil hys] at hlast'
      exact hlast'
    have hrest := @ih ((passed ++ [x]).eraseP (sameKey key x) ++ [y]) (behind + 1) (by simp) hys
    have hcount : (x :: y :: ys).length + behind = ys.length + (behind + 1) + 1 := by
      rw [List.length_cons, List.length_cons]
      omega
    rw [hpassed] at hrest
    rw [hcount, List.range'_succ, List.foldl_cons, hvisit, hrest, triggers, triggers, removers,
      if_pos hdue, leftBehind, if_pos hdue, List.cons_append, List.foldl_cons, erase, hsplit,
      Nat.add_assoc behind 1, Nat.add_comm 1]
  | case5 x y ys hdue ih =>
    have hfresh : due x = false := Bool.eq_false_iff.mpr hdue
    have hlast' := hlast (List.cons_ne_nil x _)
    rw [List.getLast?_cons_cons] at hlast'
    have hcount : (x :: y :: ys).length + behind = (y :: ys).length + behind + 1 := by
      rw [List.length_cons]
      omega
    have hrest := @ih (passed ++ [x]) behind (by simp) (fun _ => hlast')
    rw [List.length_append, List.length_singleton] at hrest
    rw [hcount, List.range'_succ, List.foldl_cons, visit_midway_of_not_due hfresh, hrest,
      triggers, triggers, removers, if_neg hdue, leftBehind, if_neg hdue, List.append_assoc,
      List.singleton_append]

variable {xs : List α}

theorem kept_sweep {last : α} (hlast : xs.getLast? = some last) :
    (sweep due key xs).kept = (triggers due last xs 0).foldl (erase key) xs := by
  have hne : xs ≠ [] := by
    rintro rfl
    cases hlast
  have hvisits := @kept_foldl_visit α κ _ due key xs [] 0 last hne fun _ => hlast
  rw [Nat.add_zero, List.length_nil, ← List.range_eq_range', midway, List.nil_append,
    List.replicate_zero, List.append_nil] at hvisits
  exact hvisits

theorem kept_sweep_sublist (xs : List α) : (sweep due key xs).kept.Sublist xs := by
  have herase : ∀ ts ys : List α, (ts.foldl (erase key) ys).Sublist ys := by
    intro ts
    induction ts with
    | nil => exact fun ys => List.Sublist.refl ys
    | cons x ts ih => exact fun ys => (ih _).trans List.eraseP_sublist
  cases hlast : xs.getLast? with
  | none =>
    obtain rfl := List.getLast?_eq_none_iff.mp hlast
    exact List.Sublist.refl _
  | some last =>
    rw [kept_sweep hlast]
    exact herase _ _

def Sized (s : Slice α) : Prop := 0 < s.len ∧ s.len ≤ s.array.length

theorem Sized.removeFirst {s : Slice α} (h : s.Sized) (p : α → Bool) :
    (s.removeFirst p).Sized := by
  have hlength := length_array_removeFirst h.1 h.2 p
  refine ⟨?_, ?_⟩
  · unfold Slice.removeFirst
    split
    next => exact h.1
    next =>
      split
      next => exact h.1
      next hlen =>
        have hpos := h.1
        dsimp only
        omega
  · rw [hlength]
    unfold Slice.removeFirst
    split
    next => exact h.2
    next =>
      split
      next => exact h.2
      next => exact Nat.le_trans (Nat.sub_le _ _) h.2

theorem elems_sweep_ne_nil (hne : xs ≠ []) : (sweep due key xs).elems ≠ [] := by
  have hvisits : ∀ (places : List Nat) (s : Slice α), s.Sized →
      (places.foldl (visit due key) s).Sized := by
    intro places
    induction places with
    | nil => exact fun _ hs => hs
    | cons i places ih =>
      refine fun s hs => ih _ ?_
      unfold visit
      split
      next => exact hs
      next =>
        split
        next => exact hs.removeFirst _
        next => exact hs
  obtain ⟨hpos, hbound⟩ := hvisits (List.range xs.length) { array := xs, len := xs.length }
    ⟨List.length_pos_of_ne_nil hne, Nat.le_refl _⟩
  have hlength := length_elems hbound
  exact List.ne_nil_of_length_pos (hlength ▸ hpos)

/-! ## When all that is due goes and the rest stays -/

def ofKey (key : α → κ) (c : κ) (xs : List α) : List α := xs.filter fun x => decide (key x = c)

theorem ofKey_cons (c : κ) (y : α) (ys : List α) :
    ofKey key c (y :: ys) = if key y = c then y :: ofKey key c ys else ofKey key c ys := by
  rw [ofKey, List.filter_cons]
  simp only [decide_eq_true_eq]
  rfl

theorem ofKey_erase (c : κ) (ys : List α) (x : α) :
    ofKey key c (erase key ys x) =
      if key x = c then (ofKey key c ys).drop 1 else ofKey key c ys := by
  induction ys with
  | nil =>
    rw [erase, List.eraseP_nil, ofKey, List.filter_nil, List.drop_nil, ite_self]
  | cons y ys ih =>
    rw [erase] at ih ⊢
    by_cases hsame : key y = key x
    · have hy : sameKey key x y = true := decide_eq_true hsame
      rw [List.eraseP_cons_of_pos hy, ofKey_cons, hsame]
      split
      next hx => rfl
      next hx => rfl
    · have hy : ¬ sameKey key x y = true := by
        rw [sameKey, decide_eq_true_eq]
        exact hsame
      rw [List.eraseP_cons_of_neg hy, ofKey_cons, ofKey_cons, ih]
      by_cases hx : key x = c
      · rw [if_pos hx, if_pos hx, if_neg (hx ▸ hsame), if_neg (hx ▸ hsame)]
      · rw [if_neg hx, if_neg hx]

theorem ofKey_foldl_erase (c : κ) (ts ys : List α) :
    ofKey key c (ts.foldl (erase key) ys) =
      (ofKey key c ys).drop (ts.countP fun x => decide (key x = c)) := by
  induction ts generalizing ys with
  | nil => rfl
  | cons x ts ih =>
    rw [List.foldl_cons, ih, ofKey_erase, List.countP_cons]
    split
    next hx => rw [List.drop_drop, if_pos (decide_eq_true hx), Nat.add_comm]
    next hx => rw [if_neg (by rw [decide_eq_true_eq]; exact hx), Nat.add_zero]

theorem perm_filter_due (due : α → Bool) (xs : List α) :
    (xs.filter due).Perm (removers due xs ++ skipped due xs) := by
  induction xs using removers.induct due with
  | case1 => exact List.Perm.nil
  | case2 x hdue =>
    rw [List.filter_cons_of_pos hdue, removers, if_pos hdue]
    exact List.Perm.refl _
  | case3 x hdue =>
    rw [List.filter_cons_of_neg hdue, removers, if_neg hdue]
    exact List.Perm.refl _
  | case4 x y ys hdue ih =>
    rw [List.filter_cons_of_pos hdue, removers, if_pos hdue, skipped, if_pos hdue,
      List.cons_append]
    refine List.Perm.cons x ?_
    split
    next hnext =>
      rw [List.filter_cons_of_pos hnext]
      exact (ih.cons y).trans List.perm_middle.symm
    next hnext =>
      rw [List.filter_cons_of_neg hnext]
      exact ih
  | case5 x y ys hdue ih =>
    rw [List.filter_cons_of_neg hdue, removers, if_neg hdue, skipped, if_neg hdue]
    exact ih

theorem length_skipped_le (due : α → Bool) (xs : List α) :
    (skipped due xs).length ≤ leftBehind due xs := by
  induction xs using removers.induct due with
  | case1 => exact Nat.le_refl _
  | case2 x hdue => exact Nat.le_refl _
  | case3 x hdue => exact Nat.le_refl _
  | case4 x y ys hdue ih =>
    rw [skipped, leftBehind, if_pos hdue, if_pos hdue]
    split
    next => exact Nat.succ_le_succ ih
    next => exact Nat.le_succ_of_le ih
  | case5 x y ys hdue ih =>
    rw [skipped, leftBehind, if_neg hdue, if_neg hdue]
    exact ih

/-- A list cut in two holds in its second part what is not due, and nothing else. -/
theorem drop_perm_filter_iff {t : Nat} :
    (xs.drop t).Perm (xs.filter fun x => !due x) ↔
      (∀ x ∈ xs.take t, due x = true) ∧ ∀ x ∈ xs.drop t, due x = false := by
  have hsplit : xs.filter (fun x => !due x) =
      (xs.take t).filter (fun x => !due x) ++ (xs.drop t).filter fun x => !due x := by
    rw [← List.filter_append, List.take_append_drop]
  constructor
  · intro hperm
    have hfresh : ∀ x ∈ xs.drop t, due x = false := by
      intro x hx
      have hmem := (List.mem_filter.mp (hperm.mem_iff.mp hx)).2
      rw [Bool.not_eq_true'] at hmem
      exact hmem
    have hrest : (xs.drop t).filter (fun x => !due x) = xs.drop t :=
      List.filter_eq_self.mpr fun x hx => by rw [hfresh x hx, Bool.not_false]
    have hlength := hperm.length_eq
    rw [hsplit, hrest, List.length_append] at hlength
    have hnone := List.eq_nil_of_length_eq_zero
      (by omega : ((xs.take t).filter fun x => !due x).length = 0)
    refine ⟨fun x hx => ?_, hfresh⟩
    have hnot := List.filter_eq_nil_iff.mp hnone x hx
    rw [Bool.not_eq_true', Bool.not_eq_false] at hnot
    exact hnot
  · rintro ⟨hdue, hfresh⟩
    have hfirst : (xs.take t).filter (fun x => !due x) = [] :=
      List.filter_eq_nil_iff.mpr fun x hx => by
        rw [hdue x hx]
        exact Bool.false_ne_true
    have hrest : (xs.drop t).filter (fun x => !due x) = xs.drop t :=
      List.filter_eq_self.mpr fun x hx => by rw [hfresh x hx, Bool.not_false]
    rw [hsplit, hfirst, hrest, List.nil_append]

theorem perm_of_ofKey {xs ys : List α} (h : ∀ c, (ofKey key c xs).Perm (ofKey key c ys)) :
    xs.Perm ys := by
  classical
  refine List.perm_iff_count.mpr fun x => ?_
  have hcount := (h (key x)).count_eq x
  rw [ofKey, ofKey, List.count_filter (by simp), List.count_filter (by simp)] at hcount
  exact hcount

/-- A sweep that has the effect it is meant to have is one of a list in which, of one key,
what is due comes first, and what is skipped has the key of the last element, which is due. -/
structure Clean (due : α → Bool) (key : α → κ) (xs : List α) : Prop where
  ordered : xs.Pairwise fun x y => key x = key y → due y = true → due x = true
  skipped : ∀ x ∈ skipped due xs,
    ∃ last, xs.getLast? = some last ∧ due last = true ∧ key last = key x

theorem perm_kept_sweep_iff {last : α} (hlast : xs.getLast? = some last) :
    (sweep due key xs).kept.Perm (xs.filter fun x => !due x) ↔
      ∀ c, (∀ x ∈ (ofKey key c xs).take
          ((triggers due last xs 0).countP fun x => decide (key x = c)), due x = true) ∧
        ∀ x ∈ (ofKey key c xs).drop
          ((triggers due last xs 0).countP fun x => decide (key x = c)), due x = false := by
  have hclass : ∀ c, ofKey key c (xs.filter fun x => !due x) =
      (ofKey key c xs).filter fun x => !due x := by
    intro c
    rw [ofKey, ofKey, List.filter_comm]
  rw [kept_sweep hlast]
  constructor
  · intro hperm c
    have hof : (ofKey key c ((triggers due last xs 0).foldl (erase key) xs)).Perm
        (ofKey key c (xs.filter fun x => !due x)) := hperm.filter _
    rw [ofKey_foldl_erase, hclass] at hof
    exact drop_perm_filter_iff.mp hof
  · intro hall
    refine @perm_of_ofKey α κ _ key _ _ fun c => ?_
    rw [ofKey_foldl_erase, hclass]
    exact drop_perm_filter_iff.mpr (hall c)

theorem countP_due_ofKey (c : κ) (xs : List α) :
    (ofKey key c xs).countP due =
      ((removers due xs).countP fun x => decide (key x = c)) +
        (skipped due xs).countP fun x => decide (key x = c) := by
  rw [← List.countP_append, ← (perm_filter_due due xs).countP_eq, ofKey, List.countP_filter,
    List.countP_filter]
  congr 1
  funext x
  exact Bool.and_comm _ _

theorem filter_append_of_ordered (hordered : xs.Pairwise fun x y => due y = true → due x = true) :
    xs = xs.filter due ++ xs.filter fun x => !due x := by
  induction xs with
  | nil => rfl
  | cons x xs ih =>
    obtain ⟨hfirst, hrest⟩ := List.pairwise_cons.mp hordered
    rw [List.filter_cons, List.filter_cons]
    cases hdue : due x with
    | true =>
      rw [if_pos rfl, if_neg (by rw [Bool.not_true]; exact Bool.false_ne_true),
        List.cons_append, ← ih hrest]
    | false =>
      have hnone : ∀ y ∈ xs, due y = false := by
        intro y hy
        rw [← Bool.not_eq_true]
        intro hy'
        rw [hfirst y hy hy'] at hdue
        cases hdue
      have hfilter : xs.filter due = [] :=
        List.filter_eq_nil_iff.mpr fun y hy => by
          rw [hnone y hy]
          exact Bool.false_ne_true
      have hall : xs.filter (fun y => !due y) = xs :=
        List.filter_eq_self.mpr fun y hy => by rw [hnone y hy, Bool.not_false]
      rw [if_neg Bool.false_ne_true, Bool.not_false, if_pos rfl, hfilter, hall, List.nil_append]

theorem forall_take_drop_of_ordered {t : Nat}
    (hordered : xs.Pairwise fun x y => due y = true → due x = true) (hle : xs.countP due ≤ t)
    (hge : t ≤ xs.countP due ∨ ∀ x ∈ xs, due x = true) :
    (∀ x ∈ xs.take t, due x = true) ∧ ∀ x ∈ xs.drop t, due x = false := by
  have hsplit := filter_append_of_ordered hordered
  rw [List.countP_eq_length_filter] at hle hge
  refine ⟨fun x hx => ?_, fun x hx => ?_⟩
  · rcases hge with hge | hdue
    · rw [hsplit, List.take_append_of_le_length hge] at hx
      exact (List.mem_filter.mp (List.mem_of_mem_take hx)).2
    · exact hdue x (List.mem_of_mem_take hx)
  · rw [hsplit, List.drop_append, List.drop_of_length_le hle, List.nil_append] at hx
    have hfresh := (List.mem_filter.mp (List.mem_of_mem_drop hx)).2
    rw [Bool.not_eq_true'] at hfresh
    exact hfresh

theorem countP_triggers (c : κ) (xs : List α) (last : α) :
    ((triggers due last xs 0).countP fun x => decide (key x = c)) =
      ((removers due xs).countP fun x => decide (key x = c)) +
        if due last = true ∧ key last = c then leftBehind due xs else 0 := by
  rw [triggers, List.countP_append, List.countP_replicate, Nat.zero_add]
  congr 1
  by_cases hdue : due last = true
  · by_cases hkey : key last = c
    · simp [hdue, hkey]
    · simp [hkey]
  · simp [hdue]

theorem Clean.forall_take_drop {last : α} (hlast : xs.getLast? = some last)
    (hclean : Clean due key xs) (c : κ) :
    (∀ x ∈ (ofKey key c xs).take
        ((triggers due last xs 0).countP fun x => decide (key x = c)), due x = true) ∧
      ∀ x ∈ (ofKey key c xs).drop
        ((triggers due last xs 0).countP fun x => decide (key x = c)), due x = false := by
  have hskipped : ∀ x ∈ Slice.skipped due xs, due last = true ∧ key last = key x := by
    intro x hx
    obtain ⟨last', hlast', hdue⟩ := hclean.skipped x hx
    rw [hlast] at hlast'
    cases hlast'
    exact hdue
  have hordered : (ofKey key c xs).Pairwise fun x y => due y = true → due x = true := by
    refine List.Pairwise.imp_of_mem ?_ (hclean.ordered.filter _)
    intro x y hx hy hxy
    exact hxy ((of_decide_eq_true (List.mem_filter.mp hx).2).trans
      (of_decide_eq_true (List.mem_filter.mp hy).2).symm)
  have hcount := @countP_due_ofKey α κ _ due key c xs
  refine forall_take_drop_of_ordered hordered ?_ ?_
  · rw [hcount, countP_triggers]
    refine Nat.add_le_add_left ?_ _
    split
    next => exact Nat.le_trans List.countP_le_length (length_skipped_le due xs)
    next hother =>
      rw [Nat.le_zero, List.countP_eq_zero]
      intro x hx hkey
      rw [decide_eq_true_eq] at hkey
      exact hother (hkey ▸ hskipped x hx)
  · rw [hcount, countP_triggers]
    split
    next hsame =>
      -- Where the last element is due, so is everything of its key.
      obtain ⟨front, hfront⟩ := List.getLast?_eq_some_iff.mp hlast
      refine Or.inr fun x hx => ?_
      obtain ⟨hmem, hkey⟩ := List.mem_filter.mp hx
      rw [hfront] at hmem
      rcases List.mem_append.mp hmem with hbefore | hx
      · have hpairs := hclean.ordered
        rw [hfront] at hpairs
        have hkeys : key x = key last := (of_decide_eq_true hkey).trans hsame.2.symm
        exact (List.pairwise_append.mp hpairs).2.2 x hbefore last List.mem_cons_self hkeys hsame.1
      · rw [List.mem_singleton.mp hx]
        exact hsame.1
    next => exact Or.inl (Nat.le_add_right _ _)

theorem clean_of_forall_take_drop {last : α} (hlast : xs.getLast? = some last)
    (hall : ∀ c, (∀ x ∈ (ofKey key c xs).take
          ((triggers due last xs 0).countP fun x => decide (key x = c)), due x = true) ∧
        ∀ x ∈ (ofKey key c xs).drop
          ((triggers due last xs 0).countP fun x => decide (key x = c)), due x = false) :
    Clean due key xs where
  ordered := by
    refine List.pairwise_iff_forall_sublist.mpr fun {x y} hpair hkey hdue => ?_
    have hof : [x, y].Sublist (ofKey key (key x) xs) := by
      have hboth : ofKey key (key x) [x, y] = [x, y] := by
        rw [ofKey_cons, ofKey_cons, if_pos rfl, if_pos hkey.symm]
        rfl
      rw [← hboth]
      exact hpair.filter _
    obtain ⟨htake, hdrop⟩ := hall (key x)
    have hordered : (ofKey key (key x) xs).Pairwise fun x y => due y = true → due x = true := by
      rw [← List.take_append_drop ((triggers due last xs 0).countP fun z =>
        decide (key z = key x)) (ofKey key (key x) xs)]
      refine List.pairwise_append.mpr ⟨?_, ?_, fun a ha _ _ _ => htake a ha⟩
      · exact List.pairwise_of_forall_mem_list fun a ha _ _ _ => htake a ha
      · refine List.pairwise_of_forall_mem_list fun _ _ b hb hdue => ?_
        rw [hdrop b hb] at hdue
        cases hdue
    exact List.pairwise_iff_forall_sublist.mp hordered hof hdue
  skipped := by
    intro x hx
    refine ⟨last, hlast, ?_⟩
    obtain ⟨-, hdrop⟩ := hall (key x)
    have hle : (ofKey key (key x) xs).countP due ≤
        (triggers due last xs 0).countP fun z => decide (key z = key x) := by
      generalize (triggers due last xs 0).countP (fun z => decide (key z = key x)) = t at hdrop
      have hnone : ((ofKey key (key x) xs).drop t).countP due = 0 := by
        refine List.countP_eq_zero.mpr fun y hy => ?_
        rw [hdrop y hy]
        exact Bool.false_ne_true
      rw [← List.take_append_drop t (ofKey key (key x) xs), List.countP_append, hnone,
        Nat.add_zero]
      exact Nat.le_trans List.countP_le_length (List.length_take_le _ _)
    have hpos : 0 < (skipped due xs).countP fun z => decide (key z = key x) :=
      List.countP_pos_iff.mpr ⟨x, hx, decide_eq_true rfl⟩
    rw [countP_due_ofKey, countP_triggers] at hle
    by_contra hnot
    rw [if_neg hnot] at hle
    omega

theorem perm_kept_sweep_iff_clean (xs : List α) :
    (sweep due key xs).kept.Perm (xs.filter fun x => !due x) ↔ Clean due key xs := by
  cases hlast : xs.getLast? with
  | none =>
    obtain rfl := List.getLast?_eq_none_iff.mp hlast
    refine iff_of_true (List.Perm.refl _) ⟨List.Pairwise.nil, ?_⟩
    exact fun x hx => absurd hx List.not_mem_nil
  | some last =>
    rw [perm_kept_sweep_iff hlast]
    exact ⟨clean_of_forall_take_drop hlast, fun hclean => hclean.forall_take_drop hlast⟩

end Phases

end Slice

end Fs3.Foundation
