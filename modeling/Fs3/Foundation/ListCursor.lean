import Mathlib.Data.List.Basic

/-! # A cursor over a list

A cursor stands before what is left of a list. -/

namespace Fs3.Foundation

/-- Before the rest of a list, or at the end of it. -/
inductive Cursor (α : Type*) where
  | before (rest : List α)
  | ended
  deriving DecidableEq

/-- Why a cursor goes no further. -/
inductive CursorStop where
  | full
  | past
  | ended
  deriving DecidableEq

namespace Cursor

variable {α : Type*}

def peek : Cursor α → Option α × Cursor α
  | before (a :: rest) => (some a, before (a :: rest))
  | before [] => (none, ended)
  | ended => (none, ended)

def next : Cursor α → Option α × Cursor α
  | before (a :: rest) => (some a, before rest)
  | before [] => (none, ended)
  | ended => (none, ended)

def skip (n : Nat) : Cursor α → Bool × Cursor α
  | before rest => if n ≤ rest.length then (true, before (rest.drop n)) else (false, ended)
  | ended => (false, ended)

/-- Pass over the elements before the ones that are sought, if there are any of these. -/
def seek (early : α → Bool) : Cursor α → Bool × Cursor α
  | before rest =>
    match rest.dropWhile early with
    | [] => (false, ended)
    | a :: rest => (true, before (a :: rest))
  | ended => (false, ended)

theorem skip_zero (rest : List α) : (before rest).skip 0 = (true, before rest) := by
  rw [skip, if_pos (Nat.zero_le _), List.drop_zero]

theorem skip_succ (n : Nat) (a : α) (rest : List α) :
    (before (a :: rest)).skip (n + 1) = (before rest).skip n := by
  rw [skip, skip, List.length_cons, List.drop_succ_cons]
  simp only [Nat.add_le_add_iff_right]

theorem seek_of_early {early : α → Bool} {a : α} {rest : List α} (hearly : early a = true) :
    (before (a :: rest)).seek early = (before rest).seek early := by
  rw [seek, List.dropWhile_cons_of_pos hearly, seek]

theorem seek_of_not_early {early : α → Bool} {a : α} {rest : List α}
    (hearly : ¬ early a = true) :
    (before (a :: rest)).seek early = (true, before (a :: rest)) := by
  rw [seek, List.dropWhile_cons_of_neg hearly]

theorem eq_ended_of_seek {early : α → Bool} {c : Cursor α} (hseek : (c.seek early).1 = false) :
    (c.seek early).2 = ended := by
  cases c with
  | ended => rfl
  | before rest =>
    rw [seek] at hseek ⊢
    split
    · rfl
    next a rest' hrest =>
      rw [hrest] at hseek
      cases hseek

/-- Collect the elements to keep, up to a limit, as long as they are in range. -/
def collect (within keep : α → Bool) : Option Nat → List α → List α × CursorStop × List α
  | limit, [] => ([], if limit = some 0 then .full else .ended, [])
  | limit, a :: rest =>
    if limit = some 0 then ([], .full, a :: rest)
    else if !within a then ([], .past, a :: rest)
    else if keep a then
      let (found, stop) := collect within keep (limit.map (· - 1)) rest
      (a :: found, stop)
    else collect within keep limit rest

def stopped : CursorStop × List α → Cursor α
  | (.ended, _) => ended
  | (_, rest) => before rest

def take (within keep : α → Bool) (limit : Option Nat) :
    Cursor α → List α × CursorStop × Cursor α
  | before rest =>
    let (found, stop) := collect within keep limit rest
    (found, stop.1, stopped stop)
  | ended => ([], .ended, ended)

section Take

variable {within keep : α → Bool} {limit : Option Nat} {a : α} {rest : List α}

theorem take_full (hlimit : limit = some 0) (rest : List α) :
    (before rest).take within keep limit = ([], .full, before rest) := by
  cases rest with
  | nil => rw [take, collect, if_pos hlimit]; rfl
  | cons a rest => rw [take, collect, if_pos hlimit]; rfl

theorem take_nil (hlimit : limit ≠ some 0) :
    (before []).take within keep limit = ([], .ended, (ended : Cursor α)) := by
  rw [take, collect, if_neg hlimit]
  rfl

theorem take_of_past (hlimit : limit ≠ some 0) (hpast : within a = false) :
    (before (a :: rest)).take within keep limit = ([], .past, before (a :: rest)) := by
  rw [take, collect, if_neg hlimit, hpast]
  rfl

theorem take_of_keep (hlimit : limit ≠ some 0) (hwithin : within a = true)
    (hkeep : keep a = true) :
    (before (a :: rest)).take within keep limit =
      let taken := (before rest).take within keep (limit.map (· - 1))
      (a :: taken.1, taken.2) := by
  rw [take, collect, if_neg hlimit, hwithin, hkeep]
  rfl

theorem take_of_not_keep (hlimit : limit ≠ some 0) (hwithin : within a = true)
    (hkeep : keep a = false) :
    (before (a :: rest)).take within keep limit = (before rest).take within keep limit := by
  rw [take, collect, if_neg hlimit, hwithin, hkeep]
  rfl

end Take

/-- Hand out elements, with those that were handed out before, as long as more are
asked for. -/
def handOut (more : List α → Bool) (seen : List α) : List α → List α × Cursor α
  | [] => (seen, ended)
  | a :: rest =>
    if more (seen ++ [a]) then handOut more (seen ++ [a]) rest else (seen ++ [a], before rest)

def visit (more : List α → Bool) : Cursor α → List α × Cursor α
  | before rest => handOut more [] rest
  | ended => ([], ended)

def drain : Cursor α → List α
  | before rest => rest
  | ended => []

end Cursor

end Fs3.Foundation
