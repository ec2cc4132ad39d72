import Mathlib.Data.List.Basic

/-! # Texts in UTF-8

A text is valid where its bytes are runes, one after the other. -/

namespace Fs3.Foundation.Utf8

/-- How many bytes follow the first byte of a rune, and the bounds of the first of them. -/
def runeTail (b : UInt8) : Option (Nat × UInt8 × UInt8) :=
  if b < 0x80 then some (0, 0x80, 0xBF)
  else if 0xC2 ≤ b ∧ b ≤ 0xDF then some (1, 0x80, 0xBF)
  else if b = 0xE0 then some (2, 0xA0, 0xBF)
  else if b = 0xED then some (2, 0x80, 0x9F)
  else if 0xE1 ≤ b ∧ b ≤ 0xEF then some (2, 0x80, 0xBF)
  else if b = 0xF0 then some (3, 0x90, 0xBF)
  else if b = 0xF4 then some (3, 0x80, 0x8F)
  else if 0xF1 ≤ b ∧ b ≤ 0xF3 then some (3, 0x80, 0xBF)
  else none

def isContinuation (b : UInt8) : Bool := decide (0x80 ≤ b) && decide (b ≤ 0xBF)

def isTail (n : Nat) (low high : UInt8) (tail : List UInt8) : Bool :=
  tail.length == n && tail.all isContinuation &&
    tail.head?.all fun b => decide (low ≤ b) && decide (b ≤ high)

/-- `utf8.Valid`. -/
def valid : List UInt8 → Bool
  | [] => true
  | b :: rest =>
    match runeTail b with
    | some (n, low, high) => isTail n low high (rest.take n) && valid (rest.drop n)
    | none => false
termination_by bytes => bytes.length
decreasing_by
  rw [List.length_drop, List.length_cons]
  omega

variable {b : UInt8}

theorem runeTail_of_lt (hb : b < 0x80) : runeTail b = some (0, 0x80, 0xBF) := if_pos hb

theorem valid_cons_of_lt (hb : b < 0x80) (rest : List UInt8) : valid (b :: rest) = valid rest := by
  rw [valid, runeTail_of_lt hb]
  simp only [List.take_zero, List.drop_zero]
  rfl

theorem valid_of_all_lt {bytes : List UInt8} (hbytes : bytes.all (· < 0x80) = true) :
    valid bytes = true := by
  induction bytes with
  | nil => rw [valid]
  | cons b bytes ih =>
    rw [List.all_cons, Bool.and_eq_true, decide_eq_true_eq] at hbytes
    rw [valid_cons_of_lt hbytes.1]
    exact ih hbytes.2

theorem not_isContinuation (hb : b < 0x80) : isContinuation b = false := by
  rw [isContinuation, decide_eq_false (UInt8.not_le.mpr hb)]
  rfl

/-- A valid text can be cut behind a byte below 0x80. -/
theorem valid_cut (hb : b < 0x80) (before after : List UInt8)
    (hvalid : valid (before ++ b :: after) = true) :
    valid (before ++ [b]) = true ∧ valid after = true := by
  induction hlength : before.length using Nat.strongRecOn generalizing before with
  | _ length ih =>
    subst hlength
    cases before with
    | nil =>
      rw [List.nil_append, valid_cons_of_lt hb] at hvalid
      rw [List.nil_append, valid_cons_of_lt hb]
      exact ⟨by rw [valid], hvalid⟩
    | cons first before =>
      rw [List.cons_append, valid] at hvalid ⊢
      cases htail : runeTail first with
      | none =>
        rw [htail] at hvalid
        cases hvalid
      | some bounds =>
        obtain ⟨n, low, high⟩ := bounds
        rw [htail] at hvalid
        dsimp only at hvalid ⊢
        rw [Bool.and_eq_true] at hvalid
        obtain ⟨hrune, hrest⟩ := hvalid
        -- The rune ends before the byte, which continues none.
        have hn : n ≤ before.length := by
          by_contra hlong
          have hmem : b ∈ (before ++ b :: after).take n := by
            rw [List.take_append, List.take_of_length_le (by omega)]
            refine List.mem_append_right _ ?_
            obtain ⟨k, hk⟩ : ∃ k, n - before.length = k + 1 :=
              ⟨n - before.length - 1, by omega⟩
            rw [hk, List.take_succ_cons]
            exact List.mem_cons_self
          rw [isTail, Bool.and_eq_true, Bool.and_eq_true, List.all_eq_true] at hrune
          have hcontinues := hrune.1.2 b hmem
          rw [not_isContinuation hb] at hcontinues
          cases hcontinues
        rw [List.take_append_of_le_length hn] at hrune ⊢
        rw [List.drop_append_of_le_length hn] at hrest ⊢
        have hshorter : (before.drop n).length < (first :: before).length := by
          rw [List.length_drop, List.length_cons]
          omega
        obtain ⟨hbefore, hafter⟩ := ih _ hshorter (before.drop n) hrest rfl
        rw [hrune, hbefore]
        exact ⟨rfl, hafter⟩

end Fs3.Foundation.Utf8
