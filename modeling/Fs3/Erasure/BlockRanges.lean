import Fs3.Erasure.Decode
import Fs3.Foundation.Chunks

/-! # The arithmetic of blocks and shards

A range of a part is a range of each of the blocks it touches, one after the other; the first and
the last of them may be cut. -/

namespace Fs3

open Foundation

/-! ## The blocks of a range -/

/-- Ranges of consecutive blocks, from `block` on, that make up the range from
`start` of the given length. -/
def Covers (blockSize : Int) : Int → Int → Int → List (Int × Int) → Prop
  | _, _, length, [] => length = 0
  | block, start, length, range :: ranges =>
    start = block * blockSize + range.1 ∧ 0 ≤ range.1 ∧ 0 < range.2 ∧
      range.1 + range.2 ≤ blockSize ∧
      Covers blockSize (block + 1) (start + range.2) (length - range.2) ranges

theorem Covers.length_nonneg {blockSize block start length : Int} {ranges : List (Int × Int)}
    (hcovers : Covers blockSize block start length ranges) : 0 ≤ length := by
  induction ranges generalizing block start length with
  | nil => exact Int.le_of_eq hcovers.symm
  | cons range ranges ih =>
    obtain ⟨_, _, hpos, _, hrest⟩ := hcovers
    have hle := ih hrest
    omega

section Ranges

variable {e : Erasure} {offset length : Int}

/-- The ranges of the blocks after the first one, up to the last, which may be
empty and is then left out. -/
theorem covers_tail (hblock : 0 < e.blockSize) {block : Int} (n : Nat)
    (hfirst : offset / e.blockSize < block)
    (hlast : block + n = (offset + length) / e.blockSize) :
    Covers e.blockSize block (block * e.blockSize) (offset + length - block * e.blockSize)
      (((List.range (n + 1)).map fun (i : Nat) =>
        e.blockRange offset length (block + i)).takeWhile fun range => range.2 ≠ 0) := by
  induction n generalizing block with
  | zero =>
    have hrange : e.blockRange offset length block =
        (0, (offset + length) % e.blockSize) := by
      unfold Erasure.blockRange
      rw [if_neg (by omega), if_neg (by omega), if_pos (by omega)]
    have hlength : offset + length - block * e.blockSize =
        (offset + length) % e.blockSize := by
      have hdiv := Int.emod_add_mul_ediv (offset + length) e.blockSize
      rw [show block = (offset + length) / e.blockSize by omega, Int.mul_comm]
      omega
    have hnonneg := Int.emod_nonneg (offset + length) hblock.ne'
    have hlt := Int.emod_lt_of_pos (offset + length) hblock
    rw [List.range_one, List.map_singleton, Int.natCast_zero, Int.add_zero, hrange, hlength]
    by_cases hzero : (offset + length) % e.blockSize = 0
    · rw [hzero]
      rfl
    · rw [List.takeWhile_cons_of_pos (by simpa using hzero), List.takeWhile_nil]
      exact ⟨(Int.add_zero _).symm, Int.le_refl 0, by omega, by omega, Int.sub_self _⟩
  | succ n ih =>
    have hrange : e.blockRange offset length block = (0, e.blockSize) := by
      unfold Erasure.blockRange
      rw [if_neg (by omega), if_neg (by omega), if_neg (by omega)]
    rw [List.range_succ_eq_map, List.map_cons, List.map_map, Int.natCast_zero, Int.add_zero,
      hrange, List.takeWhile_cons_of_pos (by simpa using hblock.ne')]
    refine ⟨(Int.add_zero _).symm, Int.le_refl 0, hblock, by omega, ?_⟩
    have hnext := @ih (block + 1) (by omega) (by omega)
    have hmap : ((fun (i : Nat) => e.blockRange offset length (block + i)) ∘ Nat.succ) =
        fun (i : Nat) => e.blockRange offset length (block + 1 + i) := by
      funext i
      rw [Function.comp_apply, Nat.succ_eq_add_one, Int.natCast_add, Int.natCast_one,
        Int.add_comm (i : Int) 1, Int.add_assoc]
    rw [hmap]
    have hstart : block * e.blockSize + e.blockSize = (block + 1) * e.blockSize := by ring
    rw [hstart, show offset + length - block * e.blockSize - e.blockSize =
      offset + length - (block + 1) * e.blockSize by rw [← hstart]; ring]
    exact hnext

/-- The ranges of the blocks make up the range of the part. -/
theorem covers_blockRanges (hblock : 0 < e.blockSize) (hlength : 0 < length) :
    Covers e.blockSize (offset / e.blockSize) offset length (e.blockRanges offset length) := by
  have hdiv := Int.emod_add_mul_ediv offset e.blockSize
  have hnonneg := Int.emod_nonneg offset hblock.ne'
  have hlt := Int.emod_lt_of_pos offset hblock
  have hstart : offset = offset / e.blockSize * e.blockSize + offset % e.blockSize := by
    rw [Int.mul_comm]
    omega
  have hle : offset / e.blockSize ≤ (offset + length) / e.blockSize :=
    Int.ediv_le_ediv hblock (by omega)
  unfold Erasure.blockRanges
  simp only
  by_cases hone : offset / e.blockSize = (offset + length) / e.blockSize
  · -- The range lies within one block.
    have hend := Int.emod_add_mul_ediv (offset + length) e.blockSize
    have hendlt := Int.emod_lt_of_pos (offset + length) hblock
    rw [← hone] at hend
    have hrange : e.blockRange offset length (offset / e.blockSize) =
        (offset % e.blockSize, length) := if_pos hone
    rw [← hone, Int.sub_self, Int.zero_add, Int.toNat_one, List.range_one, List.map_singleton,
      Int.natCast_zero, Int.add_zero, hrange,
      List.takeWhile_cons_of_pos (by simpa using hlength.ne'), List.takeWhile_nil]
    exact ⟨hstart, hnonneg, hlength, by omega, Int.sub_self _⟩
  · obtain ⟨n, hn⟩ : ∃ n : Nat, offset / e.blockSize + 1 + n = (offset + length) / e.blockSize :=
      ⟨((offset + length) / e.blockSize - offset / e.blockSize - 1).toNat, by omega⟩
    have hrange : e.blockRange offset length (offset / e.blockSize) =
        (offset % e.blockSize, e.blockSize - offset % e.blockSize) := by
      unfold Erasure.blockRange
      rw [if_neg hone, if_pos rfl]
    have htail := covers_tail hblock n (Int.lt_add_one_of_le (Int.le_refl _)) hn
    have hcount : ((offset + length) / e.blockSize - offset / e.blockSize + 1).toNat =
        n + 1 + 1 := by
      omega
    have hmap : ((fun (i : Nat) => e.blockRange offset length (offset / e.blockSize + i)) ∘
        Nat.succ) = fun (i : Nat) =>
          e.blockRange offset length (offset / e.blockSize + 1 + i) := by
      funext i
      rw [Function.comp_apply, Nat.succ_eq_add_one, Int.natCast_add, Int.natCast_one,
        Int.add_comm (i : Int) 1, Int.add_assoc]
    rw [hcount, List.range_succ_eq_map, List.map_cons, List.map_map, Int.natCast_zero, Int.add_zero,
      hrange, hmap, List.takeWhile_cons_of_pos (by simp; omega)]
    refine ⟨hstart, hnonneg, by omega, by omega, ?_⟩
    have hnext : offset + (e.blockSize - offset % e.blockSize) =
        (offset / e.blockSize + 1) * e.blockSize := by
      rw [Int.add_mul, Int.one_mul]
      omega
    rw [show length - (e.blockSize - offset % e.blockSize) =
      offset + length - (offset + (e.blockSize - offset % e.blockSize)) by ring, hnext]
    exact htail

end Ranges

/-! ## The shards of a block -/

theorem ceilFrac_natCast {n d : Nat} (hd : 0 < d) : ceilFrac n d = (n ⌈/⌉ d : Nat) := by
  unfold ceilFrac
  rw [if_neg hd.ne', Nat.ceilDiv_eq_add_pred_div]
  have hdiv := Nat.mod_add_div n d
  split
  next hrest =>
    have hmod : n % d ≠ 0 := by
      intro hzero
      exact hrest.2 (by exact_mod_cast hzero)
    have hlt := Nat.mod_lt n hd
    have hceil : (n + d - 1) / d = n / d + 1 := by
      rw [Nat.div_eq_iff hd, Nat.add_mul, Nat.mul_comm (n / d) d]
      omega
    rw [hceil]
    push_cast
    rfl
  next hwhole =>
    have hmod : n % d = 0 := by
      by_contra hne
      have hpos : 0 < n := Nat.pos_of_ne_zero fun hzero => by simp [hzero] at hne
      exact hwhole ⟨by exact_mod_cast hpos, by exact_mod_cast hne⟩
    have hceil : (n + d - 1) / d = n / d := by
      rw [Nat.div_eq_iff hd, Nat.mul_comm (n / d) d]
      omega
    rw [hceil]
    push_cast
    rfl

section Shards

variable {e : Erasure} {size total k : Nat}

theorem shardSize_eq (hsize : e.blockSize = size) (hdata : 0 < e.dataBlocks) :
    e.shardSize = (size ⌈/⌉ e.dataBlocks : Nat) := by
  rw [Erasure.shardSize, hsize, ceilFrac_natCast hdata]

theorem shardFileSize_eq (hsize : e.blockSize = size) (hdata : 0 < e.dataBlocks) :
    e.shardFileSize total =
      (total / size * (size ⌈/⌉ e.dataBlocks) + total % size ⌈/⌉ e.dataBlocks : Nat) := by
  unfold Erasure.shardFileSize
  split
  next hzero =>
    obtain rfl : total = 0 := by exact_mod_cast hzero
    simp
  next =>
    rw [if_neg (by omega), shardSize_eq hsize hdata, hsize]
    have hmod : ((total : Int) % (size : Int)) = ((total % size : Nat) : Int) := by push_cast; rfl
    rw [hmod, ceilFrac_natCast hdata]
    push_cast
    rfl

variable {ρ : Type} {p : ParallelReader ρ}

/-- A reader that stands at the beginning of a block. -/
structure AtBlock (e : Erasure) (total k : Nat) (p : ParallelReader ρ) : Prop where
  offset : p.offset = k * e.shardSize
  shardSize : p.shardSize = e.shardSize
  shardFileSize : p.shardFileSize = e.shardFileSize total

/-- The shard size of a block is that of its length: a shard of full size, or
what is left of the file. -/
theorem AtBlock.cutShardSize (hat : AtBlock e total k p) (hsize : e.blockSize = size)
    (hpos : 0 < size) (hdata : 0 < e.dataBlocks) (hk : k * size < total) :
    p.cutShardSize.shardSize = ((min size (total - k * size)) ⌈/⌉ e.dataBlocks : Nat) := by
  have hfile : e.shardFileSize total = _ := shardFileSize_eq hsize hdata
  have hshard := shardSize_eq hsize hdata
  obtain ⟨hoffset, hwidth, hlength⟩ := hat
  rw [hshard] at hoffset hwidth
  rw [hfile] at hlength
  unfold ParallelReader.cutShardSize
  rw [hoffset, hwidth, hlength]
  by_cases hfull : (k + 1) * size ≤ total
  · rw [Nat.min_eq_left (by rw [Nat.succ_mul] at hfull; omega)]
    have hle : (k + 1) * (size ⌈/⌉ e.dataBlocks) ≤ total / size * (size ⌈/⌉ e.dataBlocks) :=
      Nat.mul_le_mul_right _ ((Nat.le_div_iff_mul_le hpos).mpr hfull)
    rw [Nat.succ_mul] at hle
    generalize total / size * (size ⌈/⌉ e.dataBlocks) = whole at hle
    rw [if_neg (by push_cast; omega)]
    exact hwidth
  · have hquot : total / size = k := by
      rw [Nat.succ_mul] at hfull
      rw [Nat.div_eq_iff hpos]
      omega
    have hrest : total % size = total - k * size := by
      have hdiv := Nat.mod_add_div total size
      rw [hquot, Nat.mul_comm] at hdiv
      omega
    rw [Nat.succ_mul] at hfull
    rw [hquot, hrest, Nat.min_eq_right (by omega)]
    have hmono : (total - k * size) ⌈/⌉ e.dataBlocks ≤ size ⌈/⌉ e.dataBlocks :=
      (gc_smul_ceilDiv hdata).monotone_l (by omega)
    split
    next =>
      simp only
      push_cast
      ring
    next hnot =>
      rw [hwidth]
      push_cast at hnot
      omega

end Shards

end Fs3
