import Mathlib.Algebra.Order.Floor.Div
import Mathlib.Tactic.Ring

/-! # Lists cut into chunks

A list is cut into chunks of one size, the last of which may be short, and each chunk is worked on
by itself. -/

namespace Fs3.Foundation

variable {α β : Type*}

/-- The `k`-th chunk of a list. -/
def chunk (size : Nat) (xs : List α) (k : Nat) : List α := (xs.drop (k * size)).take size

@[simp]
theorem chunk_zero (size : Nat) (xs : List α) : chunk size xs 0 = xs.take size := by
  rw [chunk, Nat.zero_mul, List.drop_zero]

theorem chunk_drop (size : Nat) (xs : List α) (k : Nat) :
    chunk size (xs.drop size) k = chunk size xs (k + 1) := by
  rw [chunk, chunk, List.drop_drop]
  congr 2
  ring

theorem length_chunk (size : Nat) (xs : List α) (k : Nat) :
    (chunk size xs k).length = min size (xs.length - k * size) := by
  rw [chunk, List.length_take, List.length_drop]

theorem chunk_slice {size start length : Nat} (hle : start + length ≤ size) (xs : List α)
    (k : Nat) :
    ((chunk size xs k).drop start).take length = (xs.drop (k * size + start)).take length := by
  rw [chunk, List.drop_take, List.drop_drop, List.take_take, Nat.min_eq_left (by omega)]

theorem slice_append (xs : List α) (start first second : Nat) :
    (xs.drop start).take first ++ (xs.drop (start + first)).take second =
      (xs.drop start).take (first + second) := by
  rw [List.take_add, List.drop_drop]

def eachChunk (size : Nat) (f : List α → List β) (xs : List α) : List β :=
  (List.range (xs.length ⌈/⌉ size)).flatMap fun k => f (chunk size xs k)

section EachChunk

variable {size width : Nat} {f : List α → List β} {xs : List α}

@[simp]
theorem eachChunk_nil : eachChunk size f [] = [] := by
  rw [eachChunk, List.length_nil, zero_ceilDiv]
  rfl

theorem length_ceilDiv (hsize : 0 < size) (hne : xs ≠ []) :
    xs.length ⌈/⌉ size = (xs.drop size).length ⌈/⌉ size + 1 := by
  have hpos := List.length_pos_of_ne_nil hne
  rw [List.length_drop, Nat.ceilDiv_eq_add_pred_div, Nat.ceilDiv_eq_add_pred_div]
  rcases Nat.le_total size xs.length with hle | hle
  · rw [← Nat.add_div_right _ hsize]
    congr 1
    omega
  · rw [Nat.sub_eq_zero_of_le hle, Nat.zero_add, Nat.div_eq_of_lt (Nat.sub_lt hsize one_pos)]
    rw [Nat.div_eq_iff hsize]
    omega

theorem eachChunk_step (hsize : 0 < size) (hne : xs ≠ []) :
    eachChunk size f xs = f (xs.take size) ++ eachChunk size f (xs.drop size) := by
  rw [eachChunk, length_ceilDiv hsize hne, List.range_succ_eq_map, List.flatMap_cons, chunk_zero,
    List.flatMap_map, eachChunk]
  congr 2
  funext k
  rw [chunk_drop]

theorem eachChunk_of_length_le (hsize : 0 < size) (hnil : f [] = []) (hle : xs.length ≤ size) :
    eachChunk size f xs = f xs := by
  by_cases hne : xs = []
  · subst hne
    rw [eachChunk_nil, hnil]
  · rw [eachChunk_step hsize hne, List.take_of_length_le hle, List.drop_of_length_le hle,
      eachChunk_nil, List.append_nil]

theorem eachChunk_slice (hsize : 0 < size) {k : Nat} (hk : k * size < xs.length)
    (hwidth : ∀ j, (j + 1) * size ≤ xs.length → (f (chunk size xs j)).length = width) :
    ((eachChunk size f xs).drop (k * width)).take (f (chunk size xs k)).length =
      f (chunk size xs k) := by
  have hne : xs ≠ [] := List.ne_nil_of_length_pos (Nat.lt_of_le_of_lt (Nat.zero_le _) hk)
  induction k generalizing xs with
  | zero => rw [eachChunk_step hsize hne, chunk_zero, Nat.zero_mul, List.drop_zero, List.take_left]
  | succ k ih =>
    rw [Nat.succ_mul] at hk
    have hfirst : (f (xs.take size)).length = width := by
      rw [← chunk_zero]
      exact hwidth 0 (by omega)
    have hrest : k * size < (xs.drop size).length := by
      rw [List.length_drop]
      omega
    have hslice := ih hrest (fun j hj => ?_)
      (List.ne_nil_of_length_pos (Nat.lt_of_le_of_lt (Nat.zero_le _) hrest))
    · rw [chunk_drop] at hslice
      rw [eachChunk_step hsize hne, show (k + 1) * width = width + k * width by ring,
        ← List.drop_drop, ← hfirst, List.drop_left, hfirst]
      exact hslice
    · rw [List.length_drop] at hj
      rw [chunk_drop]
      refine hwidth (j + 1) ?_
      rw [Nat.succ_mul]
      omega

end EachChunk

end Fs3.Foundation

/-! ## Streams of packages

A list is packed chunk by chunk, each chunk under its sequence number, into packages
that are longer than the chunk by a fixed overhead. A run of whole packages that
starts with the right sequence number opens to the chunks it was made of.
-/

namespace Fs3.Foundation

variable {α β : Type*}

def chunks (size : Nat) (xs : List α) : List (List α) :=
  (List.range (xs.length ⌈/⌉ size)).map (chunk size xs)

section Chunks

variable {size : Nat} {xs : List α}

@[simp]
theorem chunks_nil : chunks size ([] : List α) = [] := by
  rw [chunks, List.length_nil, zero_ceilDiv]
  rfl

theorem chunks_step (hsize : 0 < size) (hne : xs ≠ []) :
    chunks size xs = xs.take size :: chunks size (xs.drop size) := by
  rw [chunks, length_ceilDiv hsize hne, List.range_succ_eq_map, List.map_cons, chunk_zero,
    List.map_map, chunks]
  congr 2
  funext k
  rw [Function.comp_apply, chunk_drop]

theorem chunks_induction (hsize : 0 < size) {motive : List α → Prop} (nil : motive [])
    (step : ∀ xs, xs ≠ [] → motive (xs.drop size) → motive xs) (xs : List α) : motive xs := by
  induction hlength : xs.length using Nat.strong_induction_on generalizing xs with
  | h n ih =>
    by_cases hne : xs = []
    · rw [hne]
      exact nil
    · have hpos := List.length_pos_of_ne_nil hne
      refine step xs hne (ih (xs.length - size) (by omega) _ ?_)
      rw [List.length_drop]

theorem flatten_chunks (hsize : 0 < size) (xs : List α) : (chunks size xs).flatten = xs := by
  induction xs using chunks_induction hsize with
  | nil => rw [chunks_nil, List.flatten_nil]
  | step xs hne ih => rw [chunks_step hsize hne, List.flatten_cons, ih, List.take_append_drop]

theorem eq_of_chunk_eq (hsize : 0 < size) {xs ys : List α} (hlength : xs.length = ys.length)
    (hchunk : ∀ k, chunk size xs k = chunk size ys k) : xs = ys := by
  rw [← flatten_chunks hsize xs, ← flatten_chunks hsize ys, chunks, chunks, hlength]
  congr 2
  funext k
  exact hchunk k

theorem chunk_mem_chunks (hsize : 0 < size) {xs : List α} {k : Nat} (hk : k * size < xs.length) :
    chunk size xs k ∈ chunks size xs := by
  refine List.mem_map.mpr ⟨k, List.mem_range.mpr ?_, rfl⟩
  rw [← Nat.not_le, ceilDiv_le_iff_le_smul hsize, smul_eq_mul, Nat.mul_comm]
  omega

theorem chunks_drop (hsize : 0 < size) (k : Nat) (xs : List α) :
    chunks size (xs.drop (k * size)) = (chunks size xs).drop k := by
  induction k generalizing xs with
  | zero => rw [Nat.zero_mul, List.drop_zero, List.drop_zero]
  | succ k ih =>
    by_cases hne : xs = []
    · rw [hne, List.drop_nil, chunks_nil, List.drop_nil]
    · rw [chunks_step hsize hne, List.drop_succ_cons, ← ih, List.drop_drop, Nat.succ_mul,
        Nat.add_comm]

theorem chunks_take (hsize : 0 < size) (k : Nat) (xs : List α) :
    chunks size (xs.take (k * size)) = (chunks size xs).take k := by
  induction k generalizing xs with
  | zero => rw [Nat.zero_mul, List.take_zero, List.take_zero, chunks_nil]
  | succ k ih =>
    by_cases hne : xs = []
    · rw [hne, List.take_nil, chunks_nil, List.take_nil]
    · have htake : xs.take ((k + 1) * size) ≠ [] := by
        rw [Nat.succ_mul, ne_eq, List.take_eq_nil_iff]
        exact not_or.mpr ⟨by omega, hne⟩
      rw [chunks_step hsize hne, List.take_succ_cons, chunks_step hsize htake, List.take_take,
        List.drop_take, ← ih, Nat.min_eq_left (by rw [Nat.succ_mul]; omega)]
      congr 3
      rw [Nat.succ_mul, Nat.add_sub_cancel]

end Chunks

def packFrom (pack : Nat → List α → List β) (n : Nat) : List (List α) → List (List β)
  | [] => []
  | c :: cs => pack n c :: packFrom pack (n + 1) cs

def packages (pack : Nat → List α → List β) (size n : Nat) (xs : List α) : List (List β) :=
  packFrom pack n (chunks size xs)

def unpackFrom (unpack : Nat → List β → Option (List α)) (n : Nat) : List (List β) → List α
  | [] => []
  | p :: ps =>
    match unpack n p with
    | none => []
    | some c => c ++ unpackFrom unpack (n + 1) ps

/-- Reads a stream of packages of one width, the last of which may be shorter. -/
def openStream (unpack : Nat → List β → Option (List α)) (width n : Nat) (ys : List β) : List α :=
  unpackFrom unpack n (chunks width ys)

section Packages

variable {pack : Nat → List α → List β} {unpack : Nat → List β → Option (List α)}
  {size overhead n : Nat}

theorem length_packFrom (cs : List (List α)) : (packFrom pack n cs).length = cs.length := by
  induction cs generalizing n with
  | nil => rfl
  | cons c cs ih => rw [packFrom, List.length_cons, List.length_cons, ih]

theorem packFrom_drop (k : Nat) (cs : List (List α)) :
    packFrom pack (n + k) (cs.drop k) = (packFrom pack n cs).drop k := by
  induction k generalizing n cs with
  | zero => rw [Nat.add_zero, List.drop_zero, List.drop_zero]
  | succ k ih =>
    cases cs with
    | nil => rfl
    | cons c cs =>
      rw [List.drop_succ_cons, packFrom, List.drop_succ_cons, ← ih, Nat.add_right_comm,
        Nat.add_assoc]

theorem packFrom_take (k : Nat) (cs : List (List α)) :
    packFrom pack n (cs.take k) = (packFrom pack n cs).take k := by
  induction k generalizing n cs with
  | zero => rfl
  | succ k ih =>
    cases cs with
    | nil => rfl
    | cons c cs => rw [List.take_succ_cons, packFrom, packFrom, List.take_succ_cons, ih]

theorem packages_const (f : List α → List β) (n : Nat) (xs : List α) :
    packages (fun _ => f) size n xs = (chunks size xs).map f := by
  rw [packages]
  generalize chunks size xs = cs
  induction cs generalizing n with
  | nil => rfl
  | cons c cs ih => rw [packFrom, ih, List.map_cons]

@[simp]
theorem packages_nil : packages pack size n [] = [] := by
  rw [packages, chunks_nil, packFrom]

theorem packages_step (hsize : 0 < size) {xs : List α} (hne : xs ≠ []) :
    packages pack size n xs =
      pack n (xs.take size) :: packages pack size (n + 1) (xs.drop size) := by
  rw [packages, chunks_step hsize hne, packFrom, packages]

theorem packages_drop (hsize : 0 < size) (k : Nat) (xs : List α) :
    packages pack size (n + k) (xs.drop (k * size)) = (packages pack size n xs).drop k := by
  rw [packages, chunks_drop hsize, packFrom_drop, packages]

theorem packages_take (hsize : 0 < size) (k : Nat) (xs : List α) :
    packages pack size n (xs.take (k * size)) = (packages pack size n xs).take k := by
  rw [packages, chunks_take hsize, packFrom_take, packages]

section Lengths

variable (hsize : 0 < size) (hlength : ∀ n c, (pack n c).length = c.length + overhead)
include hsize hlength

theorem length_packages (xs : List α) :
    (packages pack size n xs).flatten.length = xs.length + overhead * (xs.length ⌈/⌉ size) := by
  induction xs using chunks_induction hsize generalizing n with
  | nil => simp
  | step xs hne ih =>
    rw [packages_step hsize hne, List.flatten_cons, List.length_append, hlength, ih,
      length_ceilDiv hsize hne, List.length_take, List.length_drop, Nat.mul_succ]
    omega

theorem chunks_packages (xs : List α) :
    chunks (size + overhead) (packages pack size n xs).flatten = packages pack size n xs := by
  have hwidth : 0 < size + overhead := Nat.add_pos_left hsize _
  induction xs using chunks_induction hsize generalizing n with
  | nil => simp
  | step xs hne ih =>
    have hpos := List.length_pos_of_ne_nil hne
    rw [packages_step hsize hne, List.flatten_cons]
    have hhead := hlength n (xs.take size)
    rw [List.length_take] at hhead
    have hstream : pack n (xs.take size) ++ (packages pack size (n + 1) (xs.drop size)).flatten ≠
        [] := by
      intro hnil
      rw [(List.append_eq_nil_iff.mp hnil).1, List.length_nil] at hhead
      omega
    rw [chunks_step hwidth hstream]
    rcases Nat.le_total size xs.length with hle | hle
    · have hfull : (pack n (xs.take size)).length = size + overhead := by omega
      rw [← hfull, List.take_left, List.drop_left, hfull, ih]
    · have hrest : xs.drop size = [] := List.drop_of_length_le hle
      rw [hrest, packages_nil, List.flatten_nil, List.append_nil,
        List.take_of_length_le (by omega), List.drop_of_length_le (by omega), chunks_nil]

theorem openStream_packages (hunpack : ∀ n c, c.length ≤ size → unpack n (pack n c) = some c)
    (xs : List α) :
    openStream unpack (size + overhead) n (packages pack size n xs).flatten = xs := by
  rw [openStream, chunks_packages hsize hlength]
  induction xs using chunks_induction hsize generalizing n with
  | nil => simp [unpackFrom]
  | step xs hne ih =>
    have hle : (xs.take size).length ≤ size := by
      rw [List.length_take]
      exact Nat.min_le_left _ _
    rw [packages_step hsize hne, unpackFrom, hunpack _ _ hle]
    dsimp only
    rw [ih, List.take_append_drop]

theorem length_take_packages {k : Nat} {xs : List α} (hk : k * size ≤ xs.length) :
    ((packages pack size n xs).take k).flatten.length = k * (size + overhead) := by
  have hceil : size * k ⌈/⌉ size = k := smul_ceilDiv hsize k
  rw [← packages_take hsize, length_packages hsize hlength, List.length_take,
    Nat.min_eq_left hk, Nat.mul_comm k size, hceil]
  ring

end Lengths

end Packages

end Fs3.Foundation
