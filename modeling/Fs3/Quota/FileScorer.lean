import Fs3.Foundation.Covering
import Fs3.Runtime.Time

/-! # Choosing the objects a FIFO quota run deletes

A scorer keeps the files it was offered, highest score first, and drops from the back what is not
needed for the bytes to free. Scores are any values of a linear order. Counters of type `uint64`
are natural numbers below `2 ^ 64`, those of type `int64` are integers; the arithmetic on them
wraps as the source's does. -/

namespace Fs3.Quota

open Fs3.Foundation

def add64 (a b : Nat) : Nat := (a + b) % 2 ^ 64

def sub64 (a b : Nat) : Nat := (a + 2 ^ 64 - b) % 2 ^ 64

def toUint64 (n : Int) : Nat := (n % 2 ^ 64).toNat

theorem sub64_of_le {a b : Nat} (hle : b ≤ a) (ha : a < 2 ^ 64) : sub64 a b = a - b := by
  unfold sub64
  omega

theorem add64_of_fits {a b : Nat} (hfits : a + b < 2 ^ 64) : add64 a b = a + b :=
  Nat.mod_eq_of_lt hfits

variable {φ κ : Type} [LinearOrder κ] (size : φ → Nat) (score : φ → κ)

structure FileScorer (φ : Type) where
  saveBytes : Nat
  queue : List φ
  queuedBytes : Nat
  seenBytes : Nat

def newFileScorer (saveBytes : Nat) : Option (FileScorer φ) :=
  if saveBytes = 0 then none else some ⟨saveBytes, [], 0, 0⟩

namespace FileScorer

def insertFile (f : FileScorer φ) (file : φ) : FileScorer φ :=
  { f with
    queue := rankInsert score file f.queue
    queuedBytes := add64 f.queuedBytes (size file) }

/-- The loop of `trimQueue`, on the queue read from its back. -/
def trimLoop (saveBytes : Nat) : List φ → Nat → List φ × Nat
  | [], queuedBytes => ([], queuedBytes)
  | v :: rest, queuedBytes =>
    if sub64 queuedBytes (size v) < saveBytes then (v :: rest, queuedBytes)
    else trimLoop saveBytes rest (sub64 queuedBytes (size v))

def trimQueue (f : FileScorer φ) : FileScorer φ :=
  let (queue, queuedBytes) := trimLoop size f.saveBytes f.queue.reverse f.queuedBytes
  { f with queue := queue.reverse, queuedBytes := queuedBytes }

def addFileWithObjInfo (f : FileScorer φ) (file : φ) : FileScorer φ :=
  let f := { f with seenBytes := add64 f.seenBytes (size file) }
  if f.queuedBytes < f.saveBytes then (f.insertFile size score file).trimQueue size
  else
    match f.queue.getLast? with
    | some worst =>
      if score file < score worst then f else (f.insertFile size score file).trimQueue size
    | none => (f.insertFile size score file).trimQueue size

def adjustSaveBytes (f : FileScorer φ) (n : Int) : Bool × FileScorer φ :=
  if wrap64 (wrap64 f.saveBytes + n) ≤ 0 then (false, { f with saveBytes := 0 }.trimQueue size)
  else
    let saveBytes := if n < 0 then sub64 f.saveBytes (2 ^ 64 - 1 - toUint64 (wrap64 (n - 1)))
      else add64 f.saveBytes (toUint64 n)
    if saveBytes = 0 then (false, { f with saveBytes := 0, queue := [] })
    else if n < 0 then (true, { f with saveBytes := saveBytes }.trimQueue size)
    else (true, { f with saveBytes := saveBytes })

def offerAll (f : FileScorer φ) (files : List φ) : FileScorer φ :=
  files.foldl (fun f file => f.addFileWithObjInfo size score file) f

/-- The queue covers the bytes to free out of the ranking of the files offered. -/
structure Covers (f : FileScorer φ) (offered : List φ) : Prop where
  queue : f.queue = covering size f.saveBytes (ranking score offered)
  queuedBytes : f.queuedBytes = load size f.queue

theorem trimLoop_eq (saveBytes : Nat) (l : List φ) (hfits : load size l < 2 ^ 64) :
    trimLoop size saveBytes l.reverse (load size l) =
      ((covering size saveBytes l).reverse, load size (covering size saveBytes l)) := by
  induction l using List.reverseRec with
  | nil => rfl
  | append_singleton l v ih =>
    have hload : load size (l ++ [v]) = load size l + size v := by simp
    rw [List.reverse_append, List.reverse_singleton, List.singleton_append, trimLoop,
      sub64_of_le (by omega) hfits, hload, Nat.add_sub_cancel]
    split
    · rename_i hlow
      rw [covering_concat size hlow, hload]
      simp
    · rename_i hreach
      rw [covering_append size (not_lt.mp hreach), ih (by omega)]

/-- Trimming a queue whose own covering prefix is that of the ranking. -/
theorem trimQueue_covers {f : FileScorer φ} {offered : List φ}
    (hqueue : covering size f.saveBytes f.queue = covering size f.saveBytes (ranking score offered))
    (hbytes : f.queuedBytes = load size f.queue) (hfits : f.queuedBytes < 2 ^ 64) :
    (f.trimQueue size).Covers size score offered := by
  have htrim := trimLoop_eq size f.saveBytes f.queue (hbytes ▸ hfits)
  rw [← hbytes] at htrim
  constructor
  · simp [trimQueue, htrim, hqueue]
  · simp [trimQueue, htrim]

variable {size score} {f : FileScorer φ} {offered : List φ}

theorem insertFile_trim_covers (hf : f.Covers size score offered) {file : φ}
    (hfits : f.queuedBytes + size file < 2 ^ 64) :
    ((f.insertFile size score file).trimQueue size).Covers size score (offered ++ [file]) := by
  have hload : load size (rankInsert score file f.queue) = size file + load size f.queue :=
    load_perm size (List.perm_orderedInsert _ file f.queue)
  have hbytes := add64_of_fits hfits
  refine trimQueue_covers size score ?_ ?_ ?_
  · change covering size f.saveBytes (rankInsert score file f.queue) = _
    rw [ranking_concat, hf.queue]
    exact covering_orderedInsert size _ _ file _
  · rw [insertFile, hbytes, hload, hf.queuedBytes, Nat.add_comm]
  · rw [insertFile, hbytes]
    exact hfits

/-- A file below the worst of a queue that frees enough changes nothing. -/
theorem rejected_covers (hf : f.Covers size score offered) {file worst : φ}
    (henough : f.saveBytes ≤ f.queuedBytes) (hworst : f.queue.getLast? = some worst)
    (hlt : score file < score worst) : f.Covers size score (offered ++ [file]) := by
  refine ⟨?_, hf.queuedBytes⟩
  have hsorted : f.queue.Pairwise fun a b => score b ≤ score a := by
    rw [hf.queue]
    exact (isRanking_ranking score offered).descending.sublist (covering_isInitial size _ _).sublist
  have hbehind : ∀ v ∈ f.queue, ¬ score v < score file := by
    intro v hv
    obtain ⟨front, hfront⟩ := List.getLast?_eq_some_iff.mp hworst
    rw [hfront] at hv hsorted
    rcases List.mem_append.mp hv with hv | hv
    · exact not_lt.mpr (hlt.le.trans ((List.pairwise_append.mp hsorted).2.2 v hv worst (by simp)))
    · obtain rfl := List.mem_singleton.mp hv
      exact not_lt.mpr hlt.le
  have hkeep := covering_orderedInsert size (fun b c => score c < score b) f.saveBytes file
    (ranking score offered)
  rw [← hf.queue, ← List.append_nil f.queue, orderedInsert_append _ hbehind,
    covering_append size (hf.queuedBytes ▸ henough)] at hkeep
  rw [ranking_concat]
  refine Eq.trans ?_ hkeep
  rw [hf.queue, covering_covering size le_rfl]

theorem addFile_covers (hf : f.Covers size score offered) {file : φ}
    (hfits : f.queuedBytes + size file < 2 ^ 64) :
    (f.addFileWithObjInfo size score file).Covers size score (offered ++ [file]) := by
  have hseen : Covers size score { f with seenBytes := add64 f.seenBytes (size file) } offered :=
    ⟨hf.queue, hf.queuedBytes⟩
  have hinsert := insertFile_trim_covers hseen hfits
  rw [addFileWithObjInfo]
  split
  · exact hinsert
  · rename_i henough
    split
    · rename_i worst hworst
      split
      · rename_i hlt
        exact rejected_covers hseen (not_lt.mp henough) hworst hlt
      · exact hinsert
    · exact hinsert

variable (size score) in
theorem addFile_saveBytes (f : FileScorer φ) (file : φ) :
    (f.addFileWithObjInfo size score file).saveBytes = f.saveBytes := by
  rw [addFileWithObjInfo]
  split
  · rfl
  · split
    · split <;> rfl
    · rfl

variable (size score) in
theorem addFile_seenBytes (f : FileScorer φ) (file : φ) :
    (f.addFileWithObjInfo size score file).seenBytes = add64 f.seenBytes (size file) := by
  rw [addFileWithObjInfo]
  split
  · rfl
  · split
    · split <;> rfl
    · rfl

theorem Covers.queuedBytes_le (hf : f.Covers size score offered) :
    f.queuedBytes ≤ load size offered := by
  rw [hf.queuedBytes, hf.queue, ← load_perm size (isRanking_ranking score offered).perm]
  exact load_sublist size (covering_isInitial size _ _).sublist

/-- Files whose sizes fit a counter together keep the queue covering. -/
theorem offerAll_covers (hf : f.Covers size score offered) (files : List φ)
    (hfits : load size (offered ++ files) < 2 ^ 64) :
    (f.offerAll size score files).Covers size score (offered ++ files) := by
  induction files generalizing f offered with
  | nil => simpa [offerAll] using hf
  | cons file files ih =>
    have hload := hf.queuedBytes_le
    rw [load_append, load_cons] at hfits
    rw [List.append_cons]
    exact ih (addFile_covers hf (by omega)) (by simp; omega)

variable (size score) in
theorem offerAll_saveBytes (f : FileScorer φ) (files : List φ) :
    (f.offerAll size score files).saveBytes = f.saveBytes := by
  induction files generalizing f with
  | nil => rfl
  | cons file files ih => exact (ih _).trans (addFile_saveBytes size score f file)

variable (size score) in
theorem offerAll_seenBytes (f : FileScorer φ) (files : List φ)
    (hfits : f.seenBytes + load size files < 2 ^ 64) :
    (f.offerAll size score files).seenBytes = f.seenBytes + load size files := by
  induction files generalizing f with
  | nil => rfl
  | cons file files ih =>
    rw [load_cons] at hfits ⊢
    have hseen := (addFile_seenBytes size score f file).trans
      (add64_of_fits (b := size file) (by omega))
    refine (ih (f.addFileWithObjInfo size score file) (by omega)).trans ?_
    omega

variable (size score) in
/-- What a scorer that was new holds once all files were offered. -/
theorem offerAll_new (saveBytes : Nat) {files : List φ} (hfits : load size files < 2 ^ 64) :
    (offerAll size score ⟨saveBytes, [], 0, 0⟩ files).Covers size score files ∧
      (offerAll size score ⟨saveBytes, [], 0, 0⟩ files).saveBytes = saveBytes ∧
      (offerAll size score ⟨saveBytes, [], 0, 0⟩ files).seenBytes = load size files := by
  refine ⟨@offerAll_covers _ _ _ size score _ [] ⟨rfl, rfl⟩ files hfits,
    offerAll_saveBytes size score _ files, ?_⟩
  simpa using offerAll_seenBytes size score ⟨saveBytes, [], 0, 0⟩ files (by simpa using hfits)

/-- A reduction leaves the covering of the bytes still to free. -/
theorem adjustSaveBytes_covers (hf : f.Covers size score offered) {n : Int} (hn : n ≤ 0)
    (hlow : -2 ^ 63 ≤ n) (hsave : f.saveBytes < 2 ^ 63) (hfits : f.queuedBytes < 2 ^ 64) :
    (f.adjustSaveBytes size n).2.Covers size score offered ∧
      (f.adjustSaveBytes size n).2.saveBytes = (f.saveBytes + n).toNat ∧
      ((f.adjustSaveBytes size n).1 = true ↔ 0 < f.saveBytes + n) := by
  have hwrap : wrap64 (wrap64 f.saveBytes + n) = f.saveBytes + n := by
    rw [wrap64_of_fits (n := (f.saveBytes : Int)) (by omega) (by omega),
      wrap64_of_fits (by omega) (by omega)]
  have htrim (need : Nat) (hle : need ≤ f.saveBytes) :
      ({ f with saveBytes := need }.trimQueue size).Covers size score offered := by
    refine trimQueue_covers size score ?_ hf.queuedBytes hfits
    change covering size need f.queue = _
    rw [hf.queue, covering_covering size hle]
  rw [adjustSaveBytes, hwrap]
  split
  · exact ⟨htrim 0 (Nat.zero_le _), (Int.toNat_of_nonpos ‹_›).symm, by simp; omega⟩
  · rename_i hpos
    have hsave' : ¬ f.saveBytes = 0 := by omega
    by_cases hneg : n < 0
    · have hsub : sub64 f.saveBytes (2 ^ 64 - 1 - toUint64 (wrap64 (n - 1))) =
          (f.saveBytes + n).toNat := by
        rw [wrap64_of_fits (by omega) (by omega), sub64, toUint64]
        omega
      have hleft : ¬ (f.saveBytes + n).toNat = 0 := by omega
      simp only [if_pos hneg, hsub, if_neg hleft]
      exact ⟨htrim _ (by omega), rfl, by simp; omega⟩
    · obtain rfl : n = 0 := by omega
      have hadd : add64 f.saveBytes (toUint64 0) = f.saveBytes := by
        rw [toUint64, add64]
        omega
      simp only [if_neg hneg, hadd, if_neg hsave']
      exact ⟨hf, by simp, by simp; omega⟩

end FileScorer

end Fs3.Quota
