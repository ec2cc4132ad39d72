import Fs3.Foundation.Histories
import Mathlib.Algebra.Order.BigOperators.Group.List
import Mathlib.Algebra.Ring.Int.Defs

/-! # Counters of replication

`ReplicationStats.Update` finds or makes the record of a bucket, adjusts it, and stores it in the
map: three steps, between which other calls take theirs. -/

namespace Fs3.ReplicationStats

open Foundation

inductive StatusType where
  | unset
  | pending
  | completed
  | failed
  | replica
  deriving DecidableEq

inductive OpType where
  | unset
  | object
  | delete
  | metadata
  | heal
  | existingObject
  deriving DecidableEq

structure BucketReplicationStats where
  failedSize : Int := 0
  failedCount : Int := 0
  replicatedSize : Int := 0
  replicaSize : Int := 0
  deriving DecidableEq

/-- A call of `Update`, and the version that it is about. -/
structure UpdateCall (β ν : Type) where
  bucket : β
  version : ν
  n : Int
  status : StatusType
  prevStatus : StatusType
  opType : OpType

/-- `atomic.AddUint64`: adding `^uint64(n-1)` subtracts `n`. -/
def addUint64 (x n : Int) : Int := (x + n) % 2 ^ 64

variable {τ β ν : Type}

/-- The adjustments of a call, each of which is atomic and of another counter. -/
def BucketReplicationStats.adjust (b : BucketReplicationStats) (call : UpdateCall β ν) :
    BucketReplicationStats :=
  match call.status with
  | .completed =>
    { b with
      failedCount :=
        if call.prevStatus = .failed then addUint64 b.failedCount (-1) else b.failedCount
      replicatedSize :=
        if call.opType = .object then addUint64 b.replicatedSize call.n else b.replicatedSize
      failedSize :=
        if call.opType = .object ∧ call.prevStatus = .failed then addUint64 b.failedSize (-call.n)
        else b.failedSize }
  | .failed =>
    if call.opType = .object ∧ call.prevStatus = .pending then
      { b with
        failedSize := addUint64 b.failedSize call.n
        failedCount := addUint64 b.failedCount 1 }
    else b
  | .replica =>
    if call.opType = .object then { b with replicaSize := addUint64 b.replicaSize call.n } else b
  | _ => b

def BucketReplicationStats.Wraps (b : BucketReplicationStats) (call : UpdateCall β ν) : Prop :=
  call.status = .completed ∧ call.prevStatus = .failed ∧
    (b.failedCount < 1 ∨ call.opType = .object ∧ b.failedSize < call.n)

def recordOutcome [DecidableEq ν] (failures : List (ν × Int)) (call : UpdateCall β ν) : List (ν × Int) :=
  match call.status with
  | .completed => failures.filter (·.1 ≠ call.version)
  | .failed => (call.version, call.n) :: failures.filter (·.1 ≠ call.version)
  | _ => failures

/-- A completed version was counted as failed, with the size that is subtracted, exactly when its
previous status says so; a failed one is a pending object that is not counted yet, or is counted
already and not an object that was pending. -/
def Balanced (failures : List (ν × Int)) (call : UpdateCall β ν) : Prop :=
  (call.status = .completed →
    if call.prevStatus = .failed then
      (call.version, if call.opType = .object then call.n else 0) ∈ failures
    else call.version ∉ failures.map Prod.fst) ∧
  (call.status = .failed →
    if call.opType = .object ∧ call.prevStatus = .pending then
      call.version ∉ failures.map Prod.fst
    else (call.version, call.n) ∈ failures)

/-- The sizes are sizes, and their sums are in range. -/
structure InRange [DecidableEq ν] (failures : List (ν × Int)) (call : UpdateCall β ν) : Prop where
  size : 0 ≤ call.n
  count : ((recordOutcome failures call).length : Int) < 2 ^ 64
  sum : ((recordOutcome failures call).map Prod.snd).sum < 2 ^ 64

/-- The failures that are counted. -/
structure Counts (b : BucketReplicationStats) (failures : List (ν × Int)) : Prop where
  count : b.failedCount = failures.length
  size : b.failedSize = (failures.map Prod.snd).sum
  nodup : (failures.map Prod.fst).Nodup
  sizes : ∀ failure ∈ failures, 0 ≤ failure.2
  inCount : (failures.length : Int) < 2 ^ 64
  inSize : (failures.map Prod.snd).sum < 2 ^ 64

variable {failures : List (ν × Int)}

theorem filter_of_notMem [DecidableEq ν] {version : ν} (hnot : version ∉ failures.map Prod.fst) :
    failures.filter (·.1 ≠ version) = failures := by
  rw [List.filter_eq_self]
  intro failure hmem
  refine decide_eq_true fun heq => hnot ?_
  exact heq ▸ List.mem_map_of_mem hmem

/-- A version that is counted stands apart from the others. -/
theorem perm_of_mem [DecidableEq ν] (hnodup : (failures.map Prod.fst).Nodup) {version : ν}
    {size : Int} (hmem : (version, size) ∈ failures) :
    failures.Perm ((version, size) :: failures.filter (·.1 ≠ version)) := by
  induction failures with
  | nil => cases hmem
  | cons failure failures ih =>
    obtain ⟨hnot, hnodup⟩ := List.nodup_cons.mp hnodup
    rcases List.mem_cons.mp hmem with rfl | hrest
    · rw [List.filter_cons_of_neg (by simp), filter_of_notMem hnot]
    · have hne : failure.1 ≠ version := fun heq => hnot (heq ▸ List.mem_map_of_mem hrest)
      rw [List.filter_cons_of_pos (by simpa using hne)]
      exact ((ih hnodup hrest).cons failure).trans (List.Perm.swap ..)

theorem sum_sizes_nonneg (hsizes : ∀ failure ∈ failures, 0 ≤ failure.2) :
    0 ≤ (failures.map Prod.snd).sum := by
  refine List.sum_nonneg fun x hx => ?_
  obtain ⟨failure, hmem, rfl⟩ := List.mem_map.mp hx
  exact hsizes failure hmem

variable {b : BucketReplicationStats}

/-- One failure less, and its size. -/
theorem Counts.of_cons (b' : BucketReplicationStats) {version : ν} {size : Int}
    (hcounts : Counts b ((version, size) :: failures)) :
    (b'.failedCount = b.failedCount - 1 → b'.failedSize = b.failedSize - size →
      Counts b' failures) ∧ 1 ≤ b.failedCount ∧ size ≤ b.failedSize := by
  obtain ⟨hcount, hsize, hnodup, hsizes, hinCount, hinSize⟩ := hcounts
  obtain ⟨hfirst, hall⟩ := List.forall_mem_cons.mp hsizes
  have hpos := sum_sizes_nonneg hall
  rw [List.map_cons, List.sum_cons] at hsize hinSize
  rw [List.length_cons] at hcount hinCount
  exact ⟨fun hcount' hsize' => ⟨by omega, by omega, (List.nodup_cons.mp hnodup).2, hall, by omega,
    by omega⟩, by omega, by omega⟩

theorem Counts.perm {failures failures' : List (ν × Int)} (hcounts : Counts b failures)
    (hperm : failures.Perm failures') : Counts b failures' := by
  obtain ⟨hcount, hsize, hnodup, hsizes, hinCount, hinSize⟩ := hcounts
  have hlength := hperm.length_eq
  have hsum := (hperm.map Prod.snd).sum_eq
  exact ⟨by omega, by omega, (hperm.map Prod.fst).nodup_iff.mp hnodup,
    fun failure hmem => hsizes failure (hperm.mem_iff.mpr hmem), by omega, by omega⟩

theorem emod_of_range {x : Int} (hpos : 0 ≤ x) (hless : x < 2 ^ 64) : x % 2 ^ 64 = x :=
  Int.emod_eq_of_lt hpos hless

variable {call : UpdateCall β ν}

theorem Counts.adjust [DecidableEq ν] (hcounts : Counts b failures)
    (hbalanced : Balanced failures call) (hrange : InRange failures call) :
    Counts (b.adjust call) (recordOutcome failures call) ∧ ¬ b.Wraps call := by
  obtain ⟨bucket, version, n, status, prevStatus, opType⟩ := call
  obtain ⟨hpos, hinCount, hinSize⟩ := hrange
  obtain ⟨hcompleted, hfailed⟩ := hbalanced
  have hcount := hcounts.count
  have hsize := hcounts.size
  have hless := hcounts.inCount
  have hlessSize := hcounts.inSize
  change 0 ≤ n at hpos
  cases status with
  | completed =>
    have hbalance := hcompleted rfl
    simp only at hbalance
    split at hbalance
    next hprev =>
      obtain ⟨hnext, hone, hmore⟩ := (hcounts.perm (perm_of_mem hcounts.nodup hbalance)).of_cons
        (b.adjust ⟨bucket, version, n, .completed, prevStatus, opType⟩)
      refine ⟨hnext ?_ ?_, fun hwraps => ?_⟩
      · simp only [BucketReplicationStats.adjust, hprev, if_true, addUint64]
        rw [emod_of_range (by omega) (by omega)]
        omega
      · simp only [BucketReplicationStats.adjust, hprev, and_true, addUint64]
        split
        next hobject =>
          rw [if_pos hobject] at hmore
          rw [emod_of_range (by omega) (by omega)]
          omega
        next => omega
      · rcases hwraps.2.2 with hbelow | ⟨hobject, hbelow⟩
        · omega
        · rw [if_pos hobject] at hmore
          exact absurd hmore (Int.not_le.mpr hbelow)
    next hprev =>
      refine ⟨?_, fun hwraps => hprev hwraps.2.1⟩
      simp only [recordOutcome, filter_of_notMem hbalance]
      refine ⟨?_, ?_, hcounts.nodup, hcounts.sizes, hless, hlessSize⟩
      · simpa only [BucketReplicationStats.adjust, hprev, if_false] using hcount
      · simpa only [BucketReplicationStats.adjust, hprev, and_false, if_false] using hsize
  | failed =>
    have hbalance := hfailed rfl
    refine ⟨?_, fun hwraps => by cases hwraps.1⟩
    simp only at hbalance
    split at hbalance
    next hpending =>
      have hrecord : recordOutcome failures ⟨bucket, version, n, .failed, prevStatus, opType⟩ =
          (version, n) :: failures := by
        rw [recordOutcome, filter_of_notMem hbalance]
      rw [hrecord] at hinCount hinSize ⊢
      rw [List.length_cons] at hinCount
      rw [List.map_cons, List.sum_cons] at hinSize
      have hsum := sum_sizes_nonneg hcounts.sizes
      have hcount' : addUint64 b.failedCount 1 = b.failedCount + 1 :=
        emod_of_range (by omega) (by omega)
      have hsize' : addUint64 b.failedSize n = b.failedSize + n :=
        emod_of_range (by omega) (by omega)
      simp only [BucketReplicationStats.adjust, if_pos hpending, hcount', hsize']
      refine ⟨?_, ?_, ?_, ?_, ?_, ?_⟩
      · rw [List.length_cons, hcount]
        rfl
      · rw [List.map_cons, List.sum_cons, hsize, Int.add_comm]
      · exact List.nodup_cons.mpr ⟨hbalance, hcounts.nodup⟩
      · exact List.forall_mem_cons.mpr ⟨hpos, hcounts.sizes⟩
      · rw [List.length_cons]
        exact hinCount
      · rw [List.map_cons, List.sum_cons]
        exact hinSize
    next hcounted =>
      -- the version keeps its place among the failures
      simp only [BucketReplicationStats.adjust, if_neg hcounted]
      exact hcounts.perm (perm_of_mem hcounts.nodup hbalance)
  | replica =>
    refine ⟨?_, fun hwraps => by cases hwraps.1⟩
    simp only [BucketReplicationStats.adjust, recordOutcome]
    split
    next => exact ⟨hcount, hsize, hcounts.nodup, hcounts.sizes, hless, hlessSize⟩
    next => exact hcounts
  | unset => exact ⟨hcounts, fun hwraps => by cases hwraps.1⟩
  | pending => exact ⟨hcounts, fun hwraps => by cases hwraps.1⟩

inductive Phase (β ν : Type) where
  | idle
  | found (call : UpdateCall β ν) (b : Nat)
  | adjusted (call : UpdateCall β ν) (b : Nat)

def Phase.On (phase : Phase β ν) (bucket : β) (b : Nat) : Prop :=
  ∃ call : UpdateCall β ν, call.bucket = bucket ∧
    (phase = .found call b ∨ phase = .adjusted call b)

/-- The records by their addresses, and what the calls so far add up to: all their adjustments,
made to one record for each bucket, and the versions whose last outcome is a failure. -/
structure State (τ β ν : Type) where
  cache : β → Option Nat
  records : Nat → BucketReplicationStats
  next : Nat
  phase : τ → Phase β ν
  total : β → BucketReplicationStats
  failures : β → List (ν × Int)
  wrapped : Prop

namespace State

def Uses (s : State τ β ν) (t : τ) (bucket : β) (b : Nat) : Prop := (s.phase t).On bucket b

def lookup [DecidableEq τ] (s : State τ β ν) (t : τ) (call : UpdateCall β ν) : State τ β ν :=
  match s.cache call.bucket with
  | some b => { s with phase := Function.update s.phase t (.found call b) }
  | none =>
    { s with
      next := s.next + 1
      phase := Function.update s.phase t (.found call s.next) }

def adjust [DecidableEq τ] [DecidableEq β] [DecidableEq ν] (s : State τ β ν) (t : τ)
    (call : UpdateCall β ν) (b : Nat) : State τ β ν :=
  { s with
    records := Function.update s.records b ((s.records b).adjust call)
    phase := Function.update s.phase t (.adjusted call b)
    total := Function.update s.total call.bucket ((s.total call.bucket).adjust call)
    failures := Function.update s.failures call.bucket (recordOutcome (s.failures call.bucket) call)
    wrapped := s.wrapped ∨ (s.records b).Wraps call }

def store [DecidableEq τ] [DecidableEq β] (s : State τ β ν) (t : τ) (call : UpdateCall β ν)
    (b : Nat) : State τ β ν :=
  { s with
    cache := Function.update s.cache call.bucket (some b)
    phase := Function.update s.phase t .idle }

/-- `ReplicationStats.Get` -/
def get (s : State τ β ν) (bucket : β) : BucketReplicationStats :=
  match s.cache bucket with
  | some b => s.records b
  | none => {}

end State

open State

/-- With `guarded`, the first call for a bucket is over before the next one starts, and calls are
balanced. -/
inductive Step [DecidableEq τ] [DecidableEq β] [DecidableEq ν] (guarded : Bool)
    (s : State τ β ν) : State τ β ν → Prop
  | lookup (t : τ) (call : UpdateCall β ν) (hidle : s.phase t = .idle)
      (hfirst : guarded = true → s.cache call.bucket = none →
        ∀ t' b, ¬ s.Uses t' call.bucket b) : Step guarded s (s.lookup t call)
  | adjust (t : τ) (call : UpdateCall β ν) (b : Nat) (hphase : s.phase t = .found call b)
      (hbalanced : guarded = true → Balanced (s.failures call.bucket) call ∧
        InRange (s.failures call.bucket) call) : Step guarded s (s.adjust t call b)
  | store (t : τ) (call : UpdateCall β ν) (b : Nat) (hphase : s.phase t = .adjusted call b) :
      Step guarded s (s.store t call b)

/-- No counter has wrapped, and the record of a bucket without calls in flight has all updates
and counts the failures. -/
structure Sound (s : State τ β ν) : Prop where
  noWrap : ¬ s.wrapped
  noLoss : ∀ bucket, (∀ t b, ¬ s.Uses t bucket b) → s.get bucket = s.total bucket
  count : ∀ bucket, (s.total bucket).failedCount = (s.failures bucket).length
  size : ∀ bucket, (s.total bucket).failedSize = ((s.failures bucket).map Prod.snd).sum

/-! ## One record for each bucket -/

/-- The record that a bucket has in the map, or that a call is about to store there. -/
def Of (s : State τ β ν) (bucket : β) (b : Nat) : Prop :=
  s.cache bucket = some b ∨ ∃ t, s.Uses t bucket b

structure Inv (s : State τ β ν) : Prop where
  noWrap : ¬ s.wrapped
  counts : ∀ bucket, Counts (s.total bucket) (s.failures bucket)
  allocated : ∀ bucket b, Of s bucket b → b < s.next
  total : ∀ bucket b, Of s bucket b → s.records b = s.total bucket
  oneRecord : ∀ bucket b b', Of s bucket b → Of s bucket b' → b = b'
  oneBucket : ∀ bucket bucket' b, Of s bucket b → Of s bucket' b → bucket = bucket'
  unused : ∀ bucket, (∀ b, ¬ Of s bucket b) → s.total bucket = {}
  fresh : ∀ b, s.next ≤ b → s.records b = {}

variable {bucket : β}

@[simp]
theorem Phase.not_on_idle {b : Nat} : ¬ (Phase.idle : Phase β ν).On bucket b := by
  simp [Phase.On]

@[simp]
theorem Phase.on_found {b b' : Nat} :
    (Phase.found call b).On bucket b' ↔ call.bucket = bucket ∧ b = b' := by
  simp [Phase.On]

@[simp]
theorem Phase.on_adjusted {b b' : Nat} :
    (Phase.adjusted call b).On bucket b' ↔ call.bucket = bucket ∧ b = b' := by
  simp [Phase.On]

/-- The caller that takes a step apart from the others. -/
theorem of_update [DecidableEq τ] {s s' : State τ β ν} {t : τ} {phase : Phase β ν}
    (hphase : s'.phase = Function.update s.phase t phase) {b : Nat} :
    Of s' bucket b ↔ s'.cache bucket = some b ∨ phase.On bucket b ∨
      ∃ t', t' ≠ t ∧ s.Uses t' bucket b := by
  refine or_congr_right ⟨fun ⟨t', huses⟩ => ?_, fun h => ?_⟩
  · rw [State.Uses, hphase] at huses
    by_cases heq : t' = t
    · rw [heq, Function.update_self] at huses
      exact Or.inl huses
    · rw [Function.update_of_ne heq] at huses
      exact Or.inr ⟨t', heq, huses⟩
  · rcases h with hon | ⟨t', hne, huses⟩
    · exact ⟨t, by rw [State.Uses, hphase, Function.update_self]; exact hon⟩
    · exact ⟨t', by rw [State.Uses, hphase, Function.update_of_ne hne]; exact huses⟩

variable {s : State τ β ν}

theorem of_iff [DecidableEq τ] (t : τ) {b : Nat} :
    Of s bucket b ↔ s.cache bucket = some b ∨ (s.phase t).On bucket b ∨
      ∃ t', t' ≠ t ∧ s.Uses t' bucket b :=
  of_update (Function.update_eq_self t s.phase).symm

/-- A step that lets every bucket keep its record. -/
theorem Inv.of_same {s s' : State τ β ν} (hinv : Inv s)
    (hof : ∀ bucket b, Of s' bucket b ↔ Of s bucket b) (hrecords : s'.records = s.records)
    (hnext : s'.next = s.next) (htotal : s'.total = s.total) (hfailures : s'.failures = s.failures)
    (hwrapped : s'.wrapped = s.wrapped) : Inv s' := by
  obtain ⟨h1, h2, h3, h4, h5, h6, h7, h8⟩ := hinv
  constructor <;> simp only [hof, hrecords, hnext, htotal, hfailures, hwrapped] <;> assumption

theorem Inv.lookup [DecidableEq τ] (hinv : Inv s) {t : τ} (hidle : s.phase t = .idle)
    (hfirst : s.cache call.bucket = none → ∀ t' b, ¬ s.Uses t' call.bucket b) :
    Inv (s.lookup t call) := by
  unfold State.lookup
  cases hcache : s.cache call.bucket with
  | some b =>
    refine hinv.of_same (fun bucket b' => ?_) rfl rfl rfl rfl rfl
    rw [of_update rfl, of_iff t, hidle]
    simp only [Phase.on_found, Phase.not_on_idle, false_or]
    constructor
    · rintro (hsome | ⟨rfl, rfl⟩ | hother)
      · exact Or.inl hsome
      · exact Or.inl hcache
      · exact Or.inr hother
    · rintro (hsome | hother)
      · exact Or.inl hsome
      · exact Or.inr (Or.inr hother)
  | none =>
    have hunused : ∀ b, ¬ Of s call.bucket b := by
      rintro b (hsome | ⟨t', huses⟩)
      · cases hcache.symm.trans hsome
      · exact hfirst hcache t' b huses
    have hof : ∀ bucket b, Of { s with
        next := s.next + 1
        phase := Function.update s.phase t (.found call s.next) } bucket b ↔
          call.bucket = bucket ∧ s.next = b ∨ Of s bucket b := by
      intro bucket b
      rw [of_update rfl, of_iff t, hidle]
      simp only [Phase.on_found, Phase.not_on_idle, false_or]
      exact or_left_comm
    have hbelow := hinv.allocated
    constructor
    · exact hinv.noWrap
    · exact hinv.counts
    · intro bucket b hb
      rcases (hof bucket b).mp hb with ⟨-, rfl⟩ | hb
      · exact Nat.lt_succ_self _
      · exact Nat.lt_succ_of_lt (hbelow bucket b hb)
    · intro bucket b hb
      rcases (hof bucket b).mp hb with ⟨rfl, rfl⟩ | hb
      · exact (hinv.fresh _ le_rfl).trans (hinv.unused _ hunused).symm
      · exact hinv.total bucket b hb
    · intro bucket b b' hb hb'
      rcases (hof bucket b).mp hb with ⟨rfl, rfl⟩ | hb
      · rcases (hof _ b').mp hb' with ⟨-, rfl⟩ | hb'
        · rfl
        · exact absurd hb' (hunused b')
      · rcases (hof bucket b').mp hb' with ⟨rfl, rfl⟩ | hb'
        · exact absurd hb (hunused b)
        · exact hinv.oneRecord bucket b b' hb hb'
    · intro bucket bucket' b hb hb'
      rcases (hof bucket b).mp hb with ⟨rfl, rfl⟩ | hb
      · rcases (hof bucket' _).mp hb' with ⟨rfl, -⟩ | hb'
        · rfl
        · exact absurd (hbelow bucket' _ hb') (Nat.lt_irrefl _)
      · rcases (hof bucket' b).mp hb' with ⟨rfl, rfl⟩ | hb'
        · exact absurd (hbelow bucket _ hb) (Nat.lt_irrefl _)
        · exact hinv.oneBucket bucket bucket' b hb hb'
    · intro bucket hno
      exact hinv.unused bucket fun b hb => hno b ((hof bucket b).mpr (Or.inr hb))
    · exact fun b hb => hinv.fresh b (Nat.le_of_succ_le hb)

theorem Inv.adjust [DecidableEq τ] [DecidableEq β] [DecidableEq ν] (hinv : Inv s) {t : τ} {b : Nat}
    (hphase : s.phase t = .found call b) (hbalanced : Balanced (s.failures call.bucket) call)
    (hrange : InRange (s.failures call.bucket) call) : Inv (s.adjust t call b) := by
  have hmine : Of s call.bucket b := (of_iff t).mpr (by simp [hphase])
  have hof : ∀ bucket b', Of (s.adjust t call b) bucket b' ↔ Of s bucket b' := by
    intro bucket b'
    rw [of_update rfl, of_iff t, hphase]
    simp only [Phase.on_found, Phase.on_adjusted]
    rfl
  have hrecord := hinv.total call.bucket b hmine
  obtain ⟨hcounts, hwraps⟩ := (hinv.counts call.bucket).adjust hbalanced hrange
  constructor
  · rintro (hwrapped | hwrapped)
    · exact hinv.noWrap hwrapped
    · exact hwraps (hrecord ▸ hwrapped)
  · intro bucket
    simp only [State.adjust, Function.update_apply]
    split
    next heq => exact hcounts
    next => exact hinv.counts bucket
  · exact fun bucket b' hb' => hinv.allocated bucket b' ((hof bucket b').mp hb')
  · intro bucket b' hb'
    have hb' := (hof bucket b').mp hb'
    simp only [State.adjust, Function.update_apply]
    by_cases heq : b' = b
    · have hbucket := hinv.oneBucket bucket call.bucket b' hb' (heq ▸ hmine)
      rw [if_pos heq, if_pos hbucket, hrecord]
    · have hbucket : bucket ≠ call.bucket := by
        rintro rfl
        exact heq (hinv.oneRecord _ b' b hb' hmine)
      rw [if_neg heq, if_neg hbucket]
      exact hinv.total bucket b' hb'
  · intro bucket b' b'' hb' hb''
    exact hinv.oneRecord bucket b' b'' ((hof _ _).mp hb') ((hof _ _).mp hb'')
  · intro bucket bucket' b' hb' hb''
    exact hinv.oneBucket bucket bucket' b' ((hof _ _).mp hb') ((hof _ _).mp hb'')
  · intro bucket hno
    have hne : bucket ≠ call.bucket := by
      rintro rfl
      exact hno b ((hof _ b).mpr hmine)
    simp only [State.adjust, Function.update_of_ne hne]
    exact hinv.unused bucket fun b' hb' => hno b' ((hof bucket b').mpr hb')
  · intro b' hb'
    have hne : b' ≠ b := fun heq =>
      absurd (hinv.allocated _ b hmine) (Nat.not_lt.mpr (heq ▸ hb'))
    simp only [State.adjust, Function.update_of_ne hne]
    exact hinv.fresh b' hb'

theorem Inv.store [DecidableEq τ] [DecidableEq β] (hinv : Inv s) {t : τ} {b : Nat}
    (hphase : s.phase t = .adjusted call b) : Inv (s.store t call b) := by
  have hmine : Of s call.bucket b := (of_iff t).mpr (by simp [hphase])
  refine hinv.of_same (fun bucket b' => ?_) rfl rfl rfl rfl rfl
  rw [of_update rfl]
  simp only [Phase.not_on_idle, false_or, State.store, Function.update_apply]
  by_cases heq : bucket = call.bucket
  · rw [if_pos heq, Option.some.injEq]
    constructor
    · rintro (rfl | ⟨t', -, huses⟩)
      · exact heq ▸ hmine
      · exact Or.inr ⟨t', huses⟩
    · exact fun hb' => Or.inl (hinv.oneRecord bucket b b' (heq ▸ hmine) hb')
  · rw [if_neg heq, of_iff t, hphase, Phase.on_adjusted]
    refine or_congr_right (or_iff_right fun h => heq h.1.symm).symm

theorem Inv.step [DecidableEq τ] [DecidableEq β] [DecidableEq ν] {s s' : State τ β ν}
    (hinv : Inv s) (hstep : Step true s s') : Inv s' := by
  cases hstep with
  | lookup t call hidle hfirst => exact hinv.lookup hidle (hfirst rfl)
  | adjust t call b hphase hbalanced =>
    exact hinv.adjust hphase (hbalanced rfl).1 (hbalanced rfl).2
  | store t call b hphase => exact hinv.store hphase

/-- A node that has just started. -/
structure Started (s : State τ β ν) : Prop where
  cache : ∀ bucket, s.cache bucket = none
  records : ∀ b, s.records b = {}
  phase : ∀ t, s.phase t = .idle
  total : ∀ bucket, s.total bucket = {}
  failures : ∀ bucket, s.failures bucket = []
  noWrap : ¬ s.wrapped

theorem Started.inv (hstarted : Started s) : Inv s := by
  obtain ⟨hcache, hrecords, hphase, htotal, hfailures, hwrap⟩ := hstarted
  have hof : ∀ bucket b, ¬ Of s bucket b := by
    rintro bucket b (hsome | ⟨t, huses⟩)
    · cases (hcache bucket).symm.trans hsome
    · rw [State.Uses, hphase] at huses
      exact Phase.not_on_idle huses
  refine ⟨hwrap, fun bucket => ?_, ?_, ?_, ?_, ?_, fun bucket _ => htotal bucket,
    fun b _ => hrecords b⟩
  · rw [htotal, hfailures]
    constructor <;> simp
  all_goals simp [hof]

theorem Inv.sound (hinv : Inv s) : Sound s := by
  refine ⟨hinv.noWrap, fun bucket hquiet => ?_, fun bucket => (hinv.counts bucket).count,
    fun bucket => (hinv.counts bucket).size⟩
  rw [State.get]
  cases hcache : s.cache bucket with
  | some b => exact hinv.total bucket b (Or.inl hcache)
  | none =>
    refine (hinv.unused bucket ?_).symm
    rintro b (hsome | ⟨t, huses⟩)
    · cases hcache.symm.trans hsome
    · exact hquiet t b huses

def unused : State Unit Unit Unit where
  cache _ := none
  records _ := {}
  next := 0
  phase _ := .idle
  total _ := {}
  failures _ := []
  wrapped := False

theorem unused_started : Started unused :=
  ⟨fun _ => rfl, fun _ => rfl, fun _ => rfl, fun _ => rfl, fun _ => rfl, id⟩

def failedDelete : UpdateCall Unit Unit := ⟨(), (), 0, .failed, .pending, .delete⟩

theorem failedDelete_runs :
    Runs (Step false) unused ((unused.lookup () failedDelete).adjust () failedDelete 0) :=
  .tail (.single (.lookup () failedDelete rfl (by simp))) (.adjust () failedDelete 0 rfl (by simp))

def pendingObject : UpdateCall Unit Unit := ⟨(), (), 3, .pending, .unset, .object⟩

end Fs3.ReplicationStats
