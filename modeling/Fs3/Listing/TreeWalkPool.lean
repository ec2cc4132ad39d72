import Fs3.Foundation.Histories

/-! # The pool of tree walks

A walk waits in the pool for the request of the next page. It is taken out by that request, by the
eviction of an old walk or by a timer. -/

namespace Fs3.WalkPool

open Foundation

structure ListParams where
  bucket : String
  recursive : Bool
  marker : String
  keyPrefix : String
  deriving DecidableEq

/-- The channel of the results goes with `endWalkCh`. -/
structure TreeWalk where
  params : ListParams
  added : Int
  endWalkCh : Nat
  endTimerCh : Nat
  deriving DecidableEq

/-- The goroutine of a timer. -/
inductive Timer where
  | waiting (walkInfo : TreeWalk)
  | fired (walkInfo : TreeWalk)
  | done

/-- The pool, the channels, and the walks that requests have in hand. -/
structure TreeWalkPool where
  pool : List TreeWalk
  timers : Nat → Timer
  /-- `endTimerCh` holds a signal. -/
  signals : Nat → Bool
  /-- How often `endWalkCh` has been closed. -/
  closes : Nat → Nat
  held : List Nat
  channels : Nat
  next : Nat

def treeWalkEntryLimit : Nat := 50

def treeWalkSameEntryLimit : Nat := 4

namespace TreeWalkPool

def start : TreeWalkPool := ⟨[], fun _ => .done, fun _ => false, fun _ => 0, [], 0, 0⟩

variable (s : TreeWalkPool)

/-- `t.pool[params]` -/
def walks (params : ListParams) : List TreeWalk := s.pool.filter (·.params = params)

def take (walk : TreeWalk) : TreeWalkPool :=
  { s with
    pool := s.pool.erase walk
    signals := Function.update s.signals walk.endTimerCh true }

def close (endWalkCh : Nat) : TreeWalkPool :=
  { s with closes := Function.update s.closes endWalkCh (s.closes endWalkCh + 1) }

def hold (endWalkCh : Nat) : TreeWalkPool := { s with held := endWalkCh :: s.held }

def Release (params : ListParams) : TreeWalkPool :=
  match s.walks params with
  | [] => s
  | walk :: _ => (s.take walk).hold walk.endWalkCh

/-- The channel of a walk that is thrown out is closed unless its timer has been told before. -/
def evict (walk : TreeWalk) : TreeWalkPool :=
  if s.signals walk.endTimerCh then s.take walk else (s.take walk).close walk.endWalkCh

def heads : List TreeWalk := s.pool.filter fun walk => (s.walks walk.params).head? = some walk

/-- The loop over the map, whose first walks come as `order` says. -/
def oldest (age : Int) (order : List TreeWalk) : ListParams :=
  (order.foldl (fun best e => if e.added < best.1 then (e.added, e.params) else best)
    (age, ⟨"", false, "", ""⟩)).2

def overEntries (age : Int) (order : List TreeWalk) : Option TreeWalk :=
  if treeWalkEntryLimit < (s.pool.map (·.params)).dedup.length then
    (s.walks (oldest age order)).head?
  else none

def overSame (params : ListParams) : Option TreeWalk :=
  if (s.walks params).length < treeWalkSameEntryLimit then none else (s.walks params).head?

def evicted : Option TreeWalk → TreeWalkPool
  | none => s
  | some walk => s.evict walk

def add (params : ListParams) (added : Int) (endWalkCh : Nat) : TreeWalkPool :=
  let walkInfo : TreeWalk := ⟨params, added, endWalkCh, s.next⟩
  { s with
    pool := s.pool ++ [walkInfo]
    timers := Function.update s.timers s.next (.waiting walkInfo)
    next := s.next + 1 }

/-- `Set` once the pool has room. -/
def setSame (params : ListParams) (added : Int) (endWalkCh : Nat) : TreeWalkPool :=
  (s.evicted (s.overSame params)).add params added endWalkCh

def Set (params : ListParams) (age : Int) (order : List TreeWalk) (added : Int)
    (endWalkCh : Nat) : TreeWalkPool :=
  (s.evicted (s.overEntries age order)).setSame params added endWalkCh

/-- A request comes to `Set` with a new walk or with one that it has in hand. -/
def newWalk : TreeWalkPool := { s with channels := s.channels + 1 }

def putDown (endWalkCh : Nat) : TreeWalkPool := { s with held := s.held.erase endWalkCh }

def setTimer (n : Nat) (timer : Timer) : TreeWalkPool :=
  { s with timers := Function.update s.timers n timer }

def expire (n : Nat) (walkInfo : TreeWalk) : TreeWalkPool :=
  ({ s with pool := s.pool.filter (· ≠ walkInfo) }.close walkInfo.endWalkCh).setTimer n .done

def Spares (walk : Option TreeWalk) : Prop :=
  ∀ w, walk = some w → s.timers w.endTimerCh = .waiting w

/-- `Set` throws out no walk whose timer has fired. -/
def SetSpares (params : ListParams) (age : Int) (order : List TreeWalk) : Prop :=
  s.Spares (s.overEntries age order) ∧
    (s.evicted (s.overEntries age order)).Spares
      ((s.evicted (s.overEntries age order)).overSame params)

end TreeWalkPool

open TreeWalkPool

/-- With `sparing`, a walk whose timer has fired is left to it, and a goroutine that has been told
to end does not take its timeout. -/
inductive Step (sparing : Bool) (s : TreeWalkPool) : TreeWalkPool → Prop
  | release (params : ListParams) (hspares : sparing = true → s.Spares (s.walks params).head?) :
      Step sparing s (s.Release params)
  | setNew (params : ListParams) (age : Int) (order : List TreeWalk) (added : Int)
      (horder : order.Perm s.heads)
      (hspares : sparing = true → s.newWalk.SetSpares params age order) :
      Step sparing s (s.newWalk.Set params age order added s.channels)
  | setHeld (params : ListParams) (age : Int) (order : List TreeWalk) (added : Int)
      (endWalkCh : Nat) (hheld : endWalkCh ∈ s.held) (horder : order.Perm s.heads)
      (hspares : sparing = true → (s.putDown endWalkCh).SetSpares params age order) :
      Step sparing s ((s.putDown endWalkCh).Set params age order added endWalkCh)
  | fire (n : Nat) (walkInfo : TreeWalk) (htimer : s.timers n = .waiting walkInfo)
      (hspares : sparing = true → s.signals n = false) :
      Step sparing s (s.setTimer n (.fired walkInfo))
  | expire (n : Nat) (walkInfo : TreeWalk) (htimer : s.timers n = .fired walkInfo) :
      Step sparing s (s.expire n walkInfo)
  | receive (n : Nat) (walkInfo : TreeWalk) (htimer : s.timers n = .waiting walkInfo)
      (hsignal : s.signals n = true) : Step sparing s (s.setTimer n .done)

namespace TreeWalkPool

def places (s : TreeWalkPool) (endWalkCh : Nat) : Nat :=
  (s.pool.map (·.endWalkCh)).count endWalkCh + s.held.count endWalkCh + s.closes endWalkCh

/-- Every walk that there is has one place: it is pooled, with one request, or ended, once. -/
def Sound (s : TreeWalkPool) : Prop := ∀ endWalkCh < s.channels, s.places endWalkCh = 1

/-- `extra` is the walk that a request is about to set. -/
structure Inv (s : TreeWalkPool) (extra : Option Nat) : Prop where
  places : ∀ c, s.places c + extra.toList.count c = if c < s.channels then 1 else 0
  nodup : (s.pool.map (·.endTimerCh)).Nodup
  timer : ∀ w ∈ s.pool, w.endTimerCh < s.next ∧ s.signals w.endTimerCh = false ∧
    (s.timers w.endTimerCh = .waiting w ∨ s.timers w.endTimerCh = .fired w)
  fired : ∀ n w, s.timers n = .fired w → w ∈ s.pool ∧ w.endTimerCh = n
  waiting : ∀ n w, s.timers n = .waiting w → w.endTimerCh = n ∧ (s.signals n = false → w ∈ s.pool)
  signals : ∀ n, s.next ≤ n → s.signals n = false

variable {s : TreeWalkPool} {extra : Option Nat}
variable {w : TreeWalk}

theorem mem_pool_of_head {params : ListParams} (hhead : (s.walks params).head? = some w) :
    w ∈ s.pool :=
  (List.mem_filter.mp (List.mem_of_mem_head? hhead)).1

theorem count_erase {pool : List TreeWalk} (hmem : w ∈ pool) (c : Nat) :
    (pool.map (·.endWalkCh)).count c =
      ((pool.erase w).map (·.endWalkCh)).count c + if w.endWalkCh = c then 1 else 0 := by
  rw [((List.perm_cons_erase hmem).map _).count_eq, List.map_cons, List.count_cons]
  simp only [beq_iff_eq]

/-- What is left is as before when a walk leaves the pool and its timer can do nothing more. -/
theorem Inv.without (hinv : s.Inv extra) (hmem : w ∈ s.pool) {s' : TreeWalkPool}
    (hpool : s'.pool = s.pool.erase w) (hnext : s'.next = s.next)
    (hplaces : ∀ c, s'.places c + extra.toList.count c = if c < s'.channels then 1 else 0)
    (hsame : ∀ n ≠ w.endTimerCh, s'.timers n = s.timers n ∧ s'.signals n = s.signals n)
    (hended : s'.timers w.endTimerCh = .done ∨
      s'.timers w.endTimerCh = .waiting w ∧ s'.signals w.endTimerCh = true) : s'.Inv extra := by
  have hother : ∀ v, v ∈ s.pool.erase w ↔ v ∈ s.pool ∧ v.endTimerCh ≠ w.endTimerCh := by
    intro v
    rw [(hinv.nodup.of_map _).mem_erase_iff, and_comm]
    refine and_congr_right fun hv => not_congr ⟨fun heq => heq ▸ rfl, fun heq => ?_⟩
    exact List.inj_on_of_nodup_map hinv.nodup hv hmem heq
  constructor
  · exact hplaces
  · rw [hpool]
    exact hinv.nodup.sublist (List.erase_sublist.map _)
  · intro v hv
    obtain ⟨hv, hne⟩ := (hother v).mp (hpool ▸ hv)
    rw [(hsame _ hne).1, (hsame _ hne).2, hnext]
    exact hinv.timer v hv
  · intro n v hv
    by_cases hn : n = w.endTimerCh
    · rw [hn] at hv
      rcases hended with hended | ⟨hended, -⟩
      · cases hended.symm.trans hv
      · cases hended.symm.trans hv
    · obtain ⟨hmem', rfl⟩ := hinv.fired n v ((hsame n hn).1 ▸ hv)
      exact ⟨hpool ▸ (hother v).mpr ⟨hmem', hn⟩, rfl⟩
  · intro n v hv
    by_cases hn : n = w.endTimerCh
    · rw [hn] at hv ⊢
      rcases hended with hended | ⟨hended, hsignal⟩
      · cases hended.symm.trans hv
      · cases hended.symm.trans hv
        exact ⟨rfl, fun hnone => by cases hsignal.symm.trans hnone⟩
    · obtain ⟨rfl, hpooled⟩ := hinv.waiting n v ((hsame n hn).1 ▸ hv)
      exact ⟨rfl, fun hsignal =>
        hpool ▸ (hother v).mpr ⟨hpooled ((hsame _ hn).2 ▸ hsignal), hn⟩⟩
  · intro n hn
    rw [hnext] at hn
    have hless := (hinv.timer w hmem).1
    rw [(hsame n (by omega)).2]
    exact hinv.signals n hn

/-- A walk that is taken from the pool before its timer fires is free for a new place. -/
theorem Inv.take (hinv : s.Inv extra) (hmem : w ∈ s.pool)
    (hwaiting : s.timers w.endTimerCh = .waiting w) {s' : TreeWalkPool}
    (hpool : s'.pool = s.pool.erase w) (htimers : s'.timers = s.timers)
    (hsignals : s'.signals = Function.update s.signals w.endTimerCh true) (hnext : s'.next = s.next)
    (hchannels : s'.channels = s.channels) (hplaces : ∀ c, s'.held.count c + s'.closes c =
      s.held.count c + s.closes c + if w.endWalkCh = c then 1 else 0) : s'.Inv extra := by
  refine hinv.without hmem hpool hnext (fun c => ?_) (fun n hn => ?_) ?_
  · have hold := hinv.places c
    have hcount := count_erase hmem c
    have hplaces := hplaces c
    rw [hchannels]
    simp only [TreeWalkPool.places, hpool] at hold ⊢
    omega
  · rw [htimers, hsignals, Function.update_of_ne hn]
    exact ⟨rfl, rfl⟩
  · rw [htimers, hsignals, Function.update_self]
    exact Or.inr ⟨hwaiting, rfl⟩

theorem Inv.hold (hinv : s.Inv extra) (hmem : w ∈ s.pool)
    (hwaiting : s.timers w.endTimerCh = .waiting w) : ((s.take w).hold w.endWalkCh).Inv extra := by
  refine hinv.take hmem hwaiting rfl rfl rfl rfl rfl fun c => ?_
  simp only [TreeWalkPool.hold, TreeWalkPool.take, List.count_cons, beq_iff_eq]
  omega

theorem close_apply (endWalkCh c : Nat) :
    (s.close endWalkCh).closes c = s.closes c + if endWalkCh = c then 1 else 0 := by
  simp only [TreeWalkPool.close, Function.update_apply]
  split
  next heq => rw [heq, if_pos rfl]
  next hne => rw [if_neg (Ne.symm hne), Nat.add_zero]

theorem Inv.evict (hinv : s.Inv extra) (hmem : w ∈ s.pool)
    (hwaiting : s.timers w.endTimerCh = .waiting w) : (s.evict w).Inv extra := by
  rw [TreeWalkPool.evict, (hinv.timer w hmem).2.1, if_neg Bool.false_ne_true]
  refine hinv.take hmem hwaiting rfl rfl rfl rfl rfl fun c => ?_
  rw [close_apply]
  exact (Nat.add_assoc ..).symm

theorem Inv.evicted (hinv : s.Inv extra) {victim : Option TreeWalk}
    (hmem : ∀ w, victim = some w → w ∈ s.pool) (hspares : s.Spares victim) :
    (s.evicted victim).Inv extra := by
  cases victim with
  | none => exact hinv
  | some w => exact hinv.evict (hmem w rfl) (hspares w rfl)

/-- The walk that is set goes from the request to the pool. -/
theorem Inv.add {c : Nat} (hinv : s.Inv (some c)) (params : ListParams) (added : Int) :
    (s.add params added c).Inv none := by
  have hless : ∀ w ∈ s.pool, w.endTimerCh ≠ s.next := fun w hw => (hinv.timer w hw).1.ne
  constructor
  · intro c'
    have hplaces := hinv.places c'
    change _ = if c' < s.channels then 1 else 0
    simp only [TreeWalkPool.places, TreeWalkPool.add, List.map_append, List.count_append,
      Option.toList_some, Option.toList_none, List.count_nil, List.map_cons,
      List.map_nil] at hplaces ⊢
    omega
  · simp only [TreeWalkPool.add, List.map_append, List.map_cons, List.map_nil]
    refine hinv.nodup.append (List.nodup_singleton _) ?_
    rw [List.disjoint_singleton]
    intro hmem
    obtain ⟨w, hw, heq⟩ := List.mem_map.mp hmem
    exact hless w hw heq
  · intro w hw
    rcases List.mem_append.mp hw with hw | hw
    · obtain ⟨hnext, hsignal, htimer⟩ := hinv.timer w hw
      simp only [TreeWalkPool.add, Function.update_of_ne (hless w hw)]
      exact ⟨hnext.trans (Nat.lt_succ_self _), hsignal, htimer⟩
    · rw [List.mem_singleton.mp hw]
      exact ⟨Nat.lt_succ_self _, hinv.signals _ le_rfl, Or.inl (Function.update_self ..)⟩
  · intro n w hw
    simp only [TreeWalkPool.add, Function.update_apply] at hw ⊢
    split at hw
    next => cases hw
    next =>
      obtain ⟨hmem, heq⟩ := hinv.fired n w hw
      exact ⟨List.mem_append_left _ hmem, heq⟩
  · intro n w hw
    simp only [TreeWalkPool.add, Function.update_apply] at hw
    split at hw
    next heq =>
      cases hw
      exact ⟨heq.symm, fun _ => List.mem_append_right _ (List.mem_singleton_self _)⟩
    next =>
      obtain ⟨heq, hpooled⟩ := hinv.waiting n w hw
      exact ⟨heq, fun hsignal => List.mem_append_left _ (hpooled hsignal)⟩
  · exact fun n hn => hinv.signals n (Nat.le_of_succ_le hn)

theorem Inv.set {c : Nat} (hinv : s.Inv (some c)) {params : ListParams} {age added : Int}
    {order : List TreeWalk} (hspares : s.SetSpares params age order) :
    (s.Set params age order added c).Inv none := by
  refine Inv.add (Inv.evicted (hinv.evicted ?_ hspares.1) ?_ hspares.2) params added
  · intro w hw
    rw [overEntries] at hw
    split at hw
    next => exact mem_pool_of_head hw
    next => cases hw
  · intro w hw
    rw [overSame] at hw
    split at hw
    next => cases hw
    next => exact mem_pool_of_head hw

/-- A timer goes on while its walk is in the pool, or leaves when it is not. -/
theorem Inv.setTimer (hinv : s.Inv none) {n : Nat} {timer : Timer}
    (hwaiting : s.timers n = .waiting w)
    (htimer : timer = .fired w ∧ s.signals n = false ∨ timer = .done ∧ s.signals n = true) :
    (s.setTimer n timer).Inv none := by
  obtain ⟨hnumber, hpooled⟩ := hinv.waiting n w hwaiting
  constructor
  · exact hinv.places
  · exact hinv.nodup
  · intro v hv
    obtain ⟨hnext, hsignal, hphase⟩ := hinv.timer v hv
    refine ⟨hnext, hsignal, ?_⟩
    simp only [TreeWalkPool.setTimer, Function.update_apply]
    split
    next heq =>
      rw [heq, hwaiting] at hphase
      rcases htimer with ⟨rfl, -⟩ | ⟨-, htold⟩
      · rcases hphase with hphase | hphase
        · cases hphase
          exact Or.inr rfl
        · cases hphase
      · rw [heq, htold] at hsignal
        cases hsignal
    next => exact hphase
  · intro m v hv
    simp only [TreeWalkPool.setTimer, Function.update_apply] at hv
    split at hv
    next heq =>
      subst hv
      rcases htimer with ⟨hfired, hsignal⟩ | ⟨hdone, -⟩
      · cases hfired
        exact ⟨hpooled hsignal, hnumber.trans heq.symm⟩
      · cases hdone
    next => exact hinv.fired m v hv
  · intro m v hv
    simp only [TreeWalkPool.setTimer, Function.update_apply] at hv
    split at hv
    next =>
      subst hv
      rcases htimer with ⟨hfired, -⟩ | ⟨hdone, -⟩
      · cases hfired
      · cases hdone
    next => exact hinv.waiting m v hv
  · exact hinv.signals

theorem Inv.expire (hinv : s.Inv none) {n : Nat} (htimer : s.timers n = .fired w) :
    (s.expire n w).Inv none := by
  obtain ⟨hmem, rfl⟩ := hinv.fired n w htimer
  have hpool : (s.expire w.endTimerCh w).pool = s.pool.erase w := by
    rw [(hinv.nodup.of_map _).erase_eq_filter]
    refine List.filter_congr fun v _ => ?_
    by_cases heq : v = w <;> simp [heq]
  refine hinv.without hmem hpool rfl (fun c => ?_) (fun m hm => ?_) ?_
  · have hold := hinv.places c
    have hcount := count_erase hmem c
    have hclose := @close_apply s w.endWalkCh c
    change _ = if c < s.channels then 1 else 0
    simp only [TreeWalkPool.places, hpool] at hold ⊢
    simp only [TreeWalkPool.expire, TreeWalkPool.setTimer, TreeWalkPool.close] at hclose ⊢
    omega
  · exact ⟨Function.update_of_ne hm _ _, rfl⟩
  · exact Or.inl (Function.update_self ..)

theorem Inv.newWalk (hinv : s.Inv none) : s.newWalk.Inv (some s.channels) := by
  refine ⟨fun c => ?_, hinv.nodup, hinv.timer, hinv.fired, hinv.waiting, hinv.signals⟩
  have hplaces := hinv.places c
  change s.places c + [s.channels].count c = if c < s.channels + 1 then 1 else 0
  rw [List.count_singleton, beq_eq_decide]
  simp only [Option.toList_none, List.count_nil, decide_eq_true_eq] at hplaces ⊢
  split at hplaces <;> split <;> split <;> omega

theorem Inv.putDown (hinv : s.Inv none) {c : Nat} (hheld : c ∈ s.held) :
    (s.putDown c).Inv (some c) := by
  refine ⟨fun c' => ?_, hinv.nodup, hinv.timer, hinv.fired, hinv.waiting, hinv.signals⟩
  have hplaces := hinv.places c'
  have hcount := (List.perm_cons_erase hheld).count_eq c'
  change _ = if c' < s.channels then 1 else 0
  rw [List.count_cons] at hcount
  simp only [TreeWalkPool.places, TreeWalkPool.putDown, Option.toList_none, Option.toList_some,
    List.count_nil, List.count_singleton] at hplaces ⊢
  omega

theorem Inv.step {s' : TreeWalkPool} (hinv : s.Inv none) (hstep : Step true s s') :
    s'.Inv none := by
  cases hstep with
  | release params hspares =>
    unfold Release
    cases hwalks : s.walks params with
    | nil => exact hinv
    | cons w rest =>
      have hhead : (s.walks params).head? = some w := by rw [hwalks, List.head?_cons]
      exact hinv.hold (mem_pool_of_head hhead) (hspares rfl w hhead)
  | setNew params age order added horder hspares => exact hinv.newWalk.set (hspares rfl)
  | setHeld params age order added c hheld horder hspares =>
    exact (hinv.putDown hheld).set (hspares rfl)
  | fire n w htimer hspares => exact hinv.setTimer htimer (Or.inl ⟨rfl, hspares rfl⟩)
  | expire n w htimer => exact hinv.expire htimer
  | receive n w htimer hsignal => exact hinv.setTimer htimer (Or.inr ⟨rfl, hsignal⟩)

theorem inv_start : start.Inv none := by
  constructor <;> simp [start, TreeWalkPool.places]

end TreeWalkPool

/-- In every run that leaves walks whose timers have fired to them, every walk that was set is in
one place, in every state. -/
theorem sparing_runs_sound {s : TreeWalkPool} (hruns : Runs (Step true) start s) : s.Sound := by
  have hinv : s.Inv none :=
    @Runs.invariant _ _ (fun s => s.Inv none) (fun _ _ hinv hstep => hinv.step hstep) _ _ hruns
      inv_start
  intro c hc
  have hplaces := hinv.places c
  rw [if_pos hc] at hplaces
  exact hplaces

def anyKey : ListParams := ⟨"", false, "", ""⟩

def onePooled : TreeWalkPool := start.newWalk.Set anyKey 0 [] 0 0

theorem onePooled_runs (sparing : Bool) : Runs (Step sparing) start onePooled := by
  refine .single (.setNew anyKey 0 [] 0 (.refl _) fun _ => ⟨?_, ?_⟩)
  · intro w hw
    cases hw
  · intro w hw
    cases hw

theorem onePooled_sound : onePooled.Sound := sparing_runs_sound (onePooled_runs true)

/-- The timer has fired when the next request comes: it gets the walk, and loses it. -/
theorem onePooled_ended : ¬ ∀ s, Runs (Step false) start s → s.Sound := by
  intro hsound
  have htimer : onePooled.timers 0 = .waiting ⟨anyKey, 0, 0, 0⟩ := rfl
  have hfired : Step false onePooled _ := .fire 0 _ htimer (by simp)
  have hended := hsound _ (((onePooled_runs false).tail hfired).tail
    (.release anyKey (by simp)) |>.tail (.expire 0 ⟨anyKey, 0, 0, 0⟩ rfl))
  exact absurd (hended 0 Nat.one_pos) (by decide)

end Fs3.WalkPool
