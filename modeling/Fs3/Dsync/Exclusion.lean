import Fs3.Dsync.Mutex

/-! # When distributed locks exclude each other

A mutex that holds a lock has a grant at a quorum of lockers, and any two quorums of which one is
for writing have a locker in common. A read lock is only taken on the first of several names. -/

namespace Fs3

open Foundation (Runs)

variable {κ : Type}

namespace Message

def says? : Message κ → Option (Bool × LockArgs)
  | .request _ _ _ isReadLock args => some (isReadLock, args)
  | .granted _ _ _ isReadLock args _ => some (isReadLock, args)
  | .release _ _ _ isReadLock args => some (isReadLock, args)
  | .released _ _ _ _ => none

def asks? : Message κ → Option (κ × Nat × Nat)
  | .request c ticket locker _ _ => some (c, ticket, locker)
  | .granted c ticket locker _ _ _ => some (c, ticket, locker)
  | .release _ _ _ _ _ => none
  | .released _ _ _ _ => none

def IsOf (owner uid : String) (m : Message κ) : Prop :=
  ∃ isReadLock args, m.says? = some (isReadLock, args) ∧ args.owner = owner ∧ args.uid = uid

/-- Whether a message will use up a lock of an owner and id at a locker: it says
that one was granted, or releases one. -/
def claims (owner uid : String) (locker : Nat) : Message κ → Bool
  | .granted _ _ at' _ args locked =>
    locked && at' == locker && args.owner == owner && args.uid == uid
  | .release _ _ at' _ args => at' == locker && args.owner == owner && args.uid == uid
  | _ => false

theorem isOf_of_claims {owner uid : String} {locker : Nat} {m : Message κ}
    (hclaims : m.claims owner uid locker = true) : m.IsOf owner uid := by
  cases m with
  | request | released => exact Bool.noConfusion hclaims
  | granted | release =>
    simp only [claims, Bool.and_eq_true, beq_iff_eq] at hclaims
    exact ⟨_, _, rfl, hclaims.1.2, hclaims.2⟩

end Message

namespace Phase

def call? : Phase → Option Call
  | .idle => none
  | .locking call _ _ _ => some call
  | .undoing call _ => some call
  | .held call _ => some call
  | .unlocking call _ _ => some call

def recorded? : Phase → Option (Call × Finset Nat)
  | .idle => none
  | .locking call _ locks _ => some (call, locks)
  | .undoing call _ => some (call, ∅)
  | .held call locks => some (call, locks)
  | .unlocking _ _ _ => none

theorem call?_of_recorded? {phase : Phase} {call : Call} {locks : Finset Nat}
    (hrecorded : phase.recorded? = some (call, locks)) : phase.call? = some call := by
  cases phase with
  | idle | unlocking => exact nomatch hrecorded
  | locking | undoing | held =>
    obtain ⟨rfl, _⟩ := Prod.mk.inj (Option.some.inj hrecorded)
    rfl

end Phase

def Network.claims (s : Network κ) (owner uid : String) (locker : Nat) : Nat :=
  s.inFlight.countP (Message.claims owner uid locker)

theorem lockQuorum_overlap (lockers : Nat) (isReadLock : Bool) :
    lockers < (lockQuorum lockers false).2 + (lockQuorum lockers isReadLock).2 := by
  unfold lockQuorum
  simp only [Bool.not_false, Bool.true_and, beq_iff_eq]
  cases isReadLock with
  | false =>
    simp only [Bool.not_false, Bool.true_and, beq_iff_eq]
    split <;> omega
  | true =>
    simp only [Bool.not_true, Bool.false_and, Bool.false_eq_true, if_false]
    split <;> omega

theorem exists_common_locker {lockers : Nat} {locks locks' : Finset Nat} {isReadLock : Bool}
    (hrange : locks ⊆ Finset.range lockers) (hrange' : locks' ⊆ Finset.range lockers)
    (hquorum : (lockQuorum lockers false).2 ≤ locks.card)
    (hquorum' : (lockQuorum lockers isReadLock).2 ≤ locks'.card) :
    ∃ locker, locker ∈ locks ∧ locker ∈ locks' := by
  have hoverlap := lockQuorum_overlap lockers isReadLock
  have hcard : (Finset.range lockers).card < locks.card + locks'.card := by
    rw [Finset.card_range]
    omega
  obtain ⟨locker, hmem⟩ := Finset.inter_nonempty_of_card_lt_card_add_card hrange hrange' hcard
  exact ⟨locker, (Finset.mem_inter.mp hmem).1, (Finset.mem_inter.mp hmem).2⟩

namespace Dsync

variable (d : Dsync κ)

/-! ## What is kept -/

/-- A call that nothing else can be taken for: if it reads it has one name, no
other call with its owner and id is under way, and nothing is left of an
earlier one. -/
structure Unshared (s : Network κ) (c : κ) (call : Call) : Prop where
  single : call.isReadLock = true → (d.names c).length ≤ 1
  apart : ∀ c' call', (s.mutexes c').phase.call? = some call' →
    ¬ (d.owner c' = d.owner c ∧ call'.uid = call.uid)
  unused : ∀ m ∈ s.inFlight, ¬ m.IsOf (d.owner c) call.uid

/-- A call is told apart from all others. -/
structure OwnCall (s : Network κ) (c : κ) (call : Call) : Prop where
  single : call.isReadLock = true → (d.names c).length ≤ 1
  apart : ∀ c' call', c' ≠ c → (s.mutexes c').phase.call? = some call' →
    ¬ (d.owner c' = d.owner c ∧ call'.uid = call.uid)
  mine : ∀ m ∈ s.inFlight, m.IsOf (d.owner c) call.uid →
    m.says? = some (call.isReadLock, d.args c call.uid)

/-- Every locker has the locks that a call counts on, and those that messages on
their way will use up. -/
def Backed (s : Network κ) (c : κ) : Prop :=
  ∀ call locks, (s.mutexes c).phase.recorded? = some (call, locks) →
    ∀ locker, ∀ resource ∈ LockMap.locked call.isReadLock (d.args c call.uid),
      s.claims (d.owner c) call.uid locker + (if locker ∈ locks then 1 else 0) ≤
        (s.tables locker).granted (d.owner c) call.uid (!call.isReadLock) resource

/-- What holds in every state of a run in which calls are told apart. -/
structure Accounted (s : Network κ) : Prop where
  sound : ∀ locker, (s.tables locker).Sound
  own : ∀ c call, (s.mutexes c).phase.call? = some call → d.OwnCall s c call
  asked : ∀ m ∈ s.inFlight, ∀ c ticket locker, m.asks? = some (c, ticket, locker) →
    locker < d.lockers ∧ ticket ≤ (s.mutexes c).ticket
  /-- The answers that a call collects are to what it asks for. -/
  current : ∀ c call received locks locksFailed,
    (s.mutexes c).phase = .locking call received locks locksFailed →
    ∀ m ∈ s.inFlight, ∀ locker, m.asks? = some (c, (s.mutexes c).ticket, locker) →
      m.says? = some (call.isReadLock, d.args c call.uid)
  range : ∀ c call locks, (s.mutexes c).phase.recorded? = some (call, locks) →
    locks ⊆ Finset.range d.lockers
  quorum : ∀ c call locks, (s.mutexes c).phase = .held call locks →
    (lockQuorum d.lockers call.isReadLock).2 ≤ locks.card
  backed : ∀ c, d.Backed s c

theorem accounted_initial : d.Accounted initial where
  sound := fun _ _ _ h => nomatch h
  own := fun _ _ h => nomatch h
  asked := fun _ h => absurd h List.not_mem_nil
  current := fun _ _ _ _ _ h => nomatch h
  range := fun _ _ _ h => nomatch h
  quorum := fun _ _ _ h => nomatch h
  backed := fun _ _ _ h => nomatch h

theorem Unshared.ownCall {d : Dsync κ} {s : Network κ} {c : κ} {call : Call}
    (hunshared : d.Unshared s c call) : d.OwnCall s c call where
  single := hunshared.single
  apart := fun c' call' _ => hunshared.apart c' call'
  mine := fun m hm hof => absurd hof (hunshared.unused m hm)

section Steps

variable {d} {s s' : Network κ} {c : κ}

def Follows (m m' : Message κ) : Prop :=
  (m'.says? = none ∨ m'.says? = m.says?) ∧ (m'.asks? = none ∨ m'.asks? = m.asks?)

theorem Follows.refl (m : Message κ) : Follows m m := ⟨Or.inr rfl, Or.inr rfl⟩

def Sends (d : Dsync κ) (s : Network κ) (c : κ) (m : Message κ) : Prop :=
  ∃ call, (s.mutexes c).phase.call? = some call ∧
    m.says? = some (call.isReadLock, d.args c call.uid) ∧
    (m.asks? = none ∨ ∃ locker < d.lockers, m.asks? = some (c, (s.mutexes c).ticket, locker))

/-- What a step of one mutex has to keep, so that all is still accounted for. -/
structure Keeps (d : Dsync κ) (s s' : Network κ) (c : κ) : Prop where
  others : ∀ c' ≠ c, s'.mutexes c' = s.mutexes c'
  ticket : (s.mutexes c).ticket ≤ (s'.mutexes c).ticket
  own : ∀ call, (s'.mutexes c).phase.call? = some call → d.OwnCall s c call
  messages : ∀ m' ∈ s'.inFlight, (∃ m ∈ s.inFlight, Follows m m') ∨ Sends d s' c m'
  /-- A call that collects answers does so in a new round, or as before. -/
  round : ∀ call received locks locksFailed,
    (s'.mutexes c).phase = .locking call received locks locksFailed →
    (s.mutexes c).ticket < (s'.mutexes c).ticket ∨
      (s'.mutexes c).ticket = (s.mutexes c).ticket ∧ ∃ received locks locksFailed,
        (s.mutexes c).phase = .locking call received locks locksFailed
  range : ∀ call locks, (s'.mutexes c).phase.recorded? = some (call, locks) →
    locks ⊆ Finset.range d.lockers
  quorum : ∀ call locks, (s'.mutexes c).phase = .held call locks →
    (lockQuorum d.lockers call.isReadLock).2 ≤ locks.card
  sound : ∀ locker, (s'.tables locker).Sound
  backed : ∀ c', d.Backed s' c'

theorem OwnCall.next {call : Call} (hown : d.OwnCall s c call)
    (hothers : ∀ c' ≠ c, s'.mutexes c' = s.mutexes c')
    (hcall : (s'.mutexes c).phase.call? = some call)
    (hmessages : ∀ m' ∈ s'.inFlight, (∃ m ∈ s.inFlight, Follows m m') ∨ Sends d s' c m') :
    d.OwnCall s' c call := by
  refine ⟨hown.single, fun c' call' hne hcall' => ?_, fun m' hm' hof => ?_⟩
  · rw [hothers c' hne] at hcall'
    exact hown.apart c' call' hne hcall'
  · obtain ⟨isReadLock, args, hsays, howner, huid⟩ := hof
    rcases hmessages m' hm' with ⟨m, hm, hfollows, _⟩ | ⟨call', hcall', hsays', _⟩
    · rcases hfollows with hnone | hsame
      · rw [hnone] at hsays
        exact nomatch hsays
      · rw [hsame]
        exact hown.mine m hm ⟨isReadLock, args, hsame ▸ hsays, howner, huid⟩
    · obtain rfl := Option.some.inj (hcall.symm.trans hcall')
      exact hsays'

variable (c) in
theorem Accounted.step_of (h : d.Accounted s) (hkeeps : Keeps d s s' c) : d.Accounted s' := by
  obtain ⟨_, hown, hasked, hcurrent, hrange, hquorum, _⟩ := h
  refine ⟨hkeeps.sound, fun c' call hcall => ?_, fun m' hm' c' ticket locker hasks => ?_,
    fun c' call received locks locksFailed hphase m' hm' locker hasks => ?_,
    fun c' call locks hrecorded => ?_, fun c' call locks hheld => ?_, hkeeps.backed⟩
  · by_cases hc : c' = c
    · subst hc
      exact (hkeeps.own call hcall).next hkeeps.others hcall hkeeps.messages
    · rw [hkeeps.others c' hc] at hcall
      obtain ⟨hsingle, hapart, hmine⟩ := hown c' call hcall
      refine ⟨hsingle, fun c'' call'' hne hcall'' => ?_, fun m' hm' hof => ?_⟩
      · by_cases hc'' : c'' = c
        · subst hc''
          intro hsame
          exact (hkeeps.own call'' hcall'').apart c' call hc hcall
            ⟨hsame.1.symm, hsame.2.symm⟩
        · rw [hkeeps.others c'' hc''] at hcall''
          exact hapart c'' call'' hne hcall''
      · obtain ⟨isReadLock, args, hsays, howner, huid⟩ := hof
        rcases hkeeps.messages m' hm' with ⟨m, hm, hfollows, _⟩ | ⟨call', hcall', hsays', _⟩
        · rcases hfollows with hnone | hsame
          · rw [hnone] at hsays
            exact nomatch hsays
          · rw [hsame]
            exact hmine m hm ⟨isReadLock, args, hsame ▸ hsays, howner, huid⟩
        · -- A message that the step sends is not about another call.
          rw [hsays'] at hsays
          obtain ⟨_, rfl⟩ := Prod.mk.inj (Option.some.inj hsays)
          exact absurd ⟨howner.symm, huid.symm⟩ ((hkeeps.own call' hcall').apart c' call hc hcall)
  · rcases hkeeps.messages m' hm' with ⟨m, hm, _, hfollows⟩ | ⟨_, _, _, hsends⟩
    · rcases hfollows with hnone | hsame
      · rw [hnone] at hasks
        exact nomatch hasks
      · rw [hsame] at hasks
        obtain ⟨hlt, hle⟩ := hasked m hm c' ticket locker hasks
        refine ⟨hlt, ?_⟩
        by_cases hc : c' = c
        · subst hc
          exact hle.trans hkeeps.ticket
        · rw [hkeeps.others c' hc]
          exact hle
    · rcases hsends with hnone | ⟨locker', hlt, hsome⟩
      · rw [hnone] at hasks
        exact nomatch hasks
      · rw [hsome] at hasks
        obtain ⟨rfl, hrest⟩ := Prod.mk.inj (Option.some.inj hasks)
        obtain ⟨rfl, rfl⟩ := Prod.mk.inj hrest
        exact ⟨hlt, Nat.le_refl _⟩
  · rcases hkeeps.messages m' hm' with ⟨m, hm, hsays, hfollows⟩ | ⟨call', hcall', hsays', hsends⟩
    · rcases hfollows with hnone | hsame
      · rw [hnone] at hasks
        exact nomatch hasks
      · rw [hsame] at hasks
        have hle := (hasked m hm c' _ locker hasks).2
        have hsaysSome : m.says? = some (call.isReadLock, d.args c' call.uid) →
            m'.says? = some (call.isReadLock, d.args c' call.uid) := by
          intro hsome
          rcases hsays with hnone | hsame'
          · -- A request or an answer says what it is about.
            cases m' with
            | request | granted => exact nomatch hnone
            | release | released =>
              rw [← hsame] at hasks
              exact nomatch hasks
          · rw [hsame', hsome]
        by_cases hc : c' = c
        · subst hc
          rcases hkeeps.round _ _ _ _ hphase with hnew | ⟨hticket, _, _, _, hbefore⟩
          · omega
          · rw [hticket] at hasks
            exact hsaysSome (hcurrent c' call _ _ _ hbefore m hm locker hasks)
        · rw [hkeeps.others c' hc] at hphase hasks
          exact hsaysSome (hcurrent c' call _ _ _ hphase m hm locker hasks)
    · rcases hsends with hnone | ⟨locker', _, hsome⟩
      · rw [hnone] at hasks
        exact nomatch hasks
      · rw [hsome] at hasks
        obtain ⟨rfl, _⟩ := Prod.mk.inj (Option.some.inj hasks)
        rw [hphase] at hcall'
        obtain rfl := Option.some.inj hcall'
        exact hsays'
  · by_cases hc : c' = c
    · subst hc
      exact hkeeps.range call locks hrecorded
    · rw [hkeeps.others c' hc] at hrecorded
      exact hrange c' call locks hrecorded
  · by_cases hc : c' = c
    · subst hc
      exact hkeeps.quorum call locks hheld
    · rw [hkeeps.others c' hc] at hheld
      exact hquorum c' call locks hheld

theorem Backed.of {c' : κ} (hbacked : d.Backed s c')
    (hrecorded : ∀ call locks', (s'.mutexes c').phase.recorded? = some (call, locks') →
      ∃ locks, (s.mutexes c').phase.recorded? = some (call, locks) ∧ ∀ locker,
        s'.claims (d.owner c') call.uid locker + (if locker ∈ locks' then 1 else 0) ≤
          s.claims (d.owner c') call.uid locker + (if locker ∈ locks then 1 else 0))
    (htables : s'.tables = s.tables) : d.Backed s' c' := by
  intro call locks' hrecorded' locker resource hresource
  obtain ⟨locks, hbefore, hle⟩ := hrecorded call locks' hrecorded'
  rw [htables]
  exact (hle locker).trans (hbacked call locks hbefore locker resource hresource)

theorem Accounted.serve (h : d.Accounted s) (c : κ) (hmutexes : s'.mutexes = s.mutexes)
    (hmessages : ∀ m' ∈ s'.inFlight, ∃ m ∈ s.inFlight, Follows m m')
    (hsound : ∀ locker, (s'.tables locker).Sound) (hbacked : ∀ c', d.Backed s' c') :
    d.Accounted s' := by
  refine h.step_of c ⟨fun c' _ => by rw [hmutexes], by rw [hmutexes], fun call hcall => ?_,
    fun m' hm' => Or.inl (hmessages m' hm'), fun call received locks locksFailed hphase => ?_,
    fun call locks hrecorded => ?_, fun call locks hheld => ?_, hsound, hbacked⟩
  · rw [hmutexes] at hcall
    exact h.own c call hcall
  · rw [hmutexes] at hphase ⊢
    exact Or.inr ⟨rfl, _, _, _, hphase⟩
  · rw [hmutexes] at hrecorded
    exact h.range c call locks hrecorded
  · rw [hmutexes] at hheld
    exact h.quorum c call locks hheld

variable [DecidableEq κ]

theorem mem_answer {m m' : Message κ} {answers : List (Message κ)}
    (hm' : m' ∈ (s.answer m answers).inFlight) : m' ∈ s.inFlight ∨ m' ∈ answers :=
  (List.mem_append.mp hm').imp_left List.mem_of_mem_erase

theorem claims_answer {m : Message κ} (hm : m ∈ s.inFlight) (answers : List (Message κ))
    (owner uid : String) (locker : Nat) :
    (s.answer m answers).claims owner uid locker +
        (if m.claims owner uid locker then 1 else 0) =
      s.claims owner uid locker + answers.countP (Message.claims owner uid locker) := by
  unfold Network.claims Network.answer
  rw [(List.perm_cons_erase hm).countP_eq, List.countP_cons, List.countP_append]
  omega

theorem claims_lock (call : Call) (owner uid : String) (locker : Nat) :
    (d.lock s c call).claims owner uid locker = s.claims owner uid locker := by
  unfold Network.claims Dsync.lock
  rw [List.countP_append]
  refine Nat.add_eq_left.mpr (List.countP_eq_zero.mpr fun m hm => ?_)
  obtain ⟨_, _, rfl⟩ := List.mem_map.mp hm
  exact Bool.false_ne_true

variable (d s c) in
theorem claims_releaseAll (call : Call) (locks : Finset Nat) (phase : Phase) (owner uid : String)
    (locker : Nat) :
    (d.releaseAll s c call locks phase).claims owner uid locker ≤
      s.claims owner uid locker +
        if locker ∈ locks ∧ d.owner c = owner ∧ call.uid = uid then 1 else 0 := by
  unfold Network.claims Dsync.releaseAll
  rw [List.countP_append, List.countP_map]
  refine Nat.add_le_add_left ?_ _
  have hcount : ∀ l : List Nat, l.Nodup →
      (l.filter (· ∈ locks)).countP
          (Message.claims owner uid locker ∘ fun locker =>
            Message.release c ((s.mutexes c).ticket + 1) locker call.isReadLock
              (d.args c call.uid)) ≤
        if locker ∈ locks ∧ d.owner c = owner ∧ call.uid = uid then 1 else 0 := by
    intro l hnodup
    rw [List.countP_filter]
    split
    next =>
      refine (List.countP_mono_left fun x _ hx => ?_).trans (List.nodup_iff_count_le_one.mp hnodup
        locker)
      simp only [Function.comp_apply, Message.claims, Bool.and_eq_true, beq_iff_eq] at hx
      rw [hx.1.1.1]
      exact beq_self_eq_true _
    next hno =>
      refine Nat.le_of_eq (List.countP_eq_zero.mpr fun x _ hx => hno ?_)
      simp only [Function.comp_apply, Message.claims, Bool.and_eq_true, beq_iff_eq,
        decide_eq_true_eq] at hx
      obtain ⟨⟨⟨rfl, howner⟩, huid⟩, hmem⟩ := hx
      exact ⟨hmem, howner, huid⟩
  exact hcount _ List.nodup_range

theorem mem_lock {call : Call} {m : Message κ} (hm : m ∈ (d.lock s c call).inFlight) :
    m ∈ s.inFlight ∨ Sends d (d.lock s c call) c m := by
  rcases List.mem_append.mp hm with hold | hnew
  · exact Or.inl hold
  · obtain ⟨locker, hlocker, rfl⟩ := List.mem_map.mp hnew
    refine Or.inr ⟨call, ?_, rfl, Or.inr ⟨locker, List.mem_range.mp hlocker, ?_⟩⟩
    · simp [Dsync.lock, Network.setMutex, Phase.call?]
    · simp [Dsync.lock, Network.setMutex, Message.asks?]

theorem mem_releaseAll {call : Call} {locks : Finset Nat} {phase : Phase} {m : Message κ}
    (hphase : phase.call? = some call)
    (hm : m ∈ (d.releaseAll s c call locks phase).inFlight) :
    m ∈ s.inFlight ∨ Sends d (d.releaseAll s c call locks phase) c m := by
  rcases List.mem_append.mp hm with hold | hnew
  · exact Or.inl hold
  · obtain ⟨locker, _, rfl⟩ := List.mem_map.mp hnew
    refine Or.inr ⟨call, ?_, rfl, Or.inl rfl⟩
    simp [Dsync.releaseAll, Network.setMutex, hphase]

/-! ## What each step keeps -/

section

variable (h : d.Accounted s)
include h

theorem Accounted.answered (c : κ) {m : Message κ} {answers : List (Message κ)}
    (hm : m ∈ s.inFlight) (hfollows : ∀ m' ∈ answers, Follows m m')
    (hclaims : ∀ owner uid locker, answers.countP (Message.claims owner uid locker) ≤
      if m.claims owner uid locker then 1 else 0) : d.Accounted (s.answer m answers) := by
  refine h.serve c rfl (fun m' hm' => ?_) h.sound fun c' => ?_
  · rcases mem_answer hm' with hold | hnew
    · exact ⟨m', hold, Follows.refl m'⟩
    · exact ⟨m, hm, hfollows m' hnew⟩
  · refine (h.backed c').of (fun call locks hrecorded => ⟨locks, hrecorded, fun locker => ?_⟩) rfl
    have hcount := claims_answer hm answers (d.owner c') call.uid locker
    have hle := hclaims (d.owner c') call.uid locker
    omega

/-- A message that a locker serves: nobody loses more locks there than the message
used up, and what its answer uses up is there. -/
theorem Accounted.served (c : κ) {m m' : Message κ} {locker : Nat} {lockMap : LockMap}
    (hm : m ∈ s.inFlight) (hfollows : Follows m m') (hsound : lockMap.Sound)
    (helsewhere : ∀ owner uid at', at' ≠ locker → m'.claims owner uid at' = false)
    (hhere : ∀ c' call, (s.mutexes c').phase.call? = some call →
      ∀ resource ∈ LockMap.locked call.isReadLock (d.args c' call.uid),
        (s.tables locker).granted (d.owner c') call.uid (!call.isReadLock) resource +
            (if m'.claims (d.owner c') call.uid locker then 1 else 0) ≤
          lockMap.granted (d.owner c') call.uid (!call.isReadLock) resource +
            (if m.claims (d.owner c') call.uid locker then 1 else 0)) :
    d.Accounted (s.serve m locker lockMap [m']) := by
  refine h.serve c rfl (fun x hx => ?_) (fun at' => ?_) fun c' call locks hrecorded at' resource
    hresource => ?_
  · rcases mem_answer hx with hold | hnew
    · exact ⟨x, hold, Follows.refl x⟩
    · rw [List.mem_singleton] at hnew
      subst hnew
      exact ⟨m, hm, hfollows⟩
  · unfold Network.serve
    simp only
    by_cases hat : at' = locker
    · subst hat
      rw [Function.update_self]
      exact hsound
    · rw [Function.update_of_ne hat]
      exact h.sound at'
  · have hbefore := h.backed c' call locks hrecorded at' resource hresource
    have hcount := claims_answer hm [m'] (d.owner c') call.uid at'
    rw [List.countP_singleton] at hcount
    change (s.answer m [m']).claims (d.owner c') call.uid at' + _ ≤
      LockMap.granted (Function.update s.tables locker lockMap at') _ _ _ _
    by_cases hat : at' = locker
    · subst hat
      rw [Function.update_self]
      have hle := hhere c' call (Phase.call?_of_recorded? hrecorded) resource hresource
      omega
    · rw [Function.update_of_ne hat]
      rw [helsewhere _ _ at' hat, if_neg Bool.false_ne_true] at hcount
      omega

theorem Accounted.serveLock {ticket locker : Nat} {isReadLock : Bool} {args : LockArgs}
    (hm : .request c ticket locker isReadLock args ∈ s.inFlight) :
    d.Accounted (s.serve (.request c ticket locker isReadLock args) locker
      ((s.tables locker).grant isReadLock args).2
      [.granted c ticket locker isReadLock args ((s.tables locker).grant isReadLock args).1]) := by
  refine h.served c hm ⟨Or.inr rfl, Or.inr rfl⟩ ((h.sound locker).grant isReadLock args)
    (fun owner uid at' hat => ?_) fun c' call hcall resource hresource => ?_
  · rw [Bool.eq_false_iff]
    intro hclaims
    simp only [Message.claims, Bool.and_eq_true, beq_iff_eq] at hclaims
    exact hat hclaims.1.1.2.symm
  · split
    next hclaims =>
      -- A lock is granted to this call, and it is one that it asks for.
      obtain ⟨readLock, args', hsays, howner, huid⟩ := Message.isOf_of_claims hclaims
      obtain ⟨rfl, rfl⟩ := Prod.mk.inj (Option.some.inj hsays)
      have hmine := (h.own c' call hcall).mine _ hm ⟨isReadLock, args, rfl, howner, huid⟩
      obtain ⟨rfl, rfl⟩ := Prod.mk.inj (Option.some.inj hmine)
      simp only [Message.claims, Bool.and_eq_true] at hclaims
      have hmore := LockMap.granted_grant hclaims.1.1.1 hresource
      exact Nat.le_trans (Nat.le_of_eq hmore.symm) (Nat.le_add_right _ _)
    next =>
      have hmore := LockMap.granted_le_grant (s.tables locker) args resource (d.owner c') call.uid
        (!call.isReadLock) isReadLock
      omega

theorem Accounted.serveRelease {ticket locker : Nat} {isReadLock : Bool} {args : LockArgs}
    (hm : .release c ticket locker isReadLock args ∈ s.inFlight) :
    d.Accounted (s.serve (.release c ticket locker isReadLock args) locker
      ((s.tables locker).release isReadLock args).2
      [.released c ticket locker ((s.tables locker).release isReadLock args).1.isOk]) := by
  refine h.served c hm ⟨Or.inl rfl, Or.inl rfl⟩ ((h.sound locker).release isReadLock args)
    (fun _ _ _ _ => rfl) fun c' call _ resource _ => ?_
  change LockMap.granted _ _ _ _ _ + 0 ≤ _
  rw [Nat.add_zero]
  by_cases hsame : d.owner c' = args.owner ∧ call.uid = args.uid
  · have hclaims : (Message.release c ticket locker isReadLock args).claims (d.owner c') call.uid
        locker = true := by
      simp [Message.claims, hsame.1, hsame.2]
    rw [if_pos hclaims]
    exact LockMap.granted_le_release_succ isReadLock
  · rw [LockMap.granted_release_of_ne isReadLock hsame]
    exact Nat.le_add_right _ _

theorem Accounted.setPhase {phase : Phase}
    (hcall : ∀ call, phase.call? = some call → (s.mutexes c).phase.call? = some call)
    (hround : ∀ call received locks locksFailed,
      phase = .locking call received locks locksFailed → ∃ received locks locksFailed,
        (s.mutexes c).phase = .locking call received locks locksFailed)
    (hrecorded : ∀ call locks, phase.recorded? = some (call, locks) →
      (s.mutexes c).phase.recorded? = some (call, locks))
    (hquorum : ∀ call locks, phase = .held call locks →
      (lockQuorum d.lockers call.isReadLock).2 ≤ locks.card) :
    d.Accounted (s.setPhase c phase) := by
  have hself : ((s.setPhase c phase).mutexes c) =
    { ticket := (s.mutexes c).ticket, phase := phase } :=
    Function.update_self _ _ _
  refine h.step_of c ⟨fun c' hne => Function.update_of_ne hne _ _, by rw [hself],
    fun call hsome => ?_, fun m hm => Or.inl ⟨m, hm, Follows.refl m⟩,
    fun call received locks locksFailed hphase => ?_, fun call locks hsome => ?_,
    fun call locks hheld => ?_, h.sound, fun c' => ?_⟩
  · rw [hself] at hsome
    exact h.own c call (hcall call hsome)
  · rw [hself] at hphase ⊢
    exact Or.inr ⟨rfl, hround call received locks locksFailed hphase⟩
  · rw [hself] at hsome
    exact h.range c call locks (hrecorded call locks hsome)
  · rw [hself] at hheld
    exact hquorum call locks hheld
  · refine (h.backed c').of (fun call locks hsome => ⟨locks, ?_, fun _ => Nat.le_refl _⟩) rfl
    by_cases hc : c' = c
    · subst hc
      rw [hself] at hsome
      exact hrecorded call locks hsome
    · rw [show (s.setPhase c phase).mutexes c' = s.mutexes c' from
        Function.update_of_ne hc _ _] at hsome
      exact hsome

/-- A new round of requests, of a call that counts on nothing yet. -/
theorem Accounted.lock {call : Call} (hown : d.OwnCall s c call)
    (hbacked : ∀ locker, ∀ resource ∈ LockMap.locked call.isReadLock (d.args c call.uid),
      s.claims (d.owner c) call.uid locker ≤
        (s.tables locker).granted (d.owner c) call.uid (!call.isReadLock) resource) :
    d.Accounted (d.lock s c call) := by
  have hself : (d.lock s c call).mutexes c =
      { ticket := (s.mutexes c).ticket + 1, phase := .locking call 0 ∅ 0 } :=
    Function.update_self _ _ _
  have hother : ∀ c' ≠ c, (d.lock s c call).mutexes c' = s.mutexes c' := fun c' hne =>
    Function.update_of_ne hne _ _
  refine h.step_of c ⟨hother, by rw [hself]; exact Nat.le_succ _, fun call' hsome => ?_,
    fun m hm => (mem_lock hm).imp_left fun hold => ⟨m, hold, Follows.refl m⟩,
    fun call' received locks locksFailed _ => ?_, fun call' locks hsome => ?_,
    fun call' locks hheld => ?_, h.sound, fun c' => ?_⟩
  · rw [hself] at hsome
    obtain rfl := Option.some.inj hsome
    exact hown
  · rw [hself]
    exact Or.inl (Nat.lt_succ_self _)
  · rw [hself] at hsome
    obtain ⟨_, rfl⟩ := Prod.mk.inj (Option.some.inj hsome)
    exact Finset.empty_subset _
  · rw [hself] at hheld
    exact nomatch hheld
  · by_cases hc : c' = c
    · subst hc
      intro call' locks hsome locker resource hresource
      rw [hself] at hsome
      obtain ⟨rfl, rfl⟩ := Prod.mk.inj (Option.some.inj hsome)
      rw [claims_lock, if_neg (Finset.notMem_empty _), Nat.add_zero]
      exact hbacked locker resource hresource
    · refine (h.backed c').of (fun call' locks hsome => ⟨locks, ?_, fun locker => ?_⟩) rfl
      · rw [hother c' hc] at hsome
        exact hsome
      · rw [claims_lock]

/-- A round of releases, of a call that counts on nothing any more, or on no more
than it releases. -/
theorem Accounted.releaseAll {call : Call} {locks : Finset Nat} {phase : Phase}
    (hcall : (s.mutexes c).phase.call? = some call) (hphase : phase.call? = some call)
    (hrecorded : phase.recorded? = none ∨ phase.recorded? = some (call, ∅) ∧
      (s.mutexes c).phase.recorded? = some (call, locks))
    (hround : ∀ call received locks locksFailed, phase ≠ .locking call received locks locksFailed)
    (hheld : ∀ call locks, phase ≠ .held call locks) :
    d.Accounted (d.releaseAll s c call locks phase) := by
  have hself : (d.releaseAll s c call locks phase).mutexes c =
      { ticket := (s.mutexes c).ticket + 1, phase := phase } := Function.update_self _ _ _
  have hother : ∀ c' ≠ c, (d.releaseAll s c call locks phase).mutexes c' = s.mutexes c' :=
    fun c' hne => Function.update_of_ne hne _ _
  have hown := h.own c call hcall
  refine h.step_of c ⟨hother, by rw [hself]; exact Nat.le_succ _, fun call' hsome => ?_,
    fun m hm => (mem_releaseAll hphase hm).imp_left fun hold => ⟨m, hold, Follows.refl m⟩,
    fun call' received locks' locksFailed hlocking => ?_, fun call' locks' hsome => ?_,
    fun call' locks' hsome => ?_, h.sound, fun c' => ?_⟩
  · rw [hself, hphase] at hsome
    obtain rfl := Option.some.inj hsome
    exact hown
  · rw [hself] at hlocking
    exact absurd hlocking (hround _ _ _ _)
  · rw [hself] at hsome
    rcases hrecorded with hnone | ⟨hempty, _⟩
    · rw [hnone] at hsome
      exact nomatch hsome
    · rw [hempty] at hsome
      obtain ⟨_, rfl⟩ := Prod.mk.inj (Option.some.inj hsome)
      exact Finset.empty_subset _
  · rw [hself] at hsome
    exact absurd hsome (hheld _ _)
  · refine (h.backed c').of (fun call' locks' hsome => ?_) rfl
    by_cases hc : c' = c
    · subst hc
      rw [hself] at hsome
      rcases hrecorded with hnone | ⟨hempty, hbefore⟩
      · rw [hnone] at hsome
        exact nomatch hsome
      · rw [hempty] at hsome
        obtain ⟨rfl, rfl⟩ := Prod.mk.inj (Option.some.inj hsome)
        refine ⟨locks, hbefore, fun locker => ?_⟩
        rw [if_neg (Finset.notMem_empty _), Nat.add_zero]
        have hle := claims_releaseAll d s c' call locks phase (d.owner c')
          call.uid locker
        simp only [and_self, and_true] at hle
        exact hle
    · rw [hother c' hc] at hsome
      refine ⟨locks', hsome, fun locker => Nat.add_le_add_right ?_ _⟩
      -- The releases are not about another call.
      have hle := claims_releaseAll d s c call locks phase (d.owner c')
        call'.uid locker
      rw [if_neg fun hsame => hown.apart c' call' hc (Phase.call?_of_recorded? hsome)
        ⟨hsame.2.1.symm, hsame.2.2.symm⟩] at hle
      exact hle

/-- A grant that is collected is counted on from then on. -/
theorem Accounted.collect {call : Call} {received locker : Nat} {locks : Finset Nat}
    {locksFailed : Nat} {isReadLock : Bool} {args : LockArgs}
    (hphase : (s.mutexes c).phase = .locking call received locks locksFailed)
    (hm : .granted c (s.mutexes c).ticket locker isReadLock args true ∈ s.inFlight) :
    d.Accounted
      ((s.answer (.granted c (s.mutexes c).ticket locker isReadLock args true) []).setPhase
      c (.locking call (received + 1) (insert locker locks) locksFailed)) := by
  generalize hnext : (s.answer _ []).setPhase c _ = s'
  have hself : s'.mutexes c =
      ⟨(s.mutexes c).ticket, .locking call (received + 1) (insert locker locks) locksFailed⟩ := by
    rw [← hnext]
    exact Function.update_self _ _ _
  have hother : ∀ c' ≠ c, s'.mutexes c' = s.mutexes c' := by
    intro c' hne
    rw [← hnext]
    exact Function.update_of_ne hne _ _
  have hcalled : (s.mutexes c).phase.call? = some call := by
    rw [hphase]
    rfl
  have hcount : ∀ owner uid at',
      s'.claims owner uid at' + (if (Message.granted c (s.mutexes c).ticket locker isReadLock args
        true).claims owner uid at' then 1 else 0) = s.claims owner uid at' := by
    intro owner uid at'
    rw [← hnext]
    exact claims_answer hm [] owner uid at'
  have htables : s'.tables = s.tables := by
    rw [← hnext]
    rfl
  refine h.step_of c ⟨hother, by rw [hself], fun call' hsome => ?_, fun m' hm' => Or.inl ?_,
    fun call' received' locks' locksFailed' hlocking => ?_, fun call' locks' hsome => ?_,
    fun call' locks' hheld => ?_, fun at' => htables ▸ h.sound at', fun c' => ?_⟩
  · rw [hself] at hsome
    obtain rfl := Option.some.inj hsome
    exact h.own c _ hcalled
  · rw [← hnext] at hm'
    rcases mem_answer hm' with hold | hnew
    · exact ⟨m', hold, Follows.refl m'⟩
    · exact absurd hnew List.not_mem_nil
  · rw [hself] at hlocking ⊢
    obtain ⟨rfl, _, _, _⟩ := Phase.locking.inj hlocking
    exact Or.inr ⟨rfl, _, _, _, hphase⟩
  · rw [hself] at hsome
    obtain ⟨rfl, rfl⟩ := Prod.mk.inj (Option.some.inj hsome)
    refine Finset.insert_subset ?_ (h.range c call locks (by rw [hphase]; rfl))
    exact Finset.mem_range.mpr (h.asked _ hm c _ locker rfl).1
  · rw [hself] at hheld
    exact nomatch hheld
  · refine (h.backed c').of (fun call' locks' hsome => ?_) htables
    by_cases hc : c' = c
    · subst hc
      rw [hself] at hsome
      obtain ⟨rfl, rfl⟩ := Prod.mk.inj (Option.some.inj hsome)
      refine ⟨locks, by rw [hphase]; rfl, fun at' => ?_⟩
      have hsum := hcount (d.owner c') call.uid at'
      by_cases hat : at' = locker
      · -- The answer no longer claims the lock that is now counted on.
        subst hat
        have hsays := h.current c' call _ _ _ hphase _ hm at' rfl
        obtain ⟨_, rfl⟩ := Prod.mk.inj (Option.some.inj hsays)
        rw [if_pos (by simp [Message.claims, Dsync.args])] at hsum
        rw [if_pos (Finset.mem_insert_self _ _)]
        omega
      · rw [if_congr (by rw [Finset.mem_insert, or_iff_right hat]) rfl rfl]
        omega
    · rw [hother c' hc] at hsome
      have hsum := hcount (d.owner c') call'.uid
      exact ⟨locks', hsome, fun at' => Nat.add_le_add_right (by have := hsum at'; omega) _⟩

/-- Everything stays accounted for, as long as calls begin unshared. -/
theorem Accounted.step (hstep : d.Step d.Unshared s s') : d.Accounted s' := by
  cases hstep with
  | lockBlocking _ hunshared =>
    refine h.lock hunshared.ownCall fun locker resource _ => ?_
    have hnone : s.claims (d.owner _) _ locker = 0 := List.countP_eq_zero.mpr fun m hm hclaims =>
      hunshared.unused m hm (Message.isOf_of_claims hclaims)
    rw [hnone]
    exact Nat.zero_le _
  | serveLock hm => exact h.serveLock hm
  | @requestFails c _ _ _ _ hm =>
    refine h.answered c hm (fun m' hm' => ?_) fun _ _ _ => ?_
    · rw [List.mem_singleton] at hm'
      subst hm'
      exact ⟨Or.inr rfl, Or.inr rfl⟩
    · exact Nat.le_of_eq rfl
  | @answerLost c _ _ _ _ _ hm =>
    refine h.answered c hm (fun m' hm' => ?_) fun _ _ _ => Nat.zero_le _
    rw [List.mem_singleton] at hm'
    subst hm'
    exact ⟨Or.inr rfl, Or.inr rfl⟩
  | @collect c call received _ _ locks locksFailed _ locked _ hphase _ hticket hm =>
    subst hticket
    cases locked with
    | true => exact h.collect hphase hm
    | false =>
      have hdropped := h.answered c hm (fun _ hnone => absurd hnone List.not_mem_nil)
        fun _ _ _ => Nat.zero_le _
      refine hdropped.setPhase (fun call' hsome => ?_) (fun call' _ _ _ hlocking => ?_)
        (fun call' locks' hsome => ?_) fun _ _ hheld => nomatch hheld
      · exact (congrArg Phase.call? hphase).trans hsome
      · obtain ⟨rfl, _⟩ := Phase.locking.inj hlocking
        exact ⟨_, _, _, hphase⟩
      · exact (congrArg Phase.recorded? hphase).trans hsome
  | timeout hphase _ =>
    refine h.setPhase (fun _ hsome => (congrArg Phase.call? hphase).trans hsome)
      (fun _ _ _ _ hlocking => ?_)
      (fun _ _ hsome => (congrArg Phase.recorded? hphase).trans hsome)
      fun _ _ hheld => nomatch hheld
    obtain ⟨rfl, _⟩ := Phase.locking.inj hlocking
    exact ⟨_, _, _, hphase⟩
  | lockSucceeds hphase _ hquorum =>
    refine h.setPhase (fun _ hsome => (congrArg Phase.call? hphase).trans hsome)
      (fun _ _ _ _ hlocking => nomatch hlocking)
      (fun _ _ hsome => (congrArg Phase.recorded? hphase).trans hsome) fun _ _ hheld => ?_
    obtain ⟨rfl, rfl⟩ := Phase.held.inj hheld
    exact hquorum.1
  | lockFails hphase _ _ =>
    exact h.releaseAll (congrArg Phase.call? hphase) rfl
      (Or.inr ⟨rfl, congrArg Phase.recorded? hphase⟩) (fun _ _ _ _ heq => nomatch heq)
      fun _ _ heq => nomatch heq
  | @releaseAbandoned c _ _ _ locked _ hm _ =>
    refine h.answered c hm (fun m' hm' => ?_) fun owner uid locker => ?_
    · cases locked with
      | false => exact absurd hm' List.not_mem_nil
      | true =>
        rw [if_pos rfl, List.mem_singleton] at hm'
        subst hm'
        exact ⟨Or.inr rfl, Or.inl rfl⟩
    · -- A late grant is used up by its release, and nothing else.
      cases locked with
      | false => exact Nat.zero_le _
      | true => rw [if_pos rfl, List.countP_singleton, Message.claims, Message.claims,
          Bool.true_and]
  | serveRelease hm => exact h.serveRelease hm
  | undo hphase _ =>
    exact h.setPhase (fun _ hsome => (congrArg Phase.call? hphase).trans hsome)
      (fun _ _ _ _ hlocking => nomatch hlocking)
      (fun _ _ hsome => (congrArg Phase.recorded? hphase).trans hsome) fun _ _ hheld =>
        nomatch hheld
  | @retry c call hphase =>
    refine h.lock (h.own c call (congrArg Phase.call? hphase)) fun locker resource hresource => ?_
    exact (Nat.le_add_right _ _).trans
      (h.backed c call ∅ (congrArg Phase.recorded? hphase) locker resource hresource)
  | lockTimesOut _ | unlocked _ _ =>
    exact h.setPhase (fun _ hsome => nomatch hsome) (fun _ _ _ _ hlocking => nomatch hlocking)
      (fun _ _ hsome => nomatch hsome) fun _ _ hheld => nomatch hheld
  | unlock hphase | unlockAgain hphase _ =>
    exact h.releaseAll (congrArg Phase.call? hphase) rfl (Or.inl rfl)
      (fun _ _ _ _ heq => nomatch heq) fun _ _ heq => nomatch heq
  | @unlockAnswered c _ _ _ _ _ _ hphase _ _ hm =>
    have hdropped := h.answered c hm (fun _ hnone => absurd hnone List.not_mem_nil)
      fun _ _ _ => Nat.zero_le _
    exact hdropped.setPhase (fun _ hsome => (congrArg Phase.call? hphase).trans hsome)
      (fun _ _ _ _ hlocking => nomatch hlocking) (fun _ _ hsome => nomatch hsome)
      fun _ _ hheld => nomatch hheld
  | unlockGivenUp hphase _ =>
    exact h.setPhase (fun _ hsome => (congrArg Phase.call? hphase).trans hsome)
      (fun _ _ _ _ hlocking => nomatch hlocking) (fun _ _ hsome => nomatch hsome)
      fun _ _ hheld => nomatch hheld

end

omit [DecidableEq κ] in
/-- Two locks on one resource, of which one is for writing, would both need the
locker that their quorums have in common. -/
theorem Accounted.excludes (h : d.Accounted s) : d.Excludes s := by
  intro c c' isReadLock resource hne hwrites hholds hmem hmem'
  obtain ⟨call, locks, hheld, hwrite⟩ := hwrites
  obtain ⟨call', locks', hheld', rfl⟩ := hholds
  have hrecorded := congrArg Phase.recorded? hheld
  have hrecorded' := congrArg Phase.recorded? hheld'
  have hcall := Phase.call?_of_recorded? hrecorded
  have hcall' := Phase.call?_of_recorded? hrecorded'
  have hquorum := h.quorum c call locks hheld
  rw [hwrite] at hquorum
  obtain ⟨locker, hlocker, hlocker'⟩ := exists_common_locker (h.range c call locks hrecorded)
    (h.range c' call' locks' hrecorded') hquorum (h.quorum c' call' locks' hheld')
  have hlocked : resource ∈ LockMap.locked call.isReadLock (d.args c call.uid) := by
    rw [hwrite]
    exact hmem
  have hlocked' : resource ∈ LockMap.locked call'.isReadLock (d.args c' call'.uid) := by
    cases hread : call'.isReadLock with
    | false => exact hmem'
    | true =>
      -- A single name is the first one.
      have hsingle := (h.own c' call' hcall').single hread
      change resource ∈ (d.names c').head?.toList
      match hnames : d.names c' with
      | [] => exact absurd (hnames ▸ hmem') List.not_mem_nil
      | [_] =>
        rw [hnames] at hmem'
        exact hmem'
      | _ :: _ :: _ =>
        rw [hnames] at hsingle
        exact absurd hsingle (by simp)
  have hgranted := h.backed c call locks hrecorded locker resource hlocked
  have hgranted' := h.backed c' call' locks' hrecorded' locker resource hlocked'
  rw [if_pos hlocker, hwrite] at hgranted
  rw [if_pos hlocker'] at hgranted'
  obtain ⟨_, howner, huid⟩ := (h.sound locker).alone (Nat.lt_of_lt_of_le (Nat.succ_pos _) hgranted)
    (Nat.lt_of_lt_of_le (Nat.succ_pos _) hgranted')
  exact (h.own c call hcall).apart c' call' (Ne.symm hne) hcall' ⟨howner, huid⟩

end Steps

/-- In every run in which calls begin unshared, no one else ever holds a lock on
a resource that is locked for writing. -/
theorem excludes_of_unshared [DecidableEq κ] (d : Dsync κ) {s : Network κ}
    (hruns : Runs (d.Step d.Unshared) initial s) : d.Excludes s :=
  (hruns.invariant (fun _ _ h hstep => h.step hstep) d.accounted_initial).excludes

/-- Whoever may begin a call, no locker ever has a lock beside one for writing. -/
theorem tables_sound [DecidableEq κ] (d : Dsync κ) {admits : Network κ → κ → Call → Prop}
    {s : Network κ} (hruns : Runs (d.Step admits) initial s) :
    ∀ locker, (s.tables locker).Sound := by
  have hstep : ∀ s s', (∀ locker, (s.tables locker).Sound) → d.Step admits s s' →
      ∀ locker, (s'.tables locker).Sound := by
    intro s s' h hstep
    cases hstep with
    | serveLock =>
      exact (Function.forall_update_iff _ fun _ => LockMap.Sound).mpr
        ⟨(h _).grant _ _, fun locker _ => h locker⟩
    | serveRelease =>
      exact (Function.forall_update_iff _ fun _ => LockMap.Sound).mpr
        ⟨(h _).release _ _, fun locker _ => h locker⟩
    | _ => exact h
  exact hruns.invariant hstep d.accounted_initial.sound

end Dsync

section Examples

def oneName : Dsync Bool where
  lockers := 1
  names := fun _ => ["config"]
  owner := fun _ => "node"

def twoNames : Dsync Bool where
  lockers := 1
  names := fun c => if c then ["b"] else ["a", "b"]
  owner := fun _ => "node"

/-- Any call may begin at any time. -/
abbrev anyCall : Network Bool → Bool → Call → Prop := fun _ _ _ => True

theorem oneName_excludes : ∃ s, Runs (oneName.Step oneName.Unshared) Dsync.initial s ∧
    s.Holds false false ∧ oneName.Excludes s := by
  have hstart : Runs (oneName.Step oneName.Unshared) Dsync.initial Dsync.initial := .refl
  have hunshared : oneName.Unshared Dsync.initial false ⟨"x", false⟩ :=
    ⟨fun h => Bool.noConfusion h, (fun _ _ h => nomatch h), fun _ h => absurd h List.not_mem_nil⟩
  have hheld := hstart.tail (@Dsync.Step.lockBlocking _ _ _ _ _ false ⟨"x", false⟩ rfl hunshared)
    |>.tail (@Dsync.Step.serveLock _ _ _ _ _ false 1 0 false (oneName.args false "x") (by decide))
    |>.tail (@Dsync.Step.collect _ _ _ _ _ false _ _ 1 0 _ _ false true (oneName.args false "x")
      rfl (by decide) rfl (by decide))
    |>.tail (@Dsync.Step.lockSucceeds _ _ _ _ _ false _ _ _ _ rfl (by decide) (by decide))
  exact ⟨_, hheld, ⟨⟨"x", false⟩, _, rfl, rfl⟩, oneName.excludes_of_unshared hheld⟩

theorem oneName_run : ∃ s, Runs (oneName.Step anyCall) Dsync.initial s ∧
    s.Holds false false ∧ s.Holds true false := by
  have hstart : Runs (oneName.Step anyCall) Dsync.initial Dsync.initial := .refl
  have hheld := hstart.tail (@Dsync.Step.lockBlocking _ _ _ _ _ false ⟨"x", false⟩ rfl trivial)
    |>.tail (@Dsync.Step.serveLock _ _ _ _ _ false 1 0 false (oneName.args false "x") (by decide))
    |>.tail (@Dsync.Step.collect _ _ _ _ _ false _ _ 1 0 _ _ false true (oneName.args false "x")
      rfl (by decide) rfl (by decide))
    |>.tail (@Dsync.Step.lockSucceeds _ _ _ _ _ false _ _ _ _ rfl (by decide) (by decide))
  have hagain := hheld.tail (@Dsync.Step.unlock _ _ _ _ _ false _ _ rfl)
    |>.tail (@Dsync.Step.unlockGivenUp _ _ _ _ _ false _ _ _ 0 rfl (by decide))
    |>.tail (@Dsync.Step.unlockAgain _ _ _ _ _ false _ _ rfl (by decide))
    |>.tail (@Dsync.Step.serveRelease _ _ _ _ _ false 3 0 false (oneName.args false "x")
      (by decide))
    |>.tail (@Dsync.Step.unlockAnswered _ _ _ _ _ false _ _ _ 3 0 true rfl (by decide) rfl
      (by decide))
    |>.tail (@Dsync.Step.unlocked _ _ _ _ _ false _ _ rfl (by decide))
    |>.tail (@Dsync.Step.lockBlocking _ _ _ _ _ false ⟨"x", false⟩ rfl trivial)
    |>.tail (@Dsync.Step.serveLock _ _ _ _ _ false 4 0 false (oneName.args false "x") (by decide))
    |>.tail (@Dsync.Step.collect _ _ _ _ _ false _ _ 4 0 _ _ false true (oneName.args false "x")
      rfl (by decide) rfl (by decide))
    |>.tail (@Dsync.Step.lockSucceeds _ _ _ _ _ false _ _ _ _ rfl (by decide) (by decide))
  have hboth := hagain.tail (@Dsync.Step.serveRelease _ _ _ _ _ false 2 0 false
      (oneName.args false "x") (by decide))
    |>.tail (@Dsync.Step.lockBlocking _ _ _ _ _ true ⟨"y", false⟩ rfl trivial)
    |>.tail (@Dsync.Step.serveLock _ _ _ _ _ true 1 0 false (oneName.args true "y") (by decide))
    |>.tail (@Dsync.Step.collect _ _ _ _ _ true _ _ 1 0 _ _ false true (oneName.args true "y")
      rfl (by decide) rfl (by decide))
    |>.tail (@Dsync.Step.lockSucceeds _ _ _ _ _ true _ _ _ _ rfl (by decide) (by decide))
  exact ⟨_, hboth, ⟨⟨"x", false⟩, _, rfl, rfl⟩, ⟨⟨"y", false⟩, _, rfl, rfl⟩⟩

theorem oneName_tables : ∃ s : Network Bool,
    s.Holds false false ∧ s.Holds true false ∧ ∀ locker, (s.tables locker).Sound :=
  let ⟨s, hruns, hfirst, hsecond⟩ := oneName_run
  ⟨s, hfirst, hsecond, oneName.tables_sound hruns⟩

theorem twoNames_run : ∃ s, Runs (twoNames.Step anyCall) Dsync.initial s ∧
    s.Holds false true ∧ s.Holds true false := by
  have hstart : Runs (twoNames.Step anyCall) Dsync.initial Dsync.initial := .refl
  have hboth := hstart.tail (@Dsync.Step.lockBlocking _ _ _ _ _ false ⟨"x", true⟩ rfl trivial)
    |>.tail (@Dsync.Step.serveLock _ _ _ _ _ false 1 0 true (twoNames.args false "x") (by decide))
    |>.tail (@Dsync.Step.collect _ _ _ _ _ false _ _ 1 0 _ _ true true (twoNames.args false "x")
      rfl (by decide) rfl (by decide))
    |>.tail (@Dsync.Step.lockSucceeds _ _ _ _ _ false _ _ _ _ rfl (by decide) (by decide))
    |>.tail (@Dsync.Step.lockBlocking _ _ _ _ _ true ⟨"y", false⟩ rfl trivial)
    |>.tail (@Dsync.Step.serveLock _ _ _ _ _ true 1 0 false (twoNames.args true "y") (by decide))
    |>.tail (@Dsync.Step.collect _ _ _ _ _ true _ _ 1 0 _ _ false true (twoNames.args true "y")
      rfl (by decide) rfl (by decide))
    |>.tail (@Dsync.Step.lockSucceeds _ _ _ _ _ true _ _ _ _ rfl (by decide) (by decide))
  exact ⟨_, hboth, ⟨⟨"x", true⟩, _, rfl, rfl⟩, ⟨⟨"y", false⟩, _, rfl, rfl⟩⟩

theorem locks_shared :
    (∃ s, Runs (oneName.Step anyCall) Dsync.initial s ∧ ¬ oneName.Excludes s) ∧
      ∃ s, Runs (twoNames.Step anyCall) Dsync.initial s ∧ ¬ twoNames.Excludes s := by
  obtain ⟨s, hruns, hfirst, hsecond⟩ := oneName_run
  obtain ⟨s', hruns', hreads, hwrites⟩ := twoNames_run
  refine ⟨⟨s, hruns, fun hexcludes => ?_⟩, s', hruns', fun hexcludes => ?_⟩
  · exact hexcludes false true false "config" Bool.false_ne_true hfirst hsecond
      List.mem_cons_self List.mem_cons_self
  · exact hexcludes true false true "b" (fun h => Bool.noConfusion h) hwrites hreads
      List.mem_cons_self (List.mem_cons_of_mem _ List.mem_cons_self)

end Examples

end Fs3
