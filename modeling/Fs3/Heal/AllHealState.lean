import Fs3.Foundation.Histories
import Fs3.Foundation.Pairs
import Fs3.Runtime.Time
import Fs3.Tracker.DataUpdateTracker

/-! # The heal sequences of a server

Clients start, force-start and stop heal sequences on paths. -/

namespace Fs3.Heal

open Foundation Listing Tracker

def bgHealingUUID : Name := "0000-0000-0000-0000".toList

def keepHealSeqStateDuration : Int := 600000000000

/-- `healSequence`. -/
structure HealSequence where
  bucket : Name := []
  object : Name := []
  clientToken : Name := []
  forceStarted : Bool := false
  endTime : Time := Time.zero

namespace HealSequence

def hasEnded (h : HealSequence) : Bool :=
  if h.clientToken = bgHealingUUID then false else !h.endTime.isZero

def path (h : HealSequence) : Name := pathJoin h.bucket h.object

end HealSequence

/-- `newHealSequence`. -/
def newHealSequence (bucket object clientToken : Name) (forceStart : Bool) : HealSequence where
  bucket := bucket
  object := object
  clientToken := clientToken
  forceStarted := forceStart

/-- Where a request stands: it waits in `stopHealSequence` for a sequence to end, for its own
answer or to launch its sequence then; it has found a sequence under its path; it is about to
register its sequence; it has started it. -/
inductive Phase (τ : Type) where
  | idle
  | stopping (path : Name) (he : τ) (launches : Bool)
  | checking (oh : τ)
  | registering
  | started
  | answered

/-- `allHealState`, with the requests it serves. -/
structure AllHealState (τ : Type) where
  healSeqMap : List (Name × τ) := []
  sequence : τ → HealSequence := fun _ => {}
  phase : τ → Phase τ := fun _ => .idle

namespace AllHealState

variable {τ : Type} (ahs : AllHealState τ)

def getHealSequence (path : Name) : Option τ := Pairs.value ahs.healSeqMap path

def expired (now : Time) (entry : Name × τ) : Bool :=
  (ahs.sequence entry.2).hasEnded &&
    decide ((ahs.sequence entry.2).endTime + keepHealSeqStateDuration < now)

/-- One round of `periodicHealSeqsClean`. -/
def clean (now : Time) : AllHealState τ :=
  { ahs with healSeqMap := ahs.healSeqMap.filter fun entry => !ahs.expired now entry }

def overlaps (hpath : Name) : Bool :=
  ahs.healSeqMap.any fun entry =>
    !(ahs.sequence entry.2).hasEnded &&
      (hpath.isPrefixOf entry.1 || entry.1.isPrefixOf hpath)

variable [DecidableEq τ]

def moveTo (r : τ) (phase : Phase τ) : AllHealState τ :=
  { ahs with phase := Function.update ahs.phase r phase }

/-- `stopHealSequence` up to where it waits for the sequence to end, for a stop request or the
first step of a forced start. -/
def stopHealSequence (r : τ) (path : Name) (launches : Bool) : AllHealState τ :=
  match ahs.getHealSequence path with
  | some he => ahs.moveTo r (.stopping path he launches)
  | none => ahs.moveTo r (if launches then .registering else .answered)

/-- The end of `stopHealSequence`: the sequence has ended, and under the lock the entry of the
path is deleted. -/
def removeStopped (r : τ) : AllHealState τ :=
  match ahs.phase r with
  | .stopping path he launches =>
    if (ahs.sequence he).hasEnded then
      { ahs with healSeqMap := Pairs.drop ahs.healSeqMap [path] }.moveTo r
        (if launches then .registering else .answered)
    else ahs
  | _ => ahs

/-- `LaunchNewHealSequence` of a new sequence up to the first critical section. -/
def launch (r : τ) (h : HealSequence) : AllHealState τ :=
  match ahs.phase r with
  | .idle =>
    let ahs := { ahs with sequence := Function.update ahs.sequence r h }
    if h.forceStarted then ahs.stopHealSequence r h.path true
    else
      match ahs.getHealSequence h.path with
      | some oh => ahs.moveTo r (.checking oh)
      | none => ahs.moveTo r .registering
  | _ => ahs

def checkFound (r : τ) : AllHealState τ :=
  match ahs.phase r with
  | .checking oh => ahs.moveTo r (if (ahs.sequence oh).hasEnded then .registering else .answered)
  | _ => ahs

/-- The second critical section of `LaunchNewHealSequence`. -/
def register (r : τ) : AllHealState τ :=
  match ahs.phase r with
  | .registering =>
    if ahs.overlaps (ahs.sequence r).path then ahs.moveTo r .answered
    else
      let healSeqMap := Pairs.put ahs.healSeqMap (ahs.sequence r).path r
      { ahs with healSeqMap := healSeqMap }.moveTo r .started
  | _ => ahs

/-- `healSequenceStart` sets the time of the end, once. -/
def finish (r : τ) (now : Time) : AllHealState τ :=
  match ahs.phase r with
  | .started =>
    if (ahs.sequence r).endTime.isZero then
      { ahs with
        sequence := Function.update ahs.sequence r { ahs.sequence r with endTime := now } }
    else ahs
  | _ => ahs

def stop (r : τ) (path : Name) : AllHealState τ :=
  match ahs.phase r with
  | .idle => ahs.stopHealSequence r path false
  | _ => ahs

end AllHealState

/-- What can happen next, in any order: a request takes its next step, a sequence ends, or the
clean-up runs. -/
inductive HealEvent (τ : Type) where
  | stop (r : τ) (path : Name)
  | launch (r : τ) (bucket object clientToken : Name) (forceStart : Bool)
  | checkFound (r : τ)
  | removeStopped (r : τ)
  | register (r : τ)
  | finish (r : τ) (now : Time)
  | clean (now : Time)

def AllHealState.after {τ : Type} [DecidableEq τ] (ahs : AllHealState τ) :
    HealEvent τ → AllHealState τ
  | .stop r path => ahs.stop r path
  | .launch r bucket object clientToken forceStart =>
    ahs.launch r (newHealSequence bucket object clientToken forceStart)
  | .checkFound r => ahs.checkFound r
  | .removeStopped r => ahs.removeStopped r
  | .register r => ahs.register r
  | .finish r now => ahs.finish r now
  | .clean now => ahs.clean now

end Fs3.Heal

/-! ## Running heal sequences are registered

Every sequence that runs should be in the map under its path, and no two that run should have
overlapping paths. The second critical section of a launch keeps both. The end of a stop deletes
whatever the map has under the path by then, which may be a sequence that was launched since the
stopped one ended: the promise is kept in the histories where no stop does that.
-/

namespace Fs3.Heal

open Foundation Listing

namespace AllHealState

variable {τ : Type} {ahs ahs' : AllHealState τ}

def Running (ahs : AllHealState τ) (r : τ) : Prop :=
  ahs.phase r = .started ∧ (ahs.sequence r).hasEnded = false

/-- Every sequence that runs is registered under its own path, and the path of none is a prefix
of another's. -/
structure Registered (ahs : AllHealState τ) : Prop where
  own : ∀ r, ahs.Running r → ahs.getHealSequence (ahs.sequence r).path = some r
  apart : ∀ r r', ahs.Running r → ahs.Running r' → r ≠ r' →
    ¬ (ahs.sequence r).path <+: (ahs.sequence r').path

/-- What the map has are sequences that were started, under their own paths. -/
def HasStarted (ahs : AllHealState τ) : Prop :=
  ∀ entry ∈ ahs.healSeqMap,
    ahs.phase entry.2 = .started ∧ (ahs.sequence entry.2).path = entry.1

structure Inv (ahs : AllHealState τ) : Prop where
  registered : ahs.Registered
  hasStarted : ahs.HasStarted

theorem Registered.mono (hregistered : ahs.Registered)
    (hrunning : ∀ r, ahs'.Running r → ahs.Running r)
    (hpath : ∀ r, ahs'.Running r → (ahs'.sequence r).path = (ahs.sequence r).path)
    (hmap : ∀ r, ahs'.Running r → ahs.getHealSequence (ahs.sequence r).path = some r →
      ahs'.getHealSequence (ahs.sequence r).path = some r) : ahs'.Registered where
  own r hr := by
    rw [hpath r hr]
    exact hmap r hr (hregistered.own r (hrunning r hr))
  apart r r' hr hr' hne := by
    rw [hpath r hr, hpath r' hr']
    exact hregistered.apart r r' (hrunning r hr) (hrunning r' hr') hne

theorem HasStarted.phase_of_value (hstarted : ahs.HasStarted) {path : Name} {r : τ}
    (hvalue : ahs.getHealSequence path = some r) :
    ahs.phase r = .started ∧ (ahs.sequence r).path = path :=
  hstarted (path, r) (Pairs.mem_of_value hvalue)

theorem not_prefix_of_overlaps (hregistered : ahs.Registered) {hpath : Name}
    (hoverlaps : ahs.overlaps hpath = false) {r : τ} (hrunning : ahs.Running r) :
    ¬ hpath <+: (ahs.sequence r).path ∧ ¬ (ahs.sequence r).path <+: hpath := by
  have hmem := Pairs.mem_of_value (hregistered.own r hrunning)
  have hnot := List.any_eq_false.mp hoverlaps _ hmem
  rw [hrunning.2] at hnot
  simpa [List.isPrefixOf_iff_prefix] using hnot

/-! ## One step -/

theorem Inv.clean (hinv : ahs.Inv) (now : Time) : (ahs.clean now).Inv where
  registered := by
    refine hinv.registered.mono (fun r hr => hr) (fun r _ => rfl) fun r hr hvalue => ?_
    refine Pairs.value_filter hvalue ?_
    have hended : (ahs.sequence r).hasEnded = false := hr.2
    simp [expired, hended]
  hasStarted entry hentry := hinv.hasStarted entry (List.mem_filter.mp hentry).1

variable [DecidableEq τ]

theorem Inv.moveTo (hinv : ahs.Inv) {r : τ} {phase : Phase τ} (hnot : ahs.phase r ≠ .started)
    (hphase : phase ≠ .started) : (ahs.moveTo r phase).Inv where
  registered := by
    refine hinv.registered.mono (fun r' hr => ?_) (fun r' _ => rfl) (fun r' _ hvalue => hvalue)
    have hstarted : Function.update ahs.phase r phase r' = .started := hr.1
    refine ⟨?_, hr.2⟩
    by_cases heq : r' = r
    · subst heq
      rw [Function.update_self] at hstarted
      exact absurd hstarted hphase
    · rwa [Function.update_of_ne heq] at hstarted
  hasStarted entry hentry := by
    obtain ⟨hstarted, hpath⟩ := hinv.hasStarted entry hentry
    refine ⟨?_, hpath⟩
    have hne : entry.2 ≠ r := fun heq => hnot (heq ▸ hstarted)
    exact (Function.update_of_ne hne phase ahs.phase).trans hstarted

theorem Inv.stopHealSequence (hinv : ahs.Inv) {r : τ} (hnot : ahs.phase r ≠ .started)
    (path : Name) (launches : Bool) : (ahs.stopHealSequence r path launches).Inv := by
  unfold AllHealState.stopHealSequence
  split
  next => exact hinv.moveTo hnot (by simp)
  next => exact hinv.moveTo hnot (by split <;> simp)

theorem Inv.withSequence (hinv : ahs.Inv) {r : τ} (hnot : ahs.phase r ≠ .started)
    (h : HealSequence) : { ahs with sequence := Function.update ahs.sequence r h }.Inv := by
  have hother : ∀ {r'}, ahs.phase r' = .started → Function.update ahs.sequence r h r' =
      ahs.sequence r' := by
    intro r' hstarted
    have hne : r' ≠ r := by
      rintro rfl
      exact hnot hstarted
    exact Function.update_of_ne hne h ahs.sequence
  constructor
  · refine hinv.registered.mono (fun r' hr => ?_) (fun r' hr => ?_) (fun r' _ hvalue => hvalue)
    · exact ⟨hr.1, (congrArg HealSequence.hasEnded (hother hr.1)).symm.trans hr.2⟩
    · exact congrArg HealSequence.path (hother hr.1)
  · intro entry hentry
    obtain ⟨hstarted, hpath⟩ := hinv.hasStarted entry hentry
    exact ⟨hstarted, (congrArg HealSequence.path (hother hstarted)).trans hpath⟩

theorem Inv.launch (hinv : ahs.Inv) (r : τ) (h : HealSequence) : (ahs.launch r h).Inv := by
  unfold AllHealState.launch
  split
  next hidle =>
    have hnot : ahs.phase r ≠ .started := by rw [hidle]; nofun
    have hnew := hinv.withSequence hnot h
    dsimp only
    split
    next => exact hnew.stopHealSequence hnot h.path true
    next =>
      split
      next oh _ => exact hnew.moveTo hnot (by simp)
      next => exact hnew.moveTo hnot (by simp)
  next => exact hinv

theorem Inv.stop (hinv : ahs.Inv) (r : τ) (path : Name) : (ahs.stop r path).Inv := by
  unfold AllHealState.stop
  split
  next hidle => exact hinv.stopHealSequence (by rw [hidle]; nofun) path false
  next => exact hinv

theorem Inv.checkFound (hinv : ahs.Inv) (r : τ) : (ahs.checkFound r).Inv := by
  unfold AllHealState.checkFound
  split
  next hchecking => exact hinv.moveTo (by rw [hchecking]; nofun) (by split <;> simp)
  next => exact hinv

/-- A sequence is started with no other on an overlapping path. -/
theorem Inv.register (hinv : ahs.Inv) (r : τ) : (ahs.register r).Inv := by
  unfold AllHealState.register
  split
  next hregistering =>
    split
    next => exact hinv.moveTo (by rw [hregistering]; nofun) (by simp)
    next hoverlaps =>
      have hfree := fun r' => @not_prefix_of_overlaps τ ahs hinv.registered _
        (Bool.eq_false_iff.mpr hoverlaps) r'
      -- a sequence that runs afterwards ran before, or is the new one
      have hrunning : ∀ r', r' ≠ r →
          (Function.update ahs.phase r .started r' = .started ∧
            (ahs.sequence r').hasEnded = false) → ahs.Running r' := by
        intro r' hne hr
        exact ⟨(Function.update_of_ne hne _ ahs.phase).symm.trans hr.1, hr.2⟩
      constructor
      · constructor
        · intro r' hr
          have hvalue := @Pairs.value_put _ _ _ ahs.healSeqMap (ahs.sequence r).path r
            (ahs.sequence r').path
          by_cases heq : r' = r
          · subst heq
            exact hvalue.trans (if_pos rfl)
          · have hold := hrunning r' heq hr
            refine hvalue.trans ((if_neg fun hsame => ?_).trans (hinv.registered.own r' hold))
            exact (hfree r' hold).1 (hsame ▸ List.prefix_rfl)
        · intro r₁ r₂ hr₁ hr₂ hne
          by_cases heq₁ : r₁ = r
          · subst heq₁
            exact (hfree r₂ (hrunning r₂ (Ne.symm hne) hr₂)).1
          · by_cases heq₂ : r₂ = r
            · subst heq₂
              exact (hfree r₁ (hrunning r₁ hne hr₁)).2
            · exact hinv.registered.apart r₁ r₂ (hrunning r₁ heq₁ hr₁) (hrunning r₂ heq₂ hr₂) hne
      · intro entry hentry
        rcases Pairs.mem_put.mp hentry with rfl | ⟨hold, -⟩
        · exact ⟨Function.update_self r _ ahs.phase, rfl⟩
        · obtain ⟨hstarted, hpath⟩ := hinv.hasStarted entry hold
          refine ⟨?_, hpath⟩
          have hne : entry.2 ≠ r := by
            intro heq
            rw [heq, hregistering] at hstarted
            cases hstarted
          exact (Function.update_of_ne hne _ ahs.phase).trans hstarted
  next => exact hinv

theorem Inv.finish (hinv : ahs.Inv) (r : τ) (now : Time) : (ahs.finish r now).Inv := by
  unfold AllHealState.finish
  split
  next hstarted =>
    split
    next hzero =>
      have hpath : ∀ r', (Function.update ahs.sequence r { ahs.sequence r with endTime := now }
          r').path = (ahs.sequence r').path := by
        intro r'
        by_cases heq : r' = r
        · subst heq
          rw [Function.update_self]
          rfl
        · rw [Function.update_of_ne heq]
      constructor
      · refine hinv.registered.mono (fun r' hr => ?_) (fun r' _ => hpath r')
          (fun r' _ hvalue => hvalue)
        refine ⟨hr.1, ?_⟩
        by_cases heq : r' = r
        · subst heq
          unfold HealSequence.hasEnded
          rw [hzero]
          split <;> rfl
        · exact (congrArg HealSequence.hasEnded
            (Function.update_of_ne heq _ ahs.sequence)).symm.trans hr.2
      · intro entry hentry
        obtain ⟨hentry', hkey⟩ := hinv.hasStarted entry hentry
        exact ⟨hentry', (hpath entry.2).trans hkey⟩
    next => exact hinv
  next => exact hinv

/-! ## What the end of a stop deletes -/

/-- A stop that gets to its end finds under its path nothing but a sequence that has ended. -/
def RemovesEnded (ahs : AllHealState τ) : HealEvent τ → Prop
  | .removeStopped r => ∀ path he launches, ahs.phase r = .stopping path he launches →
      (ahs.sequence he).hasEnded = true →
      ∀ h, ahs.getHealSequence path = some h → (ahs.sequence h).hasEnded = true
  | _ => True

theorem Inv.removeStopped (hinv : ahs.Inv) {r : τ} (hgood : ahs.RemovesEnded (.removeStopped r)) :
    (ahs.removeStopped r).Inv := by
  unfold AllHealState.removeStopped
  split
  next path he launches hstopping =>
    split
    next hended =>
      refine Inv.moveTo ⟨?_, ?_⟩ (by simp [hstopping]) (by split <;> simp)
      · refine hinv.registered.mono (fun r' hr => hr) (fun r' _ => rfl) fun r' hr hvalue => ?_
        have hne : (ahs.sequence r').path ∉ [path] := by
          intro hsame
          rw [List.mem_singleton.mp hsame] at hvalue
          have hstopped := hgood path he launches hstopping hended r' hvalue
          rw [show (ahs.sequence r').hasEnded = false from hr.2] at hstopped
          cases hstopped
        exact (Pairs.value_drop _ _).trans ((if_neg hne).trans hvalue)
      · exact fun entry hentry => hinv.hasStarted entry (List.mem_filter.mp hentry).1
    next => exact hinv
  next => exact hinv

theorem Inv.not_registered_removeStopped (hinv : ahs.Inv) {r : τ}
    (hbad : ¬ ahs.RemovesEnded (.removeStopped r)) : ¬ (ahs.removeStopped r).Registered := by
  unfold RemovesEnded at hbad
  push Not at hbad
  obtain ⟨path, he, launches, hstopping, hended, h, hvalue, hrunning⟩ := hbad
  intro hregistered
  obtain ⟨hstarted, hpath⟩ := hinv.hasStarted.phase_of_value hvalue
  have hne : h ≠ r := by
    rintro rfl
    rw [hstopping] at hstarted
    cases hstarted
  unfold AllHealState.removeStopped at hregistered
  rw [hstopping] at hregistered
  dsimp only at hregistered
  rw [if_pos hended] at hregistered
  have hown := hregistered.own h
    ⟨(Function.update_of_ne hne _ ahs.phase).trans hstarted, Bool.eq_false_iff.mpr hrunning⟩
  have hnone := (@Pairs.value_drop _ _ _ ahs.healSeqMap [path] (ahs.sequence h).path).trans
    (if_pos (List.mem_singleton.mpr hpath))
  exact absurd (hnone.symm.trans hown) (by simp)

theorem Inv.after (hinv : ahs.Inv) (event : HealEvent τ) (hgood : ahs.RemovesEnded event) :
    (ahs.after event).Inv := by
  cases event with
  | stop r path => exact hinv.stop r path
  | launch r bucket object clientToken forceStart => exact hinv.launch r _
  | checkFound r => exact hinv.checkFound r
  | removeStopped r => exact hinv.removeStopped hgood
  | register r => exact hinv.register r
  | finish r now => exact hinv.finish r now
  | clean now => exact hinv.clean now

theorem Inv.not_registered_after (hinv : ahs.Inv) (event : HealEvent τ)
    (hbad : ¬ ahs.RemovesEnded event) : ¬ (ahs.after event).Registered := by
  cases event with
  | removeStopped r => exact hinv.not_registered_removeStopped hbad
  | _ => exact absurd trivial hbad

omit [DecidableEq τ] in
theorem inv_start : Inv ({} : AllHealState τ) where
  registered := ⟨fun _ hr => (nomatch hr.1), fun _ _ hr => (nomatch hr.1)⟩
  hasStarted := fun _ hentry => absurd hentry List.not_mem_nil

/-- From the empty map, the sequences that run are registered and apart in every state exactly
when no stop deletes the entry of a sequence that runs. -/
theorem registered_iff_removesEnded (events : List (HealEvent τ)) :
    Always after Registered ({} : AllHealState τ) events ↔
      Guarded after RemovesEnded ({} : AllHealState τ) events :=
  always_iff_guarded (fun _ event hinv hgood => hinv.after event hgood)
    (fun _ hinv => hinv.registered) (fun _ event hinv hbad => hinv.not_registered_after event hbad)
    inv_start

end AllHealState

/-- A stop waits for a sequence that ends, another client starts the next one on the same path,
and then the stop deletes its entry. -/
def lateStop : List (HealEvent Nat) :=
  [.launch 0 "bucket".toList [] "first".toList false, .register 0, .stop 1 "bucket".toList,
    .finish 0 (1 : Int), .launch 2 "bucket".toList [] "second".toList false, .checkFound 2,
    .register 2, .removeStopped 1]

theorem lateStop_not_registered :
    ¬ Always AllHealState.after AllHealState.Registered ({} : AllHealState Nat) lateStop := by
  intro halways
  have hown := (halways lateStop List.prefix_rfl).own 2 ⟨rfl, by decide⟩
  exact absurd hown (by decide)

end Fs3.Heal
