import Fs3.Foundation.Histories
import Fs3.Runtime.Time

/-! # The throttle of a bucket

Senders take what their limit allows in an interval, and a routine that runs while bytes are taken
allots the next interval. -/

namespace Fs3.Bandwidth

open Foundation

/-- Where a sender is in `GetLimitForBytes`. -/
inductive Sender where
  | idle
  | waiting (want : Int)
  /-- The routine has woken it, and it has not looked again. -/
  | woken (want : Int)
  deriving DecidableEq

def Sender.wake : Sender → Sender
  | waiting want => woken want
  | sender => sender

/-- `throttle` with its senders, and what has happened since the last refill. -/
structure Throttle (τ : Type) where
  freeBytes : Int := 0
  bytesPerInterval : Int := 0
  goGenerate : Bool := false
  /-- Whether there is a condition variable. -/
  cond : Bool := false
  /-- Whether `generateBandwidth` runs. -/
  generating : Bool := false
  senders : τ → Sender := fun _ => .idle
  limit : Int := 0
  allowance : Int := 0
  granted : Int := 0
  givenBack : Int := 0
  /-- A positive limit was taken for none. -/
  unlimited : Bool := false
  /-- A missing condition variable was used. -/
  dereferenced : Bool := false

/-- What a quarter of a second gets. -/
def bytesPerInterval (bandwidthBiPS : Int) : Int :=
  (wrap64 (250000000 * bandwidthBiPS)).tdiv 1000000000

def newThrottle (τ : Type) (bytesPerSecond : Int) : Throttle τ :=
  if bytesPerSecond = 0 then {}
  else
    { freeBytes := bytesPerInterval bytesPerSecond
      bytesPerInterval := bytesPerInterval bytesPerSecond
      cond := true
      limit := bytesPerSecond
      allowance := bytesPerInterval bytesPerSecond }

namespace Throttle

variable {τ : Type} (s : Throttle τ)

def setBandwidth (bandwidthBiPS : Int) : Throttle τ :=
  { s with bytesPerInterval := Bandwidth.bytesPerInterval bandwidthBiPS, limit := bandwidthBiPS }

def releaseUnusedBandwidth (bytes : Int) : Throttle τ :=
  { s with freeBytes := s.freeBytes + bytes, givenBack := s.givenBack + bytes }

/-- `generateBandwidth` at a tick: it stops, or a new window is available. -/
def tick : Throttle τ :=
  if s.freeBytes = s.bytesPerInterval then { s with goGenerate := false, generating := false }
  else
    { s with
      freeBytes := s.bytesPerInterval
      senders := fun t => (s.senders t).wake
      allowance := s.bytesPerInterval
      granted := 0
      givenBack := 0 }

variable [DecidableEq τ]

/-- A turn of the loop of `GetLimitForBytes`, with what it returns. -/
def turn (t : τ) (want : Int) : Option Int × Throttle τ :=
  if s.freeBytes < want ∧ s.freeBytes ≤ 0 then
    (none, { s with senders := Function.update s.senders t (.waiting want) })
  else
    let send := if s.freeBytes < want then s.freeBytes else want
    (some send,
      { s with
        freeBytes := s.freeBytes - send
        goGenerate := true
        generating := s.generating || !s.goGenerate
        senders := Function.update s.senders t .idle
        granted := s.granted + send })

def getLimitForBytes (t : τ) (want : Int) : Option Int × Throttle τ :=
  if want ≤ 0 then (some want, s)
  else if s.bytesPerInterval = 0 then
    (some want, { s with unlimited := s.unlimited || decide (0 < s.limit) })
  else if !s.cond then (none, { s with dereferenced := true })
  else s.turn t want

end Throttle

variable {τ : Type}

/-- There is no limit, or one that is a byte for an interval at least. -/
def Kept (limit : Int) : Prop := limit = 0 ∨ 0 < limit ∧ 0 < bytesPerInterval limit

/-- A step. A guarded one keeps the kind of the limit, ends no context, and does not stop the routine
while a sender waits. -/
inductive Step [DecidableEq τ] (guarded : Bool) (s : Throttle τ) : Throttle τ → Prop
  | get (t : τ) (want : Int) (hidle : s.senders t = .idle) :
      Step guarded s (s.getLimitForBytes t want).2
  | again (t : τ) (want : Int) (hwoken : s.senders t = .woken want) :
      Step guarded s (s.turn t want).2
  | release (bytes : Int) (hbytes : 0 < bytes) : Step guarded s (s.releaseUnusedBandwidth bytes)
  | set (limit : Int) (hkept : guarded = true → Kept limit ∧ (limit = 0 ↔ s.limit = 0)) :
      Step guarded s (s.setBandwidth limit)
  | tick (hruns : s.generating = true)
      (hneeded : guarded = true → s.freeBytes = s.bytesPerInterval →
        ∀ t want, s.senders t ≠ .waiting want) :
      Step guarded s s.tick
  | done (hnot : guarded ≠ true) : Step guarded s { s with generating := false }

structure Sound (s : Throttle τ) : Prop where
  within : s.limit ≠ 0 → s.granted - s.givenBack ≤ s.allowance
  limited : s.unlimited = false
  cond : s.dereferenced = false
  served : ∀ t want, s.senders t = .waiting want → s.generating = true

/-- A throttle without a limit lets everything pass, and one with a limit has what its routine
needs. -/
structure Inv (s : Throttle τ) : Prop where
  limited : s.unlimited = false
  cond : s.dereferenced = false
  free : s.limit = 0 → s.bytesPerInterval = 0 ∧ s.generating = false ∧ ∀ t, s.senders t = .idle
  positive : s.limit ≠ 0 → 0 < s.bytesPerInterval ∧ s.cond = true
  window : s.limit ≠ 0 → 0 ≤ s.freeBytes ∧ s.freeBytes = s.allowance - s.granted + s.givenBack
  flag : s.goGenerate = s.generating
  stopped : s.limit ≠ 0 → s.generating = false →
    0 < s.freeBytes ∧ ∀ t want, s.senders t ≠ .waiting want

variable {s s' : Throttle τ}

theorem Inv.sound (hinv : Inv s) : Sound s := by
  refine ⟨fun hlimit => ?_, hinv.limited, hinv.cond, fun t want hwaits => ?_⟩
  · have hwindow := hinv.window hlimit
    omega
  · by_contra hstopped
    rw [Bool.not_eq_true] at hstopped
    by_cases hlimit : s.limit = 0
    · cases hwaits.symm.trans ((hinv.free hlimit).2.2 t)
    · exact (hinv.stopped hlimit hstopped).2 t want hwaits

theorem inv_newThrottle {limit : Int} (hkept : Kept limit) : Inv (newThrottle τ limit) := by
  rw [newThrottle]
  split
  next => constructor <;> simp
  next hlimit =>
    have hpos := (hkept.resolve_left hlimit).2
    constructor <;> simp [hlimit, hpos, Int.le_of_lt hpos]

section Turns

variable [DecidableEq τ]

theorem Inv.turn (hinv : Inv s) (hlimit : s.limit ≠ 0) (t : τ) (want : Int) :
    Inv (s.turn t want).2 := by
  obtain ⟨hfree, hwindow⟩ := hinv.window hlimit
  rw [Throttle.turn]
  split
  next hnone =>
    have hruns : s.generating = true := by
      by_contra hstopped
      have hpos := (hinv.stopped hlimit (by simpa using hstopped)).1
      omega
    exact { hinv with free := fun h => absurd h hlimit
                      stopped := fun _ h => by cases hruns.symm.trans h }
  next hsome =>
    have hruns : (s.generating || !s.goGenerate) = true := by
      rw [hinv.flag, Bool.or_not_self]
    refine { hinv with free := fun h => absurd h hlimit, window := fun _ => ?_, flag := hruns.symm
                       stopped := fun _ h => by cases hruns.symm.trans h }
    dsimp only
    split
    next => exact ⟨by omega, by omega⟩
    next => exact ⟨by omega, by omega⟩

theorem Inv.get (hinv : Inv s) (t : τ) (want : Int) : Inv (s.getLimitForBytes t want).2 := by
  rw [Throttle.getLimitForBytes]
  split
  next => exact hinv
  next =>
    by_cases hlimit : s.limit = 0
    · rw [if_pos (hinv.free hlimit).1]
      exact { hinv with limited := by simp [hinv.limited, hlimit] }
    · obtain ⟨hpos, hcond⟩ := hinv.positive hlimit
      rw [if_neg (Int.ne_of_gt hpos), hcond]
      exact hinv.turn hlimit t want

theorem Inv.step (hinv : Inv s) (hstep : Step true s s') : Inv s' := by
  cases hstep with
  | get t want hidle => exact hinv.get t want
  | again t want hwoken =>
    refine hinv.turn (fun hlimit => ?_) t want
    cases hwoken.symm.trans ((hinv.free hlimit).2.2 t)
  | release bytes hbytes =>
    refine { hinv with window := fun hlimit => ?_, stopped := fun hlimit hstopped => ?_ }
    · have hwindow := hinv.window hlimit
      simp only [Throttle.releaseUnusedBandwidth]
      omega
    · obtain ⟨hpos, hnone⟩ := hinv.stopped hlimit hstopped
      exact ⟨Int.add_pos hpos hbytes, hnone⟩
  | set limit hkept =>
    obtain ⟨hkept, hsame⟩ := hkept rfl
    refine { hinv with
      free := fun hlimit => ?_
      positive := fun hlimit => ⟨(hkept.resolve_left hlimit).2, ?_⟩
      window := fun hlimit => hinv.window (mt hsame.mpr hlimit)
      stopped := fun hlimit => hinv.stopped (mt hsame.mpr hlimit) }
    · have hlimit : limit = 0 := hlimit
      refine ⟨?_, (hinv.free (hsame.mp hlimit)).2⟩
      rw [Throttle.setBandwidth, hlimit]
      rfl
    · exact (hinv.positive (mt hsame.mpr hlimit)).2
  | tick hruns hneeded =>
    have hlimit : s.limit ≠ 0 := fun hlimit => by cases hruns.symm.trans (hinv.free hlimit).2.1
    have hpos := (hinv.positive hlimit).1
    rw [Throttle.tick]
    split
    next heq =>
      exact { hinv with
        free := fun h => absurd h hlimit
        flag := rfl
        stopped := fun _ _ => ⟨heq ▸ hpos, hneeded rfl heq⟩ }
    next =>
      refine { hinv with
        free := fun h => absurd h hlimit
        window := fun _ => ⟨Int.le_of_lt hpos, by simp⟩
        stopped := fun _ h => by cases hruns.symm.trans h }
  | done hnot => exact absurd rfl hnot

/-- In every run of guarded steps the window is kept, no limit is passed over, no condition variable
is missed, and no sender waits while the routine is stopped. -/
theorem throttled_runs_sound {limit : Int} (hkept : Kept limit)
    (hruns : Runs (Step true) (newThrottle τ limit) s) : Sound s :=
  (Runs.invariant (fun _ _ hinv hstep => hinv.step hstep) hruns (inv_newThrottle hkept)).sound

end Turns

/-- One sender takes the four bytes of an interval and another waits for the next. -/
theorem twoSenders_sound :
    Sound ((((newThrottle Bool 16).getLimitForBytes false 9).2.getLimitForBytes true 9).2) :=
  throttled_runs_sound (Or.inr ⟨by decide, by decide⟩)
    (.tail (.single (.get false 9 rfl)) (.get true 9 rfl))

/-- The bytes that the first gives back stop the routine. -/
theorem lost_wakeup :
    ¬ ∀ s : Throttle Bool, Runs (Step false) (newThrottle Bool 16) s → Sound s := by
  intro hsound
  have htakes : Runs (Step false) (newThrottle Bool 16) _ := .single (.get false 9 rfl)
  have hwaits := ((htakes.tail (.get true 9 rfl)).tail (.release 4 (by decide))).tail
    (.tick rfl (by simp))
  exact absurd ((hsound _ hwaits).served true 9 rfl) (by decide)

end Fs3.Bandwidth
