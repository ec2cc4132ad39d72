import Mathlib.Data.List.Infix
import Mathlib.Data.List.Nodup
import Mathlib.Logic.Relation

/-! # Runs of a system that takes steps

A step relation says what can happen next. -/

namespace Fs3.Foundation

variable {σ : Type*} {step : σ → σ → Prop}

/-- A state that can be reached by steps. -/
abbrev Runs (step : σ → σ → Prop) : σ → σ → Prop := Relation.ReflTransGen step

theorem Runs.invariant {inv : σ → Prop} (hstep : ∀ s s', inv s → step s s' → inv s') {s s' : σ}
    (hruns : Runs step s s') (hs : inv s) : inv s' := by
  induction hruns with
  | refl => exact hs
  | tail _ hlast ih => exact hstep _ _ ih hlast

def Stuck (step : σ → σ → Prop) (s : σ) : Prop := ∀ s', ¬ step s s'

theorem Runs.acc {inv : σ → Prop} (measure : σ → Nat)
    (hstep : ∀ s s', inv s → step s s' → inv s')
    (hsmaller : ∀ s s', inv s → step s s' → measure s' < measure s) {s : σ} (hs : inv s) :
    Acc (fun s' s => step s s') s := by
  induction hbound : measure s using Nat.strongRecOn generalizing s with
  | _ bound ih =>
    subst hbound
    refine Acc.intro s fun s' hs' => ?_
    exact ih (measure s') (hsmaller s s' hs hs') (hstep s s' hs hs') rfl

theorem Runs.exists_stuck {s : σ} (hacc : Acc (fun s' s => step s s') s) :
    ∃ s', Runs step s s' ∧ Stuck step s' := by
  induction hacc with
  | intro s _ ih =>
    by_cases hstuck : Stuck step s
    · exact ⟨s, .refl, hstuck⟩
    · unfold Stuck at hstuck
      push Not at hstuck
      obtain ⟨next, hnext⟩ := hstuck
      obtain ⟨last, hruns, hlast⟩ := ih next hnext
      exact ⟨last, .head hnext hruns, hlast⟩

end Fs3.Foundation

/-! ## Histories of a system

A system takes events one at a time. Some events, in some states, are guarded
against. Where an invariant makes a promise hold, and an event that is not
guarded against breaks the promise on the spot, the promise holds throughout a
history exactly when all its events are guarded.
-/

namespace Fs3.Foundation

variable {σ ε : Type*} (step : σ → ε → σ)

def Always (promise : σ → Prop) (s : σ) (events : List ε) : Prop :=
  ∀ before, before <+: events → promise (before.foldl step s)

def Guarded (good : σ → ε → Prop) (s : σ) (events : List ε) : Prop :=
  ∀ before event, before ++ [event] <+: events → good (before.foldl step s) event

variable {step} {promise inv : σ → Prop} {good : σ → ε → Prop} {s : σ}

theorem guarded_nil : Guarded step good s [] := by
  intro before event hfront
  exact absurd (List.prefix_nil.mp hfront) (by simp)

theorem guarded_cons {event : ε} {events : List ε} :
    Guarded step good s (event :: events) ↔
      good s event ∧ Guarded step good (step s event) events := by
  constructor
  · intro hguarded
    refine ⟨hguarded [] event (List.prefix_append [event] events), fun before next hfront => ?_⟩
    exact hguarded (event :: before) next ((List.prefix_cons_inj event).mpr hfront)
  · rintro ⟨hgood, hguarded⟩ before next hfront
    cases before with
    | nil =>
      obtain ⟨rfl, -⟩ := List.cons_prefix_cons.mp hfront
      exact hgood
    | cons first before =>
      obtain ⟨rfl, hrest⟩ := List.cons_prefix_cons.mp hfront
      exact hguarded before next hrest

theorem always_cons {event : ε} {events : List ε} :
    Always step promise s (event :: events) ↔
      promise s ∧ Always step promise (step s event) events := by
  constructor
  · intro halways
    refine ⟨halways [] List.nil_prefix, fun before hfront => ?_⟩
    exact halways (event :: before) ((List.prefix_cons_inj event).mpr hfront)
  · rintro ⟨hpromise, halways⟩ before hfront
    cases before with
    | nil => exact hpromise
    | cons first before =>
      obtain ⟨rfl, hrest⟩ := List.cons_prefix_cons.mp hfront
      exact halways before hrest

theorem always_nil : Always step promise s [] ↔ promise s := by
  constructor
  · exact fun halways => halways [] List.prefix_rfl
  · intro hpromise before hfront
    rw [List.prefix_nil.mp hfront]
    exact hpromise

theorem Guarded.always (hstep : ∀ s event, inv s → good s event → inv (step s event))
    {events : List ε} (hguarded : Guarded step good s events) (hs : inv s) :
    Always step inv s events := by
  induction events generalizing s with
  | nil => exact always_nil.mpr hs
  | cons event events ih =>
    obtain ⟨hgood, hrest⟩ := guarded_cons.mp hguarded
    exact always_cons.mpr ⟨hs, ih hrest (hstep s event hs hgood)⟩

theorem Always.imp {promise' : σ → Prop} (himp : ∀ s, promise s → promise' s) {events : List ε}
    (halways : Always step promise s events) : Always step promise' s events :=
  fun before hfront => himp _ (halways before hfront)

theorem always_iff_guarded (hstep : ∀ s event, inv s → good s event → inv (step s event))
    (hkeeps : ∀ s, inv s → promise s)
    (hbreaks : ∀ s event, inv s → ¬ good s event → ¬ promise (step s event))
    {events : List ε} (hs : inv s) :
    Always step promise s events ↔ Guarded step good s events := by
  refine ⟨fun halways => ?_, fun hguarded => (hguarded.always hstep hs).imp hkeeps⟩
  induction events generalizing s with
  | nil => exact guarded_nil
  | cons event events ih =>
    obtain ⟨-, hrest⟩ := always_cons.mp halways
    have hgood : good s event := by
      by_contra hbad
      exact hbreaks s event hs hbad (hrest [] List.nil_prefix)
    exact guarded_cons.mpr ⟨hgood, ih (hstep s event hs hgood) hrest⟩

theorem guarded_or_spoiled {spoiled : σ → Prop} {legal : ε → Prop}
    (hstep : ∀ s event, legal event → inv s →
      good s event ∧ inv (step s event) ∨ ¬ good s event ∧ spoiled (step s event))
    (hstays : ∀ s event, legal event → spoiled s → spoiled (step s event)) {events : List ε}
    (hlegal : ∀ event ∈ events, legal event) (hs : inv s) :
    Guarded step good s events ∧ inv (events.foldl step s) ∨
      ¬ Guarded step good s events ∧ spoiled (events.foldl step s) := by
  induction events generalizing s with
  | nil => exact Or.inl ⟨guarded_nil, hs⟩
  | cons event events ih =>
    obtain ⟨hevent, hrest⟩ := List.forall_mem_cons.mp hlegal
    rw [List.foldl_cons, guarded_cons]
    rcases hstep s event hevent hs with ⟨hgood, hnext⟩ | ⟨hbad, hspoiled⟩
    · rw [and_iff_right hgood]
      exact ih hrest hnext
    · refine Or.inr ⟨fun hguarded => hbad hguarded.1, ?_⟩
      exact List.foldlRecOn events step hspoiled
        fun s hs event hmem => hstays s event (hrest event hmem) hs

end Fs3.Foundation

/-! ## Requests that look first and store later

A request looks at a shared state, and stores what it makes of it in a second
step. Others may store in between. Where every store does what the whole request
would do on the state that the store finds, the requests have the effect of some
serial order, namely the one in which they end.
-/

namespace Fs3.Foundation

/-- Requests of two steps. -/
structure TwoSteps (σ ι π : Type*) where
  look : ι → σ → Option π
  store : ι → π → σ → σ

namespace TwoSteps

/-- How far a request is. -/
inductive Phase (π : Type*) where
  | waiting
  | looked (seen : π)
  | done

def Phase.isDone {π : Type*} : Phase π → Bool
  | .done => true
  | _ => false

theorem Phase.eq_done {π : Type*} {phase : Phase π} (hdone : phase.isDone = true) :
    phase = .done := by
  cases phase with
  | done => rfl
  | waiting => cases hdone
  | looked => cases hdone

/-- The shared state, and how far every request is. -/
structure State (σ ι π : Type*) where
  shared : σ
  phase : ι → Phase π

def start {σ ι π : Type*} (s : σ) : State σ ι π := { shared := s, phase := fun _ => .waiting }

variable {σ ι π : Type*} (sys : TwoSteps σ ι π)

def serve (s : σ) (i : ι) : σ :=
  match sys.look i s with
  | none => s
  | some seen => sys.store i seen s

def step [DecidableEq ι] (st : State σ ι π) (i : ι) : State σ ι π :=
  match st.phase i with
  | .waiting =>
    match sys.look i st.shared with
    | none => { st with phase := Function.update st.phase i .done }
    | some seen => { st with phase := Function.update st.phase i (.looked seen) }
  | .looked seen =>
    { shared := sys.store i seen st.shared, phase := Function.update st.phase i .done }
  | .done => st

def Serial (s : σ) (st : State σ ι π) : Prop :=
  ∃ order : List ι, order.Nodup ∧ (∀ i, i ∈ order ↔ st.phase i = .done) ∧
    st.shared = order.foldl sys.serve s

variable {sys} {inv : σ → Prop} {fresh : σ → ι → π → Prop} {s : σ} {st : State σ ι π} {i : ι}

theorem Serial.start (s : σ) : sys.Serial s (start s) := by
  refine ⟨[], List.nodup_nil, fun i => ⟨fun hmem => ?_, fun hdone => ?_⟩, rfl⟩
  · cases hmem
  · cases hdone

/-- What holds along a run: it has been serial so far, the shared state is sound,
and what a request has seen was there. -/
structure Tracks (sys : TwoSteps σ ι π) (inv : σ → Prop) (s : σ) (st : State σ ι π) : Prop where
  serial : sys.Serial s st
  shared : inv st.shared
  seen : ∀ i seen, st.phase i = .looked seen → ∃ before, inv before ∧ sys.look i before = some seen

theorem Tracks.start (hs : inv s) : Tracks sys inv s (start s) :=
  ⟨Serial.start s, hs, fun _ _ hlooked => nomatch hlooked⟩

variable [DecidableEq ι]

theorem Serial.snoc (hserial : sys.Serial s st) (hphase : st.phase i ≠ .done) {shared : σ}
    (hshared : shared = sys.serve st.shared i) :
    sys.Serial s { shared, phase := Function.update st.phase i .done } := by
  obtain ⟨order, hnodup, hdone, heffect⟩ := hserial
  have hnew : i ∉ order := fun hmem => hphase ((hdone i).mp hmem)
  refine ⟨order ++ [i], ?_, fun j => ?_, ?_⟩
  · rw [← List.concat_eq_append]
    exact List.Nodup.concat hnew hnodup
  · rw [List.mem_append, List.mem_singleton, hdone j]
    dsimp only
    by_cases hj : j = i
    · subst hj
      simp
    · rw [Function.update_of_ne hj]
      simp [hj]
  · rw [List.foldl_concat, ← heffect]
    exact hshared

theorem Serial.looked (hserial : sys.Serial s st) (hphase : st.phase i = .waiting) (seen : π) :
    sys.Serial s { st with phase := Function.update st.phase i (.looked seen) } := by
  obtain ⟨order, hnodup, hdone, heffect⟩ := hserial
  refine ⟨order, hnodup, fun j => ?_, heffect⟩
  rw [hdone j]
  dsimp only
  by_cases hj : j = i
  · subst hj
    simp [hphase]
  · rw [Function.update_of_ne hj]

theorem step_phase_of_ne {j : ι} (hne : j ≠ i) : (sys.step st i).phase j = st.phase j := by
  rw [TwoSteps.step]
  split
  · split <;> exact Function.update_of_ne hne _ _
  · exact Function.update_of_ne hne _ _
  · rfl

theorem look_of_step {seen : π} (hlooked : (sys.step st i).phase i = .looked seen) :
    sys.look i st.shared = some seen ∧ (sys.step st i).shared = st.shared := by
  rw [TwoSteps.step] at hlooked ⊢
  split at hlooked
  next hwaiting =>
    split at hlooked
    · simp at hlooked
    next seen' hlook =>
      simp only [Function.update_self, Phase.looked.injEq] at hlooked
      rw [hlook, hlooked]
      exact ⟨rfl, rfl⟩
  next => simp at hlooked
  next hdone =>
    rw [hdone] at hlooked
    cases hlooked

/-- A store that is current does what the request would do on the state it finds. -/
theorem Tracks.step (htracks : Tracks sys inv s st)
    (hserve : ∀ s i, inv s → inv (sys.serve s i))
    (hstore : ∀ s before i seen, inv s → inv before → sys.look i before = some seen →
      fresh s i seen → sys.store i seen s = sys.serve s i)
    (hfresh : ∀ seen, st.phase i = .looked seen → fresh st.shared i seen) :
    Tracks sys inv s (sys.step st i) := by
  have hseen : ∀ phase, (∀ seen, phase = Phase.looked seen →
      ∃ before, inv before ∧ sys.look i before = some seen) →
      ∀ j seen, Function.update st.phase i phase j = .looked seen →
        ∃ before, inv before ∧ sys.look j before = some seen := by
    intro phase hphase j seen hlooked
    by_cases hj : j = i
    · subst hj
      rw [Function.update_self] at hlooked
      exact hphase seen hlooked
    · rw [Function.update_of_ne hj] at hlooked
      exact htracks.seen j seen hlooked
  rw [TwoSteps.step]
  split
  next hwaiting =>
    split
    next hlook =>
      refine ⟨htracks.serial.snoc ?_ ?_, htracks.shared, hseen .done fun _ hdone => nomatch hdone⟩
      · rw [hwaiting]
        exact nofun
      · rw [serve, hlook]
    next seen hlook =>
      refine ⟨htracks.serial.looked hwaiting seen, htracks.shared, hseen (.looked seen) ?_⟩
      rintro seen' ⟨⟩
      exact ⟨st.shared, htracks.shared, hlook⟩
  next seen hlooked =>
    obtain ⟨before, hbefore, hlook⟩ := htracks.seen i seen hlooked
    have hsame := hstore st.shared before i seen htracks.shared hbefore hlook (hfresh seen hlooked)
    refine ⟨htracks.serial.snoc ?_ hsame, ?_, hseen .done fun _ hdone => nomatch hdone⟩
    · rw [hlooked]
      exact nofun
    · dsimp only
      rw [hsame]
      exact hserve st.shared i htracks.shared
  next => exact htracks

theorem tracks_of_fresh {schedule : List ι} (hserve : ∀ s i, inv s → inv (sys.serve s i))
    (hstore : ∀ s before i seen, inv s → inv before → sys.look i before = some seen →
      fresh s i seen → sys.store i seen s = sys.serve s i)
    (hguarded : Guarded sys.step
      (fun st i => ∀ seen, st.phase i = .looked seen → fresh st.shared i seen) (start s) schedule)
    (hs : inv s) : Always sys.step (Tracks sys inv s) (start s) schedule :=
  hguarded.always (fun _ _ htracks hfresh => htracks.step hserve hstore hfresh) (Tracks.start hs)

end TwoSteps

end Fs3.Foundation
