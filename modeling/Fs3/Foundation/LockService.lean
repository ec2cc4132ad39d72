import Fs3.Foundation.Histories

/-! # A readers-writer lock service

Callers ask for locks on names, shared or exclusive. -/

namespace Fs3.Foundation

variable {κ ι ν τ : Type*}

/-- What a caller is doing, with the call it is making. -/
inductive Turn (κ : Type*) where
  | idle
  | waiting (call : κ)
  /-- The caller has given up, and has not yet left. -/
  | leaving (call : κ)
  | holding (call : κ)
  deriving DecidableEq

namespace Turn

def call? : Turn κ → Option κ
  | .idle => none
  | .waiting call => some call
  | .leaving call => some call
  | .holding call => some call

def held? : Turn κ → Option κ
  | .holding call => some call
  | _ => none

def map (f : ι → κ) : Turn ι → Turn κ
  | .idle => .idle
  | .waiting call => .waiting (f call)
  | .leaving call => .leaving (f call)
  | .holding call => .holding (f call)

@[simp]
theorem call?_map (f : ι → κ) (turn : Turn ι) : (turn.map f).call? = turn.call?.map f := by
  cases turn <;> rfl

theorem map_eq_idle {f : ι → κ} {turn : Turn ι} : turn.map f = .idle ↔ turn = .idle := by
  cases turn <;> simp [map]

theorem map_eq_waiting {f : ι → κ} {turn : Turn ι} {call : κ} :
    turn.map f = .waiting call ↔ ∃ origin, turn = .waiting origin ∧ f origin = call := by
  cases turn <;> simp [map]

theorem map_eq_leaving {f : ι → κ} {turn : Turn ι} {call : κ} :
    turn.map f = .leaving call ↔ ∃ origin, turn = .leaving origin ∧ f origin = call := by
  cases turn <;> simp [map]

theorem map_eq_holding {f : ι → κ} {turn : Turn ι} {call : κ} :
    turn.map f = .holding call ↔ ∃ origin, turn = .holding origin ∧ f origin = call := by
  cases turn <;> simp [map]

theorem held?_eq_some {turn : Turn κ} {call : κ} :
    turn.held? = some call ↔ turn = .holding call := by
  cases turn <;> simp [held?]

theorem call?_of_held? {turn : Turn κ} {call : κ} (hheld : turn.held? = some call) :
    turn.call? = some call := by
  rw [held?_eq_some.mp hheld, call?]

end Turn

/-- Calls for locks: the name that each is about, and whether it can be shared. -/
structure LockService (κ ν : Type*) where
  name : κ → ν
  shared : κ → Bool

namespace LockService

variable (service : LockService κ ν)

def Free (turns : τ → Turn κ) (call : κ) : Prop :=
  ∀ u held, (turns u).held? = some held → service.name held = service.name call →
    service.shared held = true ∧ service.shared call = true

def without [DecidableEq τ] (turns : τ → Turn κ) (t : τ) : τ → Turn κ :=
  Function.update turns t .idle

def Excludes (turns : τ → Turn κ) : Prop :=
  ∀ t u held other, (turns t).held? = some held → (turns u).held? = some other →
    service.name held = service.name other → t ≠ u →
    service.shared held = true ∧ service.shared other = true

variable [DecidableEq τ]

/-- The step of one caller. -/
inductive Step (t : τ) (turns : τ → Turn κ) : (τ → Turn κ) → Prop where
  | asks (call : κ) (hidle : turns t = .idle) :
      Step t turns (Function.update turns t (.waiting call))
  | granted (call : κ) (hwaiting : turns t = .waiting call) (hfree : service.Free turns call) :
      Step t turns (Function.update turns t (.holding call))
  | refused (call : κ) (hwaiting : turns t = .waiting call)
      (hbusy : ¬ service.Free turns call) : Step t turns turns
  | givesUp (call : κ) (hwaiting : turns t = .waiting call) :
      Step t turns (Function.update turns t (.leaving call))
  | leaves (call : κ) (hleaving : turns t = .leaving call) :
      Step t turns (Function.update turns t .idle)
  | releases (call : κ) (hholding : turns t = .holding call) :
      Step t turns (Function.update turns t .idle)

def Unserved (t : τ) (turns turns' : τ → Turn κ) : Prop :=
  ∃ u, service.Step u turns turns' ∧ (turns' t).held? = none

def Others (t : τ) (turns turns' : τ → Turn κ) : Prop :=
  ∃ u, u ≠ t ∧ service.Step u turns turns'

variable {service}

theorem Excludes.update_of_held? {turns : τ → Turn κ} (hexcludes : service.Excludes turns)
    {t : τ} {turn : Turn κ}
    (hheld : ∀ call, turn.held? = some call → (turns t).held? = some call) :
    service.Excludes (Function.update turns t turn) := by
  have hbefore : ∀ u call, (Function.update turns t turn u).held? = some call →
      (turns u).held? = some call := by
    intro u call hu
    rcases eq_or_ne u t with rfl | hne
    · rw [Function.update_self] at hu
      exact hheld call hu
    · rwa [Function.update_of_ne hne] at hu
  intro t' u held other ht' hu
  exact hexcludes t' u held other (hbefore t' held ht') (hbefore u other hu)

variable {turns turns' : τ → Turn κ}

theorem Excludes.step (hexcludes : service.Excludes turns) {t : τ}
    (hstep : service.Step t turns turns') : service.Excludes turns' := by
  cases hstep with
  | asks | givesUp | leaves | releases =>
    apply hexcludes.update_of_held?
    intro held hheld
    cases hheld
  | granted call hwaiting hfree =>
    intro t' u held other ht' hu hname hne
    rcases eq_or_ne t' t with rfl | ht
    · rw [Function.update_self, Turn.held?] at ht'
      cases ht'
      rw [Function.update_of_ne hne.symm] at hu
      exact (hfree u other hu hname.symm).symm
    · rw [Function.update_of_ne ht] at ht'
      rcases eq_or_ne u t with rfl | hu'
      · rw [Function.update_self, Turn.held?] at hu
        cases hu
        exact hfree t' held ht' hname
      · rw [Function.update_of_ne hu'] at hu
        exact hexcludes t' u held other ht' hu hname hne
  | refused call hwaiting hbusy => exact hexcludes

theorem without_of_idle {turns : τ → Turn κ} {t : τ} (hidle : turns t = .idle) :
    without turns t = turns := by
  rw [without, ← hidle, Function.update_eq_self]

theorem without_update_self (turns : τ → Turn κ) (t : τ) (turn : Turn κ) :
    without (Function.update turns t turn) t = without turns t := by
  rw [without, Function.update_idem, without]

theorem without_update_of_ne (turns : τ → Turn κ) {t u : τ} (hne : u ≠ t) (turn : Turn κ) :
    without (Function.update turns u turn) t = Function.update (without turns t) u turn := by
  rw [without, Function.update_comm hne, without]

theorem free_without {turns : τ → Turn κ} {t : τ} (hheld : (turns t).held? = none) (call : κ) :
    service.Free (without turns t) call ↔ service.Free turns call := by
  have hsame : ∀ u, (without turns t u).held? = (turns u).held? := by
    intro u
    rcases eq_or_ne u t with rfl | hne
    · rw [without, Function.update_self, hheld]
      rfl
    · rw [without, Function.update_of_ne hne]
  simp only [Free, hsame]

theorem Step.without {t u : τ} (hne : u ≠ t) (hheld : (turns t).held? = none)
    (hstep : service.Step u turns turns') :
    service.Step u (without turns t) (without turns' t) := by
  have hself : LockService.without turns t u = turns u := Function.update_of_ne hne _ _
  cases hstep with
  | asks call hidle =>
    rw [without_update_of_ne turns hne]
    exact .asks call (hself.trans hidle)
  | granted call hwaiting hfree =>
    rw [without_update_of_ne turns hne]
    exact .granted call (hself.trans hwaiting) ((free_without hheld call).mpr hfree)
  | refused call hwaiting hbusy =>
    exact .refused call (hself.trans hwaiting) fun h => hbusy ((free_without hheld call).mp h)
  | givesUp call hwaiting =>
    rw [without_update_of_ne turns hne]
    exact .givesUp call (hself.trans hwaiting)
  | leaves call hleaving =>
    rw [without_update_of_ne turns hne]
    exact .leaves call (hself.trans hleaving)
  | releases call hholding =>
    rw [without_update_of_ne turns hne]
    exact .releases call (hself.trans hholding)

theorem Step.without_self {t : τ} (hstep : service.Step t turns turns') :
    LockService.without turns' t = LockService.without turns t := by
  cases hstep with
  | refused call hwaiting hbusy => rfl
  | asks | granted | givesUp | leaves | releases => exact without_update_self turns t _

theorem runs_without {t : τ} (hruns : Runs (service.Unserved t) turns turns')
    (hheld : (turns t).held? = none) :
    Runs (service.Others t) (without turns t) (without turns' t) ∧ (turns' t).held? = none := by
  induction hruns with
  | refl => exact ⟨.refl, hheld⟩
  | tail _ hlast ih =>
    obtain ⟨hbefore, hheld⟩ := ih
    obtain ⟨u, hstep, hafter⟩ := hlast
    refine ⟨?_, hafter⟩
    rcases eq_or_ne u t with rfl | hne
    · rw [hstep.without_self]
      exact hbefore
    · exact hbefore.tail ⟨u, hne, hstep.without hne hheld⟩

end LockService

end Fs3.Foundation
