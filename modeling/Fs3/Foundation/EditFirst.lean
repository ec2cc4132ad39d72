import Mathlib.Data.List.Basic

/-! # Editing the first matching element of a list

The shape of a loop that walks a list in order, fails at an element it cannot read, and at the
first element it matches changes the list there and returns. `edit` says what happens at an
element: it is passed over, the loop fails, or the loop returns a value and replaces the element
and everything behind it. -/

namespace Fs3.Foundation

variable {α β ε : Type*}

/-- Walk a list to the first element that `edit` matches. An element that is
not `valid` stops the walk with `corrupt` when it is reached before a match. -/
def editFirst (valid : α → Bool) (corrupt : ε)
    (edit : α → Option (Except ε (β × (List α → List α)))) :
    List α → Except ε (Option (β × List α))
  | [] => .ok none
  | a :: rest =>
    if valid a then
      match edit a with
      | some (.error err) => .error err
      | some (.ok (value, splice)) => .ok (some (value, splice rest))
      | none => (editFirst valid corrupt edit rest).map
          (Option.map fun found => (found.1, a :: found.2))
    else .error corrupt

variable {valid : α → Bool} {corrupt : ε}
variable {edit : α → Option (Except ε (β × (List α → List α)))}

theorem editFirst_append {before : List α} (l : List α)
    (hbefore : ∀ a ∈ before, valid a = true ∧ edit a = none) :
    editFirst valid corrupt edit (before ++ l) =
      (editFirst valid corrupt edit l).map
        (Option.map fun found => (found.1, before ++ found.2)) := by
  induction before with
  | nil =>
    rw [List.nil_append]
    cases editFirst valid corrupt edit l with
    | error => rfl
    | ok found => cases found <;> rfl
  | cons a before ih =>
    obtain ⟨hvalid, hedit⟩ := hbefore a List.mem_cons_self
    rw [List.cons_append, editFirst, if_pos hvalid, hedit,
      ih fun b hb => hbefore b (List.mem_cons_of_mem _ hb)]
    cases editFirst valid corrupt edit l with
    | error => rfl
    | ok found => cases found <;> rfl

theorem editFirst_eq_none {l : List α} (hvalid : ∀ a ∈ l, valid a = true)
    (hedit : ∀ a ∈ l, edit a = none) : editFirst valid corrupt edit l = .ok none := by
  have h := @editFirst_append _ _ _ _ corrupt _ _ [] fun a ha => ⟨hvalid a ha, hedit a ha⟩
  rwa [List.append_nil] at h

theorem editFirst_eq_some {before after : List α} {a : α} {value : β}
    {splice : List α → List α} (hbefore : ∀ b ∈ before, valid b = true ∧ edit b = none)
    (hvalid : valid a = true) (hedit : edit a = some (.ok (value, splice))) :
    editFirst valid corrupt edit (before ++ a :: after) =
      .ok (some (value, before ++ splice after)) := by
  rw [editFirst_append _ hbefore, editFirst, if_pos hvalid, hedit]
  rfl

theorem valid_of_editFirst_none {l : List α} (h : editFirst valid corrupt edit l = .ok none) :
    ∀ a ∈ l, valid a = true ∧ edit a = none := by
  induction l with
  | nil => intro a ha; cases ha
  | cons b l ih =>
    rw [editFirst] at h
    split at h
    next hvalid =>
      split at h
      · cases h
      · cases h
      next hedit =>
        have htail : editFirst valid corrupt edit l = .ok none := by
          cases hl : editFirst valid corrupt edit l with
          | error err => rw [hl] at h; cases h
          | ok found =>
            rw [hl] at h
            cases found with
            | none => rfl
            | some found => cases h
        intro a ha
        rcases List.mem_cons.mp ha with rfl | ha
        · exact ⟨hvalid, hedit⟩
        · exact ih htail a ha
    · cases h

variable (corrupt edit) in
theorem editFirst_isOk {l : List α} (hvalid : ∀ a ∈ l, valid a = true)
    (hedit : ∀ a ∈ l, ∀ err, edit a ≠ some (.error err)) :
    ∃ found, editFirst valid corrupt edit l = .ok found := by
  induction l with
  | nil => exact ⟨none, rfl⟩
  | cons b l ih =>
    obtain ⟨found, hfound⟩ := ih (fun a ha => hvalid a (List.mem_cons_of_mem _ ha))
      fun a ha => hedit a (List.mem_cons_of_mem _ ha)
    rw [editFirst, if_pos (hvalid b List.mem_cons_self), hfound]
    cases hb : edit b with
    | none => exact ⟨_, rfl⟩
    | some outcome =>
      cases outcome with
      | error err => exact absurd hb (hedit b List.mem_cons_self err)
      | ok edited => exact ⟨_, rfl⟩

/-- What a successful edit did: the list splits at the first match. -/
theorem exists_of_editFirst_some {l edited : List α} {value : β}
    (h : editFirst valid corrupt edit l = .ok (some (value, edited))) :
    ∃ before a after splice, l = before ++ a :: after ∧
      (∀ b ∈ before, valid b = true ∧ edit b = none) ∧ valid a = true ∧
      edit a = some (.ok (value, splice)) ∧ edited = before ++ splice after := by
  induction l generalizing edited with
  | nil => cases h
  | cons b l ih =>
    rw [editFirst] at h
    split at h
    next hvalid =>
      split at h
      · cases h
      next value' splice hedit =>
        cases h
        exact ⟨[], b, l, splice, rfl, by simp, hvalid, hedit, rfl⟩
      next hedit =>
        cases hl : editFirst valid corrupt edit l with
        | error err => rw [hl] at h; cases h
        | ok found =>
          rw [hl] at h
          cases found with
          | none => cases h
          | some found =>
            cases h
            obtain ⟨before, a, after, splice, rfl, hbefore, hvalida, hedita, hfound⟩ := ih hl
            refine ⟨b :: before, a, after, splice, rfl, ?_, hvalida, hedita, ?_⟩
            · intro x hx
              rcases List.mem_cons.mp hx with rfl | hx
              · exact ⟨hvalid, hedit⟩
              · exact hbefore x hx
            · rw [hfound, List.cons_append]
    · cases h

/-- The same walk where the list is changed in place: the list as the walk
leaves it, and how it ends. -/
def editInPlace (valid : α → Bool) (corrupt : ε)
    (edit : α → Option (Except ε (β × (List α → List α)))) :
    List α → List α × Except ε (Option β)
  | [] => ([], .ok none)
  | a :: rest =>
    if valid a then
      match edit a with
      | some (.error err) => (a :: rest, .error err)
      | some (.ok (value, splice)) => (splice rest, .ok (some value))
      | none =>
        let walked := editInPlace valid corrupt edit rest
        (a :: walked.1, walked.2)
    else (a :: rest, .error corrupt)

theorem editInPlace_eq (l : List α) :
    editInPlace valid corrupt edit l =
      match editFirst valid corrupt edit l with
      | .error err => (l, .error err)
      | .ok none => (l, .ok none)
      | .ok (some (value, edited)) => (edited, .ok (some value)) := by
  induction l with
  | nil => rfl
  | cons a rest ih =>
    rw [editInPlace, editFirst]
    split
    next =>
      cases edit a with
      | some outcome =>
        cases outcome with
        | error err => rfl
        | ok edited => rfl
      | none =>
        dsimp only
        rw [ih]
        cases editFirst valid corrupt edit rest with
        | error err => rfl
        | ok found => cases found <;> rfl
    next => rfl

theorem forall_mem_replaced {p : α → Prop} {before after : List α} {old new : α}
    (h : ∀ a ∈ before ++ old :: after, p a) (hnew : p new) :
    ∀ a ∈ before ++ new :: after, p a := by
  simp only [List.forall_mem_append, List.forall_mem_cons] at h ⊢
  exact ⟨h.1, hnew, h.2.2⟩

def replaceFirst (isMatch : α → Bool) (replace : α → Option α) : List α → Option (List α)
  | [] => none
  | a :: rest =>
    if isMatch a then (replace a).map fun a' => a' :: rest
    else (replaceFirst isMatch replace rest).map fun rest' => a :: rest'

variable {isMatch : α → Bool} {replace : α → Option α} {l l' : List α}

theorem exists_of_replaceFirst (hsome : replaceFirst isMatch replace l = some l') :
    ∃ before a a' after, l = before ++ a :: after ∧ (∀ b ∈ before, isMatch b = false) ∧
      isMatch a = true ∧ replace a = some a' ∧ l' = before ++ a' :: after := by
  induction l generalizing l' with
  | nil => cases hsome
  | cons first rest ih =>
    rw [replaceFirst] at hsome
    split at hsome
    next hmatch =>
      obtain ⟨a', ha', rfl⟩ := Option.map_eq_some_iff.mp hsome
      refine ⟨[], first, a', rest, rfl, fun b hb => ?_, hmatch, ha', rfl⟩
      cases hb
    next hmatch =>
      obtain ⟨rest', hrest, rfl⟩ := Option.map_eq_some_iff.mp hsome
      obtain ⟨before, a, a', after, rfl, hbefore, ha, ha', rfl⟩ := ih hrest
      refine ⟨first :: before, a, a', after, rfl, fun b hb => ?_, ha, ha', rfl⟩
      rcases List.mem_cons.mp hb with rfl | hb
      · exact Bool.not_eq_true _ ▸ hmatch
      · exact hbefore b hb

theorem forall_of_replaceFirst_none (htotal : ∀ a, replace a ≠ none)
    (hnone : replaceFirst isMatch replace l = none) : ∀ a ∈ l, isMatch a = false := by
  induction l with
  | nil =>
    intro a ha
    cases ha
  | cons first rest ih =>
    rw [replaceFirst] at hnone
    split at hnone
    · exact absurd (Option.map_eq_none_iff.mp hnone) (htotal first)
    next hmatch =>
      intro a ha
      rcases List.mem_cons.mp ha with rfl | ha
      · exact Bool.not_eq_true _ ▸ hmatch
      · exact ih (Option.map_eq_none_iff.mp hnone) a ha

end Fs3.Foundation
