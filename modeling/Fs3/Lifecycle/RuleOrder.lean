import Fs3.Lifecycle.Prediction

/-! # The order of the rules

A rule that removes a version, or moves a noncurrent one to another tier, ends the evaluation. -/

namespace Fs3.Lifecycle

variable {lc : Lifecycle} {rule first second : Rule} {obj : ObjectOpts} {now : Time}

def Rule.returned (rule : Rule) (obj : ObjectOpts) (now : Time) : Option Action :=
  if obj.expiredObjectDeleteMarker && rule.expiration.deleteMarker.val ||
      rule.expiresNoncurrent obj now then some .deleteVersionAction
  else if rule.transitionsNoncurrent obj now then some .transitionVersionAction
  else if obj.current && rule.expires obj now then some .deleteAction
  else none

/-- What a rule that does not end the evaluation makes of the action so far. -/
def Rule.next (rule : Rule) (obj : ObjectOpts) (now : Time) (action : Action) : Action :=
  if obj.current then
    obj.restored now <|
      if obj.transitionStatus != TransitionComplete &&
          (rule.transitionDue obj now || !rule.transition.isNull &&
            doesMatchDebugTiers rule.transition.storageClass obj.remoteTiersImmediately) then
        .transitionAction
      else action
  else action

theorem restored_restored (action : Action) :
    obj.restored now (obj.restored now action) = obj.restored now action := by
  unfold ObjectOpts.restored
  split <;> rfl

theorem evaluate_eq (rule : Rule) (obj : ObjectOpts) (now : Time) (action : Action) :
    rule.evaluate obj now action =
      match rule.returned obj now with
      | some action => .returns action
      | none => .goesOn (rule.next obj now action) := by
  unfold Rule.evaluate Rule.returned Rule.next
  rw [← ObjectOpts.current]
  cases obj.expiredObjectDeleteMarker && rule.expiration.deleteMarker.val with
  | true => rfl
  | false =>
    cases rule.expiresNoncurrent obj now with
    | true => rfl
    | false =>
      cases rule.transitionsNoncurrent obj now with
      | true => rfl
      | false =>
        cases obj.current with
        | false => rfl
        | true =>
          cases rule.expires obj now with
          | true => rfl
          | false =>
            cases obj.transitionStatus != TransitionComplete with
            | false => rfl
            | true =>
              dsimp only
              rw [if_pos rfl, if_pos rfl, restored_restored]
              cases rule.transitionDue obj now <;>
                cases !rule.transition.isNull &&
                  doesMatchDebugTiers rule.transition.storageClass
                    obj.remoteTiersImmediately <;>
                rfl

/-! ## When the evaluation ends -/

theorem current_of_superseded (hold : obj.superseded = true) : obj.current = false := by
  unfold ObjectOpts.superseded at hold
  unfold ObjectOpts.current
  rw [Bool.and_eq_true, Bool.and_eq_true, bne_iff_ne, Bool.not_eq_true'] at hold
  rw [hold.1.2, Bool.false_and, Bool.or_false, beq_eq_false_iff_ne]
  exact hold.1.1

theorem superseded_of_transitionsNoncurrent (h : rule.transitionsNoncurrent obj now = true) :
    obj.superseded = true ∧ obj.deleteMarker = false := by
  unfold Rule.transitionsNoncurrent at h
  simp only [Bool.and_eq_true, Bool.not_eq_true'] at h
  exact ⟨h.1.2.1.1, h.1.2.1.2⟩

theorem current_of_expiresNoncurrent (h : rule.expiresNoncurrent obj now = true) :
    obj.current = false := by
  unfold Rule.expiresNoncurrent at h
  simp only [Bool.and_eq_true, Bool.or_eq_true, bne_iff_ne] at h
  rcases h.2 with ⟨hold, -⟩ | ⟨⟨hversion, hmarker⟩, -⟩
  · exact current_of_superseded hold
  · unfold ObjectOpts.expiredObjectDeleteMarker at hmarker
    unfold ObjectOpts.current
    rw [Bool.and_eq_true] at hmarker
    rw [hmarker.1, Bool.not_true, Bool.and_false, Bool.or_false, beq_eq_false_iff_ne]
    exact hversion

def Rule.dueToExpire (rule : Rule) (obj : ObjectOpts) (now : Time) : Bool :=
  obj.expiredObjectDeleteMarker && rule.expiration.deleteMarker.val ||
    rule.expiresNoncurrent obj now || obj.current && rule.expires obj now

theorem returned_of_dueToExpire (hdue : rule.dueToExpire obj now = true) :
    ∃ action, rule.returned obj now = some action ∧ action.deletes = true := by
  unfold Rule.dueToExpire at hdue
  unfold Rule.returned
  split
  next => exact ⟨_, rfl, rfl⟩
  next hnot =>
    have hcurrent := (Bool.or_eq_true _ _ ▸ hdue).resolve_left hnot
    split
    next htransitions =>
      have hold := current_of_superseded (superseded_of_transitionsNoncurrent htransitions).1
      rw [hold, Bool.false_and] at hcurrent
      cases hcurrent
    next => exact ⟨_, rfl, rfl⟩

/-- No two of the selected rules want different ends: the removal of a noncurrent version
and its move to another tier, or the removal of a last delete marker and that of an object
without a version id. -/
def Undisputed (lc : Lifecycle) (obj : ObjectOpts) (now : Time) : Prop :=
  ∀ first ∈ lc.filterActionableRules obj, ∀ second ∈ lc.filterActionableRules obj,
    ¬ (first.expiresNoncurrent obj now = true ∧ second.transitionsNoncurrent obj now = true ∧
      second.expiresNoncurrent obj now = false) ∧
    ¬ (obj.expiredObjectDeleteMarker = true ∧ obj.versionID = "" ∧
      first.expiration.deleteMarker.val = true ∧ second.expiration.deleteMarker.val = false ∧
      second.expires obj now = true)

theorem returned_eq_deleteVersion :
    rule.returned obj now = some .deleteVersionAction ↔
      obj.expiredObjectDeleteMarker = true ∧ rule.expiration.deleteMarker.val = true ∨
        rule.expiresNoncurrent obj now = true := by
  unfold Rule.returned
  rw [← Bool.and_eq_true, ← Bool.or_eq_true]
  split
  next h => exact iff_of_true rfl h
  next h =>
    refine iff_of_false ?_ h
    split
    next => simp
    next => split <;> simp

theorem returned_eq_transitionVersion :
    rule.returned obj now = some .transitionVersionAction ↔
      rule.transitionsNoncurrent obj now = true ∧ rule.expiresNoncurrent obj now = false := by
  constructor
  · intro h
    unfold Rule.returned at h
    split at h
    next => cases h
    next hnot =>
      rw [Bool.or_eq_true, not_or, Bool.not_eq_true _] at hnot
      split at h
      next htransitions => exact ⟨htransitions, Bool.not_eq_true _ ▸ hnot.2⟩
      split at h <;> cases h
  · rintro ⟨htransitions, hkeeps⟩
    have hmarker : obj.expiredObjectDeleteMarker = false := by
      rw [ObjectOpts.expiredObjectDeleteMarker,
        (superseded_of_transitionsNoncurrent htransitions).2, Bool.false_and]
    rw [Rule.returned, hmarker, hkeeps, Bool.false_and, Bool.or_false,
      if_neg Bool.false_ne_true, if_pos htransitions]

theorem returned_eq_delete :
    rule.returned obj now = some .deleteAction ↔
      obj.current = true ∧ rule.expires obj now = true ∧
        ¬ (obj.expiredObjectDeleteMarker = true ∧ rule.expiration.deleteMarker.val = true) := by
  rw [← Bool.and_eq_true obj.expiredObjectDeleteMarker]
  constructor
  · intro h
    unfold Rule.returned at h
    split at h
    next => cases h
    next hnot =>
      rw [Bool.or_eq_true, not_or] at hnot
      split at h
      next => cases h
      split at h
      next hexpires =>
        rw [Bool.and_eq_true] at hexpires
        exact ⟨hexpires.1, hexpires.2, hnot.1⟩
      next => cases h
  · rintro ⟨hcurrent, hexpires, hmarker⟩
    have hkeeps : rule.expiresNoncurrent obj now = false := by
      rw [← Bool.not_eq_true]
      intro h
      rw [current_of_expiresNoncurrent h] at hcurrent
      cases hcurrent
    have hstays : ¬ rule.transitionsNoncurrent obj now = true := by
      intro h
      rw [current_of_superseded (superseded_of_transitionsNoncurrent h).1] at hcurrent
      cases hcurrent
    rw [Rule.returned, hkeeps, Bool.or_false, if_neg hmarker, if_neg hstays, hcurrent, hexpires,
      Bool.and_self, if_pos rfl]

theorem returned_cases {action : Action} (h : rule.returned obj now = some action) :
    action = .deleteVersionAction ∨ action = .transitionVersionAction ∨
      action = .deleteAction := by
  unfold Rule.returned at h
  split at h
  next => exact Or.inl (Option.some.inj h).symm
  split at h
  next => exact Or.inr (Or.inl (Option.some.inj h).symm)
  split at h
  next => exact Or.inr (Or.inr (Option.some.inj h).symm)
  next => cases h

theorem versionID_of_current (hmarker : obj.expiredObjectDeleteMarker = true)
    (hcurrent : obj.current = true) : obj.versionID = "" := by
  unfold ObjectOpts.expiredObjectDeleteMarker at hmarker
  unfold ObjectOpts.current at hcurrent
  rw [Bool.and_eq_true] at hmarker
  rw [hmarker.1, Bool.not_true, Bool.and_false, Bool.or_false, beq_iff_eq] at hcurrent
  exact hcurrent

theorem current_of_versionID (hversion : obj.versionID = "") : obj.current = true := by
  rw [ObjectOpts.current, hversion]
  rfl

def Agree (lc : Lifecycle) (obj : ObjectOpts) (now : Time) : Prop :=
  ∀ first ∈ lc.filterActionableRules obj, ∀ second ∈ lc.filterActionableRules obj,
    ∀ action, first.returned obj now = some action →
      ∀ other, second.returned obj now = some other → action = other

theorem undisputed_of_agree (hagree : lc.Agree obj now) : lc.Undisputed obj now := by
  intro first hfirst second hsecond
  constructor
  · rintro ⟨hexpires, htransitions, hkeeps⟩
    have hends := hagree first hfirst second hsecond _
      (returned_eq_deleteVersion.mpr (.inr hexpires)) _
      (returned_eq_transitionVersion.mpr ⟨htransitions, hkeeps⟩)
    cases hends
  · rintro ⟨hmarker, hversion, hremoves, hnot, hexpires⟩
    have hends := hagree first hfirst second hsecond _
      (returned_eq_deleteVersion.mpr (.inl ⟨hmarker, hremoves⟩)) _
      (returned_eq_delete.mpr ⟨current_of_versionID hversion, hexpires, fun h => by
        rw [hnot] at h
        cases h.2⟩)
    cases hends

theorem disputes_of_deleteVersion (hundisputed : lc.Undisputed obj now)
    (hfirst : first ∈ lc.filterActionableRules obj)
    (hsecond : second ∈ lc.filterActionableRules obj)
    (hremoves : first.returned obj now = some .deleteVersionAction) {action : Action}
    (hreturned : second.returned obj now = some action) : action = .deleteVersionAction := by
  obtain ⟨hnoncurrent, hmarker⟩ := hundisputed first hfirst second hsecond
  rcases returned_cases hreturned with rfl | rfl | rfl
  · rfl
  · obtain ⟨htransitions, hkeeps⟩ := returned_eq_transitionVersion.mp hreturned
    rcases returned_eq_deleteVersion.mp hremoves with ⟨hlast, -⟩ | hexpires
    · have hdeleted := (Bool.and_eq_true _ _ ▸ hlast :
        obj.deleteMarker = true ∧ (obj.numVersions == 1) = true).1
      rw [(superseded_of_transitionsNoncurrent htransitions).2] at hdeleted
      cases hdeleted
    · exact absurd ⟨hexpires, htransitions, hkeeps⟩ hnoncurrent
  · obtain ⟨hcurrent, hexpires, hnot⟩ := returned_eq_delete.mp hreturned
    rcases returned_eq_deleteVersion.mp hremoves with ⟨hlast, hfirstMarker⟩ | hold
    · refine absurd ⟨hlast, versionID_of_current hlast hcurrent, hfirstMarker, ?_, hexpires⟩ hmarker
      rw [← Bool.not_eq_true]
      exact fun h => hnot ⟨hlast, h⟩
    · rw [current_of_expiresNoncurrent hold] at hcurrent
      cases hcurrent

theorem agree_of_undisputed (hundisputed : lc.Undisputed obj now) : lc.Agree obj now := by
  intro first hfirst second hsecond action haction other hother
  have hremoves := @disputes_of_deleteVersion lc
  rcases returned_cases haction with rfl | rfl | rfl
  · exact (hremoves hundisputed hfirst hsecond haction hother).symm
  · rcases returned_cases hother with rfl | rfl | rfl
    · exact hremoves hundisputed hsecond hfirst hother haction
    · rfl
    · have hcurrent := (returned_eq_delete.mp hother).1
      rw [current_of_superseded (superseded_of_transitionsNoncurrent
        (returned_eq_transitionVersion.mp haction).1).1] at hcurrent
      cases hcurrent
  · rcases returned_cases hother with rfl | rfl | rfl
    · exact hremoves hundisputed hsecond hfirst hother haction
    · have hcurrent := (returned_eq_delete.mp haction).1
      rw [current_of_superseded (superseded_of_transitionsNoncurrent
        (returned_eq_transitionVersion.mp hother).1).1] at hcurrent
      cases hcurrent
    · rfl

/-! ## Another order -/

def evaluateNext (obj : ObjectOpts) (now : Time) (so : Evaluation) (rule : Rule) : Evaluation :=
  match so with
  | .returns action => .returns action
  | .goesOn action => rule.evaluate obj now action

theorem evaluateRules_eq_foldl (rules : List Rule) (action : Action) :
    evaluateRules obj now rules action =
      (rules.foldl (evaluateNext obj now) (.goesOn action)).action := by
  have hreturned : ∀ (rules : List Rule) (action : Action),
      rules.foldl (evaluateNext obj now) (.returns action) = .returns action := by
    intro rules action
    induction rules with
    | nil => rfl
    | cons rule rules ih => exact ih
  induction rules generalizing action with
  | nil => rfl
  | cons rule rules ih =>
    rw [evaluateRules, List.foldl_cons, evaluateNext]
    cases heval : rule.evaluate obj now action with
    | returns action => rw [hreturned]; rfl
    | goesOn action => exact ih action

theorem next_next (action : Action) :
    second.next obj now (first.next obj now action) =
      first.next obj now (second.next obj now action) := by
  unfold Rule.next ObjectOpts.restored
  cases obj.current with
  | false => rfl
  | true =>
    rw [if_pos rfl, if_pos rfl, if_pos rfl, if_pos rfl]
    split
    next => rfl
    next => split <;> split <;> rfl

theorem evaluateNext_comm
    (hagree : ∀ action, first.returned obj now = some action →
      ∀ other, second.returned obj now = some other → action = other) (so : Evaluation) :
    evaluateNext obj now (evaluateNext obj now so first) second =
      evaluateNext obj now (evaluateNext obj now so second) first := by
  cases so with
  | returns action => rfl
  | goesOn action =>
    dsimp only [evaluateNext]
    rw [evaluate_eq first, evaluate_eq second]
    cases hfirst : first.returned obj now with
    | some ending =>
      cases hsecond : second.returned obj now with
      | some other => rw [hagree ending hfirst other hsecond]
      | none =>
        dsimp only
        rw [evaluate_eq, hfirst]
    | none =>
      cases hsecond : second.returned obj now with
      | some other =>
        dsimp only
        rw [evaluate_eq, hsecond]
      | none =>
        dsimp only
        rw [evaluate_eq, evaluate_eq, hfirst, hsecond, next_next]

theorem computeAction_perm (hagree : lc.Agree obj now) {rules : List Rule}
    (hperm : rules.Perm lc.rules) :
    computeAction { rules := rules } obj now = lc.computeAction obj now := by
  unfold computeAction
  split
  next => rfl
  next =>
    have hselected : (filterActionableRules { rules := rules } obj).Perm
        (lc.filterActionableRules obj) := by
      unfold filterActionableRules
      split
      next => exact List.Perm.refl _
      next => exact hperm.flatMap_right _
    rw [evaluateRules_eq_foldl, evaluateRules_eq_foldl]
    congr 1
    refine (hselected.symm.foldl_eq' ?_ _).symm
    exact fun first hfirst second hsecond so =>
      evaluateNext_comm (hagree first hfirst second hsecond) so

theorem computeAction_cons (hmod : obj.modTime.isZero = false) {rules : List Rule}
    (heligible : rule.eligible obj = true) {action : Action}
    (hreturned : rule.returned obj now = some action) :
    computeAction { rules := rule :: rules } obj now = action := by
  have hmem : rule ∈ rule.selections obj := by
    have hself : rule ∈ filterActionableRules { rules := [rule] } obj :=
      mem_filterActionableRules.mpr ⟨List.mem_cons_self, heligible⟩
    unfold filterActionableRules at hself
    split at hself
    next => exact absurd hself List.not_mem_nil
    next =>
      rw [List.flatMap_singleton] at hself
      exact hself
  obtain ⟨rest, hselections⟩ : ∃ rest, rule.selections obj = rule :: rest := by
    cases hselections : rule.selections obj with
    | nil =>
      rw [hselections] at hmem
      exact absurd hmem List.not_mem_nil
    | cons other rest =>
      have hother : other ∈ rule.selections obj := hselections ▸ List.mem_cons_self
      rw [(mem_selections.mp hother).1]
      exact ⟨rest, rfl⟩
  have hname : (obj.name == "") = false := by
    unfold Rule.eligible at heligible
    rw [Bool.and_eq_true, Bool.and_eq_true, bne, Bool.not_eq_true'] at heligible
    exact heligible.1.1
  rw [computeAction, hmod, if_neg Bool.false_ne_true, filterActionableRules, hname,
    if_neg Bool.false_ne_true, List.flatMap_cons, hselections, List.cons_append, evaluateRules,
    evaluate_eq, hreturned]

def OrderFree (lc : Lifecycle) (obj : ObjectOpts) (now : Time) : Prop :=
  ∀ rules, List.Perm rules lc.rules →
    computeAction { rules := rules } obj now = lc.computeAction obj now

def ExpirationFirst (lc : Lifecycle) (obj : ObjectOpts) (now : Time) : Prop :=
  obj.modTime.isZero = false →
    (∃ rule ∈ lc.filterActionableRules obj, rule.dueToExpire obj now = true) →
    (lc.computeAction obj now).deletes = true

theorem agree_of_orderFree (hmod : obj.modTime.isZero = false) (horder : lc.OrderFree obj now) :
    lc.Agree obj now := by
  intro first hfirst second hsecond action haction other hother
  have hhead : ∀ rule action, rule ∈ lc.filterActionableRules obj →
      rule.returned obj now = some action → lc.computeAction obj now = action := by
    intro rule action hmem hreturned
    obtain ⟨hrule, heligible⟩ := mem_filterActionableRules.mp hmem
    rw [← horder _ (List.perm_cons_erase hrule).symm]
    exact computeAction_cons hmod heligible hreturned
  exact (hhead first action hfirst haction).symm.trans (hhead second other hsecond hother)

theorem expirationFirst_of_agree (hagree : lc.Agree obj now) : lc.ExpirationFirst obj now := by
  intro hmod hdue
  obtain ⟨rule, hmem, hexpires⟩ := hdue
  obtain ⟨action, hreturned, hdeletes⟩ := returned_of_dueToExpire hexpires
  obtain ⟨hrule, heligible⟩ := mem_filterActionableRules.mp hmem
  rw [← computeAction_perm hagree (List.perm_cons_erase hrule).symm,
    computeAction_cons hmod heligible hreturned]
  exact hdeletes

/-- The order of the rules does not matter, and an expiration goes before a transition,
exactly where no two of the selected rules are in a dispute. -/
theorem computeAction_orderFree_iff (lc : Lifecycle) (obj : ObjectOpts) (now : Time) :
    lc.OrderFree obj now ∧ lc.ExpirationFirst obj now ↔
      obj.modTime.isZero = true ∨ lc.Undisputed obj now := by
  constructor
  · rintro ⟨horder, -⟩
    cases hmod : obj.modTime.isZero with
    | true => exact Or.inl rfl
    | false => exact Or.inr (undisputed_of_agree (agree_of_orderFree hmod horder))
  · rintro (hmod | hundisputed)
    · refine ⟨fun rules _ => ?_, fun hset => ?_⟩
      · rw [computeAction, computeAction, if_pos hmod, if_pos hmod]
      · rw [hmod] at hset
        cases hset
    · have hagree := agree_of_undisputed hundisputed
      exact ⟨fun rules hperm => computeAction_perm hagree hperm, expirationFirst_of_agree hagree⟩

/-- Rules that move noncurrent versions to another tier after a day, and remove them. -/
def moveNoncurrent : Rule where
  id := "move"
  status := Enabled
  filter := { set := true }
  noncurrentVersionTransition := { noncurrentDays := 1, storageClass := "COLD", set := true }

def removeNoncurrent : Rule where
  id := "remove"
  status := Enabled
  filter := { set := true }
  noncurrentVersionExpiration := { noncurrentDays := 1, set := true }

def noncurrentVersion : ObjectOpts where
  name := "object"
  modTime := (0 : Int)
  versionID := "v1"
  isLatest := false
  numVersions := 2
  successorModTime := (0 : Int)

/-- Ten days later both rules are due, and the first one has its way. -/
theorem noncurrentVersion_disputed :
    computeAction { rules := [moveNoncurrent, removeNoncurrent] } noncurrentVersion
      (10 * Time.day) = .transitionVersionAction ∧
    computeAction { rules := [removeNoncurrent, moveNoncurrent] } noncurrentVersion
      (10 * Time.day) = .deleteVersionAction ∧
    ¬ OrderFree { rules := [moveNoncurrent, removeNoncurrent] } noncurrentVersion
      (10 * Time.day) ∧
    ¬ ExpirationFirst { rules := [moveNoncurrent, removeNoncurrent] } noncurrentVersion
      (10 * Time.day) := by
  refine ⟨by decide, by decide, ?_, ?_⟩
  · intro horder
    exact absurd (horder _ (List.Perm.swap moveNoncurrent removeNoncurrent [])) (by decide)
  · intro hfirst
    exact absurd (hfirst (by decide) ⟨removeNoncurrent, by decide, by decide⟩) (by decide)

end Fs3.Lifecycle
