import Fs3.MultiDelete.Answers

/-! # Answered once, if and only if

What has to hold for every object to be answered once is found from runs in which all objects are
deleted, or none, or one of two. -/

namespace Fs3.MultiDelete

open Foundation Listing

namespace Server

variable {server : Server} {request : DeleteObjectsRequest} {collected : Collected}

def internalError : APIError :=
  ⟨"InternalError", "We encountered an internal error, please try again.", by decide⟩

section Needed

variable (hdescribes : Describes server request.objects request.objects.length collected)
  (hall : ∀ asked, Asks collected asked → server.AnswersEach request collected asked)
variable {asked : List (ObjectToDelete × Outcome)} {object : ObjectToDelete}

include hall in
theorem mem_of_answersEach (hasks : Asks collected asked) (hobject : object ∈ request.objects) :
    object.pair ∈ (server.DeleteMultipleObjectsHandler request collected asked).deletedPairs ∨
      object.pair ∈ (server.DeleteMultipleObjectsHandler request collected asked).errorPairs := by
  have hcount := (hall asked hasks object hobject).1
  exact List.mem_append.mp (List.count_pos_iff.mp (by rw [hcount]; exact Nat.one_pos))

include hdescribes

theorem of_listed (hasks : Asks collected asked) {pair : Name × String}
    (hlisted : pair ∈ (server.DeleteMultipleObjectsHandler request collected asked).deletedPairs ∨
      pair ∈ (server.DeleteMultipleObjectsHandler request collected asked).errorPairs) :
    (∃ index, server.RefusesAt request.objects pair index) ∨
      ∃ accepted, server.Accepts request.objects accepted ∧ (encoded accepted).pair = pair := by
  rcases hlisted with hmem | hmem
  · obtain ⟨-, -, -, -, ask, hask, -, -, -, -, heq, -⟩ := of_mem_deletedPairs hmem
    exact Or.inr ⟨ask.1, hasks.accepts hdescribes hask, heq⟩
  · obtain ⟨index, -, -, hat | ⟨ask, hask, -, -, heq⟩⟩ := of_mem_errorPairs hdescribes hmem
    · exact Or.inl ⟨index, hat⟩
    · exact Or.inr ⟨ask.1, hasks.accepts hdescribes hask, heq⟩

include hall

theorem answerable_of_answersEach : server.Answerable request := by
  have hasks := asks_asking collected fun _ => none
  have hdirectory : ∀ object, server.Accepts request.objects object →
      encodeDirObject object.objectName = object.objectName := by
    intro object haccepts
    obtain ⟨asked, hasked, hpair⟩ := haccepts.exists_asked
    rcases of_listed hdescribes hasks (mem_of_answersEach hall hasks hasked) with
      ⟨index, hat⟩ | ⟨accepted, -, heq⟩
    · exact absurd (hpair ▸ hat) (not_refusesAt_of_accepts haccepts index)
    · have hname : encodeDirObject accepted.objectName = object.objectName :=
        congrArg Prod.fst (heq.trans hpair)
      rw [← hname, encodeDirObject_encodeDirObject]
  refine ⟨fun object hobject hpass => ?_, hdirectory⟩
  rcases of_listed hdescribes hasks (mem_of_answersEach hall hasks hobject) with
    ⟨index, refused, code, -, hpair, hrefuse⟩ | ⟨accepted, haccepts, heq⟩
  · rcases @examine_congr server _ _ hpair with hsame | ⟨⟨other, hdelete⟩, -⟩
    · rw [hpass, hrefuse] at hsame
      cases hsame
    · rw [hrefuse] at hdelete
      cases hdelete
  · rw [encoded_eq (hdirectory accepted haccepts)] at heq
    obtain ⟨other, hdelete⟩ := haccepts.examine heq
    rw [hpass] at hdelete
    cases hdelete

theorem onePlace_of_answersEach (hcannot : server.CannotDelete request) :
    server.OnePlace request := by
  have hanswerable := answerable_of_answersEach hdescribes hall
  have hasks := asks_asking collected fun _ => none
  have hbulk := (bulkErr_ne_none hdescribes hasks).mpr hcannot
  -- All that is to be deleted is found at one index.
  have hfound : ∀ object, server.Accepts request.objects object →
      errorPair ((server.slots collected (asking collected fun _ => none)).dErrs
        (zeroSlot collected)) = some object.pair := by
    intro object haccepts
    obtain ⟨asked, hasked, hpair⟩ := haccepts.exists_asked
    have hmem := (mem_of_answersEach hall hasks hasked).resolve_left
      (not_mem_deletedPairs_of_bulk hbulk asked.pair)
    obtain ⟨index, -, heq, hat | ⟨ask, -, -, hslot, -⟩⟩ := of_mem_errorPairs hdescribes hmem
    · exact absurd (hpair ▸ hat) (not_refusesAt_of_accepts haccepts index)
    · rw [slotOf_of_bulk hbulk] at hslot
      rw [hslot, heq, hpair]
  refine ⟨fun object object' haccepts haccepts' => ?_, fun pair index hat => ?_⟩
  · exact Option.some.inj ((hfound object haccepts).symm.trans (hfound object' haccepts'))
  · obtain ⟨refused, code, hobject, rfl, hrefuse⟩ := hat
    have hat : server.RefusesAt request.objects refused.pair index :=
      ⟨refused, code, hobject, rfl, hrefuse⟩
    have hrefused := List.mem_of_getElem? hobject
    have hcount := (hall _ hasks refused hrefused).1
    have hmem := (mem_of_answersEach hall hasks hrefused).resolve_left
      (not_mem_deletedPairs_of_bulk hbulk refused.pair)
    rw [errorPairs_eq, mem_filterMap_range] at hmem
    obtain ⟨j, hj, hpair⟩ := hmem
    refine ⟨j, (errorPair_of_bulk hdescribes hasks hanswerable hbulk hat hj).mp hpair,
      fun j' hj' => ?_⟩
    by_contra hne
    have hpair' := (errorPair_of_bulk hdescribes hasks hanswerable hbulk hat
      hj'.1.lt_length).mpr hj'
    have htwice := one_lt_count_of_slots
      (fun j => errorPair ((server.slots collected (asking collected fun _ => none)).dErrs j))
      hj'.1.lt_length hj hne hpair' hpair
    rw [List.count_append, errorPairs_eq] at hcount
    omega

/-! ## Where objects can be deleted -/

section CanDelete

variable (hcan : ¬ server.CannotDelete request)

include hcan

omit hall in
theorem bulkErr_of_can (hasks : Asks collected asked) :
    server.bulkErr (asked.map fun other => encoded other.1) = none :=
  Classical.not_not.mp fun hne => hcan ((bulkErr_ne_none hdescribes hasks).mp hne)

theorem mem_deletedPairs_of_success (errOf : ObjectToDelete → Option ObjectErr)
    (haccepts : server.Accepts request.objects object)
    (hgone : server.inNoPool (encoded object) = true ∨ failure (errOf object) = none) :
    object.pair ∈ (server.DeleteMultipleObjectsHandler request collected
      (asking collected errOf)).deletedPairs := by
  have hasks := asks_asking collected errOf
  obtain ⟨ask, hask, rfl⟩ := hasks.exists_ask hdescribes haccepts
  obtain ⟨asked, hasked, hpair⟩ := haccepts.exists_asked
  rw [← hpair]
  refine (hall _ hasks asked hasked).2.mpr ⟨ask, hask, hpair.symm,
    bulkErr_of_can hdescribes hcan hasks, hgone.imp_right fun hsuccess => ?_⟩
  rw [err_of_mem_asking hask, hsuccess]

theorem inPool_of_answersEach (haccepts : server.Accepts request.objects object) :
    server.inNoPool (encoded object) = false ∧ server.nameErr (encoded object) = none := by
  have hanswerable := answerable_of_answersEach hdescribes hall
  have hasks := asks_asking collected fun _ => none
  have hmem := mem_deletedPairs_of_success hdescribes hall hcan (fun _ => none) haccepts
    (Or.inr rfl)
  obtain ⟨-, -, -, -, ask, hask, hsuccess, -, hbulk, hpool, heq, -⟩ := of_mem_deletedPairs hmem
  have hname : (encoded ask.1).objectName = (encoded object).objectName := by
    rw [encoded_eq (hanswerable.noDirectory object haccepts)]
    exact congrArg Prod.fst heq
  rw [answer, hbulk, answerOf, hpool, if_neg Bool.false_ne_true, err_of_mem_asking hask,
    Option.none_or] at hsuccess
  unfold inNoPool at hpool ⊢
  unfold nameErr at hsuccess ⊢
  rw [hname] at hpool hsuccess
  refine ⟨hpool, ?_⟩
  split
  next => rfl
  next hpools =>
    rw [if_neg hpools] at hsuccess
    cases hcheck : server.checkDelObjArgs (encoded object).objectName with
    | none => rfl
    | some apiErr =>
      rw [hcheck] at hsuccess
      cases hsuccess

theorem refusedOnce_of_answersEach {pair : Name × String} {i j : Nat}
    (hi : server.RefusesAt request.objects pair i) (hj : server.RefusesAt request.objects pair j) :
    i = j := by
  have hanswerable := answerable_of_answersEach hdescribes hall
  have hasks := asks_asking collected fun _ => none
  -- Nothing fails in the run, so the errors are those that were collected.
  have hkept : ∀ place, server.RefusesAt request.objects pair place →
      errorPair ((server.slots collected (asking collected fun _ => none)).dErrs place) =
        some pair := by
    intro place hat
    have hsame : (server.slots collected (asking collected fun _ => none)).dErrs place =
        collected.dErrs place := by
      refine dErrs_of_ne fun ask hask hfails _ => hfails ?_
      rw [answer_eq hdescribes hasks hanswerable hcan
        (fun object => inPool_of_answersEach hdescribes hall hcan) hask, err_of_mem_asking hask]
      rfl
    rw [hsame, hdescribes.dErrs_of_lt place hat.lt_length, errorPair, if_neg hat.refusalAt.1,
      hat.refusalAt.2]
  by_contra hne
  have htwice := one_lt_count_of_slots
    (fun place => errorPair ((server.slots collected (asking collected fun _ => none)).dErrs place))
    hi.lt_length hj.lt_length hne (hkept i hi) (hkept j hj)
  obtain ⟨refused, code, hobject, rfl, -⟩ := hi
  have hcount := (hall _ hasks refused (List.mem_of_getElem? hobject)).1
  rw [List.count_append, errorPairs_eq] at hcount
  omega

/-- One of two objects with the same key and version is deleted, and the other is not. -/
theorem oneObject_of_answersEach {object object' : ObjectToDelete}
    (haccepts : server.Accepts request.objects object)
    (haccepts' : server.Accepts request.objects object') (hpair : object.pair = object'.pair) :
    object = object' := by
  by_contra hne
  have hanswerable := answerable_of_answersEach hdescribes hall
  let errOf : ObjectToDelete → Option ObjectErr := fun other =>
    if other = object' then some (.other internalError) else none
  have hasks := asks_asking collected errOf
  have hdeleted := mem_deletedPairs_of_success hdescribes hall hcan errOf haccepts
    (Or.inr (by simp only [errOf, if_neg hne]; rfl))
  have hanswer : ∀ ask ∈ asking collected errOf, server.answer (asking collected errOf) ask =
      (server.deletedObject ask.1 ask.2.uuid, ask.2.err) := fun ask hask =>
    answer_eq hdescribes hasks hanswerable hcan
      (fun object => inPool_of_answersEach hdescribes hall hcan) hask
  obtain ⟨ask, hask, heq⟩ := hasks.exists_ask hdescribes haccepts'
  have hfails : failure (server.answer (asking collected errOf) ask).2 ≠ none := by
    rw [hanswer ask hask, err_of_mem_asking hask, heq]
    simp [errOf, failure]
  obtain ⟨last, hlast, lastErr, hlastFails, -, hplace⟩ :=
    @dErrs_of_failure server collected _ ask hask hfails
  have hlastEq : last.1 = object' := by
    by_contra hother
    rw [hanswer last hlast, err_of_mem_asking hlast] at hlastFails
    simp [errOf, if_neg hother, failure] at hlastFails
  have herror : object'.pair ∈ (server.DeleteMultipleObjectsHandler request collected
      (asking collected errOf)).errorPairs := by
    rw [errorPairs_eq]
    refine mem_filterMap_range.mpr ⟨_, slotOf_lt
      (server.answer (asking collected errOf) ask).1 hdescribes haccepts.length_pos, ?_⟩
    rw [hplace, about_pair, hlastEq, encoded_eq (hanswerable.noDirectory _ haccepts')]
  obtain ⟨asked, hasked, hsame⟩ := haccepts.exists_asked
  have hcount := (hall _ hasks asked hasked).1
  rw [hsame, List.count_append] at hcount
  have hfirst := List.count_pos_iff.mpr hdeleted
  have hsecond := List.count_pos_iff.mpr (hpair ▸ herror)
  omega

/-- An object that names a delete marker takes the index of the first object. -/
theorem markerFirst_of_answersEach (haccepts : server.Accepts request.objects object)
    (hmarker : object.deleteMarkerVersionID ≠ "") :
    server.decisionAt request.objects 0 = some (.delete object) := by
  have hanswerable := answerable_of_answersEach hdescribes hall
  have hpools : ∀ object, server.Accepts request.objects object →
      server.inNoPool (encoded object) = false ∧ server.nameErr (encoded object) = none :=
    fun object => inPool_of_answersEach hdescribes hall hcan
  have hone : ∀ object object', server.Accepts request.objects object →
      server.Accepts request.objects object' → object.pair = object'.pair → object = object' :=
    fun object object' => oneObject_of_answersEach hdescribes hall hcan
  obtain ⟨first, hfirst⟩ : ∃ first, request.objects[0]? = some first :=
    ⟨_, List.getElem?_eq_getElem haccepts.length_pos⟩
  cases hdecision : server.examine first with
  | endRequest code =>
    refine absurd ?_ (hdescribes.goesOn 0 haccepts.length_pos code)
    rw [decisionAt, hfirst, Option.map_some, hdecision]
  | passOver =>
    exact absurd hdecision (hanswerable.nonePassedOver first (List.mem_of_getElem? hfirst))
  | refuse code =>
    -- Where no object can be deleted, the error of the first one is lost.
    have hat : server.RefusesAt request.objects first.pair 0 :=
      ⟨first, code, hfirst, rfl, hdecision⟩
    have hasks := asks_asking collected fun _ => some (.other internalError)
    obtain ⟨ask, hask, rfl⟩ := hasks.exists_ask hdescribes haccepts
    have hslot := slotOf_of_marker hdescribes hasks hanswerable hcan hpools hone hask hmarker
    obtain ⟨last, hlast, lastErr, -, -, hplace⟩ := @dErrs_of_failure server collected _ ask hask
      (by rw [answer_eq hdescribes hasks hanswerable hcan hpools hask, err_of_mem_asking hask]
          exact Option.some_ne_none _)
    rw [hslot] at hplace
    have hlastAccepts := hasks.accepts hdescribes hlast
    rcases mem_of_answersEach hall hasks (List.mem_of_getElem? hfirst) with hmem | hmem
    · obtain ⟨-, -, -, -, other, hother, -, -, -, -, heq, -⟩ := of_mem_deletedPairs hmem
      have hotherAccepts := hasks.accepts hdescribes hother
      rw [encoded_eq (hanswerable.noDirectory _ hotherAccepts)] at heq
      exact absurd (heq ▸ hat) (not_refusesAt_of_accepts hotherAccepts 0)
    · obtain ⟨j, -, hpair, hat' | ⟨other, hother, -, -, heq⟩⟩ := of_mem_errorPairs hdescribes hmem
      · rw [refusedOnce_of_answersEach hdescribes hall hcan hat' hat, hplace, about_pair,
          encoded_eq (hanswerable.noDirectory _ hlastAccepts), Option.some.injEq] at hpair
        exact absurd (hpair ▸ hat) (not_refusesAt_of_accepts hlastAccepts 0)
      · have hotherAccepts := hasks.accepts hdescribes hother
        rw [encoded_eq (hanswerable.noDirectory _ hotherAccepts)] at heq
        exact absurd (heq ▸ hat) (not_refusesAt_of_accepts hotherAccepts 0)
  | delete accepted =>
    -- Where all objects are deleted, this one and the first are at the same index.
    have hat : server.decisionAt request.objects 0 = some (.delete accepted) := by
      rw [decisionAt, hfirst, Option.map_some, hdecision]
    have hasks := asks_asking collected fun _ => none
    have hlisted : ∀ other, server.Accepts request.objects other →
        (other.deleteMarkerVersionID ≠ "" ∨ server.FirstAt request.objects other 0) →
          deletedPair
            ((server.slots collected (asking collected fun _ => none)).deletedObjects 0) =
            some other.pair := by
      intro other hother hzero
      have hmem := mem_deletedPairs_of_success hdescribes hall hcan (fun _ => none) hother
        (Or.inr rfl)
      obtain ⟨-, j, -, hpair, ask, hask, -, hslot, -, -, heq, -⟩ := of_mem_deletedPairs hmem
      have haskAccepts := hasks.accepts hdescribes hask
      rw [encoded_eq (hanswerable.noDirectory _ haskAccepts)] at heq
      have hask' : ask.1 = other := hone _ _ haskAccepts hother heq
      have hj : j = 0 := by
        rw [← hslot]
        rcases hzero with hnamed | hfirstAt
        · exact slotOf_of_marker hdescribes hasks hanswerable hcan hpools hone hask
            (hask' ▸ hnamed)
        · by_cases hplain : ask.1.deleteMarkerVersionID = ""
          · exact slotOf_of_not_marker hdescribes hasks hanswerable hcan hpools hask hplain
              (hask' ▸ hfirstAt)
          · exact slotOf_of_marker hdescribes hasks hanswerable hcan hpools hone hask hplain
      rw [hj] at hpair
      exact hpair
    have hacceptsFirst : server.Accepts request.objects accepted := ⟨0, hat⟩
    have hsame := (hlisted object haccepts (Or.inl hmarker)).symm.trans
      (hlisted accepted hacceptsFirst (Or.inr ⟨hat, fun j hlt => absurd hlt (Nat.not_lt_zero j)⟩))
    rw [hone object accepted haccepts hacceptsFirst (Option.some.inj hsame)]
    exact hat

theorem separate_of_answersEach : server.Separate request where
  refusedOnce _ _ _ := refusedOnce_of_answersEach hdescribes hall hcan
  oneObject _ _ := oneObject_of_answersEach hdescribes hall hcan
  named object haccepts := by
    have hmem := mem_deletedPairs_of_success hdescribes hall hcan (fun _ => none) haccepts
      (Or.inr rfl)
    obtain ⟨-, -, -, -, -, -, -, -, -, -, -, hnamed⟩ := of_mem_deletedPairs hmem
    exact hnamed
  markerFirst _ := markerFirst_of_answersEach hdescribes hall hcan
  inPool _ := inPool_of_answersEach hdescribes hall hcan
  verbose hquiet object haccepts := by
    have hmem := mem_deletedPairs_of_success hdescribes hall hcan (fun _ => none) haccepts
      (Or.inr rfl)
    exact (of_mem_deletedPairs hmem).1 hquiet

end CanDelete

end Needed

/-- Every object of a request is answered once, whatever happens on the drives, if and only
if the request is ended, or the objects are answerable and either share one answer, where
nothing can be deleted, or have an index each. -/
theorem answersAll_iff (server : Server) (request : DeleteObjectsRequest) :
    server.AnswersAll request ↔
      server.EndsRequest request ∨
        server.Answerable request ∧
          (server.CannotDelete request → server.OnePlace request) ∧
          (¬ server.CannotDelete request → server.Separate request) := by
  constructor
  · intro hall
    by_cases hends : server.EndsRequest request
    · exact Or.inl hends
    · unfold EndsRequest at hends
      push Not at hends
      obtain ⟨collected, hcollect⟩ := exists_collect hends
      have hdescribes := describes_of_collect hcollect
      have hruns := hall collected hcollect
      exact Or.inr ⟨answerable_of_answersEach hdescribes hruns,
        onePlace_of_answersEach hdescribes hruns, separate_of_answersEach hdescribes hruns⟩
  · rintro (⟨object, hobject, code, hends⟩ | ⟨hanswerable, hplace, hseparate⟩)
    · intro collected hcollect
      obtain ⟨index, hindex⟩ := List.mem_iff_getElem?.mp hobject
      refine absurd ?_ ((describes_of_collect hcollect).goesOn index
        (List.getElem?_eq_some_iff.mp hindex).1 code)
      rw [decisionAt, hindex, Option.map_some, hends]
    · intro collected hcollect asked hasks
      have hdescribes := describes_of_collect hcollect
      by_cases hcannot : server.CannotDelete request
      · exact answersEach_of_onePlace hdescribes hasks hanswerable hcannot (hplace hcannot)
      · exact answersEach_of_separate hdescribes hasks hanswerable hcannot (hseparate hcannot)

def lenientServer : Server where
  checkRequestAuthType _ _ := none
  uuid := UuidPackage.google
  replicateDeletes := false
  checkReplicateDelete _ _ := false
  hasLockEnabled := false
  enforceRetentionBypassForDelete _ _ := none
  versioned := false
  versionSuspended := false
  singlePool := true
  checkDelObjArgs _ := none
  getPoolIdxExisting _ := .pool 0
  lockErr := none

/-- A directory is not listed under the key that was requested. -/
theorem not_answersAll_directory :
    ¬ lenientServer.AnswersAll ⟨false, [{ objectName := "a/".toList }]⟩ := by
  intro hall
  have hdecision : lenientServer.decisionAt [{ objectName := "a/".toList }] 0 =
      some (.delete { objectName := "a/".toList }) := rfl
  obtain ⟨collected, hcollect⟩ :
      ∃ collected, lenientServer.collect [{ objectName := "a/".toList }] = .ok collected := ⟨_, rfl⟩
  have hanswerable := answerable_of_answersEach
    (describes_of_collect hcollect) (hall collected hcollect)
  exact absurd (hanswerable.noDirectory _ ⟨0, hdecision⟩) (by decide)

end Server

end Fs3.MultiDelete
