import Fs3.MultiDelete.Response

/-! # When every object is answered once

An answer goes to the index that the handler finds for the object that comes back. -/

namespace Fs3.MultiDelete

open Foundation Listing

theorem encodeDirObject_of_not {object : Name} (hnot : slashSeparator.isSuffixOf object = false) :
    encodeDirObject object = object := by
  rw [encodeDirObject, hnot]
  exact if_neg Bool.false_ne_true

theorem encodeDirObject_encodeDirObject (object : Name) :
    encodeDirObject (encodeDirObject object) = encodeDirObject object := by
  refine encodeDirObject_of_not ?_
  unfold encodeDirObject
  split
  next =>
    refine Bool.eq_false_iff.mpr fun hsuffix => ?_
    have hlast := List.IsSuffix.trans (List.isSuffixOf_iff_suffix.mp hsuffix) List.suffix_rfl
    have hshort : slashSeparator <:+ globalDirSuffix :=
      List.suffix_of_suffix_length_le hlast (List.suffix_append _ _) (by decide)
    revert hshort
    decide
  next hnot => exact Bool.eq_false_iff.mpr hnot

namespace Server

variable (server : Server) (request : DeleteObjectsRequest)

def Gone (asked : List (ObjectToDelete × Outcome)) (pair : Name × String) : Prop :=
  ∃ ask ∈ asked, ask.1.pair = pair ∧
    server.bulkErr (asked.map fun other => encoded other.1) = none ∧
    (server.inNoPool (encoded ask.1) = true ∨ failure ask.2.err = none)

/-- Every key and version of the request is listed once, and among the deleted objects
if and only if it is gone. -/
def AnswersEach (collected : Collected) (asked : List (ObjectToDelete × Outcome)) : Prop :=
  ∀ object ∈ request.objects,
    ((server.DeleteMultipleObjectsHandler request collected asked).deletedPairs ++
      (server.DeleteMultipleObjectsHandler request collected asked).errorPairs).count object.pair
        = 1 ∧
    (object.pair ∈ (server.DeleteMultipleObjectsHandler request collected asked).deletedPairs ↔
      server.Gone asked object.pair)

/-- Every object of a request that is answered is answered once, whatever happens on the
drives. -/
def AnswersAll : Prop :=
  ∀ collected, server.collect request.objects = .ok collected →
    ∀ asked, Asks collected asked → server.AnswersEach request collected asked

def EndsRequest : Prop :=
  ∃ object ∈ request.objects, ∃ code, server.examine object = .endRequest code

def CannotDelete : Prop :=
  (server.singlePool = false ∧ ∃ object, server.Accepts request.objects object ∧
    ∃ apiErr, server.getPoolIdxExisting (encodeDirObject object.objectName) = .failed apiErr) ∨
  server.lockErr ≠ none

/-- No object is passed over, and none that is to be deleted is a directory. -/
structure Answerable : Prop where
  nonePassedOver : ∀ object ∈ request.objects, server.examine object ≠ .passOver
  noDirectory : ∀ object, server.Accepts request.objects object →
    encodeDirObject object.objectName = object.objectName

/-- The objects that are deleted have an index each, and so have those that are refused. -/
structure Separate : Prop where
  refusedOnce : ∀ pair i j, server.RefusesAt request.objects pair i →
    server.RefusesAt request.objects pair j → i = j
  oneObject : ∀ object object', server.Accepts request.objects object →
    server.Accepts request.objects object' → object.pair = object'.pair → object = object'
  named : ∀ object, server.Accepts request.objects object → object.objectName ≠ []
  /-- An object that names a delete marker comes first in the request. -/
  markerFirst : ∀ object, server.Accepts request.objects object →
    object.deleteMarkerVersionID ≠ "" → server.decisionAt request.objects 0 = some (.delete object)
  inPool : ∀ object, server.Accepts request.objects object →
    server.inNoPool (encoded object) = false ∧ server.nameErr (encoded object) = none
  verbose : request.quiet = true → ∀ object, ¬ server.Accepts request.objects object

/-- The error of the first object is written over where nothing can be deleted. -/
def Overwritten (index : Nat) : Prop :=
  index = 0 ∧ (∃ object, server.Accepts request.objects object) ∧
    ¬ server.Accepts request.objects { objectName := [] }

/-- The objects that are to be deleted share one answer. -/
structure OnePlace : Prop where
  onePair : ∀ object object', server.Accepts request.objects object →
    server.Accepts request.objects object' → object.pair = object'.pair
  refusedOnce : ∀ pair index, server.RefusesAt request.objects pair index →
    ∃! j, server.RefusesAt request.objects pair j ∧ ¬ server.Overwritten request j

/-! ## The objects that are asked for -/

section Asked

variable {server request} {collected : Collected} {asked : List (ObjectToDelete × Outcome)}
variable {objects : List ObjectToDelete}

theorem accepts_of_mem_keys {n : Nat} {object : ObjectToDelete}
    (hdescribes : Describes server objects n collected)
    (hkey : object ∈ collected.objectsToDelete.map Prod.fst) : server.Accepts objects object := by
  obtain ⟨entry, hentry, heq⟩ := List.mem_map.mp hkey
  have hsome : (collected.objectsToDelete.lookup object).isSome = true :=
    List.lookup_isSome_iff.mpr ⟨entry, hentry, by rw [heq]; exact beq_self_eq_true _⟩
  obtain ⟨place, hplace⟩ := Option.isSome_iff_exists.mp hsome
  exact ((hdescribes.lookup_eq object place).mp hplace).2.accepts

theorem Describes.lookup_of_firstAt {object : ObjectToDelete} {place : Nat}
    (hdescribes : Describes server objects objects.length collected)
    (hfirst : server.FirstAt objects object place) :
    collected.objectsToDelete.lookup object = some place :=
  (hdescribes.lookup_eq object place).mpr ⟨hfirst.lt_length, hfirst⟩

theorem Describes.lookup_of_not_accepts {object : ObjectToDelete} {n : Nat}
    (hdescribes : Describes server objects n collected) (hnot : ¬ server.Accepts objects object) :
    collected.objectsToDelete.lookup object = none := by
  cases hlookup : collected.objectsToDelete.lookup object with
  | none => rfl
  | some place => exact absurd ((hdescribes.lookup_eq object place).mp hlookup).2.accepts hnot

theorem Asks.accepts {n : Nat} (hdescribes : Describes server objects n collected)
    (hasks : Asks collected asked) {ask : ObjectToDelete × Outcome} (hask : ask ∈ asked) :
    server.Accepts objects ask.1 :=
  accepts_of_mem_keys hdescribes (hasks.mem_iff.mp (List.mem_map_of_mem hask))

theorem Asks.exists_ask {object : ObjectToDelete}
    (hdescribes : Describes server objects objects.length collected) (hasks : Asks collected asked)
    (haccepts : server.Accepts objects object) : ∃ ask ∈ asked, ask.1 = object := by
  obtain ⟨place, hfirst⟩ := haccepts.exists_firstAt
  have hlookup := hdescribes.lookup_of_firstAt hfirst
  obtain ⟨before, after, heq, -⟩ := List.lookup_eq_some_iff.mp hlookup
  have hkey : object ∈ collected.objectsToDelete.map Prod.fst := by
    rw [heq]
    simp
  exact List.mem_map.mp (hasks.mem_iff.mpr hkey)

theorem Asks.unique {n : Nat} (hdescribes : Describes server objects n collected)
    (hasks : Asks collected asked) {ask other : ObjectToDelete × Outcome} (hask : ask ∈ asked)
    (hother : other ∈ asked) (heq : ask.1 = other.1) : ask = other :=
  List.inj_on_of_nodup_map (hasks.nodup_iff.mpr hdescribes.nodup) hask hother heq

def asking (collected : Collected) (errOf : ObjectToDelete → Option ObjectErr) :
    List (ObjectToDelete × Outcome) :=
  collected.objectsToDelete.map fun entry => (entry.1, ⟨errOf entry.1, ""⟩)

theorem asks_asking (collected : Collected) (errOf : ObjectToDelete → Option ObjectErr) :
    Asks collected (asking collected errOf) := by
  rw [Asks, asking, List.map_map]
  exact List.Perm.refl _

theorem err_of_mem_asking {errOf : ObjectToDelete → Option ObjectErr}
    {ask : ObjectToDelete × Outcome} (hask : ask ∈ asking collected errOf) :
    ask.2.err = errOf ask.1 := by
  obtain ⟨entry, -, rfl⟩ := List.mem_map.mp hask
  rfl

theorem poolErr_ne_none :
    server.poolErr objects ≠ none ↔
      ∃ object ∈ objects, ∃ apiErr,
        server.getPoolIdxExisting object.objectName = .failed apiErr := by
  induction objects with
  | nil => exact ⟨fun hne => absurd rfl hne, fun ⟨_, hmem, _⟩ => nomatch hmem⟩
  | cons object rest ih =>
    rw [poolErr]
    split
    next apiErr hfailed =>
      exact ⟨fun _ => ⟨object, List.mem_cons_self, apiErr, hfailed⟩,
        fun _ => Option.some_ne_none _⟩
    next hother =>
      rw [ih]
      constructor
      · rintro ⟨other, hmem, hfailed⟩
        exact ⟨other, List.mem_cons_of_mem _ hmem, hfailed⟩
      · rintro ⟨other, hmem, apiErr, hfailed⟩
        rcases List.mem_cons.mp hmem with rfl | hmem
        · exact absurd hfailed (hother apiErr)
        · exact ⟨other, hmem, apiErr, hfailed⟩

theorem bulkErr_ne_none
    (hdescribes : Describes server request.objects request.objects.length collected)
    (hasks : Asks collected asked) :
    server.bulkErr (asked.map fun other => encoded other.1) ≠ none ↔
      server.CannotDelete request := by
  unfold bulkErr CannotDelete
  cases hsingle : server.singlePool with
  | true => simp
  | false =>
    rw [if_neg Bool.false_ne_true, ne_eq, Option.or_eq_none_iff, not_and_or]
    refine or_congr (poolErr_ne_none.trans ?_) Iff.rfl
    rw [and_iff_right rfl]
    constructor
    · rintro ⟨object, hmem, hfailed⟩
      obtain ⟨ask, hask, rfl⟩ := List.mem_map.mp hmem
      exact ⟨ask.1, hasks.accepts hdescribes hask, hfailed⟩
    · rintro ⟨object, haccepts, hfailed⟩
      obtain ⟨ask, hask, rfl⟩ := hasks.exists_ask hdescribes haccepts
      exact ⟨encoded ask.1, List.mem_map_of_mem hask, hfailed⟩

end Asked

/-! ## One place for all -/

section OnePlace

variable {server request} {collected : Collected} {asked : List (ObjectToDelete × Outcome)}
  (hdescribes : Describes server request.objects request.objects.length collected)
  (hasks : Asks collected asked)

theorem encoded_eq {object : ObjectToDelete}
    (hname : encodeDirObject object.objectName = object.objectName) : encoded object = object := by
  rw [encoded, hname]

theorem slotOf_lt {objects : List ObjectToDelete} (dobject : DeletedObject)
    (hdescribes : Describes server objects objects.length collected) (hsome : 0 < objects.length) :
    slotOf collected.objectsToDelete dobject < objects.length := by
  unfold slotOf
  generalize hkey : ObjectToDelete.mk dobject.objectName dobject.versionID
    dobject.deleteMarkerReplicationStatus dobject.versionPurgeStatus "" = key
  cases hlookup : collected.objectsToDelete.lookup key with
  | none => exact hsome
  | some place => exact ((hdescribes.lookup_eq key place).mp hlookup).1

theorem Accepts.length_pos {objects : List ObjectToDelete} {object : ObjectToDelete}
    (haccepts : server.Accepts objects object) : 0 < objects.length := by
  obtain ⟨place, hfirst⟩ := haccepts.exists_firstAt
  exact Nat.lt_of_le_of_lt (Nat.zero_le place) hfirst.lt_length

def zeroSlot (collected : Collected) : Nat := slotOf collected.objectsToDelete {}

section

variable (hbulk : server.bulkErr (asked.map fun other => encoded other.1) ≠ none)
include hbulk

theorem answer_of_bulk (ask : ObjectToDelete × Outcome) :
    ∃ apiErr, server.answer asked ask = ({}, some (.other apiErr)) := by
  obtain ⟨apiErr, heq⟩ := Option.ne_none_iff_exists'.mp hbulk
  exact ⟨apiErr, by rw [answer, heq, answerOf]⟩

theorem slotOf_of_bulk (ask : ObjectToDelete × Outcome) :
    slotOf collected.objectsToDelete (server.answer asked ask).1 = zeroSlot collected := by
  obtain ⟨apiErr, hanswer⟩ := answer_of_bulk hbulk ask
  rw [hanswer]
  rfl

theorem not_mem_deletedPairs_of_bulk (pair : Name × String) :
    pair ∉ (server.DeleteMultipleObjectsHandler request collected asked).deletedPairs := by
  intro hmem
  obtain ⟨-, -, -, -, ask, -, -, -, hnone, -⟩ := of_mem_deletedPairs hmem
  exact hbulk hnone

end

include hdescribes hasks

theorem errorPair_zeroSlot (hanswerable : server.Answerable request)
    (hbulk : server.bulkErr (asked.map fun other => encoded other.1) ≠ none)
    {object : ObjectToDelete} (haccepts : server.Accepts request.objects object) :
    ∃ last, server.Accepts request.objects last ∧
      errorPair ((server.slots collected asked).dErrs (zeroSlot collected)) = some last.pair := by
  obtain ⟨ask, hask, rfl⟩ := hasks.exists_ask hdescribes haccepts
  obtain ⟨apiErr, hanswer⟩ := answer_of_bulk hbulk ask
  obtain ⟨last, hlast, lastErr, -, -, heq⟩ :=
    @dErrs_of_failure server collected asked ask hask (by rw [hanswer]; exact Option.some_ne_none _)
  have hlastAccepts := hasks.accepts hdescribes hlast
  refine ⟨last.1, hlastAccepts, ?_⟩
  rw [hanswer] at heq
  rw [zeroSlot, heq, about_pair, encoded_eq (hanswerable.noDirectory _ hlastAccepts)]

/-- Of the errors of the objects that are refused, all but one that is written over stay. -/
theorem errorPair_of_bulk (hanswerable : server.Answerable request)
    (hbulk : server.bulkErr (asked.map fun other => encoded other.1) ≠ none)
    {pair : Name × String} {index index' : Nat}
    (hrefuses : server.RefusesAt request.objects pair index')
    (hlt : index < request.objects.length) :
    errorPair ((server.slots collected asked).dErrs index) = some pair ↔
      server.RefusesAt request.objects pair index ∧ ¬ server.Overwritten request index := by
  constructor
  · intro hpair
    rcases of_errorPair hdescribes hlt hpair with hat | ⟨ask, hask, -, -, heq⟩
    · refine ⟨hat, fun ⟨hzero, ⟨object, haccepts⟩, hnone⟩ => ?_⟩
      obtain ⟨last, hlast, hplace⟩ := errorPair_zeroSlot hdescribes hasks hanswerable hbulk haccepts
      have hslot : zeroSlot collected = index := by
        rw [hzero, zeroSlot, slotOf, hdescribes.lookup_of_not_accepts hnone]
        rfl
      rw [hslot, hpair, Option.some.injEq] at hplace
      exact not_refusesAt_of_accepts hlast index (hplace ▸ hat)
    · have haccepts := hasks.accepts hdescribes hask
      rw [encoded_eq (hanswerable.noDirectory _ haccepts)] at heq
      exact absurd (heq ▸ hrefuses) (not_refusesAt_of_accepts haccepts index')
  · rintro ⟨hat, hkept⟩
    have hsame : (server.slots collected asked).dErrs index = collected.dErrs index := by
      refine dErrs_of_ne fun ask hask _ hslot => ?_
      obtain ⟨apiErr, hanswer⟩ := answer_of_bulk hbulk ask
      rw [hanswer] at hslot
      by_cases hzero : server.Accepts request.objects { objectName := [] }
      · obtain ⟨place, hfirst⟩ := hzero.exists_firstAt
        have hplace : place = index := by
          rw [← hslot, slotOf, hdescribes.lookup_of_firstAt hfirst]
          rfl
        obtain ⟨refused, code, hobject, -, hrefuse⟩ := hat
        have hdelete := hfirst.1
        rw [hplace, decisionAt, hobject, Option.map_some, hrefuse] at hdelete
        cases hdelete
      · refine hkept ⟨?_, ⟨ask.1, hasks.accepts hdescribes hask⟩, hzero⟩
        rw [← hslot, slotOf, hdescribes.lookup_of_not_accepts hzero]
        rfl
    rw [hsame, hdescribes.dErrs_of_lt index hlt, errorPair, if_neg hat.refusalAt.1, hat.refusalAt.2]

omit hasks in
/-- An object is refused, or one is to be deleted for it: the request goes on to the end. -/
theorem refuses_or_deletes (hanswerable : server.Answerable request) {object : ObjectToDelete}
    (hobject : object ∈ request.objects) {index : Nat}
    (hindex : request.objects[index]? = some object) :
    (∃ code, server.examine object = .refuse code) ∨
      ∃ accepted, server.examine object = .delete accepted := by
  cases hdecision : server.examine object with
  | endRequest code =>
    refine absurd ?_ (hdescribes.goesOn index (List.getElem?_eq_some_iff.mp hindex).1 code)
    rw [decisionAt, hindex, Option.map_some, hdecision]
  | passOver => exact absurd hdecision (hanswerable.nonePassedOver object hobject)
  | refuse code => exact Or.inl ⟨code, rfl⟩
  | delete accepted => exact Or.inr ⟨accepted, rfl⟩

theorem answersEach_of_onePlace (hanswerable : server.Answerable request)
    (hcannot : server.CannotDelete request) (hplace : server.OnePlace request) :
    server.AnswersEach request collected asked := by
  have hbulk := (bulkErr_ne_none hdescribes hasks).mpr hcannot
  intro object hobject
  have hnotDeleted := @not_mem_deletedPairs_of_bulk server request collected asked hbulk object.pair
  refine ⟨?_, fun hmem => absurd hmem hnotDeleted, fun ⟨_, _, _, hnone, _⟩ => absurd hnone hbulk⟩
  rw [List.count_append, List.count_eq_zero_of_not_mem hnotDeleted, Nat.zero_add, errorPairs_eq]
  obtain ⟨index, hindex⟩ := List.mem_iff_getElem?.mp hobject
  rcases refuses_or_deletes hdescribes hanswerable hobject hindex with
    ⟨code, hdecision⟩ | ⟨accepted, hdecision⟩
  · have hrefuses : server.RefusesAt request.objects object.pair index :=
      ⟨object, code, hindex, rfl, hdecision⟩
    obtain ⟨place, hat, honly⟩ := hplace.refusedOnce object.pair index hrefuses
    have hiff : ∀ j < request.objects.length, _ ↔ _ := fun j hlt =>
      errorPair_of_bulk hdescribes hasks hanswerable hbulk hrefuses hlt
    exact count_eq_one_of_slot hat.1.lt_length ((hiff place hat.1.lt_length).mpr hat)
      fun j hlt hj => honly j ((hiff j hlt).mp hj)
  · have haccepts : server.Accepts request.objects accepted :=
      ⟨index, by rw [decisionAt, hindex, Option.map_some, hdecision]⟩
    obtain ⟨last, hlast, hpair⟩ := errorPair_zeroSlot hdescribes hasks hanswerable hbulk haccepts
    have heq : last.pair = object.pair :=
      (hplace.onePair last accepted hlast haccepts).trans (pair_of_delete hdecision)
    rw [heq] at hpair
    refine count_eq_one_of_slot (slotOf_lt {} hdescribes haccepts.length_pos) hpair
      fun j hlt hj => ?_
    rcases of_errorPair hdescribes hlt hj with hat | ⟨ask, hask, -, hslot, -⟩
    · exact absurd (heq ▸ hat) (not_refusesAt_of_accepts hlast j)
    · exact hslot.symm.trans (slotOf_of_bulk hbulk ask)

end OnePlace

/-! ## An index for each -/

section Separate

variable {server request} {collected : Collected} {asked : List (ObjectToDelete × Outcome)}
  (hdescribes : Describes server request.objects request.objects.length collected)
  (hasks : Asks collected asked) (hanswerable : server.Answerable request)
  (hcan : ¬ server.CannotDelete request)
  (hpools : ∀ object, server.Accepts request.objects object →
    server.inNoPool (encoded object) = false ∧ server.nameErr (encoded object) = none)

include hdescribes hasks hanswerable hcan hpools

variable {ask : ObjectToDelete × Outcome}

theorem answer_eq (hask : ask ∈ asked) :
    server.answer asked ask = (server.deletedObject ask.1 ask.2.uuid, ask.2.err) := by
  have hbulk : server.bulkErr (asked.map fun other => encoded other.1) = none :=
    Classical.not_not.mp fun hne => hcan ((bulkErr_ne_none hdescribes hasks).mp hne)
  have haccepts := hasks.accepts hdescribes hask
  obtain ⟨hpool, hname⟩ := hpools ask.1 haccepts
  rw [answer, hbulk, answerOf, hpool, if_neg Bool.false_ne_true, hname, Option.or_none,
    encoded_eq (hanswerable.noDirectory _ haccepts)]

omit hanswerable in
theorem gone_iff (hask : ask ∈ asked)
    (hone : ∀ other ∈ asked, other.1.pair = ask.1.pair → other = ask) :
    server.Gone asked ask.1.pair ↔ failure ask.2.err = none := by
  have hbulk : server.bulkErr (asked.map fun other => encoded other.1) = none :=
    Classical.not_not.mp fun hne => hcan ((bulkErr_ne_none hdescribes hasks).mp hne)
  constructor
  · rintro ⟨other, hother, heq, -, hgone⟩
    rw [hone other hother heq] at hgone
    refine hgone.resolve_left fun hnoPool => ?_
    rw [(hpools ask.1 (hasks.accepts hdescribes hask)).1] at hnoPool
    exact Bool.false_ne_true hnoPool
  · exact fun hsuccess => ⟨ask, hask, rfl, hbulk, Or.inr hsuccess⟩

variable (hone : ∀ object object', server.Accepts request.objects object →
  server.Accepts request.objects object' → object.pair = object'.pair → object = object')

include hone

theorem slotOf_of_marker (hask : ask ∈ asked) (hmarker : ask.1.deleteMarkerVersionID ≠ "") :
    slotOf collected.objectsToDelete (server.answer asked ask).1 = 0 := by
  rw [answer_eq hdescribes hasks hanswerable hcan hpools hask, slotOf_deletedObject,
    hdescribes.lookup_of_not_accepts fun hplain => hmarker ?_]
  · rfl
  · have heq := hone _ _ (hasks.accepts hdescribes hask) hplain rfl
    rw [heq]

omit hone in
theorem slotOf_of_not_marker (hask : ask ∈ asked) (hmarker : ask.1.deleteMarkerVersionID = "")
    {place : Nat} (hfirst : server.FirstAt request.objects ask.1 place) :
    slotOf collected.objectsToDelete (server.answer asked ask).1 = place := by
  have hplain : { ask.1 with deleteMarkerVersionID := "" } = ask.1 := by rw [← hmarker]
  rw [answer_eq hdescribes hasks hanswerable hcan hpools hask, slotOf_deletedObject, hplain,
    hdescribes.lookup_of_firstAt hfirst]
  rfl

end Separate

section Sufficient

variable {server request} {collected : Collected} {asked : List (ObjectToDelete × Outcome)}
  (hdescribes : Describes server request.objects request.objects.length collected)
  (hasks : Asks collected asked) (hanswerable : server.Answerable request)
  (hcan : ¬ server.CannotDelete request) (hseparate : server.Separate request)

include hdescribes hasks hanswerable hcan hseparate

theorem firstAt_slotOf {ask : ObjectToDelete × Outcome} (hask : ask ∈ asked) :
    server.FirstAt request.objects ask.1
      (slotOf collected.objectsToDelete (server.answer asked ask).1) := by
  obtain ⟨place, hfirst⟩ := (hasks.accepts hdescribes hask).exists_firstAt
  by_cases hmarker : ask.1.deleteMarkerVersionID = ""
  · rw [slotOf_of_not_marker hdescribes hasks hanswerable hcan hseparate.inPool hask hmarker
      hfirst]
    exact hfirst
  · rw [slotOf_of_marker hdescribes hasks hanswerable hcan hseparate.inPool
      hseparate.oneObject hask hmarker]
    exact ⟨hseparate.markerFirst _ hfirst.accepts hmarker, fun j hlt =>
      absurd hlt (Nat.not_lt_zero j)⟩

omit hanswerable hcan in
theorem ask_eq_of_pair {ask other : ObjectToDelete × Outcome} (hask : ask ∈ asked)
    (hother : other ∈ asked) (heq : other.1.pair = ask.1.pair) : other = ask :=
  hasks.unique hdescribes hother hask (hseparate.oneObject _ _
    (hasks.accepts hdescribes hother) (hasks.accepts hdescribes hask) heq)

theorem ask_eq_of_slot {ask other : ObjectToDelete × Outcome} (hask : ask ∈ asked)
    (hother : other ∈ asked)
    (heq : slotOf collected.objectsToDelete (server.answer asked other).1 =
      slotOf collected.objectsToDelete (server.answer asked ask).1) : other = ask := by
  have hfirst := firstAt_slotOf hdescribes hasks hanswerable hcan hseparate hask
  have hfirst' := firstAt_slotOf hdescribes hasks hanswerable hcan hseparate hother
  rw [heq] at hfirst'
  exact hasks.unique hdescribes hother hask (hfirst'.object_unique hfirst)

theorem dErrs_of_refusesAt {pair : Name × String} {index : Nat}
    (hat : server.RefusesAt request.objects pair index) :
    errorPair ((server.slots collected asked).dErrs index) = some pair := by
  have hsame : (server.slots collected asked).dErrs index = collected.dErrs index := by
    refine dErrs_of_ne fun ask hask _ hslot => ?_
    have hdelete := (firstAt_slotOf hdescribes hasks hanswerable hcan hseparate hask).1
    obtain ⟨refused, code, hobject, -, hrefuse⟩ := hat
    rw [hslot, decisionAt, hobject, Option.map_some, hrefuse] at hdelete
    cases hdelete
  rw [hsame, hdescribes.dErrs_of_lt index hat.lt_length, errorPair, if_neg hat.refusalAt.1,
    hat.refusalAt.2]

theorem dErrs_of_failed {ask : ObjectToDelete × Outcome} (hask : ask ∈ asked)
    (hfails : failure ask.2.err ≠ none) :
    errorPair ((server.slots collected asked).dErrs
      (slotOf collected.objectsToDelete (server.answer asked ask).1)) = some ask.1.pair := by
  have hanswer := answer_eq hdescribes hasks hanswerable hcan hseparate.inPool hask
  obtain ⟨last, hlast, lastErr, -, hslot, heq⟩ :=
    @dErrs_of_failure server collected asked ask hask (by rw [hanswer]; exact hfails)
  rw [heq, about_pair, ask_eq_of_slot hdescribes hasks hanswerable hcan hseparate hask hlast hslot,
    encoded_eq (hanswerable.noDirectory _ (hasks.accepts hdescribes hask))]

theorem deletedObjects_of_succeeded {ask : ObjectToDelete × Outcome} (hask : ask ∈ asked)
    (hsuccess : failure ask.2.err = none) :
    deletedPair ((server.slots collected asked).deletedObjects
      (slotOf collected.objectsToDelete (server.answer asked ask).1)) = some ask.1.pair := by
  have hanswer := answer_eq hdescribes hasks hanswerable hcan hseparate.inPool hask
  rw [deletedObjects_of_success hask (by rw [hanswer]; exact hsuccess) fun other hother _ hslot =>
    ask_eq_of_slot hdescribes hasks hanswerable hcan hseparate hask hother hslot,
    withStatuses_pair, hanswer, deletedPair]
  have hpair := @deletedObject_pair server ask.1 ask.2.uuid
  have hname : (server.deletedObject ask.1 ask.2.uuid).objectName = ask.1.objectName :=
    congrArg Prod.fst hpair
  rw [if_neg (hname ▸ hseparate.named _ (hasks.accepts hdescribes hask)), hpair]

theorem of_errorPair_of_separate {pair : Name × String} {index : Nat}
    (hlt : index < request.objects.length)
    (hpair : errorPair ((server.slots collected asked).dErrs index) = some pair) :
    server.RefusesAt request.objects pair index ∨
      ∃ ask ∈ asked, failure ask.2.err ≠ none ∧ ask.1.pair = pair ∧
        slotOf collected.objectsToDelete (server.answer asked ask).1 = index := by
  refine (of_errorPair hdescribes hlt hpair).imp_right fun ⟨ask, hask, hfails, hslot, heq⟩ => ?_
  rw [answer_eq hdescribes hasks hanswerable hcan hseparate.inPool hask] at hfails
  rw [encoded_eq (hanswerable.noDirectory _ (hasks.accepts hdescribes hask))] at heq
  exact ⟨ask, hask, hfails, heq, hslot⟩

theorem of_deletedPair_of_separate {pair : Name × String} {index : Nat}
    (hpair : deletedPair ((server.slots collected asked).deletedObjects index) = some pair) :
    ∃ ask ∈ asked, failure ask.2.err = none ∧ ask.1.pair = pair ∧
      slotOf collected.objectsToDelete (server.answer asked ask).1 = index := by
  obtain ⟨ask, hask, hsuccess, hslot, -, -, heq, -⟩ := of_deletedPair hpair
  rw [answer_eq hdescribes hasks hanswerable hcan hseparate.inPool hask] at hsuccess
  rw [encoded_eq (hanswerable.noDirectory _ (hasks.accepts hdescribes hask))] at heq
  exact ⟨ask, hask, hsuccess, heq, hslot⟩

theorem deletedPairs_of_separate {ask : ObjectToDelete × Outcome} (hask : ask ∈ asked)
    (hsuccess : failure ask.2.err = none) :
    (server.DeleteMultipleObjectsHandler request collected asked).deletedPairs =
      (List.range request.objects.length).filterMap fun index =>
        deletedPair ((server.slots collected asked).deletedObjects index) := by
  rw [deletedPairs_eq]
  refine if_neg ?_
  rintro (hlength | hquiet)
  · have hfirst := firstAt_slotOf hdescribes hasks hanswerable hcan hseparate hask
    have hfilter : (((List.range request.objects.length).map
        (server.slots collected asked).dErrs).filter fun dErr => dErr.code ≠ "").length =
          ((List.range request.objects.length).map (server.slots collected asked).dErrs).length :=
      hlength.trans (by rw [List.length_map, List.length_range])
    have hall := List.length_filter_eq_length_iff.mp hfilter _
      (List.mem_map_of_mem (List.mem_range.mpr hfirst.lt_length))
    rw [decide_eq_true_eq] at hall
    have hpair : errorPair _ = some _ := if_neg hall
    rcases of_errorPair_of_separate hdescribes hasks hanswerable hcan hseparate hfirst.lt_length
      hpair with ⟨refused, code, hobject, -, hrefuse⟩ | ⟨other, hother, hfails, -, hslot⟩
    · have hdelete := hfirst.1
      rw [decisionAt, hobject, Option.map_some, hrefuse] at hdelete
      cases hdelete
    · rw [ask_eq_of_slot hdescribes hasks hanswerable hcan hseparate hask hother hslot] at hfails
      exact hfails hsuccess
  · exact hseparate.verbose hquiet _ (hasks.accepts hdescribes hask)

theorem answersEach_of_separate : server.AnswersEach request collected asked := by
  intro object hobject
  obtain ⟨index, hindex⟩ := List.mem_iff_getElem?.mp hobject
  rw [List.count_append]
  rcases refuses_or_deletes hdescribes hanswerable hobject hindex with
    ⟨code, hdecision⟩ | ⟨accepted, hdecision⟩
  · have hat : server.RefusesAt request.objects object.pair index :=
      ⟨object, code, hindex, rfl, hdecision⟩
    have hnone : ∀ ask ∈ asked, ask.1.pair ≠ object.pair := fun ask hask heq =>
      not_refusesAt_of_accepts (hasks.accepts hdescribes hask) index (heq ▸ hat)
    have hnotDeleted : object.pair ∉
        (server.DeleteMultipleObjectsHandler request collected asked).deletedPairs := by
      intro hmem
      obtain ⟨-, j, -, hpair, -⟩ := of_mem_deletedPairs hmem
      obtain ⟨ask, hask, -, heq, -⟩ :=
        of_deletedPair_of_separate hdescribes hasks hanswerable hcan hseparate hpair
      exact hnone ask hask heq
    refine ⟨?_, fun hmem => absurd hmem hnotDeleted,
      fun hgone => ?_⟩
    swap
    · obtain ⟨ask, hask, heq, -⟩ := hgone
      exact absurd heq (hnone ask hask)
    rw [List.count_eq_zero_of_not_mem hnotDeleted, Nat.zero_add, errorPairs_eq]
    refine count_eq_one_of_slot hat.lt_length
      (dErrs_of_refusesAt hdescribes hasks hanswerable hcan hseparate hat) fun j hlt hj => ?_
    rcases of_errorPair_of_separate hdescribes hasks hanswerable hcan hseparate hlt hj with
      hother | ⟨ask, hask, -, heq, -⟩
    · exact hseparate.refusedOnce _ j index hother hat
    · exact absurd heq (hnone ask hask)
  · have haccepts : server.Accepts request.objects accepted :=
      ⟨index, by rw [decisionAt, hindex, Option.map_some, hdecision]⟩
    obtain ⟨ask, hask, rfl⟩ := hasks.exists_ask hdescribes haccepts
    rw [← pair_of_delete hdecision]
    have honly : ∀ other ∈ asked, other.1.pair = ask.1.pair → other = ask :=
      fun other hother heq => ask_eq_of_pair hdescribes hasks hseparate hask hother heq
    have hlt := slotOf_lt (server.answer asked ask).1 hdescribes haccepts.length_pos
    rw [gone_iff hdescribes hasks hcan hseparate.inPool hask honly]
    by_cases hsuccess : failure ask.2.err = none
    · have hdeleted := deletedObjects_of_succeeded hdescribes hasks hanswerable hcan hseparate
        hask hsuccess
      have hnotError : ask.1.pair ∉
          (server.DeleteMultipleObjectsHandler request collected asked).errorPairs := by
        intro hmem
        obtain ⟨j, hj, hpair, -⟩ := of_mem_errorPairs hdescribes hmem
        rcases of_errorPair_of_separate hdescribes hasks hanswerable hcan hseparate hj hpair with
          hat | ⟨other, hother, hfails, heq, -⟩
        · exact not_refusesAt_of_accepts haccepts j hat
        · exact hfails (honly other hother heq ▸ hsuccess)
      rw [List.count_eq_zero_of_not_mem hnotError, Nat.add_zero,
        deletedPairs_of_separate hdescribes hasks hanswerable hcan hseparate hask hsuccess]
      refine ⟨count_eq_one_of_slot hlt hdeleted fun j _ hj => ?_,
        fun _ => hsuccess, fun _ => mem_filterMap_range.mpr ⟨_, hlt, hdeleted⟩⟩
      obtain ⟨other, hother, -, heq, hslot⟩ :=
        of_deletedPair_of_separate hdescribes hasks hanswerable hcan hseparate hj
      rw [← hslot, honly other hother heq]
    · have hnotDeleted : ask.1.pair ∉
          (server.DeleteMultipleObjectsHandler request collected asked).deletedPairs := by
        intro hmem
        obtain ⟨-, j, -, hpair, -⟩ := of_mem_deletedPairs hmem
        obtain ⟨other, hother, hsucceeds, heq, -⟩ :=
          of_deletedPair_of_separate hdescribes hasks hanswerable hcan hseparate hpair
        exact hsuccess (honly other hother heq ▸ hsucceeds)
      refine ⟨?_, fun hmem => absurd hmem hnotDeleted, fun h => absurd h hsuccess⟩
      rw [List.count_eq_zero_of_not_mem hnotDeleted, Nat.zero_add, errorPairs_eq]
      refine count_eq_one_of_slot hlt
        (dErrs_of_failed hdescribes hasks hanswerable hcan hseparate hask hsuccess)
        fun j hj hpair => ?_
      rcases of_errorPair_of_separate hdescribes hasks hanswerable hcan hseparate hj hpair with
        hat | ⟨other, hother, -, heq, hslot⟩
      · exact absurd hat (not_refusesAt_of_accepts haccepts j)
      · rw [← hslot, honly other hother heq]

end Sufficient

end Server

end Fs3.MultiDelete
