import Mathlib.Data.List.Lookmap
import Fs3.Foundation.Slots
import Fs3.MultiDelete.Handler

/-! # What the handler collects

What becomes of an object of the request depends on its key and its version. -/

namespace Fs3.MultiDelete

namespace Server

variable (server : Server)

def decisionAt (objects : List ObjectToDelete) (index : Nat) : Option Decision :=
  objects[index]?.map server.examine

def refusal (object : ObjectToDelete) : DeleteError :=
  match server.examine object with
  | .refuse code => code.toAPIErr.about object
  | _ => {}

def refusalAt (objects : List ObjectToDelete) (index : Nat) : DeleteError :=
  (objects[index]?.map server.refusal).getD {}

def FirstAt (objects : List ObjectToDelete) (object : ObjectToDelete) (index : Nat) : Prop :=
  server.decisionAt objects index = some (.delete object) ∧
    ∀ j < index, server.decisionAt objects j ≠ some (.delete object)

def Accepts (objects : List ObjectToDelete) (object : ObjectToDelete) : Prop :=
  ∃ index, server.decisionAt objects index = some (.delete object)

def RefusesAt (objects : List ObjectToDelete) (pair : Listing.Name × String) (index : Nat) : Prop :=
  ∃ object code, objects[index]? = some object ∧ object.pair = pair ∧
    server.examine object = .refuse code

variable {server} {objects : List ObjectToDelete}

/-! ## Decisions -/

theorem checkRetention_congr {object object' : ObjectToDelete}
    (hpair : object.pair = object'.pair) :
    server.checkRetention object' = server.checkRetention object ∨
      server.checkRetention object = .delete object ∧
        server.checkRetention object' = .delete object' := by
  have hname : object.objectName = object'.objectName := congrArg Prod.fst hpair
  have hversion : object.versionID = object'.versionID := congrArg Prod.snd hpair
  unfold checkRetention
  rw [← hname, ← hversion]
  split
  next =>
    split
    next => exact Or.inl rfl
    next => exact Or.inr ⟨rfl, rfl⟩
  next => exact Or.inr ⟨rfl, rfl⟩

@[simp] theorem markPending_pair (object : ObjectToDelete) :
    (markPending object).pair = object.pair := by
  unfold markPending
  split <;> rfl

theorem examine_congr {object object' : ObjectToDelete} (hpair : object.pair = object'.pair) :
    server.examine object' = server.examine object ∨
      (∃ accepted, server.examine object = .delete accepted) ∧
        ∃ accepted, server.examine object' = .delete accepted := by
  have hpending : (markPending object).pair = (markPending object').pair := by simpa using hpair
  have hname : object.objectName = object'.objectName := congrArg Prod.fst hpair
  have hversion : object.versionID = object'.versionID := congrArg Prod.snd hpair
  unfold examine
  rw [← hname, ← hversion]
  split
  next => exact Or.inl rfl
  next =>
    split
    next => exact Or.inl rfl
    next =>
      split
      next =>
        split
        next => exact Or.inl rfl
        next => exact (checkRetention_congr hpending).imp_right fun h => ⟨⟨_, h.1⟩, _, h.2⟩
      next => exact (checkRetention_congr hpair).imp_right fun h => ⟨⟨_, h.1⟩, _, h.2⟩

theorem examine_of_pair {object object' accepted : ObjectToDelete}
    (hpair : object.pair = object'.pair) (hdelete : server.examine object = .delete accepted) :
    ∃ accepted', server.examine object' = .delete accepted' := by
  rcases @examine_congr server _ _ hpair with heq | ⟨-, hother⟩
  · exact ⟨accepted, heq.trans hdelete⟩
  · exact hother

theorem checkRetention_delete {object accepted : ObjectToDelete}
    (hdelete : server.checkRetention object = .delete accepted) : accepted = object := by
  unfold checkRetention at hdelete
  split at hdelete
  next =>
    split at hdelete
    next => cases hdelete
    next => exact (Decision.delete.inj hdelete).symm
  next => exact (Decision.delete.inj hdelete).symm

theorem pair_of_delete {object accepted : ObjectToDelete}
    (hdelete : server.examine object = .delete accepted) : accepted.pair = object.pair := by
  unfold examine at hdelete
  split at hdelete
  next => split at hdelete <;> cases hdelete
  next =>
    split at hdelete
    next => cases hdelete
    next =>
      split at hdelete
      next =>
        split at hdelete
        next => split at hdelete <;> cases hdelete
        next => rw [checkRetention_delete hdelete, markPending_pair]
      next => rw [checkRetention_delete hdelete]

theorem exists_of_decisionAt {index : Nat} {decision : Decision}
    (hat : server.decisionAt objects index = some decision) :
    ∃ object, objects[index]? = some object ∧ server.examine object = decision :=
  Option.map_eq_some_iff.mp hat

theorem Accepts.examine {object asked : ObjectToDelete} (haccepts : server.Accepts objects object)
    (hpair : object.pair = asked.pair) : ∃ accepted, server.examine asked = .delete accepted := by
  obtain ⟨place, hat⟩ := haccepts
  obtain ⟨first, -, hdelete⟩ := exists_of_decisionAt hat
  exact examine_of_pair ((pair_of_delete hdelete).symm.trans hpair) hdelete

variable {object : ObjectToDelete}

theorem not_refusesAt_of_accepts (haccepts : server.Accepts objects object) (index : Nat) :
    ¬ server.RefusesAt objects object.pair index := by
  rintro ⟨refused, code, -, hpair, hrefuse⟩
  obtain ⟨accepted, hdelete⟩ := haccepts.examine hpair.symm
  rw [hrefuse] at hdelete
  cases hdelete

theorem Accepts.exists_asked (haccepts : server.Accepts objects object) :
    ∃ asked ∈ objects, asked.pair = object.pair := by
  obtain ⟨place, hat⟩ := haccepts
  obtain ⟨asked, hasked, hdelete⟩ := exists_of_decisionAt hat
  exact ⟨asked, List.mem_of_getElem? hasked, (pair_of_delete hdelete).symm⟩

theorem Accepts.exists_firstAt (haccepts : server.Accepts objects object) :
    ∃ index, server.FirstAt objects object index := by
  obtain ⟨index, hat⟩ := haccepts
  induction index using Nat.strong_induction_on with
  | _ index ih =>
    by_cases hearlier : ∃ j < index, server.decisionAt objects j = some (.delete object)
    · obtain ⟨j, hlt, hj⟩ := hearlier
      exact ih j hlt hj
    · push Not at hearlier
      exact ⟨index, hat, hearlier⟩

theorem FirstAt.accepts {index : Nat} (hfirst : server.FirstAt objects object index) :
    server.Accepts objects object :=
  ⟨index, hfirst.1⟩

theorem FirstAt.object_unique {object object' : ObjectToDelete} {index : Nat}
    (hfirst : server.FirstAt objects object index)
    (hfirst' : server.FirstAt objects object' index) : object = object' := by
  have heq := hfirst.1.symm.trans hfirst'.1
  exact Decision.delete.inj (Option.some.inj heq)

theorem FirstAt.lt_length {index : Nat} (hfirst : server.FirstAt objects object index) :
    index < objects.length := by
  obtain ⟨asked, hasked, -⟩ := exists_of_decisionAt hfirst.1
  exact (List.getElem?_eq_some_iff.mp hasked).1

theorem refusal_of_refuse {code : APIErrorCode} (hrefuse : server.examine object = .refuse code) :
    server.refusal object = code.toAPIErr.about object := by
  rw [refusal, hrefuse]

theorem refusesAt_of_coded {index : Nat} (hcoded : (server.refusalAt objects index).code ≠ "") :
    server.RefusesAt objects
      ((server.refusalAt objects index).key, (server.refusalAt objects index).versionID) index := by
  unfold refusalAt at hcoded ⊢
  cases hobject : objects[index]? with
  | none =>
    rw [hobject] at hcoded
    exact absurd rfl hcoded
  | some object =>
    rw [hobject, Option.map_some, Option.getD_some] at hcoded
    rw [Option.map_some, Option.getD_some]
    cases hdecision : server.examine object with
    | refuse code =>
      rw [refusal_of_refuse hdecision]
      exact ⟨object, code, hobject, rfl, hdecision⟩
    | endRequest | passOver | delete => rw [refusal, hdecision] at hcoded; exact absurd rfl hcoded

theorem RefusesAt.refusalAt {pair : Listing.Name × String} {index : Nat}
    (hrefuses : server.RefusesAt objects pair index) :
    (server.refusalAt objects index).code ≠ "" ∧
      ((server.refusalAt objects index).key, (server.refusalAt objects index).versionID) =
        pair := by
  obtain ⟨object, code, hobject, hpair, hrefuse⟩ := hrefuses
  rw [Server.refusalAt, hobject, Option.map_some, Option.getD_some, refusal_of_refuse hrefuse]
  exact ⟨code.toAPIErr.coded, hpair⟩

theorem RefusesAt.lt_length {pair : Listing.Name × String} {index : Nat}
    (hrefuses : server.RefusesAt objects pair index) : index < objects.length := by
  obtain ⟨object, code, hobject, -, -⟩ := hrefuses
  exact (List.getElem?_eq_some_iff.mp hobject).1

/-! ## The loop -/

/-- What the loop has collected from the objects before an index. -/
structure Describes (server : Server) (objects : List ObjectToDelete) (index : Nat)
    (collected : Collected) : Prop where
  lookup_eq : ∀ object place, collected.objectsToDelete.lookup object = some place ↔
    place < index ∧ server.FirstAt objects object place
  nodup : (collected.objectsToDelete.map Prod.fst).Nodup
  dErrs_of_lt : ∀ place < index, collected.dErrs place = server.refusalAt objects place
  dErrs_of_le : ∀ place, index ≤ place → collected.dErrs place = {}
  goesOn : ∀ place < index, ∀ code, server.decisionAt objects place ≠ some (.endRequest code)

theorem firstAt_lt_succ {index place : Nat} :
    (place < index + 1 ∧ server.FirstAt objects object place) ↔
      (place < index ∧ server.FirstAt objects object place) ∨
        (place = index ∧ server.FirstAt objects object index) := by
  rw [Nat.lt_succ_iff_lt_or_eq, or_and_right]
  refine or_congr Iff.rfl (and_congr_right fun heq => ?_)
  rw [heq]

namespace Describes

variable {index : Nat} {collected : Collected}

theorem start : Describes server objects 0 ⟨[], fun _ => {}⟩ where
  lookup_eq := by
    intro object place
    simp
  nodup := List.nodup_nil
  dErrs_of_lt place hlt := absurd hlt (Nat.not_lt_zero place)
  dErrs_of_le _ _ := rfl
  goesOn place hlt := absurd hlt (Nat.not_lt_zero place)

section

variable (hdescribes : Describes server objects index collected)
include hdescribes

theorem lookup_eq_succ (hother : ∀ object, server.decisionAt objects index ≠ some (.delete object))
    (object : ObjectToDelete) (place : Nat) :
    collected.objectsToDelete.lookup object = some place ↔
      place < index + 1 ∧ server.FirstAt objects object place := by
  rw [hdescribes.lookup_eq, firstAt_lt_succ]
  exact ⟨Or.inl, fun hfirst => hfirst.resolve_right fun hat => hother object hat.2.1⟩

theorem goesOn_succ (hother : ∀ code, server.decisionAt objects index ≠ some (.endRequest code)) :
    ∀ place < index + 1, ∀ code, server.decisionAt objects place ≠ some (.endRequest code) := by
  intro place hlt code
  rcases Nat.lt_succ_iff_lt_or_eq.mp hlt with hlt | rfl
  · exact hdescribes.goesOn place hlt code
  · exact hother code

theorem dErrs_of_lt_succ (hsame : server.refusalAt objects index = {}) :
    ∀ place < index + 1, collected.dErrs place = server.refusalAt objects place := by
  intro place hlt
  rcases Nat.lt_succ_iff_lt_or_eq.mp hlt with hlt | rfl
  · exact hdescribes.dErrs_of_lt place hlt
  · rw [hsame, hdescribes.dErrs_of_le place (Nat.le_refl place)]

theorem refuse {code : APIErrorCode} (hobject : objects[index]? = some object)
    (hrefuse : server.examine object = .refuse code) :
    Describes server objects (index + 1) { collected with
      dErrs := Function.update collected.dErrs index (code.toAPIErr.about object) } := by
  have hat : server.decisionAt objects index = some (.refuse code) := by
    rw [decisionAt, hobject, Option.map_some, hrefuse]
  refine ⟨hdescribes.lookup_eq_succ fun accepted => ?_, hdescribes.nodup, fun place hlt => ?_,
    fun place hle => ?_, hdescribes.goesOn_succ fun code' => ?_⟩
  · rw [hat]
    intro heq
    cases heq
  · rcases Nat.lt_succ_iff_lt_or_eq.mp hlt with hlt | rfl
    · rw [← hdescribes.dErrs_of_lt place hlt]
      exact Function.update_of_ne (Nat.ne_of_lt hlt) _ _
    · rw [refusalAt, hobject, Option.map_some, Option.getD_some, refusal_of_refuse hrefuse]
      exact Function.update_self _ _ _
  · rw [← hdescribes.dErrs_of_le place (Nat.le_of_succ_le hle)]
    exact Function.update_of_ne (Nat.ne_of_gt hle) _ _
  · rw [hat]
    intro heq
    cases heq

theorem passOver (hobject : objects[index]? = some object)
    (hpass : server.examine object = .passOver) :
    Describes server objects (index + 1) collected := by
  have hat : server.decisionAt objects index = some .passOver := by
    rw [decisionAt, hobject, Option.map_some, hpass]
  refine ⟨hdescribes.lookup_eq_succ fun accepted => ?_, hdescribes.nodup,
    hdescribes.dErrs_of_lt_succ ?_, fun place hle => ?_, hdescribes.goesOn_succ fun code => ?_⟩
  · rw [hat]
    intro heq
    cases heq
  · rw [refusalAt, hobject, Option.map_some, Option.getD_some, refusal, hpass]
  · exact hdescribes.dErrs_of_le place (Nat.le_of_succ_le hle)
  · rw [hat]
    intro heq
    cases heq

theorem lookup_add {accepted : ObjectToDelete}
    (hat : server.decisionAt objects index = some (.delete accepted)) (object : ObjectToDelete)
    (place : Nat) :
    (collected.add accepted index).objectsToDelete.lookup object = some place ↔
      place < index + 1 ∧ server.FirstAt objects object place := by
  rw [firstAt_lt_succ, ← hdescribes.lookup_eq]
  unfold Collected.add
  split
  next hthere =>
    obtain ⟨earlier, hearlier⟩ := Option.isSome_iff_exists.mp hthere
    have hfirst := (hdescribes.lookup_eq accepted earlier).mp hearlier
    refine ⟨Or.inl, fun hor => hor.resolve_right ?_⟩
    rintro ⟨-, hindex⟩
    have heq := hat.symm.trans hindex.1
    exact hindex.2 earlier hfirst.1 (heq ▸ hat ▸ hfirst.2.1)
  next hnew =>
    have hnone := Option.not_isSome_iff_eq_none.mp hnew
    rw [List.lookup_append]
    by_cases heq : object = accepted
    · subst heq
      rw [hnone, Option.none_or, List.lookup_cons_self, Option.some.injEq]
      constructor
      · rintro rfl
        refine Or.inr ⟨rfl, hat, fun j hlt hj => ?_⟩
        obtain ⟨first, hfirst⟩ := Accepts.exists_firstAt ⟨j, hj⟩
        have hle : first ≤ j := Nat.not_lt.mp fun hlater => hfirst.2 j hlater hj
        rw [(hdescribes.lookup_eq object first).mpr ⟨Nat.lt_of_le_of_lt hle hlt, hfirst⟩] at hnone
        cases hnone
      · rintro (hnever | ⟨hplace, -⟩)
        · cases hnever
        · exact hplace.symm
    · rw [List.lookup_cons, beq_false_of_ne heq, List.lookup_nil, Option.or_none]
      refine ⟨Or.inl, fun hor => hor.resolve_right ?_⟩
      rintro ⟨-, hindex⟩
      exact heq (Decision.delete.inj (Option.some.inj (hindex.1.symm.trans hat)))

theorem add {object accepted : ObjectToDelete} (hobject : objects[index]? = some object)
    (hdelete : server.examine object = .delete accepted) :
    Describes server objects (index + 1) (collected.add accepted index) := by
  have hat : server.decisionAt objects index = some (.delete accepted) := by
    rw [decisionAt, hobject, Option.map_some, hdelete]
  have herrs : (collected.add accepted index).dErrs = collected.dErrs := by
    unfold Collected.add
    split <;> rfl
  refine ⟨hdescribes.lookup_add hat, ?_, ?_, fun place hle => ?_,
    hdescribes.goesOn_succ fun code => ?_⟩
  · unfold Collected.add
    split
    next => exact hdescribes.nodup
    next hnew =>
      rw [List.map_append, List.nodup_append]
      refine ⟨hdescribes.nodup, List.nodup_singleton _, fun earlier hearlier last hlast => ?_⟩
      rintro rfl
      rw [List.mem_singleton.mp hlast] at hearlier
      obtain ⟨entry, hentry, hkey⟩ := List.mem_map.mp hearlier
      refine hnew (List.lookup_isSome_iff.mpr ⟨entry, hentry, ?_⟩)
      rw [hkey]
      exact beq_self_eq_true _
  · rw [herrs]
    refine hdescribes.dErrs_of_lt_succ ?_
    rw [refusalAt, hobject, Option.map_some, Option.getD_some, refusal, hdelete]
  · rw [herrs]
    exact hdescribes.dErrs_of_le place (Nat.le_of_succ_le hle)
  · rw [hat]
    intro heq
    cases heq

end

end Describes

/-- The loop describes what it has gone through, unless it ends the request. -/
theorem describes_of_collectFrom {rest : List ObjectToDelete} {index : Nat}
    {collected final : Collected} (hrest : objects.drop index = rest)
    (hdescribes : Describes server objects index collected)
    (hfinal : server.collectFrom collected index rest = .ok final) :
    Describes server objects objects.length final := by
  induction rest generalizing index collected with
  | nil =>
    rw [collectFrom, Except.ok.injEq] at hfinal
    subst hfinal
    have hle : objects.length ≤ index := List.drop_eq_nil_iff.mp hrest
    -- Past the end there is nothing to describe.
    have hnone : ∀ place, objects.length ≤ place → objects[place]? = none := fun place hplace =>
      List.getElem?_eq_none hplace
    refine ⟨fun object place => ?_, hdescribes.nodup,
      fun place hlt => hdescribes.dErrs_of_lt place (Nat.lt_of_lt_of_le hlt hle),
      fun place hplace => ?_, fun place hlt =>
        hdescribes.goesOn place (Nat.lt_of_lt_of_le hlt hle)⟩
    · rw [hdescribes.lookup_eq]
      exact ⟨fun hfirst => ⟨hfirst.2.lt_length, hfirst.2⟩,
        fun hfirst => ⟨Nat.lt_of_lt_of_le hfirst.1 hle, hfirst.2⟩⟩
    · rcases Nat.lt_or_ge place index with hlt | hge
      · rw [hdescribes.dErrs_of_lt place hlt, refusalAt, hnone place hplace]
        rfl
      · exact hdescribes.dErrs_of_le place hge
  | cons object rest ih =>
    have hobject : objects[index]? = some object := by
      rw [← Nat.add_zero index, ← List.getElem?_drop, hrest]
      rfl
    have hnext : objects.drop (index + 1) = rest := by
      rw [← List.drop_drop, hrest, List.drop_one, List.tail_cons]
    rw [collectFrom] at hfinal
    cases hdecision : server.examine object with
    | endRequest code =>
      rw [hdecision] at hfinal
      cases hfinal
    | refuse code =>
      rw [hdecision] at hfinal
      exact ih hnext (hdescribes.refuse hobject hdecision) hfinal
    | passOver =>
      rw [hdecision] at hfinal
      exact ih hnext (hdescribes.passOver hobject hdecision) hfinal
    | delete accepted =>
      rw [hdecision] at hfinal
      exact ih hnext (hdescribes.add hobject hdecision) hfinal

theorem describes_of_collect {collected : Collected}
    (hcollect : server.collect objects = .ok collected) :
    Describes server objects objects.length collected :=
  describes_of_collectFrom (List.drop_zero) Describes.start hcollect

theorem exists_collect (hgoesOn : ∀ object ∈ objects, ∀ code,
    server.examine object ≠ .endRequest code) :
    ∃ collected, server.collect objects = .ok collected := by
  have hfrom : ∀ (rest : List ObjectToDelete) (collected : Collected) (index : Nat),
      (∀ object ∈ rest, ∀ code, server.examine object ≠ .endRequest code) →
        ∃ final, server.collectFrom collected index rest = .ok final := by
    intro rest
    induction rest with
    | nil => exact fun collected index _ => ⟨collected, rfl⟩
    | cons object rest ih =>
      intro collected index hon
      have hrest : ∀ other ∈ rest, ∀ code, server.examine other ≠ .endRequest code :=
        fun other hother => hon other (List.mem_cons_of_mem _ hother)
      rw [collectFrom]
      cases hdecision : server.examine object with
      | endRequest code => exact absurd hdecision (hon object List.mem_cons_self code)
      | refuse code => exact ih _ _ hrest
      | passOver => exact ih _ _ hrest
      | delete accepted => exact ih _ _ hrest
  exact hfrom objects _ _ hgoesOn

end Server

end Fs3.MultiDelete

/-! ## What the response lists

Every key and version that the response lists comes from an object that was refused or
from an answer of the object layer, under the name the object has on the drives.
-/

namespace Fs3.MultiDelete

open Foundation

/-- The key and version of a deleted object. An object without a name stands for none. -/
def deletedPair (dobject : DeletedObject) : Option (Listing.Name × String) :=
  if dobject.objectName = [] then none else some (dobject.objectName, dobject.versionID)

def errorPair (dErr : DeleteError) : Option (Listing.Name × String) :=
  if dErr.code = "" then none else some (dErr.key, dErr.versionID)

namespace DeleteObjectsResponse

def deletedPairs (response : DeleteObjectsResponse) : List (Listing.Name × String) :=
  response.deletedObjects.filterMap deletedPair

def errorPairs (response : DeleteObjectsResponse) : List (Listing.Name × String) :=
  response.errors.map fun dErr => (dErr.key, dErr.versionID)

end DeleteObjectsResponse

namespace Server

variable (server : Server)

def deletedPut (objectsToDelete : List (ObjectToDelete × Nat))
    (answer : ObjectToDelete × DeletedObject × Option ObjectErr) : Option (Nat × DeletedObject) :=
  match failure answer.2.2 with
  | none => some (slotOf objectsToDelete answer.2.1, server.withStatuses answer.1 answer.2.1)
  | some _ => none

def errorPut (objectsToDelete : List (ObjectToDelete × Nat))
    (answer : ObjectToDelete × DeletedObject × Option ObjectErr) : Option (Nat × DeleteError) :=
  (failure answer.2.2).map fun apiErr =>
    (slotOf objectsToDelete answer.2.1, apiErr.about (encoded answer.1))

def answer (asked : List (ObjectToDelete × Outcome)) (ask : ObjectToDelete × Outcome) :
    DeletedObject × Option ObjectErr :=
  server.answerOf (server.bulkErr (asked.map fun other => encoded other.1)) ask

theorem record_eq (objectsToDelete : List (ObjectToDelete × Nat)) (slots : Slots)
    (answers : List (ObjectToDelete × DeletedObject × Option ObjectErr)) :
    server.record objectsToDelete slots answers =
      ⟨putAll slots.deletedObjects (answers.filterMap (server.deletedPut objectsToDelete)),
        putAll slots.dErrs (answers.filterMap (errorPut objectsToDelete))⟩ := by
  induction answers generalizing slots with
  | nil => rfl
  | cons answer rest ih =>
    obtain ⟨object, dobject, err⟩ := answer
    rw [record, List.filterMap_cons, List.filterMap_cons, deletedPut, errorPut]
    cases failure err with
    | none => exact ih _
    | some apiErr => exact ih _

variable {server} {collected : Collected} {asked : List (ObjectToDelete × Outcome)}

theorem mem_deletedPuts {put : Nat × DeletedObject} :
    put ∈ (server.deleteObjects asked).filterMap (server.deletedPut collected.objectsToDelete) ↔
      ∃ ask ∈ asked, failure (server.answer asked ask).2 = none ∧
        (slotOf collected.objectsToDelete (server.answer asked ask).1,
          server.withStatuses ask.1 (server.answer asked ask).1) = put := by
  rw [deleteObjects, List.filterMap_map, List.mem_filterMap]
  refine exists_congr fun ask => and_congr_right fun _ => ?_
  change server.deletedPut _ (ask.1, server.answer asked ask) = some put ↔ _
  unfold deletedPut
  cases failure (server.answer asked ask).2 with
  | none => exact ⟨fun heq => ⟨rfl, Option.some.inj heq⟩, fun heq => congrArg some heq.2⟩
  | some apiErr => exact ⟨nofun, nofun⟩

theorem mem_errorPuts {put : Nat × DeleteError} :
    put ∈ (server.deleteObjects asked).filterMap (errorPut collected.objectsToDelete) ↔
      ∃ ask ∈ asked, ∃ apiErr, failure (server.answer asked ask).2 = some apiErr ∧
        (slotOf collected.objectsToDelete (server.answer asked ask).1,
          apiErr.about (encoded ask.1)) = put := by
  rw [deleteObjects, List.filterMap_map, List.mem_filterMap]
  refine exists_congr fun ask => and_congr_right fun _ => ?_
  change errorPut _ (ask.1, server.answer asked ask) = some put ↔ _
  rw [errorPut, Option.map_eq_some_iff]

theorem dErrs_cases (index : Nat) :
    (server.slots collected asked).dErrs index = collected.dErrs index ∨
      ∃ ask ∈ asked, ∃ apiErr, failure (server.answer asked ask).2 = some apiErr ∧
        slotOf collected.objectsToDelete (server.answer asked ask).1 = index ∧
        (server.slots collected asked).dErrs index = apiErr.about (encoded ask.1) := by
  rw [slots, record_eq]
  refine (putAll_cases collected.dErrs _ index).imp_right fun hput => ?_
  obtain ⟨ask, hask, apiErr, hfailure, heq⟩ := mem_errorPuts.mp hput
  exact ⟨ask, hask, apiErr, hfailure, congrArg Prod.fst heq, (congrArg Prod.snd heq).symm⟩

theorem dErrs_of_ne {index : Nat} (hne : ∀ ask ∈ asked,
    failure (server.answer asked ask).2 ≠ none →
      slotOf collected.objectsToDelete (server.answer asked ask).1 ≠ index) :
    (server.slots collected asked).dErrs index = collected.dErrs index := by
  rw [slots, record_eq]
  refine putAll_of_ne fun put hput => ?_
  obtain ⟨ask, hask, apiErr, hfailure, rfl⟩ := mem_errorPuts.mp hput
  refine hne ask hask ?_
  rw [hfailure]
  exact Option.some_ne_none apiErr

theorem dErrs_of_failure {ask : ObjectToDelete × Outcome} (hask : ask ∈ asked)
    (hfails : failure (server.answer asked ask).2 ≠ none) :
    ∃ last ∈ asked, ∃ apiErr, failure (server.answer asked last).2 = some apiErr ∧
      slotOf collected.objectsToDelete (server.answer asked last).1 =
        slotOf collected.objectsToDelete (server.answer asked ask).1 ∧
      (server.slots collected asked).dErrs
        (slotOf collected.objectsToDelete (server.answer asked ask).1) =
          apiErr.about (encoded last.1) := by
  obtain ⟨apiErr, hfailure⟩ := Option.ne_none_iff_exists'.mp hfails
  rw [slots, record_eq]
  have hput : (slotOf collected.objectsToDelete (server.answer asked ask).1,
      apiErr.about (encoded ask.1)) ∈
        (server.deleteObjects asked).filterMap (errorPut collected.objectsToDelete) :=
    mem_errorPuts.mpr ⟨ask, hask, apiErr, hfailure, rfl⟩
  obtain ⟨last, hlast, lastErr, hlastFails, heq⟩ :=
    mem_errorPuts.mp (@mem_of_putAll _ collected.dErrs _ _ ⟨_, hput, rfl⟩)
  exact ⟨last, hlast, lastErr, hlastFails, congrArg Prod.fst heq, (congrArg Prod.snd heq).symm⟩

theorem deletedObjects_cases (index : Nat) :
    (server.slots collected asked).deletedObjects index = {} ∨
      ∃ ask ∈ asked, failure (server.answer asked ask).2 = none ∧
        slotOf collected.objectsToDelete (server.answer asked ask).1 = index ∧
        (server.slots collected asked).deletedObjects index =
          server.withStatuses ask.1 (server.answer asked ask).1 := by
  rw [slots, record_eq]
  refine (putAll_cases _ _ index).imp_right fun hput => ?_
  obtain ⟨ask, hask, hsuccess, heq⟩ := mem_deletedPuts.mp hput
  exact ⟨ask, hask, hsuccess, congrArg Prod.fst heq, (congrArg Prod.snd heq).symm⟩

theorem deletedObjects_of_success {ask : ObjectToDelete × Outcome} (hask : ask ∈ asked)
    (hsuccess : failure (server.answer asked ask).2 = none)
    (honly : ∀ other ∈ asked, failure (server.answer asked other).2 = none →
      slotOf collected.objectsToDelete (server.answer asked other).1 =
        slotOf collected.objectsToDelete (server.answer asked ask).1 → other = ask) :
    (server.slots collected asked).deletedObjects
        (slotOf collected.objectsToDelete (server.answer asked ask).1) =
      server.withStatuses ask.1 (server.answer asked ask).1 := by
  rw [slots, record_eq]
  refine putAll_of_forall (mem_deletedPuts.mpr ⟨ask, hask, hsuccess, rfl⟩) fun put hput heq => ?_
  obtain ⟨other, hother, hother', rfl⟩ := mem_deletedPuts.mp hput
  rw [honly other hother hother' heq]

section Lists

variable {request : DeleteObjectsRequest}

theorem errorPairs_eq :
    (server.DeleteMultipleObjectsHandler request collected asked).errorPairs =
      (List.range request.objects.length).filterMap fun index =>
        errorPair ((server.slots collected asked).dErrs index) := by
  change ((((List.range request.objects.length).map (server.slots collected asked).dErrs).filter
    fun dErr => dErr.code ≠ "").map fun dErr => (dErr.key, dErr.versionID)) = _
  rw [List.filter_map, List.map_map, ← List.filterMap_eq_map, List.filterMap_filter]
  refine List.filterMap_congr fun index _ => ?_
  unfold errorPair
  by_cases hcode : ((server.slots collected asked).dErrs index).code = ""
  · simp [hcode]
  · simp [hcode]

theorem deletedPairs_eq :
    (server.DeleteMultipleObjectsHandler request collected asked).deletedPairs =
      if (server.DeleteMultipleObjectsHandler request collected asked).errors.length =
          request.objects.length ∨ request.quiet = true then []
      else (List.range request.objects.length).filterMap fun index =>
        deletedPair ((server.slots collected asked).deletedObjects index) := by
  unfold DeleteMultipleObjectsHandler generateMultiDeleteResponse DeleteObjectsResponse.deletedPairs
  simp only [List.length_map, List.length_range, Bool.or_eq_true, decide_eq_true_eq]
  split
  next => rfl
  next => rw [List.filterMap_map]; rfl

end Lists

/-! ## Where a listed pair comes from -/

theorem about_pair (apiErr : APIError) (object : ObjectToDelete) :
    errorPair (apiErr.about object) = some object.pair := by
  rw [errorPair, if_neg (show (apiErr.about object).code ≠ "" from apiErr.coded)]
  rfl

theorem deletedObject_pair (object : ObjectToDelete) (uuid : String) :
    ((server.deletedObject object uuid).objectName, (server.deletedObject object uuid).versionID) =
      object.pair := by
  unfold deletedObject
  split
  next hmarker =>
    rw [Bool.and_eq_true, decide_eq_true_eq] at hmarker
    rw [ObjectToDelete.pair, hmarker.1]
  next => rfl

theorem withStatuses_pair (object : ObjectToDelete) (dobject : DeletedObject) :
    deletedPair (server.withStatuses object dobject) = deletedPair dobject := by
  unfold withStatuses
  split <;> rfl

theorem slotOf_deletedObject (objectsToDelete : List (ObjectToDelete × Nat))
    (object : ObjectToDelete) (uuid : String) :
    slotOf objectsToDelete (server.deletedObject object uuid) =
      (objectsToDelete.lookup { object with deleteMarkerVersionID := "" }).getD 0 := by
  unfold slotOf deletedObject
  split
  next hmarker =>
    rw [Bool.and_eq_true, decide_eq_true_eq] at hmarker
    simp only [hmarker.1]
  next => rfl

variable {pair : Listing.Name × String}

theorem of_errorPair {objects : List ObjectToDelete} {index : Nat}
    (hdescribes : Describes server objects objects.length collected) (hlt : index < objects.length)
    (hpair : errorPair ((server.slots collected asked).dErrs index) = some pair) :
    server.RefusesAt objects pair index ∨
      ∃ ask ∈ asked, failure (server.answer asked ask).2 ≠ none ∧
        slotOf collected.objectsToDelete (server.answer asked ask).1 = index ∧
        (encoded ask.1).pair = pair := by
  rcases @dErrs_cases server collected asked index
    with heq | ⟨ask, hask, apiErr, hfailure, hslot, heq⟩
  · rw [heq, hdescribes.dErrs_of_lt index hlt] at hpair
    unfold errorPair at hpair
    split at hpair
    next => cases hpair
    next hcoded => exact Or.inl (Option.some.inj hpair ▸ refusesAt_of_coded hcoded)
  · rw [heq, about_pair, Option.some.injEq] at hpair
    refine Or.inr ⟨ask, hask, ?_, hslot, hpair⟩
    rw [hfailure]
    exact Option.some_ne_none apiErr

theorem of_deletedPair {index : Nat}
    (hpair : deletedPair ((server.slots collected asked).deletedObjects index) = some pair) :
    ∃ ask ∈ asked, failure (server.answer asked ask).2 = none ∧
      slotOf collected.objectsToDelete (server.answer asked ask).1 = index ∧
      server.bulkErr (asked.map fun other => encoded other.1) = none ∧
      server.inNoPool (encoded ask.1) = false ∧ (encoded ask.1).pair = pair ∧ pair.1 ≠ [] := by
  rcases @deletedObjects_cases server collected asked index
    with heq | ⟨ask, hask, hsuccess, hslot, heq⟩
  · rw [heq] at hpair
    cases hpair
  · rw [heq, withStatuses_pair] at hpair
    refine ⟨ask, hask, hsuccess, hslot, ?_⟩
    unfold answer answerOf at hpair
    split at hpair
    next => cases hpair
    next hbulk =>
      split at hpair
      next => cases hpair
      next hpool =>
        unfold deletedPair at hpair
        split at hpair
        next => cases hpair
        next hnamed =>
          rw [Option.some.injEq, deletedObject_pair] at hpair
          subst hpair
          refine ⟨hbulk, Bool.eq_false_iff.mpr hpool, rfl, fun hempty => hnamed ?_⟩
          rw [← hempty]
          exact congrArg Prod.fst (deletedObject_pair (encoded ask.1) ask.2.uuid)

section Lists

variable {request : DeleteObjectsRequest}

theorem of_mem_errorPairs
    (hdescribes : Describes server request.objects request.objects.length collected)
    (hmem : pair ∈ (server.DeleteMultipleObjectsHandler request collected asked).errorPairs) :
    ∃ index < request.objects.length,
      errorPair ((server.slots collected asked).dErrs index) = some pair ∧
      (server.RefusesAt request.objects pair index ∨
        ∃ ask ∈ asked, failure (server.answer asked ask).2 ≠ none ∧
          slotOf collected.objectsToDelete (server.answer asked ask).1 = index ∧
          (encoded ask.1).pair = pair) := by
  rw [errorPairs_eq, mem_filterMap_range] at hmem
  obtain ⟨index, hlt, hpair⟩ := hmem
  exact ⟨index, hlt, hpair, of_errorPair hdescribes hlt hpair⟩

theorem of_mem_deletedPairs
    (hmem : pair ∈ (server.DeleteMultipleObjectsHandler request collected asked).deletedPairs) :
    request.quiet ≠ true ∧ ∃ index < request.objects.length,
      deletedPair ((server.slots collected asked).deletedObjects index) = some pair ∧
      ∃ ask ∈ asked, failure (server.answer asked ask).2 = none ∧
        slotOf collected.objectsToDelete (server.answer asked ask).1 = index ∧
        server.bulkErr (asked.map fun other => encoded other.1) = none ∧
        server.inNoPool (encoded ask.1) = false ∧ (encoded ask.1).pair = pair ∧ pair.1 ≠ [] := by
  rw [deletedPairs_eq] at hmem
  split at hmem
  next => cases hmem
  next hlists =>
    obtain ⟨index, hlt, hpair⟩ := mem_filterMap_range.mp hmem
    exact ⟨fun hquiet => hlists (Or.inr hquiet), index, hlt, hpair, of_deletedPair hpair⟩

end Lists

end Server

end Fs3.MultiDelete
