import Fs3.Listing.StreamReader

/-! # A reader as a cursor

A reader is before the entries that are left of its stream, or has one of them in hand, or has come
to the end. -/

namespace Fs3.Listing

open Foundation

/-- An entry that a stream can hold: it has a name, and the message pack library has a
header for its lengths. -/
structure StreamEntry.Written (e : StreamEntry) : Prop where
  named : e.name ≠ []
  name_lt : e.name.length < 2 ^ 32
  metadata_lt : e.metadata.length < 2 ^ 32

instance (e : StreamEntry) : Decidable e.Written :=
  decidable_of_iff (e.name ≠ [] ∧ e.name.length < 2 ^ 32 ∧ e.metadata.length < 2 ^ 32)
    ⟨fun h => ⟨h.1, h.2.1, h.2.2⟩, fun h => ⟨h.1, h.2, h.3⟩⟩

def encode (l : List StreamEntry) : List UInt8 := l.flatMap encodeEntry ++ Msgp.appendBool false

theorem encode_cons (e : StreamEntry) (l : List StreamEntry) :
    encode (e :: l) = Msgp.appendBool true ++ (Msgp.appendStringFromBytes e.name ++
      (Msgp.appendBytes e.metadata ++ encode l)) := by
  rw [encode, List.flatMap_cons, encodeEntry, encode]
  simp only [List.append_assoc]

theorem length_lt_encode (l : List StreamEntry) : l.length < (encode l).length := by
  induction l with
  | nil => decide
  | cons e l ih =>
    rw [encode_cons, List.length_append, List.length_append, List.length_append,
      List.length_cons]
    have hone : (Msgp.appendBool true).length = 1 := rfl
    omega

variable {e : StreamEntry} {l : List StreamEntry}

theorem pullName_cons (he : e.Written) :
    pullName (encode (e :: l)) = .name e.name (Msgp.appendBytes e.metadata ++ encode l) := by
  rw [encode_cons, pullName, Msgp.readBool_append]
  dsimp only
  rw [Msgp.readString_append he.name_lt]

theorem readBytes_metadata (he : e.Written) :
    Msgp.readBytes (Msgp.appendBytes e.metadata ++ encode l) = .ok (e.metadata, encode l) :=
  Msgp.readBytes_append he.metadata_lt _

theorem skip_metadata (he : e.Written) :
    Msgp.skip (Msgp.appendBytes e.metadata ++ encode l) = .ok (encode l) :=
  Msgp.skip_appendBytes he.metadata_lt _

theorem writeLoop_eq {objs : List StreamEntry} (hobjs : ∀ e ∈ objs, e.Written) (out : List UInt8) :
    StreamWriter.writeLoop out objs = (out ++ objs.flatMap encodeEntry, false) := by
  induction objs generalizing out with
  | nil => rw [StreamWriter.writeLoop, List.flatMap_nil, List.append_nil]
  | cons o objs ih =>
    obtain ⟨ho, hrest⟩ := List.forall_mem_cons.mp hobjs
    rw [StreamWriter.writeLoop, if_neg ho.named, ih hrest, List.flatMap_cons, List.append_assoc]

theorem onWriter_eq {call : WriterCall} (hcall : ∀ e ∈ call.entries, e.Written)
    (w : StreamWriter) :
    call.onWriter w = if call.creates then ⟨some (w.create ++ call.entries.flatMap encodeEntry)⟩
      else w := by
  cases call with
  | write objs =>
    rw [WriterCall.onWriter, StreamWriter.write, WriterCall.creates, WriterCall.entries]
    cases objs with
    | nil => rfl
    | cons o objs =>
      have hobjs : ∀ e ∈ o :: objs, e.Written := hcall
      rw [if_neg (List.cons_ne_nil _ _), writeLoop_eq hobjs]
      rfl
  | stream objs =>
    have hnamed : objs.filter (fun o => decide (o.name ≠ [])) = objs :=
      List.filter_eq_self.mpr fun o ho => decide_eq_true (hcall o ho).named
    rw [WriterCall.onWriter, StreamWriter.stream, hnamed]
    rfl

theorem entries_of_not_creates {call : WriterCall} (hcreates : call.creates = false) :
    call.entries = [] := by
  cases call with
  | write objs =>
    rw [WriterCall.creates, Bool.not_eq_false'] at hcreates
    exact List.isEmpty_iff.mp hcreates
  | stream objs => cases hcreates

variable {writes : List WriterCall}

theorem foldl_onWriter (hwrites : ∀ e ∈ writes.flatMap WriterCall.entries, e.Written)
    (w : StreamWriter) :
    writes.foldl WriterCall.onWriter w = if writes.any WriterCall.creates
      then ⟨some (w.create ++ (writes.flatMap WriterCall.entries).flatMap encodeEntry)⟩
      else w := by
  induction writes generalizing w with
  | nil => rfl
  | cons call writes ih =>
    rw [List.flatMap_cons] at hwrites
    obtain ⟨hcall, hrest⟩ := List.forall_mem_append.mp hwrites
    rw [List.foldl_cons, ih hrest, onWriter_eq hcall, List.any_cons, List.flatMap_cons,
      List.flatMap_append]
    cases hcreates : call.creates with
    | false => rw [entries_of_not_creates hcreates]; rfl
    | true =>
      cases hany : writes.any WriterCall.creates with
      | true =>
        simp only [if_true, Bool.true_or, StreamWriter.create, Option.getD_some,
          List.append_assoc]
      | false =>
        have hnone : writes.flatMap WriterCall.entries = [] := by
          refine List.flatMap_eq_nil_iff.mpr fun later hlater => ?_
          exact entries_of_not_creates (by simpa using List.any_eq_false.mp hany later hlater)
        simp only [hnone, List.flatMap_nil, List.append_nil, if_true, Bool.true_or,
          Bool.false_eq_true, if_false]

theorem writtenBytes_eq (hwrites : ∀ e ∈ writes.flatMap WriterCall.entries, e.Written) :
    writtenBytes writes = if writes.any WriterCall.creates
      then metacacheStreamVersion :: encode (writes.flatMap WriterCall.entries) else [] := by
  rw [writtenBytes, foldl_onWriter hwrites]
  split
  · rfl
  · rfl

/-! ## Where a reader is -/

/-- A reader before the entries that are left, or with the first of them in hand, or at
the end. -/
inductive Open : StreamReader → Cursor StreamEntry → Prop
  | before {l : List StreamEntry} (hl : ∀ e ∈ l, e.Written) :
      Open ⟨.none, none, true, encode l⟩ (.before l)
  | inHand {e : StreamEntry} {l : List StreamEntry} (he : e.Written) (hl : ∀ e ∈ l, e.Written) :
      Open ⟨e, none, true, encode l⟩ (.before (e :: l))
  | ended {r : StreamReader} (herr : r.err = some .eof) : Open r .ended

/-- A call of a reader and the same call of a cursor return the same, and come to the
same place. -/
def Agrees (read : Returned × StreamReader) (said : Returned × Cursor StreamEntry) : Prop :=
  read.1 = said.1 ∧ Open read.2 said.2

/-- A reader that is not at an error, wherever it is on its stream. -/
structure Adrift (r : StreamReader) : Prop where
  err : r.err = none
  created : r.created = true

/-- They return the same, and come to the same place unless the reader loses it. -/
def AgreesUnless (lost : Prop) (read : Returned × StreamReader)
    (said : Returned × Cursor StreamEntry) : Prop :=
  read.1 = said.1 ∧ (¬ lost → Open read.2 said.2) ∧ (lost → Adrift read.2)

theorem Agrees.unless {lost : Prop} {read : Returned × StreamReader}
    {said : Returned × Cursor StreamEntry} (hagrees : Agrees read said) (hnot : ¬ lost) :
    AgreesUnless lost read said :=
  ⟨hagrees.1, fun _ => hagrees.2, fun hlost => absurd hlost hnot⟩

theorem checkInit_of_err {r : StreamReader} (herr : r.err ≠ none) : r.checkInit = r := by
  rw [StreamReader.checkInit, if_pos (Or.inr herr)]

theorem checkInit_of_created {r : StreamReader} (hcreated : r.created = true) :
    r.checkInit = r := by
  rw [StreamReader.checkInit, if_pos (Or.inl hcreated)]

theorem Open.checkInit {r : StreamReader} {c : Cursor StreamEntry} (hopen : Open r c) :
    r.checkInit = r := by
  cases hopen with
  | before => exact checkInit_of_created rfl
  | inHand => exact checkInit_of_created rfl
  | ended herr => exact checkInit_of_err (by rw [herr]; exact Option.some_ne_none _)

theorem checked_ended {r : StreamReader} (herr : r.err = some .eof)
    (body : StreamReader → Returned × StreamReader) :
    r.checked body = ({ err := some .eof }, r) := by
  rw [StreamReader.checked, (Open.ended herr).checkInit, herr]

theorem checked_created (body : StreamReader → Returned × StreamReader) (e : StreamEntry)
    (rest : List UInt8) :
    (StreamReader.mk e none true rest).checked body = body ⟨e, none, true, rest⟩ := by
  rw [StreamReader.checked, checkInit_of_created rfl]

theorem Open.checked {r : StreamReader} {l : List StreamEntry} (hopen : Open r (.before l))
    (body : StreamReader → Returned × StreamReader) : r.checked body = body r := by
  generalize hc : Cursor.before l = c at hopen
  cases hopen with
  | ended => cases hc
  | inHand => exact checked_created _ _ _
  | before => exact checked_created _ _ _

section Calls

variable {r : StreamReader} {c : Cursor StreamEntry}

theorem peek_cons {e : StreamEntry} {l : List StreamEntry} (hopen : Open r (.before (e :: l))) :
    r.peek = ({ entries := [e] }, ⟨e, none, true, encode l⟩) ∧ e.Written ∧
      ∀ e ∈ l, e.Written := by
  generalize hc : Cursor.before (e :: l) = c at hopen
  cases hopen with
  | ended => cases hc
  | inHand he hl =>
    cases hc
    rw [StreamReader.peek, checked_created, if_pos he.named]
    exact ⟨rfl, he, hl⟩
  | before hl =>
    cases hc
    obtain ⟨he, hrest⟩ := List.forall_mem_cons.mp hl
    rw [StreamReader.peek, checked_created, if_neg (fun hne => hne rfl)]
    dsimp only
    rw [pullName_cons he]
    dsimp only
    rw [readBytes_metadata he]
    exact ⟨rfl, he, hrest⟩

theorem agrees_peek (hopen : Open r c) : Agrees r.peek (ReaderCall.shown c.peek) := by
  match c, hopen with
  | .ended, .ended herr =>
    rw [StreamReader.peek, checked_ended herr]
    exact ⟨rfl, .ended herr⟩
  | .before [], .before _ => exact ⟨rfl, .ended rfl⟩
  | .before (e :: l), hopen =>
    obtain ⟨hpeek, he, hl⟩ := peek_cons hopen
    rw [hpeek]
    exact ⟨rfl, .inHand he hl⟩

theorem agrees_next (hopen : Open r c) : Agrees r.next (ReaderCall.shown c.next) := by
  cases hopen with
  | ended herr =>
    rw [StreamReader.next, checked_ended herr]
    exact ⟨rfl, .ended herr⟩
  | @inHand e l he hl =>
    rw [StreamReader.next, checked_created, if_pos he.named]
    exact ⟨rfl, .before hl⟩
  | @before l hl =>
    rw [StreamReader.next, checked_created, if_neg (fun hne => hne rfl)]
    cases l with
    | nil => exact ⟨rfl, .ended rfl⟩
    | cons e l =>
      obtain ⟨he, hrest⟩ := List.forall_mem_cons.mp hl
      dsimp only
      rw [pullName_cons he]
      dsimp only
      rw [readBytes_metadata he]
      exact ⟨rfl, .before hrest⟩

theorem agrees_nextEOF [ObjectMetadata (List UInt8)] (hopen : Open r c) :
    Agrees r.nextEOF (ReaderCall.onList c .nextEOF) := by
  have hpeek := agrees_peek hopen
  rw [StreamReader.nextEOF, hopen.checkInit, ReaderCall.onList]
  cases hopen with
  | ended herr =>
    rw [herr]
    exact ⟨rfl, .ended herr⟩
  | @inHand e l he hl =>
    dsimp only
    rw [if_pos he.named]
    exact ⟨rfl, .inHand he hl⟩
  | @before l hl =>
    dsimp only
    rw [if_neg (fun hne => hne rfl)]
    generalize (StreamReader.mk .none none true (encode l)).peek = peeked at hpeek
    obtain ⟨returned, r⟩ := peeked
    obtain ⟨rfl, hplace⟩ := hpeek
    cases l with
    | nil => exact ⟨rfl, .ended rfl⟩
    | cons e l => exact ⟨rfl, hplace⟩

/-! ## Passing over entries -/

theorem agrees_skipLoop {l : List StreamEntry} (hl : ∀ e ∈ l, e.Written) (n : Nat) :
    Agrees (StreamReader.skipLoop n ⟨.none, none, true, encode l⟩)
      (ReaderCall.told ((Cursor.before l).skip n)) := by
  induction n generalizing l with
  | zero =>
    rw [StreamReader.skipLoop, Cursor.skip_zero]
    exact ⟨rfl, .before hl⟩
  | succ n ih =>
    rw [StreamReader.skipLoop]
    cases l with
    | nil => exact ⟨rfl, .ended rfl⟩
    | cons e l =>
      obtain ⟨he, hrest⟩ := List.forall_mem_cons.mp hl
      rw [Cursor.skip_succ]
      dsimp only
      rw [encode_cons, Msgp.readBool_append]
      dsimp only
      rw [Msgp.skip_appendStringFromBytes he.name_lt]
      dsimp only
      rw [skip_metadata he]
      exact ih hrest

theorem agrees_skip (hopen : Open r c) (n : Int) :
    Agrees (r.skip n) (ReaderCall.told (c.skip n.toNat)) := by
  cases hopen with
  | ended herr =>
    rw [StreamReader.skip, checked_ended herr]
    exact ⟨rfl, .ended herr⟩
  | @inHand e l he hl =>
    rw [StreamReader.skip, checked_created]
    split
    next hle =>
      rw [Int.toNat_of_nonpos hle, Cursor.skip_zero]
      exact ⟨rfl, .inHand he hl⟩
    next hpos =>
      obtain ⟨m, hm⟩ : ∃ m, n.toNat = m + 1 := ⟨n.toNat - 1, by omega⟩
      rw [if_pos he.named, hm, Nat.add_sub_cancel, Cursor.skip_succ]
      exact agrees_skipLoop hl m
  | @before l hl =>
    rw [StreamReader.skip, checked_created]
    split
    next hle =>
      rw [Int.toNat_of_nonpos hle, Cursor.skip_zero]
      exact ⟨rfl, .before hl⟩
    next hpos =>
      rw [if_neg (fun hne => hne rfl)]
      exact agrees_skipLoop hl n.toNat

theorem early_of_lt {s : List UInt8} {e : StreamEntry} (hlt : e.name < s) :
    ReaderCall.early s e = true := decide_eq_true hlt

theorem not_early_of_not_lt {s : List UInt8} {e : StreamEntry} (hnot : ¬ e.name < s) :
    ¬ ReaderCall.early s e = true := fun hearly => hnot (of_decide_eq_true hearly)

/-- A loop over entries that can be written ends within its fuel. -/
inductive Fueled : List StreamEntry → Nat → Prop
  | nil (fuel : Nat) : Fueled [] (fuel + 1)
  | cons {e : StreamEntry} {l : List StreamEntry} {fuel : Nat} (he : e.Written)
      (hl : ∀ e ∈ l, e.Written) (hrest : Fueled l fuel) : Fueled (e :: l) (fuel + 1)

theorem fueled {l : List StreamEntry} {fuel : Nat} (hl : ∀ e ∈ l, e.Written)
    (hfuel : l.length < fuel) : Fueled l fuel := by
  induction l generalizing fuel with
  | nil =>
    obtain ⟨fuel, rfl⟩ := Nat.exists_eq_add_of_lt hfuel
    exact .nil _
  | cons e l ih =>
    obtain ⟨he, hrest⟩ := List.forall_mem_cons.mp hl
    cases fuel with
    | zero => cases hfuel
    | succ fuel => exact .cons he hrest (ih hrest (Nat.lt_of_succ_lt_succ hfuel))

theorem fueled_encode {l : List StreamEntry} (hl : ∀ e ∈ l, e.Written) :
    Fueled l ((encode l).length + 1) :=
  fueled hl ((length_lt_encode l).trans (Nat.lt_succ_self _))

variable {fuel : Nat} {l : List StreamEntry} (hfueled : Fueled l fuel)
include hfueled

theorem agrees_forwardLoop (s : List UInt8) :
    Agrees (StreamReader.forwardLoop s fuel ⟨.none, none, true, encode l⟩)
      (ReaderCall.told ((Cursor.before l).seek (ReaderCall.early s))) := by
  induction hfueled with
  | nil => exact ⟨rfl, .ended rfl⟩
  | cons he hl _ ih =>
    rw [StreamReader.forwardLoop]
    dsimp only
    rw [pullName_cons he]
    dsimp only
    split
    next hlt =>
      rw [skip_metadata he, Cursor.seek_of_early (early_of_lt hlt)]
      exact ih
    next hnot =>
      rw [readBytes_metadata he, Cursor.seek_of_not_early (not_early_of_not_lt hnot)]
      exact ⟨rfl, .inHand he hl⟩

omit hfueled

theorem agrees_forwardTo (hopen : Open r c) (s : List UInt8) :
    Agrees (r.forwardTo s) (ReaderCall.told (ReaderCall.toPrefix s c)) := by
  rw [StreamReader.forwardTo, ReaderCall.toPrefix]
  cases hopen with
  | ended herr =>
    rw [checked_ended herr]
    split
    · exact ⟨rfl, .ended herr⟩
    · exact ⟨rfl, .ended herr⟩
  | @inHand e l he hl =>
    rw [checked_created]
    split
    next =>
      rw [Cursor.skip_zero]
      exact ⟨rfl, .inHand he hl⟩
    next =>
      split
      next hthere =>
        rw [Cursor.seek_of_not_early (not_early_of_not_lt hthere.2)]
        exact ⟨rfl, .inHand he hl⟩
      next hearly =>
        have hlt : e.name < s := by
          by_contra hnot
          exact hearly ⟨he.named, hnot⟩
        rw [Cursor.seek_of_early (early_of_lt hlt)]
        exact agrees_forwardLoop (fueled_encode hl) s
  | @before l hl =>
    rw [checked_created]
    split
    next =>
      rw [Cursor.skip_zero]
      exact ⟨rfl, .before hl⟩
    next =>
      rw [if_neg (fun hthere => hthere.1 rfl)]
      exact agrees_forwardLoop (fueled_encode hl) s

/-! ## Collecting entries -/

def limitAfter (n : Int) (count : Nat) : Option Nat := (ReaderCall.limit n).map (· - count)

theorem limitAfter_iff {n : Int} {count : Nat} :
    limitAfter n count = some 0 ↔ ¬ (n < 0 ∨ count < n) := by
  rw [limitAfter, ReaderCall.limit]
  split
  next hneg => exact iff_of_false (by simp) (by simp [hneg])
  next hnonneg =>
    rw [Option.map_some, Option.some_inj]
    omega

theorem limitAfter_succ (n : Int) (count : Nat) :
    (limitAfter n count).map (· - 1) = limitAfter n (count + 1) := by
  rw [limitAfter, limitAfter, Option.map_map]
  rfl

theorem limitAfter_zero (n : Int) : limitAfter n 0 = ReaderCall.limit n := by
  rw [limitAfter]
  cases ReaderCall.limit n with
  | none => rfl
  | some limit => rfl

section Full

variable {n : Int} {res : List α} {within keep : StreamEntry → Bool}

theorem take_of_no_room (hfull : ¬ (n < 0 ∨ res.length < n)) (l : List StreamEntry) :
    (Cursor.before l).take within keep (limitAfter n res.length) = ([], .full, .before l) :=
  Cursor.take_full (limitAfter_iff.mpr hfull) l

theorem limit_of_room (hroom : n < 0 ∨ res.length < n) : limitAfter n res.length ≠ some 0 :=
  mt limitAfter_iff.mp (not_not.mpr hroom)

theorem limitAfter_concat (a : α) :
    limitAfter n (res ++ [a]).length = (limitAfter n res.length).map (· - 1) := by
  rw [List.length_append, List.length_singleton, limitAfter_succ]

end Full

/-- The loop of `readNames` collects the names of all entries. -/
theorem agrees_readNamesLoop (hfueled : Fueled l fuel) (n : Int) (res : List (List UInt8)) :
    let taken := (Cursor.before l).take (fun _ => true) (fun _ => true) (limitAfter n res.length)
    Agrees (StreamReader.readNamesLoop n fuel res ⟨.none, none, true, encode l⟩)
      ({ names := res ++ taken.1.map StreamEntry.name, err := ReaderCall.stopErr taken.2.1 },
        taken.2.2) := by
  induction hfueled generalizing res with
  | nil =>
    rw [StreamReader.readNamesLoop]
    split
    next hroom =>
      simp only [Cursor.take_nil (limit_of_room hroom), List.map_nil, List.append_nil]
      exact ⟨rfl, .ended rfl⟩
    next hfull =>
      simp only [take_of_no_room hfull, List.map_nil, List.append_nil]
      exact ⟨rfl, .before nofun⟩
  | @cons e l fuel he hl _ ih =>
    rw [StreamReader.readNamesLoop]
    split
    next hroom =>
      have hnext := ih (res ++ [e.name])
      dsimp only at hnext ⊢
      rw [limitAfter_concat, List.append_assoc, List.singleton_append] at hnext
      rw [pullName_cons he, Cursor.take_of_keep (limit_of_room hroom) rfl rfl]
      dsimp only
      rw [skip_metadata he]
      exact hnext
    next hfull =>
      simp only [take_of_no_room hfull, List.map_nil, List.append_nil]
      exact ⟨rfl, .before (List.forall_mem_cons.mpr ⟨he, hl⟩)⟩

theorem agrees_readNames [ObjectMetadata (List UInt8)] (hopen : Open r c) (n : Int) :
    Agrees (r.readNames n) (ReaderCall.onList c (.readNames n)) := by
  rw [StreamReader.readNames, ReaderCall.onList]
  cases hopen with
  | ended herr =>
    rw [checked_ended herr]
    exact ⟨rfl, .ended herr⟩
  | @inHand e l he hl =>
    rw [checked_created]
    split
    next hzero =>
      subst hzero
      rw [Cursor.take_full (show ReaderCall.limit 0 = some 0 from rfl)]
      exact ⟨rfl, .inHand he hl⟩
    next hne =>
      have hlimit : ReaderCall.limit n ≠ some 0 := by
        rw [← limitAfter_zero, Ne, limitAfter_iff]
        omega
      have hloop := agrees_readNamesLoop (fueled_encode hl) n [e.name]
      rw [List.length_singleton, ← limitAfter_succ, limitAfter_zero] at hloop
      rw [if_pos he.named, Cursor.take_of_keep hlimit rfl rfl]
      exact hloop
  | @before l hl =>
    rw [checked_created]
    split
    next hzero =>
      subst hzero
      rw [Cursor.take_full (show ReaderCall.limit 0 = some 0 from rfl)]
      exact ⟨rfl, .before hl⟩
    next hne =>
      have hloop := agrees_readNamesLoop (fueled_encode hl) n []
      rw [List.length_nil, limitAfter_zero] at hloop
      rw [if_neg (fun hne => hne rfl)]
      exact hloop

section ReadN

variable [ObjectMetadata (List UInt8)]

theorem keep_eq (inclDeleted inclDirs : Bool) (e : StreamEntry) :
    ReaderCall.keep inclDeleted inclDirs e =
      (!(!inclDirs && e.isDir) && !(!inclDeleted && e.isLatestDeletemarker)) := by
  have hobject : e.isObject = !e.isDir := rfl
  rw [ReaderCall.keep, hobject, Bool.not_and, Bool.not_not, Bool.not_and, Bool.not_not]

/-- The loop of `readN` collects the entries with the prefix. -/
theorem agrees_readNLoop (hfueled : Fueled l fuel) (n : Int) (inclDeleted inclDirs : Bool)
    (pre : List UInt8) (res : List StreamEntry) :
    let taken := (Cursor.before l).take (ReaderCall.within pre)
      (ReaderCall.keep inclDeleted inclDirs) (limitAfter n res.length)
    AgreesUnless (taken.2.1 = .past)
      (StreamReader.readNLoop n inclDeleted inclDirs pre fuel res ⟨.none, none, true, encode l⟩)
      ({ entries := res ++ taken.1, err := ReaderCall.stopErr taken.2.1 }, taken.2.2) := by
  induction hfueled generalizing res with
  | nil =>
    rw [StreamReader.readNLoop]
    split
    next hroom =>
      simp only [Cursor.take_nil (limit_of_room hroom), List.append_nil]
      exact Agrees.unless ⟨rfl, .ended rfl⟩ nofun
    next hfull =>
      simp only [take_of_no_room hfull, List.append_nil]
      exact Agrees.unless ⟨rfl, .before nofun⟩ nofun
  | @cons e l fuel he hl _ ih =>
    rw [StreamReader.readNLoop]
    split
    next hroom =>
      have hlimit := limit_of_room hroom
      dsimp only
      rw [pullName_cons he]
      dsimp only
      split
      next hpast =>
        have hpast : ReaderCall.within pre e = false := (Bool.not_eq_true' _).mp hpast
        simp only [Cursor.take_of_past hlimit hpast, List.append_nil]
        exact ⟨rfl, fun h => absurd trivial h, fun _ => ⟨rfl, rfl⟩⟩
      next hfront =>
        have hfront : ReaderCall.within pre e = true := by
          rwa [Bool.not_eq_true, Bool.not_eq_false'] at hfront
        have hkeep := keep_eq inclDeleted inclDirs e
        rw [readBytes_metadata he]
        dsimp only
        split
        next hdir =>
          rw [hdir] at hkeep
          rw [Cursor.take_of_not_keep hlimit hfront hkeep]
          exact ih res
        next hdir =>
          rw [Bool.not_eq_true] at hdir
          rw [hdir] at hkeep
          split
          next hdeleted =>
            rw [hdeleted] at hkeep
            rw [Cursor.take_of_not_keep hlimit hfront hkeep]
            exact ih res
          next hdeleted =>
            rw [Bool.not_eq_true] at hdeleted
            rw [hdeleted] at hkeep
            have hnext := ih (res ++ [e])
            dsimp only at hnext
            rw [limitAfter_concat, List.append_assoc, List.singleton_append] at hnext
            rw [Cursor.take_of_keep hlimit hfront hkeep]
            exact hnext
    next hfull =>
      simp only [take_of_no_room hfull, List.append_nil]
      exact Agrees.unless ⟨rfl, .before (List.forall_mem_cons.mpr ⟨he, hl⟩)⟩ nofun

omit [ObjectMetadata (List UInt8)] in
theorem peek_none (hopen : Open r c) (hnone : c.peek.1 = none) :
    ∃ r', r.peek = ({ err := some .eof }, r') ∧ Open r' .ended := by
  obtain ⟨hsaid, hplace⟩ := agrees_peek hopen
  match c with
  | .before (e :: l) => cases hnone
  | .before [] => exact ⟨r.peek.2, Prod.ext hsaid rfl, hplace⟩
  | .ended => exact ⟨r.peek.2, Prod.ext hsaid rfl, hplace⟩

/-- `readN`, from where its prefix is. -/
theorem agrees_readNFrom (hopen : Open r c) {n : Int} (hn : n ≠ 0) (inclDeleted inclDirs : Bool)
    (pre : List UInt8) :
    let taken := c.take (ReaderCall.within pre) (ReaderCall.keep inclDeleted inclDirs)
      (ReaderCall.limit n)
    AgreesUnless (ReaderCall.LosesFrom n inclDeleted inclDirs pre c)
      (r.readNFrom n inclDeleted inclDirs pre)
      ({ entries := taken.1, err := ReaderCall.stopErr taken.2.1 }, taken.2.2) := by
  have hlimit : ReaderCall.limit n ≠ some 0 := by
    rw [← limitAfter_zero, Ne, limitAfter_iff]
    omega
  rw [StreamReader.readNFrom]
  cases c with
  | ended =>
    obtain ⟨r', hpeek, hplace⟩ := peek_none hopen rfl
    rw [hpeek]
    exact Agrees.unless ⟨rfl, hplace⟩ id
  | before l =>
    cases l with
    | nil =>
      obtain ⟨r', hpeek, hplace⟩ := peek_none hopen rfl
      rw [hpeek, Cursor.take_nil hlimit]
      exact Agrees.unless ⟨rfl, hplace⟩ id
    | cons e l =>
      obtain ⟨hpeek, he, hl⟩ := peek_cons hopen
      rw [hpeek]
      dsimp only
      split
      next hpast =>
        have hpast : ReaderCall.within pre e = false := (Bool.not_eq_true' _).mp hpast
        rw [Cursor.take_of_past hlimit hpast]
        refine Agrees.unless ⟨rfl, .inHand he hl⟩ fun hlost => ?_
        rw [ReaderCall.LosesFrom, hpast] at hlost
        cases hlost.1
      next hfront =>
        have hfront : ReaderCall.within pre e = true := by
          rwa [Bool.not_eq_true, Bool.not_eq_false'] at hfront
        have hlost : ReaderCall.LosesFrom n inclDeleted inclDirs pre (.before (e :: l)) ↔
            ((Cursor.before (e :: l)).take (ReaderCall.within pre)
              (ReaderCall.keep inclDeleted inclDirs) (ReaderCall.limit n)).2.1 = .past :=
          and_iff_right hfront
        have hloop := agrees_readNLoop (fueled_encode hl) n inclDeleted inclDirs pre
        have hkeep : ((inclDeleted || !e.isLatestDeletemarker) && e.hasPrefix pre &&
            (inclDirs || e.isObject)) = ReaderCall.keep inclDeleted inclDirs e := by
          have hfront : e.hasPrefix pre = true := hfront
          rw [hfront, Bool.and_true, Bool.and_comm, ReaderCall.keep]
        rw [if_pos he.named, hkeep, hlost]
        split
        next hkept =>
          have hloop := hloop [e]
          rw [List.length_singleton, ← limitAfter_succ, limitAfter_zero] at hloop
          rw [Cursor.take_of_keep hlimit hfront hkept]
          exact hloop
        next hkept =>
          rw [Bool.not_eq_true] at hkept
          have hloop := hloop []
          rw [List.length_nil, limitAfter_zero] at hloop
          rw [Cursor.take_of_not_keep hlimit hfront hkept]
          exact hloop

theorem agrees_readN (hopen : Open r c) (n : Int) (inclDeleted inclDirs : Bool)
    (pre : List UInt8) :
    AgreesUnless ((ReaderCall.readN n inclDeleted inclDirs pre).Loses c)
      (r.readN n inclDeleted inclDirs pre)
      (ReaderCall.onList c (.readN n inclDeleted inclDirs pre)) := by
  rw [StreamReader.readN, ReaderCall.onList]
  split
  next hzero =>
    rw [hopen.checkInit]
    exact Agrees.unless ⟨rfl, hopen⟩ fun hlost => hlost.1 hzero
  next hn =>
    have hlost : (ReaderCall.readN n inclDeleted inclDirs pre).Loses c ↔
        ReaderCall.LosesFrom n inclDeleted inclDirs pre (ReaderCall.toPrefix pre c).2 :=
      and_iff_right hn
    rw [hlost]
    cases c with
    | ended =>
      have hplace : (ReaderCall.toPrefix pre .ended).2 = .ended := by
        rw [ReaderCall.toPrefix]
        split <;> rfl
      rw [hplace]
      cases hopen with
      | ended herr =>
        rw [checked_ended herr]
        exact Agrees.unless ⟨rfl, .ended herr⟩ id
    | before l =>
      rw [hopen.checked]
      have hforward := agrees_forwardTo hopen pre
      split
      next hnil =>
        rw [ReaderCall.toPrefix, if_pos hnil, Cursor.skip_zero]
        exact agrees_readNFrom hopen hn inclDeleted inclDirs pre
      next hne =>
        rw [ReaderCall.toPrefix, if_neg hne] at hforward ⊢
        generalize hsought : (Cursor.before l).seek (ReaderCall.early pre) = sought at hforward
        obtain ⟨hit, c'⟩ := sought
        obtain ⟨hsaid, hplace⟩ := hforward
        generalize r.forwardTo pre = forwarded at hsaid hplace
        obtain ⟨returned, r'⟩ := forwarded
        change returned = _ at hsaid
        subst hsaid
        cases hit with
        | true => exact agrees_readNFrom hplace hn inclDeleted inclDirs pre
        | false =>
          have hended : c' = .ended := by
            have hnone := @Cursor.eq_ended_of_seek _ (ReaderCall.early pre) (.before l)
            rw [hsought] at hnone
            exact hnone rfl
          subst hended
          exact Agrees.unless ⟨rfl, hplace⟩ id

end ReadN

/-! ## Handing out entries -/

theorem agrees_readFnLoop (hfueled : Fueled l fuel) (fn : List StreamEntry → Bool)
    (seen : List StreamEntry) :
    let handed := Cursor.handOut fn seen l
    Agrees (StreamReader.readFnLoop fn fuel seen ⟨.none, none, true, encode l⟩)
      ({ entries := handed.1, err := if handed.2 = .ended then some .eof else none },
        handed.2) := by
  induction hfueled generalizing seen with
  | nil => exact ⟨rfl, .ended rfl⟩
  | cons he hl _ ih =>
    rw [StreamReader.readFnLoop, Cursor.handOut]
    dsimp only
    rw [pullName_cons he]
    dsimp only
    rw [readBytes_metadata he]
    dsimp only
    split
    · exact ih _
    · exact ⟨rfl, .before hl⟩

theorem agrees_readFn [ObjectMetadata (List UInt8)] (hopen : Open r c)
    {fn : List StreamEntry → Bool} (hheeded : (ReaderCall.readFn fn).Heeded r c) :
    Agrees (r.readFn fn) (ReaderCall.onList c (.readFn fn)) := by
  rw [StreamReader.readFn, ReaderCall.onList]
  cases hopen with
  | ended herr =>
    rw [checked_ended herr]
    exact ⟨rfl, .ended herr⟩
  | @inHand e l he hl =>
    have hmore : fn [e] = true := hheeded he.named
    have hhand : Cursor.handOut fn [] (e :: l) = Cursor.handOut fn [e] l := by
      rw [Cursor.handOut, List.nil_append, if_pos hmore]
    rw [checked_created, if_pos he.named, Cursor.visit, hhand]
    exact agrees_readFnLoop (fueled_encode hl) fn [e]
  | @before l hl =>
    rw [checked_created, if_neg (fun hne => hne rfl), Cursor.visit]
    exact agrees_readFnLoop (fueled_encode hl) fn []

theorem readAllLoop_eq (hfueled : Fueled l fuel) (sent : List StreamEntry) {canceled : Option Nat}
    (hsends : ∀ count ∈ canceled, (sent ++ l).length ≤ count) :
    StreamReader.readAllLoop canceled fuel sent ⟨.none, none, true, encode l⟩ =
      ({ entries := sent ++ l }, ⟨.none, none, true, []⟩) := by
  induction hfueled generalizing sent with
  | nil =>
    rw [List.append_nil]
    rfl
  | cons he _ _ ih =>
    have hgoes : ¬ canceled = some sent.length := by
      intro hcanceled
      have hle := hsends _ hcanceled
      rw [List.length_append, List.length_cons] at hle
      omega
    rw [List.append_cons] at hsends ⊢
    rw [StreamReader.readAllLoop]
    dsimp only
    rw [pullName_cons he]
    dsimp only
    rw [readBytes_metadata he]
    dsimp only
    rw [if_neg hgoes]
    exact ih _ hsends

theorem agrees_readAll [ObjectMetadata (List UInt8)] (hopen : Open r c) {canceled : Option Nat}
    (hheeded : (ReaderCall.readAll canceled).Heeded r c) :
    AgreesUnless ((ReaderCall.readAll canceled).Loses c) (r.readAll canceled)
      (ReaderCall.onList c (.readAll canceled)) := by
  rw [StreamReader.readAll, ReaderCall.onList]
  cases hopen with
  | ended herr =>
    rw [checked_ended herr]
    exact Agrees.unless ⟨rfl, .ended herr⟩ fun hlost => hlost rfl
  | @inHand e l he hl =>
    have hgoes : ¬ canceled = some 0 := by
      intro hcanceled
      have hle := hheeded 0 hcanceled
      exact absurd hle (by simp [Cursor.drain])
    rw [checked_created, if_pos he.named, if_neg hgoes,
      readAllLoop_eq (fueled_encode hl) [e] hheeded]
    exact ⟨rfl, fun hkeeps => absurd (fun hended => by cases hended) hkeeps, fun _ => ⟨rfl, rfl⟩⟩
  | @before l hl =>
    rw [checked_created, if_neg (fun hne => hne rfl),
      readAllLoop_eq (fueled_encode hl) [] hheeded]
    exact ⟨rfl, fun hkeeps => absurd (fun hended => by cases hended) hkeeps, fun _ => ⟨rfl, rfl⟩⟩

end Calls

/-! ## Sequences of calls -/

def newMetacacheReader (bytes : List UInt8) : StreamReader := { rest := bytes }

def startCursor (writes : List WriterCall) : Cursor StreamEntry :=
  if writes.any WriterCall.creates then .before (writes.flatMap WriterCall.entries) else .ended

section Runs

variable [ObjectMetadata (List UInt8)] {r : StreamReader} {c : Cursor StreamEntry}

theorem agrees_call (hopen : Open r c) {call : ReaderCall} (hheeded : call.Heeded r c) :
    AgreesUnless (call.Loses c) (call.onReader r) (call.onList c) := by
  cases call with
  | peek => exact (agrees_peek hopen).unless id
  | next => exact (agrees_next hopen).unless id
  | nextEOF => exact (agrees_nextEOF hopen).unless id
  | skip n => exact (agrees_skip hopen n).unless id
  | forwardTo s => exact (agrees_forwardTo hopen s).unless id
  | readN n inclDeleted inclDirs pre => exact agrees_readN hopen n inclDeleted inclDirs pre
  | readNames n => exact (agrees_readNames hopen n).unless id
  | readFn fn => exact (agrees_readFn hopen hheeded).unless id
  | readAll canceled => exact agrees_readAll hopen hheeded

omit [ObjectMetadata (List UInt8)] in
theorem Adrift.checked (hadrift : Adrift r) (body : StreamReader → Returned × StreamReader) :
    r.checked body = body r := by
  rw [StreamReader.checked, checkInit_of_created hadrift.created, hadrift.err]

/-- A call that asks for nothing returns nothing, wherever the reader is. -/
theorem idle_call (hadrift : Adrift r) {call : ReaderCall} (hidle : call.Idle c) :
    call.onReader r = ({}, r) ∧ call.onList c = ({}, c) := by
  have hbefore : ∀ {c : Cursor StreamEntry}, c ≠ .ended → ∃ l, c = .before l := by
    intro c hne
    cases c with
    | before l => exact ⟨l, rfl⟩
    | ended => exact absurd rfl hne
  cases call with
  | readN n inclDeleted inclDirs pre =>
    have hzero : n = 0 := hidle
    rw [ReaderCall.onReader, StreamReader.readN, if_pos hzero, ReaderCall.onList, if_pos hzero,
      checkInit_of_created hadrift.created]
    exact ⟨rfl, rfl⟩
  | skip n =>
    obtain ⟨hle, hne⟩ := hidle
    obtain ⟨l, rfl⟩ := hbefore hne
    rw [ReaderCall.onReader, StreamReader.skip, hadrift.checked, if_pos hle,
      ReaderCall.onList, Int.toNat_of_nonpos hle, Cursor.skip_zero]
    exact ⟨rfl, rfl⟩
  | forwardTo s =>
    obtain ⟨rfl, hne⟩ := hidle
    obtain ⟨l, rfl⟩ := hbefore hne
    rw [ReaderCall.onReader, StreamReader.forwardTo, hadrift.checked, if_pos rfl,
      ReaderCall.onList, ReaderCall.toPrefix, if_pos rfl, Cursor.skip_zero]
    exact ⟨rfl, rfl⟩
  | readNames n =>
    obtain ⟨rfl, hne⟩ := hidle
    obtain ⟨l, rfl⟩ := hbefore hne
    rw [ReaderCall.onReader, StreamReader.readNames, hadrift.checked, if_pos rfl,
      ReaderCall.onList, Cursor.take_full (show ReaderCall.limit 0 = some 0 from rfl)]
    exact ⟨rfl, rfl⟩
  | peek => exact hidle.elim
  | next => exact hidle.elim
  | nextEOF => exact hidle.elim
  | readFn fn => exact hidle.elim
  | readAll canceled => exact hidle.elim

variable {calls : List ReaderCall}

theorem idle_run (hadrift : Adrift r) (hidle : ∀ call ∈ calls, call.Idle c) :
    readerRun r calls = listRun c calls := by
  induction calls with
  | nil => rfl
  | cons call calls ih =>
    obtain ⟨hcall, hrest⟩ := List.forall_mem_cons.mp hidle
    obtain ⟨hread, hsaid⟩ := idle_call hadrift hcall
    rw [readerRun, listRun, hread, hsaid, ih hrest]

theorem Open.run (hopen : Open r c) (hkept : Kept r c calls) :
    readerRun r calls = listRun c calls := by
  induction calls generalizing r c with
  | nil => rfl
  | cons call calls ih =>
    obtain ⟨hheeded, hidle, hlater⟩ := hkept
    obtain ⟨hsame, hkeeps, hloses⟩ := agrees_call hopen hheeded
    rw [readerRun, listRun, hsame]
    by_cases hlost : call.Loses c
    · rw [idle_run (hloses hlost) (hidle hlost)]
    · rw [ih (hkeeps hlost) (hlater hlost)]

omit [ObjectMetadata (List UInt8)] in
theorem checkInit_checkInit (r : StreamReader) : r.checkInit.checkInit = r.checkInit := by
  by_cases hopened : r.created ∨ r.err ≠ none
  · have hsame : r.checkInit = r := by rw [StreamReader.checkInit, if_pos hopened]
    rw [hsame, hsame]
  · refine checkInit_of_created ?_
    rw [StreamReader.checkInit, if_neg hopened]
    split
    · rfl
    · split <;> rfl

theorem onReader_checkInit (r : StreamReader) (call : ReaderCall) :
    call.onReader r.checkInit = call.onReader r := by
  cases call with
  | nextEOF =>
    rw [ReaderCall.onReader, ReaderCall.onReader, StreamReader.nextEOF, StreamReader.nextEOF,
      checkInit_checkInit]
  | readN n inclDeleted inclDirs pre =>
    rw [ReaderCall.onReader, ReaderCall.onReader, StreamReader.readN, StreamReader.readN,
      StreamReader.checked, StreamReader.checked, checkInit_checkInit]
  | peek | next | skip _ | forwardTo _ | readNames _ | readFn _ | readAll _ =>
    unfold ReaderCall.onReader StreamReader.peek StreamReader.next StreamReader.skip
      StreamReader.forwardTo StreamReader.readNames StreamReader.readFn StreamReader.readAll
      StreamReader.checked
    rw [checkInit_checkInit]

omit [ObjectMetadata (List UInt8)] in
theorem open_start (hwrites : ∀ e ∈ writes.flatMap WriterCall.entries, e.Written) :
    Open (newMetacacheReader (writtenBytes writes)).checkInit (startCursor writes) := by
  rw [writtenBytes_eq hwrites, startCursor]
  split
  · exact .before hwrites
  · exact .ended rfl

omit [ObjectMetadata (List UInt8)] in
theorem checkInit_current (r : StreamReader) : r.checkInit.current = r.current := by
  rw [StreamReader.checkInit]
  split
  · rfl
  · split
    · rfl
    · split <;> rfl

theorem readerRun_checkInit (r : StreamReader) (calls : List ReaderCall) :
    readerRun r.checkInit calls = readerRun r calls := by
  cases calls with
  | nil => rfl
  | cons call calls => rw [readerRun, readerRun, onReader_checkInit]

theorem kept_checkInit (hkept : Kept r c calls) : Kept r.checkInit c calls := by
  cases calls with
  | nil => trivial
  | cons call calls =>
    obtain ⟨hheeded, hidle, hlater⟩ := hkept
    refine ⟨?_, hidle, ?_⟩
    · cases call with
      | readFn fn =>
        intro hne
        rw [checkInit_current] at hne ⊢
        exact hheeded hne
      | readAll canceled => exact hheeded
      | peek | next | nextEOF | skip _ | forwardTo _ | readN _ _ _ _ | readNames _ => trivial
    · rw [onReader_checkInit]
      exact hlater

/-- What is read of any entries that were written is what a cursor over their list says,
in every sequence of calls that are kept. -/
theorem readerRun_eq_listRun {writes : List WriterCall}
    (hwrites : ∀ e ∈ writes.flatMap WriterCall.entries, e.Written) {calls : List ReaderCall}
    (hkept : Kept (newMetacacheReader (writtenBytes writes)) (startCursor writes) calls) :
    readerRun (newMetacacheReader (writtenBytes writes)) calls =
      listRun (startCursor writes) calls := by
  rw [← readerRun_checkInit]
  exact (open_start hwrites).run (kept_checkInit hkept)

end Runs

section Examples

/-- Metadata of which none is of a delete marker. -/
@[reducible] def neverDeleted : ObjectMetadata (List UInt8) := ⟨fun _ => false⟩

/-- Two directories, `a/` and `b/`. -/
def writtenDirectories : List WriterCall := [.write [⟨[97, 47], []⟩, ⟨[98, 47], []⟩]]

def peekAndRead : List ReaderCall :=
  [.peek, .readNames 1, .nextEOF, .readN (-1) true true [], .peek]

theorem peekAndRead_run :
    @readerRun neverDeleted (newMetacacheReader (writtenBytes writtenDirectories)) peekAndRead =
      @listRun neverDeleted (startCursor writtenDirectories) peekAndRead :=
  @readerRun_eq_listRun neverDeleted writtenDirectories (by decide) peekAndRead (by
    refine ⟨trivial, fun h => h.elim, fun _ => ⟨trivial, fun h => h.elim, fun _ =>
      ⟨trivial, fun h => h.elim, fun _ => ⟨trivial, fun hlost => ?_, fun _ =>
        ⟨trivial, fun h => h.elim, fun _ => trivial⟩⟩⟩⟩⟩
    exact absurd hlost.2.2 (by decide))

/-- A callback that wants nothing more is called with all entries after a peek, the entry
past the prefix is gone, and the end is no end after `readAll`. -/
theorem writtenDirectories_differ :
    @readerRun neverDeleted (newMetacacheReader (writtenBytes writtenDirectories))
        [.peek, .readFn fun _ => false] ≠
      @listRun neverDeleted (startCursor writtenDirectories) [.peek, .readFn fun _ => false] ∧
    @readerRun neverDeleted (newMetacacheReader (writtenBytes writtenDirectories))
        [.readN (-1) true true [97], .peek] ≠
      @listRun neverDeleted (startCursor writtenDirectories) [.readN (-1) true true [97], .peek] ∧
    @readerRun neverDeleted (newMetacacheReader (writtenBytes writtenDirectories))
        [.readAll none, .nextEOF] ≠
      @listRun neverDeleted (startCursor writtenDirectories) [.readAll none, .nextEOF] := by
  decide

end Examples

end Fs3.Listing
