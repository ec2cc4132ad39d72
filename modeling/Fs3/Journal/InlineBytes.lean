import Fs3.Foundation.Msgp
import Fs3.Journal.Format

/-! # The inline data as bytes

The data of small versions is one byte for the version of its format and a message pack map from
ids to bytes, read by position and never as a whole. -/

namespace Fs3

open Msgp

/-- `xlMetaInlineData`. -/
abbrev InlineBytes := Bytes

namespace InlineBytes

def xlMetaInlineDataVer : UInt8 := 1

def versionOK (x : InlineBytes) : Bool :=
  match x with
  | [] => true
  | ver :: _ => decide (0 < ver) && decide (ver ≤ xlMetaInlineDataVer)

def afterVersion (x : InlineBytes) : Bytes := x.tail

/-- The loop of `validate` over the pairs a header has announced. -/
def validateEntries : Nat → Bytes → Bool
  | 0, _ => true
  | sz + 1, buf =>
    match readMapKeyZC buf with
    | none => false
    | some (key, buf) =>
      !key.isEmpty &&
        match readBytesZC buf with
        | none => false
        | some (_, buf) => validateEntries sz buf

/-- Whether `validate` returns without an error. -/
def validate (x : InlineBytes) : Bool :=
  x.isEmpty ||
    (x.versionOK &&
      match readMapHeaderBytes x.afterVersion with
      | none => false
      | some (sz, buf) => validateEntries sz buf)

/-- `serialize`. -/
def serialize (entries : List (Bytes × Bytes)) : InlineBytes :=
  if entries.isEmpty then []
  else xlMetaInlineDataVer :: appendMapHeader entries.length ++
    entries.flatMap fun entry => appendStringFromBytes entry.1 ++ appendBytes entry.2

/-- The loop of `repair`: the pairs up to the first that cannot be read. -/
def repairEntries : Nat → Bytes → List (Bytes × Bytes)
  | 0, _ => []
  | sz + 1, buf =>
    match readMapKeyZC buf with
    | none => []
    | some (key, buf) =>
      if key.isEmpty then []
      else
        match readBytesZC buf with
        | none => []
        | some (val, buf) => (key, val) :: repairEntries sz buf

/-- `repair`. -/
def repair (x : InlineBytes) : InlineBytes :=
  if x.isEmpty then x
  else if !x.versionOK then []
  else
    match readMapHeaderBytes x.afterVersion with
    | none => []
    | some (sz, buf) => serialize (repairEntries sz buf)

/-- What `Load` keeps: data that does not pass `validate` is repaired. -/
def checked (x : InlineBytes) : InlineBytes := if x.validate then x else x.repair

/-- The loop of `find`. -/
def findEntry (key : Bytes) : Nat → Bytes → Option Bytes
  | 0, _ => none
  | sz + 1, buf =>
    match readMapKeyZC buf with
    | none => none
    | some (found, buf) =>
      if found = key then (readBytesZC buf).map Prod.fst
      else
        match readBytesZC buf with
        | none => none
        | some (_, buf) => findEntry key sz buf

/-- `find`; `none` is a nil slice. -/
def find (x : InlineBytes) (key : Bytes) : Option Bytes :=
  if x.isEmpty || !x.versionOK then none
  else
    match readMapHeaderBytes x.afterVersion with
    | none => none
    | some (sz, buf) => findEntry key sz buf

/-! ### Written pairs are read -/

/-- Pairs that `serialize` writes as `validate` reads them. -/
structure Storable (entries : List (Bytes × Bytes)) : Prop where
  key_ne_nil : ∀ entry ∈ entries, entry.1 ≠ []
  key_lt : ∀ entry ∈ entries, entry.1.length < 2 ^ 32
  val_lt : ∀ entry ∈ entries, entry.2.length < 2 ^ 32
  length_lt : entries.length < 2 ^ 32

def body (entries : List (Bytes × Bytes)) : Bytes :=
  entries.flatMap fun entry => appendStringFromBytes entry.1 ++ appendBytes entry.2

theorem body_cons (key val : Bytes) (entries : List (Bytes × Bytes)) :
    body ((key, val) :: entries) =
      appendStringFromBytes key ++ (appendBytes val ++ body entries) := by
  rw [body, List.flatMap_cons, List.append_assoc]
  rfl

theorem storable_nil : Storable [] where
  key_ne_nil := nofun
  key_lt := nofun
  val_lt := nofun
  length_lt := by decide

theorem Storable.tail {entry : Bytes × Bytes} {entries : List (Bytes × Bytes)}
    (hstorable : Storable (entry :: entries)) : Storable entries where
  key_ne_nil other hother := hstorable.key_ne_nil other (List.mem_cons_of_mem _ hother)
  key_lt other hother := hstorable.key_lt other (List.mem_cons_of_mem _ hother)
  val_lt other hother := hstorable.val_lt other (List.mem_cons_of_mem _ hother)
  length_lt := (Nat.lt_succ_self _).trans hstorable.length_lt

variable {entries : List (Bytes × Bytes)}

theorem read_body_cons {key val : Bytes} (hstorable : Storable ((key, val) :: entries)) :
    readMapKeyZC (body ((key, val) :: entries)) = some (key, appendBytes val ++ body entries) ∧
      readBytesZC (appendBytes val ++ body entries) = some (val, body entries) := by
  rw [body_cons]
  exact ⟨readMapKeyZC_append _ _ (hstorable.key_lt (key, val) List.mem_cons_self),
    readBytesZC_append _ _ (hstorable.val_lt (key, val) List.mem_cons_self)⟩

theorem validateEntries_body (hstorable : Storable entries) :
    validateEntries entries.length (body entries) = true := by
  induction entries with
  | nil => rfl
  | cons entry entries ih =>
    obtain ⟨key, val⟩ := entry
    obtain ⟨hkey, hval⟩ := read_body_cons hstorable
    have hne : key.isEmpty = false :=
      List.isEmpty_eq_false_iff.mpr (hstorable.key_ne_nil (key, val) List.mem_cons_self)
    rw [List.length_cons, validateEntries, hkey]
    dsimp only
    rw [hval, hne]
    exact ih hstorable.tail

theorem serialize_cons (entry : Bytes × Bytes) (entries : List (Bytes × Bytes)) :
    serialize (entry :: entries) = xlMetaInlineDataVer ::
      (appendMapHeader (entry :: entries).length ++ body (entry :: entries)) := rfl

theorem readMapHeaderBytes_serialize {entry : Bytes × Bytes}
    (hstorable : Storable (entry :: entries)) :
    readMapHeaderBytes (serialize (entry :: entries)).afterVersion =
      some ((entry :: entries).length, body (entry :: entries)) := by
  rw [serialize_cons, afterVersion, List.tail_cons, readMapHeaderBytes_append,
    Nat.mod_eq_of_lt hstorable.length_lt]

theorem validate_serialize (hstorable : Storable entries) :
    (serialize entries).validate = true := by
  cases entries with
  | nil => rfl
  | cons entry entries =>
    rw [validate, readMapHeaderBytes_serialize hstorable]
    exact validateEntries_body hstorable

/-! ### Repaired data is valid -/

theorem repairEntries_storable {sz : Nat} (hsz : sz < 2 ^ 32) (buf : Bytes) :
    Storable (repairEntries sz buf) ∧ (repairEntries sz buf).length ≤ sz := by
  induction sz generalizing buf with
  | zero => exact ⟨storable_nil, Nat.le_refl 0⟩
  | succ sz ih =>
    have hnil : Storable [] ∧ ([] : List (Bytes × Bytes)).length ≤ sz + 1 :=
      ⟨storable_nil, Nat.zero_le _⟩
    rw [repairEntries]
    split
    next => exact hnil
    next key buf hkey =>
      split
      next => exact hnil
      next hne =>
        split
        next => exact hnil
        next val buf hval =>
          obtain ⟨hrest, hlength⟩ := ih ((Nat.lt_succ_self sz).trans hsz) buf
          refine ⟨⟨?_, ?_, ?_, ?_⟩, Nat.succ_le_succ hlength⟩
          · rw [List.forall_mem_cons]
            exact ⟨fun hnil => hne (List.isEmpty_iff.mpr hnil), hrest.key_ne_nil⟩
          · rw [List.forall_mem_cons]
            exact ⟨readMapKeyZC_length_lt hkey, hrest.key_lt⟩
          · rw [List.forall_mem_cons]
            exact ⟨readBytesZC_length_lt hval, hrest.val_lt⟩
          · exact (Nat.succ_le_succ hlength).trans_lt hsz

theorem validate_repair (x : InlineBytes) : x.repair.validate = true := by
  rw [repair]
  split
  next hempty =>
    rw [List.isEmpty_iff.mp hempty]
    rfl
  next =>
    split
    · rfl
    · split
      next => rfl
      next sz buf hheader =>
        exact validate_serialize (repairEntries_storable (readMapHeaderBytes_lt hheader) buf).1

end InlineBytes

namespace XlMetaInlineData

def keyBytes (key : String) : Bytes := key.toUTF8.data.toList

def toBytes (x : XlMetaInlineData) : InlineBytes :=
  InlineBytes.serialize (x.map fun entry => (keyBytes entry.1, entry.2))

end XlMetaInlineData

end Fs3
