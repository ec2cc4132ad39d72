import Fs3.Foundation.Histories
import Fs3.Foundation.Pairs
import Fs3.Journal.InlineBytes

/-! # Operations on the bytes of the inline data

Every operation reads the pairs of the map one after another and writes all of them again. On data
that passes `validate` they are the operations of a finite map as long as what they write can be
read: keys that are not empty and not used twice, and lengths of at most 32 bits. -/

namespace Fs3

open Foundation Msgp

namespace InlineBytes

def readEntries : Nat → Bytes → List (Bytes × Bytes)
  | 0, _ => []
  | sz + 1, buf =>
    match readMapKeyZC buf with
    | none => []
    | some (key, buf) =>
      match readBytesZC buf with
      | none => []
      | some (val, buf) => (key, val) :: readEntries sz buf

/-- The pairs that an operation reads; a header that cannot be read announces none. -/
def pairs (x : InlineBytes) : List (Bytes × Bytes) :=
  match readMapHeaderBytes x.afterVersion with
  | none => []
  | some (sz, buf) => readEntries sz buf

/-- The loop of `list`: the keys, and whether all of them were read. -/
def listEntries : Nat → Bytes → List Bytes × Bool
  | 0, _ => ([], true)
  | sz + 1, buf =>
    match readMapKeyZC buf with
    | none => ([], false)
    | some (key, buf) =>
      if key.isEmpty then ([], false)
      else
        match readBytesZC buf with
        | none => ([key], false)
        | some (_, buf) => (key :: (listEntries sz buf).1, (listEntries sz buf).2)

/-- `list`: the keys, and whether there was no error. -/
def list (x : InlineBytes) : List Bytes × Bool :=
  if x.isEmpty then ([], true)
  else if !x.versionOK then ([], false)
  else
    match readMapHeaderBytes x.afterVersion with
    | none => ([], false)
    | some (sz, buf) => listEntries sz buf

/-- `replace`. -/
def replace (x : InlineBytes) (key value : Bytes) : InlineBytes :=
  serialize (Pairs.put x.pairs key value)

/-- `rename`, with whether the key was found. -/
def rename (x : InlineBytes) (oldKey newKey : Bytes) : InlineBytes × Bool :=
  if oldKey ∈ Pairs.keys x.pairs then (serialize (Pairs.rename x.pairs oldKey newKey), true)
  else (x, false)

/-- `remove`, with whether any key was found. -/
def remove (x : InlineBytes) (keys : List Bytes) : InlineBytes × Bool :=
  if ∃ key ∈ Pairs.keys x.pairs, key ∈ keys then (serialize (Pairs.drop x.pairs keys), true)
  else (x, false)

/-! ## Valid data -/

/-- What the loop of `validate` has accepted: every loop reads the same pairs. -/
structure ReadsPairs (sz : Nat) (buf : Bytes) (entries : List (Bytes × Bytes)) : Prop where
  read : readEntries sz buf = entries
  repaired : repairEntries sz buf = entries
  length : entries.length = sz
  listed : listEntries sz buf = (Pairs.keys entries, true)
  found : ∀ key, findEntry key sz buf = Pairs.value entries key
  key_ne_nil : ∀ entry ∈ entries, entry.1 ≠ []
  key_lt : ∀ entry ∈ entries, entry.1.length < 2 ^ 32
  val_lt : ∀ entry ∈ entries, entry.2.length < 2 ^ 32

theorem exists_readsPairs {sz : Nat} {buf : Bytes} (hvalid : validateEntries sz buf = true) :
    ∃ entries, ReadsPairs sz buf entries := by
  induction sz generalizing buf with
  | zero => exact ⟨[], rfl, rfl, rfl, rfl, fun _ => rfl, nofun, nofun, nofun⟩
  | succ sz ih =>
    rw [validateEntries] at hvalid
    cases hkey : readMapKeyZC buf with
    | none =>
      rw [hkey] at hvalid
      cases hvalid
    | some read =>
      obtain ⟨key, rest⟩ := read
      rw [hkey] at hvalid
      dsimp only at hvalid
      rw [Bool.and_eq_true, Bool.not_eq_true'] at hvalid
      obtain ⟨hne, hvalid⟩ := hvalid
      cases hval : readBytesZC rest with
      | none =>
        rw [hval] at hvalid
        cases hvalid
      | some read =>
        obtain ⟨val, after⟩ := read
        rw [hval] at hvalid
        obtain ⟨entries, hentries⟩ := ih hvalid
        refine ⟨(key, val) :: entries, ?_, ?_, ?_, ?_, fun other => ?_, ?_, ?_, ?_⟩
        · simp only [readEntries, hkey, hval, hentries.read]
        · simp only [repairEntries, hkey, hval, hne, hentries.repaired,
            Bool.false_eq_true, if_false]
        · rw [List.length_cons, hentries.length]
        · simp only [listEntries, hkey, hval, hne, hentries.listed, Bool.false_eq_true,
            if_false]
          rfl
        · simp only [findEntry, hkey, hval, hentries.found, Pairs.value_cons, Option.map_some]
        · rw [List.forall_mem_cons]
          exact ⟨List.isEmpty_eq_false_iff.mp hne, hentries.key_ne_nil⟩
        · rw [List.forall_mem_cons]
          exact ⟨readMapKeyZC_length_lt hkey, hentries.key_lt⟩
        · rw [List.forall_mem_cons]
          exact ⟨readBytesZC_length_lt hval, hentries.val_lt⟩

variable {x : InlineBytes}

/-- Valid data is a list of pairs that can be stored, and is searched and listed
as this list. -/
structure HoldsPairs (x : InlineBytes) : Prop where
  storable : Storable x.pairs
  listed : x.list = (Pairs.keys x.pairs, true)
  found : ∀ key, x.find key = Pairs.value x.pairs key

theorem holdsPairs_of_validate (hvalid : x.validate = true) : HoldsPairs x := by
  rw [validate, Bool.or_eq_true, Bool.and_eq_true] at hvalid
  rcases hvalid with hempty | ⟨hversion, hvalid⟩
  · obtain rfl : x = [] := List.isEmpty_iff.mp hempty
    exact ⟨storable_nil, rfl, fun _ => rfl⟩
  · cases hheader : readMapHeaderBytes x.afterVersion with
    | none =>
      rw [hheader] at hvalid
      cases hvalid
    | some header =>
      obtain ⟨sz, buf⟩ := header
      rw [hheader] at hvalid
      obtain ⟨entries, hentries⟩ := exists_readsPairs hvalid
      have hne : x.isEmpty = false := by
        cases x with
        | nil => cases hheader
        | cons => rfl
      have hpairs : x.pairs = entries := by rw [pairs, hheader]; exact hentries.read
      rw [← hpairs] at hentries
      refine ⟨⟨hentries.key_ne_nil, hentries.key_lt, hentries.val_lt, ?_⟩, ?_, fun key => ?_⟩
      · rw [hentries.length]
        exact readMapHeaderBytes_lt hheader
      · simp only [list, hne, hversion, hheader, hentries.listed, Bool.not_true,
          Bool.false_eq_true, if_false]
      · simp only [find, hne, hversion, hheader, hentries.found, Bool.not_true, Bool.or_self,
          Bool.false_eq_true, if_false]

variable {entries : List (Bytes × Bytes)}

theorem pairs_serialize (hstorable : Storable entries) : (serialize entries).pairs = entries := by
  have hread : ∀ entries, Storable entries → readEntries entries.length (body entries) =
      entries := by
    intro entries hstorable
    induction entries with
    | nil => rfl
    | cons entry entries ih =>
      obtain ⟨key, val⟩ := entry
      obtain ⟨hkey, hval⟩ := read_body_cons hstorable
      rw [List.length_cons, readEntries, hkey]
      dsimp only
      rw [hval]
      dsimp only
      rw [ih hstorable.tail]
  cases entries with
  | nil => rfl
  | cons entry entries =>
    rw [pairs, readMapHeaderBytes_serialize hstorable]
    exact hread _ hstorable

/-! ## Operations as updates of a map -/

/-- The three operations that write the pairs again. -/
inductive InlineOp where
  | replace (key value : Bytes)
  | rename (oldKey newKey : Bytes)
  | remove (keys : List Bytes)

namespace InlineOp

def apply (x : InlineBytes) : InlineOp → InlineBytes
  | replace key value => x.replace key value
  | rename oldKey newKey => (x.rename oldKey newKey).1
  | remove keys => (x.remove keys).1

def onMap (map : Bytes → Option Bytes) : InlineOp → Bytes → Option Bytes
  | replace key value => fun other => if other = key then some value else map other
  | rename oldKey newKey => fun other =>
    if map oldKey = none then map other
    else if other = newKey then map oldKey
    else if other = oldKey then none
    else map other
  | remove keys => fun other => if other ∈ keys then none else map other

def onPairs (entries : List (Bytes × Bytes)) : InlineOp → List (Bytes × Bytes)
  | replace key value => Pairs.put entries key value
  | rename oldKey newKey => Pairs.rename entries oldKey newKey
  | remove keys => Pairs.drop entries keys

end InlineOp

/-- Data with every key once, searched and listed as one map. -/
structure IsMap (x : InlineBytes) (map : Bytes → Option Bytes) : Prop where
  validates : x.validate = true
  finds : ∀ key, x.find key = map key
  lists : ∃ keys, x.list = (keys, true) ∧ keys.Nodup ∧ ∀ key, key ∈ keys ↔ (map key).isSome = true

/-- What an operation may be given for the data it works on: the keys that stay
are used once, a key that is put in can be stored and is not another one in use,
a value can be stored, and there is room for one more pair. -/
def InlineOp.Fits (x : InlineBytes) : InlineOp → Prop
  | replace key value => (Pairs.keys x.pairs).Nodup ∧ key ≠ [] ∧ key.length < 2 ^ 32 ∧
      value.length < 2 ^ 32 ∧ (key ∉ Pairs.keys x.pairs → x.pairs.length + 1 < 2 ^ 32)
  | rename oldKey newKey => (Pairs.keys x.pairs).Nodup ∧ (oldKey ∈ Pairs.keys x.pairs →
      newKey ≠ [] ∧ newKey.length < 2 ^ 32 ∧ (newKey = oldKey ∨ newKey ∉ Pairs.keys x.pairs))
  | remove keys => ((Pairs.keys x.pairs).filter fun key => key ∉ keys).Nodup

theorem findEntry_lt {sz : Nat} {key value buf : Bytes}
    (hfind : findEntry key sz buf = some value) :
    key.length < 2 ^ 32 ∧ value.length < 2 ^ 32 := by
  induction sz generalizing buf with
  | zero => cases hfind
  | succ sz ih =>
    rw [findEntry] at hfind
    split at hfind
    next => cases hfind
    next found rest hkey =>
      split at hfind
      next heq =>
        obtain ⟨read, hval, rfl⟩ := Option.map_eq_some_iff.mp hfind
        exact ⟨heq ▸ readMapKeyZC_length_lt hkey, readBytesZC_length_lt hval⟩
      next =>
        split at hfind
        next => cases hfind
        next => exact ih hfind

theorem find_lt {key value : Bytes} (hfind : x.find key = some value) :
    key.length < 2 ^ 32 ∧ value.length < 2 ^ 32 := by
  unfold find at hfind
  split at hfind
  next => cases hfind
  next =>
    split at hfind
    next => cases hfind
    next => exact findEntry_lt hfind

theorem find_serialize_of_full (hfull : entries.length = 2 ^ 32) (key : Bytes) :
    (serialize entries).find key = none := by
  cases entries with
  | nil => rfl
  | cons entry entries =>
    have hheader : readMapHeaderBytes (serialize (entry :: entries)).afterVersion =
        some (0, body (entry :: entries)) := by
      rw [serialize_cons, afterVersion, List.tail_cons, readMapHeaderBytes_append, hfull]
      rfl
    unfold find
    split
    next => rfl
    next => rw [hheader]; rfl

namespace HoldsPairs

variable {map : Bytes → Option Bytes}

theorem isMap_iff (hvalid : x.validate = true) :
    IsMap x map ↔ (Pairs.keys x.pairs).Nodup ∧ ∀ key, Pairs.value x.pairs key = map key := by
  have hholds := holdsPairs_of_validate hvalid
  constructor
  · rintro ⟨-, hfinds, keys, hlist, hnodup, -⟩
    rw [hholds.listed] at hlist
    obtain ⟨rfl, -⟩ := Prod.mk.inj hlist
    exact ⟨hnodup, fun key => (hholds.found key).symm.trans (hfinds key)⟩
  · rintro ⟨hnodup, hvalue⟩
    refine ⟨hvalid, fun key => (hholds.found key).trans (hvalue key), _, hholds.listed, hnodup, ?_⟩
    intro key
    rw [← hvalue, Pairs.value_isSome]

end HoldsPairs

theorem isMap_serialize_iff {map : Bytes → Option Bytes} (hstorable : Storable entries) :
    IsMap (serialize entries) map ↔
      (Pairs.keys entries).Nodup ∧ ∀ key, Pairs.value entries key = map key := by
  rw [HoldsPairs.isMap_iff (validate_serialize hstorable), pairs_serialize hstorable]

/-! ### Replacing -/

theorem storable_put {key value : Bytes} (hstorable : Storable entries) (hne : key ≠ [])
    (hkey : key.length < 2 ^ 32) (hvalue : value.length < 2 ^ 32)
    (hroom : key ∉ Pairs.keys entries → entries.length + 1 < 2 ^ 32) :
    Storable (Pairs.put entries key value) := by
  have hmem : ∀ entry ∈ Pairs.put entries key value,
      (entry.1 = key ∨ ∃ old ∈ entries, entry.1 = old.1) ∧
        (entry.2 = value ∨ ∃ old ∈ entries, entry.2 = old.2) := by
    intro entry hentry
    unfold Pairs.put at hentry
    split at hentry
    next =>
      obtain ⟨old, hold, rfl⟩ := List.mem_map.mp hentry
      split
      next => exact ⟨Or.inr ⟨old, hold, rfl⟩, Or.inl rfl⟩
      next => exact ⟨Or.inr ⟨old, hold, rfl⟩, Or.inr ⟨old, hold, rfl⟩⟩
    next =>
      rcases List.mem_append.mp hentry with hold | hnew
      · exact ⟨Or.inr ⟨entry, hold, rfl⟩, Or.inr ⟨entry, hold, rfl⟩⟩
      · rw [List.mem_singleton.mp hnew]
        exact ⟨Or.inl rfl, Or.inl rfl⟩
  refine ⟨fun entry hentry => ?_, fun entry hentry => ?_, fun entry hentry => ?_, ?_⟩
  · rcases (hmem entry hentry).1 with heq | ⟨old, hold, heq⟩
    · rwa [heq]
    · rw [heq]
      exact hstorable.key_ne_nil old hold
  · rcases (hmem entry hentry).1 with heq | ⟨old, hold, heq⟩
    · rwa [heq]
    · rw [heq]
      exact hstorable.key_lt old hold
  · rcases (hmem entry hentry).2 with heq | ⟨old, hold, heq⟩
    · rwa [heq]
    · rw [heq]
      exact hstorable.val_lt old hold
  · unfold Pairs.put
    split
    next =>
      rw [List.length_map]
      exact hstorable.length_lt
    next hnot =>
      rw [List.length_append]
      exact hroom hnot

theorem replace_isMap_iff (hvalid : x.validate = true) (key value : Bytes) :
    IsMap (x.replace key value) ((InlineOp.replace key value).onMap x.find) ↔
      (InlineOp.replace key value).Fits x := by
  have hholds := holdsPairs_of_validate hvalid
  have hmap : ∀ other, Pairs.value (Pairs.put x.pairs key value) other =
      (InlineOp.replace key value).onMap x.find other := by
    intro other
    rw [Pairs.value_put, ← hholds.found]
    rfl
  constructor
  · intro hismap
    have hfind : (x.replace key value).find key = some value := by
      rw [hismap.finds]
      exact if_pos rfl
    obtain ⟨hkey, hvalue⟩ := find_lt hfind
    have hholds' := holdsPairs_of_validate hismap.validates
    have hne : key ≠ [] := by
      have hmem : key ∈ Pairs.keys (x.replace key value).pairs := by
        rw [← Pairs.value_isSome, ← hholds'.found, hfind]
        rfl
      obtain ⟨entry, hentry, rfl⟩ := List.mem_map.mp hmem
      exact hholds'.storable.key_ne_nil entry hentry
    have hroom : key ∉ Pairs.keys x.pairs → x.pairs.length + 1 < 2 ^ 32 := by
      intro hnot
      refine Nat.lt_of_le_of_ne hholds.storable.length_lt fun hfull => ?_
      have hlength : (Pairs.put x.pairs key value).length = 2 ^ 32 := by
        rw [Pairs.put, if_neg hnot, List.length_append]
        exact hfull
      rw [replace, find_serialize_of_full hlength] at hfind
      cases hfind
    have hstorable := storable_put hholds.storable hne hkey hvalue hroom
    exact ⟨Pairs.nodup_keys_put.mp ((isMap_serialize_iff hstorable).mp hismap).1, hne, hkey,
      hvalue, hroom⟩
  · rintro ⟨hnodup, hne, hkey, hvalue, hroom⟩
    have hstorable := storable_put hholds.storable hne hkey hvalue hroom
    exact (isMap_serialize_iff hstorable).mpr ⟨Pairs.nodup_keys_put.mpr hnodup, hmap⟩

/-! ### Renaming -/

theorem storable_rename {entries : List (Bytes × Bytes)} {oldKey newKey : Bytes}
    (hstorable : Storable entries) (hne : newKey ≠ []) (hkey : newKey.length < 2 ^ 32) :
    Storable (Pairs.rename entries oldKey newKey) := by
  have hmem : ∀ entry ∈ Pairs.rename entries oldKey newKey,
      ∃ old ∈ entries, entry.2 = old.2 ∧ (entry.1 = newKey ∨ entry.1 = old.1) := by
    intro entry hentry
    obtain ⟨old, hold, rfl⟩ := List.mem_map.mp hentry
    refine ⟨old, hold, ?_⟩
    split
    next => exact ⟨rfl, Or.inl rfl⟩
    next => exact ⟨rfl, Or.inr rfl⟩
  refine ⟨fun entry hentry => ?_, fun entry hentry => ?_, fun entry hentry => ?_, ?_⟩
  · obtain ⟨old, hold, -, heq | heq⟩ := hmem entry hentry
    · rwa [heq]
    · rw [heq]
      exact hstorable.key_ne_nil old hold
  · obtain ⟨old, hold, -, heq | heq⟩ := hmem entry hentry
    · rwa [heq]
    · rw [heq]
      exact hstorable.key_lt old hold
  · obtain ⟨old, hold, heq, -⟩ := hmem entry hentry
    rw [heq]
    exact hstorable.val_lt old hold
  · rw [Pairs.rename, List.length_map]
    exact hstorable.length_lt

theorem rename_isMap_iff (hvalid : x.validate = true) (oldKey newKey : Bytes) :
    IsMap (x.rename oldKey newKey).1 ((InlineOp.rename oldKey newKey).onMap x.find) ↔
      (InlineOp.rename oldKey newKey).Fits x := by
  have hholds := holdsPairs_of_validate hvalid
  unfold rename
  split
  next hmem =>
    have hsome : Pairs.value x.pairs oldKey ≠ none := fun hnone =>
      Pairs.value_eq_none.mp hnone hmem
    have hmap : ∀ other, (InlineOp.rename oldKey newKey).onMap x.find other =
        if other = newKey then Pairs.value x.pairs oldKey else if other = oldKey then none
        else Pairs.value x.pairs other := by
      intro other
      dsimp only [InlineOp.onMap]
      rw [hholds.found, hholds.found, if_neg hsome]
    dsimp only
    constructor
    · intro hismap
      have hfind : (serialize (Pairs.rename x.pairs oldKey newKey)).find newKey =
          Pairs.value x.pairs oldKey := by
        rw [hismap.finds, hmap, if_pos rfl]
      obtain ⟨value, hvalue⟩ := Option.ne_none_iff_exists'.mp hsome
      rw [hvalue] at hfind
      have hkey := (find_lt hfind).1
      have hholds' := holdsPairs_of_validate hismap.validates
      have hne : newKey ≠ [] := by
        have hmem' : newKey ∈
            Pairs.keys (serialize (Pairs.rename x.pairs oldKey newKey)).pairs := by
          rw [← Pairs.value_isSome, ← hholds'.found, hfind]
          rfl
        obtain ⟨entry, hentry, rfl⟩ := List.mem_map.mp hmem'
        exact hholds'.storable.key_ne_nil entry hentry
      have hstorable := @storable_rename _ oldKey _ hholds.storable hne hkey
      obtain ⟨hnodup, hfree⟩ := (Pairs.nodup_keys_rename hmem).mp
        ((isMap_serialize_iff hstorable).mp hismap).1
      exact ⟨hnodup, fun _ => ⟨hne, hkey, hfree⟩⟩
    · rintro ⟨hnodup, hnew⟩
      obtain ⟨hne, hkey, hfree⟩ := hnew hmem
      have hstorable := @storable_rename _ oldKey _ hholds.storable hne hkey
      refine (isMap_serialize_iff hstorable).mpr
        ⟨(Pairs.nodup_keys_rename hmem).mpr ⟨hnodup, hfree⟩, fun other => ?_⟩
      rw [hmap, Pairs.value_rename hfree]
  next hnot =>
    have hmap : ∀ other, Pairs.value x.pairs other =
        (InlineOp.rename oldKey newKey).onMap x.find other := by
      intro other
      dsimp only [InlineOp.onMap]
      rw [hholds.found, hholds.found, if_pos (Pairs.value_eq_none.mpr hnot)]
    dsimp only
    rw [HoldsPairs.isMap_iff hvalid]
    exact ⟨fun h => ⟨h.1, fun hmem => absurd hmem hnot⟩, fun h => ⟨h.1, hmap⟩⟩

/-! ### Removing -/

theorem storable_drop (hstorable : Storable entries) (keys : List Bytes) :
    Storable (Pairs.drop entries keys) where
  key_ne_nil entry hentry := hstorable.key_ne_nil entry (List.mem_of_mem_filter hentry)
  key_lt entry hentry := hstorable.key_lt entry (List.mem_of_mem_filter hentry)
  val_lt entry hentry := hstorable.val_lt entry (List.mem_of_mem_filter hentry)
  length_lt := (List.length_filter_le _ _).trans_lt hstorable.length_lt

theorem remove_isMap_iff (hvalid : x.validate = true) (keys : List Bytes) :
    IsMap (x.remove keys).1 ((InlineOp.remove keys).onMap x.find) ↔
      (InlineOp.remove keys).Fits x := by
  have hholds := holdsPairs_of_validate hvalid
  have hmap : ∀ other, Pairs.value (Pairs.drop x.pairs keys) other =
      (InlineOp.remove keys).onMap x.find other := by
    intro other
    dsimp only [InlineOp.onMap]
    rw [Pairs.value_drop, ← hholds.found]
    by_cases hother : other ∈ keys
    · rw [if_pos hother, if_pos hother]
    · rw [if_neg hother, if_neg hother]
  have hkeys : (Pairs.keys x.pairs).filter (fun key => key ∉ keys) =
      Pairs.keys (Pairs.drop x.pairs keys) := by
    rw [Pairs.keys_drop]
    exact List.filter_congr fun key _ => decide_eq_decide.mpr Iff.rfl
  dsimp only [InlineOp.Fits]
  rw [hkeys]
  unfold remove
  split
  next =>
    rw [isMap_serialize_iff (storable_drop hholds.storable keys)]
    exact ⟨fun h => h.1, fun h => ⟨h, hmap⟩⟩
  next hnone =>
    have hsame : Pairs.drop x.pairs keys = x.pairs :=
      Pairs.drop_of_disjoint fun key hkey hdropped => hnone ⟨key, hkey, hdropped⟩
    rw [HoldsPairs.isMap_iff hvalid]
    rw [hsame] at hmap ⊢
    exact ⟨fun h => h.1, fun h => ⟨h, hmap⟩⟩

/-- Some bytes begin with pairs that `validate` accepts. -/
inductive BeginsWith : List (Bytes × Bytes) → Bytes → Prop
  | nil (buf : Bytes) : BeginsWith [] buf
  | cons (key val buf rest after : Bytes) (entries : List (Bytes × Bytes))
      (hkey : readMapKeyZC buf = some (key, rest)) (hne : key ≠ [])
      (hval : readBytesZC rest = some (val, after)) (hrest : BeginsWith entries after) :
      BeginsWith ((key, val) :: entries) buf

/-- What a repair promises of any bytes: valid data with the longest list of
pairs the bytes begin with, up to the count that they announce. -/
structure IsRepaired (x y : InlineBytes) : Prop where
  validates : y.validate = true
  longest : ∀ sz buf, x.versionOK = true → readMapHeaderBytes x.afterVersion = some (sz, buf) →
    BeginsWith y.pairs buf ∧ y.pairs.length ≤ sz ∧
      ∀ entries, BeginsWith entries buf → entries.length ≤ sz → entries <+: y.pairs
  none : x.versionOK = false ∨ readMapHeaderBytes x.afterVersion = none → y.pairs = []

theorem beginsWith_repairEntries (sz : Nat) (buf : Bytes) :
    BeginsWith (repairEntries sz buf) buf := by
  induction sz generalizing buf with
  | zero => exact .nil buf
  | succ sz ih =>
    rw [repairEntries]
    split
    next => exact .nil buf
    next key rest hkey =>
      split
      next => exact .nil buf
      next hne =>
        split
        next => exact .nil buf
        next val after hval =>
          exact .cons key val buf rest after _ hkey (fun hnil => hne (List.isEmpty_iff.mpr hnil))
            hval (ih after)

theorem BeginsWith.prefix_repairEntries {buf : Bytes} (hbegins : BeginsWith entries buf) {sz : Nat}
    (hsz : entries.length ≤ sz) : entries <+: repairEntries sz buf := by
  induction hbegins generalizing sz with
  | nil buf => exact List.nil_prefix
  | cons key val buf rest after entries hkey hne hval hrest ih =>
    cases sz with
    | zero => cases hsz
    | succ sz =>
      rw [repairEntries, hkey]
      dsimp only
      rw [if_neg fun hempty => hne (List.isEmpty_iff.mp hempty), hval]
      exact (List.prefix_cons_inj _).mpr (ih (Nat.le_of_succ_le_succ hsz))

theorem isRepaired_repair (x : InlineBytes) : IsRepaired x x.repair := by
  refine ⟨validate_repair x, fun sz buf hversion hheader => ?_, fun hbad => ?_⟩
  · have hne : x.isEmpty = false := by
      cases x with
      | nil => cases hheader
      | cons => rfl
    obtain ⟨hstorable, hlength⟩ := repairEntries_storable (readMapHeaderBytes_lt hheader) buf
    have hpairs : x.repair.pairs = repairEntries sz buf := by
      rw [repair, hne, hversion, hheader]
      exact pairs_serialize hstorable
    rw [hpairs]
    exact ⟨beginsWith_repairEntries sz buf, hlength, fun entries hbegins hle =>
      hbegins.prefix_repairEntries hle⟩
  · have hrepair : x.repair = [] := by
      rw [repair]
      split
      next hempty => exact List.isEmpty_iff.mp hempty
      next =>
        split
        next => rfl
        next hversion =>
          rcases hbad with hbad | hbad
          · rw [hbad] at hversion
            exact absurd rfl hversion
          · rw [hbad]
    rw [hrepair]
    rfl

/-- On valid data an operation is its update of a finite map exactly when what
it puts in fits; `find` and `list` read one map, and a repair of any bytes keeps
all that can be read. -/
theorem apply_isMap_iff (hvalid : x.validate = true) (op : InlineOp) :
    (IsMap (op.apply x) (op.onMap x.find) ↔ op.Fits x) ∧
      (∃ keys, x.list = (keys, true) ∧ ∀ key, key ∈ keys ↔ (x.find key).isSome = true) ∧
      ∀ y : InlineBytes, IsRepaired y y.repair := by
  have hholds := holdsPairs_of_validate hvalid
  refine ⟨?_, ⟨_, hholds.listed, fun key => ?_⟩, isRepaired_repair⟩
  · cases op with
    | replace key value => exact replace_isMap_iff hvalid key value
    | rename oldKey newKey => exact rename_isMap_iff hvalid oldKey newKey
    | remove keys => exact remove_isMap_iff hvalid keys
  · rw [hholds.found, Pairs.value_isSome]

/-- Data, and the map that it is to be. -/
def InlineOp.step (s : InlineBytes × (Bytes → Option Bytes)) (op : InlineOp) :
    InlineBytes × (Bytes → Option Bytes) := (op.apply s.1, op.onMap s.2)

theorem step_isMap_iff {s : InlineBytes × (Bytes → Option Bytes)} (hs : IsMap s.1 s.2)
    (op : InlineOp) : IsMap (op.step s).1 (op.step s).2 ↔ op.Fits s.1 := by
  rw [InlineOp.step, ← funext hs.finds]
  cases op with
  | replace key value => exact replace_isMap_iff hs.validates key value
  | rename oldKey newKey => exact rename_isMap_iff hs.validates oldKey newKey
  | remove keys => exact remove_isMap_iff hs.validates keys

/-- Data that is empty at first stays a finite map exactly when every operation of a history fits
what it finds. -/
theorem always_isMap_iff (ops : List InlineOp) :
    Always InlineOp.step (fun s => IsMap s.1 s.2) ([], fun _ => none) ops ↔
      Guarded InlineOp.step (fun s op => op.Fits s.1) ([], fun _ => none) ops :=
  always_iff_guarded (fun _ op hs => (step_isMap_iff hs op).mpr) (fun _ => id)
    (fun _ op hs => mt (step_isMap_iff hs op).mp)
    ⟨rfl, fun _ => rfl, [], rfl, .nil, fun _ => by simp⟩

def twoPairs : InlineBytes := serialize [([0x61], [1]), ([0x62], [2])]

theorem validate_twoPairs : twoPairs.validate = true := by decide

/-- A rename to a key in use leaves two pairs of that key. -/
theorem twoPairs_rename_not_isMap :
    twoPairs.validate = true ∧
      ¬ IsMap ((InlineOp.rename [0x62] [0x61]).apply twoPairs)
        ((InlineOp.rename [0x62] [0x61]).onMap twoPairs.find) := by
  refine ⟨validate_twoPairs, fun hismap => ?_⟩
  have hfind := hismap.finds [0x61]
  exact absurd hfind (by decide)

/-- A rename to a key that is not in use is one. -/
theorem twoPairs_rename_isMap :
    IsMap ((InlineOp.rename [0x62] [0x63]).apply twoPairs)
      ((InlineOp.rename [0x62] [0x63]).onMap twoPairs.find) := by
  refine ((apply_isMap_iff validate_twoPairs _).1).mpr ⟨by decide, fun _ => ?_⟩
  decide

end InlineBytes

end Fs3
