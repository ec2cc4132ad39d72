import Mathlib.Data.List.Sort
import Fs3.Foundation.WaitingStack
import Fs3.Listing.Entries
import Fs3.Storage.Error

/-! # Walking the directories of a drive

`WalkDir` goes through a directory and what is below it, and puts out an entry for every object and
for every directory that holds something and is no object. -/

namespace Fs3.Listing

open Foundation

/-- What is on a drive: a file with what reads as its content, or a directory with
its entries in the order in which it is read. -/
inductive Node (μ : Type) where
  | file (content : Option μ)
  | dir (entries : List (Name × Node μ))

namespace Node

variable {μ : Type}

mutual

def depth : Node μ → Nat
  | .file _ => 0
  | .dir entries => entriesDepth entries + 1

def entriesDepth : List (Name × Node μ) → Nat
  | [] => 0
  | entry :: rest => max (entryDepth entry) (entriesDepth rest)

def entryDepth : Name × Node μ → Nat
  | (_, node) => node.depth

end

end Node

def xlStorageFormatFile : Name := "xl.meta".toList

def xlStorageFormatFileV1 : Name := "xl.json".toList

def globalDirSuffixWithSlash : Name := globalDirSuffix ++ slashSeparator

/-- An entry that the walk puts out. -/
structure WalkedEntry (μ : Type) where
  name : Name
  metadata : Option μ := none
  deriving DecidableEq

/-- `WalkDirOptions`, without the bucket. -/
structure WalkDirOptions where
  baseDir : List Name := []
  trailingSlash : Bool := false
  recursive : Bool := true
  reportNotFound : Bool := false
  filterPrefix : Name := []
  forwardTo : Name := []

section Reading

variable {μ : Type}

/-- How reading a file ends. -/
inductive ReadResult (μ : Type) where
  | ok (metadata : μ)
  | notExist
  | notDir
  | failed

def readFile (file : Name) : Node μ → ReadResult μ
  | .file _ => .notDir
  | .dir entries =>
    match entries.lookup file with
    | none => .notExist
    | some (.file (some metadata)) => .ok metadata
    | some (.file none) => .failed
    | some (.dir _) => .failed

/-- `ListDir`: directories are named with a slash. -/
def listDir (entries : List (Name × Node μ)) : List Name :=
  entries.map fun entry =>
    match entry.2 with
    | .file _ => entry.1
    | .dir _ => entry.1 ++ slashSeparator

/-- `pathJoin` of a directory and a name in it. -/
def joinName (current name : Name) : Name :=
  if name = [] then trimSuffix current slashSeparator else current ++ name

/-- The first loop over the entries of a directory: what is sorted afterwards, and the
directory objects among it; or the object that the directory itself is. -/
def classify (current namePrefix forward : Name) (entries : List (Name × Node μ)) :
    List Name → List Name → List Name → Except (WalkedEntry μ) (List Name × List Name)
  | kept, dirObjects, [] => .ok (kept, dirObjects)
  | kept, dirObjects, entry :: rest =>
    if namePrefix ≠ [] ∧ ¬ namePrefix.isPrefixOf entry then
      classify current namePrefix forward entries (kept ++ [entry]) dirObjects rest
    else if forward ≠ [] ∧ entry < forward then
      classify current namePrefix forward entries (kept ++ [entry]) dirObjects rest
    else if slashSeparator.isSuffixOf entry then
      if globalDirSuffixWithSlash.isSuffixOf entry then
        let entry := trimSuffix entry globalDirSuffixWithSlash ++ slashSeparator
        classify current namePrefix forward entries (kept ++ [entry]) (dirObjects ++ [entry]) rest
      else
        classify current namePrefix forward entries (kept ++ [trimSuffix entry slashSeparator])
          dirObjects rest
    else if xlStorageFormatFile.isSuffixOf entry then
      match readFile entry (.dir entries) with
      | .ok metadata =>
        .error
          { name := decodeDirObject (joinName current (trimSuffix
              (trimSuffix entry xlStorageFormatFile) slashSeparator))
            metadata := some metadata }
      | _ => classify current namePrefix forward entries kept dirObjects rest
    else if xlStorageFormatFileV1.isSuffixOf entry then
      match readFile entry (.dir entries) with
      | .ok metadata =>
        .error
          { name := joinName current (trimSuffix
              (trimSuffix entry xlStorageFormatFileV1) slashSeparator)
            metadata := some metadata }
      | _ => classify current namePrefix forward entries kept dirObjects rest
    else classify current namePrefix forward entries kept dirObjects rest

/-- What is put out, at once or from the stack: an object, or a directory with where
it is and what it holds. -/
inductive WalkItem (μ : Type) where
  | object (name : Name) (metadata : μ)
  | directory (name : Name) (path : Name) (entries : List (Name × Node μ))

def WalkItem.name : WalkItem μ → Name
  | object name _ => name
  | directory name _ _ => name

/-- What is put out of an item, with the scan of a directory after its entry. -/
def WalkItem.putOut (scan : Name → Name → List (Name × Node μ) → List (WalkedEntry μ)) :
    WalkItem μ → List (WalkedEntry μ)
  | object name metadata => [{ name, metadata := some metadata }]
  | directory name path children => { name } :: scan name path children

def visit (current : Name) (entries : List (Name × Node μ)) (dirObjects : List Name)
    (entry : Name) : Response (WalkItem μ) :=
  let isDirObj := entry ∈ dirObjects
  let dirName := trimSuffix entry slashSeparator
  -- Where the entry is on the drive.
  let file := if isDirObj then dirName ++ globalDirSuffix else dirName
  match entries.lookup file with
  | none => .pass
  | some node =>
    let name := current ++ (if isDirObj then file ++ slashSeparator else entry)
    match readFile xlStorageFormatFile node with
    | .ok metadata =>
      if isDirObj then
        .now (.object (trimSuffix name globalDirSuffixWithSlash ++ slashSeparator) metadata)
      else .now (.object name metadata)
    | .notExist =>
      match readFile xlStorageFormatFileV1 node, node with
      | .ok metadata, _ => .now (.object name metadata)
      | _, .dir children =>
        if isDirObj ∨ children = [] then .pass
        else .wait (.directory (name ++ slashSeparator)
          (current ++ dirName ++ slashSeparator) children)
      | _, .file _ => .pass
    | .notDir => .pass
    | .failed => .pass

def forwardBelow (forwardTo name : Name) : Name :=
  if forwardTo ≠ [] ∧ name.isPrefixOf forwardTo then trimPrefix forwardTo name else []

/-- `scanDir`; the fuel is for the directories below each other. -/
def scanDir (recursive : Bool) (forwardTo : Name) :
    Nat → Name → Name → Name → List (Name × Node μ) → List (WalkedEntry μ)
  | 0, _, _, _, _ => []
  | fuel + 1, namePrefix, forward, current, entries =>
    match classify current namePrefix forward entries [] [] (listDir entries) with
    | .error object => [object]
    | .ok (kept, dirObjects) =>
      (WaitingStack.run (current ++ ·) WalkItem.name (visit current entries dirObjects)
        (kept.insertionSort (· ≤ ·)) []).flatMap (WalkItem.putOut fun name path children =>
          if recursive then
            scanDir recursive forwardTo fuel [] (forwardBelow forwardTo name) path children
          else [])

def findDir : List Name → List (Name × Node μ) → Option (List (Name × Node μ))
  | [], entries => some entries
  | name :: path, entries =>
    match entries.lookup name with
    | some (.dir children) => findDir path children
    | _ => none

def dirName (path : List Name) : Name := path.flatMap (· ++ slashSeparator)

/-- The metadata of the directory object that goes by the path of a directory. -/
def baseDirObject (path : List Name) (bucket : List (Name × Node μ)) : Option μ :=
  match path.getLast? with
  | none => none
  | some last =>
    match findDir (path.dropLast ++ [last ++ globalDirSuffix]) bucket with
    | none => none
    | some entries =>
      match readFile xlStorageFormatFile (.dir entries) with
      | .ok metadata => some metadata
      | _ => none

def hasFormatFile (entries : List (Name × Node μ)) : Bool :=
  match entries.lookup xlStorageFormatFile with
  | some (.file _) => true
  | _ => false

/-- `xlStorage.WalkDir` on what is in a bucket. -/
def walkDir (opts : WalkDirOptions) (bucket : List (Name × Node μ)) :
    Except StorageErr (List (WalkedEntry μ)) :=
  let base := findDir opts.baseDir bucket
  let baseObject := if opts.trailingSlash then baseDirObject opts.baseDir bucket else none
  if opts.trailingSlash ∧ baseObject = none ∧ (base.elim false hasFormatFile) = true then
    .error .errFileNotFound
  else
    let first : List (WalkedEntry μ) :=
      baseObject.toList.map fun metadata =>
        { name := dirName opts.baseDir, metadata := some metadata }
    match base with
    | none =>
      if opts.reportNotFound then .error .errFileNotFound else .ok first
    | some entries =>
      .ok (first ++ scanDir opts.recursive opts.forwardTo (Node.dir entries).depth
        opts.filterPrefix opts.forwardTo (dirName opts.baseDir) entries)

end Reading

end Fs3.Listing

/-! ## Directory trees

What a walk can expect of the directories that it scans, and what it makes of their
entries: an accepted directory takes part in the sort under its decoded name, and
one that a filter has passed over under its name on the drive, slash included.
-/

namespace Fs3.Listing

open Foundation

variable {μ : Type}

def isEncoded (name : Name) : Bool := globalDirSuffix.isSuffixOf name

def objectMetadata (entries : List (Name × Node μ)) : Option μ :=
  match readFile xlStorageFormatFile (.dir entries) with
  | .ok metadata => some metadata
  | .notExist =>
    match readFile xlStorageFormatFileV1 (.dir entries) with
    | .ok metadata => some metadata
    | _ => none
  | _ => none

/-- A directory that is scanned: the names on the drive differ, its files are no metadata files, and
where a directory in it has an entry `xl.meta`, that is one. -/
structure RegularDir (entries : List (Name × Node μ)) : Prop where
  nodup : (entries.map Prod.fst).Nodup
  named : ∀ entry ∈ entries, entry.1 ≠ [] ∧ '/' ∉ entry.1 ∧ entry.1 ≠ globalDirSuffix
  files : ∀ name content, (name, .file content) ∈ entries →
    ¬ xlStorageFormatFile <:+ name ∧ ¬ xlStorageFormatFileV1 <:+ name
  readable : ∀ name children, (name, .dir children) ∈ entries →
    (∃ metadata, readFile xlStorageFormatFile (.dir children) = .ok metadata) ∨
      readFile xlStorageFormatFile (.dir children) = .notExist
  encoded : ∀ name children, (name, .dir children) ∈ entries → isEncoded name = true →
    readFile xlStorageFormatFile (.dir children) = .notExist → objectMetadata children = none

/-- A directory that a walk can go through: it and what is scanned below it is regular. -/
inductive Regular : List (Name × Node μ) → Prop
  | mk {entries : List (Name × Node μ)} (here : RegularDir entries)
      (below : ∀ name children, (name, .dir children) ∈ entries → isEncoded name = false →
        objectMetadata children = none → Regular children) : Regular entries

theorem isSuffixOf_append_slash {suffix name : Name} :
    (suffix ++ slashSeparator).isSuffixOf (name ++ slashSeparator) = suffix.isSuffixOf name := by
  rw [Bool.eq_iff_iff, List.isSuffixOf_iff_suffix, List.isSuffixOf_iff_suffix]
  constructor
  · rintro ⟨before, heq⟩
    rw [← List.append_assoc] at heq
    exact ⟨before, List.append_cancel_right heq⟩
  · rintro ⟨before, rfl⟩
    exact ⟨before, by rw [List.append_assoc]⟩

theorem isSuffixOf_slash (name : Name) :
    slashSeparator.isSuffixOf (name ++ slashSeparator) = true :=
  List.isSuffixOf_iff_suffix.mpr (List.suffix_append _ _)

theorem not_isSuffixOf_slash {name : Name} (hslash : '/' ∉ name) :
    slashSeparator.isSuffixOf name = false := by
  rw [Bool.eq_false_iff, ne_eq, List.isSuffixOf_iff_suffix]
  exact fun hsuffix => hslash (hsuffix.subset List.mem_cons_self)

@[simp]
theorem trimSuffix_append (name suffix : Name) : trimSuffix (name ++ suffix) suffix = name := by
  rw [trimSuffix, if_pos (List.isSuffixOf_iff_suffix.mpr (List.suffix_append _ _)),
    List.length_append, Nat.add_sub_cancel, List.take_left]

theorem trimSuffix_of_not {name suffix : Name} (hnot : suffix.isSuffixOf name = false) :
    trimSuffix name suffix = name := by
  rw [trimSuffix, hnot]
  rfl

@[simp]
theorem isEncoded_append (plain : Name) : isEncoded (plain ++ globalDirSuffix) = true :=
  List.isSuffixOf_iff_suffix.mpr (List.suffix_append _ _)

@[simp]
theorem decodeDirObject_append (plain : Name) :
    decodeDirObject (plain ++ globalDirSuffix) = plain ++ slashSeparator := by
  rw [decodeDirObject, if_pos, trimSuffix_append]
  exact isEncoded_append plain

theorem exists_of_isEncoded {name : Name} (hencoded : isEncoded name = true) :
    ∃ plain, name = plain ++ globalDirSuffix ∧ decodeDirObject name = plain ++ slashSeparator := by
  obtain ⟨plain, rfl⟩ := List.isSuffixOf_iff_suffix.mp hencoded
  exact ⟨plain, rfl, decodeDirObject_append plain⟩

theorem decodeDirObject_plain {name : Name} (hplain : isEncoded name = false) :
    decodeDirObject name = name := by
  rw [decodeDirObject, if_neg (by rw [← isEncoded, hplain]; exact Bool.false_ne_true)]

theorem decodeDirObject_inj {name name' : Name} (hslash : '/' ∉ name) (hslash' : '/' ∉ name')
    (heq : decodeDirObject name = decodeDirObject name') : name = name' := by
  cases hencoded : isEncoded name with
  | true =>
    obtain ⟨plain, rfl, hdecode⟩ := exists_of_isEncoded hencoded
    rw [hdecode] at heq
    cases hencoded' : isEncoded name' with
    | true =>
      obtain ⟨plain', rfl, hdecode'⟩ := exists_of_isEncoded hencoded'
      rw [hdecode'] at heq
      rw [List.append_cancel_right heq]
    | false =>
      rw [decodeDirObject_plain hencoded'] at heq
      rw [← heq] at hslash'
      exact absurd (List.mem_append_right _ List.mem_cons_self) hslash'
  | false =>
    rw [decodeDirObject_plain hencoded] at heq
    cases hencoded' : isEncoded name' with
    | true =>
      obtain ⟨plain', -, hdecode'⟩ := exists_of_isEncoded hencoded'
      rw [hdecode'] at heq
      rw [heq] at hslash
      exact absurd (List.mem_append_right _ List.mem_cons_self) hslash
    | false => rw [heq, decodeDirObject_plain hencoded']

/-! ## The first loop -/

section Classify

variable (namePrefix forward : Name)

/-- Whether the filters take an entry of `ListDir`. -/
def Accepts (entry : Name) : Prop :=
  (namePrefix = [] ∨ namePrefix <+: entry) ∧ (forward = [] ∨ forward ≤ entry)

instance : DecidablePred (Accepts namePrefix forward) := fun _ =>
  inferInstanceAs (Decidable (_ ∧ _))

def sortName : Name × Node μ → Option Name
  | (name, .file _) => if Accepts namePrefix forward name then none else some name
  | (name, .dir _) =>
    if Accepts namePrefix forward (name ++ slashSeparator) then some (decodeDirObject name)
    else some (name ++ slashSeparator)

def dirObjectName : Name × Node μ → Option Name
  | (_, .file _) => none
  | (name, .dir _) =>
    if Accepts namePrefix forward (name ++ slashSeparator) ∧ isEncoded name = true then
      some (decodeDirObject name)
    else none

variable {namePrefix forward}

theorem decodeDirObject_of_slash {name : Name} (hencoded : isEncoded name = true) :
    trimSuffix (name ++ slashSeparator) globalDirSuffixWithSlash ++ slashSeparator =
      decodeDirObject name := by
  obtain ⟨plain, rfl, hdecode⟩ := exists_of_isEncoded hencoded
  rw [hdecode, globalDirSuffixWithSlash, List.append_assoc, trimSuffix_append]

/-- The first loop comes to its end, with every entry under its name. -/
theorem classify_eq {entries : List (Name × Node μ)} (current : Name)
    {l : List (Name × Node μ)} (hslash : ∀ entry ∈ l, '/' ∉ entry.1)
    (hfiles : ∀ name content, (name, .file content) ∈ l →
      ¬ xlStorageFormatFile <:+ name ∧ ¬ xlStorageFormatFileV1 <:+ name)
    (kept dirObjects : List Name) :
    classify current namePrefix forward entries kept dirObjects (listDir l) =
      .ok (kept ++ l.filterMap (sortName namePrefix forward),
        dirObjects ++ l.filterMap (dirObjectName namePrefix forward)) := by
  induction l generalizing kept dirObjects with
  | nil => simp [listDir, classify]
  | cons entry rest ih =>
    have ih' := ih (fun entry' hmem => hslash entry' (List.mem_cons_of_mem _ hmem))
      fun name content hmem => hfiles name content (List.mem_cons_of_mem _ hmem)
    obtain ⟨name, node⟩ := entry
    have hname := hslash (name, node) List.mem_cons_self
    have hskip : ∀ {raw : Name}, ¬ Accepts namePrefix forward raw →
        classify current namePrefix forward entries kept dirObjects (raw :: listDir rest) =
          classify current namePrefix forward entries (kept ++ [raw]) dirObjects
            (listDir rest) := by
      intro raw hraw
      rw [classify]
      split
      next => rfl
      next hpre =>
        rw [if_pos]
        by_contra hforward
        refine hraw ⟨?_, ?_⟩
        · by_contra hnot
          rw [not_or, ← List.isPrefixOf_iff_prefix] at hnot
          exact hpre hnot
        · by_contra hnot
          rw [not_or, ← name_not_lt, not_not] at hnot
          exact hforward hnot
    have htake : ∀ {raw : Name}, Accepts namePrefix forward raw →
        ¬ (namePrefix ≠ [] ∧ ¬ namePrefix.isPrefixOf raw) ∧
          ¬ (forward ≠ [] ∧ raw < forward) := by
      rintro raw ⟨hpre, hforward⟩
      refine ⟨fun hnot => ?_, fun hnot => ?_⟩
      · rw [List.isPrefixOf_iff_prefix] at hnot
        exact hpre.elim hnot.1 hnot.2
      · rw [← not_le] at hnot
        exact hforward.elim hnot.1 hnot.2
    cases node with
    | file content =>
      change classify current namePrefix forward entries kept dirObjects
        (name :: listDir rest) = _
      by_cases haccepts : Accepts namePrefix forward name
      · obtain ⟨hmeta, hmeta1⟩ := hfiles name content List.mem_cons_self
        rw [← List.isSuffixOf_iff_suffix] at hmeta hmeta1
        rw [classify, if_neg (htake haccepts).1, if_neg (htake haccepts).2,
          if_neg (by rw [not_isSuffixOf_slash hname]; exact Bool.false_ne_true),
          if_neg hmeta, if_neg hmeta1, ih']
        rw [List.filterMap_cons_none (by rw [sortName, if_pos haccepts]),
          List.filterMap_cons_none (by rw [dirObjectName])]
      · rw [hskip haccepts, ih']
        rw [List.filterMap_cons_some (by rw [sortName, if_neg haccepts]),
          List.filterMap_cons_none (by rw [dirObjectName]), List.append_assoc]
        rfl
    | dir children =>
      change classify current namePrefix forward entries kept dirObjects
        ((name ++ slashSeparator) :: listDir rest) = _
      by_cases haccepts : Accepts namePrefix forward (name ++ slashSeparator)
      · rw [classify, if_neg (htake haccepts).1, if_neg (htake haccepts).2,
          if_pos (isSuffixOf_slash name)]
        have hsuffix : globalDirSuffixWithSlash.isSuffixOf (name ++ slashSeparator) =
            isEncoded name := isSuffixOf_append_slash
        rw [hsuffix, List.filterMap_cons_some (by rw [sortName, if_pos haccepts])]
        split
        next hencoded =>
          simp only
          rw [decodeDirObject_of_slash hencoded, ih',
            List.filterMap_cons_some (by rw [dirObjectName, if_pos ⟨haccepts, hencoded⟩]),
            List.append_assoc, List.append_assoc]
          rfl
        next hplain =>
          rw [trimSuffix_append, ih', List.filterMap_cons_none
            (by rw [dirObjectName, if_neg fun h => hplain h.2]),
            decodeDirObject_plain (Bool.eq_false_iff.mpr hplain), List.append_assoc]
          rfl
      · rw [hskip haccepts, ih', List.filterMap_cons_some (by rw [sortName, if_neg haccepts]),
          List.filterMap_cons_none (by rw [dirObjectName, if_neg fun h => haccepts h.1]),
          List.append_assoc]
        rfl

end Classify

/-! ## The second loop -/

section Visit

def outcome (current name : Name) (children : List (Name × Node μ)) : Response (WalkItem μ) :=
  match objectMetadata children with
  | some metadata => .now (.object (current ++ decodeDirObject name) metadata)
  | none =>
    if isEncoded name = true ∨ children = [] then .pass
    else .wait (.directory (current ++ name ++ slashSeparator)
      (current ++ name ++ slashSeparator) children)

variable {entries : List (Name × Node μ)} {current name : Name} {children : List (Name × Node μ)}

theorem lookup_of_mem (hnodup : (entries.map Prod.fst).Nodup) {node : Node μ}
    (hmem : (name, node) ∈ entries) : entries.lookup name = some node := by
  induction entries with
  | nil => cases hmem
  | cons entry rest ih =>
    obtain ⟨hnot, hrest⟩ := List.nodup_cons.mp hnodup
    rw [List.lookup_cons]
    rcases List.mem_cons.mp hmem with rfl | hmem
    · rw [beq_self_eq_true]
    · have hne : (name == entry.1) = false := by
        rw [beq_eq_false_iff_ne]
        rintro rfl
        exact hnot (List.mem_map.mpr ⟨_, hmem, rfl⟩)
      rw [hne]
      exact ih hrest hmem

theorem readFile_cases (hregular : RegularDir entries)
    (hmem : (name, .dir children) ∈ entries) :
    (∃ metadata, readFile xlStorageFormatFile (.dir children) = .ok metadata ∧
        objectMetadata children = some metadata) ∨
      readFile xlStorageFormatFile (.dir children) = .notExist ∧
        (∃ metadata, readFile xlStorageFormatFileV1 (.dir children) = .ok metadata ∧
            objectMetadata children = some metadata ∧ isEncoded name = false) ∨
      readFile xlStorageFormatFile (.dir children) = .notExist ∧
        (∀ metadata, readFile xlStorageFormatFileV1 (.dir children) ≠ .ok metadata) ∧
        objectMetadata children = none := by
  rcases hregular.readable name children hmem with ⟨metadata, hok⟩ | hnone
  · exact Or.inl ⟨metadata, hok, by rw [objectMetadata, hok]⟩
  · refine Or.inr ?_
    cases hlegacy : readFile xlStorageFormatFileV1 (.dir children) with
    | ok metadata =>
      have hobject : objectMetadata children = some metadata := by
        rw [objectMetadata, hnone]
        simp only [hlegacy]
      refine Or.inl ⟨hnone, metadata, rfl, hobject, ?_⟩
      by_contra hencoded
      rw [Bool.not_eq_false] at hencoded
      rw [hregular.encoded name children hmem hencoded hnone] at hobject
      cases hobject
    | notExist | notDir | failed =>
      refine Or.inr ⟨hnone, fun metadata => (nomatch ·), ?_⟩
      rw [objectMetadata, hnone]
      simp only [hlegacy]

/-- An entry under its decoded name is visited as the directory that it is. -/
theorem visit_decoded (hregular : RegularDir entries) (hmem : (name, .dir children) ∈ entries)
    {dirObjects : List Name} (hdirs : decodeDirObject name ∈ dirObjects ↔ isEncoded name = true) :
    visit current entries dirObjects (decodeDirObject name) = outcome current name children := by
  have hlookup := lookup_of_mem hregular.nodup hmem
  have hslash := (hregular.named _ hmem).2.1
  have hread := readFile_cases hregular hmem
  cases hencoded : isEncoded name with
  | true =>
    obtain ⟨plain, rfl, hdecode⟩ := exists_of_isEncoded hencoded
    have hdir : plain ++ slashSeparator ∈ dirObjects := by
      rw [← hdecode]
      exact hdirs.mpr hencoded
    have hname : trimSuffix (current ++ (plain ++ globalDirSuffix ++ slashSeparator))
        globalDirSuffixWithSlash ++ slashSeparator = current ++ (plain ++ slashSeparator) := by
      rw [globalDirSuffixWithSlash, List.append_assoc plain, ← List.append_assoc,
        trimSuffix_append, List.append_assoc]
    rw [hdecode, visit, outcome, hdecode]
    simp only [hdir, if_true, trimSuffix_append, hlookup, hname, hencoded,
      true_or]
    rcases hread with ⟨metadata, hok, hobject⟩ | ⟨hnone, metadata, hok, -, hplain⟩ |
      ⟨hnone, hnot, hobject⟩
    · simp only [hok, hobject]
    · rw [hencoded] at hplain
      cases hplain
    · -- The legacy file cannot be read either.
      simp only [hnone, hobject]
  | false =>
    have hdecode := decodeDirObject_plain hencoded
    have hdir : name ∉ dirObjects := by
      intro hdir
      rw [← hdecode] at hdir
      exact absurd (hdirs.mp hdir) (by rw [hencoded]; exact Bool.false_ne_true)
    rw [visit, outcome, hdecode]
    simp only [hdir, if_false, Bool.false_eq_true,
      trimSuffix_of_not (not_isSuffixOf_slash hslash), hlookup, hencoded, false_or]
    rcases hread with ⟨metadata, hok, hobject⟩ | ⟨hnone, metadata, hok, hobject, -⟩ |
      ⟨hnone, hnot, hobject⟩
    · simp only [hok, hobject]
    · simp only [hnone, hok, hobject]
    · -- The legacy file cannot be read either.
      simp only [hnone, hobject]

end Visit

end Fs3.Listing
