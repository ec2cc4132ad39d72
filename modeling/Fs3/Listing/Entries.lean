import Mathlib.Data.Char
import Fs3.Foundation.PrefixOrder

/-! # Entries of a listing

A listing of a bucket is a stream of entries in the order of their names: objects with their
metadata, and directories without any. -/

namespace Fs3.Listing

open Foundation

/-- A name, by its characters. -/
abbrev Name := List Char

theorem name_not_lt {name name' : Name} : ¬ name < name' ↔ name' ≤ name := not_lt

def slashSeparator : Name := ['/']

/-- `strings.Index`: where a text first occurs in another. -/
def index (sub : Name) : Name → Option Nat
  | [] => if sub = [] then some 0 else none
  | c :: rest => if sub.isPrefixOf (c :: rest) then some 0 else (index sub rest).map (· + 1)

/-- `strings.TrimPrefix`. -/
def trimPrefix (name dir : Name) : Name :=
  if dir.isPrefixOf name then name.drop dir.length else name

/-- `strings.TrimSuffix`. -/
def trimSuffix (name suffix : Name) : Name :=
  if suffix.isSuffixOf name then name.take (name.length - suffix.length) else name

def globalDirSuffix : Name := "__XLDIR__".toList

def encodeDirObject (object : Name) : Name :=
  if slashSeparator.isSuffixOf object then trimSuffix object slashSeparator ++ globalDirSuffix
  else object

def decodeDirObject (object : Name) : Name :=
  if globalDirSuffix.isSuffixOf object then trimSuffix object globalDirSuffix ++ slashSeparator
  else object

/-- What a listing looks at in the metadata of an object. -/
class ObjectMetadata (μ : Type) where
  /-- Whether the latest version is a delete marker. -/
  latestDeleted : μ → Bool

/-- `metaCacheEntry`. No entry is without a name: the zero value stands for none. -/
structure MetaCacheEntry (μ : Type) where
  name : Name
  metadata : Option μ
  named : name ≠ []
  deriving DecidableEq

namespace MetaCacheEntry

variable {μ : Type} (e : MetaCacheEntry μ)

def isDir : Bool := e.metadata.isNone

def isObject : Bool := e.metadata.isSome

def hasPrefix (s : Name) : Bool := s.isPrefixOf e.name

def isInDir (dir separator : Name) : Bool :=
  if dir = [] then
    match index separator e.name with
    | none => true
    | some idx => idx == e.name.length - separator.length
  else
    let ext := trimPrefix e.name dir
    if ext.length ≠ e.name.length then
      match index separator ext with
      | none => true
      | some idx => idx == ext.length - separator.length
    else false

def isLatestDeletemarker [ObjectMetadata μ] : Bool :=
  match e.metadata with
  | none => false
  | some metadata => ObjectMetadata.latestDeleted metadata

theorem isObject_eq : e.isObject = !e.isDir := by
  rw [isObject, isDir]
  cases e.metadata <;> rfl

theorem hasPrefix_iff {s : Name} : e.hasPrefix s = true ↔ s <+: e.name :=
  List.isPrefixOf_iff_prefix

end MetaCacheEntry

/-- What `listPathOptions` says about the entries that are wanted. -/
structure ListPathOptions where
  namePrefix : Name := []
  marker : Name := []
  limit : Int
  inclDeleted : Bool := false
  recursive : Bool := false
  separator : Name := slashSeparator
  includeDirectories : Bool := false

namespace ListPathOptions

variable {μ : Type} [ObjectMetadata μ] (o : ListPathOptions)

/-- The loop of `gatherResults`, with whether the input came to its end. -/
def gatherLoop (results : List (MetaCacheEntry μ)) :
    List (MetaCacheEntry μ) → List (MetaCacheEntry μ) × Bool
  | [] => (results, true)
  | entry :: rest =>
    if !o.includeDirectories && entry.isDir then gatherLoop results rest
    else if o.marker ≠ [] ∧ entry.name < o.marker then gatherLoop results rest
    else if !entry.hasPrefix o.namePrefix then gatherLoop results rest
    else if !o.recursive && !entry.isInDir o.namePrefix o.separator then gatherLoop results rest
    else if !o.inclDeleted && entry.isObject && entry.isLatestDeletemarker then
      gatherLoop results rest
    else if 0 < o.limit ∧ o.limit ≤ results.length then (results, false)
    else gatherLoop (results ++ [entry]) rest

/-- `gatherResults`: the entries that a stream has for the options. -/
def gatherResults (stream : List (MetaCacheEntry μ)) : List (MetaCacheEntry μ) × Bool :=
  o.gatherLoop [] stream

def keeps (entry : MetaCacheEntry μ) : Bool :=
  (o.includeDirectories || entry.isObject) && decide (o.marker ≤ entry.name) &&
    entry.hasPrefix o.namePrefix && (o.recursive || entry.isInDir o.namePrefix o.separator) &&
    (o.inclDeleted || !entry.isLatestDeletemarker)

theorem keeps_iff {entry : MetaCacheEntry μ} :
    o.keeps entry = true ↔
      (o.includeDirectories = true ∨ entry.isObject = true) ∧ o.marker ≤ entry.name ∧
        o.namePrefix <+: entry.name ∧
        (o.recursive = true ∨ entry.isInDir o.namePrefix o.separator = true) ∧
        (o.inclDeleted = true ∨ entry.isLatestDeletemarker = false) := by
  simp [keeps, MetaCacheEntry.hasPrefix_iff, and_assoc]

omit [ObjectMetadata μ] in
theorem marker_le_iff {entry : MetaCacheEntry μ} :
    o.marker ≤ entry.name ↔ ¬ (o.marker ≠ [] ∧ entry.name < o.marker) := by
  rw [not_and, name_not_lt]
  refine ⟨fun hle _ => hle, fun hle => ?_⟩
  by_cases hmarker : o.marker = []
  · rw [hmarker]
    exact le_of_isPrefix List.nil_prefix
  · exact hle hmarker

/-- One turn of the loop. -/
theorem gatherLoop_cons (results : List (MetaCacheEntry μ)) (entry : MetaCacheEntry μ)
    (rest : List (MetaCacheEntry μ)) :
    o.gatherLoop results (entry :: rest) =
      if o.keeps entry = false then o.gatherLoop results rest
      else if 0 < o.limit ∧ o.limit ≤ results.length then (results, false)
      else o.gatherLoop (results ++ [entry]) rest := by
  have hskip : ∀ {c : Prop} [Decidable c] {next other : List (MetaCacheEntry μ) × Bool},
      (c → o.keeps entry = false) →
      (¬ c → other = if o.keeps entry = false then o.gatherLoop results rest else next) →
      (if c then o.gatherLoop results rest else other) =
        if o.keeps entry = false then o.gatherLoop results rest else next := by
    intro c _ next other hc hother
    split
    next h => rw [if_pos (hc h)]
    next h => exact hother h
  rw [gatherLoop]
  refine hskip (fun hdir => ?_) fun hdir => ?_
  · simp_all [keeps, MetaCacheEntry.isObject_eq]
  refine hskip (fun hmarker => ?_) fun hmarker => ?_
  · have hlt := o.marker_le_iff.not.mpr (not_not.mpr hmarker)
    simp [keeps, hlt]
  refine hskip (fun hpre => ?_) fun hpre => ?_
  · simp_all [keeps]
  refine hskip (fun hin => ?_) fun hin => ?_
  · simp_all [keeps]
  refine hskip (fun hdeleted => ?_) fun hdeleted => ?_
  · simp_all [keeps]
  have hkeeps : o.keeps entry = true := by
    have hle := o.marker_le_iff.mpr hmarker
    simp only [Bool.and_eq_true, Bool.not_eq_true', not_and, Bool.not_eq_true,
      Bool.not_eq_false] at hdir hpre hin hdeleted
    rw [keeps_iff]
    refine ⟨?_, hle, entry.hasPrefix_iff.mp hpre, ?_, ?_⟩
    · cases hinclude : o.includeDirectories with
      | true => exact Or.inl rfl
      | false => exact Or.inr (by rw [entry.isObject_eq, hdir hinclude]; rfl)
    · cases hrecursive : o.recursive with
      | true => exact Or.inl rfl
      | false => exact Or.inr (hin hrecursive)
    · cases hincl : o.inclDeleted with
      | true => exact Or.inl rfl
      | false =>
        refine Or.inr ?_
        cases hobject : entry.isObject with
        | true => exact hdeleted ⟨hincl, hobject⟩
        | false =>
          rw [MetaCacheEntry.isObject, Option.isSome_eq_false_iff, Option.isNone_iff_eq_none]
            at hobject
          rw [MetaCacheEntry.isLatestDeletemarker, hobject]
  simp only [hkeeps, Bool.true_eq_false, if_false]

theorem gatherLoop_fst (hlimit : 0 < o.limit) (stream : List (MetaCacheEntry μ))
    {results : List (MetaCacheEntry μ)} (hresults : results.length ≤ o.limit.toNat) :
    (o.gatherLoop results stream).1 =
      (results ++ stream.filter o.keeps).take o.limit.toNat := by
  induction stream generalizing results with
  | nil => simp [gatherLoop, List.take_of_length_le hresults]
  | cons entry rest ih =>
    rw [gatherLoop_cons]
    split
    next hskip =>
      rw [ih hresults, List.filter_cons_of_neg (by simp [hskip])]
    next hkeeps =>
      rw [Bool.not_eq_false] at hkeeps
      rw [List.filter_cons_of_pos hkeeps]
      split
      next hfull =>
        have hlength : results.length = o.limit.toNat := by omega
        rw [← hlength, List.take_left]
      next hroom =>
        rw [ih (by rw [List.length_append, List.length_singleton]; omega), List.append_assoc,
          List.singleton_append]

theorem gatherLoop_snd (hlimit : 0 < o.limit) (stream : List (MetaCacheEntry μ))
    {results : List (MetaCacheEntry μ)} (hresults : results.length ≤ o.limit.toNat) :
    (o.gatherLoop results stream).2 =
      decide (results.length + (stream.filter o.keeps).length ≤ o.limit.toNat) := by
  induction stream generalizing results with
  | nil => simp [gatherLoop, hresults]
  | cons entry rest ih =>
    rw [gatherLoop_cons]
    split
    next hskip =>
      rw [ih hresults, List.filter_cons_of_neg (by simp [hskip])]
    next hkeeps =>
      rw [Bool.not_eq_false] at hkeeps
      rw [List.filter_cons_of_pos hkeeps, List.length_cons]
      split
      next hfull =>
        refine (decide_eq_false ?_).symm
        omega
      next hroom =>
        rw [ih (by rw [List.length_append, List.length_singleton]; omega), List.length_append,
          List.length_singleton, Nat.add_assoc, Nat.add_comm 1]

end ListPathOptions

end Fs3.Listing
