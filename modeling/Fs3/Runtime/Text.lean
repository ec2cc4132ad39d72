import Mathlib.Data.List.Basic

/-! # Strings as the metadata code compares them

Header and metadata keys are compared after lower-casing, always against an ASCII constant. Only
that comparison is modelled: two runes outside ASCII fold to an ASCII letter, every other one stays
outside ASCII and never matches. -/

namespace Fs3

/-- Contents of a file or of an inlined object. -/
abbrev Bytes := List UInt8

instance : LawfulBEq Bytes := inferInstanceAs (LawfulBEq (List UInt8))

/-- Lower case of one rune. `U+0130` and `U+212A` are the two runes outside
ASCII whose lower case is an ASCII letter. -/
def lowerRune (rune : Char) : Char :=
  if rune = Char.ofNat 0x130 then 'i'
  else if rune = Char.ofNat 0x212a then 'k'
  else rune.toLower

/-- `strings.ToLower`, for comparison with ASCII constants. -/
def toLower (text : String) : String :=
  String.ofList (text.toList.map lowerRune)

/-- `strings.ToUpper` on ASCII; other runes are taken as they are. -/
def toUpper (text : String) : String :=
  String.ofList (text.toList.map Char.toUpper)

/-- `strings.Split` at every occurrence of one rune. -/
def splitAll (text : String) (sep : Char) : List String :=
  (text.toList.splitOn sep).map String.ofList

/-- `strings.HasPrefix`. -/
def hasPrefix (text pre : String) : Bool :=
  pre.toList.isPrefixOf text.toList

theorem hasPrefix_iff {text pre : String} :
    hasPrefix text pre = true ↔ pre.toList <+: text.toList := List.isPrefixOf_iff_prefix

theorem hasPrefix_or_hasPrefix {text pre other : String} (hpre : hasPrefix text pre = true)
    (hother : hasPrefix text other = true) :
    hasPrefix pre other = true ∨ hasPrefix other pre = true := by
  rw [hasPrefix_iff] at *
  rw [hasPrefix_iff]
  exact (List.prefix_or_prefix_of_prefix hpre hother).symm

theorem hasPrefix_append {text pre : String} (hpre : hasPrefix text pre = true) (more : String) :
    hasPrefix (text ++ more) pre = true := by
  rw [hasPrefix_iff] at *
  rw [String.toList_append]
  exact hpre.trans (List.prefix_append _ _)

theorem not_mem_of_mem_splitOn {sep : Char} {runes part : List Char}
    (hpart : part ∈ runes.splitOn sep) : sep ∉ part := by
  induction runes generalizing part with
  | nil =>
    rw [List.splitOn_nil, List.mem_singleton] at hpart
    rw [hpart]
    exact List.not_mem_nil
  | cons rune runes ih =>
    rw [List.splitOn_cons_eq_if_modifyHead] at hpart
    split at hpart
    next =>
      rcases List.mem_cons.mp hpart with rfl | hpart
      · exact List.not_mem_nil
      · exact ih hpart
    next hne =>
      cases hparts : runes.splitOn sep with
      | nil => exact absurd hparts (List.splitOn_ne_nil sep runes)
      | cons first rest =>
        rw [hparts, List.modifyHead_cons] at hpart
        rw [hparts] at ih
        rcases List.mem_cons.mp hpart with rfl | hpart
        · intro hmem
          rcases List.mem_cons.mp hmem with rfl | hmem
          · exact hne (beq_self_eq_true sep)
          · exact ih List.mem_cons_self hmem
        · exact ih (List.mem_cons_of_mem first hpart)

theorem splitAll_intercalate {texts : List String} {sep : Char}
    (hsep : ∀ text ∈ texts, sep ∉ text.toList) (hne : texts ≠ []) :
    splitAll (String.ofList ([sep].intercalate (texts.map String.toList))) sep = texts := by
  have hparts : ∀ part ∈ texts.map String.toList, sep ∉ part := by
    intro part hpart
    obtain ⟨text, htext, rfl⟩ := List.mem_map.mp hpart
    exact hsep text htext
  have hmap : texts.map String.toList ≠ [] := fun h => hne (List.map_eq_nil_iff.mp h)
  rw [splitAll, String.toList_ofList, List.splitOn_intercalate sep hparts hmap, List.map_map]
  exact (List.map_congr_left fun text _ => String.ofList_toList).trans (List.map_id texts)

def equals (key : String) (keys : List String) : Bool :=
  keys.any fun other => toLower key == toLower other

/-- `unicode.IsSpace`. -/
def isSpace (rune : Char) : Bool :=
  rune.toNat ∈ [0x09, 0x0a, 0x0b, 0x0c, 0x0d, 0x20, 0x85, 0xa0, 0x1680, 0x2028, 0x2029, 0x202f,
    0x205f, 0x3000] || (0x2000 ≤ rune.toNat && rune.toNat ≤ 0x200a)

/-- `strings.TrimSpace` on the runes of a text. -/
def trimSpace (runes : List Char) : List Char :=
  ((runes.dropWhile isSpace).reverse.dropWhile isSpace).reverse

/-- `strings.SplitN(_, sep, 2)`: the second part is there when `sep` occurs. -/
def splitAtFirst (sep : Char) : List Char → List Char × Option (List Char)
  | [] => ([], none)
  | rune :: runes =>
    if rune = sep then ([], some runes)
    else (rune :: (splitAtFirst sep runes).1, (splitAtFirst sep runes).2)

end Fs3
