import Fs3.Foundation.SlashPath
import Fs3.Listing.Entries

/-! # The keys of a path

The tracker puts a key into its filter for a path and for every directory above it, and looks a
directory up under the key of its cleaned path. -/

namespace Fs3.Tracker

open Foundation Foundation.SlashPath Listing

/-- `hashPath`. -/
def hashPath (data : Name) : Name :=
  clean (if data ≠ slashSeparator then
    (data.dropWhile (· = '/')).rdropWhile (· = '/') else data)

/-- `splitPathDeterministic` with the loops that trim its ends. -/
def trimParts (parts : List Part) : List Part :=
  (parts.dropWhile fun part => part = [] ∨ part = dot).rdropWhile (· = [])

def splitPathDeterministic (path : Name) : List Part := trimParts (split (decodeDirObject path))

def updateKeys (path : Name) : List Name :=
  let parts := splitPathDeterministic path
  (List.range parts.length).map fun i => hashPath (joinPath (parts.take (i + 1)))

/-- The key that `containsDir` tests, if there is one. -/
def dirKey (dir : Name) : Option Name :=
  match splitPathDeterministic (clean dir) with
  | [] => none
  | parts => some (hashPath (joinPath parts))

/-- Another spelling of a path, or of a directory above it. -/
structure Above (dir path : Name) : Prop where
  nonempty : elementsOf dir ≠ []
  starts : elementsOf dir <+: elementsOf path

def isDirObject (part : Part) : Bool := globalDirSuffix.isSuffixOf part

/-- The paths whose updates are found again: no directory above is named like a directory
object, a directory object itself is not written with more after its name and has a name
before the suffix, and a path that begins with a slash has no two dots. -/
structure Plain (path : Name) : Prop where
  above : ∀ part ∈ (elementsOf path).dropLast, isDirObject part = false
  last : ∀ part ∈ (elementsOf path).getLast?, isDirObject part = true → isDirObject path = true
  named : elementsOf path ≠ [globalDirSuffix] ∧ elementsOf path ≠ [dot ++ globalDirSuffix]
  rooted : isRooted path = true → dotdot ∉ split path

/-! ## Trimming -/

theorem exists_trimParts (parts : List Part) : ∃ before after,
    parts = before ++ trimParts parts ++ after ∧
      (∀ part ∈ before, part = [] ∨ part = dot) ∧ ∀ part ∈ after, part = [] := by
  let p : Part → Bool := fun part => part = [] ∨ part = dot
  refine ⟨parts.takeWhile p, (parts.dropWhile p).rtakeWhile (· = []), ?_, ?_, ?_⟩
  · unfold trimParts
    rw [List.append_assoc, List.rdropWhile_append_rtakeWhile, List.takeWhile_append_dropWhile]
  · intro part hmem
    simpa [p] using List.mem_takeWhile_imp hmem
  · intro part hmem
    simpa using List.mem_rtakeWhile_imp hmem

theorem head_trimParts {parts rest : List Part} {first : Part}
    (htrim : trimParts parts = first :: rest) : first ≠ [] ∧ first ≠ dot := by
  have hfront : trimParts parts <+: parts.dropWhile fun part => part = [] ∨ part = dot :=
    List.rdropWhile_prefix _ _
  rw [htrim] at hfront
  obtain ⟨after, hafter⟩ := hfront
  have hhead := List.head?_dropWhile_not (fun part : Part => decide (part = [] ∨ part = dot)) parts
  rw [← hafter] at hhead
  simpa using hhead

theorem elements_trimParts (parts : List Part) :
    elements false (trimParts parts) = elements false parts := by
  obtain ⟨before, after, hparts, hbefore, hafter⟩ := exists_trimParts parts
  conv_rhs => rw [hparts]
  rw [List.append_assoc, elements_noops_append false hbefore,
    elements_append_noops false _ fun part hmem => Or.inl (hafter part hmem)]

theorem exists_take_trimParts {parts start : List Part} {i : Nat}
    (hstart : elements false (parts.take (i + 1)) = start) (hne : start ≠ []) :
    ∃ j < (trimParts parts).length,
      elements false ((trimParts parts).take (j + 1)) = start := by
  obtain ⟨before, after, hparts, hbefore, hafter⟩ := exists_trimParts parts
  generalize trimParts parts = trimmed at *
  rw [hparts, List.append_assoc, List.take_append, elements_append] at hstart
  have hnoops : elements false (before.take (i + 1)) = [] := by
    rw [elements, foldl_push_noops [] fun part hmem => hbefore part (List.mem_of_mem_take hmem)]
  rw [hnoops, List.take_append, List.foldl_append, foldl_push_noops _ fun part hmem =>
    Or.inl (hafter part (List.mem_of_mem_take hmem))] at hstart
  change elements false (trimmed.take (i + 1 - before.length)) = start at hstart
  have hpositive : trimmed.take (i + 1 - before.length) ≠ [] := by
    intro hnil
    rw [hnil] at hstart
    exact hne hstart.symm
  have hlength := List.length_pos_iff.mpr hpositive
  rw [List.length_take] at hlength
  refine ⟨min (i + 1 - before.length) trimmed.length - 1, by omega, ?_⟩
  have hsucc : min (i + 1 - before.length) trimmed.length - 1 + 1 =
      min (i + 1 - before.length) trimmed.length := by omega
  rw [hsucc, ← List.take_eq_take_min, hstart]

theorem trimParts_ne_nil {parts : List Part} (hname : ∃ part ∈ parts, part ≠ [] ∧ part ≠ dot) :
    trimParts parts ≠ [] := by
  intro hnil
  obtain ⟨part, hmem, hne, hdot⟩ := hname
  obtain ⟨before, after, hparts, hbefore, hafter⟩ := exists_trimParts parts
  rw [hparts, hnil, List.append_nil] at hmem
  rcases List.mem_append.mp hmem with hmem | hmem
  · exact (hbefore part hmem).elim hne hdot
  · exact hne (hafter part hmem)

theorem exists_name {parts : List Part} (hne : elements false parts ≠ []) :
    ∃ part ∈ parts, part ≠ [] ∧ part ≠ dot := by
  by_contra hnone
  refine hne (foldl_push_noops [] fun part hmem => ?_)
  by_contra hname
  rw [not_or] at hname
  exact hnone ⟨part, hmem, hname⟩

theorem trimParts_of_isClean {els : List Part} (hclean : IsClean els) (rooted : Bool) :
    trimParts (if rooted then [] :: els else els) = els := by
  have hkeep : trimParts els = els := by
    have hdrop : els.dropWhile (fun part => decide (part = [] ∨ part = dot)) = els := by
      cases els with
      | nil => rfl
      | cons first rest =>
        obtain ⟨hne, hdot, -⟩ := hclean.parts first List.mem_cons_self
        exact List.dropWhile_cons_of_neg (by simp [hne, hdot])
    unfold trimParts
    rw [hdrop, List.rdropWhile_eq_self_iff]
    intro hne
    simpa using (hclean.parts _ (List.getLast_mem hne)).1
  cases rooted with
  | true => exact hkeep
  | false => exact hkeep

/-- The key of parts is the path of their elements. -/
theorem hashPath_render {els : List Part} (hclean : IsClean els) :
    hashPath (render false els) = render false els := by
  unfold hashPath
  have htrim : ((render false els).dropWhile (· = '/')).rdropWhile (· = '/') =
      render false els := by
    rcases List.eq_nil_or_concat els with rfl | ⟨before, last, rfl⟩
    · decide
    · rw [List.concat_eq_append] at hclean ⊢
      obtain ⟨hne, -, hslash⟩ := hclean.parts last (by simp)
      obtain ⟨front, -, hsnoc⟩ := exists_render_snoc false before
      have hrooted : isRooted (render false (before ++ [last])) = false := by
        cases hcons : before ++ [last] with
        | nil => simp at hcons
        | cons first rest =>
          obtain ⟨hfirst, -, hfirstSlash⟩ := hclean.parts first (by simp [hcons])
          exact isRooted_join hfirst hfirstSlash rest
      have hdrop : (render false (before ++ [last])).dropWhile (fun c => decide (c = '/')) =
          render false (before ++ [last]) := by
        cases hpath : render false (before ++ [last]) with
        | nil => rfl
        | cons c rest =>
          rw [hpath] at hrooted
          exact List.dropWhile_cons_of_neg (by simpa [isRooted] using hrooted)
      rw [hdrop, List.rdropWhile_eq_self_iff]
      intro hpath
      have hlast : (render false (before ++ [last])).getLast hpath ∈ last := by
        rw [List.getLast_congr hpath (by simp [hne]) (hsnoc last),
          List.getLast_append_of_ne_nil _ hne]
        exact List.getLast_mem hne
      simp only [decide_eq_true_eq]
      exact fun heq => hslash (heq ▸ hlast)
  rw [htrim, ite_self, clean_render hclean]

theorem key_eq {first : Part} {rest : List Part} (hne : first ≠ [])
    (hslash : ∀ part ∈ first :: rest, '/' ∉ part) :
    hashPath (joinPath (first :: rest)) = render false (elements false (first :: rest)) := by
  rw [joinPath_cons hne hslash, hashPath_render (IsClean.elements false hslash)]

theorem not_mem_of_mem_splitPathDeterministic {path : Name} {part : Part}
    (hmem : part ∈ splitPathDeterministic path) : '/' ∉ part := by
  obtain ⟨before, after, hparts, -, -⟩ := exists_trimParts (split (decodeDirObject path))
  apply @not_mem_of_mem_split (decodeDirObject path)
  rw [hparts]
  exact List.mem_append_left _ (List.mem_append_right _ hmem)

theorem mem_updateKeys {path : Name} {j : Nat} (hj : j < (splitPathDeterministic path).length) :
    render false (elements false ((splitPathDeterministic path).take (j + 1))) ∈
      updateKeys path := by
  refine List.mem_map.mpr ⟨j, List.mem_range.mpr hj, ?_⟩
  cases hsplit : splitPathDeterministic path with
  | nil =>
    rw [hsplit] at hj
    cases hj
  | cons first rest =>
    obtain ⟨hne, -⟩ := head_trimParts hsplit
    refine key_eq hne fun part hmem => ?_
    apply @not_mem_of_mem_splitPathDeterministic path
    have htake : part ∈ (first :: rest).take (j + 1) := hmem
    rw [hsplit]
    exact List.mem_of_mem_take htake

theorem dirKey_eq {dir : Name} (hne : splitPathDeterministic (clean dir) ≠ []) :
    dirKey dir = some (render false (elements false (splitPathDeterministic (clean dir)))) := by
  unfold dirKey
  cases hsplit : splitPathDeterministic (clean dir) with
  | nil => exact absurd hsplit hne
  | cons first rest =>
    obtain ⟨hfirst, -⟩ := head_trimParts hsplit
    refine congrArg some (key_eq hfirst fun part hmem => ?_)
    apply @not_mem_of_mem_splitPathDeterministic (clean dir)
    rw [hsplit]
    exact hmem

theorem slash_not_mem_globalDirSuffix : '/' ∉ globalDirSuffix := by decide

theorem isDirObject_render (rooted : Bool) (els : List Part) (part : Part) :
    isDirObject (render rooted (els ++ [part])) = isDirObject part := by
  obtain ⟨before, hbefore, hsnoc⟩ := exists_render_snoc rooted els
  rw [hsnoc part]
  unfold isDirObject
  rw [Bool.eq_iff_iff, List.isSuffixOf_iff_suffix, List.isSuffixOf_iff_suffix]
  constructor
  · intro hsuffix
    rcases List.suffix_or_suffix_of_suffix hsuffix (List.suffix_append before part) with
      hpart | ⟨front, hfront⟩
    · exact hpart
    · rcases List.eq_nil_or_concat front with rfl | ⟨front, last, rfl⟩
      · rw [← hfront]
        exact List.suffix_rfl
      · -- The suffix would reach over the slash before the part.
        rw [← hfront, List.suffix_append_self_iff, List.concat_eq_append] at hsuffix
        obtain ⟨more, hmore⟩ := hsuffix
        rw [← hmore, ← List.append_assoc, List.getLast?_concat] at hbefore
        have hslash : last = '/' := by simpa using hbefore
        refine absurd ?_ slash_not_mem_globalDirSuffix
        rw [← hfront, hslash]
        simp
  · exact fun hpart => hpart.trans (List.suffix_append before part)

theorem decodeDirObject_of_not {path : Name} (hnot : isDirObject path = false) :
    decodeDirObject path = path := by
  unfold decodeDirObject
  exact if_neg (Bool.eq_false_iff.mp hnot)

theorem decodeDirObject_append (path : Name) :
    decodeDirObject (path ++ globalDirSuffix) = path ++ slashSeparator := by
  have hsuffix : globalDirSuffix.isSuffixOf (path ++ globalDirSuffix) = true :=
    List.isSuffixOf_iff_suffix.mpr (List.suffix_append _ _)
  unfold decodeDirObject trimSuffix
  rw [if_pos hsuffix, if_pos hsuffix, List.length_append, Nat.add_sub_cancel, List.take_left]

/-! ## The reader finds what the writer wrote -/

section Reader

variable {dir path : Name}

theorem dirKey_of_not {els : List Part} {last : Part} (hdir : elementsOf dir = els ++ [last])
    (hnot : isDirObject last = false) : dirKey dir = some (render false (els ++ [last])) := by
  have hclean := hdir ▸ IsClean.elementsOf dir
  have hsplit : splitPathDeterministic (clean dir) = els ++ [last] := by
    unfold splitPathDeterministic clean
    rw [hdir, decodeDirObject_of_not ((isDirObject_render _ els last).trans hnot),
      split_render _ (fun part hmem => (hclean.parts part hmem).2.2) (by simp),
      trimParts_of_isClean hclean]
  rw [dirKey_eq (by simp [hsplit]), hsplit, elements_of_isClean hclean]

/-- The key of a directory object, that of its name without the suffix. -/
theorem dirKey_of_dirObject {els : List Part} {name : Part}
    (hdir : elementsOf dir = els ++ [name ++ globalDirSuffix])
    (hnamed : els ≠ [] ∨ name ≠ [] ∧ name ≠ dot) :
    dirKey dir = some (render false (elements false (els ++ [name]))) := by
  have hclean := hdir ▸ IsClean.elementsOf dir
  have hels := hclean.of_initial (List.prefix_append els _)
  have hslash : ∀ part ∈ els ++ [name], '/' ∉ part := by
    intro part hmem
    rcases List.mem_append.mp hmem with hmem | hmem
    · exact (hels.parts part hmem).2.2
    · rw [List.mem_singleton.mp hmem]
      have hlast := (hclean.parts (name ++ globalDirSuffix) (by simp)).2.2
      exact fun hname => hlast (List.mem_append_left _ hname)
  obtain ⟨before, -, hsnoc⟩ := exists_render_snoc (isRooted dir) els
  have hdecode : decodeDirObject (clean dir) =
      render (isRooted dir) (els ++ [name]) ++ slashSeparator := by
    unfold clean
    rw [hdir, hsnoc, ← List.append_assoc, decodeDirObject_append, ← hsnoc]
  have hsplit : splitPathDeterministic (clean dir) =
      trimParts ((if isRooted dir then [] :: (els ++ [name]) else els ++ [name]) ++ [[]]) := by
    unfold splitPathDeterministic
    rw [hdecode, slashSeparator, split_slash, split_render _ hslash (by simp)]
  have helements : elements false (splitPathDeterministic (clean dir)) =
      elements false (els ++ [name]) := by
    rw [hsplit, elements_trimParts, elements_append_noops false _ (by simp)]
    cases isRooted dir with
    | true => exact @elements_noops_append false [[]] (by simp) (els ++ [name])
    | false => rfl
  rw [dirKey_eq, helements]
  rw [hsplit]
  apply trimParts_ne_nil
  have hname : ∃ part ∈ els ++ [name], part ≠ [] ∧ part ≠ dot := by
    rcases hnamed with hne | hname
    · obtain ⟨first, hfirst⟩ := List.exists_mem_of_ne_nil els hne
      obtain ⟨hfirstName, hfirstDot, -⟩ := hels.parts first hfirst
      exact ⟨first, List.mem_append_left _ hfirst, hfirstName, hfirstDot⟩
    · exact ⟨name, by simp, hname⟩
  obtain ⟨part, hmem, hpart⟩ := hname
  refine ⟨part, List.mem_append_left _ ?_, hpart⟩
  split
  · exact List.mem_cons_of_mem _ hmem
  · exact hmem

theorem mem_updateKeys_of_start {parts more start : List Part}
    (hsplit : split (decodeDirObject path) = parts ++ more)
    (hstart : start <+: elements false parts) (hne : start ≠ []) :
    render false start ∈ updateKeys path := by
  obtain ⟨i, hi, htake⟩ := exists_take hstart hne
  have hwhole : elements false ((parts ++ more).take (i + 1)) = start := by
    rw [List.take_append_of_le_length hi, htake]
  obtain ⟨j, hj, htrim⟩ := exists_take_trimParts hwhole hne
  rw [← hsplit] at hj htrim
  rw [← htrim]
  exact mem_updateKeys hj

theorem elementsOf_eq (hrooted : isRooted path = true → dotdot ∉ split path) :
    elementsOf path = elements false (split path) := by
  unfold elementsOf
  cases hroot : isRooted path with
  | true => exact elements_rooted (hrooted hroot)
  | false => rfl

/-- The key under which a directory above a plain path is looked up is one that the update
of the path has put into the filter. -/
theorem exists_mem_updateKeys (hplain : Plain path) (habove : Above dir path) :
    ∃ key ∈ updateKeys path, dirKey dir = some key := by
  obtain ⟨els, last, hdir⟩ : ∃ els last, elementsOf dir = els ++ [last] := by
    rcases List.eq_nil_or_concat (elementsOf dir) with hnil | ⟨els, last, hconcat⟩
    · exact absurd hnil habove.nonempty
    · exact ⟨els, last, hconcat.trans List.concat_eq_append⟩
  have hstarts := hdir ▸ habove.starts
  have helements := elementsOf_eq hplain.rooted
  cases hpath : isDirObject path with
  | false =>
    have hnot : isDirObject last = false := by
      by_contra hdirObject
      rw [Bool.not_eq_false] at hdirObject
      obtain ⟨more, hmore⟩ := hstarts
      rcases List.eq_nil_or_concat more with rfl | ⟨more, final, rfl⟩
      · rw [List.append_nil] at hmore
        rw [hplain.last last (by simp [← hmore]) hdirObject] at hpath
        cases hpath
      · rw [hplain.above last (by
          rw [← hmore, List.concat_eq_append, ← List.append_assoc, List.dropLast_concat]
          simp)] at hdirObject
        cases hdirObject
    refine ⟨_, ?_, dirKey_of_not hdir hnot⟩
    have hsplit : split (decodeDirObject path) = split path ++ [] := by
      rw [decodeDirObject_of_not hpath, List.append_nil]
    exact mem_updateKeys_of_start hsplit (helements ▸ hstarts) (by simp)
  | true =>
    obtain ⟨written, rfl⟩ := List.isSuffixOf_iff_suffix.mp hpath
    obtain ⟨before, name, hwritten⟩ : ∃ before name, split written = before ++ [name] := by
      rcases List.eq_nil_or_concat (split written) with hnil | ⟨before, name, hconcat⟩
      · exact absurd hnil (split_ne_nil written)
      · exact ⟨before, name, hconcat.trans List.concat_eq_append⟩
    have hsplit := split_append slash_not_mem_globalDirSuffix hwritten
    -- The name of a directory object is neither empty nor dots.
    have hpush : ∀ els, push false els (name ++ globalDirSuffix) =
        els ++ [name ++ globalDirSuffix] := by
      intro els
      have hlong : 2 < (name ++ globalDirSuffix).length := by
        rw [List.length_append, (by decide : globalDirSuffix.length = 9)]
        omega
      unfold push
      rw [if_neg, if_neg]
      · exact fun heq => absurd (heq ▸ hlong) (by decide)
      · rintro (heq | heq) <;> exact absurd (heq ▸ hlong) (by decide)
    have hlast : elementsOf (written ++ globalDirSuffix) =
        elements false before ++ [name ++ globalDirSuffix] := by
      rw [helements, hsplit, elements_snoc, hpush]
    have hdecoded : split (decodeDirObject (written ++ globalDirSuffix)) =
        before ++ [name] ++ [[]] := by
      rw [decodeDirObject_append, slashSeparator, split_slash, hwritten]
    rw [hlast] at hstarts
    rcases List.prefix_concat_iff.mp hstarts with hwhole | habove'
    · -- The directory is the path itself.
      obtain ⟨rfl, hlasts⟩ := List.append_inj' hwhole rfl
      rw [List.singleton_inj] at hlasts
      subst hlasts
      have hnamed : elements false before ≠ [] ∨ name ≠ [] ∧ name ≠ dot := by
        by_contra hnot
        rw [not_or, Decidable.not_not, not_and_or, Decidable.not_not, Decidable.not_not] at hnot
        have hnames := hplain.named
        rw [hlast, hnot.1] at hnames
        rcases hnot.2 with rfl | rfl
        · exact hnames.1 rfl
        · exact hnames.2 rfl
      have hclean := (hdir ▸ IsClean.elementsOf dir).of_initial (List.prefix_append _ _)
      refine ⟨_, ?_, dirKey_of_dirObject hdir hnamed⟩
      rw [elements_snoc, elements_of_isClean hclean, ← elements_snoc]
      have hne : splitPathDeterministic (written ++ globalDirSuffix) ≠ [] := by
        unfold splitPathDeterministic
        rw [hdecoded]
        rcases hnamed with hels | hname
        · obtain ⟨part, hmem, hpart⟩ := exists_name hels
          exact trimParts_ne_nil ⟨part, by simp [hmem], hpart⟩
        · exact trimParts_ne_nil ⟨name, by simp, hname⟩
      have hpositive := List.length_pos_iff.mpr hne
      have hkey := mem_updateKeys (Nat.sub_lt hpositive Nat.one_pos)
      rw [Nat.sub_add_cancel hpositive, List.take_length] at hkey
      have hwritten' : elements false (splitPathDeterministic (written ++ globalDirSuffix)) =
          elements false (before ++ [name]) := by
        unfold splitPathDeterministic
        rw [hdecoded, elements_trimParts, elements_append_noops false _ (by simp)]
      rw [hwritten'] at hkey
      exact hkey
    · -- It is above it.
      have hnot : isDirObject last = false := by
        refine hplain.above last ?_
        rw [hlast, List.dropLast_concat]
        exact habove'.subset (by simp)
      refine ⟨_, ?_, dirKey_of_not hdir hnot⟩
      rw [List.append_assoc] at hdecoded
      exact mem_updateKeys_of_start hdecoded habove' (by simp)

end Reader

end Fs3.Tracker
