import Mathlib.Data.List.DropRight
import Mathlib.Data.List.Infix
import Fs3.Runtime.Text

/-! # Paths with slashes

A path is split at its slashes, and its elements are what is left of the parts when empty ones and
dots are passed over and two dots take the element before them away. -/

namespace Fs3.Foundation.SlashPath

abbrev Part := List Char

def dot : Part := ['.']

def dotdot : Part := ['.', '.']

/-- `strings.Split` at slashes. -/
def split (path : List Char) : List Part := path.splitOn '/'

/-- `strings.Join` with slashes. -/
def join (parts : List Part) : List Char := ['/'].intercalate parts

def push (rooted : Bool) (elements : List Part) (part : Part) : List Part :=
  if part = [] ∨ part = dot then elements
  else if part = dotdot then
    if elements = [] ∨ elements.getLast? = some dotdot then
      if rooted then elements else elements ++ [dotdot]
    else elements.dropLast
  else elements ++ [part]

def elements (rooted : Bool) (parts : List Part) : List Part := parts.foldl (push rooted) []

def isRooted (path : List Char) : Bool := path.head? == some '/'

def elementsOf (path : List Char) : List Part := elements (isRooted path) (split path)

def render (rooted : Bool) (elements : List Part) : List Char :=
  if rooted then '/' :: join elements else if elements = [] then dot else join elements

/-- `path.Clean`. -/
def clean (path : List Char) : List Char := render (isRooted path) (elementsOf path)

/-- `path.Join`. -/
def joinPath (parts : List Part) : List Char :=
  match parts.dropWhile (· = []) with
  | [] => []
  | rest => clean (join rest)

theorem not_mem_of_mem_split {path : List Char} {part : Part} (hpart : part ∈ split path) :
    '/' ∉ part := not_mem_of_mem_splitOn hpart

theorem split_join {parts : List Part} (hparts : ∀ part ∈ parts, '/' ∉ part) (hne : parts ≠ []) :
    split (join parts) = parts := List.splitOn_intercalate '/' hparts hne

theorem join_split (path : List Char) : join (split path) = path := List.intercalate_splitOn '/'

theorem split_ne_nil (path : List Char) : split path ≠ [] := List.splitOn_ne_nil '/' path

theorem join_snoc {parts : List Part} (hne : parts ≠ []) (part : Part) :
    join (parts ++ [part]) = join parts ++ '/' :: part := by
  unfold join
  induction parts with
  | nil => exact absurd rfl hne
  | cons first parts ih =>
    cases parts with
    | nil => simp [List.intercalate_cons_cons]
    | cons second parts =>
      simp only [List.cons_append, List.intercalate_cons_cons, List.append_assoc] at ih ⊢
      rw [ih (by simp)]

theorem join_snoc_append (before : List Part) (last suffix : Part) :
    join (before ++ [last ++ suffix]) = join (before ++ [last]) ++ suffix := by
  unfold join
  induction before with
  | nil => simp
  | cons first before ih =>
    cases before with
    | nil => simp [List.intercalate_cons_cons]
    | cons second before =>
      simp only [List.cons_append, List.intercalate_cons_cons, List.append_assoc] at ih ⊢
      rw [ih]

theorem split_append {path suffix : List Char} (hsuffix : '/' ∉ suffix) {before : List Part}
    {last : Part} (hsplit : split path = before ++ [last]) :
    split (path ++ suffix) = before ++ [last ++ suffix] := by
  have hpath : path ++ suffix = join (before ++ [last ++ suffix]) := by
    rw [join_snoc_append, ← hsplit, join_split]
  rw [hpath, split_join _ (by simp)]
  intro part hmem
  have hslash : ∀ part ∈ before ++ [last], '/' ∉ part := fun part hmem =>
    not_mem_of_mem_split (hsplit ▸ hmem)
  rcases List.mem_append.mp hmem with hmem | hmem
  · exact hslash part (List.mem_append_left _ hmem)
  · rw [List.mem_singleton.mp hmem, List.mem_append, not_or]
    exact ⟨hslash last (by simp), hsuffix⟩

theorem split_slash (path : List Char) : split (path ++ ['/']) = split path ++ [[]] := by
  exact List.splitOn_append_cons_self path []

theorem split_cons_slash (path : List Char) : split ('/' :: path) = [] :: split path := by
  exact List.splitOn_append_cons_self [] path

/-! ## Elements -/

/-- Elements of a path: names, after two dots at most. -/
structure IsClean (elements : List Part) : Prop where
  parts : ∀ part ∈ elements, part ≠ [] ∧ part ≠ dot ∧ '/' ∉ part
  dots : elements.Pairwise fun first second => second = dotdot → first = dotdot

namespace IsClean

variable {els els' : List Part} {part : Part}

theorem nil : IsClean [] := ⟨fun _ hmem => (nomatch hmem), List.Pairwise.nil⟩

theorem of_initial (hclean : IsClean els) (hfront : els' <+: els) : IsClean els' :=
  ⟨fun part hmem => hclean.parts part (hfront.subset hmem), hclean.dots.sublist hfront.sublist⟩

theorem snoc (hclean : IsClean els) (hne : part ≠ []) (hdot : part ≠ dot) (hslash : '/' ∉ part)
    (hdots : part = dotdot → ∀ first ∈ els, first = dotdot) : IsClean (els ++ [part]) where
  parts := by
    intro other hmem
    rcases List.mem_append.mp hmem with hmem | hmem
    · exact hclean.parts other hmem
    · rw [List.mem_singleton.mp hmem]
      exact ⟨hne, hdot, hslash⟩
  dots := by
    rw [List.pairwise_append]
    refine ⟨hclean.dots, List.pairwise_singleton _ _, fun first hfirst second hsecond heq => ?_⟩
    rw [List.mem_singleton] at hsecond
    exact hdots (hsecond ▸ heq) first hfirst

theorem of_getLast (hclean : IsClean els) (hlast : els.getLast? = some dotdot) :
    ∀ first ∈ els, first = dotdot := by
  obtain ⟨before, rfl⟩ := List.getLast?_eq_some_iff.mp hlast
  intro first hmem
  rcases List.mem_append.mp hmem with hmem | hmem
  · exact (List.pairwise_append.mp hclean.dots).2.2 first hmem dotdot (by simp) rfl
  · exact List.mem_singleton.mp hmem

theorem push (hclean : IsClean els) (rooted : Bool) (hslash : '/' ∉ part) :
    IsClean (push rooted els part) := by
  unfold SlashPath.push
  split
  · exact hclean
  next hname =>
    rw [not_or] at hname
    split
    next hdots =>
      split
      next htop =>
        split
        · exact hclean
        · refine hclean.snoc (by decide) (by decide) (by decide) fun _ => ?_
          rcases htop with rfl | htop
          · intro first hmem
            cases hmem
          · exact hclean.of_getLast htop
      next => exact hclean.of_initial (List.dropLast_prefix els)
    next hdots => exact hclean.snoc hname.1 hname.2 hslash fun heq => absurd heq hdots

theorem elements {parts : List Part} (rooted : Bool) (hparts : ∀ part ∈ parts, '/' ∉ part) :
    IsClean (elements rooted parts) := by
  unfold SlashPath.elements
  suffices hfrom : ∀ els, IsClean els → IsClean (parts.foldl (SlashPath.push rooted) els) from
    hfrom [] nil
  induction parts with
  | nil => exact fun els hels => hels
  | cons part parts ih =>
    intro els hels
    exact ih (fun other hmem => hparts other (List.mem_cons_of_mem _ hmem)) _
      (hels.push rooted (hparts part List.mem_cons_self))

theorem elementsOf (path : List Char) : IsClean (elementsOf path) :=
  elements _ fun _ hpart => not_mem_of_mem_split hpart

end IsClean

variable {rooted : Bool} {parts els : List Part} {part : Part}

theorem elements_snoc (rooted : Bool) (parts : List Part) (part : Part) :
    elements rooted (parts ++ [part]) = push rooted (elements rooted parts) part := by
  unfold elements
  rw [List.foldl_append]
  rfl

theorem elements_of_isClean (hclean : IsClean els) : elements false els = els := by
  induction els using List.reverseRecOn with
  | nil => rfl
  | append_singleton els part ih =>
    rw [elements_snoc, ih (hclean.of_initial (List.prefix_append _ _))]
    obtain ⟨hne, hdot, -⟩ := hclean.parts part (by simp)
    unfold push
    rw [if_neg (not_or.mpr ⟨hne, hdot⟩)]
    split
    next hdots =>
      rw [if_pos, if_neg (by decide), hdots]
      rcases List.eq_nil_or_concat els with rfl | ⟨before, last, rfl⟩
      · exact Or.inl rfl
      · have hlast : last = dotdot :=
          (List.pairwise_append.mp hclean.dots).2.2 last (by simp) part (by simp) hdots
        exact Or.inr (by simp [hlast])
    next => rfl

/-- Every start of the elements are the elements of a start of the parts. -/
theorem exists_take {start : List Part} (hstart : start <+: elements rooted parts)
    (hne : start ≠ []) : ∃ i < parts.length, elements rooted (parts.take (i + 1)) = start := by
  induction parts using List.reverseRecOn with
  | nil =>
    rw [elements, List.foldl_nil, List.prefix_nil] at hstart
    exact absurd hstart hne
  | append_singleton parts part ih =>
    by_cases hwhole : start = elements rooted (parts ++ [part])
    · refine ⟨parts.length, by simp, ?_⟩
      rw [hwhole, List.take_of_length_le (by simp)]
    · -- A shorter start was there before the last part.
      have hbefore : start <+: elements rooted parts := by
        rw [elements_snoc] at hstart hwhole
        unfold push at hstart hwhole
        split at hstart
        · exact hstart
        next hname =>
          rw [if_neg hname] at hwhole
          split at hstart
          next hdots =>
            rw [if_pos hdots] at hwhole
            split at hstart
            next htop =>
              rw [if_pos htop] at hwhole
              split at hstart
              · exact hstart
              next hrooted =>
                rw [if_neg hrooted] at hwhole
                exact (List.prefix_concat_iff.mp hstart).resolve_left hwhole
            next => exact hstart.trans (List.dropLast_prefix _)
          next hdots =>
            rw [if_neg hdots] at hwhole
            exact (List.prefix_concat_iff.mp hstart).resolve_left hwhole
      obtain ⟨i, hi, htake⟩ := ih hbefore
      refine ⟨i, by rw [List.length_append]; omega, ?_⟩
      rw [List.take_append_of_le_length hi, htake]

theorem elements_rooted (hdots : dotdot ∉ parts) :
    elements true parts = elements false parts := by
  induction parts using List.reverseRecOn with
  | nil => rfl
  | append_singleton parts part ih =>
    rw [List.mem_append, not_or, List.mem_singleton] at hdots
    rw [elements_snoc, elements_snoc, ih hdots.1]
    unfold push
    rw [if_neg (Ne.symm hdots.2), if_neg (Ne.symm hdots.2)]

theorem elements_append (rooted : Bool) (first second : List Part) :
    elements rooted (first ++ second) = second.foldl (push rooted) (elements rooted first) :=
  List.foldl_append

theorem foldl_push_noops (els : List Part) (hnoops : ∀ part ∈ parts, part = [] ∨ part = dot) :
    parts.foldl (push rooted) els = els := by
  induction parts with
  | nil => rfl
  | cons part parts ih =>
    rw [List.foldl_cons, push, if_pos (hnoops part List.mem_cons_self)]
    exact ih fun other hmem => hnoops other (List.mem_cons_of_mem _ hmem)

theorem elements_noops_append (rooted : Bool) {noops : List Part}
    (hnoops : ∀ part ∈ noops, part = [] ∨ part = dot) (parts : List Part) :
    elements rooted (noops ++ parts) = elements rooted parts := by
  rw [elements_append, elements, foldl_push_noops [] hnoops]
  rfl

theorem elements_append_noops (rooted : Bool) (parts : List Part) {noops : List Part}
    (hnoops : ∀ part ∈ noops, part = [] ∨ part = dot) :
    elements rooted (parts ++ noops) = elements rooted parts := by
  rw [elements_append, foldl_push_noops _ hnoops]

theorem isRooted_join {first : Part} (hne : first ≠ []) (hslash : '/' ∉ first)
    (rest : List Part) : isRooted (join (first :: rest)) = false := by
  obtain ⟨c, first, rfl⟩ := List.exists_cons_of_ne_nil hne
  have hhead : (join ((c :: first) :: rest)).head? = some c := by
    cases rest with
    | nil => simp [join]
    | cons second rest => simp [join, List.intercalate_cons_cons]
  rw [isRooted, hhead]
  refine Bool.eq_false_iff.mpr fun heq => hslash ?_
  rw [eq_of_beq heq |> Option.some.inj]
  exact List.mem_cons_self

theorem clean_join {first : Part} (hne : first ≠ []) {rest : List Part}
    (hslash : ∀ part ∈ first :: rest, '/' ∉ part) :
    clean (join (first :: rest)) = render false (elements false (first :: rest)) := by
  unfold clean elementsOf
  rw [isRooted_join hne (hslash first List.mem_cons_self) rest,
    split_join hslash (List.cons_ne_nil first rest)]

theorem joinPath_cons {first : Part} (hne : first ≠ []) {rest : List Part}
    (hslash : ∀ part ∈ first :: rest, '/' ∉ part) :
    joinPath (first :: rest) = render false (elements false (first :: rest)) := by
  rw [joinPath, List.dropWhile_cons_of_neg (by simpa using hne)]
  exact clean_join hne hslash

theorem clean_render (hclean : IsClean els) : clean (render false els) = render false els := by
  cases els with
  | nil => decide
  | cons first rest =>
    have hparts := hclean.parts
    change clean (join (first :: rest)) = _
    rw [clean_join (hparts first List.mem_cons_self).1 fun part hmem => (hparts part hmem).2.2,
      elements_of_isClean hclean]

theorem split_render (rooted : Bool) (hslash : ∀ part ∈ els, '/' ∉ part) (hne : els ≠ []) :
    split (render rooted els) = if rooted then [] :: els else els := by
  have hsplit : split (join els) = els := split_join hslash hne
  unfold render
  cases rooted with
  | true => exact (split_cons_slash _).trans (congrArg _ hsplit)
  | false => exact (congrArg split (if_neg hne)).trans hsplit

theorem exists_render_snoc (rooted : Bool) (els : List Part) :
    ∃ before : List Char, (before = [] ∨ before.getLast? = some '/') ∧
      ∀ part, render rooted (els ++ [part]) = before ++ part := by
  have hjoin : ∃ before : List Char, (before = [] ∨ before.getLast? = some '/') ∧
      ∀ part, join (els ++ [part]) = before ++ part := by
    by_cases hne : els = []
    · exact ⟨[], Or.inl rfl, fun part => by simp [hne, join]⟩
    · refine ⟨join els ++ ['/'], Or.inr List.getLast?_concat, fun part => ?_⟩
      rw [join_snoc hne, List.append_assoc]
      rfl
  obtain ⟨before, hbefore, hsnoc⟩ := hjoin
  unfold render
  cases rooted with
  | true =>
    refine ⟨'/' :: before, Or.inr ?_, fun part => congrArg _ (hsnoc part)⟩
    rcases hbefore with rfl | hlast
    · rfl
    · rw [List.getLast?_cons, hlast]
      rfl
  | false =>
    refine ⟨before, hbefore, fun part => ?_⟩
    rw [if_neg (by decide), if_neg (by simp), hsnoc part]

end Fs3.Foundation.SlashPath
