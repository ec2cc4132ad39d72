import Fs3.Listing.WalkDir

/-! # What a walk puts out

The entries of a walk without filters come in the order of their names. -/

namespace Fs3.Listing

open Foundation

variable {μ : Type}

/-- What a walk has to put out below a directory: its objects, the directories that hold
something and are no objects, and what has to be put out below those. -/
inductive Emitted (recursive : Bool) : Name → List (Name × Node μ) → WalkedEntry μ → Prop
  | object {current name : Name} {entries children : List (Name × Node μ)} {metadata : μ}
      (hmem : (name, .dir children) ∈ entries)
      (hobject : objectMetadata children = some metadata) :
      Emitted recursive current entries ⟨current ++ decodeDirObject name, metadata⟩
  | directory {current name : Name} {entries children : List (Name × Node μ)}
      (hmem : (name, .dir children) ∈ entries) (hplain : isEncoded name = false)
      (hobject : objectMetadata children = none) (hne : children ≠ []) :
      Emitted recursive current entries ⟨current ++ name ++ slashSeparator, none⟩
  | inside {current name : Name} {entries children : List (Name × Node μ)} {entry : WalkedEntry μ}
      (hrecursive : recursive = true) (hmem : (name, .dir children) ∈ entries)
      (hplain : isEncoded name = false) (hobject : objectMetadata children = none)
      (hbelow : Emitted recursive (current ++ name ++ slashSeparator) children entry) :
      Emitted recursive current entries entry

def WalkedEntry.Before (entry entry' : WalkedEntry μ) : Prop :=
  entry.name < entry'.name ∨
    entry.name = entry'.name ∧ entry.metadata.isSome = true ∧ entry'.metadata = none

theorem WalkedEntry.Before.le {entry entry' : WalkedEntry μ} (h : entry.Before entry') :
    entry.name ≤ entry'.name := by
  rcases h with hlt | ⟨heq, -⟩
  · exact hlt.le
  · exact heq.le

theorem WalkedEntry.Before.irrefl (entry : WalkedEntry μ) : ¬ entry.Before entry := by
  rintro (hlt | ⟨-, hsome, hnone⟩)
  · exact lt_irrefl _ hlt
  · rw [hnone] at hsome
    cases hsome

theorem nodup_of_before {l : List (WalkedEntry μ)}
    (hordered : l.Pairwise WalkedEntry.Before) : l.Nodup :=
  hordered.imp fun hbefore heq => by
    rw [heq] at hbefore
    exact WalkedEntry.Before.irrefl _ hbefore

def WalkItem.Before (item item' : WalkItem μ) : Prop :=
  item.name < item'.name ∨
    item.name = item'.name ∧ (∃ name metadata, item = .object name metadata) ∧
      ∃ name path children, item' = .directory name path children

/-! ## One directory -/

section Level

variable {entries : List (Name × Node μ)} {current : Name}

def sortNames (entries : List (Name × Node μ)) : List Name :=
  (entries.filterMap (sortName [] [])).insertionSort (· ≤ ·)

theorem accepts_nil (entry : Name) : Accepts [] [] entry := ⟨Or.inl rfl, Or.inl rfl⟩

theorem mem_sortNames {entry : Name} :
    entry ∈ sortNames entries ↔
      ∃ name children, (name, .dir children) ∈ entries ∧ entry = decodeDirObject name := by
  rw [sortNames, (List.perm_insertionSort _ _).mem_iff, List.mem_filterMap]
  constructor
  · rintro ⟨⟨name, node⟩, hmem, hname⟩
    cases node with
    | file content =>
      rw [sortName, if_pos (accepts_nil _)] at hname
      cases hname
    | dir children =>
      rw [sortName, if_pos (accepts_nil _)] at hname
      exact ⟨name, children, hmem, (Option.some.inj hname).symm⟩
  · rintro ⟨name, children, hmem, rfl⟩
    exact ⟨_, hmem, by rw [sortName, if_pos (accepts_nil _)]⟩

variable {children : List (Name × Node μ)} {name : Name}

theorem mem_dirObjects {namePrefix forward : Name} (hregular : RegularDir entries)
    (hmem : (name, .dir children) ∈ entries)
    (haccepts : Accepts namePrefix forward (name ++ slashSeparator)) :
    decodeDirObject name ∈ entries.filterMap (dirObjectName namePrefix forward) ↔
      isEncoded name = true := by
  rw [List.mem_filterMap]
  constructor
  · rintro ⟨⟨name', node⟩, hmem', hname⟩
    cases node with
    | file content => cases hname
    | dir children' =>
      rw [dirObjectName] at hname
      split at hname
      next hencoded =>
        have hsame : name' = name := decodeDirObject_inj (hregular.named _ hmem').2.1
          (hregular.named _ hmem).2.1 (Option.some.inj hname)
        exact hsame ▸ hencoded.2
      next => cases hname
  · intro hencoded
    exact ⟨_, hmem, by rw [dirObjectName, if_pos ⟨haccepts, hencoded⟩]⟩

theorem visit_sortNames (hregular : RegularDir entries) (hmem : (name, .dir children) ∈ entries) :
    visit current entries (entries.filterMap (dirObjectName [] [])) (decodeDirObject name) =
      outcome current name children :=
  visit_decoded hregular hmem (mem_dirObjects hregular hmem (accepts_nil _))

theorem sortNames_sorted (hregular : RegularDir entries) :
    (sortNames entries).Pairwise (· < ·) := by
  have hnodup : (entries.filterMap (sortName [] [])).Nodup := by
    rw [List.Nodup, List.pairwise_filterMap]
    refine (List.pairwise_map.mp hregular.nodup).imp_of_mem ?_
    rintro ⟨name, node⟩ ⟨name', node'⟩ hmem hmem' hne key hkey key' hkey' rfl
    cases node with
    | file content =>
      rw [sortName, if_pos (accepts_nil _)] at hkey
      cases hkey
    | dir children =>
      cases node' with
      | file content =>
        rw [sortName, if_pos (accepts_nil _)] at hkey'
        cases hkey'
      | dir children' =>
        rw [sortName, if_pos (accepts_nil _)] at hkey hkey'
        refine hne (decodeDirObject_inj (hregular.named _ hmem).2.1
          (hregular.named _ hmem').2.1 ?_)
        rw [Option.some.inj hkey, Option.some.inj hkey']
  have hperm : (sortNames entries).Perm (entries.filterMap (sortName [] [])) :=
    List.perm_insertionSort _ _
  have hsorted : (sortNames entries).Pairwise (· ≤ ·) := List.pairwise_insertionSort _ _
  exact (hsorted.and (hperm.nodup_iff.mpr hnodup)).imp fun hle => lt_of_le_of_ne hle.1 hle.2

variable {item : WalkItem μ}

theorem outcome_eq_wait (h : outcome current name children = .wait item) :
    objectMetadata children = none ∧ isEncoded name = false ∧ children ≠ [] ∧
      item = .directory (current ++ name ++ slashSeparator) (current ++ name ++ slashSeparator)
        children := by
  rw [outcome] at h
  split at h
  next => cases h
  next hobject =>
    split at h
    next => cases h
    next hnot =>
      rw [not_or, Bool.not_eq_true] at hnot
      cases h
      exact ⟨hobject, hnot.1, hnot.2, rfl⟩

theorem outcome_eq_now (h : outcome current name children = .now item) :
    ∃ metadata, objectMetadata children = some metadata ∧
      item = .object (current ++ decodeDirObject name) metadata := by
  rw [outcome] at h
  split at h
  next metadata hobject =>
    cases h
    exact ⟨metadata, hobject, rfl⟩
  next =>
    split at h
    next => cases h
    next => cases h

def items (current : Name) (entries : List (Name × Node μ)) : List (WalkItem μ) :=
  WaitingStack.run (current ++ ·) WalkItem.name
    (visit current entries (entries.filterMap (dirObjectName [] []))) (sortNames entries) []

section

variable (hregular : RegularDir entries)
include hregular

theorem mem_items :
    item ∈ items current entries ↔
      ∃ name children, (name, .dir children) ∈ entries ∧
        (outcome current name children).output = some item := by
  rw [items, (WaitingStack.run_perm _ _).mem_iff, List.nil_append, List.mem_filterMap]
  constructor
  · rintro ⟨entry, hentry, houtput⟩
    obtain ⟨name, children, hmem, rfl⟩ := mem_sortNames.mp hentry
    rw [visit_sortNames hregular hmem] at houtput
    exact ⟨name, children, hmem, houtput⟩
  · rintro ⟨name, children, hmem, houtput⟩
    refine ⟨_, mem_sortNames.mpr ⟨name, children, hmem, rfl⟩, ?_⟩
    rw [visit_sortNames hregular hmem]
    exact houtput

theorem mem_items_cases (hitem : item ∈ items current entries) :
    (∃ name children metadata, (name, .dir children) ∈ entries ∧
        objectMetadata children = some metadata ∧
        item = .object (current ++ decodeDirObject name) metadata) ∨
      ∃ name children, (name, .dir children) ∈ entries ∧ isEncoded name = false ∧
        objectMetadata children = none ∧ children ≠ [] ∧
        item = .directory (current ++ name ++ slashSeparator) (current ++ name ++ slashSeparator)
          children := by
  obtain ⟨name, children, hmem, houtput⟩ := (mem_items hregular).mp hitem
  cases houtcome : outcome current name children with
  | now item' =>
    rw [houtcome] at houtput
    cases houtput
    obtain ⟨metadata, hobject, rfl⟩ := outcome_eq_now houtcome
    exact Or.inl ⟨name, children, metadata, hmem, hobject, rfl⟩
  | wait item' =>
    rw [houtcome] at houtput
    cases houtput
    obtain ⟨hobject, hplain, hne, rfl⟩ := outcome_eq_wait houtcome
    exact Or.inr ⟨name, children, hmem, hplain, hobject, hne, rfl⟩
  | pass =>
    rw [houtcome] at houtput
    cases houtput

theorem object_mem_items {metadata : μ} (hmem : (name, .dir children) ∈ entries)
    (hobject : objectMetadata children = some metadata) :
    .object (current ++ decodeDirObject name) metadata ∈ items current entries :=
  (mem_items hregular).mpr ⟨name, children, hmem, by rw [outcome, hobject]; rfl⟩

theorem directory_mem_items (hmem : (name, .dir children) ∈ entries)
    (hplain : isEncoded name = false) (hobject : objectMetadata children = none)
    (hne : children ≠ []) :
    .directory (current ++ name ++ slashSeparator) (current ++ name ++ slashSeparator) children ∈
      items current entries := by
  refine (mem_items hregular).mpr ⟨name, children, hmem, ?_⟩
  rw [outcome, hobject, if_neg]
  · rfl
  · rw [hplain]
    exact fun h => h.elim Bool.false_ne_true hne

/-- The items of a directory come in order. -/
theorem items_pairwise : (items current entries).Pairwise WalkItem.Before := by
  have hvisit : ∀ {entry : Name} {response : Response (WalkItem μ)}, entry ∈ sortNames entries →
      visit current entries (entries.filterMap (dirObjectName [] [])) entry = response →
      ∃ name children, (name, .dir children) ∈ entries ∧ entry = decodeDirObject name ∧
        outcome current name children = response := by
    intro entry response hentry hresponse
    obtain ⟨name, children, hmem, rfl⟩ := mem_sortNames.mp hentry
    rw [visit_sortNames hregular hmem] at hresponse
    exact ⟨name, children, hmem, rfl, hresponse⟩
  refine @WaitingStack.run_pairwise _ _ _ _ _ _ _ _ (sortNames entries) _
    ⟨?_, ?_, ?_, ?_, ?_, ?_⟩ List.suffix_rfl _ ⟨List.Pairwise.nil, fun b hb => by cases hb⟩
  · exact (sortNames_sorted hregular).imp append_lt_append_iff.mpr
  · intro entry hentry item hitem
    obtain ⟨name, children, hmem, rfl, houtcome⟩ := hvisit hentry hitem
    obtain ⟨metadata, -, rfl⟩ := outcome_eq_now houtcome
    rfl
  · intro entry hentry item hitem
    obtain ⟨name, children, hmem, rfl, houtcome⟩ := hvisit hentry hitem
    obtain ⟨-, hplain, -, rfl⟩ := outcome_eq_wait houtcome
    rw [decodeDirObject_plain hplain]
    exact lt_append_self (List.cons_ne_nil _ _)
  · intro entry hentry entry' hentry' item item' hlt hitem hitem' hle
    obtain ⟨name, children, hmem, rfl, houtcome⟩ := hvisit hentry hitem
    obtain ⟨name', children', hmem', rfl, houtcome'⟩ := hvisit hentry' hitem'
    obtain ⟨-, hplain, -, rfl⟩ := outcome_eq_wait houtcome
    obtain ⟨-, hplain', -, rfl⟩ := outcome_eq_wait houtcome'
    rw [decodeDirObject_plain hplain, decodeDirObject_plain hplain', append_lt_append_iff] at hlt
    rw [decodeDirObject_plain hplain'] at hle
    simp only [WalkItem.name, List.append_assoc, append_le_append_iff, append_lt_append_iff]
      at hle ⊢
    exact append_separator_lt (hregular.named _ hmem').2.1 hlt hle
  · exact fun item item' hlt => Or.inl hlt
  · intro entry hentry entry' hentry' item item' hitem hitem' heq
    obtain ⟨name, children, hmem, rfl, houtcome⟩ := hvisit hentry hitem
    obtain ⟨name', children', hmem', rfl, houtcome'⟩ := hvisit hentry' hitem'
    obtain ⟨metadata, -, rfl⟩ := outcome_eq_now houtcome
    obtain ⟨-, -, -, rfl⟩ := outcome_eq_wait houtcome'
    exact Or.inr ⟨heq, ⟨_, _, rfl⟩, _, _, _, rfl⟩

theorem scanDir_succ (recursive : Bool) (forwardTo : Name) (fuel : Nat) :
    scanDir recursive forwardTo (fuel + 1) [] [] current entries =
      (items current entries).flatMap (WalkItem.putOut fun name path children =>
        if recursive then
          scanDir recursive forwardTo fuel [] (forwardBelow forwardTo name) path children
        else []) := by
  rw [scanDir, classify_eq current (fun entry hmem => (hregular.named entry hmem).2.1)
    hregular.files]
  rfl

end

end Level

/-! ## All directories below -/

theorem depth_le_of_mem {name : Name} {node : Node μ} {entries : List (Name × Node μ)}
    (hmem : (name, node) ∈ entries) : node.depth ≤ Node.entriesDepth entries := by
  induction entries with
  | nil => cases hmem
  | cons entry rest ih =>
    rw [Node.entriesDepth]
    rcases List.mem_cons.mp hmem with rfl | hmem
    · exact le_max_left _ _
    · exact (ih hmem).trans (le_max_right _ _)

section Tree

variable {recursive : Bool} {current : Name} {entries : List (Name × Node μ)}

theorem exists_name_of_mem_items (hregular : RegularDir entries) {item : WalkItem μ}
    (hitem : item ∈ items current entries) :
    ∃ part, part ≠ [] ∧ '/' ∉ part ∧
      (item.name = current ++ part ∨ item.name = current ++ (part ++ slashSeparator)) := by
  rcases mem_items_cases hregular hitem with
    ⟨name, children, metadata, hmem, -, rfl⟩ | ⟨name, children, hmem, -, -, -, rfl⟩
  · obtain ⟨hne, hslash, hsuffix⟩ := hregular.named _ hmem
    cases hencoded : isEncoded name with
    | true =>
      obtain ⟨plain, rfl, hdecode⟩ := exists_of_isEncoded hencoded
      refine ⟨plain, fun hnil => hsuffix (by rw [hnil]; rfl),
        fun h => hslash (List.mem_append_left _ h), Or.inr ?_⟩
      rw [WalkItem.name, hdecode]
    | false =>
      refine ⟨name, hne, hslash, Or.inl ?_⟩
      rw [WalkItem.name, decodeDirObject_plain hencoded]
  · obtain ⟨hne, hslash, -⟩ := hregular.named _ hmem
    exact ⟨name, hne, hslash, Or.inr (by rw [WalkItem.name, List.append_assoc])⟩

def NameBelow (current name : Name) : Prop :=
  ∃ part rest, part ≠ [] ∧ '/' ∉ part ∧ name = current ++ (part ++ rest)

theorem NameBelow.exists_rest {name : Name} (h : NameBelow current name) :
    ∃ rest, rest ≠ [] ∧ name = current ++ rest := by
  obtain ⟨part, rest, hne, -, hname⟩ := h
  exact ⟨part ++ rest, List.append_ne_nil_of_left_ne_nil hne _, hname⟩

/-- What is below the directories of a directory has longer names than they have. -/
def ScansInside (current : Name) (entries : List (Name × Node μ))
    (scan : Name → Name → List (Name × Node μ) → List (WalkedEntry μ)) : Prop :=
  ∀ name children, (name, .dir children) ∈ entries → isEncoded name = false →
    objectMetadata children = none →
    ∀ x ∈ scan (current ++ name ++ slashSeparator) (current ++ name ++ slashSeparator) children,
      NameBelow (current ++ name ++ slashSeparator) x.name

section

variable (hregular : RegularDir entries)
  {scan : Name → Name → List (Name × Node μ) → List (WalkedEntry μ)}
  (hscan : ScansInside current entries scan)
include hregular hscan

theorem putOut_cases {item : WalkItem μ} (hitem : item ∈ items current entries) {x : WalkedEntry μ}
    (hx : x ∈ item.putOut scan) :
    (x.name = item.name ∧
        ((∃ name metadata, item = .object name metadata) ↔ x.metadata.isSome = true)) ∨
      ∃ name rest, item.name = current ++ name ++ slashSeparator ∧ '/' ∉ name ∧ rest ≠ [] ∧
        x.name = item.name ++ rest := by
  rcases mem_items_cases hregular hitem with
    ⟨name, children, metadata, hmem, -, rfl⟩ | ⟨name, children, hmem, hplain, hobject, -, rfl⟩
  · rw [WalkItem.putOut, List.mem_singleton] at hx
    rw [hx]
    exact Or.inl ⟨rfl, fun _ => rfl, fun _ => ⟨_, _, rfl⟩⟩
  · rcases List.mem_cons.mp hx with rfl | hx
    · refine Or.inl ⟨rfl, fun ⟨_, _, h⟩ => ?_, fun h => ?_⟩
      · cases h
      · cases h
    · obtain ⟨rest, hne, hname⟩ := (hscan name children hmem hplain hobject x hx).exists_rest
      exact Or.inr ⟨name, rest, rfl, (hregular.named _ hmem).2.1, hne, hname⟩

/-- An item that is due before another one comes before it with all that is below. -/
theorem before_of_items {item item' : WalkItem μ} (hitem : item ∈ items current entries)
    (hitem' : item' ∈ items current entries) (hbefore : item.Before item') {x y : WalkedEntry μ}
    (hx : x ∈ item.putOut scan) (hy : y ∈ item'.putOut scan) : x.Before y := by
  have hle : item'.name ≤ y.name := by
    rcases putOut_cases hregular hscan hitem' hy with ⟨heq, -⟩ | ⟨_, rest, _, _, _, heq⟩
    · exact heq.ge
    · rw [heq]
      exact le_of_isPrefix (List.prefix_append _ _)
  rcases hbefore with hlt | ⟨heq, ⟨name, metadata, rfl⟩, hdirectory⟩
  · refine Or.inl (lt_of_lt_of_le ?_ hle)
    rcases putOut_cases hregular hscan hitem hx with
      ⟨hname, -⟩ | ⟨name, rest, hname, hslash, -, hrest⟩
    · rw [hname]
      exact hlt
    · -- The other item is not below this one, since no name has a slash inside.
      rw [hrest]
      refine append_lt_of_lt hlt (fun hpre => ?_) rest
      obtain ⟨part, -, hpart, hname'⟩ := exists_name_of_mem_items hregular hitem'
      rw [hname, List.append_assoc] at hpre hlt
      rcases hname' with hname' | hname'
      · rw [hname', List.prefix_append_right_inj] at hpre
        exact hpart (hpre.subset (List.mem_append_right _ List.mem_cons_self))
      · rw [hname', List.prefix_append_right_inj] at hpre
        rcases List.prefix_concat_iff.mp hpre with hsame | hpre
        · rw [hname', hsame] at hlt
          exact lt_irrefl _ hlt
        · exact hpart (hpre.subset (List.mem_append_right _ List.mem_cons_self))
  · rw [WalkItem.putOut, List.mem_singleton] at hx
    rw [hx]
    rcases putOut_cases hregular hscan hitem' hy with ⟨hname, hkind⟩ | ⟨_, rest, _, _, hne, hrest⟩
    · refine Or.inr ⟨heq.trans hname.symm, rfl, ?_⟩
      rw [← Option.not_isSome_iff_eq_none, ← hkind]
      obtain ⟨_, _, _, rfl⟩ := hdirectory
      rintro ⟨_, _, h⟩
      cases h
    · refine Or.inl ?_
      rw [hrest]
      exact heq.trans_lt (lt_append_self hne)

end

/-- What a scan without filters puts out. -/
structure ScansAll (recursive : Bool) (current : Name) (entries : List (Name × Node μ))
    (l : List (WalkedEntry μ)) : Prop where
  ordered : l.Pairwise WalkedEntry.Before
  mem_iff : ∀ entry, entry ∈ l ↔ Emitted recursive current entries entry
  inside : ∀ entry ∈ l, NameBelow current entry.name

theorem scansAll_scanDir {fuel : Nat} (hregular : Regular entries)
    (hdepth : (Node.dir entries).depth ≤ fuel) :
    ScansAll recursive current entries (scanDir recursive [] fuel [] [] current entries) := by
  induction fuel generalizing current entries with
  | zero =>
    rw [Node.depth] at hdepth
    exact absurd hdepth (Nat.not_succ_le_zero _)
  | succ fuel ih =>
    obtain ⟨hhere, hbelow⟩ := hregular
    have hchild : ∀ name children, (name, .dir children) ∈ entries → isEncoded name = false →
        objectMetadata children = none → ScansAll recursive (current ++ name ++ slashSeparator)
          children (scanDir recursive [] fuel [] [] (current ++ name ++ slashSeparator)
            children) := by
      intro name children hmem hplain hobject
      refine ih (hbelow name children hmem hplain hobject) ?_
      have hle := depth_le_of_mem hmem
      rw [Node.depth] at hdepth
      omega
    rw [scanDir_succ hhere]
    have hforward : ∀ name : Name, forwardBelow [] name = [] := fun name => rfl
    simp only [hforward]
    generalize hdef : (fun (_ path : Name) (children : List (Name × Node μ)) =>
      if recursive = true then scanDir recursive [] fuel [] [] path children else []) = scan
    have hrec : recursive = true → ∀ name path children, scan name path children =
        scanDir recursive [] fuel [] [] path children := fun hrecursive name path children => by
      rw [← hdef]
      exact if_pos hrecursive
    have hnot : recursive ≠ true → ∀ name path children, scan name path children = [] :=
      fun hrecursive name path children => by
        rw [← hdef]
        exact if_neg hrecursive
    have hscan : ScansInside current entries scan := by
      intro name children hmem hplain hobject x hx
      by_cases hrecursive : recursive = true
      · rw [hrec hrecursive] at hx
        exact (hchild name children hmem hplain hobject).inside x hx
      · rw [hnot hrecursive] at hx
        cases hx
    refine ⟨?_, fun entry => ?_, fun entry hentry => ?_⟩
    · rw [List.pairwise_flatMap]
      refine ⟨fun item hitem => ?_, (items_pairwise hhere).imp_of_mem
        fun hitem hitem' hbefore x hx y hy =>
          before_of_items hhere hscan hitem hitem' hbefore hx hy⟩
      rcases mem_items_cases hhere hitem with
        ⟨name, children, metadata, hmem, -, rfl⟩ | ⟨name, children, hmem, hplain, hobject, -, rfl⟩
      · exact List.pairwise_singleton _ _
      · refine List.pairwise_cons.mpr ⟨fun x hx => ?_, ?_⟩
        · obtain ⟨rest, hne, hname⟩ :=
            (hscan name children hmem hplain hobject x hx).exists_rest
          refine Or.inl ?_
          rw [hname]
          exact lt_append_self hne
        · by_cases hrecursive : recursive = true
          · rw [hrec hrecursive]
            exact (hchild name children hmem hplain hobject).ordered
          · rw [hnot hrecursive]
            exact List.Pairwise.nil
    · rw [List.mem_flatMap]
      constructor
      · rintro ⟨item, hitem, hentry⟩
        rcases mem_items_cases hhere hitem with ⟨name, children, metadata, hmem, hobject, rfl⟩ |
          ⟨name, children, hmem, hplain, hobject, hne, rfl⟩
        · rw [WalkItem.putOut, List.mem_singleton] at hentry
          rw [hentry]
          exact .object hmem hobject
        · rcases List.mem_cons.mp hentry with rfl | hentry
          · exact .directory hmem hplain hobject hne
          · by_cases hrecursive : recursive = true
            · rw [hrec hrecursive] at hentry
              exact .inside hrecursive hmem hplain hobject
                (((hchild name children hmem hplain hobject).mem_iff entry).mp hentry)
            · rw [hnot hrecursive] at hentry
              cases hentry
      · intro hemitted
        cases hemitted with
        | object hmem hobject =>
          exact ⟨_, object_mem_items hhere hmem hobject, List.mem_singleton_self _⟩
        | directory hmem hplain hobject hne =>
          exact ⟨_, directory_mem_items hhere hmem hplain hobject hne, List.mem_cons_self⟩
        | @inside _ name _ children _ hrecursive hmem hplain hobject hbelow' =>
          have hin := ((hchild name children hmem hplain hobject).mem_iff entry).mpr hbelow'
          have hne : children ≠ [] := by
            rintro rfl
            cases hbelow' with
            | object hmem | directory hmem | inside _ hmem => cases hmem
          refine ⟨_, directory_mem_items hhere hmem hplain hobject hne,
            List.mem_cons_of_mem _ ?_⟩
          rw [hrec hrecursive]
          exact hin
    · obtain ⟨item, hitem, hentry⟩ := List.mem_flatMap.mp hentry
      obtain ⟨part, hne, hslash, hname⟩ := exists_name_of_mem_items hhere hitem
      have hitemName : ∃ rest, item.name = current ++ (part ++ rest) := by
        rcases hname with hname | hname
        · exact ⟨[], by rw [List.append_nil, hname]⟩
        · exact ⟨_, hname⟩
      obtain ⟨rest, hrest⟩ := hitemName
      rcases putOut_cases hhere hscan hitem hentry with ⟨hname, -⟩ | ⟨_, rest', -, -, -, hname⟩
      · exact ⟨part, rest, hne, hslash, hname.trans hrest⟩
      · refine ⟨part, rest ++ rest', hne, hslash, ?_⟩
        rw [hname, hrest, List.append_assoc, List.append_assoc]

theorem Emitted.nameBelow (hregular : Regular entries) {entry : WalkedEntry μ}
    (hemitted : Emitted recursive current entries entry) : NameBelow current entry.name := by
  have hscan : ScansAll recursive current entries _ := scansAll_scanDir hregular (le_refl _)
  exact hscan.inside entry ((hscan.mem_iff entry).mpr hemitted)

end Tree

/-! ## The walk of a directory -/

theorem hasFormatFile_of_regular {entries : List (Name × Node μ)} (hregular : RegularDir entries) :
    hasFormatFile entries = false := by
  rw [hasFormatFile]
  split
  next content hlookup =>
    obtain ⟨before, after, hsplit, -⟩ := List.lookup_eq_some_iff.mp hlookup
    have hmem : (xlStorageFormatFile, .file content) ∈ entries := by
      rw [hsplit]
      exact List.mem_append_right _ List.mem_cons_self
    exact absurd List.suffix_rfl (hregular.files _ _ hmem).1
  next => rfl

/-- What a walk without filters has to put out: the directory object that the base
directory is itself, and what is below. -/
def Walked (opts : WalkDirOptions) (bucket entries : List (Name × Node μ))
    (entry : WalkedEntry μ) : Prop :=
  (opts.trailingSlash = true ∧ ∃ metadata, baseDirObject opts.baseDir bucket = some metadata ∧
      entry = ⟨dirName opts.baseDir, some metadata⟩) ∨
    Emitted opts.recursive (dirName opts.baseDir) entries entry

/-- What `WalkDir` puts out: everything once, in order, a directory before what is below
it. -/
structure WalksAll (opts : WalkDirOptions) (bucket entries : List (Name × Node μ))
    (l : List (WalkedEntry μ)) : Prop where
  ordered : l.Pairwise WalkedEntry.Before
  once : l.Nodup
  mem_iff : ∀ entry, entry ∈ l ↔ Walked opts bucket entries entry
  directoryFirst : l.Pairwise fun entry entry' =>
    entry'.metadata = none → entry'.name <+: entry.name → entry.name = entry'.name

theorem walkDir_eq {opts : WalkDirOptions} {bucket entries : List (Name × Node μ)}
    (hbase : findDir opts.baseDir bucket = some entries) (hregular : RegularDir entries) :
    walkDir opts bucket = .ok
      ((if opts.trailingSlash then baseDirObject opts.baseDir bucket else none).toList.map
          (fun metadata => ⟨dirName opts.baseDir, some metadata⟩) ++
        scanDir opts.recursive opts.forwardTo (Node.dir entries).depth opts.filterPrefix
          opts.forwardTo (dirName opts.baseDir) entries) := by
  have hformat : (some entries).elim false hasFormatFile = false :=
    hasFormatFile_of_regular hregular
  rw [walkDir, hbase]
  simp only [hformat, Bool.false_eq_true, and_false, if_false]

/-- A walk without filters puts out every object and every directory that holds something,
in the order of the names. -/
theorem walkDir_walksAll (opts : WalkDirOptions) (bucket entries : List (Name × Node μ))
    (hfront : opts.filterPrefix = []) (hforward : opts.forwardTo = [])
    (hbase : findDir opts.baseDir bucket = some entries) (hregular : Regular entries) :
    ∃ l, walkDir opts bucket = .ok l ∧ WalksAll opts bucket entries l := by
  have hhere : RegularDir entries := by
    cases hregular
    assumption
  refine ⟨_, walkDir_eq hbase hhere, ?_⟩
  rw [hfront, hforward]
  have hscan : ScansAll opts.recursive (dirName opts.baseDir) entries _ :=
    scansAll_scanDir hregular (le_refl _)
  generalize scanDir opts.recursive [] (Node.dir entries).depth [] [] (dirName opts.baseDir)
    entries = scanned at hscan
  have hordered : ((if opts.trailingSlash then baseDirObject opts.baseDir bucket
      else none).toList.map (fun metadata => WalkedEntry.mk (dirName opts.baseDir)
        (some metadata)) ++
        scanned).Pairwise WalkedEntry.Before := by
    cases (if opts.trailingSlash then baseDirObject opts.baseDir bucket else none) with
    | none => exact hscan.ordered
    | some metadata =>
      refine List.pairwise_cons.mpr ⟨fun entry hentry => ?_, hscan.ordered⟩
      obtain ⟨rest, hne, hname⟩ := (hscan.inside entry hentry).exists_rest
      refine Or.inl ?_
      rw [hname]
      exact lt_append_self hne
  refine ⟨hordered, nodup_of_before hordered, fun entry => ?_, hordered.imp fun hbefore _ hpre =>
    le_antisymm hbefore.le (le_of_isPrefix hpre)⟩
  rw [List.mem_append, hscan.mem_iff, Walked]
  refine or_congr_left ?_
  cases opts.trailingSlash with
  | false => simp
  | true =>
    cases baseDirObject opts.baseDir bucket with
    | none => simp
    | some metadata => simp

def objectDir (metadata : μ) : Node μ := .dir [(xlStorageFormatFile, .file metadata)]

def sharedName : List (Name × Node Nat) :=
  [(['a'], .dir [(['b'], objectDir 1)]), ('a' :: globalDirSuffix, objectDir 2)]

def nestedObject : List (Name × Node Nat) :=
  [(['a'], .dir [(xlStorageFormatFile, .file (some 1)), (['b'], objectDir 2)])]

theorem regularDir_singleton {name : Name} {metadata : μ} (hne : name ≠ []) (hslash : '/' ∉ name)
    (hsuffix : name ≠ globalDirSuffix) : RegularDir [(name, objectDir metadata)] where
  nodup := List.nodup_singleton _
  named := by
    intro entry hmem
    rw [List.mem_singleton.mp hmem]
    exact ⟨hne, hslash, hsuffix⟩
  files := by
    intro _ _ hmem
    cases List.mem_singleton.mp hmem
  readable := by
    intro _ _ hmem
    cases List.mem_singleton.mp hmem
    exact Or.inl ⟨metadata, rfl⟩
  encoded := by
    intro _ _ hmem _ hnone
    cases List.mem_singleton.mp hmem
    cases hnone

theorem sharedName_regular : Regular sharedName := by
  have hinner : Regular [(['b'], objectDir 1)] := by
    refine ⟨regularDir_singleton (by decide) (by decide) (by decide), fun _ _ hmem _ hobject => ?_⟩
    cases List.mem_singleton.mp hmem
    cases hobject
  have hmem' : ∀ {name : Name} {node : Node Nat}, (name, node) ∈ sharedName →
      name = ['a'] ∧ node = .dir [(['b'], objectDir 1)] ∨
        name = 'a' :: globalDirSuffix ∧ node = objectDir 2 := by
    intro name node hmem
    rcases List.mem_cons.mp hmem with h | hmem
    · cases h
      exact Or.inl ⟨rfl, rfl⟩
    · cases List.mem_singleton.mp hmem
      exact Or.inr ⟨rfl, rfl⟩
  refine ⟨⟨by decide, by decide, ?_, ?_, ?_⟩, ?_⟩
  · intro _ _ hmem
    rcases hmem' hmem with ⟨-, h⟩ | ⟨-, h⟩ <;> cases h
  · intro _ _ hmem
    rcases hmem' hmem with ⟨-, h⟩ | ⟨-, h⟩
    · cases h
      exact Or.inr rfl
    · cases h
      exact Or.inl ⟨2, rfl⟩
  · intro _ _ hmem hencoded hnone
    rcases hmem' hmem with ⟨rfl, -⟩ | ⟨-, h⟩
    · exact absurd hencoded (by decide)
    · cases h
      cases hnone
  · intro _ _ hmem _ hobject
    rcases hmem' hmem with ⟨-, h⟩ | ⟨-, h⟩
    · cases h
      exact hinner
    · cases h
      cases hobject

theorem sharedName_walksAll :
    ∃ l, walkDir {} sharedName = .ok l ∧ WalksAll {} sharedName sharedName l :=
  walkDir_walksAll {} sharedName sharedName rfl rfl rfl sharedName_regular

/-- The names of a walk need not grow strictly, and an object inside of another one is
not put out. -/
theorem walkDir_not_as_claimed :
    (Regular sharedName ∧ ¬ ∃ l, walkDir {} sharedName = .ok l ∧
      (l.map WalkedEntry.name).Pairwise (· < ·)) ∧
    walkDir {} nestedObject = .ok [⟨['a'], some 1⟩] := by
  refine ⟨⟨sharedName_regular, ?_⟩, rfl⟩
  rintro ⟨l, hwalk, hsorted⟩
  have hnames : walkDir {} sharedName =
      .ok [⟨['a', '/'], some 2⟩, ⟨['a', '/'], none⟩, ⟨['a', '/', 'b'], some 1⟩] := rfl
  cases hnames.symm.trans hwalk
  revert hsorted
  decide

end Fs3.Listing
