import Mathlib.Algebra.BigOperators.Group.List.Lemmas
import Mathlib.Algebra.Order.BigOperators.Group.List
import Mathlib.Algebra.Order.Group.Nat
import Mathlib.Data.List.Sort
import Fs3.Runtime.Time

/-! # Erasure sets from ellipses

The endpoints of a pool are written with ellipses, such as `http://host{1...4}/disk{1...8}`. -/

namespace Fs3.Pools

/-- `ellipses.Pattern`: one ellipsis, with the texts around it. -/
structure Pattern where
  before : String := ""
  suffix : String := ""
  seq : List String
  deriving DecidableEq

/-- `ellipses.ArgPattern`: the ellipses of an argument, whose expansion fits a slice. -/
structure ArgPattern where
  patterns : List Pattern
  fits : (patterns.map fun p => p.seq.length).prod < 2 ^ 63

/-- Package `ellipses`. -/
structure EllipsesPackage where
  hasEllipses : List String → Bool
  findEllipsesPatterns : String → Except String ArgPattern
  expand : ArgPattern → List (List String)
  length_expand : ∀ argPattern,
    (expand argPattern).length = (argPattern.patterns.map fun p => p.seq.length).prod

/-- What the arguments are refused with. -/
inductive EndpointErr where
  | errInvalidArgument
  | errInvalidNumberOfErasureEndpoints (msg : String)
  | errInvalidErasureSetSize (msg : String)
  | errInvalidErasureEndpoints (msg : String)
  deriving DecidableEq

/-- A slice as `%s` and `%d` print it. -/
def printed {α : Type} [ToString α] (slice : List α) : String :=
  "[" ++ " ".intercalate (slice.map toString) ++ "]"

def setSizes : List Nat := [4, 5, 6, 7, 8, 9, 10, 11, 12, 13, 14, 15, 16]

/-- The loop of `gcd`. -/
def gcd (x y : Nat) : Nat := if y = 0 then x else gcd y (x % y)
termination_by y
decreasing_by exact Nat.mod_lt _ (Nat.pos_of_ne_zero ‹_›)

def getDivisibleSize (totalSizes : List Nat) : Nat :=
  totalSizes.tail.foldl gcd (totalSizes.headD 0)

def isValidSetSize (count : Nat) : Bool :=
  decide (count ≥ setSizes.headD 0) && decide (count ≤ setSizes.getLastD 0)

def commonTurn (divisibleSize : Nat) (found : Nat × Nat) (cnt : Nat) : Nat × Nat :=
  if divisibleSize % cnt = 0 then
    if divisibleSize / cnt ≤ found.1 then (divisibleSize / cnt, cnt) else found
  else found

def commonSetDriveCount (divisibleSize : Nat) (setCounts : List Nat) : Nat :=
  if divisibleSize < setCounts.getLastD 0 then divisibleSize
  else (setCounts.foldl (commonTurn divisibleSize) (divisibleSize / setCounts.headD 0, 0)).2

def symmetrical (ss : Nat) (p : Pattern) : Bool :=
  if p.seq.length > ss then p.seq.length % ss == 0 else ss % p.seq.length == 0

def symmetry (ss : Nat) (argPatterns : List ArgPattern) : Bool :=
  argPatterns.foldl (fun symmetry argPattern =>
    argPattern.patterns.foldl (fun _ p => symmetrical ss p) symmetry) false

/-- `possibleSetCountsWithSymmetry`; no patterns stand for `nil`. -/
def possibleSetCountsWithSymmetry (setCounts : List Nat) (argPatterns : Option (List ArgPattern)) :
    List Nat :=
  (setCounts.filter fun ss => argPatterns.elim true (symmetry ss)).dedup.insertionSort (· ≤ ·)

def possibleSetCounts (setSize : Nat) : List Nat := setSizes.filter fun s => setSize % s == 0

def chooseSetSize (args : List String) (commonSize customSetDriveCount : Nat)
    (argPatterns : Option (List ArgPattern)) : Except EndpointErr Nat :=
  let setCounts := possibleSetCounts commonSize
  if setCounts = [] then
    .error (.errInvalidNumberOfErasureEndpoints ("Incorrect number of endpoints provided " ++
      printed args ++ ", number of disks " ++ toString commonSize ++
      " is not divisible by any supported erasure set sizes " ++ printed setSizes))
  else if customSetDriveCount > 0 then
    if customSetDriveCount ∈ setCounts then .ok customSetDriveCount
    else
      .error (.errInvalidErasureSetSize ("Invalid set drive count. Acceptable values for " ++
        toString commonSize ++ " number drives are " ++ printed setCounts))
  else
    let setCounts := possibleSetCountsWithSymmetry setCounts argPatterns
    if setCounts = [] then
      .error (.errInvalidNumberOfErasureEndpoints
        ("No symmetric distribution detected with input endpoints provided " ++ printed args ++
          ", disks " ++ toString commonSize ++
          " cannot be spread symmetrically by any supported erasure set sizes " ++
          printed setSizes))
    else .ok (commonSetDriveCount commonSize setCounts)

def getSetIndexes (args : List String) (totalSizes : List Nat) (customSetDriveCount : Nat)
    (argPatterns : Option (List ArgPattern)) : Except EndpointErr (List (List Nat)) :=
  if totalSizes = [] ∨ args = [] then .error .errInvalidArgument
  else if totalSizes.any fun totalSize =>
      decide (totalSize < setSizes.headD 0) || decide (totalSize < customSetDriveCount) then
    .error (.errInvalidNumberOfErasureEndpoints
      ("Incorrect number of endpoints provided " ++ printed args))
  else
    let commonSize := getDivisibleSize totalSizes
    match chooseSetSize args commonSize customSetDriveCount argPatterns with
    | .error err => .error err
    | .ok setSize =>
      if !isValidSetSize setSize then
        .error (.errInvalidNumberOfErasureEndpoints ("Incorrect number of endpoints provided " ++
          printed args ++ ", number of disks " ++ toString commonSize ++
          " is not divisible by any supported erasure set sizes " ++ printed setSizes))
      else .ok (totalSizes.map fun totalSize => List.replicate (totalSize / setSize) setSize)

/-- `endpointSet`. -/
structure EndpointSet where
  argPatterns : List ArgPattern := []
  endpoints : List String := []
  setIndexes : List (List Nat)

namespace EndpointSet

variable (ellipses : EllipsesPackage) (s : EndpointSet)

/-- Returns all the expanded endpoints, each argument is expanded separately. -/
def getEndpoints : List String :=
  if s.endpoints ≠ [] then s.endpoints
  else s.argPatterns.flatMap fun argPattern => (ellipses.expand argPattern).map String.join

/-- The loops of `Get`. -/
def getLoop (endpoints : List String) (k : Nat) : List Nat → Option (List (List String))
  | [] => some []
  | size :: sizes =>
    if size + k ≤ endpoints.length then
      (getLoop endpoints (size + k) sizes).map (((endpoints.take (size + k)).drop k) :: ·)
    else none

/-- `Get`. -/
def get : Option (List (List String)) :=
  getLoop (s.getEndpoints ellipses) 0 s.setIndexes.flatten

end EndpointSet

def getTotalSizes (argPatterns : List ArgPattern) : List Nat :=
  argPatterns.map fun argPattern =>
    argPattern.patterns.foldl (fun totalSize p => totalSize * p.seq.length % 2 ^ 64) 1

def findAll (ellipses : EllipsesPackage) : List String → Except EndpointErr (List ArgPattern)
  | [] => .ok []
  | arg :: args =>
    match ellipses.findEllipsesPatterns arg with
    | .error perr => .error (.errInvalidErasureEndpoints perr)
    | .ok patterns => (findAll ellipses args).map (patterns :: ·)

def EndpointErr.message : EndpointErr → String
  | errInvalidArgument => "Invalid arguments specified"
  | errInvalidNumberOfErasureEndpoints msg => msg
  | errInvalidErasureSetSize msg => msg
  | errInvalidErasureEndpoints msg => msg

def parseEndpointSet (ellipses : EllipsesPackage) (customSetDriveCount : Nat)
    (args : List String) : Except EndpointErr EndpointSet :=
  match findAll ellipses args with
  | .error err => .error err
  | .ok argPatterns =>
    match getSetIndexes args (getTotalSizes argPatterns) customSetDriveCount
        (some argPatterns) with
    | .error err => .error (.errInvalidErasureEndpoints err.message)
    | .ok setIndexes => .ok { argPatterns, setIndexes }

def customDriveCount (env : String) : Except EndpointErr Nat :=
  if env = "" then .ok 0
  else
    match atoi env with
    | (_, some .errSyntax) =>
      .error (.errInvalidErasureSetSize
        ("strconv.Atoi: parsing \"" ++ env ++ "\": invalid syntax"))
    | (_, some .errRange) =>
      .error (.errInvalidErasureSetSize
        ("strconv.Atoi: parsing \"" ++ env ++ "\": value out of range"))
    | (driveCount, none) => .ok (driveCount % 2 ^ 64).toNat

def endpointSetOf (ellipses : EllipsesPackage) (customSetDriveCount : Nat) (args : List String) :
    Except EndpointErr EndpointSet :=
  if !ellipses.hasEllipses args then
    if args.length > 1 then
      match getSetIndexes args [args.length] customSetDriveCount none with
      | .error err => .error err
      | .ok setIndexes => .ok { endpoints := args, setIndexes }
    else .ok { endpoints := args, setIndexes := [[args.length]] }
  else parseEndpointSet ellipses customSetDriveCount args

/-- `GetAllSets`, none where it panics. -/
def getAllSets (ellipses : EllipsesPackage) (env : String) (args : List String) :
    Option (Except EndpointErr (List (List String))) :=
  match customDriveCount env with
  | .error err => some (.error err)
  | .ok customSetDriveCount =>
    match endpointSetOf ellipses customSetDriveCount args with
    | .error err => some (.error err)
    | .ok s =>
      match s.get ellipses with
      | none => none
      | some setArgs =>
        if setArgs.flatten.Nodup then some (.ok setArgs)
        else
          some (.error (.errInvalidErasureEndpoints
            ("Input args (" ++ printed args ++ ") has duplicate ellipses")))

end Fs3.Pools

/-! ## What the erasure sets have in common

The sets that are made of ellipses are of one allowed size that divides the endpoints of
every argument, and they are the endpoints in order. The size is to be in symmetry with
every ellipsis, but only the one that is looked at last is asked.
-/

namespace Fs3.Pools

theorem gcd_eq (x y : Nat) : gcd x y = Nat.gcd x y := by
  induction y using Nat.strong_induction_on generalizing x with
  | h y ih =>
    rw [gcd]
    split
    next hzero => rw [hzero, Nat.gcd_zero_right]
    next hpos =>
      rw [ih (x % y) (Nat.mod_lt _ (Nat.pos_of_ne_zero hpos)), Nat.gcd_comm, ← Nat.gcd_rec,
        Nat.gcd_comm]

theorem dvd_foldl_gcd {s : Nat} (totalSizes : List Nat) (first : Nat) :
    s ∣ totalSizes.foldl gcd first ↔ s ∣ first ∧ ∀ total ∈ totalSizes, s ∣ total := by
  induction totalSizes generalizing first with
  | nil => simp
  | cons total totalSizes ih =>
    rw [List.foldl_cons, ih, gcd_eq, Nat.dvd_gcd_iff, List.forall_mem_cons, and_assoc]

theorem dvd_getDivisibleSize {s : Nat} {totalSizes : List Nat} (hne : totalSizes ≠ []) :
    s ∣ getDivisibleSize totalSizes ↔ ∀ total ∈ totalSizes, s ∣ total := by
  cases totalSizes with
  | nil => exact absurd rfl hne
  | cons first totalSizes =>
    rw [getDivisibleSize, List.tail_cons, List.headD_cons, dvd_foldl_gcd, List.forall_mem_cons]

theorem getDivisibleSize_pos {totalSizes : List Nat} (hne : totalSizes ≠ [])
    (hpos : ∀ total ∈ totalSizes, 0 < total) : 0 < getDivisibleSize totalSizes := by
  obtain ⟨total, hmem⟩ := List.exists_mem_of_ne_nil totalSizes hne
  exact Nat.pos_of_dvd_of_pos ((dvd_getDivisibleSize hne).mp dvd_rfl total hmem)
    (hpos total hmem)

def Candidate (totalSizes : List Nat) (s : Nat) : Prop :=
  s ∈ setSizes ∧ ∀ total ∈ totalSizes, s ∣ total

theorem mem_possibleSetCounts {totalSizes : List Nat} (hne : totalSizes ≠ []) {s : Nat} :
    s ∈ possibleSetCounts (getDivisibleSize totalSizes) ↔ Candidate totalSizes s := by
  rw [possibleSetCounts, List.mem_filter, beq_iff_eq, ← Nat.dvd_iff_mod_eq_zero,
    dvd_getDivisibleSize hne, Candidate]

theorem setSizes_pos {s : Nat} (hmem : s ∈ setSizes) : 0 < s := by
  have hall : ∀ s ∈ setSizes, 0 < s := by decide
  exact hall s hmem

theorem isValidSetSize_of_mem {s : Nat} (hmem : s ∈ setSizes) : isValidSetSize s = true := by
  have hall : ∀ s ∈ setSizes, isValidSetSize s = true := by decide
  exact hall s hmem

/-! ## The size that is chosen -/

theorem mem_possibleSetCountsWithSymmetry {setCounts : List Nat}
    {argPatterns : List ArgPattern} {s : Nat} :
    s ∈ possibleSetCountsWithSymmetry setCounts (some argPatterns) ↔
      s ∈ setCounts ∧ symmetry s argPatterns = true := by
  rw [possibleSetCountsWithSymmetry, List.mem_insertionSort, List.mem_dedup, List.mem_filter]
  rfl

theorem sorted_possibleSetCountsWithSymmetry (setCounts : List Nat)
    (argPatterns : Option (List ArgPattern)) :
    (possibleSetCountsWithSymmetry setCounts argPatterns).Pairwise (· ≤ ·) :=
  List.pairwise_insertionSort _ _

theorem foldl_commonTurn {divisibleSize : Nat} {setCounts : List Nat} (found : Nat × Nat)
    (hpos : ∀ cnt ∈ setCounts, 0 < cnt) (hdvd : ∀ cnt ∈ setCounts, cnt ∣ divisibleSize)
    (hsorted : setCounts.Pairwise (· ≤ ·))
    (hfound : ∀ cnt ∈ setCounts, divisibleSize / cnt ≤ found.1) :
    (setCounts.foldl (commonTurn divisibleSize) found).2 = setCounts.getLastD found.2 := by
  induction setCounts generalizing found with
  | nil => rfl
  | cons cnt setCounts ih =>
    obtain ⟨hle, hsorted⟩ := List.pairwise_cons.mp hsorted
    rw [List.forall_mem_cons] at hpos hdvd hfound
    have hturn : commonTurn divisibleSize found cnt = (divisibleSize / cnt, cnt) := by
      rw [commonTurn, if_pos (Nat.dvd_iff_mod_eq_zero.mp hdvd.1), if_pos hfound.1]
    rw [List.foldl_cons, hturn, ih _ hpos.2 hdvd.2 hsorted, List.getLastD_cons]
    intro other hother
    exact Nat.div_le_div_left (hle other hother) hpos.1

theorem commonSetDriveCount_eq {divisibleSize : Nat} {setCounts : List Nat}
    (hne : setCounts ≠ []) (hsize : 0 < divisibleSize) (hpos : ∀ cnt ∈ setCounts, 0 < cnt)
    (hdvd : ∀ cnt ∈ setCounts, cnt ∣ divisibleSize) (hsorted : setCounts.Pairwise (· ≤ ·)) :
    commonSetDriveCount divisibleSize setCounts = setCounts.getLast hne := by
  have hlast : setCounts.getLastD 0 = setCounts.getLast hne := by
    rw [List.getLastD_eq_getLast?, List.getLast?_eq_getLast_of_ne_nil hne, Option.getD_some]
  have hle := Nat.le_of_dvd hsize (hdvd _ (List.getLast_mem hne))
  rw [commonSetDriveCount, hlast, if_neg (by omega), foldl_commonTurn _ hpos hdvd hsorted, hlast]
  intro cnt hcnt
  cases setCounts with
  | nil => exact absurd rfl hne
  | cons first setCounts =>
    rw [List.headD_cons]
    rcases List.mem_cons.mp hcnt with rfl | hcnt
    · exact Nat.le_refl _
    · exact Nat.div_le_div_left ((List.pairwise_cons.mp hsorted).1 cnt hcnt)
        (hpos first List.mem_cons_self)

/-- The arguments are taken: there are some, with as many endpoints as a set can have. -/
def Accepted (args : List String) (totalSizes : List Nat) : Prop :=
  args ≠ [] ∧ totalSizes ≠ [] ∧ ∀ total ∈ totalSizes, 4 ≤ total

/-- The size that is taken: the drive count that is asked for, or else the largest
candidate for which the flag of the symmetry ends up set. -/
def Chosen (totalSizes : List Nat) (customSetDriveCount : Nat) (argPatterns : List ArgPattern)
    (s : Nat) : Prop :=
  Candidate totalSizes s ∧
    if 0 < customSetDriveCount then s = customSetDriveCount
    else symmetry s argPatterns = true ∧
      ∀ s', Candidate totalSizes s' → symmetry s' argPatterns = true → s' ≤ s

section Chosen

variable {args : List String} {totalSizes : List Nat} {customSetDriveCount : Nat}
  {argPatterns : List ArgPattern} {setSize : Nat}

theorem Chosen.eq (hchosen : Chosen totalSizes customSetDriveCount argPatterns setSize)
    {setSize' : Nat} (hchosen' : Chosen totalSizes customSetDriveCount argPatterns setSize') :
    setSize = setSize' := by
  obtain ⟨hcandidate, hsize⟩ := hchosen
  obtain ⟨hcandidate', hsize'⟩ := hchosen'
  split at hsize
  next hcustom =>
    rw [if_pos hcustom] at hsize'
    rw [hsize, hsize']
  next hcustom =>
    rw [if_neg hcustom] at hsize'
    exact Nat.le_antisymm (hsize'.2 _ hcandidate hsize.1) (hsize.2 _ hcandidate' hsize'.1)

/-- The size that `chooseSetSize` finds. -/
theorem chooseSetSize_eq_ok (haccepted : Accepted args totalSizes) :
    chooseSetSize args (getDivisibleSize totalSizes) customSetDriveCount (some argPatterns) =
        .ok setSize ↔
      Chosen totalSizes customSetDriveCount argPatterns setSize := by
  obtain ⟨-, hne, hlarge⟩ := haccepted
  have hpos := getDivisibleSize_pos hne fun total hmem => Nat.lt_of_lt_of_le (by omega)
    (hlarge total hmem)
  have hmem := fun s => @mem_possibleSetCounts totalSizes hne s
  have hlast : ∀ (hsome : possibleSetCountsWithSymmetry
      (possibleSetCounts (getDivisibleSize totalSizes)) (some argPatterns) ≠ []),
      ¬ 0 < customSetDriveCount →
      Chosen totalSizes customSetDriveCount argPatterns
        (commonSetDriveCount (getDivisibleSize totalSizes) (possibleSetCountsWithSymmetry
          (possibleSetCounts (getDivisibleSize totalSizes)) (some argPatterns))) := by
    intro hsome hcustom
    have hcounts := fun s => @mem_possibleSetCountsWithSymmetry
      (possibleSetCounts (getDivisibleSize totalSizes)) argPatterns s
    have hsorted := sorted_possibleSetCountsWithSymmetry
      (possibleSetCounts (getDivisibleSize totalSizes)) (some argPatterns)
    rw [commonSetDriveCount_eq hsome hpos
      (fun cnt hcnt => setSizes_pos ((hmem cnt).mp ((hcounts cnt).mp hcnt).1).1)
      (fun cnt hcnt => (dvd_getDivisibleSize hne).mpr
        ((hmem cnt).mp ((hcounts cnt).mp hcnt).1).2) hsorted]
    obtain ⟨hin, hsymmetry⟩ := (hcounts _).mp (List.getLast_mem hsome)
    refine ⟨(hmem _).mp hin, ?_⟩
    rw [if_neg hcustom]
    refine ⟨hsymmetry, fun s' hcandidate' hsymmetry' => ?_⟩
    have hin' := (hcounts s').mpr ⟨(hmem s').mpr hcandidate', hsymmetry'⟩
    exact hsorted.rel_getLast hin'
  constructor
  · intro hok
    unfold chooseSetSize at hok
    simp only at hok
    split at hok
    next => exact absurd hok (by simp)
    next =>
      split at hok
      next hcustom =>
        split at hok
        next hin =>
          rw [← Except.ok.inj hok]
          exact ⟨(hmem _).mp hin, by rw [if_pos hcustom]⟩
        next => exact absurd hok (by simp)
      next hcustom =>
        split at hok
        next => exact absurd hok (by simp)
        next hsome =>
          rw [← Except.ok.inj hok]
          exact hlast hsome hcustom
  · intro hchosen
    obtain ⟨hcandidate, hsize⟩ := hchosen
    have hin := (hmem setSize).mpr hcandidate
    unfold chooseSetSize
    simp only
    rw [if_neg (List.ne_nil_of_mem hin)]
    split
    next hcustom =>
      rw [if_pos hcustom] at hsize
      rw [← hsize, if_pos hin]
    next hcustom =>
      rw [if_neg hcustom] at hsize
      have hsome : possibleSetCountsWithSymmetry
          (possibleSetCounts (getDivisibleSize totalSizes)) (some argPatterns) ≠ [] :=
        List.ne_nil_of_mem (mem_possibleSetCountsWithSymmetry.mpr ⟨hin, hsize.1⟩)
      rw [if_neg hsome, (hlast hsome hcustom).eq ⟨hcandidate, by rw [if_neg hcustom]; exact hsize⟩]

/-- `getSetIndexes` succeeds on accepted arguments that a size can be chosen for. -/
theorem getSetIndexes_eq_ok {setIndexes : List (List Nat)} :
    getSetIndexes args totalSizes customSetDriveCount (some argPatterns) = .ok setIndexes ↔
      Accepted args totalSizes ∧
        ∃ setSize, Chosen totalSizes customSetDriveCount argPatterns setSize ∧
          setIndexes = totalSizes.map fun total => List.replicate (total / setSize) setSize := by
  unfold getSetIndexes
  constructor
  · intro hok
    split at hok
    next => exact absurd hok (by simp)
    next hempty =>
      rw [not_or] at hempty
      split at hok
      next => exact absurd hok (by simp)
      next hsmall =>
        have haccepted : Accepted args totalSizes := by
          refine ⟨hempty.2, hempty.1, fun total hmem => ?_⟩
          by_contra hless
          refine hsmall (List.any_eq_true.mpr ⟨total, hmem, ?_⟩)
          rw [Bool.or_eq_true]
          exact Or.inl (decide_eq_true (Nat.lt_of_not_le hless))
        simp only at hok
        split at hok
        next => exact absurd hok (by simp)
        next setSize hchoose =>
          have hchosen := (chooseSetSize_eq_ok haccepted).mp hchoose
          rw [isValidSetSize_of_mem hchosen.1.1] at hok
          exact ⟨haccepted, setSize, hchosen, (Except.ok.inj hok).symm⟩
  · intro ⟨haccepted, setSize, hchosen, hindexes⟩
    obtain ⟨hargs, hne, hlarge⟩ := haccepted
    rw [if_neg (not_or.mpr ⟨hne, hargs⟩)]
    have hsmall : ¬ (totalSizes.any fun totalSize => decide (totalSize < setSizes.headD 0) ||
        decide (totalSize < customSetDriveCount)) = true := by
      rw [List.any_eq_true]
      intro ⟨total, hmem, hless⟩
      have hfour := hlarge total hmem
      have hle := Nat.le_of_dvd (by omega) (hchosen.1.2 total hmem)
      have hsize := hchosen.2
      rw [Bool.or_eq_true, decide_eq_true_iff, decide_eq_true_iff] at hless
      rcases hless with hless | hless
      · exact absurd hless (Nat.not_lt.mpr hfour)
      · rw [if_pos (by omega)] at hsize
        omega
    rw [if_neg hsmall]
    simp only [(chooseSetSize_eq_ok ⟨hargs, hne, hlarge⟩).mpr hchosen,
      isValidSetSize_of_mem hchosen.1.1, hindexes]
    rfl

end Chosen

/-! ## The sets -/

theorem getLoop_spec (endpoints : List String) (sizes : List Nat) (k : Nat)
    (hfits : k + sizes.sum ≤ endpoints.length) :
    ∃ sets, EndpointSet.getLoop endpoints k sizes = some sets ∧
      sets.flatten = (endpoints.drop k).take sizes.sum ∧ sets.map List.length = sizes := by
  induction sizes generalizing k with
  | nil => exact ⟨[], rfl, by simp, rfl⟩
  | cons size sizes ih =>
    rw [List.sum_cons] at hfits
    obtain ⟨sets, hsets, hflatten, hlengths⟩ := ih (size + k) (by omega)
    refine ⟨(endpoints.take (size + k)).drop k :: sets, ?_, ?_, ?_⟩
    · rw [EndpointSet.getLoop, if_pos (by omega), hsets, Option.map_some]
    · rw [List.flatten_cons, hflatten, List.sum_cons, List.drop_take,
        show size + k - k = size by omega, List.take_add, List.drop_drop, Nat.add_comm size k]
    · rw [List.map_cons, hlengths, List.length_drop, List.length_take]
      congr 1
      omega

theorem foldl_totalSize (patterns : List Pattern) {first : Nat} (hfirst : first < 2 ^ 64) :
    patterns.foldl (fun totalSize p => totalSize * p.seq.length % 2 ^ 64) first =
      first * (patterns.map fun p => p.seq.length).prod % 2 ^ 64 := by
  induction patterns generalizing first with
  | nil => rw [List.foldl_nil, List.map_nil, List.prod_nil, Nat.mul_one, Nat.mod_eq_of_lt hfirst]
  | cons p patterns ih =>
    rw [List.foldl_cons, ih (Nat.mod_lt _ (by decide)), List.map_cons, List.prod_cons,
      Nat.mod_mul_mod, Nat.mul_assoc]

theorem getTotalSizes_eq (ellipses : EllipsesPackage) (argPatterns : List ArgPattern) :
    getTotalSizes argPatterns =
      argPatterns.map fun argPattern => (ellipses.expand argPattern).length := by
  refine List.map_congr_left fun argPattern _ => ?_
  rw [foldl_totalSize _ (by decide), ellipses.length_expand, Nat.one_mul]
  exact Nat.mod_eq_of_lt (Nat.lt_of_lt_of_le argPattern.fits (by decide))

def expanded (ellipses : EllipsesPackage) (argPatterns : List ArgPattern) : List String :=
  argPatterns.flatMap fun argPattern => (ellipses.expand argPattern).map String.join

theorem length_expanded (ellipses : EllipsesPackage) (argPatterns : List ArgPattern) :
    (expanded ellipses argPatterns).length = (getTotalSizes argPatterns).sum := by
  rw [getTotalSizes_eq ellipses, expanded, List.length_flatMap]
  simp only [List.length_map]

theorem sum_setIndexes {totalSizes : List Nat} {s : Nat} (hdvd : ∀ total ∈ totalSizes, s ∣ total) :
    (totalSizes.map fun total => List.replicate (total / s) s).flatten.sum = totalSizes.sum := by
  induction totalSizes with
  | nil => rfl
  | cons total totalSizes ih =>
    rw [List.forall_mem_cons] at hdvd
    rw [List.map_cons, List.flatten_cons, List.sum_append, List.sum_replicate_nat,
      Nat.div_mul_cancel hdvd.1, ih hdvd.2, List.sum_cons]

def InSymmetry (argPatterns : List ArgPattern) (setSize : Nat) : Prop :=
  ∀ argPattern ∈ argPatterns, ∀ p ∈ argPattern.patterns, symmetrical setSize p = true

/-- Sets of one size as they should be. -/
structure LaysOut (argPatterns : List ArgPattern) (endpoints : List String)
    (sets : List (List String)) (setSize : Nat) : Prop where
  partition : sets.flatten = endpoints
  size : ∀ set ∈ sets, set.length = setSize
  allowed : setSize ∈ setSizes
  divides : ∀ total ∈ getTotalSizes argPatterns, setSize ∣ total
  symmetric : InSymmetry argPatterns setSize

/-- Where `getSetIndexes` succeeds, `Get` makes such sets. -/
def SpreadsEvenly (ellipses : EllipsesPackage) (args : List String) (customSetDriveCount : Nat)
    (argPatterns : List ArgPattern) : Prop :=
  ∀ setIndexes, getSetIndexes args (getTotalSizes argPatterns) customSetDriveCount
      (some argPatterns) = .ok setIndexes →
    ∃ sets setSize, EndpointSet.get ellipses { argPatterns, setIndexes } = some sets ∧
      LaysOut argPatterns (expanded ellipses argPatterns) sets setSize

section Sets

variable {ellipses : EllipsesPackage} {args : List String} {customSetDriveCount : Nat}
  {argPatterns : List ArgPattern} {setSize : Nat}

theorem setSize_eq {sets : List (List String)} (hne : sets ≠ [])
    (hsize : ∀ set ∈ sets, set.length = setSize) {setSize' : Nat}
    (hsize' : ∀ set ∈ sets, set.length = setSize') : setSize = setSize' := by
  obtain ⟨set, hset⟩ := List.exists_mem_of_ne_nil sets hne
  rw [← hsize set hset, hsize' set hset]

section

variable (haccepted : Accepted args (getTotalSizes argPatterns))
  (hchosen : Chosen (getTotalSizes argPatterns) customSetDriveCount argPatterns setSize)
  {setIndexes : List (List Nat)}
  (hindexes : setIndexes = (getTotalSizes argPatterns).map fun total =>
    List.replicate (total / setSize) setSize)
include haccepted hchosen hindexes

theorem get_of_chosen :
    ∃ sets, EndpointSet.get ellipses { argPatterns, setIndexes } = some sets ∧
      sets.flatten = expanded ellipses argPatterns ∧ (∀ set ∈ sets, set.length = setSize) ∧
      sets ≠ [] := by
  obtain ⟨-, hne, hlarge⟩ := haccepted
  have hsum : setIndexes.flatten.sum = (expanded ellipses argPatterns).length := by
    rw [hindexes, sum_setIndexes hchosen.1.2, length_expanded]
  obtain ⟨sets, hsets, hflatten, hlengths⟩ :=
    getLoop_spec (expanded ellipses argPatterns) setIndexes.flatten 0 (by omega)
  rw [List.drop_zero, hsum, List.take_length] at hflatten
  have hsizes : ∀ n ∈ setIndexes.flatten, n = setSize := by
    intro n hn
    obtain ⟨sizes, hsizes, hn⟩ := List.mem_flatten.mp hn
    rw [hindexes] at hsizes
    obtain ⟨total, -, rfl⟩ := List.mem_map.mp hsizes
    exact List.eq_of_mem_replicate hn
  refine ⟨sets, hsets, hflatten, fun set hset => ?_, fun hempty => ?_⟩
  · exact hsizes set.length (hlengths ▸ List.mem_map_of_mem hset)
  · obtain ⟨total, htotal⟩ := List.exists_mem_of_ne_nil _ hne
    have hfour := hlarge total htotal
    have hle := List.single_le_sum (fun _ _ => Nat.zero_le _) total htotal
    rw [hempty, List.flatten_nil] at hflatten
    rw [← length_expanded ellipses, ← hflatten, List.length_nil] at hle
    omega

theorem laysOut_iff :
    ∃ sets, EndpointSet.get ellipses { argPatterns, setIndexes } = some sets ∧
      ((∃ setSize', LaysOut argPatterns (expanded ellipses argPatterns) sets setSize') ↔
        InSymmetry argPatterns setSize) := by
  obtain ⟨sets, hget, hflatten, hsize, hne⟩ :=
    @get_of_chosen ellipses _ _ _ _ haccepted hchosen _ hindexes
  refine ⟨sets, hget, fun ⟨setSize', hlays⟩ => ?_, fun hsymmetry => ⟨setSize, ?_⟩⟩
  · rw [setSize_eq hne hsize hlays.size]
    exact hlays.symmetric
  · exact ⟨hflatten, hsize, hchosen.1.1, hchosen.1.2, hsymmetry⟩

end

def ChosenInSymmetry (args : List String) (customSetDriveCount : Nat)
    (argPatterns : List ArgPattern) : Prop :=
  Accepted args (getTotalSizes argPatterns) →
    ∀ setSize, Chosen (getTotalSizes argPatterns) customSetDriveCount argPatterns setSize →
      InSymmetry argPatterns setSize

theorem spreadsEvenly_iff_chosen (ellipses : EllipsesPackage) (args : List String)
    (customSetDriveCount : Nat) (argPatterns : List ArgPattern) :
    SpreadsEvenly ellipses args customSetDriveCount argPatterns ↔
      ChosenInSymmetry args customSetDriveCount argPatterns := by
  constructor
  · intro hspreads haccepted setSize hchosen
    obtain ⟨sets, setSize', hget, hlays⟩ :=
      hspreads _ (getSetIndexes_eq_ok.mpr ⟨haccepted, setSize, hchosen, rfl⟩)
    obtain ⟨sets', hget', hiff⟩ := @laysOut_iff ellipses _ _ _ _ haccepted hchosen _ rfl
    rw [hget, Option.some.injEq] at hget'
    exact hiff.mp ⟨setSize', hget' ▸ hlays⟩
  · intro hcondition setIndexes hok
    obtain ⟨haccepted, setSize, hchosen, hindexes⟩ := getSetIndexes_eq_ok.mp hok
    obtain ⟨sets, hget, hiff⟩ := @laysOut_iff ellipses _ _ _ _ haccepted hchosen _ hindexes
    obtain ⟨setSize', hlays⟩ := hiff.mpr (hcondition haccepted setSize hchosen)
    exact ⟨sets, setSize', hget, hlays⟩

end Sets

/-- `getAllSets` on arguments with ellipses goes through their patterns. -/
theorem getAllSets_of_ellipses {ellipses : EllipsesPackage} {env : String} {args : List String}
    (hellipses : ellipses.hasEllipses args = true) :
    getAllSets ellipses env args ≠ none ∧
      ∀ sets, getAllSets ellipses env args = some (.ok sets) →
        ∃ argPatterns customSetDriveCount setIndexes, findAll ellipses args = .ok argPatterns ∧
          customDriveCount env = .ok customSetDriveCount ∧
          getSetIndexes args (getTotalSizes argPatterns) customSetDriveCount
            (some argPatterns) = .ok setIndexes ∧
          EndpointSet.get ellipses { argPatterns, setIndexes } = some sets := by
  unfold getAllSets
  cases hcustom : customDriveCount env with
  | error err => exact ⟨by simp, fun sets hsets => by simp at hsets⟩
  | ok customSetDriveCount =>
    simp only [endpointSetOf, hellipses, Bool.not_true, Bool.false_eq_true, if_false,
      parseEndpointSet]
    cases hfind : findAll ellipses args with
    | error err => exact ⟨by simp, fun sets hsets => by simp at hsets⟩
    | ok argPatterns =>
      simp only
      cases hindexes : getSetIndexes args (getTotalSizes argPatterns) customSetDriveCount
          (some argPatterns) with
      | error err => exact ⟨by simp, fun sets hsets => by simp at hsets⟩
      | ok setIndexes =>
        obtain ⟨haccepted, setSize, hchosen, hvalue⟩ := getSetIndexes_eq_ok.mp hindexes
        obtain ⟨found, hget, -⟩ :=
          @laysOut_iff ellipses _ _ _ _ haccepted hchosen _ hvalue
        simp only [hget]
        split
        next =>
          refine ⟨by simp, fun sets hsets => ?_⟩
          rw [Option.some.injEq, Except.ok.injEq] at hsets
          exact ⟨argPatterns, customSetDriveCount, setIndexes, rfl, rfl, hindexes,
            hsets ▸ hget⟩
        next => exact ⟨by simp, fun sets hsets => by simp at hsets⟩

/-- The endpoints are cut into sets as they should be exactly where the largest allowed
size that divides all totals, and for which the last ellipsis is in symmetry, is in
symmetry with all ellipses; and so are the sets that `GetAllSets` returns. -/
theorem spreadsEvenly_iff (ellipses : EllipsesPackage) :
    (∀ args customSetDriveCount argPatterns,
      SpreadsEvenly ellipses args customSetDriveCount argPatterns ↔
        ChosenInSymmetry args customSetDriveCount argPatterns) ∧
    ∀ env args, ellipses.hasEllipses args = true →
      getAllSets ellipses env args ≠ none ∧
        ∀ sets, getAllSets ellipses env args = some (.ok sets) →
          ∃ argPatterns customSetDriveCount, findAll ellipses args = .ok argPatterns ∧
            customDriveCount env = .ok customSetDriveCount ∧
            ((∃ setSize, LaysOut argPatterns (expanded ellipses argPatterns) sets setSize) ↔
              ChosenInSymmetry args customSetDriveCount argPatterns) := by
  refine ⟨spreadsEvenly_iff_chosen ellipses, fun env args hellipses => ?_⟩
  obtain ⟨hne, hsets⟩ := @getAllSets_of_ellipses ellipses env args hellipses
  refine ⟨hne, fun sets hok => ?_⟩
  obtain ⟨argPatterns, customSetDriveCount, setIndexes, hfind, hcustom, hindexes, hget⟩ :=
    hsets sets hok
  obtain ⟨haccepted, setSize, hchosen, hvalue⟩ := getSetIndexes_eq_ok.mp hindexes
  obtain ⟨sets', hget', hiff⟩ := @laysOut_iff ellipses _ _ _ _ haccepted hchosen _ hvalue
  rw [hget, Option.some.injEq] at hget'
  subst hget'
  refine ⟨argPatterns, customSetDriveCount, hfind, hcustom, hiff.trans ?_⟩
  refine ⟨fun hsymmetry _ setSize' hchosen' => ?_, fun hcondition => ?_⟩
  · rw [← hchosen.eq hchosen']
    exact hsymmetry
  · exact hcondition haccepted setSize hchosen

def Pattern.expand (p : Pattern) : List String :=
  p.seq.map fun label => p.before ++ label ++ p.suffix

def expandAll : List Pattern → List (List String)
  | [] => [[]]
  | p :: patterns => p.expand.flatMap fun label => (expandAll patterns).map (· ++ [label])

theorem length_expandAll (patterns : List Pattern) :
    (expandAll patterns).length = (patterns.map fun p => p.seq.length).prod := by
  induction patterns with
  | nil => rfl
  | cons p patterns ih =>
    simp [expandAll, List.length_flatMap, Pattern.expand, ih, Function.comp_def]

def exportPatterns : List Pattern :=
  [{ seq := (List.range' 1 52).map toString },
    { before := "data", suffix := "/export", seq := (List.range' 1 16).map toString }]

theorem exportPatterns_fits : (exportPatterns.map fun p => p.seq.length).prod < 2 ^ 63 := by
  decide

def exports : ArgPattern := ⟨exportPatterns, exportPatterns_fits⟩

def exportsPackage : EllipsesPackage where
  hasEllipses _ := true
  findEllipsesPatterns _ := .ok exports
  expand argPattern := expandAll argPattern.patterns
  length_expand argPattern := length_expandAll argPattern.patterns

theorem getTotalSizes_exports : getTotalSizes [exports] = [832] := by decide

/-- Sets of 16 are in symmetry with the directories, but not with the exports. -/
theorem exports_not_spreadsEvenly :
    ¬ SpreadsEvenly exportsPackage ["data{1...16}/export{1...52}"] 0 [exports] := by
  rw [spreadsEvenly_iff_chosen]
  intro hcondition
  have haccepted : Accepted ["data{1...16}/export{1...52}"] (getTotalSizes [exports]) := by
    rw [getTotalSizes_exports]
    exact ⟨by simp, by simp, by decide⟩
  have hchosen : Chosen (getTotalSizes [exports]) 0 [exports] 16 := by
    rw [getTotalSizes_exports]
    have hmax : ∀ s' ∈ setSizes, s' ≤ 16 := by decide
    refine ⟨⟨by decide, by decide⟩, ?_⟩
    rw [if_neg (by decide)]
    exact ⟨by decide, fun s' hcandidate _ => hmax s' hcandidate.1⟩
  have hsymmetric := hcondition haccepted 16 hchosen exports List.mem_cons_self
    { seq := (List.range' 1 52).map toString } List.mem_cons_self
  exact absurd hsymmetric (by decide)

end Fs3.Pools
