import CfxMinimalExecution.Cfxpack.Types
import CfxMinimalExecution.Library.Lookup
import CfxMinimalExecution.Library.Preferred
import CfxMinimalExecution.Library.Ranking

/-!
# The files of a directory

A container is named `<prefix>_<start>_<end>.cfxpack`, with `.zst` behind it when it is compressed.
The files of a directory are collected by their start epochs.

## Main definitions

* `startEpoch`, `endEpoch`: the epochs of a name
* `collectFiles`: the files, by start epoch
* `Reproducible dir names`: the files do not depend on the order of the directory, and no range is
  dropped
* `OneRangePerStart names`: next to the file of a start epoch there are uncompressed variants only

## Main results

* `get_collected`: the file of a start epoch is the last compressed one, or else the last one
* `reproducible_iff`: exactly when the files are reproducible
-/

namespace Cfxpack

/-! ## Names -/

/-- The name of an entry of a directory, which need not be UTF-8. -/
inductive FileName
  | utf8 (name : List Char)
  | other (name : Bytes)
deriving DecidableEq

namespace FileName

def toStr : FileName → Option (List Char)
  | .utf8 name => some name
  | .other _ => none

end FileName

def plainExtension : List Char := ".cfxpack".toList

def zstdExtension : List Char := ".cfxpack.zst".toList

def isCfxpack (path : FileName) : Bool :=
  match path.toStr with
  | some name => plainExtension.isSuffixOf name || zstdExtension.isSuffixOf name
  | none => false

def isCompressed (path : FileName) : Bool := path.toStr.any fun name => zstdExtension.isSuffixOf name

def stripSuffix (suffix name : List Char) : Option (List Char) :=
  if suffix.isSuffixOf name then some (name.take (name.length - suffix.length)) else none

def cfxpackStem (path : FileName) : Option (List Char) := do
  let name ← path.toStr
  (stripSuffix zstdExtension name).or (stripSuffix plainExtension name)

/-- `str::rsplit`: the parts of a name, the last one first. -/
def rsplit (separator : Char) (name : List Char) : List (List Char) :=
  (name.splitOn separator).reverse

def digitValue (c : Char) : Option ℕ :=
  if '0' ≤ c ∧ c ≤ '9' then some (c.toNat - '0'.toNat) else none

/-- The loop over the digits, which checks for overflow. -/
def parseDigits (value : ℕ) : List Char → Option UInt64
  | [] => some (UInt64.ofNat value)
  | c :: digits => do
    let digit ← digitValue c
    if value * 10 + digit < UInt64.size then parseDigits (value * 10 + digit) digits else none

/-- `str::parse::<u64>`: a sign is allowed, and there is at least a digit. -/
def parseU64 : List Char → Option UInt64
  | [] => none
  | ['+'] => none
  | '+' :: digits => parseDigits 0 digits
  | digits => parseDigits 0 digits

/-- The part before the last one. -/
def startEpoch (path : FileName) : Option UInt64 := do
  let stem ← cfxpackStem path
  let start ← (rsplit '_' stem)[1]?
  parseU64 start

/-- The last part. -/
def endEpoch (path : FileName) : Option UInt64 := do
  let stem ← cfxpackStem path
  let stop ← (rsplit '_' stem)[0]?
  parseU64 stop

/-! ## Files -/

/-- A file replaces the one that is there, unless only that one is compressed. -/
def preferNew (old : Option FileName) (path : FileName) : Bool :=
  isCompressed path || !old.any isCompressed

/-- One round of the loop over the directory. -/
def collectFile (byStart : Assoc UInt64 FileName) (path : FileName) : Assoc UInt64 FileName :=
  if isCfxpack path then
    match startEpoch path with
    | none => byStart
    | some start =>
      if preferNew (byStart.get start) path then byStart.insert start path else byStart
  else byStart

/-- The values of a map, in the order of their keys. -/
def intoValues (byStart : Assoc UInt64 FileName) : List FileName :=
  (byStart.entries.insertionSort fun a b => a.1 ≤ b.1).map Prod.snd

def collectFiles (dir : String) (names : List FileName) : Result (List FileName) := do
  let files := intoValues (names.foldl collectFile [])
  ensure (files ≠ []) s!"no .cfxpack files in {dir}"
  pure files

/-! ## What is collected -/

/-- A file that is collected under a start epoch. -/
def StartsAt (start : UInt64) (path : FileName) : Bool :=
  isCfxpack path && startEpoch path == some start

theorem startsAt_iff {start : UInt64} {path : FileName} :
    StartsAt start path ↔ isCfxpack path ∧ startEpoch path = some start := by
  simp [StartsAt]

/-- **One round of the loop**, seen from one start epoch. -/
theorem get_collectFile (byStart : Assoc UInt64 FileName) (path : FileName) (start : UInt64) :
    (collectFile byStart path).get start =
      if StartsAt start path ∧ preferNew (byStart.get start) path then some path
      else byStart.get start := by
  unfold collectFile StartsAt
  cases hpath : isCfxpack path with
  | false => simp
  | true =>
    cases hstart : startEpoch path with
    | none => simp
    | some start' =>
      -- a file of the start epoch replaces the one that is there or not, any other changes nothing
      by_cases heq : start' = start
      · subst heq
        cases hprefer : preferNew (byStart.get start') path with
        | false => simp [hprefer]
        | true => simp [hprefer, Assoc.get_insert]
      · cases hprefer : preferNew (byStart.get start') path with
        | false => simp [hprefer, heq]
        | true => simp [hprefer, heq, Assoc.get_insert, Ne.symm heq]

/-- **The file of a start epoch** is the last compressed one, or else the last one. -/
theorem get_collected (names : List FileName) (start : UInt64) :
    (names.foldl collectFile []).get start =
      (names.filter (StartsAt start)).lastPreferred isCompressed := by
  -- induction from the end, as the loop keeps the last of the files preferred
  induction names using List.reverseRecOn with
  | nil => rfl
  | append_singleton names path ih =>
    rw [List.foldl_concat, get_collectFile, List.filter_append, ih]
    cases hstart : StartsAt start path with
    | false => simp [hstart]
    | true => simp [hstart, List.lastPreferred_concat, preferNew]

/-- The file that is collected for a start epoch. -/
def collectedAt (names : List FileName) (start : UInt64) : Option FileName :=
  (names.filter (StartsAt start)).lastPreferred isCompressed

theorem collectedAt_spec {names : List FileName} {start : UInt64} {path : FileName}
    (h : collectedAt names start = some path) : path ∈ names ∧ StartsAt start path ∧
      (isCompressed path ∨ ∀ other ∈ names, StartsAt start other → ¬ isCompressed other) := by
  obtain ⟨hmem, hkept⟩ := List.lastPreferred_eq_some h
  obtain ⟨hmem, hstart⟩ := List.mem_filter.mp hmem
  refine ⟨hmem, hstart, hkept.imp_right fun hnone other hother hstart => ?_⟩
  exact hnone other (List.mem_filter.mpr ⟨hother, hstart⟩)

theorem exists_collectedAt {names : List FileName} {start : UInt64} {path : FileName}
    (hmem : path ∈ names) (hstart : StartsAt start path) :
    ∃ path', collectedAt names start = some path' :=
  List.exists_lastPreferred (List.ne_nil_of_mem (List.mem_filter.mpr ⟨hmem, hstart⟩))

section Files

instance startEpoch_total : Std.Total fun a b : UInt64 × FileName => a.1 ≤ b.1 :=
  ⟨fun a b => UInt64.le_total a.1 b.1⟩

instance startEpoch_trans : IsTrans (UInt64 × FileName) fun a b => a.1 ≤ b.1 :=
  ⟨fun _ _ _ => UInt64.le_trans⟩

/-- The entries of the map, by start epoch. -/
def sortedEntries (names : List FileName) : List (UInt64 × FileName) :=
  (Assoc.entries (names.foldl collectFile [])).insertionSort fun a b => a.1 ≤ b.1

theorem mem_sortedEntries {names : List FileName} {start : UInt64} {path : FileName} :
    (start, path) ∈ sortedEntries names ↔ collectedAt names start = some path := by
  rw [sortedEntries, List.mem_insertionSort, Assoc.mem_entries, get_collected, collectedAt]

theorem nodup_sortedEntries (names : List FileName) :
    ((sortedEntries names).map Prod.fst).Nodup :=
  ((List.perm_insertionSort _ _).map Prod.fst).nodup_iff.mpr (Assoc.nodup_entries _)

/-- The start epochs ascend. -/
theorem pairwise_sortedEntries (names : List FileName) :
    ((sortedEntries names).map Prod.fst).Pairwise (· < ·) := by
  rw [List.pairwise_map]
  have hnodup := nodup_sortedEntries names
  rw [List.Nodup, List.pairwise_map] at hnodup
  have hsorted : (sortedEntries names).Pairwise fun a b => a.1 ≤ b.1 :=
    List.pairwise_insertionSort _ _
  refine (hsorted.and hnodup).imp ?_
  rintro a b ⟨hle, hne⟩
  exact UInt64.lt_of_le_of_ne hle hne

theorem sortedEntries_congr {names names' : List FileName}
    (h : ∀ start, collectedAt names start = collectedAt names' start) :
    sortedEntries names = sortedEntries names' := by
  have hperm : (sortedEntries names).Perm (sortedEntries names') := by
    rw [List.perm_ext_iff_of_nodup (nodup_sortedEntries names).of_map
      (nodup_sortedEntries names').of_map]
    rintro ⟨start, path⟩
    rw [mem_sortedEntries, mem_sortedEntries, h]
  refine hperm.eq_of_pairwise ?_ (List.pairwise_map.mp (pairwise_sortedEntries names))
    (List.pairwise_map.mp (pairwise_sortedEntries names'))
  intro a b _ _ hab hba
  exact absurd hba (UInt64.lt_asymm hab)

end Files

variable {dir : String} {names : List FileName}

theorem collectFiles_eq : collectFiles dir names = (do
    ensure ((sortedEntries names).map Prod.snd ≠ []) s!"no .cfxpack files in {dir}"
    pure ((sortedEntries names).map Prod.snd)) := rfl

theorem collectFiles_eq_ok {files : List FileName} (h : collectFiles dir names = .ok files) :
    files = (sortedEntries names).map Prod.snd := by
  rw [collectFiles_eq] at h
  obtain ⟨-, -, h⟩ := Except.bind_eq_ok.mp h
  exact (Except.ok.inj h).symm

/-- **The files are those that are collected** for the start epochs. -/
theorem mem_collectFiles {files : List FileName} (h : collectFiles dir names = .ok files)
    {path : FileName} : path ∈ files ↔ ∃ start, collectedAt names start = some path := by
  rw [collectFiles_eq_ok h, List.mem_map]
  constructor
  · rintro ⟨⟨start, path⟩, hmem, rfl⟩
    exact ⟨start, mem_sortedEntries.mp hmem⟩
  · rintro ⟨start, hpath⟩
    exact ⟨(start, path), mem_sortedEntries.mpr hpath, rfl⟩

/-- A file of a start epoch makes that something is collected. -/
theorem exists_collectFiles {start : UInt64} {path : FileName} (dir : String)
    (h : collectedAt names start = some path) :
    ∃ files, collectFiles dir names = .ok files ∧ path ∈ files := by
  have hmem : path ∈ (sortedEntries names).map Prod.snd :=
    List.mem_map.mpr ⟨(start, path), mem_sortedEntries.mpr h, rfl⟩
  refine ⟨_, ?_, hmem⟩
  rw [collectFiles_eq, ensure_of (List.ne_nil_of_mem hmem)]
  rfl

/-! ## When the order of the directory does not matter -/

/-- The files do not depend on the order of the directory, ascend by their start epochs, are
compressed where a compressed variant exists, and have a file for every range of epochs. -/
structure Reproducible (dir : String) (names : List FileName) : Prop where
  order : ∀ names', names'.Perm names → collectFiles dir names' = collectFiles dir names
  sorted : ∀ files, collectFiles dir names = .ok files →
    ∃ starts : List UInt64, files.map startEpoch = starts.map some ∧ starts.Pairwise (· < ·)
  compressed : ∀ files, collectFiles dir names = .ok files → ∀ path ∈ files, ∀ variant ∈ names,
    isCompressed variant → startEpoch variant = startEpoch path → endEpoch variant = endEpoch path →
      isCompressed path
  complete : ∀ path ∈ names, isCfxpack path → ∀ start stop, startEpoch path = some start →
    endEpoch path = some stop → ∃ files, collectFiles dir names = .ok files ∧
      ∃ path' ∈ files, startEpoch path' = some start ∧ endEpoch path' = some stop

/-- Of the files of a start epoch one is such that all others are uncompressed variants next to a
compressed file: they have its end epoch, where they have any. -/
def OneRangePerStart (names : List FileName) : Prop :=
  ∀ start, ∀ path ∈ names, StartsAt start path → ∃ chosen ∈ names, StartsAt start chosen ∧
    ∀ other ∈ names, StartsAt start other → other ≠ chosen →
      isCompressed chosen ∧ ¬ isCompressed other ∧
        ∀ stop, endEpoch other = some stop → endEpoch chosen = some stop

theorem isCfxpack_of_isCompressed {path : FileName} (h : isCompressed path) : isCfxpack path := by
  unfold isCompressed at h
  unfold isCfxpack
  cases hname : path.toStr with
  | none => simp [hname] at h
  | some name =>
    rw [hname, Option.any_some] at h
    simp [h]

theorem sorted_collectFiles {files : List FileName} (h : collectFiles dir names = .ok files) :
    ∃ starts : List UInt64, files.map startEpoch = starts.map some ∧ starts.Pairwise (· < ·) := by
  refine ⟨(sortedEntries names).map Prod.fst, ?_, pairwise_sortedEntries names⟩
  rw [collectFiles_eq_ok h, List.map_map, List.map_map]
  apply List.map_congr_left
  rintro ⟨start, path⟩ hmem
  obtain ⟨-, hstart, -⟩ := collectedAt_spec (mem_sortedEntries.mp hmem)
  exact (startsAt_iff.mp hstart).2

theorem compressed_collectFiles {files : List FileName} (h : collectFiles dir names = .ok files)
    {path variant : FileName} (hpath : path ∈ files) (hvariant : variant ∈ names)
    (hcompressed : isCompressed variant) (hstart : startEpoch variant = startEpoch path) :
    isCompressed path := by
  obtain ⟨start, hcollected⟩ := (mem_collectFiles h).mp hpath
  -- either the file is compressed itself, or no file of the start epoch is
  obtain ⟨-, hpathStart, hkept⟩ := collectedAt_spec hcollected
  rcases hkept with hkept | hnone
  · exact hkept
  · have hvariantStart : StartsAt start variant := startsAt_iff.mpr
      ⟨isCfxpack_of_isCompressed hcompressed, hstart.trans (startsAt_iff.mp hpathStart).2⟩
    exact absurd hcompressed (hnone variant hvariant hvariantStart)

/-- With one range for each start epoch, the chosen file is collected. -/
theorem OneRangePerStart.collectedAt_eq (h : OneRangePerStart names) {start : UInt64}
    {path : FileName} (hpath : path ∈ names) (hstart : StartsAt start path) :
    ∃ chosen, (∀ stop, endEpoch path = some stop → endEpoch chosen = some stop) ∧
      ∀ names', (∀ path, path ∈ names' ↔ path ∈ names) →
        collectedAt names' start = some chosen := by
  obtain ⟨chosen, hchosen, hchosenStart, hother⟩ := h start path hpath hstart
  refine ⟨chosen, fun stop hstop => ?_, ?_⟩
  · by_cases heq : path = chosen
    · rwa [← heq]
    · exact (hother path hpath hstart heq).2.2 stop hstop
  · intro names' hmem
    apply List.lastPreferred_eq_of_forall_eq
    · exact List.mem_filter.mpr ⟨(hmem chosen).mpr hchosen, hchosenStart⟩
    · intro other hmem' hne
      obtain ⟨hmem', hotherStart⟩ := List.mem_filter.mp hmem'
      obtain ⟨hcompressed, hnot, -⟩ := hother other ((hmem other).mp hmem') hotherStart hne
      exact ⟨hcompressed, hnot⟩

theorem OneRangePerStart.reproducible (h : OneRangePerStart names) : Reproducible dir names where
  order names' hperm := by
    have hsame : ∀ start, collectedAt names' start = collectedAt names start := by
      intro start
      cases hcollected : collectedAt names start with
      | some path =>
        obtain ⟨hpath, hstart, -⟩ := collectedAt_spec hcollected
        obtain ⟨chosen, -, hall⟩ := h.collectedAt_eq hpath hstart
        rw [← hcollected, hall names fun _ => Iff.rfl]
        exact hall names' fun _ => hperm.mem_iff
      | none =>
        cases hcollected' : collectedAt names' start with
        | none => rfl
        | some path =>
          obtain ⟨hpath, hstart, -⟩ := collectedAt_spec hcollected'
          obtain ⟨path', hpath'⟩ := exists_collectedAt (hperm.mem_iff.mp hpath) hstart
          cases hcollected.symm.trans hpath'
    rw [collectFiles_eq, collectFiles_eq, sortedEntries_congr hsame]
  sorted _ := sorted_collectFiles
  compressed _ hfiles _ hpath _ hvariant hcompressed hstart _ :=
    compressed_collectFiles hfiles hpath hvariant hcompressed hstart
  complete path hpath hcfxpack start stop hstart hstop := by
    have hstarts := startsAt_iff.mpr ⟨hcfxpack, hstart⟩
    obtain ⟨chosen, hend, hall⟩ := h.collectedAt_eq hpath hstarts
    have hchosen := hall names fun _ => Iff.rfl
    obtain ⟨files, hfiles, hmem⟩ := exists_collectFiles dir hchosen
    obtain ⟨-, hchosenStart, -⟩ := collectedAt_spec hchosen
    exact ⟨files, hfiles, chosen, hmem, (startsAt_iff.mp hchosenStart).2, hend stop hstop⟩

/-- Another file of the start epoch is uncompressed next to a compressed one: otherwise the one
that comes last would be collected. -/
theorem Reproducible.other (h : Reproducible dir names) {start : UInt64} {chosen other : FileName}
    (hchosen : collectedAt names start = some chosen) (hother : other ∈ names)
    (hstart : StartsAt start other) (hne : other ≠ chosen) :
    isCompressed chosen ∧ ¬ isCompressed other := by
  obtain ⟨-, hchosenStart, hkept⟩ := collectedAt_spec hchosen
  obtain ⟨files, hfiles, hchosenFiles⟩ := exists_collectFiles dir hchosen
  have hperm : (names.erase other ++ [other]).Perm names :=
    (List.perm_append_singleton _ _).trans (List.perm_cons_erase hother).symm
  have hlast : ¬ (isCompressed other ∨
      ∀ path ∈ names, StartsAt start path → ¬ isCompressed path) := by
    -- if that file were preferred, it would be collected, against the choice made before
    intro hprefer
    have hcollected : collectedAt (names.erase other ++ [other]) start = some other := by
      rw [collectedAt, List.filter_append, List.filter_singleton, hstart]
      apply List.lastPreferred_concat_self
      refine hprefer.imp_right fun hnone path hpath => ?_
      obtain ⟨hpath, hpathStart⟩ := List.mem_filter.mp hpath
      exact hnone path (List.mem_of_mem_erase hpath) hpathStart
    obtain ⟨files', hfiles', hmem⟩ := exists_collectFiles dir hcollected
    rw [h.order _ hperm, hfiles] at hfiles'
    obtain rfl := Except.ok.inj hfiles'
    obtain ⟨start', hother'⟩ := (mem_collectFiles hfiles).mp hmem
    obtain ⟨-, hstart', -⟩ := collectedAt_spec hother'
    have heq := (startsAt_iff.mp hstart').2.symm.trans (startsAt_iff.mp hstart).2
    rw [Option.some.inj heq, hchosen] at hother'
    exact hne (Option.some.inj hother').symm
  rw [not_or] at hlast
  rcases hkept with hkept | hnone
  · exact ⟨hkept, hlast.1⟩
  · exact absurd hnone hlast.2

/-- **Exactly when the files are reproducible.** -/
theorem reproducible_iff (dir : String) (names : List FileName) :
    Reproducible dir names ↔ OneRangePerStart names := by
  constructor
  · intro h start path hpath hstart
    obtain ⟨chosen, hchosen⟩ := exists_collectedAt hpath hstart
    obtain ⟨hmem, hchosenStart, -⟩ := collectedAt_spec hchosen
    refine ⟨chosen, hmem, hchosenStart, fun other hother hotherStart hne => ?_⟩
    obtain ⟨hcompressed, hnot⟩ := h.other hchosen hother hotherStart hne
    refine ⟨hcompressed, hnot, fun stop hstop => ?_⟩
    obtain ⟨hcfxpack, hotherEpoch⟩ := startsAt_iff.mp hotherStart
    obtain ⟨files, hfiles, path', hpath', hstart', hstop'⟩ :=
      h.complete other hother hcfxpack start stop hotherEpoch hstop
    obtain ⟨start'', hcollected⟩ := (mem_collectFiles hfiles).mp hpath'
    obtain ⟨-, hstart'', -⟩ := collectedAt_spec hcollected
    have heq := (startsAt_iff.mp hstart'').2.symm.trans hstart'
    rw [Option.some.inj heq, hchosen] at hcollected
    rwa [Option.some.inj hcollected]
  · exact fun h => h.reproducible

/-- Two files with the same start epoch: of uncompressed ones the last is collected, and a
compressed one displaces another range. -/
theorem not_reproducible :
    ¬ Reproducible "d" [.utf8 "epochs_1_10.cfxpack".toList, .utf8 "epochs_1_20.cfxpack".toList] ∧
    ¬ Reproducible "d"
      [.utf8 "epochs_1_10.cfxpack.zst".toList, .utf8 "epochs_1_20.cfxpack".toList] := by
  constructor
  · intro h
    have heq := h.order [.utf8 "epochs_1_20.cfxpack".toList, .utf8 "epochs_1_10.cfxpack".toList]
      (List.Perm.swap _ _ _)
    revert heq
    decide +kernel
  · intro h
    obtain ⟨files, hfiles, path, hpath, -, hstop⟩ := h.complete
      (.utf8 "epochs_1_20.cfxpack".toList) (by simp) (by decide +kernel) 1 20 (by decide +kernel)
      (by decide +kernel)
    have hfiles' : collectFiles "d"
        [.utf8 "epochs_1_10.cfxpack.zst".toList, .utf8 "epochs_1_20.cfxpack".toList] =
          .ok [.utf8 "epochs_1_10.cfxpack.zst".toList] := by decide +kernel
    obtain rfl := Except.ok.inj (hfiles.symm.trans hfiles')
    obtain rfl := List.mem_singleton.mp hpath
    revert hstop
    decide +kernel

end Cfxpack
