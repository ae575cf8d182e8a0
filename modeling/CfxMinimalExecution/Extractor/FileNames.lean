import CfxMinimalExecution.Cfxpack.CollectFiles
import CfxMinimalExecution.Extractor.Pack

/-!
# The names of the containers

The packer names a container after the prefix that it is given and its first and last epochs. The
readers of the archive take the epochs from the right end of the name; the flag patcher takes the
first one after a fixed prefix.

## Main definitions

* `FlagPatch.startEpoch`, `collectSortedPackFiles`: the patcher's reader of names, and its files
* `Pack`: a container with a prefix that the command accepts
* `StartFound pack`: the patcher finds the start epoch of a container

## Main results

* `startEpoch_fileName`, `endEpoch_fileName`: the epochs are read from the right
* `patchStartEpoch_fileName`: what the patcher reads, under its own prefix and under another one
* `packNames_iff`: exactly when the patcher reads the epochs, and keeps a range of them
-/

namespace Extractor

open Cfxpack

/-! ## The patcher -/

/-- `str::strip_prefix`. -/
def stripPrefix (start name : List Char) : Option (List Char) :=
  if start.isPrefixOf name then some (name.drop start.length) else none

def maxEpochNumber : UInt64 := UInt64.ofNat (UInt64.size - 1)

/-- The start epoch of a name, or the largest epoch when there is none. -/
def FlagPatch.startEpoch (path : FileName) : UInt64 :=
  (do
    let name ← path.toStr
    let rest ← stripPrefix "epochs_".toList name
    let first ← (rest.splitOn '_').head?
    parseU64 first : Option UInt64).getD maxEpochNumber

/-- `Path::extension`: what stands after the last dot, unless nothing stands before it. -/
def extension {α : Type} [DecidableEq α] (dot : α) (name : List α) : Option (List α) :=
  match name.reverse.dropWhile (· ≠ dot) with
  | _ :: _ :: _ => some (name.reverse.takeWhile (· ≠ dot)).reverse
  | _ => none

def hasPackExtension : FileName → Bool
  | .utf8 name => extension '.' name = some "cfxpack".toList
  | .other name => extension 0x2e name = some ("cfxpack".toList.map fun c => UInt8.ofNat c.toNat)

/-- The files in the order of their start epochs, limited to those from `minEpoch` on and before
`maxEpoch`. -/
def collectSortedPackFiles (dir : String) (names : List FileName) (maxEpoch minEpoch : Option UInt64) :
    Result (List FileName) := do
  let files := (names.filter hasPackExtension).insertionSort
    fun a b => FlagPatch.startEpoch a ≤ FlagPatch.startEpoch b
  let files := match maxEpoch with
    | some limit => files.filter fun path => FlagPatch.startEpoch path < limit
    | none => files
  let files := match minEpoch with
    | some floor => files.filter fun path => floor ≤ FlagPatch.startEpoch path
    | none => files
  ensure (files ≠ []) s!"no .cfxpack files in {dir}"
  pure files

/-! ## The names -/

/-- A container with a prefix that the command accepts. -/
structure Pack where
  namePrefix : String
  separatorFree : '/' ∉ namePrefix.toList
  start : UInt64
  stop : UInt64

namespace Pack

/-- The name that the packer gives. -/
def fileName (pack : Pack) : FileName :=
  .utf8 (containerPath pack.namePrefix pack.start pack.stop).toList

end Pack

/-- The decimal digits of an epoch. -/
def epochDigits (epoch : UInt64) : List Char := Nat.toDigits 10 epoch.toNat

theorem toList_containerPath (namePrefix : String) (start stop : UInt64) :
    (containerPath namePrefix start stop).toList =
      namePrefix.toList ++ '_' :: (epochDigits start ++ '_' :: (epochDigits stop ++ plainExtension)) := by
  have hunderscore : (toString "_").toList = ['_'] := rfl
  have hextension : (toString ".cfxpack").toList = plainExtension := rfl
  simp only [containerPath, String.toList_append, hunderscore, hextension, epochDigits,
    Nat.toString_eq_repr, Nat.toList_repr, List.append_assoc, List.cons_append, List.nil_append]
  rfl

/-! ## Numbers -/

theorem digitValue_of_isDigit {c : Char} (h : c.isDigit) :
    digitValue c = some (c.toNat - '0'.toNat) := by
  unfold digitValue
  rw [if_pos]
  simpa [Char.isDigit, Char.le_def] using h

/-- Digits that spell a word are read. -/
theorem parseDigits_eq_some {digits : List Char} (hdigits : ∀ c ∈ digits, c.isDigit) {value : ℕ}
    (hlt : Nat.ofDigitChars 10 digits value < UInt64.size) :
    parseDigits value digits = some (UInt64.ofNat (Nat.ofDigitChars 10 digits value)) := by
  induction digits generalizing value with
  | nil => simp [parseDigits]
  | cons c digits ih =>
    obtain ⟨hc, hdigits⟩ := List.forall_mem_cons.mp hdigits
    have hstep : value * 10 + (c.toNat - '0'.toNat) = 10 * value + (c.toNat - '0'.toNat) := by
      rw [Nat.mul_comm]
    rw [Nat.ofDigitChars_cons] at hlt ⊢
    have hle : 10 * value + (c.toNat - '0'.toNat) ≤
        Nat.ofDigitChars 10 digits (10 * value + (c.toNat - '0'.toNat)) := by
      rw [Nat.ofDigitChars_eq_ofDigitChars_zero]
      exact (Nat.le_mul_of_pos_left _ (Nat.pow_pos (by omega))).trans (Nat.le_add_right _ _)
    simp only [parseDigits, digitValue_of_isDigit hc, Option.bind_eq_bind, Option.bind_some, hstep,
      if_pos (hle.trans_lt hlt)]
    exact ih hdigits hlt

theorem isDigit_of_mem_epochDigits {epoch : UInt64} {c : Char} (h : c ∈ epochDigits epoch) :
    c.isDigit := Nat.isDigit_of_mem_toDigits (by omega) (by omega) h

theorem parseU64_epochDigits (epoch : UInt64) : parseU64 (epochDigits epoch) = some epoch := by
  have hdigits : ∀ c ∈ epochDigits epoch, c.isDigit := fun c => isDigit_of_mem_epochDigits
  have hvalue : Nat.ofDigitChars 10 (epochDigits epoch) 0 = epoch.toNat :=
    Nat.ofDigitChars_ten_toDigits
  have hparsed := @parseDigits_eq_some _ hdigits 0 (by rw [hvalue]; exact epoch.toNat_lt)
  rw [hvalue, UInt64.ofNat_toNat] at hparsed
  rcases hlist : epochDigits epoch with _ | ⟨c, digits⟩
  · exact absurd hlist Nat.toDigits_ne_nil
  · -- a digit is not a sign
    have hc : c ≠ '+' := by
      rintro rfl
      have hdigit := hdigits '+' (by rw [hlist]; exact List.mem_cons_self)
      revert hdigit
      decide
    rw [hlist] at hparsed
    simpa [parseU64, hc] using hparsed

theorem underscore_not_mem_epochDigits (epoch : UInt64) : '_' ∉ epochDigits epoch :=
  Nat.underscore_not_in_toDigits

/-! ## From the right -/

theorem splitOn_epochDigits (epoch : UInt64) :
    (epochDigits epoch).splitOn '_' = [epochDigits epoch] :=
  List.splitOn_eq_singleton (underscore_not_mem_epochDigits epoch)

variable (pack : Pack)

/-- A name without its extension. -/
theorem cfxpackStem_fileName : cfxpackStem pack.fileName =
    some (pack.namePrefix.toList ++ '_' :: (epochDigits pack.start ++ '_' :: epochDigits pack.stop)) := by
  have hname : (containerPath pack.namePrefix pack.start pack.stop).toList =
      (pack.namePrefix.toList ++ '_' :: (epochDigits pack.start ++ '_' :: epochDigits pack.stop)) ++
        plainExtension := by
    rw [toList_containerPath]
    simp
  have hplain : plainExtension.isSuffixOf
      (containerPath pack.namePrefix pack.start pack.stop).toList := by
    rw [hname, List.isSuffixOf_iff_suffix]
    exact List.suffix_append _ _
  have hzstd : ¬ zstdExtension.isSuffixOf
      (containerPath pack.namePrefix pack.start pack.stop).toList := by
    rw [hname, List.isSuffixOf_iff_suffix]
    -- the last characters differ
    rintro ⟨before, heq⟩
    have hlast := congrArg List.getLast? heq
    have ht : zstdExtension.getLast? = some 't' := rfl
    have hk : plainExtension.getLast? = some 'k' := rfl
    rw [List.getLast?_append, List.getLast?_append, ht, hk] at hlast
    cases hlast
  rw [Pack.fileName, cfxpackStem, FileName.toStr, Option.bind_eq_bind, Option.bind_some, stripSuffix,
    if_neg hzstd, Option.none_or, stripSuffix, if_pos hplain, hname, List.length_append,
    Nat.add_sub_cancel, List.take_left]

theorem rsplit_fileName :
    rsplit '_' (pack.namePrefix.toList ++
      '_' :: (epochDigits pack.start ++ '_' :: epochDigits pack.stop)) =
        epochDigits pack.stop :: epochDigits pack.start ::
          (pack.namePrefix.toList.splitOn '_').reverse := by
  unfold rsplit
  rw [List.splitOn_append_cons_self, List.splitOn_append_cons_self, splitOn_epochDigits,
    splitOn_epochDigits]
  simp

theorem startEpoch_fileName : startEpoch pack.fileName = some pack.start := by
  simp [startEpoch, cfxpackStem_fileName, rsplit_fileName, parseU64_epochDigits]

theorem endEpoch_fileName : endEpoch pack.fileName = some pack.stop := by
  simp [endEpoch, cfxpackStem_fileName, rsplit_fileName, parseU64_epochDigits]

/-! ## From the left -/

/-- A name starts with a word and a separator after it when its first part is the word, or starts so
itself. -/
theorem append_separator_prefix_iff {α : Type} {word first rest : List α} {separator : α}
    (h : separator ∉ word) : word ++ [separator] <+: first ++ separator :: rest ↔
      first = word ∨ word ++ [separator] <+: first := by
  constructor
  · rintro ⟨tail, heq⟩
    rcases List.append_eq_append_iff.mp heq with ⟨middle, rfl, -⟩ | ⟨middle, hword, hrest⟩
    · exact .inr ⟨middle, rfl⟩
    · rcases List.eq_nil_or_concat middle with rfl | ⟨middle, last, rfl⟩
      · exact .inr ⟨[], by simpa using hword⟩
      · rw [List.concat_eq_append, ← List.append_assoc] at hword
        rw [List.concat_eq_append] at hrest
        obtain ⟨hword, -⟩ := List.append_inj' hword rfl
        rcases middle with _ | ⟨c, middle⟩
        · exact .inl (by simpa using hword.symm)
        · -- the word goes on with the separator
          obtain rfl : separator = c := (List.cons.inj hrest).1
          exact absurd (hword ▸ by simp) h
  · rintro (rfl | ⟨middle, rfl⟩)
    · exact ⟨rest, by simp⟩
    · exact ⟨middle ++ separator :: rest, by simp⟩

/-- The first part of a name. -/
theorem head?_splitOn (separator : Char) (name : List Char) :
    (name.splitOn separator).head? = some (name.takeWhile (· ≠ separator)) := by
  induction name with
  | nil => rfl
  | cons c name ih =>
    rw [List.splitOn_cons_eq_if_modifyHead, List.takeWhile_cons]
    by_cases heq : c = separator
    · simp [heq]
    · simp [heq, List.head?_modifyHead, ih]

theorem takeWhile_append_separator {separator : Char} (name rest : List Char) :
    (name ++ separator :: rest).takeWhile (· ≠ separator) = name.takeWhile (· ≠ separator) := by
  induction name with
  | nil => simp
  | cons c name ih =>
    rw [List.cons_append, List.takeWhile_cons, List.takeWhile_cons, ih]

theorem takeWhile_epochDigits (epoch : UInt64) :
    (epochDigits epoch).takeWhile (· ≠ '_') = epochDigits epoch := by
  have hfirst := head?_splitOn '_' (epochDigits epoch)
  rw [splitOn_epochDigits] at hfirst
  exact (Option.some.inj hfirst).symm

/-- The number after the patcher's own prefix and an underscore, or else the largest epoch. -/
def epochAfterOwn (name : List Char) : UInt64 :=
  (do
    let rest ← stripPrefix "epochs_".toList name
    parseU64 (rest.takeWhile (· ≠ '_')) : Option UInt64).getD maxEpochNumber

theorem patchStartEpoch_eq (name : List Char) :
    FlagPatch.startEpoch (.utf8 name) = epochAfterOwn name := by
  simp only [FlagPatch.startEpoch, epochAfterOwn, FileName.toStr, head?_splitOn, Option.bind_eq_bind,
    Option.bind_some]

theorem stripPrefix_eq_some {start name rest : List Char} :
    stripPrefix start name = some rest ↔ name = start ++ rest := by
  unfold stripPrefix
  constructor
  · intro h
    split at h
    case isTrue hstart =>
      obtain ⟨tail, rfl⟩ := List.isPrefixOf_iff_prefix.mp hstart
      obtain rfl : tail = rest := by simpa using h
      rfl
    case isFalse => cases h
  · rintro rfl
    rw [if_pos (List.isPrefixOf_iff_prefix.mpr (List.prefix_append _ _)), List.drop_left]

/-- **What the patcher reads** of a name: its start epoch under the patcher's own prefix, and under
another one what it finds in the prefix. -/
theorem patchStartEpoch_fileName : FlagPatch.startEpoch pack.fileName =
    if pack.namePrefix = "epochs" then pack.start else epochAfterOwn pack.namePrefix.toList := by
  rw [Pack.fileName, patchStartEpoch_eq, toList_containerPath]
  generalize hmore : epochDigits pack.start ++ '_' :: (epochDigits pack.stop ++ plainExtension) = more
  have hword : '_' ∉ "epochs".toList := by decide
  split
  -- under its own prefix the patcher reads the digits of the start epoch
  case isTrue hown =>
    have hstrip : stripPrefix "epochs_".toList (pack.namePrefix.toList ++ '_' :: more) = some more := by
      rw [stripPrefix_eq_some, hown]
      rfl
    rw [epochAfterOwn, hstrip, Option.bind_eq_bind, Option.bind_some, ← hmore,
      takeWhile_append_separator, takeWhile_epochDigits, parseU64_epochDigits, Option.getD_some]
  -- under another prefix the name starts with the patcher's own one only if the prefix does
  case isFalse hother =>
    unfold epochAfterOwn
    cases hstrip : stripPrefix "epochs_".toList pack.namePrefix.toList with
    | some rest =>
      have hname : stripPrefix "epochs_".toList (pack.namePrefix.toList ++ '_' :: more) =
          some (rest ++ '_' :: more) := by
        rw [stripPrefix_eq_some, stripPrefix_eq_some.mp hstrip, List.append_assoc]
      rw [hname, Option.bind_eq_bind, Option.bind_some, takeWhile_append_separator]
      rfl
    | none =>
      have hname : stripPrefix "epochs_".toList (pack.namePrefix.toList ++ '_' :: more) = none := by
        by_contra hsome
        obtain ⟨rest, hrest⟩ := Option.ne_none_iff_exists'.mp hsome
        have hstart := (append_separator_prefix_iff hword).mp ⟨rest, (stripPrefix_eq_some.mp hrest).symm⟩
        rcases hstart with hown | ⟨tail, htail⟩
        · exact hother (String.toList_inj.mp hown)
        · have htail' : stripPrefix "epochs_".toList pack.namePrefix.toList = some tail :=
            stripPrefix_eq_some.mpr htail.symm
          cases hstrip.symm.trans htail'
      rw [hname]

/-! ## The epochs of a container -/

/-- The readers find the epochs that the packer wrote. -/
structure RangeReadBack (pack : Pack) : Prop where
  start : startEpoch pack.fileName = some pack.start
  stop : endEpoch pack.fileName = some pack.stop
  patchStart : FlagPatch.startEpoch pack.fileName = pack.start

/-- The prefix itself starts with the patcher's own and an underscore, and the number `epoch` up to
the next underscore. -/
def SpellsEpoch (namePrefix : List Char) (epoch : UInt64) : Prop :=
  ∃ rest, namePrefix = "epochs_".toList ++ rest ∧
    parseU64 (rest.takeWhile (· ≠ '_')) = some epoch

/-- The container has the patcher's own prefix, or one that happens to spell the start epoch, or one
that spells no epoch while the start epoch is the one that stands for none. -/
def StartFound (pack : Pack) : Prop :=
  pack.namePrefix = "epochs" ∨ SpellsEpoch pack.namePrefix.toList pack.start ∨
    (pack.start = maxEpochNumber ∧ ∀ epoch, ¬ SpellsEpoch pack.namePrefix.toList epoch)

theorem spellsEpoch_iff {namePrefix : List Char} {epoch : UInt64} :
    SpellsEpoch namePrefix epoch ↔ (do
      let rest ← stripPrefix "epochs_".toList namePrefix
      parseU64 (rest.takeWhile (· ≠ '_'))) = some epoch := by
  rw [Option.bind_eq_bind, Option.bind_eq_some_iff]
  exact exists_congr fun rest => and_congr_left' stripPrefix_eq_some.symm

theorem epochAfterOwn_eq_iff {namePrefix : List Char} {epoch : UInt64} :
    epochAfterOwn namePrefix = epoch ↔ SpellsEpoch namePrefix epoch ∨
      (epoch = maxEpochNumber ∧ ∀ other, ¬ SpellsEpoch namePrefix other) := by
  simp only [spellsEpoch_iff, epochAfterOwn]
  generalize (do
    let rest ← stripPrefix "epochs_".toList namePrefix
    parseU64 (rest.takeWhile (· ≠ '_')) : Option UInt64) = read
  cases read with
  | none => simp [eq_comm]
  | some found => simp

theorem patchStartEpoch_eq_iff :
    FlagPatch.startEpoch pack.fileName = pack.start ↔ StartFound pack := by
  rw [patchStartEpoch_fileName, StartFound]
  split
  case isTrue hown => simp [hown]
  case isFalse hother => rw [epochAfterOwn_eq_iff, or_iff_right hother]

theorem rangeReadBack_iff : RangeReadBack pack ↔ StartFound pack := by
  rw [← patchStartEpoch_eq_iff]
  exact ⟨fun h => h.patchStart, fun h => ⟨startEpoch_fileName pack, endEpoch_fileName pack, h⟩⟩

/-! ## The files of a range -/

theorem takeWhile_dropWhile_append_cons {α : Type} [DecidableEq α] {separator : α} {first : List α}
    (h : separator ∉ first) (rest : List α) :
    (first ++ separator :: rest).takeWhile (· ≠ separator) = first ∧
      (first ++ separator :: rest).dropWhile (· ≠ separator) = separator :: rest := by
  have hall : ∀ c ∈ first, decide (c ≠ separator) = true := by
    intro c hc
    exact decide_eq_true fun heq => h (heq ▸ hc)
  rw [List.takeWhile_append_of_pos hall, List.dropWhile_append_of_pos hall]
  simp

/-- What stands after the last dot, when something stands before it. -/
theorem extension_append {α : Type} [DecidableEq α] {dot : α} {before after : List α}
    (hbefore : before ≠ []) (hafter : dot ∉ after) :
    extension dot (before ++ dot :: after) = some after := by
  have hreverse : (before ++ dot :: after).reverse = after.reverse ++ dot :: before.reverse := by simp
  have hreversed : dot ∉ after.reverse := by rwa [List.mem_reverse]
  obtain ⟨htake, hdrop⟩ := takeWhile_dropWhile_append_cons hreversed before.reverse
  unfold extension
  rw [hreverse, htake, hdrop]
  rcases hlist : before.reverse with _ | ⟨c, before'⟩
  · exact absurd (List.reverse_eq_nil_iff.mp hlist) hbefore
  · simp

theorem hasPackExtension_fileName : hasPackExtension pack.fileName := by
  have hname : (containerPath pack.namePrefix pack.start pack.stop).toList =
      (pack.namePrefix.toList ++ '_' :: (epochDigits pack.start ++ '_' :: epochDigits pack.stop)) ++
        '.' :: "cfxpack".toList := by
    have hextension : plainExtension = '.' :: "cfxpack".toList := rfl
    rw [toList_containerPath, hextension, List.append_assoc, List.cons_append, List.append_assoc,
      List.cons_append]
  have hstem : pack.namePrefix.toList ++
      '_' :: (epochDigits pack.start ++ '_' :: epochDigits pack.stop) ≠ [] :=
    List.append_ne_nil_of_right_ne_nil _ (List.cons_ne_nil _ _)
  have hdot : '.' ∉ "cfxpack".toList := by decide
  have hextension := extension_append hstem hdot
  rw [← hname] at hextension
  exact decide_eq_true hextension

/-- The epoch is in the range from `minEpoch` on and before `maxEpoch`. -/
def inRange (maxEpoch minEpoch : Option UInt64) (epoch : UInt64) : Bool :=
  maxEpoch.all (epoch < ·) && minEpoch.all (· ≤ epoch)

/-- Of the containers of a directory, exactly those of the range are kept, in ascending order. -/
def CollectsRange (dir : String) (packs : List Pack) : Prop :=
  ∀ maxEpoch minEpoch : Option UInt64, ∃ kept : List Pack,
    kept.Perm (packs.filter fun pack => inRange maxEpoch minEpoch pack.start) ∧
    kept.Pairwise (fun a b => a.start ≤ b.start) ∧
    collectSortedPackFiles dir (packs.map Pack.fileName) maxEpoch minEpoch = (do
      ensure (kept.map Pack.fileName ≠ []) s!"no .cfxpack files in {dir}"
      pure (kept.map Pack.fileName))

/-- The files that the patcher takes, by the epochs that it reads. -/
theorem collectSortedPackFiles_eq {dir : String} {names : List FileName}
    (hnames : ∀ path ∈ names, hasPackExtension path) (maxEpoch minEpoch : Option UInt64) :
    collectSortedPackFiles dir names maxEpoch minEpoch = (do
      let files := (names.insertionSort fun a b =>
        FlagPatch.startEpoch a ≤ FlagPatch.startEpoch b).filter
          fun path => inRange maxEpoch minEpoch (FlagPatch.startEpoch path)
      ensure (files ≠ []) s!"no .cfxpack files in {dir}"
      pure files) := by
  unfold collectSortedPackFiles
  rw [List.filter_eq_self.mpr hnames]
  cases maxEpoch <;> cases minEpoch <;> simp [inRange, List.filter_filter, Bool.and_comm]

instance packStart_total : Std.Total fun a b : Pack => a.start ≤ b.start :=
  ⟨fun a b => UInt64.le_total a.start b.start⟩

instance packStart_trans : IsTrans Pack fun a b => a.start ≤ b.start :=
  ⟨fun _ _ _ => UInt64.le_trans⟩

variable {pack} {dir : String} {packs : List Pack}

theorem collectsRange_of_startFound (h : ∀ pack ∈ packs, StartFound pack) :
    CollectsRange dir packs := by
  intro maxEpoch minEpoch
  have hread : ∀ pack ∈ packs, FlagPatch.startEpoch pack.fileName = pack.start :=
    fun pack hpack => patchStartEpoch_eq_iff pack |>.mpr (h pack hpack)
  have hnames : ∀ path ∈ packs.map Pack.fileName, hasPackExtension path :=
    List.forall_mem_map.mpr fun pack _ => hasPackExtension_fileName pack
  have hsorted : (packs.insertionSort fun a b => a.start ≤ b.start).map Pack.fileName =
      (packs.map Pack.fileName).insertionSort
        fun a b => FlagPatch.startEpoch a ≤ FlagPatch.startEpoch b := by
    refine List.map_insertionSort _ _ _ _ fun a ha b hb => ?_
    rw [hread a ha, hread b hb]
  have hkept : ((packs.insertionSort fun a b => a.start ≤ b.start).map Pack.fileName).filter
      (fun path => inRange maxEpoch minEpoch (FlagPatch.startEpoch path)) =
        ((packs.insertionSort fun a b => a.start ≤ b.start).filter
          fun pack => inRange maxEpoch minEpoch pack.start).map Pack.fileName := by
    rw [List.filter_map]
    congr 1
    apply List.filter_congr
    intro pack hpack
    rw [Function.comp_apply, hread pack ((List.mem_insertionSort _).mp hpack)]
  refine ⟨(packs.insertionSort fun a b => a.start ≤ b.start).filter
    fun pack => inRange maxEpoch minEpoch pack.start, ?_, ?_, ?_⟩
  · exact (List.perm_insertionSort _ _).filter _
  · exact (List.pairwise_insertionSort _ _).filter _
  · rw [collectSortedPackFiles_eq hnames, ← hsorted, hkept]

/-- A container that is kept for a range has a start epoch in it, as the patcher reads it. -/
theorem CollectsRange.patchStart (h : CollectsRange dir packs) {pack : Pack} (hpack : pack ∈ packs)
    {maxEpoch minEpoch : Option UInt64} (hrange : inRange maxEpoch minEpoch pack.start) :
    inRange maxEpoch minEpoch (FlagPatch.startEpoch pack.fileName) := by
  obtain ⟨kept, hperm, -, hfiles⟩ := h maxEpoch minEpoch
  have hnames : ∀ path ∈ packs.map Pack.fileName, hasPackExtension path :=
    List.forall_mem_map.mpr fun pack _ => hasPackExtension_fileName pack
  have hmem : pack ∈ kept := hperm.mem_iff.mpr (List.mem_filter.mpr ⟨hpack, hrange⟩)
  have hfile : pack.fileName ∈ kept.map Pack.fileName := List.mem_map_of_mem hmem
  rw [collectSortedPackFiles_eq hnames, ensure_of (List.ne_nil_of_mem hfile)] at hfiles
  obtain ⟨-, -, hsame⟩ := Except.bind_eq_ok.mp hfiles
  rw [← Except.ok.inj hsame] at hfile
  exact (List.mem_filter.mp hfile).2

theorem startFound_of_collectsRange (h : CollectsRange dir packs) :
    ∀ pack ∈ packs, StartFound pack := by
  intro pack hpack
  rw [← patchStartEpoch_eq_iff]
  have hfloor : inRange none (some pack.start) (FlagPatch.startEpoch pack.fileName) :=
    h.patchStart hpack (by simp [inRange])
  have hle : pack.start ≤ FlagPatch.startEpoch pack.fileName := by simpa [inRange] using hfloor
  by_contra hne
  have hlt : pack.start < FlagPatch.startEpoch pack.fileName :=
    UInt64.lt_of_le_of_ne hle (Ne.symm hne)
  -- the range ends before the epoch that the patcher reads
  have hlimit : inRange (some (FlagPatch.startEpoch pack.fileName)) none
      (FlagPatch.startEpoch pack.fileName) := h.patchStart hpack (by simpa [inRange] using hlt)
  simp [inRange] at hlimit

/-- With another prefix than the patcher's own, no two start epochs are both found. -/
theorem startFound_unique {namePrefix : String} (hslash : '/' ∉ namePrefix.toList)
    (hother : namePrefix ≠ "epochs") {first second stop : UInt64}
    (hfirst : StartFound ⟨namePrefix, hslash, first, stop⟩)
    (hsecond : StartFound ⟨namePrefix, hslash, second, stop⟩) : first = second := by
  rw [← patchStartEpoch_eq_iff, patchStartEpoch_fileName, if_neg hother] at hfirst hsecond
  exact hfirst.symm.trans hsecond

/-- **The names of the containers.** The readers find the epochs in a name, and the patcher keeps
exactly the containers of every range, precisely when the prefix is the patcher's own or spells the
start epoch itself. So a prefix is safe for every range of epochs only when it is the patcher's
own. -/
theorem packNames_iff (pack : Pack) (dir : String) (packs : List Pack) :
    (RangeReadBack pack ↔ StartFound pack) ∧
    (CollectsRange dir packs ↔ ∀ pack ∈ packs, StartFound pack) ∧
    ((∀ other : Pack, other.namePrefix = pack.namePrefix → RangeReadBack other) ↔
      pack.namePrefix = "epochs") := by
  refine ⟨rangeReadBack_iff pack, ⟨startFound_of_collectsRange, collectsRange_of_startFound⟩,
    fun h => ?_, fun hown other hsame => ?_⟩
  · -- two containers that differ in the start epoch only
    by_contra hother
    have hzero : StartFound ⟨pack.namePrefix, pack.separatorFree, 0, 0⟩ :=
      (rangeReadBack_iff _).mp (h _ rfl)
    have hone : StartFound ⟨pack.namePrefix, pack.separatorFree, 1, 0⟩ :=
      (rangeReadBack_iff _).mp (h _ rfl)
    have hsame : (0 : UInt64) = 1 := startFound_unique pack.separatorFree hother hzero hone
    revert hsame
    decide
  · exact (rangeReadBack_iff other).mpr (.inl (hsame.trans hown))

/-- The patcher takes `packs_1_10.cfxpack` for a file at the largest epoch, and leaves it out of the
epochs before 100. -/
theorem not_rangeReadBack_otherPrefix :
    ¬ RangeReadBack ⟨"packs", by decide, 1, 10⟩ ∧
    FlagPatch.startEpoch (.utf8 "packs_1_10.cfxpack".toList) = maxEpochNumber ∧
    collectSortedPackFiles "packed" [.utf8 "packs_1_10.cfxpack".toList] (some 100) none =
      .error (.error "no .cfxpack files in packed") := by
  have hread : FlagPatch.startEpoch (.utf8 "packs_1_10.cfxpack".toList) = maxEpochNumber := rfl
  refine ⟨?_, hread, rfl⟩
  intro h
  have hstart : maxEpochNumber = 1 := hread.symm.trans h.patchStart
  revert hstart
  decide

end Extractor
