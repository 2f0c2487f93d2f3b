import OxyC.Shell.Jobs
import OxyC.Shell.Reveal

/-!
# The entries of a directory

What `handle_reveal` does with an open directory: `readdir` until it returns
nothing, `qsort`, and a line or a row of names.  The names are collected in the
array `files`; the loop does not look at its size.
-/

namespace OxyC.Shell

open OxyC.Foundation

def filesSize : Nat := 1024

def shown (a : Bool) (name : List Char) : Bool := a || name.head? != some '.'

/-- The loop over `readdir`; `none` where `files` is full and is written all the same. -/
def readEntries (a : Bool) : List (List Char) → List (List Char) → Option (List (List Char))
  | [], files => some files
  | name :: entries, files =>
      if !a && name.head? = some '.' then readEntries a entries files
      else if files.length < filesSize then readEntries a entries (files ++ [name])
      else none

def printFiles (l : Bool) (files : List (List Char)) : List (List Char) :=
  (files.map fun file => if l then file ++ ['\n'] else file ++ [' ']) ++
    if l then [] else [['\n']]

section Listing

variable {δ : Type} (qsort : (List Char → List Char → Bool) → List (List Char) → List (List Char))
  (entries : δ → List (List Char))

/-- `handle_reveal` behind `opendir`; `cmpfunc` is `strcmp`. -/
def listEntries (a l : Bool) (names : List (List Char)) : Option (List (List Char)) := do
  let files ← readEntries a names []
  some (printFiles l (qsort strcmpPos files))

/-- The texts that an output stands for, where each directory has its entries. -/
def Output.texts : Output δ → Option (List (List Char))
  | .text line => some [line]
  | .listing d a l => listEntries qsort a l (entries d)

end Listing

/-! ## The loop -/

section Listing

variable {δ : Type} {qsort : (List Char → List Char → Bool) → List (List Char) → List (List Char)}
  {entries : δ → List (List Char)} {d : δ} {a l : Bool}

end Listing

end OxyC.Shell
