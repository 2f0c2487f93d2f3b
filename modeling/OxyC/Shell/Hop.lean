import OxyC.Foundation.Directories
import OxyC.Foundation.Trace
import Mathlib.Data.List.Basic

/-!
# The current directory

`hop` and `reveal` over a fixed tree of directories.  The process has a current
directory, and the shell keeps texts: `dir_name` for the prompt, `last_dir` for
`hop -` and `prev_dir_reveal` for `reveal -`.
-/

namespace OxyC.Shell

open OxyC.Foundation

/-- The size that `getcwd` is called with, and that of most buffers for a path. -/
def cwdSize : Nat := 1024

/-- What `make_init_dir_name` allocates for `dir_name`; `getcwd` is told `cwdSize` there too. -/
def dirNameSize : Nat := 1000

/-- The directory in which the shell was started; `getcwd` could write its path. -/
structure Site (δ : Type) where
  tree : DirTree δ
  home : δ
  fits : (tree.path home).length < cwdSize

structure Session (δ : Type) where
  cwd : δ
  dirName : List Char
  lastDir : List Char
  prevDirReveal : List Char

inductive Output (δ : Type) where
  | text (line : List Char)
  /-- The entries of a directory, with the flags `a` and `l`. -/
  | listing (d : δ) (a l : Bool)

def noSuchDirectory {δ : Type} : Output δ := .text "No such directory!\n".toList

section Site

variable {δ : Type} (S : Site δ)

def Site.shellHome : List Char := S.tree.path S.home

/-- The first prompt: `make_init_dir_name` finds the directory it is started in. -/
def Site.opening : Session δ := ⟨S.home, ['~'], [], []⟩

def abbreviate (text : List Char) : List Char := if text = S.shellHome then ['~'] else text

/-! ## `hop` -/

/-- A round of the loop of `handle_hop`; `none` where `getcwd` does not fit into `dir_name`. -/
def hopTarget (target : List Char) (s : Session δ) : Option (Session δ × List (Output δ)) :=
  if target = ['~'] ∨ target = S.shellHome then
    match S.tree.chdir s.cwd S.shellHome with
    | some d => do
        let text ← S.tree.getcwd dirNameSize d
        some ({ s with cwd := d, dirName := text, lastDir := s.dirName }, [])
    | none => some (s, [noSuchDirectory])
  else if target = ['-'] then
    if s.lastDir = [] then some (s, [])
    else
      match S.tree.chdir s.cwd s.lastDir with
      | some d => do
          let text ← S.tree.getcwd dirNameSize d
          some ({ s with cwd := d, dirName := abbreviate S text, lastDir := s.dirName },
            [.text (text ++ ['\n'])])
      | none => some (s, [noSuchDirectory])
  else
    match S.tree.chdir s.cwd target with
    | some d => do
        let text ← S.tree.getcwd dirNameSize d
        some ({ s with cwd := d, dirName := abbreviate S text, lastDir := s.dirName }, [])
    | none => some (s, [noSuchDirectory])

def hopTargets : Mealy (List Char) (Output δ) (Session δ) := ⟨hopTarget S⟩

def handleHop (argv : List (List Char)) (s : Session δ) :
    Option (Session δ × List (Output δ)) :=
  (hopTargets S).run argv.tail
    { s with lastDir := if s.lastDir = ['~'] then S.shellHome else s.lastDir }

/-! ## `reveal` -/

/-- What `assign_pathname` has written so far, and where it has gone with `chdir`. -/
structure Assigned (δ : Type) where
  pathname : List Char
  a : Bool
  l : Bool
  pathCount : Nat
  cwd : δ

def currentDir (s : Session δ) : List Char :=
  if s.dirName = ['~'] then S.shellHome else s.dirName

/-- The branch for `..`; the parent is found by going there and back. -/
def assignParent (s : Session δ) (p : Assigned δ) : Option (Assigned δ) :=
  let temp := currentDir S s
  match S.tree.chdir p.cwd temp with
  | some d =>
      match S.tree.chdir d ['.', '.'] with
      | some d' => do
          let text ← S.tree.getcwd cwdSize d'
          some { p with pathname := text, cwd := (S.tree.chdir d' temp).getD d' }
      | none => some { p with cwd := d }
  | none => some p

/-- The loop of `assign_pathname`; an error ends it. -/
def assignLoop (s : Session δ) :
    List (List Char) → Assigned δ → Option (Assigned δ × List (Output δ))
  | [], p => some (p, [])
  | arg :: args, p =>
      if arg.head? = some '-' ∧ 1 < arg.length then
        assignLoop s args
          { p with a := p.a || arg.tail.contains 'a', l := p.l || arg.tail.contains 'l' }
      else
        let p := { p with pathCount := p.pathCount + 1 }
        if p.pathCount > 1 then some (p, [.text "reveal: Invalid Syntax!\n".toList])
        else if arg = ['-'] then
          if s.prevDirReveal ≠ [] then assignLoop s args { p with pathname := s.prevDirReveal }
          else some (p, [noSuchDirectory])
        else if arg = ['~'] then assignLoop s args { p with pathname := S.shellHome }
        else if arg = ['.'] then assignLoop s args { p with pathname := currentDir S s }
        else if arg = ['.', '.'] then do
          let p ← assignParent S s p
          assignLoop s args p
        else assignLoop s args { p with pathname := arg }

def assignPathname (argv : List (List Char)) (s : Session δ) :
    Option (Assigned δ × List (Output δ)) :=
  assignLoop S s argv.tail ⟨currentDir S s, false, false, 0, s.cwd⟩

def handleReveal (path : List Char) (a l : Bool) (s : Session δ) :
    Session δ × List (Output δ) :=
  match S.tree.opendir s.cwd path with
  | some d => ({ s with prevDirReveal := path }, [.listing d a l])
  | none => (s, [noSuchDirectory])

/-- Both calls that the shell makes for `reveal`. -/
def reveal (argv : List (List Char)) (s : Session δ) : Option (Session δ × List (Output δ)) := do
  let (p, errors) ← assignPathname S argv s
  let (s', out) := handleReveal S p.pathname p.a p.l { s with cwd := p.cwd }
  some (s', errors ++ out)

end Site

/-- The shell is in `/h`, below the root. -/
def homeBelowRoot : Site Bool := ⟨DirTree.below ['h'] (by decide), true, by decide⟩

end OxyC.Shell
