import OxyC.Foundation.Slice

/-!
# Input streams and byte copies of the C library

`InputFile` is a regular file opened for reading: its contents, the file
position and the end-of-file indicator.  The two fields that are proofs hold
after `fopen` and are kept by every operation below.
-/

namespace OxyC.Foundation

variable {α : Type*}

structure InputFile (α : Type*) where
  contents : List α
  pos : Nat
  eof : Bool
  pos_le : pos ≤ contents.length
  pos_of_eof : eof = true → pos = contents.length

namespace InputFile

def fopen (contents : List α) : InputFile α :=
  ⟨contents, 0, false, Nat.zero_le _, by simp⟩

/-- The elements `fread(_, 1, n, f)` transfers; its result is their number. -/
def chunk (n : Nat) (f : InputFile α) : List α := (f.contents.drop f.pos).take n

theorem length_chunk (n : Nat) (f : InputFile α) :
    (f.chunk n).length = min n (f.contents.length - f.pos) := by
  simp [chunk]

theorem pos_add_length_chunk_le (n : Nat) (f : InputFile α) :
    f.pos + (f.chunk n).length ≤ f.contents.length := by
  have := f.pos_le
  rw [length_chunk]
  omega

/-- A short read sets the end-of-file indicator. -/
def fread (n : Nat) (f : InputFile α) : InputFile α where
  contents := f.contents
  pos := f.pos + (f.chunk n).length
  eof := f.eof || decide ((f.chunk n).length < n)
  pos_le := f.pos_add_length_chunk_le n
  pos_of_eof := by
    have hle := f.pos_le
    have heof := f.pos_of_eof
    simp only [Bool.or_eq_true, decide_eq_true_eq, length_chunk]
    rintro (h | h)
    · have := heof h
      omega
    · omega

/-- `fseek(f, -n, SEEK_CUR)` clears the end-of-file indicator. -/
def fseekBack (n : Nat) (f : InputFile α) : InputFile α where
  contents := f.contents
  pos := f.pos - n
  eof := false
  pos_le := Nat.le_trans (Nat.sub_le _ _) f.pos_le
  pos_of_eof := by simp

@[simp] theorem contents_fopen (xs : List α) : (fopen xs).contents = xs := rfl
@[simp] theorem pos_fopen (xs : List α) : (fopen xs).pos = 0 := rfl
@[simp] theorem contents_fread (n : Nat) (f : InputFile α) :
    (f.fread n).contents = f.contents := rfl
@[simp] theorem pos_fread (n : Nat) (f : InputFile α) :
    (f.fread n).pos = f.pos + (f.chunk n).length := rfl
@[simp] theorem contents_fseekBack (n : Nat) (f : InputFile α) :
    (f.fseekBack n).contents = f.contents := rfl
@[simp] theorem pos_fseekBack (n : Nat) (f : InputFile α) :
    (f.fseekBack n).pos = f.pos - n := rfl

theorem sliceAt_chunk (n : Nat) (f : InputFile α) :
    SliceAt f.contents f.pos (f.chunk n) :=
  SliceAt.of_take_drop _ n f.pos_le

theorem pos_of_chunk_empty {n : Nat} {f : InputFile α} (hn : 0 < n)
    (h : (f.chunk n).length = 0) : f.pos = f.contents.length := by
  have := f.pos_le
  rw [length_chunk] at h
  omega

end InputFile

section Lines

variable [DecidableEq α] {nl : α}

def takeThrough (nl : α) : List α → List α
  | [] => []
  | x :: xs => if x = nl then [x] else x :: takeThrough nl xs

/-- `fgets` with a buffer of `size` elements on what is left of a stream. -/
def fgets (nl : α) (size : Nat) (stream : List α) : Option (List α × List α) :=
  if stream = [] then none
  else
    let line := takeThrough nl (stream.take (size - 1))
    some (line, stream.drop line.length)

theorem takeThrough_line {line : List α} (h : nl ∉ line) (rest : List α) :
    takeThrough nl (line ++ nl :: rest) = line ++ [nl] := by
  induction line with
  | nil => simp [takeThrough]
  | cons x line ih =>
      simp only [List.mem_cons, not_or] at h
      simp [takeThrough, Ne.symm h.1, ih h.2]

@[simp] theorem fgets_nil (nl : α) (size : Nat) : fgets nl size [] = none := rfl

theorem fgets_line {line : List α} {size : Nat} (h : nl ∉ line) (hsize : line.length + 2 ≤ size)
    (rest : List α) : fgets nl size (line ++ nl :: rest) = some (line ++ [nl], rest) := by
  obtain ⟨room, rfl⟩ := Nat.exists_eq_add_of_le hsize
  have htake : (line ++ nl :: rest).take (line.length + 1 + room) =
      line ++ nl :: rest.take room := by
    rw [List.take_append, List.take_of_length_le (by omega),
      show line.length + 1 + room - line.length = room + 1 by omega, List.take_succ_cons]
  have hdrop : (line ++ nl :: rest).drop (line.length + 1) = rest := by
    rw [List.append_cons]
    exact List.drop_left' (by simp)
  simp [fgets, htake, takeThrough_line h, hdrop]

end Lines

def memcpy (dst src : List α) : List α := src ++ dst.drop src.length

@[simp] theorem take_memcpy (dst src : List α) :
    (memcpy dst src).take src.length = src := by
  simp [memcpy]

theorem length_memcpy {dst src : List α} (h : src.length ≤ dst.length) :
    (memcpy dst src).length = dst.length := by
  simp [memcpy]
  omega

end OxyC.Foundation
