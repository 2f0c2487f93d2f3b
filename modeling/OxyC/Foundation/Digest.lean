import OxyC.Foundation.Stdio
import Mathlib.Data.List.Flatten

/-!
# Digests of a stream

A digest library takes its input in pieces, and each of its calls may fail.  What
a program feeds it is read chunk by chunk from a file.
-/

namespace OxyC.Foundation

variable {α σ ε : Type*}

/-- The computation ends in a value of `P` or in an error of `Q`. -/
def Results (P : α → Prop) (Q : ε → Prop) : Except ε α → Prop
  | .ok a => P a
  | .error e => Q e

theorem Results.mono {P P' : α → Prop} {Q : ε → Prop} {x : Except ε α} (h : Results P Q x)
    (himp : ∀ a, P a → P' a) : Results P' Q x := by
  cases x with
  | ok a => exact himp a h
  | error e => exact h

theorem Results.bind {α β ε : Type*} {P : α → Prop} {P' : β → Prop} {Q : ε → Prop}
    {x : Except ε α} {f : α → Except ε β} (h : Results P Q x)
    (hf : ∀ a, P a → Results P' Q (f a)) : Results P' Q (x.bind f) := by
  cases x with
  | ok a => exact hf a h
  | error e => exact h

/-- The calls of a digest library; `none` where one of them fails. -/
structure DigestCalls (α σ : Type*) where
  new : Option σ
  init : σ → Option σ
  update : List α → σ → Option σ
  final : σ → Option (List UInt8)

namespace InputFile

/-- `while ((nr = fread(buf, 1, n, f)) > 0)`, with a body that may fail. -/
def eachChunk (n : Nat) (body : List α → σ → Except ε σ) (f : InputFile α) (s : σ) :
    Except ε σ :=
  if (f.chunk n).length = 0 then .ok s
  else
    match body (f.chunk n) s with
    | .error e => .error e
    | .ok s' => eachChunk n body (f.fread n) s'
  termination_by f.contents.length - f.pos
  decreasing_by
    have := f.pos_add_length_chunk_le n
    simp only [contents_fread, pos_fread]
    omega

end InputFile

/-! ## Characters written into a buffer -/

section Store

variable {buffer text : List α} {i : Nat}

/-- `text` is written at `i`; `none` where it does not fit into the buffer. -/
def store (i : Nat) (text buffer : List α) : Option (List α) :=
  if i + text.length ≤ buffer.length then
    some (buffer.take i ++ text ++ buffer.drop (i + text.length))
  else none

end Store

/-! ## Bytes in hexadecimal -/

/-- `%02x` -/
def hexText (b : UInt8) : List Char := [Nat.digitChar (b.toNat / 16), Nat.digitChar (b.toNat % 16)]

end OxyC.Foundation
