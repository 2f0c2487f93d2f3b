import OxyC.Foundation.Digest
import OxyC.Foundation.Scanf
import OxyC.Networking.Delivery

/-!
# The checksum

The end of `main` in `server.c`: the output file is read back in chunks, and its
digest is printed in hexadecimal.
-/

namespace OxyC.Networking

open OxyC.Foundation

variable {σ : Type}

/-- The size of `ibuf`. -/
def ibufSize : Nat := 4096

inductive ChecksumError where
  /-- `perror` with the name of the call, and `return 1`. -/
  | returned (call : String)
  /-- `fread` on the null pointer: `exit` is named behind a failed `fopen`, not called. -/
  | nullFile
  /-- A character is written behind `hex`. -/
  | overrun
  deriving DecidableEq, Repr

namespace Server

def orReturn {α : Type*} (call : String) (result : Option α) : Except ChecksumError α :=
  match result with
  | some x => .ok x
  | none => .error (.returned call)

def inside (result : Option (List Char)) : Except ChecksumError (List Char) :=
  match result with
  | some hex => .ok hex
  | none => .error .overrun

/-- The loop over `md5sum` from index `i` on, and the terminator behind it. -/
def hexLoop : List UInt8 → Nat → List Char → Except ChecksumError (List Char)
  | [], i, hex => inside (store (i * 2) ['\x00'] hex)
  | b :: md5sum, i, hex => do
      let hex ← inside (store (i * 2) (hexText b ++ ['\x00']) hex)
      hexLoop md5sum (i + 1) hex

/-- What is printed; `f` is what `fopen` has opened, and `hex` what the array holds before. -/
def checksum (calls : DigestCalls UInt8 σ) (hex : List Char) (f : Option (InputFile UInt8)) :
    Except ChecksumError (List Char) := do
  let mdctx ← orReturn "EVP_MD_CTX_new" calls.new
  let mdctx ← orReturn "EVP_DigestInit_ex" (calls.init mdctx)
  match f with
  | none => .error .nullFile
  | some f =>
      let mdctx ← f.eachChunk ibufSize
        (fun ibuf mdctx => orReturn "EVP_DigestUpdate" (calls.update ibuf mdctx)) mdctx
      let md5sum ← orReturn "EVP_DigestFinal_ex" (calls.final mdctx)
      let hex ← hexLoop md5sum 0 hex
      pure ("MD5: ".toList ++ upToNul hex ++ ['\n'])

/-- The program goes on to the checksum behind the receive loop, with the file it has written. -/
def printed (calls : DigestCalls UInt8 σ) (hex : List Char) (s : Server) :
    Option (Except ChecksumError (List Char)) :=
  if s.phase = .closed then some (checksum calls hex (some (.fopen s.reassembly.out))) else none

section Printed

variable {calls : DigestCalls UInt8 σ} {digest : List UInt8 → List UInt8}
  {Fed : List UInt8 → σ → Prop}

end Printed

end Server

namespace Session

variable {calls : DigestCalls UInt8 σ} {digest : List UInt8 → List UInt8}
  {Fed : List UInt8 → σ → Prop} {q : Session}

end Session

end OxyC.Networking
