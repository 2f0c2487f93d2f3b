import OxyC.Foundation.BigEndian
import Mathlib.Data.List.Basic
import Mathlib.Data.Option.Basic

/-!
# Checked memory

A pointer into a block of bytes.  A read outside of the block has no result, so
that a computation with a result has read only bytes of the block.
-/

namespace OxyC.Foundation

structure Pointer where
  block : List UInt8
  offset : Int := 0
  deriving DecidableEq, Repr

/-- The big-endian number in the `n` bytes from `k` on. -/
def field (block : List UInt8) (k n : Nat) : Nat := ofBytes ((block.drop k).take n)

theorem field_lt (block : List UInt8) (k n : Nat) : field block k n < 256 ^ n := by
  have hlength : ((block.drop k).take n).length ≤ n := List.length_take_le _ _
  calc field block k n < 256 ^ ((block.drop k).take n).length := ofBytes_lt _
    _ ≤ 256 ^ n := Nat.pow_le_pow_right (by decide) hlength

section Traversal

variable {α β : Type*} {f : α → Option β}

theorem mapM_of_forall {g : α → β} {as : List α} (h : ∀ a ∈ as, f a = some (g a)) :
    as.mapM f = some (as.map g) := by
  induction as with
  | nil => rfl
  | cons a as ih =>
      have htail := ih fun b hb => h b (List.mem_cons_of_mem a hb)
      simp [h a List.mem_cons_self, htail]

theorem mapM_isSome_iff {as : List α} : (as.mapM f).isSome ↔ ∀ a ∈ as, (f a).isSome := by
  induction as with
  | nil => simp
  | cons a as ih =>
      rw [List.forall_mem_cons, ← ih, List.mapM_cons]
      cases f a <;> cases List.mapM f as <;> simp

theorem isSome_of_mapM {as : List α} {bs : List β} (h : as.mapM f = some bs) :
    ∀ a ∈ as, (f a).isSome :=
  mapM_isSome_iff.mp (by rw [h]; rfl)

end Traversal

namespace Pointer

def add (p : Pointer) (n : Int) : Pointer := { p with offset := p.offset + n }

def read (p : Pointer) (i : Int) : Option UInt8 :=
  if 0 ≤ p.offset + i then p.block[(p.offset + i).toNat]? else none

def bytes (p : Pointer) (i : Int) (n : Nat) : Option (List UInt8) :=
  (List.range n).mapM fun k : Nat => p.read (i + k)

def u8 (p : Pointer) (i : Int) : Option Nat := (p.read i).map UInt8.toNat

def u16 (p : Pointer) (i : Int) : Option Nat := (p.bytes i 2).map ofBytes

def u32 (p : Pointer) (i : Int) : Option Nat := (p.bytes i 4).map ofBytes

/-- The `n` bytes from index `i` on belong to the block. -/
def Inside (p : Pointer) (i n : Int) : Prop :=
  0 < n → 0 ≤ p.offset + i ∧ p.offset + i + n ≤ p.block.length

instance (p : Pointer) (i n : Int) : Decidable (p.Inside i n) :=
  inferInstanceAs (Decidable (0 < n → _))

theorem inside_add {p : Pointer} {k i n : Int} : (p.add k).Inside i n ↔ p.Inside (k + i) n := by
  simp only [Inside, add, Int.add_assoc]

theorem Inside.mono {p : Pointer} {i n i' n' : Int} (h : p.Inside i n) (hi : i ≤ i')
    (hn : i' + n' ≤ i + n) : p.Inside i' n' := by
  intro hpos
  have := h (by omega)
  omega

section Reads

variable {p : Pointer} {i : Int} {n : Nat}

theorem read_of_inside (h : p.Inside i 1) :
    p.read i = some (p.block.getD (p.offset + i).toNat 0) := by
  obtain ⟨hlow, hhigh⟩ := h (by omega)
  have hlt : (p.offset + i).toNat < p.block.length := by omega
  simp [read, hlow, List.getD, List.getElem?_eq_getElem hlt]

theorem inside_of_read {b : UInt8} (h : p.read i = some b) : p.Inside i 1 := by
  unfold read at h
  split at h
  case isTrue hlow =>
    obtain ⟨hlt, -⟩ := List.getElem?_eq_some_iff.mp h
    intro _
    omega
  case isFalse => cases h

theorem read_isSome_iff : (p.read i).isSome ↔ p.Inside i 1 := by
  constructor
  · intro h
    obtain ⟨b, hb⟩ := Option.isSome_iff_exists.mp h
    exact inside_of_read hb
  · intro h
    rw [read_of_inside h]
    rfl

theorem bytes_of_inside (h : p.Inside i n) :
    p.bytes i n = some ((p.block.drop (p.offset + i).toNat).take n) := by
  have hread : ∀ k ∈ List.range n,
      p.read (i + k) = some (p.block.getD ((p.offset + i).toNat + k) 0) := by
    intro k hk
    rw [List.mem_range] at hk
    obtain ⟨hlow, hhigh⟩ := h (by omega)
    rw [read_of_inside fun _ => by omega]
    congr 2
    omega
  rw [bytes, mapM_of_forall hread]
  congr 1
  apply List.ext_getElem?
  intro k
  by_cases hk : k < n
  · obtain ⟨hlow, hhigh⟩ := h (by omega)
    have hlt : (p.offset + i).toNat + k < p.block.length := by omega
    simp [hk, List.getD, List.getElem?_eq_getElem hlt]
  · simp [hk]

theorem inside_of_bytes {bs : List UInt8} (h : p.bytes i n = some bs) : p.Inside i n := by
  intro hpos
  have hall := isSome_of_mapM h
  have hpos' : 0 < n := by omega
  obtain ⟨first, hfirst⟩ := Option.isSome_iff_exists.mp (hall 0 (List.mem_range.mpr hpos'))
  obtain ⟨last, hlast⟩ :=
    Option.isSome_iff_exists.mp (hall (n - 1) (List.mem_range.mpr (by omega)))
  have hlow := inside_of_read hfirst (by omega)
  have hhigh := inside_of_read hlast (by omega)
  omega

theorem bytes_isSome_iff : (p.bytes i n).isSome ↔ p.Inside i n := by
  constructor
  · intro h
    obtain ⟨bs, hbs⟩ := Option.isSome_iff_exists.mp h
    exact inside_of_bytes hbs
  · intro h
    rw [bytes_of_inside h]
    rfl

theorem u8_isSome_iff : (p.u8 i).isSome ↔ p.Inside i 1 := by
  rw [u8, Option.isSome_map, read_isSome_iff]

theorem u16_isSome_iff : (p.u16 i).isSome ↔ p.Inside i 2 := by
  rw [u16, Option.isSome_map, bytes_isSome_iff]
  rfl

theorem u32_isSome_iff : (p.u32 i).isSome ↔ p.Inside i 4 := by
  rw [u32, Option.isSome_map, bytes_isSome_iff]
  rfl

theorem u8_of_inside (h : p.Inside i 1) :
    p.u8 i = some (p.block.getD (p.offset + i).toNat 0).toNat := by
  rw [u8, read_of_inside h, Option.map_some]

theorem inside_of_u8 {v : Nat} (h : p.u8 i = some v) : p.Inside i 1 := by
  obtain ⟨b, hb, -⟩ := Option.map_eq_some_iff.mp h
  exact inside_of_read hb

theorem u16_of_inside (h : p.Inside i 2) :
    p.u16 i = some (field p.block (p.offset + i).toNat 2) := by
  rw [u16, bytes_of_inside h, Option.map_some, field]

theorem inside_of_u16 {v : Nat} (h : p.u16 i = some v) : p.Inside i 2 := by
  obtain ⟨b, hb, -⟩ := Option.map_eq_some_iff.mp h
  exact inside_of_bytes hb

theorem u32_of_inside (h : p.Inside i 4) :
    p.u32 i = some (field p.block (p.offset + i).toNat 4) := by
  rw [u32, bytes_of_inside h, Option.map_some, field]

end Reads

end Pointer

end OxyC.Foundation
