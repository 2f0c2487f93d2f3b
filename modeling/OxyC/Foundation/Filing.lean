import Mathlib.Data.List.Nodup
import Mathlib.Logic.Function.Basic

/-!
# Files and posts

Lists that hold each element under its key, and posts whose holders each attend
to one element.  Both follow a function of the elements through every change.
-/

namespace OxyC.Foundation

section Files

variable {κ α : Type*}

/-- An element is in the list of its key, once, and in no other. -/
structure Files (ls : κ → List α) (key : α → Option κ) : Prop where
  nodup : ∀ k, (ls k).Nodup
  mem_iff : ∀ {k a}, a ∈ ls k ↔ key a = some k

namespace Files

variable {ls : κ → List α} {key : α → Option κ}

theorem apart (h : Files ls key) {k k' : κ} {a : α} (hk : a ∈ ls k) (hk' : a ∈ ls k') : k = k' := by
  rw [h.mem_iff] at hk hk'
  exact Option.some.inj (hk.symm.trans hk')

theorem congr {key' : α → Option κ} (h : Files ls key) (hkey : ∀ a, key' a = key a) :
    Files ls key' where
  nodup := h.nodup
  mem_iff := by
    intro k a
    rw [hkey, h.mem_iff]

variable [DecidableEq κ] [DecidableEq α] {a : α} {k : κ}

theorem push (h : Files ls key) (ha : key a = none) (k : κ) :
    Files (Function.update ls k (ls k ++ [a])) (Function.update key a (some k)) where
  nodup := by
    intro k'
    by_cases hk : k' = k
    · subst hk
      have hnot : a ∉ ls k' := by simp [h.mem_iff, ha]
      rw [Function.update_self]
      exact (h.nodup k').append (List.nodup_singleton a) (by simpa using hnot)
    · rw [Function.update_of_ne hk]
      exact h.nodup k'
  mem_iff := by
    intro k' b
    by_cases hb : b = a
    · subst hb
      by_cases hk : k' = k
      · simp [hk]
      · simp [hk, h.mem_iff, ha, Ne.symm hk]
    · rw [Function.update_of_ne hb, ← h.mem_iff]
      by_cases hk : k' = k
      · subst hk
        simp [hb]
      · simp [hk]

theorem pop (h : Files ls key) (hhead : (ls k).head? = some a) :
    Files (Function.update ls k (ls k).tail) (Function.update key a none) where
  nodup := by
    intro k'
    by_cases hk : k' = k
    · subst hk
      rw [Function.update_self]
      exact (h.nodup k').tail
    · rw [Function.update_of_ne hk]
      exact h.nodup k'
  mem_iff := by
    intro k' b
    have hcons : ls k = a :: (ls k).tail := List.eq_cons_of_mem_head? hhead
    have hnodup := h.nodup k
    rw [hcons, List.nodup_cons] at hnodup
    by_cases hb : b = a
    · subst hb
      by_cases hk : k' = k
      · simp [hk, hnodup.1]
      · have hnot : b ∉ ls k' := fun hmem => hk (h.apart hmem (hcons ▸ List.mem_cons_self))
        simp [hk, hnot]
    · rw [Function.update_of_ne hb, ← h.mem_iff]
      by_cases hk : k' = k
      · subst hk
        rw [Function.update_self]
        conv_rhs => rw [hcons, List.mem_cons]
        simp [hb]
      · rw [Function.update_of_ne hk]

end Files

end Files

section Posts

variable {α π : Type*} {about : π → Option α}

/-- The holder of post `k` attends to `a` in the way `p` exactly if that is the duty of `a`. -/
def Attended (about : π → Option α) (posts : List π) (duty : α → Option (Nat × π)) : Prop :=
  ∀ k p a, about p = some a → (posts[k]? = some p ↔ duty a = some (k, p))

namespace Attended

variable {posts : List π} {duty : α → Option (Nat × π)}

theorem congr {duty' : α → Option (Nat × π)} (h : Attended about posts duty)
    (hduty : ∀ a, duty' a = duty a) : Attended about posts duty' := by
  intro k p a hp
  rw [hduty, h k p a hp]

theorem map (h : Attended about posts duty) {f : π → π}
    (hf : ∀ p q a, about q = some a → (f p = q ↔ p = q)) : Attended about (posts.map f) duty := by
  intro k p a hp
  rw [← h k p a hp, List.getElem?_map, Option.map_eq_some_iff]
  constructor
  · rintro ⟨q, hq, hfq⟩
    rw [hq, (hf q p a hp).mp hfq]
  · intro hq
    exact ⟨p, hq, (hf p p a hp).mpr rfl⟩

variable {k : Nat} {p p' : π}

/-- The post `k`, which attends to nobody, changes and attends to nobody. -/
theorem set_free (h : Attended about posts duty) (hk : posts[k]? = some p) (hp : about p = none)
    (hp' : about p' = none) : Attended about (posts.set k p') duty := by
  obtain ⟨hlt, -⟩ := List.getElem?_eq_some_iff.mp hk
  intro j q b hq
  rw [List.getElem?_set, ← h j q b hq]
  by_cases hj : k = j
  · subst hj
    rw [if_pos rfl, if_pos hlt, hk, Option.some.injEq, Option.some.injEq]
    constructor
    · rintro rfl
      simp [hq] at hp'
    · rintro rfl
      simp [hq] at hp
  · rw [if_neg hj]

variable (p') in
/-- A post that has attended to at most `a` changes, and attends to at most `a`. -/
theorem set [DecidableEq α] (h : Attended about posts duty) (hk : posts[k]? = some p) (a : α)
    (hp : ∀ b, about p = some b → b = a) (hp' : ∀ b, about p' = some b → b = a)
    (hold : duty a = (about p).map fun _ => (k, p)) :
    Attended about (posts.set k p') (Function.update duty a ((about p').map fun _ => (k, p'))) := by
  obtain ⟨hlt, -⟩ := List.getElem?_eq_some_iff.mp hk
  intro j q b hq
  rw [List.getElem?_set]
  by_cases hb : b = a
  · subst hb
    rw [Function.update_self]
    by_cases hj : k = j
    · subst hj
      rw [if_pos rfl, if_pos hlt, Option.some.injEq]
      constructor
      · rintro rfl
        rw [hq, Option.map_some]
      · intro hduty
        obtain ⟨_, -, heq⟩ := Option.map_eq_some_iff.mp hduty
        exact congrArg Prod.snd heq
    · rw [if_neg hj, h j q b hq, hold]
      constructor
      · intro hduty
        obtain ⟨_, -, heq⟩ := Option.map_eq_some_iff.mp hduty
        exact absurd (congrArg Prod.fst heq) hj
      · intro hduty
        obtain ⟨_, -, heq⟩ := Option.map_eq_some_iff.mp hduty
        exact absurd (congrArg Prod.fst heq) hj
  · rw [Function.update_of_ne hb, ← h j q b hq]
    by_cases hj : k = j
    · subst hj
      rw [if_pos rfl, if_pos hlt, hk, Option.some.injEq, Option.some.injEq]
      constructor
      · rintro rfl
        exact absurd (hp' b hq) hb
      · rintro rfl
        exact absurd (hp b hq) hb
    · rw [if_neg hj]

end Attended

end Posts

end OxyC.Foundation
