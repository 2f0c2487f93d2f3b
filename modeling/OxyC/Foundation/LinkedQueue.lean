import Mathlib.Data.List.Nodup
import Mathlib.Logic.Function.Basic

/-!
# Intrusive FIFO queues

Several queues over one set of nodes.  Each node has one link, so it can stand
in one queue only; a queue knows its first and its last node and their number.
-/

namespace OxyC.Foundation

structure LinkedQueue (α : Type*) where
  head : Option α := none
  tail : Option α := none
  size : Nat := 0

/-- `next` is the link of each node. -/
structure LinkedQueues (κ α : Type*) where
  next : α → Option α
  queue : κ → LinkedQueue α

/-- From `head` on the links lead through the nodes of the list and end. -/
inductive Chain {α : Type*} (next : α → Option α) : Option α → List α → Prop where
  | nil : Chain next none []
  | cons {a : α} {as : List α} : Chain next (next a) as → Chain next (some a) (a :: as)

inductive Reaches {α : Type*} (next : α → Option α) : Option α → α → Prop where
  | here (a : α) : Reaches next (some a) a
  | step {a b : α} : Reaches next (next a) b → Reaches next (some a) b

namespace Chain

variable {α : Type*} {next next' : α → Option α} {head : Option α} {as : List α}

theorem head_eq (h : Chain next head as) : head = as.head? := by
  cases h <;> rfl

theorem reaches_iff (h : Chain next head as) {b : α} : Reaches next head b ↔ b ∈ as := by
  induction h with
  | nil =>
      simp only [List.not_mem_nil, iff_false]
      intro hreach
      cases hreach
  | cons hchain ih =>
      rw [List.mem_cons, ← ih]
      constructor
      · intro hreach
        cases hreach with
        | here => exact .inl rfl
        | step hreach => exact .inr hreach
      · rintro (rfl | hreach)
        · exact .here _
        · exact .step hreach

theorem congr (h : Chain next head as) (hnext : ∀ a ∈ as, next' a = next a) :
    Chain next' head as := by
  induction h with
  | nil => exact .nil
  | @cons a as hchain ih =>
      have hrest := ih fun b hb => hnext b (List.mem_cons_of_mem _ hb)
      rw [← hnext a List.mem_cons_self] at hrest
      exact .cons hrest

variable [DecidableEq α]

theorem concat (h : Chain next head as) (hnodup : as.Nodup) {a b : α} (ha : a ∉ as)
    (hlast : as.getLast? = some b) :
    Chain (Function.update (Function.update next a none) b (some a)) head (as ++ [a]) := by
  induction h with
  | nil => simp at hlast
  | @cons c as hchain ih =>
      rw [List.nodup_cons] at hnodup
      rw [List.mem_cons, not_or] at ha
      cases as with
      | nil =>
          simp only [List.getLast?_singleton, Option.some.injEq] at hlast
          subst hlast
          apply Chain.cons
          rw [Function.update_self]
          apply Chain.cons
          rw [Function.update_of_ne ha.1, Function.update_self]
          exact .nil
      | cons d as =>
          rw [List.getLast?_cons_cons] at hlast
          have hcb : c ≠ b := by
            rintro rfl
            exact hnodup.1 (List.mem_of_getLast? hlast)
          have hrest := ih hnodup.2 ha.2 hlast
          apply Chain.cons
          rwa [Function.update_of_ne hcb, Function.update_of_ne (Ne.symm ha.1)]

end Chain

namespace LinkedQueues

variable {κ α : Type*}

def init : LinkedQueues κ α := ⟨fun _ => none, fun _ => {}⟩

section Operations

variable [DecidableEq κ] [DecidableEq α]

def push (k : κ) (a : α) (qs : LinkedQueues κ α) : LinkedQueues κ α :=
  match (qs.queue k).tail with
  | none =>
      { next := Function.update qs.next a none
        queue := Function.update qs.queue k ⟨some a, some a, (qs.queue k).size + 1⟩ }
  | some b =>
      { next := Function.update (Function.update qs.next a none) b (some a)
        queue := Function.update qs.queue k
          ⟨(qs.queue k).head, some a, (qs.queue k).size + 1⟩ }

def pop (k : κ) (qs : LinkedQueues κ α) : LinkedQueues κ α :=
  match (qs.queue k).head with
  | none => qs
  | some a =>
      { next := Function.update qs.next a none
        queue := Function.update qs.queue k
          ⟨qs.next a, (qs.next a).bind fun _ => (qs.queue k).tail, (qs.queue k).size - 1⟩ }

end Operations

/-- The node `a` is in the queue `k`. -/
def Holds (qs : LinkedQueues κ α) (k : κ) (a : α) : Prop :=
  Reaches qs.next (qs.queue k).head a ∨ (qs.queue k).tail = some a

/-- The queues are the lists of `ls`, which have no node in common. -/
structure Represents (qs : LinkedQueues κ α) (ls : κ → List α) : Prop where
  chain : ∀ k, Chain qs.next (qs.queue k).head (ls k)
  tail : ∀ k, (qs.queue k).tail = (ls k).getLast?
  size : ∀ k, (qs.queue k).size = (ls k).length
  nodup : ∀ k, (ls k).Nodup
  apart : ∀ {k k' a}, a ∈ ls k → a ∈ ls k' → k = k'

variable {qs : LinkedQueues κ α} {ls : κ → List α}

theorem Represents.head (h : qs.Represents ls) (k : κ) : (qs.queue k).head = (ls k).head? :=
  (h.chain k).head_eq

theorem Represents.holds_iff (h : qs.Represents ls) {k : κ} {a : α} :
    qs.Holds k a ↔ a ∈ ls k := by
  rw [Holds, (h.chain k).reaches_iff, h.tail k]
  exact or_iff_left_of_imp List.mem_of_getLast?

/-- The links of nodes that are in no queue do not matter. -/
theorem represents_empty (next : α → Option α) :
    (⟨next, fun _ => {}⟩ : LinkedQueues κ α).Represents fun _ => [] where
  chain _ := .nil
  tail _ := rfl
  size _ := rfl
  nodup _ := List.nodup_nil
  apart h := absurd h List.not_mem_nil

theorem represents_init : (init : LinkedQueues κ α).Represents fun _ => [] :=
  represents_empty _

variable [DecidableEq κ]

theorem apart_update {k : κ} {as : List α} (h : ∀ {k k' a}, a ∈ ls k → a ∈ ls k' → k = k')
    (has : ∀ a ∈ as, ∀ k', k' ≠ k → a ∉ ls k') {k₁ k₂ : κ} {a : α}
    (h₁ : a ∈ Function.update ls k as k₁) (h₂ : a ∈ Function.update ls k as k₂) : k₁ = k₂ := by
  by_cases hk₁ : k₁ = k
  · by_cases hk₂ : k₂ = k
    · rw [hk₁, hk₂]
    · rw [hk₁, Function.update_self] at h₁
      rw [Function.update_of_ne hk₂] at h₂
      exact absurd h₂ (has a h₁ k₂ hk₂)
  · rw [Function.update_of_ne hk₁] at h₁
    by_cases hk₂ : k₂ = k
    · rw [hk₂, Function.update_self] at h₂
      exact absurd h₁ (has a h₂ k₁ hk₁)
    · rw [Function.update_of_ne hk₂] at h₂
      exact h h₁ h₂

/-- It is enough to look at the queue that is changed, and not to touch the nodes of the others. -/
theorem Represents.update (h : qs.Represents ls) {qs' : LinkedQueues κ α} {k : κ} {as : List α}
    (hchain : Chain qs'.next (qs'.queue k).head as) (htail : (qs'.queue k).tail = as.getLast?)
    (hsize : (qs'.queue k).size = as.length) (hnodup : as.Nodup)
    (hapart : ∀ a ∈ as, ∀ k', k' ≠ k → a ∉ ls k')
    (hqueue : ∀ k', k' ≠ k → qs'.queue k' = qs.queue k')
    (hnext : ∀ k', k' ≠ k → ∀ b ∈ ls k', qs'.next b = qs.next b) :
    qs'.Represents (Function.update ls k as) where
  chain k' := by
    by_cases hk : k' = k
    · subst hk
      rwa [Function.update_self]
    · rw [Function.update_of_ne hk, hqueue k' hk]
      exact (h.chain k').congr (hnext k' hk)
  tail k' := by
    by_cases hk : k' = k
    · subst hk
      rwa [Function.update_self]
    · rw [Function.update_of_ne hk, hqueue k' hk, h.tail]
  size k' := by
    by_cases hk : k' = k
    · subst hk
      rwa [Function.update_self]
    · rw [Function.update_of_ne hk, hqueue k' hk, h.size]
  nodup k' := by
    by_cases hk : k' = k
    · subst hk
      rwa [Function.update_self]
    · rw [Function.update_of_ne hk]
      exact h.nodup k'
  apart := apart_update h.apart hapart

variable [DecidableEq α]

/-- A node that is in no queue goes behind the last one of its queue. -/
theorem Represents.push (h : qs.Represents ls) {a : α} (ha : ∀ k, a ∉ ls k) (k : κ) :
    (qs.push k a).Represents (Function.update ls k (ls k ++ [a])) := by
  have hnodup : (ls k ++ [a]).Nodup :=
    List.Nodup.append (h.nodup k) (List.nodup_singleton a) (by simpa using ha k)
  have hapart : ∀ b ∈ ls k ++ [a], ∀ k', k' ≠ k → b ∉ ls k' := by
    intro b hb k' hk hmem
    rw [List.mem_append, List.mem_singleton] at hb
    rcases hb with hb | rfl
    · exact hk (h.apart hmem hb)
    · exact ha k' hmem
  have hane : ∀ k', ∀ b ∈ ls k', b ≠ a := by
    rintro k' b hb rfl
    exact ha k' hb
  rw [LinkedQueues.push, h.tail k]
  cases htail : (ls k).getLast? with
  | none =>
      have hnil := List.getLast?_eq_none_iff.mp htail
      refine h.update ?chain ?tail ?size hnodup hapart ?queue ?next
      case chain =>
        simp only [Function.update_self, hnil, List.nil_append]
        apply Chain.cons
        rw [Function.update_self]
        exact .nil
      case tail => simp
      case size => simp [h.size]
      case queue => exact fun k' hk => Function.update_of_ne hk _ _
      case next => exact fun k' hk b hb => Function.update_of_ne (hane k' b hb) _ _
  | some c =>
      refine h.update ?chain ?tail ?size hnodup hapart ?queue ?next
      case chain =>
        simp only [Function.update_self]
        exact (h.chain k).concat (h.nodup k) (ha k) htail
      case tail => simp
      case size => simp [h.size]
      case queue => exact fun k' hk => Function.update_of_ne hk _ _
      case next =>
        intro k' hk b hb
        have hbc : b ≠ c := by
          rintro rfl
          exact hk (h.apart hb (List.mem_of_getLast? htail))
        simp only [Function.update_of_ne hbc, Function.update_of_ne (hane k' b hb)]

/-- The first node leaves its queue; an empty queue stays as it is. -/
theorem Represents.pop (h : qs.Represents ls) (k : κ) :
    (qs.pop k).Represents (Function.update ls k (ls k).tail) := by
  cases hls : ls k with
  | nil =>
      have hsame : Function.update ls k [] = ls := by rw [← hls, Function.update_eq_self]
      rw [LinkedQueues.pop, h.head k, hls, List.tail_nil, hsame]
      exact h
  | cons a as =>
      have hchain := h.chain k
      rw [hls] at hchain
      have hnodup := h.nodup k
      rw [hls, List.nodup_cons] at hnodup
      have hrest : (qs.queue k).head = some a ∧ Chain qs.next (qs.next a) as := by
        generalize (qs.queue k).head = head at hchain
        cases hchain with
        | cons hrest => exact ⟨rfl, hrest⟩
      have hin : ∀ b ∈ a :: as, ∀ k', k' ≠ k → b ∉ ls k' :=
        fun b hb k' hk hmem => hk (h.apart hmem (hls ▸ hb))
      rw [LinkedQueues.pop, hrest.1, List.tail_cons]
      refine h.update ?chain ?tail ?size hnodup.2
        (fun b hb => hin b (List.mem_cons_of_mem a hb)) ?queue ?next
      case chain =>
        simp only [Function.update_self]
        refine hrest.2.congr fun b hb => Function.update_of_ne ?_ _ _
        rintro rfl
        exact hnodup.1 hb
      case tail =>
        simp only [Function.update_self, hrest.2.head_eq, h.tail, hls]
        cases as <;> rfl
      case size => simp [h.size, hls]
      case queue => exact fun k' hk => Function.update_of_ne hk _ _
      case next =>
        intro k' hk b hb
        refine Function.update_of_ne ?_ _ _
        rintro rfl
        exact hin b List.mem_cons_self k' hk hb

end LinkedQueues

end OxyC.Foundation
