import KnowYourMemory.MagicMemory
import KnowYourMemory.Run
import Mathlib.Data.List.InsertIdx
import Mathlib.Logic.Function.Basic

/-!
# Mailboxes

The abstract counterpart of a message transport. Every sender has a queue of its own;
a reader takes the oldest message of some sender and keeps it until it frees it. One
level below, messages that have arrived are kept in memory and known by their place,
so a message may only be written clear of the places that are still to be read.
Places are ranges of plain memory or of a ring that is mapped twice.
-/

set_option autoImplicit false

namespace KYM.Mailbox
open KYM.Run KYM.Circle KYM.MagicMemory

variable {ι κ μ M π : Type*}

inductive Call (ι μ : Type*) where
  | send (i : ι) (m : μ)
  | receive (i : ι)
  | free (n : ℕ)

structure Box (ι μ : Type*) where
  queue : ι → List μ
  held : List (ι × μ)
  taken : List (ι × μ)

def empty : Box ι μ := ⟨fun _ => [], [], []⟩

def of {β : Type*} [DecidableEq ι] (i : ι) (xs : List (ι × β)) : List β :=
  xs.filterMap (fun x => if x.1 = i then some x.2 else none)

def Call.sent [DecidableEq ι] (i : ι) : Call ι μ → List μ
  | .send j m => if j = i then [m] else []
  | _ => []

section Calls

variable [DecidableEq ι]

def step (a : Box ι μ) : Call ι μ → Option (Box ι μ)
  | .send i m => some { a with queue := Function.update a.queue i (a.queue i++[m]) }
  | .receive i =>
    match a.queue i with
    | [] => none
    | m::ms => some ⟨Function.update a.queue i ms, a.held++[(i, m)], a.taken++[(i, m)]⟩
  | .free n => if n < a.held.length then some { a with held := a.held.eraseIdx n } else none

variable {β : Type*} {i j : ι}

@[simp] theorem of_nil (i : ι) : of i ([] : List (ι × β)) = [] := rfl

@[simp] theorem of_append (i : ι) (xs ys : List (ι × β)) : of i (xs++ys) = of i xs++of i ys := by
  simp [of]

@[simp] theorem of_cons_self (i : ι) (x : β) (xs : List (ι × β)) :
    of i ((i, x)::xs) = x::of i xs := by
  simp [of]

theorem of_cons_ne (h : j ≠ i) (x : β) (xs : List (ι × β)) : of i ((j, x)::xs) = of i xs := by
  simp [of, h]

theorem of_eq_nil {xs : List (ι × β)} (h : ∀ x ∈ xs, x.1 ≠ i) : of i xs = [] :=
  List.filterMap_eq_nil_iff.mpr (fun x hx => if_neg (h x hx))

/-- One call neither loses nor doubles a message. -/
theorem step_fifo (a b : Box ι μ) (c : Call ι μ) (h : step a c = some b) (i : ι) :
    of i a.taken++a.queue i++c.sent i = of i b.taken++b.queue i := by
  cases c with
  | send j m =>
    obtain rfl := Option.some.inj h
    by_cases hj : j = i
    · subst hj
      simp [Call.sent]
    · simp [Call.sent, hj, Function.update_of_ne (Ne.symm hj)]
  | receive j =>
    simp only [step] at h
    split at h
    · cases h
    next m ms hq =>
    obtain rfl := Option.some.inj h
    by_cases hj : j = i
    · subst hj
      simp [Call.sent, hq]
    · simp [Call.sent, of_cons_ne hj, Function.update_of_ne (Ne.symm hj)]
  | free n =>
    simp only [step] at h
    split at h
    · obtain rfl := Option.some.inj h
      simp [Call.sent]
    · cases h

theorem run_drop (a : Box ι μ) (i : ι) (m : μ) (ms : List μ) (h : a.queue i = m::ms) :
    run step [.receive i, .free a.held.length] a =
      some ⟨Function.update a.queue i ms, a.held, a.taken++[(i, m)]⟩ := by
  simp [run, step, h, List.eraseIdx_append_of_length_le]

end Calls

structure Medium (M π μ : Type*) where
  read : M → π → μ
  write : M → π → μ → M
  Fits : π → μ → Prop
  Apart : π → π → Prop
  read_write : ∀ s p m, Fits p m → read (write s p m) p = m
  read_apart : ∀ s p q m, Fits p m → Apart p q → read (write s p m) q = read s q

/-- Messages on their way, and the places of those that have arrived: in the inbox that
their sender's messages go to, or with the reader. -/
structure Transport (M ι κ π μ : Type*) where
  mem : M
  carried : ι → List μ
  inbox : κ → List (ι × π)
  held : List (ι × π)

def Medium.entry (D : Medium M π μ) (mem : M) (x : ι × π) : ι × μ := (x.1, D.read mem x.2)

def Transport.Live (b : Transport M ι κ π μ) (p : π) : Prop :=
  (∃ k, ∃ x ∈ b.inbox k, x.2 = p) ∨ ∃ x ∈ b.held, x.2 = p

structure Shows [DecidableEq ι] (D : Medium M π μ) (route : ι → κ) (b : Transport M ι κ π μ)
    (a : Box ι μ) : Prop where
  queue : ∀ i, a.queue i = (of i (b.inbox (route i))).map (D.read b.mem)++b.carried i
  held : a.held = b.held.map (D.entry b.mem)
  routed : ∀ k, ∀ x ∈ b.inbox k, route x.1 = k

section Rules

variable [DecidableEq ι] {D : Medium M π μ} {route : ι → κ}
  {b : Transport M ι κ π μ} {a : Box ι μ}

theorem shows_empty (mem : M) (D : Medium M π μ) (route : ι → κ) :
    Shows D route ⟨mem, fun _ => [], fun _ => [], []⟩ (empty : Box ι μ) :=
  ⟨fun _ => rfl, rfl, fun _ _ h => by cases h⟩

theorem Shows.send (h : Shows D route b a) (i : ι) (m : μ) : ∃ a', step a (.send i m) = some a' ∧
    Shows D route { b with carried := Function.update b.carried i (b.carried i++[m]) } a' := by
  refine ⟨_, rfl, fun j => ?_, h.held, h.routed⟩
  by_cases hj : j = i
  · subst hj
    simp [h.queue j]
  · simp [Function.update_of_ne hj, h.queue j]

theorem Shows.sendAll (h : Shows D route b a) (i : ι) (ms : List μ) :
    ∃ a', run step (ms.map (.send i)) a = some a' ∧
    Shows D route { b with carried := Function.update b.carried i (b.carried i++ms) } a' := by
  induction ms generalizing a b with
  | nil =>
    refine ⟨a, rfl, ?_⟩
    rw [List.append_nil, Function.update_eq_self]
    exact h
  | cons m ms ih =>
    obtain ⟨a₁, h₁, hs₁⟩ := h.send i m
    obtain ⟨a₂, h₂, hs₂⟩ := ih hs₁
    refine ⟨a₂, by rw [List.map_cons, run, h₁]; exact h₂, ?_⟩
    simpa using hs₂

theorem Shows.free (h : Shows D route b a) (n : ℕ) (hn : n < b.held.length) :
    ∃ a', step a (.free n) = some a' ∧
    Shows D route { b with held := b.held.eraseIdx n } a' := by
  refine ⟨{ a with held := a.held.eraseIdx n }, ?_, h.queue, ?_, h.routed⟩
  · simp [step, h.held, hn]
  · simp [h.held, List.eraseIdx_map]

theorem Shows.reroute (h : Shows D route b a) (route' : ι → κ)
    (hr : ∀ k, ∀ x ∈ b.inbox k, route' x.1 = k) : Shows D route' b a := by
  refine ⟨fun i => ?_, h.held, hr⟩
  rw [h.queue i]
  by_cases hi : route' i = route i
  · rw [hi]
  · have hold : of i (b.inbox (route i)) = [] :=
      of_eq_nil (fun x hx he => hi (he ▸ hr (route i) x hx))
    have hnew : of i (b.inbox (route' i)) = [] :=
      of_eq_nil (fun x hx he => hi (he ▸ (h.routed (route' i) x hx).symm))
    rw [hold, hnew]

variable [DecidableEq κ]

/-- A message that is written clear of the live places leaves everything as it was. -/
theorem Shows.arrive (h : Shows D route b a) (i : ι) (p : π) (m : μ) (ms : List μ)
    (hc : b.carried i = m::ms) (hf : D.Fits p m) (hp : ∀ q, b.Live q → D.Apart p q) :
    Shows D route { b with
      mem := D.write b.mem p m
      carried := Function.update b.carried i ms
      inbox := Function.update b.inbox (route i) (b.inbox (route i)++[(i, p)]) } a := by
  have hkeep : ∀ k j, (of j (b.inbox k)).map (D.read (D.write b.mem p m)) =
      (of j (b.inbox k)).map (D.read b.mem) := by
    intro k j
    refine List.map_congr_left (fun q hq => D.read_apart _ _ _ _ hf (hp q ?_))
    obtain ⟨x, hx, hxq⟩ := List.mem_filterMap.mp hq
    split at hxq
    · exact Or.inl ⟨k, x, hx, Option.some.inj hxq⟩
    · cases hxq
  refine ⟨fun j => ?_, ?_, fun k x hx => ?_⟩
  · rw [h.queue j]
    by_cases hj : j = i
    · subst hj
      simp [hkeep, hc, D.read_write b.mem p m hf]
    · by_cases hk : route j = route i
      · simp [hk, hkeep, Function.update_of_ne hj, of_cons_ne (Ne.symm hj)]
      · simp [Function.update_of_ne hk, hkeep, Function.update_of_ne hj]
  · rw [h.held]
    refine List.map_congr_left (fun x hx => Prod.ext rfl ?_)
    exact (D.read_apart _ _ _ _ hf (hp x.2 (Or.inr ⟨x, hx, rfl⟩))).symm
  · by_cases hk : k = route i
    · subst hk
      simp only [Function.update_self, List.mem_append, List.mem_singleton] at hx
      rcases hx with hx | rfl
      · exact h.routed _ x hx
      · rfl
    · simp only [Function.update_of_ne hk] at hx
      exact h.routed k x hx

/-- The reader takes the oldest place of an inbox. -/
theorem Shows.receive (h : Shows D route b a) (k : κ) (x : ι × π) (xs : List (ι × π))
    (hk : b.inbox k = x::xs) : ∃ a', step a (.receive x.1) = some a' ∧
    Shows D route { b with inbox := Function.update b.inbox k xs, held := b.held++[x] } a' := by
  have hroute : route x.1 = k := h.routed k x (by simp [hk])
  obtain ⟨i, p⟩ := x
  simp only at hroute
  subst hroute
  have hq : a.queue i = D.read b.mem p::((of i xs).map (D.read b.mem)++b.carried i) := by
    simp [h.queue i, hk]
  refine ⟨⟨Function.update a.queue i _, a.held++[(i, D.read b.mem p)], _⟩,
    by simp only [step, hq]; rfl, fun j => ?_, by simp [h.held, Medium.entry], fun k y hy => ?_⟩
  · by_cases hj : j = i
    · subst hj
      simp
    · have hqueue := h.queue j
      by_cases hr : route j = route i
      · simp [Function.update_of_ne hj, hqueue, hr, hk, of_cons_ne (Ne.symm hj)]
      · simp [Function.update_of_ne hj, hqueue, Function.update_of_ne hr]
  · by_cases hr : k = route i
    · subst hr
      simp only [Function.update_self] at hy
      exact h.routed _ y (by simp [hk, hy])
    · simp only [Function.update_of_ne hr] at hy
      exact h.routed k y hy

end Rules

section Media

variable {β : Type*}

def plain : Medium (ℕ → β) (ℕ × ℕ) (List β) where
  read mem p := fetch mem p.1 p.2
  write mem p m := put mem p.1 m
  Fits p m := m.length = p.2
  Apart p q := p.1+p.2 ≤ q.1 ∨ q.1+q.2 ≤ p.1
  read_write mem p m h := by
    rw [← h]
    exact fetch_put mem p.1 m
  read_apart mem p q m h hp := fetch_congr _ _ _ _ (fun i h1 h2 => put_outside _ _ _ _ (by omega))

def ring (L : ℕ) : Medium (ℕ → β) (ℕ × ℕ) (List β) where
  read mem p := load L mem p.1 p.2
  write mem p m := store L mem p.1 m
  Fits p m := m.length = p.2 ∧ p.2 ≤ L
  Apart p q := Disjoint (cells L p.1 p.2) (cells L q.1 q.2)
  read_write mem p m h := by
    rw [← h.1]
    exact load_store L mem p.1 m (h.1.trans_le h.2)
  read_apart mem p q m h hp := load_store_frame L mem p.1 m q.1 q.2 (h.1 ▸ hp)

end Media

end KYM.Mailbox
