import Mathlib.Data.List.Basic

/-!
# Polling a completion queue

Completions arrive in posting order and carry the number of their request. A caller
that waits for a number takes completions from the front and records what it takes,
until what it has recorded reaches that number. The numbers are natural numbers, where the
source has 64-bit words.
-/

set_option autoImplicit false

namespace KYM.CompletionQueue

variable {id a b k : ℕ} {record : ℕ → ℕ → ℕ} {ws rest : List ℕ}

def pollUntil (record : ℕ → ℕ → ℕ) (id : ℕ) : ℕ → List ℕ → Option (ℕ × List ℕ)
  | a, [] => if id ≤ a then some (a, []) else none
  | a, w::ws => if id ≤ a then some (a, w::ws) else pollUntil record id (record a w) ws

def last (_ w : ℕ) : ℕ := w

def greatest (a w : ℕ) : ℕ := if w > a then w else a

theorem pollUntil_of_le (h : id ≤ a) (ws : List ℕ) : pollUntil record id a ws = some (a, ws) := by
  cases ws <;> simp [pollUntil, h]

theorem pollUntil_cons_of_lt (h : a < id) (w : ℕ) (ws : List ℕ) :
    pollUntil record id a (w::ws) = pollUntil record id (record a w) ws := by
  rw [pollUntil, if_neg (by omega)]

theorem pollUntil_ends (h : pollUntil record id a ws = some (b, rest)) :
    id ≤ b ∧ rest <:+ ws := by
  induction ws generalizing a with
  | nil =>
    by_cases hle : id ≤ a
    · simp only [pollUntil, hle, if_true, Option.some.injEq, Prod.mk.injEq] at h
      exact ⟨h.1 ▸ hle, h.2 ▸ List.suffix_refl _⟩
    · simp [pollUntil, hle] at h
  | cons w ws ih =>
    by_cases hle : id ≤ a
    · rw [pollUntil_of_le hle, Option.some.injEq, Prod.mk.injEq] at h
      exact ⟨h.1 ▸ hle, h.2 ▸ List.suffix_refl _⟩
    · rw [pollUntil_cons_of_lt (by omega)] at h
      obtain ⟨hid, hsuf⟩ := ih h
      exact ⟨hid, hsuf.trans (List.suffix_cons w ws)⟩

/-- On a queue of consecutive numbers the last one that was taken is the number of
completions taken so far. -/
theorem pollUntil_consecutive (h : pollUntil last id a (List.range' (a+1) k) = some (b, rest)) :
    a ≤ b ∧ b ≤ a+k ∧ rest = List.range' (b+1) (a+k-b) := by
  induction k generalizing a with
  | zero =>
    by_cases hle : id ≤ a
    · simp only [List.range'_zero, pollUntil, hle, if_true, Option.some.injEq, Prod.mk.injEq] at h
      obtain ⟨rfl, rfl⟩ := h
      simp
    · simp [pollUntil, hle] at h
  | succ k ih =>
    by_cases hle : id ≤ a
    · rw [pollUntil_of_le hle, Option.some.injEq, Prod.mk.injEq] at h
      obtain ⟨rfl, rfl⟩ := h
      simp
    · rw [List.range'_succ, pollUntil_cons_of_lt (by omega), show last a (a+1) = a+1 from rfl] at h
      obtain ⟨h1, h2, h3⟩ := ih h
      refine ⟨by omega, by omega, ?_⟩
      rw [h3, show a+1+k = a+(k+1) by omega]

theorem pollUntil_returns (hrec : ∀ a w, w ≤ record a w) (h : id ≤ a ∨ ∃ w ∈ ws, id ≤ w) :
    ∃ b rest, pollUntil record id a ws = some (b, rest) := by
  induction ws generalizing a with
  | nil => exact ⟨a, [], pollUntil_of_le (by simpa using h) []⟩
  | cons w ws ih =>
    by_cases hle : id ≤ a
    · exact ⟨a, w::ws, pollUntil_of_le hle _⟩
    · rw [pollUntil_cons_of_lt (by omega)]
      apply ih
      rcases h with h | ⟨v, hv, hid⟩
      · exact absurd h hle
      · rcases List.mem_cons.mp hv with rfl | hv
        · exact Or.inl (Nat.le_trans hid (hrec a v))
        · exact Or.inr ⟨v, hv, hid⟩

theorem pollUntil_split (h : pollUntil last id a ws = some (b, rest)) :
    (b = a ∧ rest = ws) ∨ ∃ vs, ws = vs++b::rest := by
  induction ws generalizing a with
  | nil =>
    rw [pollUntil, Option.ite_none_right_eq_some] at h
    obtain ⟨rfl, rfl⟩ := Prod.mk.inj (Option.some.inj h.2)
    exact Or.inl ⟨rfl, rfl⟩
  | cons w ws ih =>
    rw [pollUntil] at h
    split at h
    · obtain ⟨rfl, rfl⟩ := Prod.mk.inj (Option.some.inj h)
      exact Or.inl ⟨rfl, rfl⟩
    · right
      rcases ih h with ⟨rfl, rfl⟩ | ⟨vs, rfl⟩
      · exact ⟨[], rfl⟩
      · exact ⟨w::vs, rfl⟩

theorem pollUntil_last_congr (ha : a < id) (hb : b < id) (ws : List ℕ) :
    pollUntil last id a ws = pollUntil last id b ws := by
  cases ws with
  | nil => rw [pollUntil, pollUntil, if_neg (by omega), if_neg (by omega)]
  | cons w ws =>
    rw [pollUntil_cons_of_lt ha, pollUntil_cons_of_lt hb]
    rfl

theorem pollUntil_filter (p : ℕ → Bool) (h : ∀ w ∈ ws, p w = false → w < id) :
    (pollUntil last id a ws).map (fun x => (x.1, x.2.filter p)) =
      pollUntil last id a (ws.filter p) := by
  induction ws generalizing a with
  | nil =>
    by_cases hle : id ≤ a
    · simp [pollUntil, hle]
    · simp [pollUntil, hle]
  | cons w ws ih =>
    by_cases hle : id ≤ a
    · rw [pollUntil_of_le hle, pollUntil_of_le hle]
      rfl
    have hlt : a < id := by omega
    have hws := fun v hv => h v (List.mem_cons_of_mem w hv)
    rw [pollUntil_cons_of_lt hlt, ih hws]
    by_cases hw : p w
    · rw [List.filter_cons_of_pos hw, pollUntil_cons_of_lt hlt]
    · rw [List.filter_cons_of_neg hw]
      exact pollUntil_last_congr (h w List.mem_cons_self (by simpa using hw)) hlt _

theorem le_last (a w : ℕ) : w ≤ last a w := Nat.le_refl w

theorem le_greatest (a w : ℕ) : w ≤ greatest a w := by
  unfold greatest
  split <;> omega

/-- The numbers of the signaled requests that are posted and whose completion is not
polled, in posting order; the first `completed` of them have completed. -/
structure SendQueue where
  wrs : List ℕ
  completed : ℕ
  deriving DecidableEq, Repr

namespace SendQueue

def empty : SendQueue := ⟨[], 0⟩

def post (q : SendQueue) (w : ℕ) : SendQueue := { q with wrs := q.wrs++[w] }

def complete (q : SendQueue) : Option SendQueue :=
  if q.completed < q.wrs.length then some { q with completed := q.completed+1 } else none

/-- The queue when completions were polled until `rest` is left. What is polled has
completed, during the poll at the latest. -/
def polled (q : SendQueue) (rest : List ℕ) : SendQueue :=
  ⟨rest, q.completed-(q.wrs.length-rest.length)⟩

def drop (q : SendQueue) : SendQueue := q.polled (q.wrs.drop 1)

def drain (q : SendQueue) : SendQueue := ⟨q.wrs.drop q.completed, 0⟩

def wait (record : ℕ → ℕ → ℕ) (id a : ℕ) (q : SendQueue) : Option (ℕ × SendQueue) :=
  match pollUntil record id a q.wrs with
  | none => none
  | some (b, rest) => some (b, q.polled rest)

def Owed (n a : ℕ) (q : SendQueue) : Prop := n ≤ a ∨ n ∈ q.wrs

section Owed

variable {n : ℕ} {q q' : SendQueue}

theorem owed_post (n a : ℕ) (q : SendQueue) : Owed n a (q.post n) := Or.inr (by simp [post])

theorem Owed.post (h : Owed n a q) (w : ℕ) : Owed n a (q.post w) :=
  h.imp_right (List.mem_append_left _)

theorem Owed.complete (h : Owed n a q) (hc : q.complete = some q') : Owed n a q' := by
  unfold SendQueue.complete at hc
  split at hc
  · obtain rfl := Option.some.inj hc
    exact h
  · cases hc

/-- Waiting loses nothing, whether the last or the greatest number is recorded. -/
theorem pollUntil_owed (hrec : ∀ a w, w ≤ record a w) (h : n ≤ a ∨ n ∈ ws)
    (hp : pollUntil record id a ws = some (b, rest)) : n ≤ b ∨ n ∈ rest := by
  have hid := (pollUntil_ends hp).1
  rcases Nat.lt_or_ge n id with hn | hn
  · exact Or.inl (by omega)
  induction ws generalizing a with
  | nil =>
    have hle : id ≤ a := by
      by_contra hlt
      simp [pollUntil, hlt] at hp
    rw [pollUntil_of_le hle, Option.some.injEq, Prod.mk.injEq] at hp
    exact hp.1 ▸ hp.2 ▸ h
  | cons w ws ih =>
    by_cases hle : id ≤ a
    · rw [pollUntil_of_le hle, Option.some.injEq, Prod.mk.injEq] at hp
      exact hp.1 ▸ hp.2 ▸ h
    · rw [pollUntil_cons_of_lt (by omega)] at hp
      apply ih _ hp
      rcases h with h | h
      · omega
      · rcases List.mem_cons.mp h with rfl | h
        · exact Or.inl (hrec a n)
        · exact Or.inr h

theorem Owed.wait (hrec : ∀ a w, w ≤ record a w) (h : Owed n a q)
    (hw : q.wait record id a = some (b, q')) : Owed n b q' := by
  unfold SendQueue.wait at hw
  cases hp : pollUntil record id a q.wrs with
  | none => simp [hp] at hw
  | some p =>
    simp only [hp, Option.some.injEq, Prod.mk.injEq] at hw
    obtain ⟨rfl, rfl⟩ := hw
    exact pollUntil_owed hrec h hp

theorem Owed.wait_returns (hrec : ∀ a w, w ≤ record a w) (h : Owed n a q) (hid : id ≤ n) :
    ∃ b q', q.wait record id a = some (b, q') := by
  have hex : id ≤ a ∨ ∃ w ∈ q.wrs, id ≤ w := by
    rcases h with h | h
    · exact Or.inl (Nat.le_trans hid h)
    · exact Or.inr ⟨n, h, hid⟩
  obtain ⟨b, rest, hp⟩ := pollUntil_returns hrec hex
  exact ⟨b, q.polled rest, by rw [SendQueue.wait, hp]⟩

theorem Owed.post_drop (h : Owed n a q) (hf : q.wrs.head? ≠ some n) (w : ℕ) :
    Owed n a (q.post w).drop := by
  refine h.imp_right fun hm => ?_
  change n ∈ (q.wrs++[w]).drop 1
  cases hq : q.wrs with
  | nil => simp [hq] at hm
  | cons v vs =>
    rw [hq] at hm hf
    rcases List.mem_cons.mp hm with rfl | hm
    · exact absurd rfl hf
    · exact List.mem_append_left _ hm

theorem Owed.drain (h : Owed n a q) (hc : n ∉ q.wrs.take q.completed) : Owed n a q.drain := by
  refine h.imp_right fun hm => ?_
  rw [← List.take_append_drop q.completed q.wrs] at hm
  exact (List.mem_append.mp hm).resolve_left hc

end Owed

end SendQueue

end KYM.CompletionQueue
