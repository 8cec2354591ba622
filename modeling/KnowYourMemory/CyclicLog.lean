import KnowYourMemory.Circle
import Mathlib.Logic.Function.Basic

/-!
# A log kept in a cyclic array

Entry `k` of a growing log is written to cell `(1+k)%n` of an array of `n` cells.
The array agrees with the log on a window of entries; writing at the upper end is
safe as long as the window is shorter than the array, and the cells outside the
window keep a property of their own.
-/

set_option autoImplicit false

namespace KYM.CyclicLog
open KYM.Circle

variable {β : Type*} {n lo hi : ℕ} {A : ℕ → β} {log : List β} {P : β → Prop}

def cell (n k : ℕ) : ℕ := (1+k)%n

theorem cell_inj (n j k : ℕ) (hj : j ≤ k) (hk : k < j+n) (h : cell n j = cell n k) : j = k := by
  have := residue_inj n (1+j) (1+k) (by omega) (by omega) h
  omega

def Holds (n : ℕ) (A : ℕ → β) (log : List β) (lo hi : ℕ) : Prop :=
  ∀ k, lo ≤ k → k < hi → log[k]? = some (A (cell n k))

def Vacant (P : β → Prop) (n : ℕ) (A : ℕ → β) (lo hi : ℕ) : Prop :=
  ∀ c, (∀ k, lo ≤ k → k < hi → cell n k ≠ c) → P (A c)

theorem Holds.extend (h : Holds n A log lo hi) (x : β) : Holds n A (log++[x]) lo hi := by
  intro k h1 h2
  have := h k h1 h2
  rw [List.getElem?_append_left (List.getElem?_eq_some_iff.mp this).1, this]

theorem Holds.write (h : Holds n A log lo hi) (hn : hi < lo+n) (v : β) (hv : log[hi]? = some v) :
    Holds n (Function.update A (cell n hi) v) log lo (hi+1) := by
  intro k h1 h2
  by_cases hk : k = hi
  · rw [hk, Function.update_self, hv]
  · have hne : cell n k ≠ cell n hi := by
      intro he
      have := cell_inj n k hi (by omega) (by omega) he
      omega
    rw [Function.update_of_ne hne]
    exact h k h1 (by omega)

theorem Holds.forget (h : Holds n A log lo hi) (hn : hi ≤ lo+n) (v : β) :
    Holds n (Function.update A (cell n lo) v) log (lo+1) hi := by
  intro k h1 h2
  have hne : cell n k ≠ cell n lo := by
    intro he
    have := cell_inj n lo k (by omega) (by omega) he.symm
    omega
  rw [Function.update_of_ne hne]
  exact h k (by omega) h2

theorem Vacant.write (h : Vacant P n A lo hi) (v : β) (hle : lo ≤ hi) :
    Vacant P n (Function.update A (cell n hi) v) lo (hi+1) := by
  intro c hc
  rw [Function.update_of_ne (hc hi hle (by omega)).symm]
  exact h c (fun k h1 h2 => hc k h1 (by omega))

theorem Vacant.forget (h : Vacant P n A lo hi) (v : β) (hv : P v) :
    Vacant P n (Function.update A (cell n lo) v) (lo+1) hi := by
  intro c hc
  by_cases he : c = cell n lo
  · rw [he, Function.update_self]
    exact hv
  · rw [Function.update_of_ne he]
    apply h c
    intro k h1 h2
    by_cases hk : k = lo
    · exact hk ▸ Ne.symm he
    · exact hc k (by omega) h2

theorem Vacant.next (h : Vacant P n A lo hi) (hn : hi < lo+n) : P (A (cell n hi)) := by
  apply h
  intro k h1 h2 he
  have := cell_inj n k hi h2.le (by omega) he
  omega

end KYM.CyclicLog
