import Mathlib.Data.Finset.Image
import Mathlib.Data.Finset.Range
import Mathlib.Order.Interval.Finset.Nat
import Mathlib.Data.Nat.ModEq

/-!
# Cells of a ring that is filled by an unbounded stream

A stream position is a natural number and a cell is a residue below the length
of the ring. A ring that is filled upwards places position `p` in cell `p % L`,
a ring that is filled downwards in the mirror image of that cell. Two ranges of
positions share no cell as long as both lie in one window of length `L`.
-/

set_option autoImplicit false

namespace KYM.Circle

theorem residue_inj (L a b : ℕ) (hab : a ≤ b) (hb : b < a+L) (h : a%L = b%L) : a = b := by
  obtain ⟨d, rfl⟩ := Nat.exists_eq_add_of_le hab
  have hd : d%L = 0 := by
    have : (a+0) ≡ (a+d) [MOD L] := by simpa [Nat.ModEq] using h
    exact (Nat.ModEq.add_left_cancel' a this).symm
  have : d = 0 := by rw [← Nat.mod_eq_of_lt (by omega : d < L)]; exact hd
  omega

def cells (L off n : ℕ) : Finset ℕ := (Finset.range n).image (fun i => (off+i)%L)

theorem mem_cells (L off n c : ℕ) : c ∈ cells L off n ↔ ∃ i < n, (off+i)%L = c := by
  simp [cells]

theorem cells_congr (L a b n : ℕ) (h : a%L = b%L) : cells L a n = cells L b n := by
  ext c
  simp only [mem_cells]
  have hc : ∀ i, (a+i)%L = (b+i)%L := fun i => Nat.ModEq.add_right i h
  simp only [hc]

theorem cells_subset (L a n b k : ℕ) (h1 : a ≤ b) (h2 : b+k ≤ a+n) :
    cells L b k ⊆ cells L a n := by
  intro c hc
  obtain ⟨i, hi, rfl⟩ := (mem_cells L b k c).mp hc
  exact (mem_cells L a n _).mpr ⟨b-a+i, by omega, by congr 1; omega⟩

/-- Which way a ring is filled. -/
inductive Direction where
  | up
  | down
  deriving DecidableEq, Repr

def place : Direction → ℕ → ℕ → ℕ
  | .up, L, p => p%L
  | .down, L, p => L-1-p%L

def Anchored : Direction → ℕ → ℕ → ℕ → ℕ → Prop
  | .up, L, off, p, _ => off%L = p%L
  | .down, L, off, p, n => (off+p+n)%L = 0

theorem place_inj (d : Direction) (L p q : ℕ) (hL : 0 < L) (h : place d L p = place d L q) :
    p%L = q%L := by
  have hp := Nat.mod_lt p hL
  have hq := Nat.mod_lt q hL
  cases d <;> simp only [place] at h <;> omega

theorem place_ne (d : Direction) (L p q : ℕ) (h : p < q) (hq : q < p+L) :
    place d L p ≠ place d L q := by
  intro he
  have := residue_inj L p q h.le hq (place_inj d L p q (by omega) he)
  omega

theorem mirror_cell (L off p n i : ℕ) (hL : 0 < L) (h : (off+p+n)%L = 0) (hi : i < n) :
    (off+i)%L = L-1-(p+(n-1-i))%L := by
  have hs : (off+i+(p+(n-1-i))+1)%L = 0 := by
    rw [show off+i+(p+(n-1-i))+1 = off+p+n by omega]
    exact h
  have hu := Nat.mod_lt (off+i) hL
  have hv := Nat.mod_lt (p+(n-1-i)) hL
  obtain ⟨k, hk⟩ := Nat.dvd_of_mod_eq_zero hs
  have e1 := Nat.div_add_mod (off+i) L
  have e2 := Nat.div_add_mod (p+(n-1-i)) L
  have hsum : (off+i)%L+(p+(n-1-i))%L+1 = L*(k-(off+i)/L-(p+(n-1-i))/L) := by
    rw [Nat.mul_sub, Nat.mul_sub]
    omega
  have hk1 : k-(off+i)/L-(p+(n-1-i))/L = 1 := by
    generalize k-(off+i)/L-(p+(n-1-i))/L = q at hsum
    match q, hsum with
    | 0, hsum => omega
    | 1, _ => rfl
    | q+2, hsum =>
      have h2 : L*2 ≤ L*(q+2) := Nat.mul_le_mul_left L (by omega)
      omega
  rw [hk1] at hsum
  omega

/-- The cells at an anchored offset are the places of the positions it stands for. -/
theorem cells_anchored (d : Direction) (L off p n : ℕ) (hL : 0 < L) (h : Anchored d L off p n) :
    cells L off n = (Finset.Ico p (p+n)).image (place d L) := by
  ext c
  simp only [mem_cells, Finset.mem_image, Finset.mem_Ico]
  cases d with
  | up =>
    have hc : ∀ i, (off+i)%L = (p+i)%L := fun i => Nat.ModEq.add_right i h
    constructor
    · rintro ⟨i, hi, rfl⟩
      exact ⟨p+i, by omega, (hc i).symm⟩
    · rintro ⟨q, hq, rfl⟩
      exact ⟨q-p, by omega, by rw [hc, place]; congr 1; omega⟩
  | down =>
    constructor
    · rintro ⟨i, hi, rfl⟩
      exact ⟨p+(n-1-i), by omega, (mirror_cell L off p n i hL h hi).symm⟩
    · rintro ⟨q, hq, rfl⟩
      refine ⟨n-1-(q-p), by omega, ?_⟩
      rw [mirror_cell L off p n _ hL h (by omega), place]
      congr 3
      omega

/-- Ranges of positions that follow each other inside one window of the ring's
length occupy different cells, whichever way the ring is filled. -/
theorem cells_disjoint (d : Direction) (L o p n o' p' n' : ℕ) (hL : 0 < L)
    (h : Anchored d L o p n) (h' : Anchored d L o' p' n')
    (hsep : p+n ≤ p') (hwin : p'+n' ≤ p+L) : Disjoint (cells L o n) (cells L o' n') := by
  rw [cells_anchored d L o p n hL h, cells_anchored d L o' p' n' hL h', Finset.disjoint_left]
  intro c hc hc'
  obtain ⟨q, hq, rfl⟩ := Finset.mem_image.mp hc
  obtain ⟨q', hq', he⟩ := Finset.mem_image.mp hc'
  rw [Finset.mem_Ico] at hq hq'
  have := residue_inj L q q' (by omega) (by omega) (place_inj d L q q' hL he.symm)
  omega

end KYM.Circle
