import KnowYourMemory.Circle
import Mathlib.Data.Nat.Digits.Defs

/-!
# Memory that is mapped twice

A ring of `L` cells that appears twice in a row in the address space: the byte at
offset `o` is in cell `o % L`. Loads and stores may run over the end of the first
copy. A store is a sequence of byte stores in increasing order, so that a prefix of
it describes a write that has partly arrived.
-/

set_option autoImplicit false

namespace KYM.MagicMemory
open KYM.Circle

variable {β : Type*}

def load (L : ℕ) (m : ℕ → β) (off n : ℕ) : List β := (List.range n).map (fun i => m ((off+i)%L))

def store (L : ℕ) (m : ℕ → β) : ℕ → List β → ℕ → β
  | _, [] => m
  | off, b::bs => store L (Function.update m (off%L) b) (off+1) bs

theorem load_length (L : ℕ) (m : ℕ → β) (off n : ℕ) : (load L m off n).length = n := by
  simp [load]

theorem load_getElem (L : ℕ) (m : ℕ → β) (off n i : ℕ) (hi : i < n) :
    (load L m off n)[i]? = some (m ((off+i)%L)) := by
  simp [load, hi]

theorem load_congr (L : ℕ) (m : ℕ → β) (a b n : ℕ) (h : a%L = b%L) :
    load L m a n = load L m b n := by
  apply List.map_congr_left
  intro i _
  congr 1
  exact Nat.ModEq.add_right i h

theorem load_append (L : ℕ) (m : ℕ → β) (off n k : ℕ) :
    load L m off (n+k) = load L m off n++load L m (off+n) k := by
  simp [load, List.range_add, Nat.add_assoc]

theorem load_eq_of_cells (L : ℕ) (m m' : ℕ → β) (off n : ℕ)
    (h : ∀ c ∈ cells L off n, m' c = m c) : load L m' off n = load L m off n := by
  apply List.map_congr_left
  intro i hi
  exact h _ ((mem_cells L off n _).mpr ⟨i, List.mem_range.mp hi, rfl⟩)

theorem store_byte (L : ℕ) (m : ℕ → β) (off : ℕ) (b : β) :
    store L m off [b] = Function.update m (off%L) b := rfl

theorem cells_succ (L off n : ℕ) : cells L off (n+1) = insert (off%L) (cells L (off+1) n) := by
  ext c
  simp only [Finset.mem_insert, mem_cells]
  constructor
  · rintro ⟨i, hi, rfl⟩
    cases i with
    | zero => exact Or.inl rfl
    | succ i => exact Or.inr ⟨i, by omega, by congr 1; omega⟩
  · rintro (rfl | ⟨i, hi, rfl⟩)
    · exact ⟨0, by omega, rfl⟩
    · exact ⟨i+1, by omega, by congr 1; omega⟩

theorem store_frame (L : ℕ) (m : ℕ → β) (off : ℕ) (bs : List β) (c : ℕ)
    (hc : c ∉ cells L off bs.length) : store L m off bs c = m c := by
  induction bs generalizing m off with
  | nil => rfl
  | cons b bs ih =>
    rw [List.length_cons, cells_succ, Finset.mem_insert, not_or] at hc
    rw [store, ih _ _ hc.2, Function.update_of_ne hc.1]

theorem store_apply (L : ℕ) (m : ℕ → β) (off : ℕ) (bs : List β) (hb : bs.length ≤ L) (i : ℕ)
    (hi : i < bs.length) : some (store L m off bs ((off+i)%L)) = bs[i]? := by
  induction bs generalizing m off i with
  | nil => simp at hi
  | cons b bs ih =>
    simp only [List.length_cons] at hb hi
    cases i with
    | zero =>
      have hc : off%L ∉ cells L (off+1) bs.length := by
        rw [mem_cells]
        rintro ⟨j, hj, he⟩
        have := residue_inj L off (off+1+j) (by omega) (by omega) he.symm
        omega
      simp only [Nat.add_zero, store, List.getElem?_cons_zero]
      rw [store_frame L _ _ _ _ hc, Function.update_self]
    | succ i =>
      rw [store, List.getElem?_cons_succ, ← ih (Function.update m (off%L) b) (off+1) (by omega) i
        (by omega)]
      congr 3
      omega

theorem load_store (L : ℕ) (m : ℕ → β) (off : ℕ) (bs : List β) (hb : bs.length ≤ L) :
    load L (store L m off bs) off bs.length = bs := by
  apply List.ext_getElem?
  intro i
  by_cases hi : i < bs.length
  · rw [load_getElem L _ _ _ i hi, store_apply L m off bs hb i hi]
  · rw [List.getElem?_eq_none (by rw [load_length]; omega), List.getElem?_eq_none (by omega)]

theorem load_store_frame (L : ℕ) (m : ℕ → β) (off : ℕ) (bs : List β) (o n : ℕ)
    (h : Disjoint (cells L off bs.length) (cells L o n)) :
    load L (store L m off bs) o n = load L m o n := by
  apply load_eq_of_cells
  intro c hc
  exact store_frame L m off bs c (Finset.disjoint_right.mp h hc)

theorem load_copy (L : ℕ) (m m' : ℕ → β) (off n o k : ℕ) (hn : n ≤ L) (ho : off ≤ o)
    (hk : o+k ≤ off+n) : load L (store L m off (load L m' off n)) o k = load L m' o k := by
  apply List.map_congr_left
  intro i hi
  have hi := List.mem_range.mp hi
  obtain ⟨j, hj⟩ := Nat.exists_eq_add_of_le (show off ≤ o+i by omega)
  have h := store_apply L m off (load L m' off n) (by rw [load_length]; exact hn) j
    (by rw [load_length]; omega)
  rw [load_getElem L m' off n j (by omega)] at h
  rw [hj]
  exact Option.some.inj h

def fetch (buf : ℕ → β) (off n : ℕ) : List β := (List.range n).map (fun i => buf (off+i))

def put (buf : ℕ → β) (off : ℕ) (bytes : List β) : ℕ → β := fun i =>
  if off ≤ i then (bytes[i-off]?).getD (buf i) else buf i

theorem fetch_length (buf : ℕ → β) (off n : ℕ) : (fetch buf off n).length = n := by simp [fetch]

theorem put_inside (buf : ℕ → β) (off : ℕ) (bytes : List β) (i : ℕ) (h1 : off ≤ i)
    (h2 : i < off+bytes.length) : bytes[i-off]? = some (put buf off bytes i) := by
  have h := List.getElem?_eq_getElem (show i-off < bytes.length by omega)
  simp [put, h1, h]

theorem put_outside (buf : ℕ → β) (off : ℕ) (bytes : List β) (i : ℕ)
    (h : i < off ∨ off+bytes.length ≤ i) : put buf off bytes i = buf i := by
  by_cases ho : off ≤ i
  · rw [put, if_pos ho, List.getElem?_eq_none (by omega)]
    rfl
  · rw [put, if_neg ho]

theorem fetch_put (buf : ℕ → β) (off : ℕ) (bytes : List β) :
    fetch (put buf off bytes) off bytes.length = bytes := by
  apply List.ext_getElem?
  intro i
  by_cases hi : i < bytes.length
  · have h := put_inside buf off bytes (off+i) (by omega) (by omega)
    rw [Nat.add_sub_cancel_left] at h
    simp [fetch, hi, ← h]
  · rw [List.getElem?_eq_none (by rw [fetch_length]; omega), List.getElem?_eq_none (by omega)]

theorem fetch_congr (buf buf' : ℕ → β) (off n : ℕ)
    (h : ∀ i, off ≤ i → i < off+n → buf' i = buf i) : fetch buf' off n = fetch buf off n := by
  apply List.map_congr_left
  intro i hi
  have := List.mem_range.mp hi
  exact h _ (by omega) (by omega)

/-- A 32-bit word in memory, its low byte first. -/
def putU32 (x : UInt32) : List UInt8 := (List.range 4).map (fun i => UInt8.ofNat (x.toNat/256^i))

def getU32 (bs : List UInt8) : UInt32 := UInt32.ofNat (Nat.ofDigits 256 (bs.map UInt8.toNat))

theorem putU32_length (x : UInt32) : (putU32 x).length = 4 := by simp [putU32]

theorem getU32_putU32 (x : UInt32) : getU32 (putU32 x) = x := by
  have hx := x.toNat_lt
  have hd : Nat.ofDigits 256 ((putU32 x).map UInt8.toNat) = x.toNat := by
    simp only [putU32, List.range, List.range.loop, List.map_cons, List.map_nil, UInt8.toNat_ofNat',
      Nat.ofDigits_cons, Nat.ofDigits_nil]
    omega
  rw [getU32, hd, UInt32.ofNat_toNat]

def putU64 (x : UInt64) : List UInt8 := (List.range 8).map (fun i => UInt8.ofNat (x.toNat/256^i))

def getU64 (bs : List UInt8) : UInt64 := UInt64.ofNat (Nat.ofDigits 256 (bs.map UInt8.toNat))

theorem putU64_length (x : UInt64) : (putU64 x).length = 8 := by simp [putU64]

theorem getU64_putU64 (x : UInt64) : getU64 (putU64 x) = x := by
  have hx := x.toNat_lt
  have hd : Nat.ofDigits 256 ((putU64 x).map UInt8.toNat) = x.toNat := by
    simp only [putU64, List.range, List.range.loop, List.map_cons, List.map_nil, UInt8.toNat_ofNat',
      Nat.ofDigits_cons, Nat.ofDigits_nil]
    omega
  rw [getU64, hd, UInt64.ofNat_toNat]

end KYM.MagicMemory
