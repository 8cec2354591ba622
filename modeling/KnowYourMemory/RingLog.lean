import KnowYourMemory.MagicMemory

/-!
# A log of bytes along a ring

Byte `q` of a growing log lies at the place of position `q`. A store runs upwards in
memory whichever way the ring is filled, so in a ring that is filled downwards the last
byte of a store comes first in the log.
-/

set_option autoImplicit false

namespace KYM.RingLog
open KYM.Circle KYM.MagicMemory

variable {β : Type*} {d : Direction} {L off p lo hi : ℕ} {mem : ℕ → β} {log bs : List β}

def along : Direction → List β → List β
  | .up, bs => bs
  | .down, bs => bs.reverse

def turn : Direction → ℕ → ℕ → ℕ
  | .up, _, i => i
  | .down, n, i => n-1-i

def Spells (d : Direction) (L : ℕ) (mem : ℕ → β) (log : List β) (lo hi : ℕ) : Prop :=
  ∀ q, lo ≤ q → q < hi → some (mem (place d L q)) = log[q]?

theorem along_length (d : Direction) (bs : List β) : (along d bs).length = bs.length := by
  cases d
  · rfl
  · exact List.length_reverse

theorem turn_lt (d : Direction) (n i : ℕ) (hi : i < n) : turn d n i < n := by
  cases d <;> simp only [turn] <;> omega

theorem turn_turn (d : Direction) (n i : ℕ) (hi : i < n) : turn d n (turn d n i) = i := by
  cases d <;> simp only [turn]
  omega

theorem along_turn (d : Direction) (bs : List β) (i : ℕ) (hi : i < bs.length) :
    (along d bs)[turn d bs.length i]? = bs[i]? := by
  cases d with
  | up => rfl
  | down =>
    rw [along, turn, List.getElem?_reverse (by omega)]
    congr 1
    omega

theorem anchored_cell (hL : 0 < L) (n i : ℕ) (h : Anchored d L off p n) (hi : i < n) :
    (off+i)%L = place d L (p+turn d n i) := by
  cases d with
  | up => exact Nat.ModEq.add_right i h
  | down => exact mirror_cell L off p n i hL h hi

theorem store_inside (mem : ℕ → β) (hL : 0 < L) (hb : bs.length ≤ L)
    (h : Anchored d L off p bs.length) (i : ℕ) (hi : i < bs.length) :
    some (store L mem off bs (place d L (p+i))) = (along d bs)[i]? := by
  have ht := turn_lt d bs.length i hi
  have hcell := anchored_cell hL bs.length _ h ht
  rw [turn_turn d bs.length i hi] at hcell
  rw [← hcell, store_apply L mem off bs hb _ ht, ← along_turn d bs _ ht,
    turn_turn d bs.length i hi]

theorem store_outside (hL : 0 < L) (h : Anchored d L off p bs.length) (q : ℕ)
    (hq : q < p ∧ p+bs.length ≤ q+L ∨ p+bs.length ≤ q ∧ q < p+L) :
    store L mem off bs (place d L q) = mem (place d L q) := by
  apply store_frame
  rw [cells_anchored d L off p bs.length hL h, Finset.mem_image]
  rintro ⟨x, hx, he⟩
  rw [Finset.mem_Ico] at hx
  rcases hq with hq | hq
  · exact place_ne d L q x (by omega) (by omega) he.symm
  · exact place_ne d L x q (by omega) (by omega) he

theorem load_along (hL : 0 < L) (h : Anchored d L off p bs.length)
    (hm : ∀ i < bs.length, some (mem (place d L (p+i))) = (along d bs)[i]?) :
    load L mem off bs.length = bs := by
  apply List.ext_getElem?
  intro i
  by_cases hi : i < bs.length
  · rw [load_getElem L mem off _ i hi, anchored_cell hL bs.length i h hi,
      hm _ (turn_lt d bs.length i hi), along_turn d bs i hi]
  · rw [List.getElem?_eq_none (by rw [load_length]; omega), List.getElem?_eq_none (by omega)]

theorem load_part (L : ℕ) (mem : ℕ → β) (off : ℕ) (pre x post : List β)
    (h : load L mem off (pre++x++post).length = pre++x++post) :
    load L mem (off+pre.length) x.length = x := by
  rw [List.length_append, List.length_append, load_append, load_append] at h
  obtain ⟨h, -⟩ := List.append_inj h (by simp [load_length])
  exact (List.append_inj h (load_length _ _ _ _)).2

theorem Spells.congr {mem' : ℕ → β} (h : Spells d L mem log lo hi)
    (hm : ∀ q, lo ≤ q → q < hi → mem' (place d L q) = mem (place d L q)) :
    Spells d L mem' log lo hi := by
  intro q h1 h2
  rw [hm q h1 h2]
  exact h q h1 h2

theorem Spells.mono {lo' : ℕ} (h : Spells d L mem log lo hi) (hlo : lo ≤ lo') :
    Spells d L mem log lo' hi := by
  intro q h1 h2
  exact h q (by omega) h2

theorem Spells.append (h : Spells d L mem log lo hi) (bs : List β) (hhi : hi ≤ log.length) :
    Spells d L mem (log++bs) lo hi := by
  intro q h1 h2
  rw [h q h1 h2, List.getElem?_append_left (by omega)]

/-- A part of the log that is stored behind the window extends it. The store may be
longer than the part. -/
theorem Spells.store (h : Spells d L mem log lo hi) (part rest : List β) (hL : 0 < L)
    (ha : Anchored d L off hi bs.length) (hbs : along d bs = part++rest)
    (hlog : ∀ i < part.length, log[hi+i]? = part[i]?) (hwin : hi+bs.length ≤ lo+L) (hle : lo ≤ hi) :
    Spells d L (store L mem off bs) log lo (hi+part.length) := by
  have hlen := congrArg List.length hbs
  rw [along_length, List.length_append] at hlen
  intro q h1 h2
  by_cases hq : q < hi
  · rw [store_outside hL ha q (Or.inl ⟨hq, by omega⟩)]
    exact h q h1 hq
  · obtain ⟨i, rfl⟩ := Nat.exists_eq_add_of_le (show hi ≤ q by omega)
    have hi' : i < part.length := by omega
    rw [store_inside _ hL (by omega) ha i (by omega), hbs, List.getElem?_append_left hi',
      hlog i hi']

theorem Spells.load (h : Spells d L mem log lo hi) (hL : 0 < L) (ha : Anchored d L off p bs.length)
    (hlog : ∀ i < bs.length, log[p+i]? = (along d bs)[i]?) (hlo : lo ≤ p)
    (hhi : p+bs.length ≤ hi) : load L mem off bs.length = bs := by
  apply load_along hL ha
  intro i hi
  rw [h (p+i) (by omega) (by omega), hlog i hi]

end KYM.RingLog
