import Mathlib.Data.List.AList
import Mathlib.Order.Bounds.Basic
import Mathlib.Tactic.Order

/-!
# Interval maps with forward merging

A map from the start of an interval to its end. A new interval swallows the
interval that starts where it ends, and again the one after that, but never the
one before it. The frontier is the end of the intervals that reach the beginning;
everything beyond it is kept in the map.
-/

set_option autoImplicit false

namespace KYM.IntervalMap

variable {α : Type*} [LinearOrder α]

abbrev Regions (α : Type*) := AList (fun _ : α => α)

def absorb : ℕ → Regions α → α → Option (Regions α × α)
  | 0, _, _ => none
  | n+1, m, e =>
    match m.lookup e with
    | none => some (m, e)
    | some t => absorb n (m.erase e) t

def Inside (m : Regions α) (p : α) : Prop := ∃ a b, m.lookup a = some b ∧ a ≤ p ∧ p < b

structure Separate (m : Regions α) (B : α → Prop) : Prop where
  entry : ∀ a b, m.lookup a = some b → a < b ∧ B a ∧ B b
  apart : ∀ a b a' b', m.lookup a = some b → m.lookup a' = some b' → a < a' → b ≤ a'

/-- No entry meets the interval from `s` to `e`. -/
def Clear (m : Regions α) (s e : α) : Prop := ∀ a b, m.lookup a = some b → b ≤ s ∨ e ≤ a

theorem lookup_of_erase (m : Regions α) (k a b : α) (h : (m.erase k).lookup a = some b) :
    a ≠ k ∧ m.lookup a = some b := by
  by_cases hk : a = k
  · subst hk
    rw [AList.lookup_erase] at h
    cases h
  · rw [AList.lookup_erase_ne hk] at h
    exact ⟨hk, h⟩

theorem separate_erase (m : Regions α) (B : α → Prop) (h : Separate m B) (k : α) :
    Separate (m.erase k) B where
  entry a b hab := h.entry a b (lookup_of_erase m k a b hab).2
  apart a b a' b' hab hab' :=
    h.apart a b a' b' (lookup_of_erase m k a b hab).2 (lookup_of_erase m k a' b' hab').2

theorem clear_erase (m : Regions α) (B : α → Prop) (h : Separate m B) (s e t : α)
    (hc : Clear m s e) (het : m.lookup e = some t) : Clear (m.erase e) s t := by
  intro a b hab
  obtain ⟨hne, hab⟩ := lookup_of_erase m e a b hab
  rcases hc a b hab with h1 | h1
  · exact Or.inl h1
  · exact Or.inr (h.apart e t a b het hab (lt_of_le_of_ne h1 (Ne.symm hne)))

theorem inside_erase (m : Regions α) (B : α → Prop) (h : Separate m B) (s e t : α) (hse : s < e)
    (het : m.lookup e = some t) (p : α) :
    Inside (m.erase e) p ∨ (s ≤ p ∧ p < t) ↔ Inside m p ∨ (s ≤ p ∧ p < e) := by
  have hlt := (h.entry e t het).1
  constructor
  · rintro (⟨a, b, hab, hp⟩ | ⟨h1, h2⟩)
    · exact Or.inl ⟨a, b, (lookup_of_erase m e a b hab).2, hp⟩
    · by_cases hp : p < e
      · exact Or.inr ⟨h1, hp⟩
      · exact Or.inl ⟨e, t, het, not_lt.mp hp, h2⟩
  · rintro (⟨a, b, hab, h1, h2⟩ | ⟨h1, h2⟩)
    · by_cases ha : a = e
      · subst ha
        obtain rfl : t = b := Option.some.inj (het.symm.trans hab)
        exact Or.inr ⟨hse.le.trans h1, h2⟩
      · exact Or.inl ⟨a, b, by rw [AList.lookup_erase_ne ha]; exact hab, h1, h2⟩
    · exact Or.inr ⟨h1, h2.trans hlt⟩

theorem card_erase (m : Regions α) (k t : α) (h : m.lookup k = some t) :
    (m.erase k).keys.length+1 = m.keys.length := by
  have hmem : k ∈ m.keys := AList.mem_keys.mp (AList.lookup_isSome.mp (by rw [h]; rfl))
  rw [AList.keys_erase, List.length_erase_of_mem hmem]
  have := List.length_pos_of_mem hmem
  omega

/-- Merging ends within as many rounds as there are entries, covers what was
covered before, and stops where no entry begins. -/
theorem absorb_spec (n : ℕ) (m : Regions α) (B : α → Prop) (s e : α) (hm : Separate m B)
    (hse : s < e) (he : B e) (hc : Clear m s e) (hn : m.keys.length < n) :
    ∃ m' e', absorb n m e = some (m', e') ∧ e ≤ e' ∧ B e' ∧ Separate m' B ∧ Clear m' s e' ∧
      m'.lookup e' = none ∧ (∀ a b, m'.lookup a = some b → m.lookup a = some b) ∧
      ∀ p, Inside m' p ∨ (s ≤ p ∧ p < e') ↔ Inside m p ∨ (s ≤ p ∧ p < e) := by
  induction n generalizing m e with
  | zero => omega
  | succ n ih =>
    cases het : m.lookup e with
    | none =>
      exact ⟨m, e, by simp [absorb, het], le_refl e, he, hm, hc, het, fun _ _ h => h,
        fun _ => Iff.rfl⟩
    | some t =>
      obtain ⟨hlt, -, hBt⟩ := hm.entry e t het
      have hcard := card_erase m e t het
      obtain ⟨m', e', h1, h2, h3, h4, h5, h6, h7, h8⟩ := ih (m.erase e) t
        (separate_erase m B hm e) (hse.trans hlt) hBt (clear_erase m B hm s e t hc het)
        (by omega)
      refine ⟨m', e', by simp only [absorb, het, h1], hlt.le.trans h2, h3, h4, h5, h6, ?_, ?_⟩
      · exact fun a b hab => (lookup_of_erase m e a b (h7 a b hab)).2
      · exact fun p => (h8 p).trans (inside_erase m B hm s e t hse het p)

/-- The frontier and the map describe exactly the set `F`. -/
structure Exact (front : α) (m : Regions α) (F B : α → Prop) : Prop where
  separate : Separate m B
  boundary : B front
  below : ∀ p, p < front → F p
  beyond : ∀ a b, m.lookup a = some b → front < a
  cover : ∀ p, front ≤ p → (F p ↔ Inside m p)

theorem Exact.open_front {front : α} {m : Regions α} {F B : α → Prop} (h : Exact front m F B) :
    ¬ F front := by
  rw [h.cover front (le_refl front)]
  rintro ⟨a, b, hab, hle, -⟩
  exact absurd (h.beyond a b hab) (not_lt.mpr hle)

theorem Exact.front_le {front : α} {m : Regions α} {F B : α → Prop} (h : Exact front m F B)
    (p : α) (hp : ¬ F p) : front ≤ p := by
  by_contra hlt
  exact hp (h.below p (not_le.mp hlt))

theorem Exact.not_key {front : α} {m : Regions α} {F B : α → Prop} (h : Exact front m F B) :
    front ∉ m := by
  rw [← AList.lookup_eq_none]
  cases hl : m.lookup front with
  | none => rfl
  | some b => exact absurd (h.beyond front b hl) (lt_irrefl front)

theorem Exact.isGreatest {front : α} {m : Regions α} {F B : α → Prop} (h : Exact front m F B) :
    IsGreatest {x | B x ∧ ∀ p, p < x → F p} front := by
  refine ⟨⟨h.boundary, h.below⟩, ?_⟩
  rintro x ⟨-, hx⟩
  by_contra hlt
  exact h.open_front (hx front (not_le.mp hlt))

def add (n : ℕ) (front : α) (m : Regions α) (s e : α) : Option (α × Regions α) :=
  match absorb n m e with
  | none => none
  | some (m', e') => if s = front then some (e', m') else some (front, m'.insert s e')

theorem lookup_of_insert (m : Regions α) (k v a b : α) (h : (m.insert k v).lookup a = some b) :
    (a = k ∧ b = v) ∨ (a ≠ k ∧ m.lookup a = some b) := by
  by_cases hk : a = k
  · subst hk
    rw [AList.lookup_insert] at h
    exact Or.inl ⟨rfl, (Option.some.inj h).symm⟩
  · rw [AList.lookup_insert_ne hk] at h
    exact Or.inr ⟨hk, h⟩

theorem inside_insert (m : Regions α) (B : α → Prop) (s e : α) (hm : Separate m B)
    (hc : Clear m s e) (hse : s < e) (p : α) :
    Inside (m.insert s e) p ↔ Inside m p ∨ (s ≤ p ∧ p < e) := by
  constructor
  · rintro ⟨a, b, hab, hp⟩
    rcases lookup_of_insert m s e a b hab with ⟨rfl, rfl⟩ | ⟨-, hab⟩
    · exact Or.inr hp
    · exact Or.inl ⟨a, b, hab, hp⟩
  · rintro (⟨a, b, hab, hp⟩ | hp)
    · have hne : a ≠ s := by
        rintro rfl
        have := (hm.entry a b hab).1
        rcases hc a b hab with h | h
        · exact absurd this (not_lt.mpr h)
        · exact absurd hse (not_lt.mpr h)
      exact ⟨a, b, by rw [AList.lookup_insert_ne hne]; exact hab, hp⟩
    · exact ⟨s, e, AList.lookup_insert m, hp⟩

theorem separate_insert (m : Regions α) (B : α → Prop) (s e : α) (hm : Separate m B)
    (hc : Clear m s e) (hse : s < e) (hs : B s) (he : B e) : Separate (m.insert s e) B where
  entry a b hab := by
    rcases lookup_of_insert m s e a b hab with ⟨rfl, rfl⟩ | ⟨-, hab⟩
    · exact ⟨hse, hs, he⟩
    · exact hm.entry a b hab
  apart a b a' b' hab hab' hlt := by
    rcases lookup_of_insert m s e a b hab with ⟨ha, hb⟩ | ⟨-, hab⟩ <;>
      rcases lookup_of_insert m s e a' b' hab' with ⟨ha', hb'⟩ | ⟨-, hab'⟩
    · order
    · have := (hm.entry a' b' hab').1
      rcases hc a' b' hab' with h | h <;> order
    · have := (hm.entry a b hab).1
      rcases hc a b hab with h | h <;> order
    · exact hm.apart a b a' b' hab hab' hlt

/-- Adding a fresh interval keeps the description exact, and always ends. -/
theorem add_exact (n : ℕ) (front : α) (m : Regions α) (F B : α → Prop) (s e : α)
    (h : Exact front m F B) (hse : s < e) (hs : B s) (he : B e) (hfresh : ∀ p, s ≤ p → p < e → ¬ F p)
    (hn : m.keys.length < n) :
    ∃ front' m', add n front m s e = some (front', m') ∧ front ≤ front' ∧
      Exact front' m' (fun p => F p ∨ (s ≤ p ∧ p < e)) B := by
  have hfs : front ≤ s := h.front_le s (hfresh s (le_refl s) hse)
  have hclear : Clear m s e := by
    intro a b hab
    by_contra hcon
    rw [not_or, not_le, not_le] at hcon
    have hlt := (h.separate.entry a b hab).1
    have hfa := h.beyond a b hab
    rcases le_total a s with hle | hle
    · exact hfresh s (le_refl s) hse ((h.cover s hfs).mpr ⟨a, b, hab, hle, hcon.1⟩)
    · exact hfresh a hle hcon.2 ((h.cover a hfa.le).mpr ⟨a, b, hab, le_refl a, hlt⟩)
  obtain ⟨m', e', h1, h2, h3, h4, h5, h6, h7, h8⟩ :=
    absorb_spec n m B s e h.separate hse he hclear hn
  have hse' : s < e' := lt_of_lt_of_le hse h2
  have hcov : ∀ p, front ≤ p → ((F p ∨ (s ≤ p ∧ p < e)) ↔ Inside m' p ∨ (s ≤ p ∧ p < e')) :=
    fun p hp => by rw [h8 p, h.cover p hp]
  by_cases hsf : s = front
  · refine ⟨e', m', by simp only [add, h1, if_pos hsf], hsf ▸ hse'.le, h4, h3, ?_, ?_, ?_⟩
    · intro p hp
      by_cases hps : p < front
      · exact Or.inl (h.below p hps)
      · exact (hcov p (not_lt.mp hps)).mpr (Or.inr ⟨hsf ▸ not_lt.mp hps, hp⟩)
    · intro a b hab
      have hlt := (h4.entry a b hab).1
      have hfa := h.beyond a b (h7 a b hab)
      have hne : e' ≠ a := by
        rintro rfl
        rw [h6] at hab
        cases hab
      rcases h5 a b hab with hb | hb
      · order
      · exact lt_of_le_of_ne hb hne
    · intro p hp
      rw [hcov p (hfs.trans (hse'.le.trans hp))]
      exact or_iff_left (fun hp' => absurd hp'.2 (not_lt.mpr hp))
  · refine ⟨front, m'.insert s e', by simp only [add, h1, if_neg hsf], le_refl front,
      separate_insert m' B s e' h4 h5 hse' hs h3, h.boundary, fun p hp => Or.inl (h.below p hp),
      ?_, ?_⟩
    · intro a b hab
      rcases lookup_of_insert m' s e' a b hab with ⟨rfl, rfl⟩ | ⟨-, hab⟩
      · exact lt_of_le_of_ne hfs (Ne.symm hsf)
      · exact h.beyond a b (h7 a b hab)
    · intro p hp
      rw [hcov p hp, inside_insert m' B s e' h4 h5 hse' p]

end KYM.IntervalMap
