import KnowYourMemory.WriteAtomic
import KnowYourMemory.BoundedStream

/-!
# Freeing in any order

The ledger records every message that was ever reserved in the 64-bit offset space
and how far it has got. Beside it stands the instance, which keeps no more than a
head and the freed intervals beyond it. After every `Free` the instance describes
the freed part of the ledger exactly.
-/

set_option autoImplicit false

namespace KYM.FreedRegions
open KYM.Run KYM.BoundedStream KYM.IntervalMap KYM.WriteAtomic
open KYM.RingBuffer (ReceiveRegion)

inductive Progress where
  | reserved
  | received
  | freed
  deriving DecidableEq, Repr

structure Reservation (π : Type) where
  start : UInt64
  len : UInt32
  progress : π
  deriving DecidableEq, Repr

abbrev Message := Reservation Progress

def Reservation.stop {π : Type} (m : Reservation π) : UInt64 := m.start+m.len.toUInt64

structure Ledger where
  inst : Instance
  tail : UInt64
  msgs : List Message

inductive Event where
  | reserve (len : UInt32)
  | receive (k : ℕ)
  | free (k : ℕ)
  deriving DecidableEq, Repr

def init (bufAddr : UInt64) (bufSize : UInt32) (useDm : Bool) : Ledger where
  inst := newInstance bufAddr bufSize useDm
  tail := 0
  msgs := []

def region (inst : Instance) (m : Message) : ReceiveRegion where
  context := m.start
  addr := inst.bufAddr+m.start%inst.bufSize.toUInt64
  length := m.len

def step (g : Ledger) : Event → Option Ledger
  | .reserve len =>
    some { g with tail := g.tail+len.toUInt64, msgs := g.msgs++[⟨g.tail, len, .reserved⟩] }
  | .receive k =>
    match g.msgs[k]? with
    | some ⟨start, len, .reserved⟩ =>
      some { g with msgs := g.msgs.set k ⟨start, len, .received⟩ }
    | _ => none
  | .free k =>
    match g.msgs[k]? with
    | some ⟨start, len, .received⟩ =>
      (g.inst.free (region g.inst ⟨start, len, .received⟩)).map (fun inst =>
        { g with inst := inst, msgs := g.msgs.set k ⟨start, len, .freed⟩ })
    | _ => none

/-- Messages are not empty and the offset space does not wrap. -/
def Tiling (g : Ledger) : Event → Prop
  | .reserve len => 1 ≤ len.toNat ∧ g.tail.toNat+len.toNat < 2^64
  | _ => True

instance (g : Ledger) : ∀ e : Event, Decidable (Tiling g e)
  | .reserve len => inferInstanceAs (Decidable (1 ≤ len.toNat ∧ g.tail.toNat+len.toNat < 2^64))
  | .receive _ | .free _ => isTrue trivial

def Covers (m : Message) (p : UInt64) : Prop := m.start ≤ p ∧ p < m.stop

def Freed (msgs : List Message) (p : UInt64) : Prop :=
  ∃ m ∈ msgs, m.progress = .freed ∧ Covers m p

def Boundary (g : Ledger) (x : UInt64) : Prop := x = g.tail ∨ ∃ m ∈ g.msgs, m.start = x

def span (m : Message) : Span Unit := ⟨m.start.toNat, m.len.toNat, ()⟩

structure Tracked (g : Ledger) : Prop where
  tiles : Tiles 0 (g.msgs.map span) g.tail.toNat
  exact : Exact g.inst.head g.inst.freedRegions (Freed g.msgs) (Boundary g)

section Facts

variable {g : Ledger}

theorem Tracked.message (h : Tracked g) (m : Message) (hm : m ∈ g.msgs) :
    0 < m.len.toNat ∧ m.start.toNat+m.len.toNat ≤ g.tail.toNat ∧
      m.stop.toNat = m.start.toNat+m.len.toNat := by
  have ht := tiles_mem _ _ _ h.tiles (span m) (List.mem_map_of_mem hm)
  have hlt := g.tail.toNat_lt
  simp only [span, Span.stop] at ht
  refine ⟨ht.2.1, ht.2.2, ?_⟩
  rw [Reservation.stop, UInt64.toNat_add, UInt32.toNat_toUInt64, Nat.mod_eq_of_lt (by omega)]

theorem Tracked.boundary_stop (h : Tracked g) (m : Message) (hm : m ∈ g.msgs) :
    Boundary g m.stop := by
  have hstop := (h.message m hm).2.2
  rcases tiles_stop _ _ _ h.tiles (span m) (List.mem_map_of_mem hm) with he | ⟨n, hn, he⟩
  · exact Or.inl (UInt64.toNat_inj.mp (hstop.trans he))
  · obtain ⟨n', hn', rfl⟩ := List.mem_map.mp hn
    exact Or.inr ⟨n', hn', UInt64.toNat_inj.mp (he.trans hstop.symm)⟩

theorem Tracked.separate (h : Tracked g) (j k : ℕ) (m n : Message) (hj : g.msgs[j]? = some m)
    (hk : g.msgs[k]? = some n) (hne : j ≠ k) :
    m.start.toNat+m.len.toNat ≤ n.start.toNat ∨ n.start.toNat+n.len.toNat ≤ m.start.toNat := by
  have hsort := List.pairwise_map.mp (tiles_sorted _ _ _ h.tiles)
  rw [List.pairwise_iff_getElem] at hsort
  obtain ⟨hj', rfl⟩ := List.getElem?_eq_some_iff.mp hj
  obtain ⟨hk', rfl⟩ := List.getElem?_eq_some_iff.mp hk
  rcases Nat.lt_or_gt_of_ne hne with hlt | hlt
  · exact Or.inl (hsort j k hj' hk' hlt)
  · exact Or.inr (hsort k j hk' hj' hlt)

theorem Tracked.unique (h : Tracked g) (j k : ℕ) (m n : Message) (hj : g.msgs[j]? = some m)
    (hk : g.msgs[k]? = some n) (p : UInt64) (hm : Covers m p) (hn : Covers n p) : j = k := by
  have hsm := (h.message m (List.mem_of_getElem? hj)).2.2
  have hsn := (h.message n (List.mem_of_getElem? hk)).2.2
  simp only [Covers, UInt64.le_iff_toNat_le, UInt64.lt_iff_toNat_lt] at hm hn
  by_contra hne
  rcases h.separate j k m n hj hk hne with hs | hs <;> omega

theorem Tracked.covers_start (h : Tracked g) (m : Message) (hm : m ∈ g.msgs) :
    Covers m m.start := by
  obtain ⟨hpos, -, hstop⟩ := h.message m hm
  refine ⟨UInt64.le_refl _, ?_⟩
  rw [UInt64.lt_iff_toNat_lt]
  omega

theorem Tracked.freed_start (h : Tracked g) (m : Message) (hm : m ∈ g.msgs)
    (hf : Freed g.msgs m.start) : m.progress = .freed := by
  obtain ⟨n, hn, hp, hc⟩ := hf
  obtain ⟨j, hj⟩ := List.mem_iff_getElem?.mp hn
  obtain ⟨k, hk⟩ := List.mem_iff_getElem?.mp hm
  have hjk := h.unique j k n m hj hk m.start hc (h.covers_start m hm)
  subst hjk
  obtain rfl := Option.some.inj (hj.symm.trans hk)
  exact hp

theorem Tracked.head_le (h : Tracked g) (m : Message) (hm : m ∈ g.msgs)
    (hf : m.progress ≠ .freed) : g.inst.head ≤ m.start :=
  h.exact.front_le m.start (fun hs => hf (h.freed_start m hm hs))

theorem mem_set_iff {β : Type} (l : List β) (k : ℕ) (a b x : β) (hk : l[k]? = some a) :
    x ∈ l.set k b ↔ x = b ∨ ∃ j, j ≠ k ∧ l[j]? = some x := by
  have hlt := (List.getElem?_eq_some_iff.mp hk).1
  simp only [List.mem_iff_getElem?, List.getElem?_set]
  constructor
  · rintro ⟨j, hj⟩
    by_cases hjk : k = j
    · simp only [if_pos hjk, if_pos hlt, Option.some.injEq] at hj
      exact Or.inl hj.symm
    · rw [if_neg hjk] at hj
      exact Or.inr ⟨j, Ne.symm hjk, hj⟩
  · rintro (rfl | ⟨j, hjk, hj⟩)
    · exact ⟨k, by rw [if_pos rfl, if_pos hlt]⟩
    · exact ⟨j, by rw [if_neg (Ne.symm hjk), hj]⟩

theorem mem_iff_set {β : Type} (l : List β) (k : ℕ) (a x : β) (hk : l[k]? = some a) :
    x ∈ l ↔ x = a ∨ ∃ j, j ≠ k ∧ l[j]? = some x := by
  have h := mem_set_iff l k a a x hk
  obtain ⟨hlt, rfl⟩ := List.getElem?_eq_some_iff.mp hk
  rwa [List.set_getElem_self] at h

end Facts

section Steps

variable {g g' : Ledger}

theorem init_tracked (bufAddr : UInt64) (bufSize : UInt32) (useDm : Bool) :
    Tracked (init bufAddr bufSize useDm) where
  tiles := rfl
  exact := by
    refine ⟨⟨?_, ?_⟩, Or.inl rfl, ?_, ?_, ?_⟩
    · intro a b h
      cases h
    · intro a b a' b' h
      cases h
    · intro p hp
      exact absurd (UInt64.lt_iff_toNat_lt.mp hp) (Nat.not_lt_zero _)
    · intro a b h
      cases h
    · intro p _
      constructor
      · rintro ⟨m, hm, -⟩
        cases hm
      · rintro ⟨a, b, h, -⟩
        cases h

theorem Exact.transport {front : UInt64} {m : Regions UInt64} {F F' B B' : UInt64 → Prop}
    (h : Exact front m F B) (hF : ∀ p, F' p ↔ F p) (hB : ∀ x, B x → B' x) :
    Exact front m F' B' where
  separate := ⟨fun a b hab => (h.separate.entry a b hab).imp_right (And.imp (hB a) (hB b)),
    h.separate.apart⟩
  boundary := hB front h.boundary
  below p hp := (hF p).mpr (h.below p hp)
  beyond := h.beyond
  cover p hp := (hF p).trans (h.cover p hp)

theorem reserve_tracked (h : Tracked g) (len : UInt32)
    (hlen : 1 ≤ len.toNat ∧ g.tail.toNat+len.toNat < 2^64)
    (hs : step g (.reserve len) = some g') : Tracked g' := by
  obtain rfl := Option.some.inj hs
  constructor
  · rw [List.map_append]
    refine (tiles_append _ _ _ _).mpr ⟨_, h.tiles, rfl, hlen.1, ?_⟩
    simp only [Span.stop, span, UInt64.toNat_add, UInt32.toNat_toUInt64]
    exact (Nat.mod_eq_of_lt hlen.2).symm
  · apply Exact.transport h.exact
    · intro p
      simp [Freed]
    · rintro x (rfl | ⟨m, hm, rfl⟩)
      · exact Or.inr ⟨⟨g.tail, len, .reserved⟩, by simp, rfl⟩
      · exact Or.inr ⟨m, by simp [hm], rfl⟩

theorem set_span (msgs : List Message) (k : ℕ) (m : Message) (p : Progress)
    (hk : msgs[k]? = some m) : (msgs.set k { m with progress := p }).map span = msgs.map span := by
  obtain ⟨hlt, rfl⟩ := List.getElem?_eq_some_iff.mp hk
  have hlt' : k < (msgs.map span).length := by simpa using hlt
  have hself := List.set_getElem_self hlt'
  rw [List.getElem_map] at hself
  rw [List.map_set]
  exact hself

theorem set_boundary (g : Ledger) (inst : Instance) (k : ℕ) (m : Message) (p : Progress)
    (hk : g.msgs[k]? = some m) (x : UInt64) (hx : Boundary g x) :
    Boundary { g with inst := inst, msgs := g.msgs.set k { m with progress := p } } x := by
  rcases hx with hx | ⟨n, hn, hx⟩
  · exact Or.inl hx
  · right
    rcases (mem_iff_set g.msgs k m n hk).mp hn with rfl | ⟨j, hj, hnj⟩
    · exact ⟨_, (mem_set_iff _ k n _ _ hk).mpr (Or.inl rfl), hx⟩
    · exact ⟨n, (mem_set_iff _ k m _ _ hk).mpr (Or.inr ⟨j, hj, hnj⟩), hx⟩

theorem freed_set (msgs : List Message) (k : ℕ) (m : Message) (p : Progress)
    (hk : msgs[k]? = some m) (hm : m.progress ≠ .freed) (q : UInt64) :
    Freed (msgs.set k { m with progress := p }) q ↔
      Freed msgs q ∨ (p = .freed ∧ Covers m q) := by
  constructor
  · rintro ⟨n, hn, hp, hc⟩
    rcases (mem_set_iff msgs k m _ n hk).mp hn with rfl | ⟨j, hj, hnj⟩
    · exact Or.inr ⟨hp, hc⟩
    · exact Or.inl ⟨n, List.mem_of_getElem? hnj, hp, hc⟩
  · rintro (⟨n, hn, hp, hc⟩ | ⟨hp, hc⟩)
    · rcases (mem_iff_set msgs k m n hk).mp hn with rfl | ⟨j, hj, hnj⟩
      · exact absurd hp hm
      · exact ⟨n, (mem_set_iff msgs k m _ n hk).mpr (Or.inr ⟨j, hj, hnj⟩), hp, hc⟩
    · exact ⟨_, (mem_set_iff msgs k m _ _ hk).mpr (Or.inl rfl), hp, hc⟩

theorem receive_tracked (h : Tracked g) (k : ℕ) (hs : step g (.receive k) = some g') :
    Tracked g' := by
  simp only [step] at hs
  split at hs
  · next start len hk =>
    obtain rfl := Option.some.inj hs
    constructor
    · exact (set_span _ k _ .received hk).symm ▸ h.tiles
    · apply Exact.transport h.exact
      · intro p
        have := freed_set g.msgs k _ .received hk (by simp) p
        simpa using this
      · exact set_boundary g g.inst k _ .received hk
  · cases hs

/-- A `Free` of a received message ends and is recorded exactly. -/
theorem free_tracked (h : Tracked g) (k : ℕ) (start : UInt64) (len : UInt32)
    (hk : g.msgs[k]? = some ⟨start, len, .received⟩) :
    ∃ inst, g.inst.free (region g.inst ⟨start, len, .received⟩) = some inst ∧
      g.inst.head ≤ inst.head ∧ inst.bufSize = g.inst.bufSize ∧ inst.bufAddr = g.inst.bufAddr ∧
      Tracked { g with inst := inst, msgs := g.msgs.set k ⟨start, len, .freed⟩ } := by
  have hmem := List.mem_of_getElem? hk
  obtain ⟨hpos, hle, hstop⟩ := h.message _ hmem
  have hlt := g.tail.toNat_lt
  simp only at hpos hle hstop
  have hend := h.boundary_stop _ hmem
  obtain ⟨inst, hf, hhd, hsz, had, hex⟩ := free_exact g.inst (region g.inst ⟨start, len, .received⟩)
    (Freed g.msgs) (Boundary g) h.exact hpos (by simp only [region]; omega)
    (Or.inr ⟨_, hmem, rfl⟩) hend (by
      rintro p h1 h2 ⟨n, hn, hp, hc⟩
      obtain ⟨j, hj⟩ := List.mem_iff_getElem?.mp hn
      have hjk := h.unique j k n _ hj hk p hc ⟨h1, h2⟩
      subst hjk
      obtain rfl := Option.some.inj (hj.symm.trans hk)
      cases hp)
  refine ⟨inst, hf, hhd, hsz, had, (set_span _ k _ .freed hk).symm ▸ h.tiles, ?_⟩
  apply Exact.transport hex
  · intro p
    have := freed_set g.msgs k _ .freed hk (by simp) p
    simpa [Covers, Reservation.stop, region] using this
  · exact set_boundary g inst k _ .freed hk

theorem step_tracked (h : Tracked g) (e : Event) (he : Tiling g e) (hs : step g e = some g') :
    Tracked g' := by
  cases e with
  | reserve len => exact reserve_tracked h len he hs
  | receive k => exact receive_tracked h k hs
  | free k =>
    simp only [step] at hs
    split at hs
    · next start len hk =>
      obtain ⟨inst, hf, -, -, -, ht⟩ := free_tracked h k start len hk
      rw [hf] at hs
      exact Option.some.inj hs ▸ ht
    · cases hs

end Steps

theorem run_tracked (bufAddr : UInt64) (bufSize : UInt32) (useDm : Bool) (es : List Event)
    (g : Ledger) (hm : Meets step Tiling es (init bufAddr bufSize useDm))
    (hr : run step es (init bufAddr bufSize useDm) = some g) : Tracked g := by
  refine run_keeps step Tiling Tracked ?_ es _ g (init_tracked bufAddr bufSize useDm) hm hr
  intro g e g' hg he hs
  exact step_tracked hg e he hs

/-- Every message that begins below `x` is freed. -/
def FreedBelow (g : Ledger) (x : UInt64) : Prop :=
  ∀ m ∈ g.msgs, m.start < x → m.progress = .freed

theorem freedBelow_iff {g : Ledger} (h : Tracked g) (x : UInt64) (hx : Boundary g x) :
    FreedBelow g x ↔ ∀ p, p < x → Freed g.msgs p := by
  constructor
  · intro hf p hp
    have hxt : x.toNat ≤ g.tail.toNat := by
      rcases hx with rfl | ⟨m, hm, rfl⟩
      · exact le_refl _
      · have := (h.message m hm).2.1
        omega
    rw [UInt64.lt_iff_toNat_lt] at hp
    obtain ⟨n, hn, h1, h2⟩ := tiles_cover _ _ _ h.tiles p.toNat (Nat.zero_le _) (by omega)
    obtain ⟨m, hm, rfl⟩ := List.mem_map.mp hn
    have hstop := (h.message m hm).2.2
    simp only [span, Span.stop] at h1 h2
    refine ⟨m, hm, hf m hm ?_, ?_, ?_⟩
    · rw [UInt64.lt_iff_toNat_lt]
      omega
    · rw [UInt64.le_iff_toNat_le]
      exact h1
    · rw [UInt64.lt_iff_toNat_lt]
      omega
  · intro hf m hm hlt
    exact h.freed_start m hm (hf m.start hlt)

/-- Out-of-order freeing is exact: the head is the largest boundary with nothing
unfreed below it, the map holds the freed part beyond it as disjoint intervals, and
every `Free` of a received region ends. -/
theorem out_of_order_exact (bufAddr : UInt64) (bufSize : UInt32) (useDm : Bool)
    (es : List Event) (g : Ledger) (hm : Meets step Tiling es (init bufAddr bufSize useDm))
    (hr : run step es (init bufAddr bufSize useDm) = some g) :
    IsGreatest {x | Boundary g x ∧ FreedBelow g x} g.inst.head ∧
    g.inst.head ∉ g.inst.freedRegions ∧
    (∀ a b, g.inst.freedRegions.lookup a = some b → g.inst.head < a ∧ a < b) ∧
    (∀ a b a' b', g.inst.freedRegions.lookup a = some b →
      g.inst.freedRegions.lookup a' = some b' → a < a' → b ≤ a') ∧
    (∀ p, Inside g.inst.freedRegions p ↔ g.inst.head ≤ p ∧ Freed g.msgs p) ∧
    ∀ (k : ℕ) (start : UInt64) (len : UInt32), g.msgs[k]? = some ⟨start, len, .received⟩ →
      ∃ g', step g (.free k) = some g' := by
  have h := run_tracked bufAddr bufSize useDm es g hm hr
  have hx := h.exact
  refine ⟨?_, hx.not_key, fun a b hab => ⟨hx.beyond a b hab, (hx.separate.entry a b hab).1⟩,
    hx.separate.apart, ?_, ?_⟩
  · obtain ⟨⟨h1, h2⟩, h3⟩ := hx.isGreatest
    refine ⟨⟨h1, (freedBelow_iff h _ h1).mpr h2⟩, ?_⟩
    rintro x ⟨hb, hf⟩
    exact h3 ⟨hb, (freedBelow_iff h x hb).mp hf⟩
  · intro p
    constructor
    · rintro ⟨a, b, hab, h1, h2⟩
      have hp : g.inst.head ≤ p := (hx.beyond a b hab).le.trans h1
      exact ⟨hp, (hx.cover p hp).mpr ⟨a, b, hab, h1, h2⟩⟩
    · rintro ⟨hp, hf⟩
      exact (hx.cover p hp).mp hf
  · intro k start len hk
    obtain ⟨inst, hf, -, -, -, -⟩ := free_tracked h k start len hk
    refine ⟨{ g with inst := inst, msgs := g.msgs.set k ⟨start, len, .freed⟩ }, ?_⟩
    simp only [step, hk, hf, Option.map_some]

def reversedFrees : List Event :=
  [.reserve 10, .reserve 20, .receive 1, .reserve 30, .receive 0, .reserve 5, .receive 3,
    .free 3, .receive 2, .free 1, .free 2, .free 0]

theorem out_of_order_exact_reversed : ∃ g,
    run step reversedFrees (init 65536 4096 true) = some g ∧
    IsGreatest {x | Boundary g x ∧ FreedBelow g x} g.inst.head ∧ g.inst.head = 65 := by
  refine ⟨_, rfl, ?_, rfl⟩
  exact (out_of_order_exact 65536 4096 true reversedFrees _ (by decide) rfl).1

end KYM.FreedRegions
