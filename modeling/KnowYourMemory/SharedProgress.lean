import KnowYourMemory.SharedSafety

/-!
# The oldest reservation of the shared ring

A sender in the space-check loop reads the head in host memory, or the copy of it in
device memory. `acked_head_` never changes, so that the copy stays at zero until the
head has passed 10 KiB and equals the head from then on.
-/

set_option autoImplicit false

namespace KYM.SharedProgress
open KYM.Run KYM.IntervalMap KYM.WriteAtomic KYM.SharedWrite KYM.SharedSafety
open KYM.RingBuffer (ReceiveRegion)

def visibleHead (inst : Instance) : UInt64 := if inst.useDm then inst.dmHead else inst.head

/-- Everything below the reservation of sender `i` is received and freed. -/
def Oldest (s : Shared) (i : ℕ) : Prop :=
  ∀ m ∈ s.msgs, m.start < (s.conns i).tail → m.progress = .freed

/-- A fresh read of the head ends the space-check loop of sender `i`. -/
def Released (s : Shared) (i : ℕ) (len : UInt32) : Prop :=
  ¬ { s.conns i with head := visibleHead s.inst }.waits len

structure Copied (useDm : Bool) (inst : Instance) : Prop where
  mode : inst.useDm = useDm
  acked : inst.ackedHead = 0
  copy : useDm = true → inst.dmHead = if 10*1024 < inst.head then inst.head else 0

section Copy

variable {useDm : Bool} {inst inst' : Instance}

theorem free_cases (inst inst' : Instance) (reg : ReceiveRegion) (h : inst.free reg = some inst') :
    ∃ freed, inst' = { inst with freedRegions := freed } ∨
      ∃ head, inst' = { inst with freedRegions := freed }.setHead head := by
  simp only [Instance.free] at h
  split at h
  · cases h
  · next freed globalEnd _ =>
    split at h
    · exact ⟨freed, Or.inr ⟨globalEnd, (Option.some.inj h).symm⟩⟩
    · exact ⟨_, Or.inl (Option.some.inj h).symm⟩

theorem Copied.free (h : Copied useDm inst) (reg : ReceiveRegion)
    (hf : inst.free reg = some inst') (hle : inst.head ≤ inst'.head) : Copied useDm inst' := by
  obtain ⟨freed, rfl | ⟨head, rfl⟩⟩ := free_cases inst inst' reg hf
  · exact ⟨h.mode, h.acked, h.copy⟩
  · refine ⟨h.mode, h.acked, ?_⟩
    intro hdm
    have hc := h.copy hdm
    have hle : inst.head ≤ head := hle
    simp only [Instance.setHead, h.mode, h.acked, hdm, true_and, UInt64.zero_add, hc]
    split
    · rfl
    · next hn => rw [if_neg (fun hlt => hn (lt_of_lt_of_le hlt hle))]

variable {bufAddr : UInt64} {bufSize : UInt32} {s s' : Shared}

theorem step_copied (h : Safe bufAddr bufSize s) (hc : Copied useDm s.inst) (e : Event)
    (hs : step s e = some s') : Copied useDm s'.inst := by
  cases e with
  | reserve i len =>
    obtain ⟨-, -, rfl⟩ := reserve_views hs
    exact hc
  | readHead i head =>
    obtain ⟨-, rfl⟩ := readHead_views hs
    exact hc
  | post i =>
    obtain ⟨len, -, -, rfl⟩ := post_views hs
    exact hc
  | receive k =>
    obtain ⟨start, len, imm, -, rfl⟩ := receive_views hs
    exact hc
  | free k =>
    obtain ⟨start, len, reg, inst, hk, hf, rfl⟩ := free_views hs
    obtain ⟨inst', hf', hle, -⟩ := free_received h k start len reg hk
    obtain rfl := Option.some.inj (hf'.symm.trans hf)
    exact hc.free reg hf hle

def Short (bufSize : UInt32) (s : Shared) : Prop :=
  ∀ i len, (s.conns i).pending = some len → len.toNat < bufSize.toNat

theorem step_short (h : Safe bufAddr bufSize s) (hl : Short bufSize s) (e : Event)
    (hs : step s e = some s') : Short bufSize s' := by
  intro j n hn
  cases e with
  | reserve i len =>
    obtain ⟨-, hlt, rfl⟩ := reserve_views hs
    by_cases hj : j = i
    · subst hj
      simp only [Function.update_self, Option.some.injEq] at hn
      rwa [← hn, ← UInt32.lt_iff_toNat_lt, ← (h.conn j).1]
    · simp only [Function.update_of_ne hj] at hn
      exact hl j n hn
  | readHead i head =>
    obtain ⟨-, rfl⟩ := readHead_views hs
    by_cases hj : j = i
    · subst hj
      simp only [Function.update_self] at hn
      exact hl j n hn
    · simp only [Function.update_of_ne hj] at hn
      exact hl j n hn
  | post i =>
    obtain ⟨len, -, -, rfl⟩ := post_views hs
    by_cases hj : j = i
    · subst hj
      simp only [Function.update_self] at hn
      cases hn
    · simp only [Function.update_of_ne hj] at hn
      exact hl j n hn
  | receive k =>
    obtain ⟨start, len, imm, -, rfl⟩ := receive_views hs
    exact hl j n hn
  | free k =>
    obtain ⟨start, len, reg, inst, -, -, rfl⟩ := free_views hs
    exact hl j n hn

structure Watched (bufAddr : UInt64) (bufSize : UInt32) (useDm : Bool) (s : Shared) : Prop where
  safe : Safe bufAddr bufSize s
  copied : Copied useDm s.inst
  short : Short bufSize s

theorem run_watched (bufAddr : UInt64) (bufSize : UInt32) (useDm : Bool) (es : List Event)
    (s : Shared) (hm : Meets step Regular es (init bufAddr bufSize useDm))
    (hr : run step es (init bufAddr bufSize useDm) = some s) :
    Watched bufAddr bufSize useDm s := by
  refine run_keeps step Regular (Watched bufAddr bufSize useDm) ?_ es _ s
    ⟨init_safe bufAddr bufSize useDm, ⟨rfl, rfl, fun _ => rfl⟩, ?_⟩ hm hr
  · intro s e s' h he hs
    exact ⟨step_safe h.safe e he hs, step_copied h.safe h.copied e hs,
      step_short h.safe h.short e hs⟩
  · intro i len hp
    cases hp

end Copy

section Oldest

variable {bufAddr : UInt64} {bufSize : UInt32} {s : Shared}

theorem head_at_oldest (h : Safe bufAddr bufSize s) (i : ℕ) (len : UInt32)
    (hp : (s.conns i).pending = some len) (ho : Oldest s i) : s.inst.head = (s.conns i).tail := by
  have hmem := h.pending i len hp
  have hle := head_le_start h _ hmem (by simp)
  have hb : FreedRegions.Boundary (ledger s) (s.conns i).tail :=
    Or.inr ⟨entry ⟨(s.conns i).tail, len, .reserved i⟩, List.mem_map_of_mem hmem, rfl⟩
  have hbelow : FreedRegions.FreedBelow (ledger s) (s.conns i).tail := by
    intro m hm hlt
    obtain ⟨n, hn, rfl⟩ := List.mem_map.mp hm
    have hf := ho n hn hlt
    simp only [entry, hf, Progress.ledger]
  have hge := h.tracked.exact.isGreatest.2
    ⟨hb, (FreedRegions.freedBelow_iff h.tracked _ hb).mp hbelow⟩
  exact le_antisymm (UInt64.le_iff_toNat_le.mpr hle) hge

end Oldest

/-- Shared write: the oldest reservation leaves the loop with the next head it reads
exactly when its message ends below the first lap, or the head counter is not about to
wrap and, in device memory, has passed the threshold of the copy. -/
theorem oldest_released_iff (bufAddr : UInt64) (bufSize : UInt32) (useDm : Bool)
    (es : List Event) (s : Shared) (hm : Meets step Regular es (init bufAddr bufSize useDm))
    (hr : run step es (init bufAddr bufSize useDm) = some s) (i : ℕ) (len : UInt32)
    (hp : (s.conns i).pending = some len) (ho : Oldest s i) :
    Released s i len ↔
      (s.conns i).tail.toNat+len.toNat < bufSize.toNat ∨
      ((s.conns i).tail.toNat+bufSize.toNat < 2^64 ∧
        (useDm = true → 10*1024 < (s.conns i).tail.toNat)) := by
  have h := run_watched bufAddr bufSize useDm es s hm hr
  have hhead := head_at_oldest h.safe i len hp ho
  have hend := (h.safe.tracked.message _ (List.mem_map_of_mem (h.safe.pending i len hp))).2.1
  have hlt := (ledger s).tail.toNat_lt
  simp only [entry] at hend
  have hlen := h.short i len hp
  have hS := bufSize.toNat_lt
  have hcopy := h.copied.copy
  simp only [Released, Connection.waits, (h.safe.conn i).1, visibleHead, h.copied.mode, not_le,
    UInt64.lt_iff_toNat_lt, UInt64.toNat_add, UInt32.toNat_toUInt64] at hcopy ⊢
  rw [Nat.mod_eq_of_lt (show (s.conns i).tail.toNat+len.toNat < 2^64 by omega)]
  have hwrap : ∀ x : ℕ, x = (s.conns i).tail.toNat →
      ((s.conns i).tail.toNat+len.toNat < (x+bufSize.toNat)%2^64 ↔
        (s.conns i).tail.toNat+bufSize.toNat < 2^64) := by
    rintro x rfl
    constructor
    · intro hx
      by_contra hge
      rw [Nat.mod_eq_sub_mod (by omega), Nat.mod_eq_of_lt (by omega)] at hx
      omega
    · intro hx
      rw [Nat.mod_eq_of_lt hx]
      omega
  cases useDm with
  | false =>
    simp only [Bool.false_eq_true, if_false, hwrap _ (congrArg UInt64.toNat hhead), false_implies,
      and_true]
    omega
  | true =>
    have hlim : (10*1024 : UInt64).toNat = 10*1024 := rfl
    simp only [if_true, hcopy, hhead, forall_const, hlim]
    by_cases hth : 10*1024 < (s.conns i).tail.toNat
    · simp only [hth, if_true, hwrap _ rfl, and_true]
      omega
    · have h0 : (0 : UInt64).toNat = 0 := rfl
      simp only [hth, if_false, h0, Nat.zero_add, and_false, or_false]
      rw [Nat.mod_eq_of_lt (by omega)]

/-- Ten thousand bytes are sent, received and freed; the next message is larger than
the rest of the default ring. -/
def belowThreshold : List Event :=
  [.reserve 0 10000, .post 0, .receive 0, .free 0, .reserve 0 10485000]

/-- Device memory still shows the head zero, so that the only sender waits for ever. -/
theorem oldest_never_released : ∃ s : Shared,
    run step belowThreshold (init 65536 10485760 true) = some s ∧
    (s.conns 0).pending = some 10485000 ∧ Oldest s 0 ∧ s.inst.head = 10000 ∧
    ¬ Released s 0 10485000 := by
  refine ⟨_, run_get step belowThreshold _ (by decide +kernel), by decide +kernel, ?_,
    by decide +kernel, ?_⟩
  · unfold Oldest
    decide +kernel
  · unfold Released
    decide +kernel

def beyondThreshold : List Event :=
  [.reserve 0 10000, .post 0, .receive 0, .free 0, .reserve 0 241, .post 0, .receive 1, .free 1,
    .reserve 1 10485000]

theorem oldest_released_iff_beyond : ∃ s : Shared,
    run step beyondThreshold (init 65536 10485760 true) = some s ∧
    (Released s 1 10485000 ↔ (s.conns 1).tail.toNat+10485000 < 10485760 ∨
      ((s.conns 1).tail.toNat+10485760 < 2^64 ∧
        (true = true → 10*1024 < (s.conns 1).tail.toNat))) := by
  have hr := run_get step beyondThreshold (init 65536 10485760 true) (by decide +kernel)
  refine ⟨_, hr, oldest_released_iff 65536 10485760 true beyondThreshold _ (by decide +kernel) hr 1
    10485000 (by decide +kernel) ?_⟩
  unfold Oldest
  decide +kernel

end KYM.SharedProgress
