import KnowYourMemory.SharedWrite

/-!
# Safety of the shared ring

A posted write touches no message that is posted and not freed, none that was
reserved before it, and none that ends within one ring length of it. A reservation
further ahead may share bytes with it: its sender waits for the head to move on.
-/

set_option autoImplicit false

namespace KYM.SharedSafety
open KYM.Run KYM.Circle KYM.IntervalMap KYM.WriteAtomic KYM.SharedWrite
open KYM.RingBuffer (ReceiveRegion)

theorem run_safe (bufAddr : UInt64) (bufSize : UInt32) (useDm : Bool) (es : List Event)
    (s : Shared) (hm : Meets step Regular es (init bufAddr bufSize useDm))
    (hr : run step es (init bufAddr bufSize useDm) = some s) : Safe bufAddr bufSize s := by
  refine run_keeps step Regular (Safe bufAddr bufSize) ?_ es _ s
    (init_safe bufAddr bufSize useDm) hm hr
  intro s e s' h he hs
  exact step_safe h e he hs

section Post

variable {bufAddr : UInt64} {bufSize : UInt32} {s : Shared}

theorem behind_window (h : Safe bufAddr bufSize s) (m : Message) (hm : m ∈ s.msgs)
    (t : ℕ) (ht : s.inst.head.toNat ≤ t) (hf : m.progress ≠ .freed)
    (hx : ∀ i, m.progress = .reserved i → m.start.toNat+m.len.toNat ≤ t+bufSize.toNat) :
    m.start.toNat+m.len.toNat ≤ t+bufSize.toNat := by
  have hpl := h.placed m hm
  simp only [Placed, InWindow, h.size] at hpl
  cases hp : m.progress with
  | reserved i => exact hx i hp
  | written imm =>
    simp only [hp] at hpl
    omega
  | received reg =>
    simp only [hp] at hpl
    omega
  | freed => exact absurd hp hf

theorem post_disjoint (h : Safe bufAddr bufSize s) (i : ℕ) (len : UInt32)
    (hp : (s.conns i).pending = some len) (hw : ¬ (s.conns i).waits len) (j k : ℕ) (m : Message)
    (hk : s.msgs[k]? = some ⟨(s.conns i).tail, len, .reserved i⟩) (hj : s.msgs[j]? = some m)
    (hne : j ≠ k) (hf : m.progress ≠ .freed)
    (hx : ∀ i', m.progress = .reserved i' → m.start.toNat < (s.conns i).tail.toNat ∨
      m.start.toNat+m.len.toNat ≤ (s.conns i).tail.toNat+bufSize.toNat) :
    Disjoint (cells bufSize.toNat (s.conns i).localOff.toNat len.toNat)
      (cells bufSize.toNat m.start.toNat m.len.toNat) := by
  have hmem := List.mem_of_getElem? hk
  have hmemj := List.mem_of_getElem? hj
  have hwin := pending_window h i len hp hw
  have hhead := head_le_start h _ hmem (by simp)
  have hheadj := head_le_start h m hmemj hf
  have hpos := ledger_pos h _ hmem
  have hposj := ledger_pos h m hmemj
  simp only at hhead hpos
  have hS : 0 < bufSize.toNat := by omega
  have hanc : Anchored .up bufSize.toNat (s.conns i).localOff.toNat (s.conns i).tail.toNat
      len.toNat := by
    simp only [Anchored, Connection.localOff, (h.conn i).1, UInt64.toNat_mod,
      UInt32.toNat_toUInt64, Nat.mod_mod]
  have hsep := h.tracked.separate j k _ _ (ledger_get s j m hj) (ledger_get s k _ hk) hne
  simp only [entry] at hsep
  rcases hsep with hsep | hsep
  · apply Disjoint.symm
    exact cells_disjoint .up _ _ m.start.toNat _ _ _ _ hS rfl hanc hsep (by omega)
  · have hb := behind_window h m hmemj (s.conns i).tail.toNat hhead hf (by
      intro i' hi'
      rcases hx i' hi' with hlt | hle
      · omega
      · exact hle)
    exact cells_disjoint .up _ _ _ _ _ m.start.toNat _ hS hanc rfl hsep hb

end Post

/-- A posted write stays in the double mapping and is disjoint from every unfreed
message that is posted, was reserved before it, or ends within a ring length of it. -/
theorem shared_post_safe (bufAddr : UInt64) (bufSize : UInt32) (useDm : Bool) (es : List Event)
    (s s' : Shared) (hm : Meets step Regular es (init bufAddr bufSize useDm))
    (hr : run step es (init bufAddr bufSize useDm) = some s) (i : ℕ)
    (hs : step s (.post i) = some s') :
    ∃ (k : ℕ) (len : UInt32), s.msgs[k]? = some ⟨(s.conns i).tail, len, .reserved i⟩ ∧
      (s.conns i).post.1 = bufAddr+(s.conns i).localOff ∧
      (s.conns i).localOff.toNat+len.toNat ≤ 2*bufSize.toNat ∧
      ∀ (j : ℕ) (m : Message), s.msgs[j]? = some m → j ≠ k → m.progress ≠ .freed →
        (∀ i', m.progress = .reserved i' → m.start.toNat < (s.conns i).tail.toNat ∨
          m.start.toNat+m.len.toNat ≤ (s.conns i).tail.toNat+bufSize.toNat) →
        Disjoint (cells bufSize.toNat (s.conns i).localOff.toNat len.toNat)
          (cells bufSize.toNat m.start.toNat m.len.toNat) := by
  have h := run_safe bufAddr bufSize useDm es s hm hr
  obtain ⟨len, hp, hw, -⟩ := post_views hs
  obtain ⟨k, hk⟩ := List.mem_iff_getElem?.mp (h.pending i len hp)
  have hwin := pending_window h i len hp hw
  have hhead := head_le_start h _ (List.mem_of_getElem? hk) (by simp)
  simp only at hhead
  refine ⟨k, len, hk, by rw [Connection.post, (h.conn i).2.1], ?_, ?_⟩
  · have hS : 0 < bufSize.toNat := by omega
    have hlt := Nat.mod_lt (s.conns i).tail.toNat hS
    simp only [Connection.localOff, (h.conn i).1, UInt64.toNat_mod, UInt32.toNat_toUInt64]
    omega
  · intro j m hj hne hf hx
    exact post_disjoint h i len hp hw j k m hk hj hne hf hx

/-- Two senders; the third message wraps around the end of the ring. -/
def twoSenders : List Event :=
  [.reserve 0 5, .reserve 1 4, .post 0, .post 1, .receive 1, .receive 0, .free 0, .reserve 0 4,
    .readHead 0 5]

theorem twoSenders_runs : (run step twoSenders (init 65536 10 true)).isSome := by decide +kernel

theorem shared_post_safe_wrapped : ∃ s s' : Shared,
    run step twoSenders (init 65536 10 true) = some s ∧ step s (.post 0) = some s' ∧
    ∃ (k : ℕ) (len : UInt32), s.msgs[k]? = some ⟨(s.conns 0).tail, len, .reserved 0⟩ ∧
      (s.conns 0).localOff.toNat+len.toNat ≤ 2*10 := by
  have hr := run_get step _ _ twoSenders_runs
  have hs : (step ((run step twoSenders (init 65536 10 true)).get twoSenders_runs)
      (.post 0)).isSome := by decide +kernel
  obtain ⟨k, len, h1, -, h2, -⟩ := shared_post_safe 65536 10 true twoSenders _ _
    (by decide +kernel) hr 0 (Option.some_get hs).symm
  exact ⟨_, _, hr, (Option.some_get hs).symm, k, len, h1, h2⟩

/-- The second sender has reserved bytes that the first one is about to write. -/
theorem reserved_ahead_shared : ∃ s s' : Shared,
    run step [.reserve 0 5, .reserve 1 9] (init 65536 10 true) = some s ∧
    step s (.post 0) = some s' ∧ ⟨5, 9, .reserved 1⟩ ∈ s.msgs ∧
    ¬ Disjoint (cells 10 (s.conns 0).localOff.toNat 5) (cells 10 5 9) := by
  refine ⟨_, _, rfl, rfl, by decide, Finset.not_disjoint_iff.mpr ⟨0, ?_⟩⟩
  exact ⟨(mem_cells _ _ _ _).mpr ⟨0, by decide, by decide⟩,
    (mem_cells _ _ _ _).mpr ⟨5, by decide, by decide⟩⟩

section Offsets

theorem regular_of_small (bufSize : UInt32) (s : Shared) (e : Event) (h0 : 1 ≤ bufSize.toNat)
    (hS : bufSize.toNat ≤ 2^31) (hs : s.inst.bufSize = bufSize) (he : NoWrap s e) :
    Regular s e := by
  have hlt : ∀ x, x%s.inst.bufSize.toNat < 2^31 := by
    intro x
    rw [hs]
    exact (Nat.mod_lt x h0).trans_le hS
  refine ⟨he, ?_⟩
  cases e with
  | receive k => exact ⟨hlt _, fun m _ => hlt _⟩
  | reserve i len => trivial
  | readHead i head => trivial
  | post i => trivial
  | free k => trivial

theorem run_safe_small (bufAddr : UInt64) (bufSize : UInt32) (useDm : Bool)
    (h0 : 1 ≤ bufSize.toNat) (hS : bufSize.toNat ≤ 2^31) (es : List Event) (s : Shared)
    (hm : Meets step NoWrap es (init bufAddr bufSize useDm))
    (hr : run step es (init bufAddr bufSize useDm) = some s) : Safe bufAddr bufSize s := by
  refine run_keeps step NoWrap (Safe bufAddr bufSize) ?_ es _ s
    (init_safe bufAddr bufSize useDm) hm hr
  intro s e s' h he hs
  exact step_safe h e (regular_of_small bufSize s e h0 hS h.size he) hs

/-- Whenever a completion is received, and until the region is freed, the global
offset is the one that the fetch-and-add returned. -/
theorem global_offset_recovered (bufAddr : UInt64) (bufSize : UInt32) (useDm : Bool)
    (h0 : 1 ≤ bufSize.toNat) (hS : bufSize.toNat ≤ 2^31) (es : List Event) (s : Shared)
    (hm : Meets step NoWrap es (init bufAddr bufSize useDm))
    (hr : run step es (init bufAddr bufSize useDm) = some s) :
    (∀ (k : ℕ) (start : UInt64) (len imm : UInt32),
      s.msgs[k]? = some ⟨start, len, .written imm⟩ →
      (s.inst.receive imm len).context = start ∧ (s.inst.receive imm len).length = len) ∧
    ∀ m ∈ s.msgs, ∀ reg, m.progress = .received reg →
      reg.context = m.start ∧ reg.length = m.len := by
  have h := run_safe_small bufAddr bufSize useDm h0 hS es s hm hr
  refine ⟨?_, ?_⟩
  · intro k start len imm hk
    have hreg := regular_of_small bufSize s (.receive k) h0 hS h.size trivial
    have hs : receive s k = some { s with
        msgs := s.msgs.set k ⟨start, len, .received (s.inst.receive imm len)⟩ } := by
      simp only [receive, hk]
    have hpl := (receive_safe h k hreg.2 hs).placed ⟨start, len, .received (s.inst.receive imm len)⟩
      ((FreedRegions.mem_set_iff _ k _ _ _ hk).mpr (Or.inl rfl))
    exact hpl.2
  · intro m hmem reg hp
    have hpl := h.placed m hmem
    simp only [Placed, hp] at hpl
    exact hpl.2

theorem global_offset_recovered_wrapped : ∃ s : Shared,
    run step (twoSenders++[.post 0, .receive 2]) (init 65536 10 true) = some s ∧
    ∀ m ∈ s.msgs, ∀ reg, m.progress = .received reg →
      reg.context = m.start ∧ reg.length = m.len := by
  have hr := run_get step (twoSenders++[.post 0, .receive 2]) (init 65536 10 true)
    (by decide +kernel)
  exact ⟨_, hr, (global_offset_recovered 65536 10 true (by decide) (by decide) _ _
    (by decide +kernel) hr).2⟩

end Offsets

section Wrap

structure IdleAt (n : ℕ) (s : Shared) : Prop where
  size : s.inst.bufSize = 4096
  head : s.inst.head = UInt64.ofNat n
  tail : s.tail = UInt64.ofNat n
  regions : s.inst.freedRegions = ∅
  first : (s.conns 0).rbufSize = 4096 ∧ (s.conns 0).pending = none
  others : ∀ i, i ≠ 0 → s.conns i = newConnection 65536 4096
  heads : s.inst.head ∈ s.heads
  quiet : ∀ m ∈ s.msgs, ∀ i, m.progress ≠ .reserved i

def byteAt (s : Shared) (c : Connection) (p : Progress) : Shared :=
  { s with
    tail := s.tail+1
    conns := Function.update s.conns 0 c
    msgs := s.msgs++[⟨s.tail, 1, p⟩] }

variable {n : ℕ} {s : Shared}

theorem reserve_byte (h : IdleAt n s) : ∃ es c, run step es s = some (byteAt s c (.reserved 0)) ∧
    c.rbufSize = 4096 ∧ c.tail = s.tail ∧ c.pending = some 1 := by
  refine ⟨[.reserve 0 1], { s.conns 0 with tail := s.tail, pending := some 1 }, ?_,
    h.first.1, rfl, rfl⟩
  simp only [run, step, reserve, h.first.2, Connection.reserve, h.first.1]
  rfl

theorem ofNat_add_toNat (n : ℕ) (x : UInt64) (h : n+x.toNat < 2^64) :
    (UInt64.ofNat n+x).toNat = n+x.toNat := by
  have hn : (UInt64.ofNat n).toNat = n :=
    UInt64.toNat_ofNat_of_lt' (by simp only [UInt64.size]; omega)
  rw [UInt64.toNat_add, hn, Nat.mod_eq_of_lt h]

theorem check_byte (h : IdleAt n s) (hn : n+4097 < 2^64) : ∃ es c,
    run step es s = some (byteAt s c (.reserved 0)) ∧ c.rbufSize = 4096 ∧ c.tail = s.tail ∧
    c.pending = some 1 ∧ ¬ c.waits 1 := by
  obtain ⟨es, c, hr, hsz, ht, hp⟩ := reserve_byte h
  by_cases hw : c.waits 1
  · refine ⟨es++[.readHead 0 s.inst.head], { c with head := s.inst.head }, ?_, hsz, ht, hp, ?_⟩
    · have hs : step (byteAt s c (.reserved 0)) (.readHead 0 s.inst.head) =
          some (byteAt s { c with head := s.inst.head } (.reserved 0)) := by
        simp [step, readHead, byteAt, hp, hw, h.heads]
      exact run_concat step es _ s _ _ hr hs
    · simp only [Connection.waits, hsz, ht, h.head, h.tail, UInt64.le_iff_toNat_le]
      have h1 := ofNat_add_toNat n (UInt32.toUInt64 4096) (by change n+4096 < 2^64; omega)
      have h2 := ofNat_add_toNat n (UInt32.toUInt64 1) (by change n+1 < 2^64; omega)
      rw [h1, h2]
      change ¬ n+4096 ≤ n+1
      omega
  · exact ⟨es, c, hr, hsz, ht, hp, hw⟩

theorem post_byte (h : IdleAt n s) (c : Connection) (hsz : c.rbufSize = 4096)
    (ht : c.tail = s.tail) (hp : c.pending = some 1) (hw : ¬ c.waits 1) :
    step (byteAt s c (.reserved 0)) (.post 0) =
      some (byteAt s { c with pending := none }
        (.written (s.inst.head%s.inst.bufSize.toUInt64).toUInt32)) := by
  have hmark : ∀ imm, s.msgs.map (markWritten 0 imm) = s.msgs := by
    intro imm
    rw [List.map_congr_left (g := id), List.map_id]
    intro m hm
    simp [markWritten, h.quiet m hm 0]
  simp only [step, post, byteAt, Function.update_self, hp, hw, if_false, Connection.post,
    Connection.localOff, hsz, ht, List.map_append, hmark, Function.update_idem, h.size, h.head,
    h.tail]
  simp [markWritten]

theorem receive_byte (h : IdleAt n s) (c : Connection) :
    ∃ reg, reg.context = s.inst.head ∧ reg.length = 1 ∧
      step (byteAt s c (.written (s.inst.head%s.inst.bufSize.toUInt64).toUInt32))
        (.receive s.msgs.length) = some (byteAt s c (.received reg)) := by
  refine ⟨s.inst.receive (s.inst.head%s.inst.bufSize.toUInt64).toUInt32 1, ?_, rfl, ?_⟩
  · apply globalOffset_eq
    · rw [h.size]
      decide
    · exact le_refl _
    · rw [h.size]
      change _ < _+4096
      omega
    · rw [h.size]
      exact (Nat.mod_lt _ (by decide)).trans (by decide)
    · rw [h.size]
      exact (Nat.mod_lt _ (by decide)).trans (by decide)
  · simp [step, receive, byteAt]

def passed (s : Shared) (c : Connection) : Shared :=
  { byteAt s c .freed with
    inst := { s.inst with freedRegions := ∅ }.setHead (s.inst.head+1)
    heads := (s.inst.head+1)::s.heads }

theorem free_byte (h : IdleAt n s) (c : Connection) (reg : ReceiveRegion)
    (hc : reg.context = s.inst.head) (hl : reg.length = 1) :
    step (byteAt s c (.received reg)) (.free s.msgs.length) = some (passed s c) := by
  simp [step, free, passed, byteAt, Instance.free, h.regions, absorb, hc, hl, Instance.setHead]
  rfl

theorem passed_idle (h : IdleAt n s) (c : Connection) (hsz : c.rbufSize = 4096)
    (hp : c.pending = none) : IdleAt (n+1) (passed s c) := by
  have hsucc : UInt64.ofNat n+1 = UInt64.ofNat (n+1) := by
    rw [UInt64.ofNat_add]
    rfl
  refine ⟨h.size, ?_, ?_, rfl, ⟨hsz, hp⟩, ?_, List.mem_cons_self, ?_⟩
  · change s.inst.head+1 = _
    rw [h.head, hsucc]
  · change s.tail+1 = _
    rw [h.tail, hsucc]
  · intro i hi
    simp only [passed, byteAt, Function.update_of_ne hi]
    exact h.others i hi
  · intro m hm i
    rcases List.mem_append.mp hm with hold | hnew
    · exact h.quiet m hold i
    · rw [List.mem_singleton.mp hnew]
      simp

theorem pass_byte (h : IdleAt n s) (hn : n+4097 < 2^64) :
    ∃ es s', run step es s = some s' ∧ IdleAt (n+1) s' := by
  obtain ⟨es, c, hr, hsz, ht, hp, hw⟩ := check_byte h hn
  have h1 := post_byte h c hsz ht hp hw
  obtain ⟨reg, hc, hl, h2⟩ := receive_byte h { c with pending := none }
  have h3 := free_byte h { c with pending := none } reg hc hl
  refine ⟨es++[.post 0, .receive s.msgs.length, .free s.msgs.length], _, ?_,
    passed_idle h { c with pending := none } hsz rfl⟩
  rw [run_append, hr]
  simp only [Option.bind_some, run, h1, h2, h3]

theorem idle_reached (n : ℕ) (hn : n+4096 < 2^64) :
    ∃ es s, run step es (init 65536 4096 true) = some s ∧ IdleAt n s := by
  induction n with
  | zero => exact ⟨[], _, rfl, rfl, rfl, rfl, rfl, ⟨rfl, rfl⟩, fun _ _ => rfl, by decide, by simp [init]⟩
  | succ n ih =>
    obtain ⟨es, s, hr, h⟩ := ih (by omega)
    obtain ⟨fs, s', hr', h'⟩ := pass_byte h (by omega)
    exact ⟨es++fs, s', by rw [run_append, hr, Option.bind_some, hr'], h'⟩

def claimed (s : Shared) (i : ℕ) : Shared :=
  { s with
    tail := s.tail+4095
    conns := Function.update s.conns i { s.conns i with tail := s.tail, pending := some 4095 }
    msgs := s.msgs++[⟨s.tail, 4095, .reserved i⟩] }

theorem reserve_claimed (s : Shared) (i : ℕ) (hs : (s.conns i).rbufSize = 4096)
    (hp : (s.conns i).pending = none) : step s (.reserve i 4095) = some (claimed s i) := by
  have hlt : ¬ (4095 : UInt32) ≥ 4096 := by decide
  simp only [step, reserve, hp, Connection.reserve, hs, if_neg hlt]
  simp [claimed, hs]

theorem post_claimed (s : Shared) (hc : s.conns 2 = ⟨65536, 4096, 0, 18446744073709551614, some 4095⟩)
    (hm : ⟨18446744073709551614, 4095, .reserved 2⟩ ∈ s.msgs) :
    ∃ s', step s (.post 2) = some s' ∧ s'.inst = s.inst ∧
      ⟨18446744073709551614, 4095, .written 4094⟩ ∈ s'.msgs := by
  have hw : ¬ (Connection.mk 65536 4096 0 18446744073709551614 (some 4095)).waits 4095 := by decide
  simp only [step, post, hc, if_neg hw]
  refine ⟨_, rfl, rfl, List.mem_map.mpr ⟨_, hm, ?_⟩⟩
  simp [markWritten, Connection.post, Connection.localOff]

theorem receive_claimed (s : Shared) (hh : s.inst.head = 18446744073709543424)
    (hs : s.inst.bufSize = 4096) (hm : ⟨18446744073709551614, 4095, .written 4094⟩ ∈ s.msgs) :
    ∃ k s' reg, step s (.receive k) = some s' ∧
      ⟨18446744073709551614, 4095, .received reg⟩ ∈ s'.msgs ∧
      reg.context = 18446744073709547518 := by
  obtain ⟨k, hk⟩ := List.mem_iff_getElem?.mp hm
  refine ⟨k, _, s.inst.receive 4094 4095, by simp only [step, receive, hk]; rfl,
    (FreedRegions.mem_set_iff _ k _ _ _ hk).mpr (Or.inl rfl), ?_⟩
  simp only [Instance.receive, Instance.globalOffset, hh, hs]
  decide

theorem overtaken (h : IdleAt 18446744073709543424 s) : ∃ es s' reg, run step es s = some s' ∧
    ⟨18446744073709551614, 4095, .received reg⟩ ∈ s'.msgs ∧
    reg.context = 18446744073709547518 := by
  have htail : s.tail = 18446744073709543424 := h.tail
  let s3 := claimed (claimed (claimed s 0) 1) 2
  have h1 : step s (.reserve 0 4095) = some (claimed s 0) :=
    reserve_claimed s 0 h.first.1 h.first.2
  have h2 : step (claimed s 0) (.reserve 1 4095) = some (claimed (claimed s 0) 1) := by
    apply reserve_claimed <;> simp [claimed, h.others, newConnection]
  have h3 : step (claimed (claimed s 0) 1) (.reserve 2 4095) = some s3 := by
    apply reserve_claimed <;> simp [claimed, h.others, newConnection]
  have hc : s3.conns 2 = ⟨65536, 4096, 0, 18446744073709551614, some 4095⟩ := by
    simp [s3, claimed, h.others, newConnection, htail]
  obtain ⟨s4, h4, hi, hw⟩ := post_claimed s3 hc (by simp [s3, claimed, htail])
  obtain ⟨k, s5, reg, h5, hm, hctx⟩ := receive_claimed s4 (by rw [hi]; exact h.head)
    (by rw [hi]; exact h.size) hw
  refine ⟨[.reserve 0 4095, .reserve 1 4095, .reserve 2 4095, .post 2, .receive k], s5, reg, ?_,
    hm, hctx⟩
  simp only [run, h1, h2, h3, h4, h5, Option.bind_some]

/-- The tail wraps around 2^64, the third sender's check passes against its old head,
and `Receive` places the message one ring length too low. -/
theorem global_offset_wraps : ∃ es s m reg, run step es (init 65536 4096 true) = some s ∧
    m ∈ s.msgs ∧ m.progress = .received reg ∧ reg.context ≠ m.start := by
  obtain ⟨es, s, hr, h⟩ := idle_reached 18446744073709543424 (by decide)
  obtain ⟨fs, s', reg, hr', hm, hc⟩ := overtaken h
  refine ⟨es++fs, s', _, reg, by rw [run_append, hr, Option.bind_some, hr'], hm, rfl, ?_⟩
  rw [hc]
  exact (by decide : (18446744073709547518 : UInt64) ≠ 18446744073709551614)

end Wrap

end KYM.SharedSafety
