import KnowYourMemory.BufferedReadPair
import KnowYourMemory.Run

/-!
# The head that `Free` publishes

The free list of buffered read holds addresses while the head is a stream offset.
When the oldest region is freed and none other is outstanding the head becomes the
read pointer, as it should; when another one is outstanding its address is stored.
-/

set_option autoImplicit false

namespace KYM.BufferedReadHead
open KYM.Run KYM.RingBuffer KYM.BoundedStream KYM.BufferedReadPair

def addrOf (r : Receiver) (m : Span ℕ) : UInt64 :=
  r.bufAddr+(UInt64.ofNat m.start%r.length.toUInt64).toUInt32.toUInt64

def headPos (c : Connection) : ℕ := headOf c.held c.readPos

def HeadExact (c : Connection) : Prop := c.rcv.remoteHead = UInt64.ofNat (headPos c)

structure Ordered (c : Connection) : Prop where
  readPtr : c.rcv.readPtr = UInt64.ofNat c.readPos
  outstanding : c.rcv.outstanding = c.held.map (addrOf c.rcv)
  sorted : c.held.Pairwise Before
  below : ∀ m ∈ c.held, 0 < m.len ∧ m.stop ≤ c.readPos
  region : ∀ m ∈ c.held, ∃ reg, c.got[m.body]? = some reg ∧ reg.context = addrOf c.rcv m

/-- No other outstanding region lies at the address of the `i`-th. -/
def Alone (c : Connection) (i : ℕ) : Prop :=
  ∀ a ∈ c.rcv.outstanding[i]?, a ∉ c.rcv.outstanding.eraseIdx i

/-- The oldest region is freed last, or the next one has its stream offset for an address. -/
def NextExact (c : Connection) (i : ℕ) : Prop :=
  i = 0 → ∀ m ∈ c.held[1]?, addrOf c.rcv m = UInt64.ofNat m.start

def Regular (c : Pair) : Event → Prop
  | .free s i => Alone (c s) i ∧ NextExact (c s) i
  | _ => True

instance (c : Connection) (i : ℕ) : Decidable (Alone c i) :=
  @Option.decidableForallMem _ (fun a => a ∉ c.rcv.outstanding.eraseIdx i)
    (fun _ => inferInstance) c.rcv.outstanding[i]?

instance (c : Connection) (i : ℕ) : Decidable (NextExact c i) :=
  inferInstanceAs (Decidable (i = 0 → ∀ m ∈ c.held[1]?, _))

instance (c : Pair) : ∀ e : Event, Decidable (Regular c e)
  | .free s i => inferInstanceAs (Decidable (Alone (c s) i ∧ NextExact (c s) i))
  | .send _ _ | .readTail _ _ | .fetch _ | .receive _ => isTrue trivial

section Free

variable {c c' : Connection} {i : ℕ} {w : Option UInt64}

theorem filter_ne_eraseIdx (l : List UInt64) (i : ℕ) (a : UInt64) (ha : l[i]? = some a)
    (hne : a ∉ l.eraseIdx i) : l.filter (· ≠ a) = l.eraseIdx i := by
  induction l generalizing i with
  | nil => simp at ha
  | cons x xs ih =>
    cases i with
    | zero =>
      obtain rfl : x = a := by simpa using ha
      simp only [List.eraseIdx_cons_zero] at hne ⊢
      rw [List.filter_cons_of_neg (by simp), List.filter_eq_self]
      intro y hy
      simpa using fun he : y = x => hne (he ▸ hy)
    | succ i =>
      simp only [List.eraseIdx_cons_succ, List.mem_cons, not_or] at hne ⊢
      rw [List.filter_cons_of_pos (by simpa using Ne.symm hne.1), ih i (by simpa using ha) hne.2]

theorem receiver_free (r : Receiver) (reg : ReceiveRegion) :
    ∃ acked, (r.free reg).1 = { r with
        remoteHead := r.freedHead reg
        outstanding := r.outstanding.filter (· ≠ reg.context)
        ackedHead := acked } ∧
      ((acked = r.freedHead reg ∧ (r.free reg).2 = some acked) ∨
        (acked = r.ackedHead ∧ (r.free reg).2 = none)) := by
  unfold Receiver.free
  simp only
  split
  · exact ⟨_, rfl, Or.inl ⟨rfl, rfl⟩⟩
  · exact ⟨_, rfl, Or.inr ⟨rfl, rfl⟩⟩

theorem free_eq (hs : free c i = some (c', w)) :
    ∃ m reg, c.held[i]? = some m ∧ c.got[m.body]? = some reg ∧
      c' = { c with rcv := (c.rcv.free reg).1, held := c.held.eraseIdx i } ∧
      w = (c.rcv.free reg).2 := by
  unfold BufferedReadPair.free at hs
  split at hs
  · cases hs
  next m hm =>
  split at hs
  · cases hs
  next reg hreg =>
  obtain ⟨rfl, rfl⟩ := Prod.mk.inj (Option.some.inj hs)
  exact ⟨m, reg, hm, hreg, rfl, rfl⟩

theorem free_region (h : Ordered c) (hs : free c i = some (c', w)) :
    ∃ m reg, c.held[i]? = some m ∧ reg.context = addrOf c.rcv m ∧
      c' = { c with rcv := (c.rcv.free reg).1, held := c.held.eraseIdx i } ∧
      w = (c.rcv.free reg).2 := by
  obtain ⟨m, reg, hm, hreg, hc, hw⟩ := free_eq hs
  obtain ⟨reg', hreg', hctx⟩ := h.region m (List.mem_of_getElem? hm)
  obtain rfl := Option.some.inj (hreg.symm.trans hreg')
  exact ⟨m, reg, hm, hctx, hc, hw⟩

def storedHead (r : Receiver) : ℕ → List (Span ℕ) → UInt64
  | 0, [_] => r.readPtr
  | 0, _::n::_ => addrOf r n
  | _, _ => r.remoteHead

theorem freedHead_eq (h : Ordered c) (m : Span ℕ) (reg : ReceiveRegion)
    (hm : c.held[i]? = some m) (hctx : reg.context = addrOf c.rcv m) (ha : Alone c i) :
    c.rcv.freedHead reg = storedHead c.rcv i c.held := by
  have hout : c.rcv.outstanding[i]? = some (addrOf c.rcv m) := by
    rw [h.outstanding, List.getElem?_map, hm, Option.map_some]
  have hne := ha _ hout
  rw [h.outstanding] at hne
  unfold Receiver.freedHead
  rw [h.outstanding, hctx]
  match i, hh : c.held with
  | 0, [x] =>
    obtain rfl : x = m := by simpa [hh] using hm
    simp [storedHead]
  | 0, x::n::_ =>
    obtain rfl : x = m := by simpa [hh] using hm
    simp [storedHead]
  | i+1, x::xs =>
    simp only [hh, List.map_cons, List.eraseIdx_cons_succ, List.mem_cons, not_or] at hne
    simp only [List.map_cons, if_neg hne.1, storedHead]
  | i, [] => simp [hh] at hm

theorem Ordered.free (h : Ordered c) (ha : Alone c i) (hs : free c i = some (c', w)) :
    Ordered c' := by
  obtain ⟨m, reg, hm, hctx, rfl, -⟩ := free_region h hs
  obtain ⟨acked, hr, -⟩ := receiver_free c.rcv reg
  have hout : c.rcv.outstanding[i]? = some (addrOf c.rcv m) := by
    rw [h.outstanding, List.getElem?_map, hm, Option.map_some]
  have hf := filter_ne_eraseIdx _ i _ hout (ha _ hout)
  rw [hr, hctx, hf]
  refine ⟨h.readPtr, ?_, h.sorted.sublist (List.eraseIdx_sublist _ _), ?_, ?_⟩
  · change c.rcv.outstanding.eraseIdx i = (c.held.eraseIdx i).map (addrOf c.rcv)
    rw [h.outstanding, List.eraseIdx_map]
  · exact fun n hn => h.below n (List.mem_of_mem_eraseIdx hn)
  · exact fun n hn => h.region n (List.mem_of_mem_eraseIdx hn)

theorem free_headExact_iff (h : Ordered c) (hx : HeadExact c) (ha : Alone c i)
    (hs : free c i = some (c', w)) : HeadExact c' ↔ NextExact c i := by
  obtain ⟨m, reg, hm, hctx, rfl, -⟩ := free_region h hs
  obtain ⟨acked, hr, -⟩ := receiver_free c.rcv reg
  have hfh := freedHead_eq h m reg hm hctx ha
  simp only [HeadExact, headPos, hr, NextExact] at hx ⊢
  rw [hfh]
  match i, hh : c.held with
  | 0, [x] => simp [storedHead, headOf, h.readPtr]
  | 0, x::n::xs => simp [storedHead, headOf]
  | i+1, x::xs => simpa [storedHead, hh, headOf] using hx
  | i, [] => simp [hh] at hm

end Free

section Steps

structure Published (c peer : Connection) : Prop where
  ordered : Ordered c
  exact : HeadExact c
  written : ∃ p ≤ headPos c, c.rcv.ackedHead = UInt64.ofNat p
  seen : peer.snd.head = c.rcv.ackedHead

theorem Side.peer_ne (s : Side) : s.peer ≠ s := by cases s <;> decide

theorem Side.peer_peer (s : Side) : s.peer.peer = s := by cases s <;> rfl

theorem Side.eq_or (s t : Side) : t = s ∨ t = s.peer := by
  cases s <;> cases t <;> decide

structure Quiet (c c' : Connection) : Prop where
  rcv : c'.rcv = { c.rcv with remoteTail := c'.rcv.remoteTail }
  got : c'.got = c.got
  held : c'.held = c.held
  readPos : c'.readPos = c.readPos

theorem send_quiet {c n : Connection} {payload : List UInt8} (hs : send c payload = some n) :
    Quiet c n ∧ n.snd.head = c.snd.head := by
  unfold send at hs
  split at hs
  · next addr snd hsnd =>
    obtain ⟨-, rfl⟩ := BufferedRead.send_sent _ _ addr snd hsnd
    obtain rfl := Option.some.inj hs
    exact ⟨⟨rfl, rfl, rfl, rfl⟩, rfl⟩
  · cases hs

theorem readTail_quiet {c peer n : Connection} {p : ℕ} (hs : readTail c peer p = some n) :
    Quiet c n ∧ n.snd = c.snd := by
  unfold readTail at hs
  split at hs
  · obtain rfl := Option.some.inj hs
    exact ⟨⟨rfl, rfl, rfl, rfl⟩, rfl⟩
  · cases hs

theorem fetch_quiet {c peer n : Connection} (hs : fetch c peer = some n) :
    Quiet c n ∧ n.snd = c.snd := by
  unfold fetch at hs
  split at hs
  · obtain rfl := Option.some.inj hs
    exact ⟨⟨rfl, rfl, rfl, rfl⟩, rfl⟩
  · cases hs

theorem receive_snd {c n : Connection} (hs : receive c = some n) : n.snd = c.snd := by
  unfold receive at hs
  split at hs
  · exact Option.some.inj hs ▸ rfl
  · cases hs

theorem Published.congr {c peer c' peer' : Connection} (h : Published c peer) (hq : Quiet c c')
    (hs : peer'.snd.head = peer.snd.head) : Published c' peer' := by
  have hr := hq.rcv
  have hpos : headPos c' = headPos c := by rw [headPos, headPos, hq.held, hq.readPos]
  have ha : addrOf c'.rcv = addrOf c.rcv := by
    rw [hr]
    rfl
  obtain ⟨p, hle, hw⟩ := h.written
  refine ⟨⟨?_, ?_, ?_, ?_, ?_⟩, ?_, ⟨p, ?_, ?_⟩, ?_⟩
  · rw [hq.readPos, ← h.ordered.readPtr, hr]
  · rw [hq.held, ha, ← h.ordered.outstanding, hr]
  · rw [hq.held]
    exact h.ordered.sorted
  · rw [hq.held, hq.readPos]
    exact h.ordered.below
  · rw [hq.held, hq.got, ha]
    exact h.ordered.region
  · rw [HeadExact, hpos, ← h.exact, hr]
  · rw [hpos]
    exact hle
  · rw [← hw, hr]
  · rw [hs, h.seen, hr]

theorem ofNat_add (p : ℕ) (len : UInt32) :
    UInt64.ofNat p+(len.toUInt64+BufferedRead.prefixLen) = UInt64.ofNat (p+(len.toNat+4)) := by
  have hlen : len.toUInt64 = UInt64.ofNat len.toNat := by
    apply UInt64.toNat_inj.mp
    rw [UInt32.toNat_toUInt64, UInt64.toNat_ofNat', Nat.mod_eq_of_lt]
    exact len.toNat_lt.trans (by decide)
  rw [UInt64.ofNat_add, UInt64.ofNat_add, hlen]
  rfl

theorem Published.receive {c c' peer : Connection} (h : Published c peer)
    (hs : receive c = some c') : Published c' peer := by
  unfold BufferedReadPair.receive at hs
  split at hs
  · obtain rfl := Option.some.inj hs
    have ho := h.ordered
    have haddr : c.rcv.bufAddr+c.rcv.offset.toUInt64 = addrOf c.rcv ⟨c.readPos, 0, 0⟩ := by
      simp only [addrOf, Receiver.offset, ho.readPtr]
    have hpos : ∀ (len : ℕ) (k : ℕ), headOf (c.held++[⟨c.readPos, len, k⟩]) (c.readPos+len) =
        headPos c := fun _ _ => Tape.headOf_concat _ _ _
    refine ⟨⟨?_, ?_, ?_, ?_, ?_⟩, ?_, ?_, h.seen⟩
    · simp only [ho.readPtr]
      exact ofNat_add _ _
    · simp only [List.map_append, List.map_cons, List.map_nil, ho.outstanding]
      rw [haddr]
      unfold addrOf
      rfl
    · refine List.pairwise_append.mpr ⟨ho.sorted, List.pairwise_singleton _ _, ?_⟩
      intro m hm n hn
      rw [List.mem_singleton.mp hn]
      exact (ho.below m hm).2
    · intro m hm
      rcases List.mem_append.mp hm with hm | hm
      · have := ho.below m hm
        simp only
        omega
      · rw [List.mem_singleton.mp hm]
        exact ⟨Nat.succ_pos _, le_refl _⟩
    · intro m hm
      rcases List.mem_append.mp hm with hm | hm
      · obtain ⟨reg, hreg, hctx⟩ := ho.region m hm
        unfold addrOf at hctx ⊢
        exact ⟨reg, getElem?_concat _ _ _ _ hreg, hctx⟩
      · rw [List.mem_singleton.mp hm]
        refine ⟨_, List.getElem?_concat_length, ?_⟩
        simp only [addrOf, Receiver.offset, ho.readPtr]
    · simp only [HeadExact, headPos, hpos]
      exact h.exact
    · simp only [headPos, hpos]
      exact h.written
  · cases hs

theorem Published.free {c c' peer : Connection} {i : ℕ} {w : Option UInt64}
    (h : Published c peer) (ha : Alone c i) (hn : NextExact c i)
    (hs : free c i = some (c', w)) : Published c' (writeHead peer w) := by
  have hexact := (free_headExact_iff h.ordered h.exact ha hs).mpr hn
  have hord := h.ordered.free ha hs
  obtain ⟨p, hle, hw⟩ := h.written
  obtain ⟨m, reg, hm, hctx, hc, rfl⟩ := free_region h.ordered hs
  obtain ⟨acked, hr, hcase⟩ := receiver_free c.rcv reg
  have hgrow : headPos c ≤ headPos c' := by
    rw [hc]
    exact Tape.headOf_eraseIdx _ _ _ h.ordered.sorted h.ordered.below
  have hrcv : c'.rcv = (c.rcv.free reg).1 := by rw [hc]
  refine ⟨hord, hexact, ?_, ?_⟩
  · rcases hcase with ⟨rfl, -⟩ | ⟨rfl, -⟩
    · refine ⟨headPos c', le_refl _, ?_⟩
      rw [← hexact, hrcv, hr]
    · exact ⟨p, hle.trans hgrow, by rw [hrcv, hr, hw]⟩
  · rcases hcase with ⟨-, hw'⟩ | ⟨rfl, hw'⟩
    · rw [hw', hrcv, hr]
      rfl
    · rw [hw', hrcv, hr]
      exact h.seen

variable {c c' : Pair}

theorem published_update (h : ∀ t, Published (c t) (c t.peer)) (s : Side) (n : Connection)
    (h1 : Published n (c s.peer)) (h2 : n.snd.head = (c s).snd.head) (t : Side) :
    Published (Function.update c s n t) (Function.update c s n t.peer) := by
  rcases Side.eq_or s t with rfl | rfl
  · rwa [Function.update_self, Function.update_of_ne (Side.peer_ne t)]
  · rw [Side.peer_peer, Function.update_self, Function.update_of_ne (Side.peer_ne s)]
    have hp := h s.peer
    rw [Side.peer_peer] at hp
    exact hp.congr ⟨rfl, rfl, rfl, rfl⟩ h2

theorem step_published (h : ∀ t, Published (c t) (c t.peer)) (e : Event) (he : Regular c e)
    (hs : step c e = some c') (t : Side) : Published (c' t) (c' t.peer) := by
  cases e with
  | send s payload =>
    obtain ⟨n, hn, rfl⟩ := Option.map_eq_some_iff.mp hs
    obtain ⟨hq, hsnd⟩ := send_quiet hn
    exact published_update h s n ((h s).congr hq rfl) hsnd t
  | readTail s p =>
    obtain ⟨n, hn, rfl⟩ := Option.map_eq_some_iff.mp hs
    obtain ⟨hq, hsnd⟩ := readTail_quiet hn
    exact published_update h s n ((h s).congr hq rfl) (by rw [hsnd]) t
  | fetch s =>
    obtain ⟨n, hn, rfl⟩ := Option.map_eq_some_iff.mp hs
    obtain ⟨hq, hsnd⟩ := fetch_quiet hn
    exact published_update h s n ((h s).congr hq rfl) (by rw [hsnd]) t
  | receive s =>
    obtain ⟨n, hn, rfl⟩ := Option.map_eq_some_iff.mp hs
    exact published_update h s n ((h s).receive hn) (by rw [receive_snd hn]) t
  | free s i =>
    obtain ⟨⟨n, w⟩, hn, rfl⟩ := Option.map_eq_some_iff.mp hs
    have hfree := (h s).free he.1 he.2 hn
    obtain ⟨m, reg, -, -, rfl, -⟩ := free_region (h s).ordered hn
    rcases Side.eq_or s t with rfl | rfl
    · rwa [Function.update_of_ne (Ne.symm (Side.peer_ne t)), Function.update_self,
        Function.update_self]
    · rw [Side.peer_peer, Function.update_self,
        Function.update_of_ne (Ne.symm (Side.peer_ne s)), Function.update_self]
      have hp := h s.peer
      rw [Side.peer_peer] at hp
      cases w <;> exact hp.congr ⟨rfl, rfl, rfl, rfl⟩ rfl

theorem init_published (dialAddr acceptAddr : Mapping → UInt64) (bufSize : UInt32) (t : Side) :
    Published (init dialAddr acceptAddr bufSize t) (init dialAddr acceptAddr bufSize t.peer) := by
  cases t <;>
    exact ⟨⟨rfl, rfl, List.Pairwise.nil, fun _ hm => absurd hm List.not_mem_nil,
      fun _ hm => absurd hm List.not_mem_nil⟩, rfl, ⟨0, le_refl _, rfl⟩, rfl⟩

end Steps

/-- Buffered read: in the runs without the mixed-up case the head is exact after every
step and no later head has reached the sender; a further `Free` keeps the head exact if
and only if it is not the mixed-up case either. -/
theorem published_head_exact (dialAddr acceptAddr : Mapping → UInt64) (bufSize : UInt32)
    (es : List Event) (c : Pair) (hm : Meets step Regular es (init dialAddr acceptAddr bufSize))
    (hr : run step es (init dialAddr acceptAddr bufSize) = some c) (s : Side) :
    (HeadExact (c s) ∧ ∃ p ≤ headPos (c s), (c s.peer).snd.head = UInt64.ofNat p) ∧
    ∀ (i : ℕ) (c' : Pair), step c (.free s i) = some c' → Alone (c s) i →
      (HeadExact (c' s) ↔ NextExact (c s) i) := by
  have h : ∀ t, Published (c t) (c t.peer) := by
    refine run_keeps step Regular (fun c => ∀ t, Published (c t) (c t.peer)) ?_ es _ c
      (init_published dialAddr acceptAddr bufSize) hm hr
    intro c e c' h he hs
    exact step_published h e he hs
  obtain ⟨p, hle, hw⟩ := (h s).written
  refine ⟨⟨(h s).exact, p, hle, (h s).seen.trans hw⟩, ?_⟩
  intro i c' hs ha
  obtain ⟨⟨n, w⟩, hn, rfl⟩ := Option.map_eq_some_iff.mp hs
  rw [Function.update_of_ne (Ne.symm (Side.peer_ne s)), Function.update_self]
  exact free_headExact_iff (h s).ordered (h s).exact ha hn

def mappings : Mapping → UInt64
  | .mbuf => 139637976727552
  | .mrcvbuf => 139637993504768

def twoHeld : List Event :=
  [.send .dial [1, 2, 3], .send .dial [4], .readTail .accept 12, .fetch .accept,
    .receive .accept, .receive .accept]

/-- Freeing the older of two regions stores the address of the younger one, and
writes it to the sender. -/
theorem address_published : ∃ c : Pair,
    run step (twoHeld++[.free .accept 0]) (init mappings mappings 8388608) = some c ∧
    headPos (c .accept) = 7 ∧ ¬ HeadExact (c .accept) ∧
    (c .dial).snd.head = 139637976727559 := by
  have hrun : ∃ c ∈ run step (twoHeld++[.free .accept 0]) (init mappings mappings 8388608),
      headPos (c .accept) = 7 ∧ ¬ HeadExact (c .accept) ∧
      (c .dial).snd.head = 139637976727559 := by
    unfold HeadExact
    decide +kernel
  simpa only [Option.mem_def] using hrun

theorem published_head_exact_youngest : ∃ c : Pair,
    run step (twoHeld++[.free .accept 1, .free .accept 0]) (init mappings mappings 8388608) =
      some c ∧
    HeadExact (c .accept) ∧
      ∃ p ≤ headPos (c .accept), (c (Side.peer .accept)).snd.head = UInt64.ofNat p := by
  have hm : Meets step Regular (twoHeld++[.free .accept 1, .free .accept 0])
      (init mappings mappings 8388608) := by decide +kernel
  have hr := run_get step (twoHeld++[.free .accept 1, .free .accept 0])
    (init mappings mappings 8388608) (by decide +kernel)
  have h := published_head_exact mappings mappings 8388608 _ _ hm hr .accept
  exact ⟨_, hr, h.1⟩

end KYM.BufferedReadHead
