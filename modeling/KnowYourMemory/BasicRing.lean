import KnowYourMemory.Run
import KnowYourMemory.RingBuffer

/-!
# The basic ring

A ring without a second mapping: a message that does not fit behind the last one is
placed at the front of the buffer. The reader keeps its position as an offset of its own
and skips to the front by the same comparison. The writer stores the offset of its last
message as the tail, not the end of it.
-/

set_option autoImplicit false

namespace KYM.BasicRing
open KYM.Run KYM.RingBuffer

def newBasicRingBuffer (addr : UInt64) (key length : UInt32) : Buffer where
  addr := addr
  key := key
  head := 0
  outstanding := []
  readPtr := 0
  length := length

def add (b : Buffer) (offset len : UInt32) : UInt32 :=
  if offset+len ≤ b.length then offset+len else len

def readOffset (b : Buffer) (len : UInt32) : UInt32 :=
  if b.readPtr+len ≤ b.length then b.readPtr else 0

def read (b : Buffer) (len : UInt32) : UInt64 × Buffer :=
  let off := readOffset b len
  (b.addr+off.toUInt64,
    { b with readPtr := add b b.readPtr len, outstanding := b.outstanding++[off] })

def free (b : Buffer) (addr : UInt64) : UInt32 × Buffer := b.freeRegion addr

def updateHead (r : RemoteBuffer) (head : UInt32) : RemoteBuffer := { r with head := head }

def getWriteAddr (r : RemoteBuffer) (len : UInt32) : StatusOr UInt64 :=
  if r.head = r.tail ∧ r.full then .error bufferFull
  else if r.head = r.tail ∧ len > r.length then .error tooLarge
  else if r.head < r.tail ∧ r.tail+len > r.length ∧ len > r.head then .error noSpace
  else if r.head > r.tail ∧ r.head-r.tail < len then .error noSpace
  else .ok (r.addr+(if r.tail+len ≤ r.length then r.tail else 0).toUInt64)

def write (r : RemoteBuffer) (len : UInt32) : StatusOr (UInt64 × RemoteBuffer) :=
  match getWriteAddr r len with
  | .error e => .error e
  | .ok addr => .ok (addr, { r with tail := (addr-r.addr).toUInt32, full := false })

/-- What a `Write` or a `Read` returned, and for which length. -/
structure Message where
  addr : UInt64
  len : UInt32
  deriving DecidableEq, Repr

/-- Both sides of a ring. `writes` and `reads` are in the order of the calls, `held` are
the reads that are not freed. -/
structure System where
  snd : RemoteBuffer
  rcv : Buffer
  writes : List Message
  reads : List Message
  held : List ℕ
  deriving DecidableEq, Repr

def init (addr : UInt64) (key length : UInt32) : System where
  snd := newRemoteBuffer ⟨addr, key, length⟩
  rcv := newBasicRingBuffer addr key length
  writes := []
  reads := []
  held := []

inductive Event where
  | write (len : UInt32)
  | updateHead
  | read
  | free (i : ℕ)
  deriving DecidableEq, Repr

def step (y : System) : Event → Option System
  | .write len =>
    match write y.snd len with
    | .error _ => none
    | .ok (addr, snd) => some { y with snd := snd, writes := y.writes++[⟨addr, len⟩] }
  | .updateHead => some { y with snd := updateHead y.snd y.rcv.head }
  | .read =>
    match y.writes[y.reads.length]? with
    | none => none
    | some m =>
      let (addr, rcv) := read y.rcv m.len
      some { y with
        rcv := rcv, reads := y.reads++[⟨addr, m.len⟩], held := y.held++[y.reads.length] }
  | .free i =>
    match y.held[i]? with
    | none => none
    | some k =>
      match y.reads[k]? with
      | none => none
      | some m => some { y with rcv := (free y.rcv m.addr).2, held := y.held.eraseIdx i }

def offset (base : UInt64) (m : Message) : ℕ := (m.addr-base).toNat

def Apart (base : UInt64) (m m' : Message) : Prop :=
  offset base m+m.len.toNat ≤ offset base m' ∨ offset base m'+m'.len.toNat ≤ offset base m

/-- Message `k` is written and not freed. -/
def Unfreed (y : System) (k : ℕ) : Prop :=
  k ∈ y.held ∨ (y.reads.length ≤ k ∧ k < y.writes.length)

structure Agrees (y : System) : Prop where
  same : ∀ (k : ℕ) w r, y.writes[k]? = some w → y.reads[k]? = some r → w = r
  inside : ∀ w ∈ y.writes, offset y.snd.addr w+w.len.toNat ≤ y.snd.length.toNat
  apart : ∀ (j k : ℕ) w w', j < k → Unfreed y j → Unfreed y k → y.writes[j]? = some w →
    y.writes[k]? = some w' → Apart y.snd.addr w w'

def Ranged (y : System) : Event → Prop
  | .write len => 1 ≤ len.toNat ∧ len.toNat ≤ y.snd.length.toNat
  | _ => True

/-- Every message is freed, and the reader skips to the front for the next one. -/
def Emptied (y : System) : Event → Prop
  | .write len =>
    y.held = [] ∧ y.reads.length = y.writes.length ∧
      ∀ last ∈ y.writes.getLast?, y.snd.length.toNat < last.len.toNat+len.toNat
  | _ => True

instance (y : System) : ∀ e, Decidable (Ranged y e)
  | .write len => inferInstanceAs (Decidable (1 ≤ len.toNat ∧ len.toNat ≤ y.snd.length.toNat))
  | .updateHead | .read | .free _ => isTrue trivial

instance (y : System) : ∀ e, Decidable (Emptied y e)
  | .write len => inferInstanceAs (Decidable (y.held = [] ∧ y.reads.length = y.writes.length ∧
      ∀ last ∈ y.writes.getLast?, y.snd.length.toNat < last.len.toNat+len.toNat))
  | .updateHead | .read | .free _ => isTrue trivial

theorem write_front (r r' : RemoteBuffer) (len : UInt32) (addr : UInt64) (ht : r.tail = 0)
    (hw : write r len = .ok (addr, r')) :
    addr = r.addr ∧ r' = { r with tail := 0, full := false } := by
  have haddr : getWriteAddr r len = .ok addr → addr = r.addr := by
    intro h
    unfold getWriteAddr at h
    split_ifs at h <;> simp_all
  unfold write at hw
  split at hw
  · cases hw
  · next a ha =>
    cases hw
    obtain rfl := haddr ha
    exact ⟨rfl, by simp⟩

def Turns (b : Buffer) (len : UInt32) : Prop :=
  b.readPtr = 0 ∨ b.length.toNat < b.readPtr.toNat+len.toNat

theorem add_le_iff (b : Buffer) (len : UInt32) (hb : b.readPtr ≤ b.length) (hlen : len ≤ b.length)
    (hl : 2*b.length.toNat < 2^32) :
    b.readPtr+len ≤ b.length ↔ b.readPtr.toNat+len.toNat ≤ b.length.toNat := by
  have hb := UInt32.le_iff_toNat_le.mp hb
  have hlen := UInt32.le_iff_toNat_le.mp hlen
  rw [UInt32.le_iff_toNat_le, UInt32.toNat_add, Nat.mod_eq_of_lt (by omega)]

theorem readOffset_eq_zero (b : Buffer) (len : UInt32) (hb : b.readPtr ≤ b.length)
    (hlen : len ≤ b.length) (hl : 2*b.length.toNat < 2^32) :
    readOffset b len = 0 ↔ Turns b len := by
  have hadd := add_le_iff b len hb hlen hl
  by_cases hfit : b.readPtr+len ≤ b.length
  · have := hadd.mp hfit
    rw [readOffset, if_pos hfit, Turns]
    exact ⟨Or.inl, fun h => h.resolve_right (by omega)⟩
  · have := mt hadd.mpr hfit
    rw [readOffset, if_neg hfit, Turns]
    exact ⟨fun _ => Or.inr (by omega), fun _ => rfl⟩

theorem read_front (b : Buffer) (len : UInt32) (hb : b.readPtr ≤ b.length)
    (hlen : len ≤ b.length) (hl : 2*b.length.toNat < 2^32) (ht : Turns b len) :
    read b len = (b.addr, { b with readPtr := len, outstanding := b.outstanding++[0] }) := by
  have hoff := (readOffset_eq_zero b len hb hlen hl).mpr ht
  have hadd := add_le_iff b len hb hlen hl
  have hptr : add b b.readPtr len = len := by
    unfold add
    rcases ht with hz | ht
    · rw [hz, UInt32.zero_add, ite_self]
    · rw [if_neg (fun h => by have := hadd.mp h; omega)]
  simp only [read, hoff, hptr]
  simp

structure Front (y : System) : Prop where
  rcv_addr : y.rcv.addr = y.snd.addr
  rcv_length : y.rcv.length = y.snd.length
  small : 2*y.snd.length.toNat < 2^32
  tail_zero : y.snd.tail = 0
  messages : ∀ m ∈ y.writes,
    m.addr = y.snd.addr ∧ 1 ≤ m.len.toNat ∧ m.len.toNat ≤ y.snd.length.toNat
  reads_prefix : y.reads <+: y.writes
  readPtr_le : y.rcv.readPtr ≤ y.rcv.length
  readPtr_last : ∀ m ∈ y.reads.getLast?, y.rcv.readPtr = m.len
  readPtr_first : y.reads = [] → y.rcv.readPtr = 0
  newest : ∀ k, Unfreed y k → k+1 = y.writes.length
  turns : ∀ m, y.writes[y.reads.length]? = some m → Turns y.rcv m.len

theorem init_front (addr : UInt64) (key length : UInt32) (hl : 2*length.toNat < 2^32) :
    Front (init addr key length) where
  rcv_addr := rfl
  rcv_length := rfl
  small := hl
  tail_zero := rfl
  messages := fun m hm => by cases hm
  reads_prefix := List.nil_prefix
  readPtr_le := UInt32.zero_le
  readPtr_last := fun m hm => by cases hm
  readPtr_first := fun _ => rfl
  newest := by
    rintro k (hk | hk)
    · cases hk
    · exact absurd hk.2 (Nat.not_lt_zero k)
  turns := fun m hm => by cases hm

theorem prefix_next {l ms : List Message} {m : Message} (h : l <+: ms)
    (hm : ms[l.length]? = some m) : l++[m] <+: ms := by
  obtain ⟨rest, rfl⟩ := h
  cases rest with
  | nil => simp at hm
  | cons next rest =>
    simp only [List.getElem?_append_right (Nat.le_refl _), Nat.sub_self,
      List.getElem?_cons_zero, Option.some.injEq] at hm
    exact ⟨rest, by simp [hm]⟩

theorem reads_eq (y : System) (h : Front y) (hlen : y.reads.length = y.writes.length) :
    y.reads = y.writes := h.reads_prefix.eq_of_length hlen

theorem turns_iff (y : System) (h : Front y) (heq : y.reads.length = y.writes.length)
    (len : UInt32) : Turns y.rcv len ↔
      ∀ last ∈ y.writes.getLast?, y.snd.length.toNat < last.len.toNat+len.toNat := by
  have hreads := reads_eq y h heq
  rw [Turns, h.rcv_length]
  cases hl : y.writes.getLast? with
  | none =>
    have hz := h.readPtr_first (hreads.trans (List.getLast?_eq_none_iff.mp hl))
    exact ⟨fun _ last hlast => absurd hlast (by simp), fun _ => Or.inl hz⟩
  | some last =>
    have hptr := h.readPtr_last last (by rw [hreads]; exact hl)
    have hpos := (h.messages last (List.mem_of_getLast? hl)).2.1
    have hne : last.len ≠ 0 := fun hz => by simp [hz] at hpos
    rw [hptr]
    constructor
    · rintro hturn m hm
      rw [← Option.mem_some_iff.mp hm]
      exact hturn.resolve_left hne
    · intro hturn
      exact Or.inr (hturn last rfl)

theorem write_keeps (y y' : System) (len : UInt32) (h : Front y) (hr : Ranged y (.write len))
    (he : Emptied y (.write len)) (hs : step y (.write len) = some y') : Front y' := by
  simp only [step] at hs
  split at hs
  · cases hs
  · next addr snd hw =>
    cases hs
    obtain ⟨rfl, rfl⟩ := write_front y.snd snd len addr h.tail_zero hw
    obtain ⟨hheld, hlen, hlast⟩ := he
    refine ⟨h.rcv_addr, h.rcv_length, h.small, rfl, ?_, ?_, h.readPtr_le, h.readPtr_last,
      h.readPtr_first, ?_, ?_⟩
    · intro m hm
      rcases List.mem_append.mp hm with hm | hm
      · exact h.messages m hm
      · obtain rfl := List.mem_singleton.mp hm
        exact ⟨rfl, hr⟩
    · exact h.reads_prefix.trans (List.prefix_append _ _)
    · rintro k (hk | hk)
      · exact absurd hk (by simp [hheld])
      · simp only [List.length_append, List.length_singleton] at hk ⊢
        omega
    · intro m hm
      simp only [hlen, List.getElem?_concat_length, Option.some.injEq] at hm
      obtain rfl := hm
      exact (turns_iff y h hlen len).mpr hlast

theorem read_keeps (y y' : System) (h : Front y) (hs : step y .read = some y') : Front y' := by
  simp only [step] at hs
  split at hs
  · cases hs
  · next m hm =>
    cases hs
    obtain ⟨haddr, hpos, hlen⟩ := h.messages m (List.mem_of_getElem? hm)
    have hlen' : m.len ≤ y.rcv.length := by
      rw [h.rcv_length]
      exact UInt32.le_iff_toNat_le.mpr hlen
    have hnew : y.reads.length+1 = y.writes.length :=
      h.newest _ (Or.inr ⟨Nat.le_refl _, (List.getElem?_eq_some_iff.mp hm).1⟩)
    have hread := read_front y.rcv m.len h.readPtr_le hlen' (by rw [h.rcv_length]; exact h.small)
      (h.turns m hm)
    simp only [hread]
    refine ⟨h.rcv_addr, h.rcv_length, h.small, h.tail_zero, h.messages, ?_, hlen', ?_, ?_, ?_, ?_⟩
    · rw [h.rcv_addr, ← haddr]
      exact prefix_next h.reads_prefix hm
    · intro last hl
      simp only [List.getLast?_concat, Option.mem_some_iff] at hl
      rw [← hl]
    · intro hnil
      simp at hnil
    · rintro k (hk | hk)
      · rcases List.mem_append.mp hk with hk | hk
        · exact h.newest k (Or.inl hk)
        · rw [List.mem_singleton.mp hk]
          exact hnew
      · simp only [List.length_append, List.length_singleton] at hk
        omega
    · intro m' hm'
      simp only [List.length_append, List.length_singleton] at hm'
      rw [List.getElem?_eq_none (by omega)] at hm'
      cases hm'

theorem free_keeps (y y' : System) (i : ℕ) (h : Front y) (hs : step y (.free i) = some y') :
    Front y' := by
  simp only [step] at hs
  split at hs
  · cases hs
  · split at hs
    · cases hs
    · cases hs
      refine ⟨h.rcv_addr, h.rcv_length, h.small, h.tail_zero, h.messages, h.reads_prefix,
        h.readPtr_le, h.readPtr_last, h.readPtr_first, ?_, h.turns⟩
      rintro k (hk | hk)
      · exact h.newest k (Or.inl (List.mem_of_mem_eraseIdx hk))
      · exact h.newest k (Or.inr hk)

theorem step_keeps (y : System) (e : Event) (y' : System) (h : Front y)
    (he : Ranged y e ∧ Emptied y e) (hs : step y e = some y') : Front y' := by
  cases e with
  | write len => exact write_keeps y y' len h he.1 he.2 hs
  | updateHead =>
    cases hs
    exact ⟨h.rcv_addr, h.rcv_length, h.small, h.tail_zero, h.messages, h.reads_prefix,
      h.readPtr_le, h.readPtr_last, h.readPtr_first, h.newest, h.turns⟩
  | read => exact read_keeps y y' h hs
  | free i => exact free_keeps y y' i h hs

theorem run_front (addr : UInt64) (key length : UInt32) (hl : 2*length.toNat < 2^32)
    (es : List Event) (y : System)
    (hm : Meets step (fun y e => Ranged y e ∧ Emptied y e) es (init addr key length))
    (hr : run step es (init addr key length) = some y) : Front y :=
  run_keeps step _ Front step_keeps es _ y (init_front addr key length hl) hm hr

theorem front_agrees (y : System) (h : Front y) : Agrees y where
  same := by
    intro k w r hw hread
    obtain ⟨rest, hrest⟩ := h.reads_prefix
    rw [← hrest, List.getElem?_append_left (List.getElem?_eq_some_iff.mp hread).1, hread] at hw
    exact (Option.some.inj hw).symm
  inside := by
    intro w hw
    obtain ⟨haddr, -, hlen⟩ := h.messages w hw
    rw [offset, haddr, UInt64.sub_self]
    simpa using hlen
  apart := by
    intro j k w w' hjk hj hk
    have := h.newest j hj
    have := h.newest k hk
    omega

theorem front_not_apart (base : UInt64) (m m' : Message) (hm : m.addr = base) (hm' : m'.addr = base)
    (hpos : 1 ≤ m.len.toNat) (hpos' : 1 ≤ m'.len.toNat) : ¬Apart base m m' := by
  have hzero : (base-base).toNat = 0 := by
    rw [UInt64.sub_self]
    rfl
  rw [Apart, offset, offset, hm, hm', hzero]
  omega

theorem read_addr_iff (b : Buffer) (len : UInt32) (hb : b.readPtr ≤ b.length)
    (hlen : len ≤ b.length) (hl : 2*b.length.toNat < 2^32) :
    (read b len).1 = b.addr ↔ Turns b len := by
  rw [← readOffset_eq_zero b len hb hlen hl, ← UInt32.toNat_inj]
  simp only [read]
  constructor
  · intro h
    have hoff : (readOffset b len).toUInt64 = 0 := by
      have hsub := congrArg (fun a => a-b.addr) h
      rw [UInt64.add_comm] at hsub
      simpa using hsub
    simpa using congrArg UInt64.toNat hoff
  · intro h
    rw [UInt32.toNat_inj.mp h]
    simp

theorem write_agrees_iff (y : System) (h : Front y) (len : UInt32) (addr : UInt64)
    (snd : RemoteBuffer) (hr : Ranged y (.write len)) (hw : write y.snd len = .ok (addr, snd)) :
    ((∀ k m, Unfreed y k → y.writes[k]? = some m → Apart y.snd.addr m ⟨addr, len⟩) ∧
      (y.reads.length = y.writes.length → (read y.rcv len).1 = addr)) ↔
    Emptied y (.write len) := by
  obtain ⟨rfl, -⟩ := write_front y.snd snd len addr h.tail_zero hw
  have hlen : len ≤ y.rcv.length := by
    rw [h.rcv_length]
    exact UInt32.le_iff_toNat_le.mpr hr.2
  have hread := read_addr_iff y.rcv len h.readPtr_le hlen (by rw [h.rcv_length]; exact h.small)
  rw [h.rcv_addr] at hread
  constructor
  · rintro ⟨hapart, hsame⟩
    have hfreed : ∀ k, ¬Unfreed y k := by
      intro k hk
      have hlt : k < y.writes.length := by
        have := h.newest k hk
        omega
      have hm := List.getElem?_eq_getElem hlt
      obtain ⟨haddr, hpos, -⟩ := h.messages _ (List.getElem_mem hlt)
      exact front_not_apart _ _ _ haddr rfl hpos hr.1 (hapart k _ hk hm)
    have heq : y.reads.length = y.writes.length := by
      have hle := h.reads_prefix.length_le
      by_contra hne
      exact hfreed y.reads.length (Or.inr ⟨Nat.le_refl _, by omega⟩)
    exact ⟨List.eq_nil_iff_forall_not_mem.mpr (fun k hk => hfreed k (Or.inl hk)), heq,
      (turns_iff y h heq len).mp (hread.mp (hsame heq))⟩
  · rintro ⟨hheld, heq, hlast⟩
    refine ⟨?_, fun _ => hread.mpr ((turns_iff y h heq len).mpr hlast)⟩
    rintro k m (hk | hk)
    · exact absurd hk (by simp [hheld])
    · omega

/-- In a run whose writes all find the ring empty and turn the reader, both sides agree and
nothing is overwritten; for one further accepted write the condition is exact. -/
theorem basic_ring_agrees (addr : UInt64) (key length : UInt32) (hl : 2*length.toNat < 2^32)
    (es : List Event) (y : System)
    (hm : Meets step (fun y e => Ranged y e ∧ Emptied y e) es (init addr key length))
    (hr : run step es (init addr key length) = some y) :
    Agrees y ∧
    ∀ len a snd, Ranged y (.write len) → write y.snd len = .ok (a, snd) →
      (((∀ k m, Unfreed y k → y.writes[k]? = some m → Apart y.snd.addr m ⟨a, len⟩) ∧
        (y.reads.length = y.writes.length → (read y.rcv len).1 = a)) ↔
      Emptied y (.write len)) := by
  have h := run_front addr key length hl es y hm hr
  exact ⟨front_agrees y h, fun len a snd => write_agrees_iff y h len a snd⟩

def turningTrace : List Event := [.write 5, .read, .free 0, .updateHead, .write 4, .read]

def turningState : System := (run step turningTrace (init 4096 7 8)).get (by decide +kernel)

theorem basic_ring_agrees_turning :
    Agrees turningState ∧
    ∀ len a snd, Ranged turningState (.write len) → write turningState.snd len = .ok (a, snd) →
      (((∀ k m, Unfreed turningState k → turningState.writes[k]? = some m →
          Apart turningState.snd.addr m ⟨a, len⟩) ∧
        (turningState.reads.length = turningState.writes.length →
          (read turningState.rcv len).1 = a)) ↔
      Emptied turningState (.write len)) :=
  basic_ring_agrees 4096 7 8 (by decide) turningTrace turningState (by decide +kernel)
    (run_get step turningTrace (init 4096 7 8) (by decide +kernel))

def secondWrite : System :=
  (run step [.write 3, .write 3, .read, .read] (init 4096 7 8)).get (by decide +kernel)

/-- The second message is written over the first, and read behind it. -/
theorem second_write_overwrites :
    run step [.write 3, .write 3, .read, .read] (init 4096 7 8) = some secondWrite ∧
    secondWrite.writes = [⟨4096, 3⟩, ⟨4096, 3⟩] ∧ secondWrite.reads = [⟨4096, 3⟩, ⟨4099, 3⟩] ∧
    ¬Agrees secondWrite := by
  have hwrites : secondWrite.writes = [⟨4096, 3⟩, ⟨4096, 3⟩] := by decide +kernel
  have hreads : secondWrite.reads = [⟨4096, 3⟩, ⟨4099, 3⟩] := by decide +kernel
  refine ⟨run_get step _ _ _, hwrites, hreads, ?_⟩
  intro h
  have hsame := h.same 1 ⟨4096, 3⟩ ⟨4099, 3⟩ (by rw [hwrites]; rfl) (by rw [hreads]; rfl)
  exact absurd hsame (by decide)

end KYM.BasicRing
