import KnowYourMemory.FreedRegions
import KnowYourMemory.RingOffsets

/-!
# Many senders, one shared ring

The connections of an instance interleave: reservations by fetch-and-add, head
reads that may return any earlier head, posted writes, completions in any order,
and frees in any order. The protocol refines the ledger of the previous module;
what it adds is that every posted message ends within one ring length of the head.
-/

set_option autoImplicit false

namespace KYM.SharedWrite
open KYM.Run KYM.Circle KYM.IntervalMap KYM.RingOffsets KYM.WriteAtomic
open KYM.RingBuffer (ReceiveRegion)

inductive Progress where
  | reserved (i : ℕ)
  | written (imm : UInt32)
  | received (reg : ReceiveRegion)
  | freed
  deriving DecidableEq, Repr

abbrev Message := FreedRegions.Reservation Progress

/-- The state of the instance, the tail that the fetch-and-adds change, the
connections, every message so far, and every value the head has had. -/
structure Shared where
  inst : Instance
  tail : UInt64
  conns : ℕ → Connection
  msgs : List Message
  heads : List UInt64

inductive Event where
  | reserve (i : ℕ) (len : UInt32)
  | readHead (i : ℕ) (head : UInt64)
  | post (i : ℕ)
  | receive (k : ℕ)
  | free (k : ℕ)
  deriving DecidableEq, Repr

def init (bufAddr : UInt64) (bufSize : UInt32) (useDm : Bool) : Shared where
  inst := newInstance bufAddr bufSize useDm
  tail := 0
  conns := fun _ => newConnection bufAddr bufSize
  msgs := []
  heads := [0]

def reserve (s : Shared) (i : ℕ) (len : UInt32) : Option Shared :=
  match (s.conns i).pending, (s.conns i).reserve s.tail len with
  | none, .ok (c, tail) =>
    some { s with
      tail := tail
      conns := Function.update s.conns i c
      msgs := s.msgs++[⟨s.tail, len, .reserved i⟩] }
  | _, _ => none

def readHead (s : Shared) (i : ℕ) (head : UInt64) : Option Shared :=
  match (s.conns i).pending with
  | none => none
  | some len =>
    if (s.conns i).waits len ∧ head ∈ s.heads then
      some { s with conns := Function.update s.conns i { s.conns i with head := head } }
    else none

def markWritten (i : ℕ) (imm : UInt32) (m : Message) : Message :=
  if m.progress = .reserved i then { m with progress := .written imm } else m

def post (s : Shared) (i : ℕ) : Option Shared :=
  match (s.conns i).pending with
  | none => none
  | some len =>
    if (s.conns i).waits len then none
    else
      let (_, imm, c) := (s.conns i).post
      some { s with
        conns := Function.update s.conns i c
        msgs := s.msgs.map (markWritten i imm) }

def receive (s : Shared) (k : ℕ) : Option Shared :=
  match s.msgs[k]? with
  | some ⟨start, len, .written imm⟩ =>
    some { s with msgs := s.msgs.set k ⟨start, len, .received (s.inst.receive imm len)⟩ }
  | _ => none

def free (s : Shared) (k : ℕ) : Option Shared :=
  match s.msgs[k]? with
  | some ⟨start, len, .received reg⟩ =>
    (s.inst.free reg).map (fun inst =>
      { s with
        inst := inst
        msgs := s.msgs.set k ⟨start, len, .freed⟩
        heads := inst.head::s.heads })
  | _ => none

def step (s : Shared) : Event → Option Shared
  | .reserve i len => reserve s i len
  | .readHead i head => readHead s i head
  | .post i => post s i
  | .receive k => receive s k
  | .free k => free s k

/-- Messages are not empty and the 64-bit counters do not wrap. -/
def NoWrap (s : Shared) : Event → Prop
  | .reserve _ len => 1 ≤ len.toNat ∧ s.tail.toNat+len.toNat < 2^64
  | _ => True

def Narrow (s : Shared) : Event → Prop
  | .receive k =>
    s.inst.head.toNat%s.inst.bufSize.toNat < 2^31 ∧
      ∀ m ∈ s.msgs[k]?, m.start.toNat%s.inst.bufSize.toNat < 2^31
  | _ => True

def Regular (s : Shared) (e : Event) : Prop := NoWrap s e ∧ Narrow s e

instance (s : Shared) : ∀ e : Event, Decidable (NoWrap s e)
  | .reserve _ len => inferInstanceAs (Decidable (1 ≤ len.toNat ∧ s.tail.toNat+len.toNat < 2^64))
  | .readHead _ _ | .post _ | .receive _ | .free _ => isTrue trivial

instance (s : Shared) : ∀ e : Event, Decidable (Narrow s e)
  | .receive k =>
    inferInstanceAs (Decidable (s.inst.head.toNat%s.inst.bufSize.toNat < 2^31 ∧
      ∀ m ∈ s.msgs[k]?, m.start.toNat%s.inst.bufSize.toNat < 2^31))
  | .reserve _ _ | .readHead _ _ | .post _ | .free _ => isTrue trivial

instance (s : Shared) (e : Event) : Decidable (Regular s e) :=
  inferInstanceAs (Decidable (_ ∧ _))

section Views

variable {s s' : Shared} {i k : ℕ}

theorem reserve_views {len : UInt32} (hs : reserve s i len = some s') :
    (s.conns i).pending = none ∧ len < (s.conns i).rbufSize ∧ s' = { s with
      tail := s.tail+len.toUInt64
      conns := Function.update s.conns i { s.conns i with tail := s.tail, pending := some len }
      msgs := s.msgs++[⟨s.tail, len, .reserved i⟩] } := by
  unfold reserve at hs
  split at hs
  · next c tail hp hc =>
    obtain rfl := Option.some.inj hs
    unfold Connection.reserve at hc
    split at hc
    · cases hc
    next hlt =>
    obtain ⟨rfl, rfl⟩ := Prod.mk.inj (Except.ok.inj hc)
    exact ⟨hp, UInt32.not_le.mp hlt, rfl⟩
  · cases hs

theorem readHead_views {head : UInt64} (hs : readHead s i head = some s') :
    head ∈ s.heads ∧
      s' = { s with conns := Function.update s.conns i { s.conns i with head := head } } := by
  unfold readHead at hs
  split at hs
  · cases hs
  split at hs
  · next hc => exact ⟨hc.2, (Option.some.inj hs).symm⟩
  · cases hs

theorem post_views (hs : post s i = some s') :
    ∃ len, (s.conns i).pending = some len ∧ ¬ (s.conns i).waits len ∧ s' = { s with
      conns := Function.update s.conns i { s.conns i with pending := none }
      msgs := s.msgs.map (markWritten i (s.conns i).localOff.toUInt32) } := by
  unfold post at hs
  split at hs
  · cases hs
  next len hp =>
  split at hs
  · cases hs
  · next hw => exact ⟨len, hp, hw, (Option.some.inj hs).symm⟩

theorem receive_views (hs : receive s k = some s') :
    ∃ start len imm, s.msgs[k]? = some ⟨start, len, .written imm⟩ ∧ s' = { s with
      msgs := s.msgs.set k ⟨start, len, .received (s.inst.receive imm len)⟩ } := by
  unfold receive at hs
  split at hs
  · next start len imm hk => exact ⟨start, len, imm, hk, (Option.some.inj hs).symm⟩
  · cases hs

theorem free_views (hs : free s k = some s') :
    ∃ start len reg inst, s.msgs[k]? = some ⟨start, len, .received reg⟩ ∧
      s.inst.free reg = some inst ∧ s' = { s with
        inst := inst
        msgs := s.msgs.set k ⟨start, len, .freed⟩
        heads := inst.head::s.heads } := by
  unfold free at hs
  split at hs
  · next start len reg hk =>
    obtain ⟨inst, hf, rfl⟩ := Option.map_eq_some_iff.mp hs
    exact ⟨start, len, reg, inst, hk, hf, rfl⟩
  · cases hs

end Views

section Offset

theorem narrow_toInt (u : UInt32) (h : u.toNat < 2^31) : u.toInt32.toInt = u.toNat := by
  change u.toBitVec.toInt = u.toBitVec.toNat
  apply BitVec.toInt_eq_toNat_of_lt
  change 2*u.toNat < 2^32
  omega

theorem narrow_extend (u : UInt32) (h : u.toNat < 2^31) :
    u.toInt32.toInt64.toUInt64 = u.toUInt64 := by
  apply UInt64.toNat_inj.mp
  change (u.toBitVec.signExtend 64).toNat = u.toUInt64.toNat
  have hmsb : u.toBitVec.msb = false := by
    rw [BitVec.msb_eq_false_iff_two_mul_lt]
    change 2*u.toNat < 2^32
    omega
  rw [BitVec.signExtend_eq_setWidth_of_msb_false hmsb]
  simp

theorem narrow_le (u v : UInt32) (hu : u.toNat < 2^31) (hv : v.toNat < 2^31) :
    u.toInt32 ≤ v.toInt32 ↔ u.toNat ≤ v.toNat := by
  rw [Int32.le_iff_toInt_le, narrow_toInt u hu, narrow_toInt v hv]
  omega

theorem lap_of_window (S h o : ℕ) (hS : 0 < S) (h1 : h ≤ o) (h2 : o < h+S) :
    (if h%S ≤ o%S then h/S*S+o%S else (h/S+1)*S+o%S) = o := by
  have eo := Nat.div_add_mod o S
  have eh := Nat.div_add_mod h S
  have hle : h/S ≤ o/S := Nat.div_le_div_right h1
  have hge : o/S ≤ h/S+1 := by
    rw [← Nat.add_div_right h hS]
    exact Nat.div_le_div_right h2.le
  have hcase : o/S = h/S ∨ o/S = h/S+1 := by omega
  rcases hcase with hq | hq
  · rw [hq] at eo
    rw [if_pos (by omega), Nat.mul_comm]
    exact eo
  · rw [hq, Nat.mul_add, Nat.mul_one] at eo
    rw [if_neg (by omega), Nat.add_mul, Nat.one_mul, Nat.mul_comm]
    exact eo

theorem globalOffset_eq (inst : Instance) (o : UInt64) (hS : 0 < inst.bufSize.toNat)
    (h1 : inst.head.toNat ≤ o.toNat) (h2 : o.toNat < inst.head.toNat+inst.bufSize.toNat)
    (ho : o.toNat%inst.bufSize.toNat < 2^31) (hh : inst.head.toNat%inst.bufSize.toNat < 2^31) :
    inst.globalOffset (o%inst.bufSize.toUInt64).toUInt32 = o := by
  have hro := residue_toNat o inst.bufSize hS
  have hrh := residue_toNat inst.head inst.bufSize hS
  have hlap := lap_of_window inst.bufSize.toNat inst.head.toNat o.toNat hS h1 h2
  have hlt := o.toNat_lt
  apply UInt64.toNat_inj.mp
  unfold Instance.globalOffset
  simp only [narrow_le _ _ (hrh ▸ hh) (hro ▸ ho), narrow_extend _ (hro ▸ ho), hro, hrh]
  have hone : (1 : UInt64).toNat = 1 := rfl
  split at hlap <;> next hc =>
    simp only [hc, if_true, if_false]
    simp only [UInt64.toNat_add, UInt64.toNat_mul, UInt64.toNat_div, UInt32.toNat_toUInt64, hro,
      hone, Nat.mod_mul_mod, Nat.mod_add_mod, hlap]
    exact Nat.mod_eq_of_lt hlt

end Offset

def Progress.ledger : Progress → FreedRegions.Progress
  | .reserved _ | .written _ => .reserved
  | .received _ => .received
  | .freed => .freed

def entry (m : Message) : FreedRegions.Message := ⟨m.start, m.len, m.progress.ledger⟩

def ledger (s : Shared) : FreedRegions.Ledger := ⟨s.inst, s.tail, s.msgs.map entry⟩

def InWindow (s : Shared) (m : Message) : Prop :=
  m.start.toNat+m.len.toNat < s.inst.head.toNat+s.inst.bufSize.toNat

def Placed (s : Shared) (m : Message) : Prop :=
  match m.progress with
  | .reserved i => (s.conns i).pending = some m.len ∧ (s.conns i).tail = m.start
  | .written imm => InWindow s m ∧ imm = (m.start%s.inst.bufSize.toUInt64).toUInt32
  | .received reg => InWindow s m ∧ reg.context = m.start ∧ reg.length = m.len
  | .freed => True

structure Safe (bufAddr : UInt64) (bufSize : UInt32) (s : Shared) : Prop where
  size : s.inst.bufSize = bufSize
  addr : s.inst.bufAddr = bufAddr
  tracked : FreedRegions.Tracked (ledger s)
  conn : ∀ i, (s.conns i).rbufSize = bufSize ∧ (s.conns i).rbufVaddr = bufAddr ∧
    (s.conns i).head ≤ s.inst.head
  heads : ∀ h ∈ s.heads, h ≤ s.inst.head
  pending : ∀ i len, (s.conns i).pending = some len →
    ⟨(s.conns i).tail, len, .reserved i⟩ ∈ s.msgs
  placed : ∀ m ∈ s.msgs, Placed s m

section Steps

variable {bufAddr : UInt64} {bufSize : UInt32} {s s' : Shared}

theorem init_safe (bufAddr : UInt64) (bufSize : UInt32) (useDm : Bool) :
    Safe bufAddr bufSize (init bufAddr bufSize useDm) where
  size := rfl
  addr := rfl
  tracked := FreedRegions.init_tracked bufAddr bufSize useDm
  conn _ := ⟨rfl, rfl, UInt64.le_refl _⟩
  heads := by simp [init, newInstance]
  pending i len h := by cases h
  placed := by simp [init]

theorem Placed.mono {m : Message} (h : Placed s m) (hsz : s'.inst.bufSize = s.inst.bufSize)
    (hhd : s.inst.head ≤ s'.inst.head)
    (hc : ∀ i, m.progress = .reserved i → (s'.conns i).pending = (s.conns i).pending ∧
      (s'.conns i).tail = (s.conns i).tail) : Placed s' m := by
  rw [UInt64.le_iff_toNat_le] at hhd
  unfold Placed InWindow at *
  cases hp : m.progress with
  | reserved i =>
    simp only [hp] at h ⊢
    rw [(hc i hp).1, (hc i hp).2]
    exact h
  | written imm =>
    simp only [hp] at h ⊢
    rw [hsz]
    exact ⟨by omega, h.2⟩
  | received reg =>
    simp only [hp] at h ⊢
    rw [hsz]
    exact ⟨by omega, h.2⟩
  | freed => trivial

theorem reserve_safe (h : Safe bufAddr bufSize s) (i : ℕ) (len : UInt32)
    (hlen : 1 ≤ len.toNat ∧ s.tail.toNat+len.toNat < 2^64) (hs : reserve s i len = some s') :
    Safe bufAddr bufSize s' := by
  obtain ⟨hp, -, rfl⟩ := reserve_views hs
  have ht := FreedRegions.reserve_tracked h.tracked len hlen rfl
  refine ⟨h.size, h.addr, ?_, ?_, h.heads, ?_, ?_⟩
  · simp only [ledger, List.map_append] at ht ⊢
    exact ht
  · intro j
    by_cases hj : j = i
    · subst hj
      simp only [Function.update_self]
      exact h.conn j
    · simp only [Function.update_of_ne hj]
      exact h.conn j
  · intro j n hn
    by_cases hj : j = i
    · subst hj
      simp only [Function.update_self, Option.some.injEq] at hn ⊢
      subst hn
      simp
    · simp only [Function.update_of_ne hj] at hn ⊢
      exact List.mem_append_left _ (h.pending j n hn)
  · intro m hm
    rcases List.mem_append.mp hm with hold | hnew
    · have hpl := h.placed m hold
      refine hpl.mono rfl (UInt64.le_refl _) ?_
      intro j hj
      have hji : j ≠ i := by
        rintro rfl
        simp only [Placed, hj, hp] at hpl
        cases hpl.1
      simp only [Function.update_of_ne hji, and_self]
    · rw [List.mem_singleton.mp hnew]
      simp [Placed]

theorem readHead_safe (h : Safe bufAddr bufSize s) (i : ℕ) (head : UInt64)
    (hs : readHead s i head = some s') : Safe bufAddr bufSize s' := by
  obtain ⟨hseen, rfl⟩ := readHead_views hs
  refine ⟨h.size, h.addr, h.tracked, ?_, h.heads, ?_, ?_⟩
  · intro j
    by_cases hj : j = i
    · subst hj
      simp only [Function.update_self]
      exact ⟨(h.conn j).1, (h.conn j).2.1, h.heads head hseen⟩
    · simp only [Function.update_of_ne hj]
      exact h.conn j
  · intro j n hn
    by_cases hj : j = i
    · subst hj
      simp only [Function.update_self] at hn ⊢
      exact h.pending j n hn
    · simp only [Function.update_of_ne hj] at hn ⊢
      exact h.pending j n hn
  · intro m hm
    refine (h.placed m hm).mono rfl (UInt64.le_refl _) ?_
    intro j _
    by_cases hj : j = i
    · subst hj
      simp only [Function.update_self, and_self]
    · simp only [Function.update_of_ne hj, and_self]

theorem window_of_check (c : Connection) (len : UInt32) (h : ¬ c.waits len)
    (hw : c.tail.toNat+len.toNat < 2^64) :
    c.tail.toNat+len.toNat < c.head.toNat+c.rbufSize.toNat := by
  have hlt : (c.tail+len.toUInt64).toNat < (c.head+c.rbufSize.toUInt64).toNat :=
    UInt64.lt_iff_toNat_lt.mp (UInt64.not_le.mp h)
  simp only [UInt64.toNat_add, UInt32.toNat_toUInt64, Nat.mod_eq_of_lt hw] at hlt
  exact hlt.trans_le (Nat.mod_le _ _)

theorem pending_window (h : Safe bufAddr bufSize s) (i : ℕ) (len : UInt32)
    (hp : (s.conns i).pending = some len) (hw : ¬ (s.conns i).waits len) :
    (s.conns i).tail.toNat+len.toNat < s.inst.head.toNat+bufSize.toNat := by
  have hmem : entry ⟨(s.conns i).tail, len, .reserved i⟩ ∈ (ledger s).msgs :=
    List.mem_map_of_mem (h.pending i len hp)
  have hle := (h.tracked.message _ hmem).2.1
  have hlt := (ledger s).tail.toNat_lt
  simp only [entry] at hle
  have hc := window_of_check (s.conns i) len hw (by omega)
  have hhd := UInt64.le_iff_toNat_le.mp (h.conn i).2.2
  rw [(h.conn i).1] at hc
  omega

theorem entry_markWritten (i : ℕ) (imm : UInt32) (m : Message) :
    entry (markWritten i imm m) = entry m := by
  unfold markWritten
  split
  · next hp => simp [entry, hp, Progress.ledger]
  · rfl

theorem post_safe (h : Safe bufAddr bufSize s) (i : ℕ) (hs : post s i = some s') :
    Safe bufAddr bufSize s' := by
  obtain ⟨len, hp, hw, rfl⟩ := post_views hs
  refine ⟨h.size, h.addr, ?_, ?_, h.heads, ?_, ?_⟩
  · have ht := h.tracked
    simp only [ledger, List.map_map] at ht ⊢
    rwa [show entry ∘ markWritten i _ = entry from funext (entry_markWritten i _)]
  · intro j
    by_cases hj : j = i
    · subst hj
      simp only [Function.update_self]
      exact h.conn j
    · simp only [Function.update_of_ne hj]
      exact h.conn j
  · intro j n hn
    by_cases hj : j = i
    · subst hj
      simp only [Function.update_self] at hn
      cases hn
    · simp only [Function.update_of_ne hj] at hn ⊢
      refine List.mem_map.mpr ⟨_, h.pending j n hn, ?_⟩
      simp [markWritten, hj]
  · intro m' hm'
    obtain ⟨m, hm, rfl⟩ := List.mem_map.mp hm'
    have hpl := h.placed m hm
    by_cases hi : m.progress = .reserved i
    · have hwin := pending_window h i len hp hw
      simp only [Placed, hi, hp] at hpl
      obtain ⟨hlen, hstart⟩ := hpl
      rw [Option.some.inj hlen, hstart] at hwin
      simp only [markWritten, hi, if_true, Placed, InWindow]
      refine ⟨by rw [h.size]; exact hwin, ?_⟩
      simp only [Connection.localOff, (h.conn i).1, h.size, hstart]
    · simp only [markWritten, if_neg hi]
      refine hpl.mono rfl (UInt64.le_refl _) ?_
      intro j hj
      have hji : j ≠ i := fun he => hi (he ▸ hj)
      simp only [Function.update_of_ne hji, and_self]

theorem head_le_start (h : Safe bufAddr bufSize s) (m : Message) (hm : m ∈ s.msgs)
    (hf : m.progress ≠ .freed) : s.inst.head.toNat ≤ m.start.toNat := by
  have hne : (entry m).progress ≠ .freed := by
    cases hp : m.progress <;> simp [entry, hp, Progress.ledger] at hf ⊢
  exact UInt64.le_iff_toNat_le.mp (h.tracked.head_le (entry m) (List.mem_map_of_mem hm) hne)

theorem ledger_get (s : Shared) (k : ℕ) (m : Message) (hk : s.msgs[k]? = some m) :
    (ledger s).msgs[k]? = some (entry m) := by
  simp [ledger, hk]

theorem ledger_pos (h : Safe bufAddr bufSize s) (m : Message) (hm : m ∈ s.msgs) :
    0 < m.len.toNat := (h.tracked.message (entry m) (List.mem_map_of_mem hm)).1

theorem reserved_set {msgs : List Message} (k : ℕ) (m m' : Message) (hk : msgs[k]? = some m)
    (hm : ∀ i, m.progress ≠ .reserved i) (j : ℕ) (start : UInt64) (len : UInt32)
    (hold : ⟨start, len, .reserved j⟩ ∈ msgs) : ⟨start, len, .reserved j⟩ ∈ msgs.set k m' := by
  rw [FreedRegions.mem_set_iff _ k _ _ _ hk]
  rcases (FreedRegions.mem_iff_set _ k _ _ hk).mp hold with rfl | hne
  · exact absurd rfl (hm j)
  · exact Or.inr hne

theorem receive_safe (h : Safe bufAddr bufSize s) (k : ℕ) (hn : Narrow s (.receive k))
    (hs : receive s k = some s') : Safe bufAddr bufSize s' := by
  obtain ⟨start, len, imm, hk, rfl⟩ := receive_views hs
  have hmem := List.mem_of_getElem? hk
  have hhead := head_le_start h _ hmem (by simp)
  have hpos := ledger_pos h _ hmem
  obtain ⟨hwin, himm⟩ := h.placed _ hmem
  simp only [InWindow] at hhead hpos hwin himm
  obtain ⟨hn1, hn2⟩ := hn
  have hn2 := hn2 _ hk
  refine ⟨h.size, h.addr, ?_, h.conn, h.heads, ?_, ?_⟩
  · apply FreedRegions.receive_tracked h.tracked k
    simp only [FreedRegions.step, ledger_get s k _ hk, entry, Progress.ledger]
    simp only [ledger, List.map_set, entry, Progress.ledger]
  · exact fun j n hj => reserved_set k _ _ hk (fun i => by simp) j _ _ (h.pending j n hj)
  · intro m hm
    rcases (FreedRegions.mem_set_iff _ k _ _ m hk).mp hm with rfl | ⟨j, -, hj⟩
    · have hS : 0 < s.inst.bufSize.toNat := by omega
      refine ⟨hwin, ?_, rfl⟩
      simp only [Instance.receive, himm]
      exact globalOffset_eq s.inst start hS hhead (by omega) hn2 hn1
    · exact (h.placed m (List.mem_of_getElem? hj)).mono rfl (UInt64.le_refl _)
        (fun _ _ => ⟨rfl, rfl⟩)

theorem free_received (h : Safe bufAddr bufSize s) (k : ℕ) (start : UInt64) (len : UInt32)
    (reg : ReceiveRegion) (hk : s.msgs[k]? = some ⟨start, len, .received reg⟩) :
    ∃ inst, s.inst.free reg = some inst ∧ s.inst.head ≤ inst.head ∧
      inst.bufSize = s.inst.bufSize ∧ inst.bufAddr = s.inst.bufAddr ∧
      FreedRegions.Tracked { ledger s with
        inst := inst, msgs := (ledger s).msgs.set k ⟨start, len, .freed⟩ } := by
  obtain ⟨-, hctx, hrl⟩ := h.placed _ (List.mem_of_getElem? hk)
  simp only at hctx hrl
  obtain ⟨inst, hf, hrest⟩ :=
    FreedRegions.free_tracked h.tracked k start len (ledger_get s k _ hk)
  refine ⟨inst, ?_, hrest⟩
  rw [← hf, ← hctx, ← hrl]
  rfl

theorem free_safe (h : Safe bufAddr bufSize s) (k : ℕ) (hs : free s k = some s') :
    Safe bufAddr bufSize s' := by
  obtain ⟨start, len, reg, inst, hk, hreg, rfl⟩ := free_views hs
  obtain ⟨inst', hreg', hhd, hsz, had, ht⟩ := free_received h k start len reg hk
  obtain rfl := Option.some.inj (hreg'.symm.trans hreg)
  refine ⟨hsz.trans h.size, had.trans h.addr, ?_, ?_, ?_, ?_, ?_⟩
  · simp only [ledger, List.map_set]
    exact ht
  · intro j
    exact ⟨(h.conn j).1, (h.conn j).2.1, UInt64.le_trans (h.conn j).2.2 hhd⟩
  · intro x hx
    rcases List.mem_cons.mp hx with rfl | hx
    · exact UInt64.le_refl _
    · exact UInt64.le_trans (h.heads x hx) hhd
  · exact fun j n hj => reserved_set k _ _ hk (fun i => by simp) j _ _ (h.pending j n hj)
  · intro m hm
    rcases (FreedRegions.mem_set_iff _ k _ _ m hk).mp hm with rfl | ⟨j, -, hj⟩
    · trivial
    · exact (h.placed m (List.mem_of_getElem? hj)).mono hsz hhd (fun _ _ => ⟨rfl, rfl⟩)

theorem step_safe (h : Safe bufAddr bufSize s) (e : Event) (he : Regular s e)
    (hs : step s e = some s') : Safe bufAddr bufSize s' := by
  cases e with
  | reserve i len => exact reserve_safe h i len he.1 hs
  | readHead i head => exact readHead_safe h i head hs
  | post i => exact post_safe h i hs
  | receive k => exact receive_safe h k he.2 hs
  | free k => exact free_safe h k hs

end Steps

end KYM.SharedWrite
