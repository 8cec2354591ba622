import KnowYourMemory.Outstanding
import KnowYourMemory.WriteConnection
import Mathlib.Data.Int.CardIntervalMod

/-!
# The receiver of the bandwidth benchmark

It reads the messages of its connections, in turn, into the slots of one region. It starts
`unack` reads, then waits for the read of a slot before it uses the slot again, and last
waits for all of them.
-/

set_option autoImplicit false

namespace KYM.ReadBench
open KYM.Run KYM.RingBuffer KYM.DirectRead KYM.Outstanding
open KYM.RefusedReceive (Receiver Took regionToSmall)
open KYM.ReceiveQueue (postFailed)
open KYM.WriteConnection (wrap)

/-- `receivers` is 1 in the overload for one connection. -/
structure Options where
  receivers : ℕ
  count : ℕ
  size : ℕ
  unack : ℕ
  addr : UInt64
  lkey : UInt32

structure Ticket where
  conn : ℕ
  id : ℕ
  deriving DecidableEq, Repr

inductive Pc where
  | warm (i : ℕ)
  | warmWait (i id : ℕ)
  | fill (i : ℕ)
  | turn (i : ℕ)
  | reissue (i : ℕ)
  | drain (i : ℕ)
  | finished
  | failed (status : Status)
  deriving DecidableEq, Repr

structure State where
  conns : ℕ → Receiver
  ids : ℕ → Ticket
  pc : Pc

inductive Event where
  | announce (c i : ℕ) (req : ReadRequest)
  | perform (c i : ℕ)
  | next

def init (fence : Bool) (rqs : ℕ → ReceiveQueue.Queue) : State :=
  ⟨fun c => RefusedReceive.init fence (rqs c), fun _ => ⟨0, 0⟩, .warm 0⟩

/-- `i*size` and `unack*size` are products of `int`s. An overflow, which C++ leaves undefined,
wraps around here. -/
def product (i size : ℕ) : Int32 := Int32.ofNat i*Int32.ofNat size

def registered (b : Options) : UInt32 := (product b.unack b.size).toUInt32

def slot (b : Options) (j : ℕ) : KeyedRegion :=
  ⟨⟨UInt64.ofNat j, b.addr+(product j b.size).toInt64.toUInt64, UInt32.ofNat b.size⟩, b.lkey⟩

def receivingFailed (e : Status) : Status := wrap e "error receiving buffer"

def receive (b : Options) (s : State) (c j : ℕ) (pc : ℕ → Pc) : Option State :=
  match RefusedReceive.receive (s.conns c) (slot b j) with
  | none => none
  | some (.error e, r) =>
    some { s with conns := Function.update s.conns c r, pc := .failed (receivingFailed e) }
  | some (.ok (id, _), r) => some { s with conns := Function.update s.conns c r, pc := pc id }

def receiveAsync (b : Options) (s : State) (c j : ℕ) (pc : Pc) : Option State :=
  match RefusedReceive.receiveAsync (s.conns c) (slot b j) none with
  | none => none
  | some (.error e, _, r) =>
    some { s with conns := Function.update s.conns c r, pc := .failed (receivingFailed e) }
  | some (.ok id, _, r) =>
    some { s with
      conns := Function.update s.conns c r
      ids := Function.update s.ids j ⟨c, id⟩
      pc := pc }

def waitReceive (s : State) (c id : ℕ) (pc : Pc) : Option State :=
  match RefusedReceive.step (s.conns c) (.waitReceive id) with
  | none => none
  | some r => some { s with conns := Function.update s.conns c r, pc := pc }

def next (b : Options) (s : State) : Option State :=
  match s.pc with
  | .warm i =>
    if i < b.count/16 then receive b s (i%b.receivers) (i%b.unack) (.warmWait i)
    else some { s with pc := .fill 0 }
  | .warmWait i id => waitReceive s (i%b.receivers) id (.warm (i+1))
  | .fill i =>
    if i < b.unack then receiveAsync b s (i%b.receivers) i (.fill (i+1))
    else some { s with pc := .turn b.unack }
  | .turn i =>
    if i < b.count then waitReceive s (i%b.receivers) (s.ids (i%b.unack)).id (.reissue i)
    else some { s with pc := .drain 0 }
  | .reissue i => receiveAsync b s (i%b.receivers) (i%b.unack) (.turn (i+1))
  | .drain i =>
    if i < b.unack then waitReceive s (i%b.receivers) (s.ids i).id (.drain (i+1))
    else some { s with pc := .finished }
  | .finished | .failed _ => none

def environment (s : State) (c : ℕ) (e : RefusedReceive.Event) : Option State :=
  (RefusedReceive.step (s.conns c) e).map (fun r => { s with conns := Function.update s.conns c r })

def step (b : Options) (s : State) : Event → Option State
  | .announce c i req => environment s c (.announce i req)
  | .perform c i => environment s c (.perform i)
  | .next => next b s

def share (n c i : ℕ) : ℕ := Nat.count (fun k => k%n = c) i

def ticket (b : Options) (k : ℕ) : Ticket :=
  ⟨k%b.receivers, share b.receivers (k%b.receivers) (b.count/16)+k/b.receivers+1⟩

/-- What is outstanding, and in which slot. -/
def out (b : Options) (s : State) (c id j : ℕ) : Prop :=
  match s.pc with
  | .warm _ | .finished | .failed _ => False
  | .warmWait i id' => c = i%b.receivers ∧ id = id' ∧ j = i%b.unack
  | .fill i => j < i ∧ s.ids j = ⟨c, id⟩
  | .turn _ => j < b.unack ∧ s.ids j = ⟨c, id⟩
  | .reissue i => j < b.unack ∧ j ≠ i%b.unack ∧ s.ids j = ⟨c, id⟩
  | .drain i => i ≤ j ∧ j < b.unack ∧ s.ids j = ⟨c, id⟩

def Turns (b : Options) : Prop := b.receivers ∣ b.unack ∨ b.count ≤ b.unack

structure At (b : Options) (s : State) (warmed issued : ℕ) : Prop where
  held : Held (slot b) b.unack s.conns (out b s)
  next : ∀ c, (s.conns c).sys.conn.nextRcvId =
    share b.receivers c warmed+share b.receivers c issued+1
  ids : ∀ k < issued, issued ≤ k+b.unack → s.ids (k%b.unack) = ticket b k

def Sound (b : Options) (s : State) : Prop :=
  match s.pc with
  | .warm i => i ≤ b.count/16 ∧ At b s i 0
  | .warmWait i _ => i < b.count/16 ∧ At b s (i+1) 0
  | .fill i => i ≤ b.unack ∧ i ≤ maxRcv*b.receivers ∧ At b s (b.count/16) i ∧
      ∀ c, (s.conns c).sys.conn.ackdRcvId ≤ share b.receivers c (b.count/16)
  | .turn i => b.unack ≤ i ∧ (i ≤ b.unack ∨ i ≤ b.count) ∧ b.unack ≤ maxRcv*b.receivers ∧
      (Turns b → At b s (b.count/16) i)
  | .reissue i => b.unack ≤ i ∧ i < b.count ∧ b.unack ≤ maxRcv*b.receivers ∧
      (Turns b → At b s (b.count/16) i)
  | .drain i => i ≤ b.unack ∧ b.unack ≤ maxRcv*b.receivers ∧
      (Turns b → At b s (b.count/16) (max b.unack b.count))
  | .finished => b.unack ≤ maxRcv*b.receivers ∧
      (Turns b → At b s (b.count/16) (max b.unack b.count))
  | .failed e => Turns b → (∃ o, Held (slot b) b.unack s.conns o) ∧
      (b.unack ≤ maxRcv*b.receivers → e ≠ receivingFailed rateLimit)

section RoundRobin

variable {n : ℕ}

theorem share_succ (n c i : ℕ) : share n c (i+1) = share n c i+if i%n = c then 1 else 0 :=
  Nat.count_succ ..

theorem share_self (hn : 1 ≤ n) (i : ℕ) : share n (i%n) i = i/n := by
  have hcount := Nat.count_modEq_card i hn i
  rw [if_neg (Nat.lt_irrefl _), Nat.add_zero] at hcount
  exact hcount

theorem div_lt_of_near {i k m : ℕ} (hmod : k%n = i%n) (hnear : i < k+m*n) :
    i/n < k/n+m := by
  have hi := Nat.div_add_mod i n
  have hk := Nat.div_add_mod k n
  by_contra hge
  have hle := Nat.mul_le_mul_left n (Nat.not_lt.mp hge)
  rw [Nat.mul_add, Nat.mul_comm n m] at hle
  omega

theorem last_place {u i j : ℕ} (hu : u ≤ i) (hj : j < u) :
    j+u*((i-1-j)/u) < i ∧ i ≤ j+u*((i-1-j)/u)+u ∧ (j+u*((i-1-j)/u))%u = j := by
  have hlt := Nat.mod_lt (i-1-j) (by omega : 0 < u)
  have hdiv := Nat.div_add_mod (i-1-j) u
  refine ⟨by omega, by omega, ?_⟩
  rw [Nat.add_mul_mod_self_left, Nat.mod_eq_of_lt hj]

theorem last_use {u i j : ℕ} (hu : u ≤ i) (hj : j < u) : ∃ k < i, i ≤ k+u ∧ k%u = j :=
  ⟨_, last_place hu hj⟩

theorem eq_of_slot {u i k l : ℕ} (hk : k < i) (hku : i ≤ k+u) (hl : l < i) (hlu : i ≤ l+u)
    (h : k%u = l%u) : k = l := by
  have hdk := Nat.div_add_mod k u
  have hdl := Nat.div_add_mod l u
  rcases Nat.lt_trichotomy (k/u) (l/u) with hlt | heq | hgt
  · have hle := Nat.mul_le_mul_left u (Nat.succ_le_of_lt hlt)
    rw [Nat.mul_succ] at hle
    omega
  · rw [heq] at hdk
    omega
  · have hle := Nat.mul_le_mul_left u (Nat.succ_le_of_lt hgt)
    rw [Nat.mul_succ] at hle
    omega

end RoundRobin

section Calls

variable {b : Options} {s t : State} {c j : ℕ}

/-- The call has taken a request and returned an error. -/
structure Refused (s t : State) (c : ℕ) (e : Status) : Prop where
  pc : t.pc = .failed (receivingFailed e)
  took : ∃ r req, t.conns = Function.update s.conns c r ∧ Took (s.conns c) r req
  reason : e = postFailed ∨ e = regionToSmall ∨
    (s.conns c).sys.conn.ackdRcvId+maxRcv < (s.conns c).sys.conn.nextRcvId

def Issued (b : Options) (s t : State) (c j id : ℕ) : Prop :=
  ∃ r m req key, t.conns = Function.update s.conns c r ∧ Took (s.conns c) m req ∧
    m.readInto (slot b j).addr key req = (.ok id, r) ∧ req.length ≤ (slot b j).length

theorem took_of_error {r r' : Receiver} {req : ReadRequest} {x : Option Status}
    (h : (x ≠ none ∧ Took r r' req) ∨ (x = none ∧ RefusedReceive.Accepted r r' req)) (hx : x ≠ none) :
    Took r r' req := by
  rcases h with ⟨-, htook⟩ | ⟨hnone, -⟩
  · exact htook
  · exact absurd hnone hx

theorem receive_views {pc : ℕ → Pc} (hs : receive b s c j pc = some t) :
    (∃ e, Refused s t c e) ∨ ∃ id, Issued b s t c j id ∧ t.pc = pc id := by
  unfold receive at hs
  split at hs
  · cases hs
  · next e r hr =>
    obtain rfl := Option.some.inj hs
    obtain ⟨req, hcases⟩ := RefusedReceive.receive_cases hr
    have htook := took_of_error hcases (by simp [refusal])
    exact Or.inl ⟨e, rfl, ⟨r, req, rfl, htook⟩, receive_refuses hr⟩
  · next id length r hr =>
    obtain rfl := Option.some.inj hs
    obtain ⟨m, req, key, htook, hlen, hread⟩ := DirectReadDelivery.receive_reads _ _ _ _ _ hr
    exact Or.inr ⟨id, ⟨r, m, req, key, rfl, htook, hread, hlen⟩, rfl⟩

theorem receiveAsync_views {pc : Pc} (hs : receiveAsync b s c j pc = some t) :
    (∃ e, Refused s t c e) ∨ ∃ id, Issued b s t c j id ∧ t.pc = pc ∧
      t.ids = Function.update s.ids j ⟨c, id⟩ := by
  unfold receiveAsync at hs
  split at hs
  · cases hs
  · next e l r hr =>
    obtain rfl := Option.some.inj hs
    obtain ⟨req, hcases⟩ := RefusedReceive.receiveAsync_cases hr
    have htook := took_of_error hcases (by simp [refusal])
    exact Or.inl ⟨e, rfl, ⟨r, req, rfl, htook⟩, receiveAsync_refuses hr⟩
  · next id l r hr =>
    obtain rfl := Option.some.inj hs
    obtain ⟨m, req, key, htook, hlen, hread⟩ :=
      DirectReadDelivery.receiveAsync_reads _ _ _ _ _ _ hr
    exact Or.inr ⟨id, ⟨r, m, req, key, rfl, htook, hread, hlen⟩, rfl, rfl⟩

theorem waitReceive_views {id : ℕ} {pc : Pc} (hs : waitReceive s c id pc = some t) :
    ∃ r, RefusedReceive.step (s.conns c) (.waitReceive id) = some r ∧
      t = ⟨Function.update s.conns c r, s.ids, pc⟩ := by
  unfold waitReceive at hs
  split at hs
  · cases hs
  · next r hr => exact ⟨r, hr, (Option.some.inj hs).symm⟩

theorem Issued.room {id : ℕ} (h : Issued b s t c j id) :
    (s.conns c).sys.conn.nextRcvId ≤ (s.conns c).sys.conn.ackdRcvId+maxRcv := by
  obtain ⟨r, m, req, key, -, htook, hread, -⟩ := h
  by_contra hlt
  rw [Receiver.readInto, htook.sys, DirectRead.readInto, if_pos (by omega)] at hread
  cases hread

theorem refused_sound {e : Status} {o : ℕ → ℕ → ℕ → Prop} (hr : Refused s t c e)
    (hheld : Turns b → Held (slot b) b.unack s.conns o)
    (hroom : Turns b → b.unack ≤ maxRcv*b.receivers →
      (s.conns c).sys.conn.nextRcvId ≤ (s.conns c).sys.conn.ackdRcvId+maxRcv) : Sound b t := by
  obtain ⟨hpc, ⟨r, req, hconns, htook⟩, hreason⟩ := hr
  unfold Sound
  rw [hpc]
  refine fun hturns => ⟨⟨o, hconns ▸ (hheld hturns).keep c r htook.sys⟩, fun hle he => ?_⟩
  have hcode := congrArg Status.code he
  have hlimit := hroom hturns hle
  rcases hreason with rfl | rfl | hlt
  · cases hcode
  · cases hcode
  · omega

end Calls

end KYM.ReadBench
