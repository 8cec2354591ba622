import KnowYourMemory.MagicMemory
import KnowYourMemory.SendWait

/-!
# Regions of posted sends

A request names the memory of a message, and the device reads it no earlier than it
executes the request. The application leaves a region alone until `Wait` has returned
for the call that posted it, or for a later one; then every message is transmitted as it
was when it was posted.
-/

set_option autoImplicit false

namespace KYM.SendRegions
open KYM.Run KYM.SendWait KYM.MagicMemory

structure SendRegion where
  context : UInt64
  addr : UInt64
  length : UInt32
  lkey : UInt32
  deriving DecidableEq, Repr

def SendRegion.bytes (mem : ℕ → UInt8) (r : SendRegion) : List UInt8 :=
  fetch mem r.addr.toNat r.length.toNat

/-- A connection with the memory of its process. `regions` belong to all the requests
that were ever posted, `messages` is what they held when they were; the calls of `Wait`
that have returned stand for the first `released` of them. -/
structure Sender where
  conn : Connection
  mem : ℕ → UInt8
  regions : List SendRegion
  messages : List (List UInt8)
  released : ℕ

inductive Event where
  | sendAsync (region : SendRegion)
  | sendBatch (regions : List SendRegion)
  | wait (id : ℕ)
  | check
  | store (addr : ℕ) (bytes : List UInt8)
  deriving DecidableEq, Repr

def init (mem : ℕ → UInt8) : Sender := ⟨SendWait.init, mem, [], [], 0⟩

def Sender.post (s : Sender) (regions : List SendRegion) (conn : Connection) : Sender :=
  { s with
    conn := conn
    regions := s.regions++regions
    messages := s.messages++regions.map (SendRegion.bytes s.mem) }

/-- The number of requests that the running `Wait` stands for. -/
def covered (c : Connection) : ℕ :=
  ((c.returned.find? (fun p => c.waiting = some p.1)).map Prod.snd).getD 0

def step (s : Sender) : Event → Option Sender
  | .sendAsync region => (SendReceive.step s.conn .sendAsync).map (s.post [region])
  | .sendBatch regions =>
    (SendReceive.step s.conn (.sendBatch regions.length)).map (s.post regions)
  | .wait id => (SendReceive.step s.conn (.wait id)).map (fun conn => { s with conn := conn })
  | .check => (SendReceive.step s.conn .check).map (fun conn => { s with
      conn := conn
      released := if conn.waiting = none then max s.released (covered s.conn) else s.released })
  | .store addr bytes => some { s with mem := put s.mem addr bytes }

def transmit (s : Sender) : Option (List UInt8 × Sender) :=
  match s.regions[s.conn.completed]? with
  | none => none
  | some r => (SendReceive.step s.conn .complete).map (fun conn =>
      (r.bytes s.mem, { s with conn := conn }))

def Sender.carried (s : Sender) : List (List UInt8) := s.messages.drop s.conn.completed

def posts (s : Sender) : Event → List (List UInt8)
  | .sendAsync region => [region.bytes s.mem]
  | .sendBatch regions => regions.map (SendRegion.bytes s.mem)
  | _ => []

def Leaves (s : Sender) : Event → Prop
  | .store addr bytes => ∀ r ∈ s.regions.drop s.released,
      addr+bytes.length ≤ r.addr.toNat ∨ r.addr.toNat+r.length.toNat ≤ addr
  | _ => True

instance (s : Sender) : ∀ e : Event, Decidable (Leaves s e)
  | .store addr bytes => inferInstanceAs (Decidable (∀ r ∈ s.regions.drop s.released,
      addr+bytes.length ≤ r.addr.toNat ∨ r.addr.toNat+r.length.toNat ≤ addr))
  | .sendAsync _ | .sendBatch _ | .wait _ | .check => isTrue trivial

structure Sound (s : Sender) : Prop where
  conn : SendWait.Sound s.conn
  posted : s.conn.posted = s.regions.length
  messages : s.messages.length = s.regions.length
  released : s.released ≤ s.conn.completed
  kept : ∀ (i : ℕ) (r : SendRegion), s.released ≤ i → s.regions[i]? = some r →
    s.messages[i]? = some (r.bytes s.mem)

section Steps

variable {s t : Sender}

theorem init_sound (mem : ℕ → UInt8) : Sound (init mem) :=
  ⟨SendWait.init_sound, rfl, rfl, le_refl _, fun i r _ h => by simp [init] at h⟩

theorem post_counts (c c' : Connection) (e : SendReceive.Event) (k : ℕ)
    (hs : SendReceive.step c e = some c')
    (he : (e = .sendAsync ∧ k = 1) ∨ e = .sendBatch k) :
    c'.posted = c.posted+k ∧ c'.completed = c.completed := by
  rcases he with ⟨rfl, rfl⟩ | rfl
  · simp only [SendReceive.step, Option.ite_none_right_eq_some, Option.some.injEq] at hs
    obtain ⟨-, rfl⟩ := hs
    exact ⟨rfl, rfl⟩
  · simp only [SendReceive.step, Option.ite_none_right_eq_some, Option.some.injEq] at hs
    obtain ⟨⟨-, hk⟩, rfl⟩ := hs
    refine ⟨?_, rfl⟩
    change c.posted+(k-1+1) = c.posted+k
    omega

theorem completed_le (h : Sound s) : s.conn.completed ≤ s.messages.length := by
  have := h.conn.count
  have := h.posted
  have := h.messages
  omega

theorem Sound.post (h : Sound s) (regions : List SendRegion) (conn : Connection)
    (hc : SendWait.Sound conn) (hp : conn.posted = s.conn.posted+regions.length)
    (hd : conn.completed = s.conn.completed) :
    Sound (s.post regions conn) ∧
      (s.post regions conn).carried = s.carried++regions.map (SendRegion.bytes s.mem) := by
  have hlen := h.messages
  refine ⟨⟨hc, ?_, ?_, ?_, fun i r hi hr => ?_⟩, ?_⟩
  · simp only [Sender.post, List.length_append, hp, h.posted]
  · simp only [Sender.post, List.length_append, List.length_map, h.messages]
  · change s.released ≤ conn.completed
    rw [hd]
    exact h.released
  · simp only [Sender.post] at hr ⊢
    rcases Nat.lt_or_ge i s.regions.length with hlt | hge
    · rw [List.getElem?_append_left hlt] at hr
      rw [List.getElem?_append_left (by omega)]
      exact h.kept i r hi hr
    · rw [List.getElem?_append_right hge] at hr
      rw [List.getElem?_append_right (by omega), hlen, List.getElem?_map, hr]
      rfl
  · simp only [Sender.carried, Sender.post, hd]
    exact List.drop_append_of_le_length (completed_le h)

theorem covered_le (c c' : Connection) (h : SendWait.Sound c)
    (hs : SendReceive.step c .check = some c') (hw : c'.waiting = none) :
    covered c ≤ c'.completed := by
  simp only [SendReceive.step] at hs
  split at hs
  · cases hs
  next id hid =>
  split at hs <;> obtain rfl := Option.some.inj hs
  · unfold Connection.pollSendCq at hw
    split at hw <;> simp [hid] at hw
  · next hle =>
    unfold covered
    cases hf : c.returned.find? (fun p => c.waiting = some p.1) with
    | none => exact Nat.zero_le _
    | some p =>
      have hp := List.find?_some hf
      simp only [hid, Option.some.injEq, decide_eq_true_eq] at hp
      exact h.done p (List.mem_of_find?_eq_some hf) (by omega)

theorem check_counts (c c' : Connection) (hs : SendReceive.step c .check = some c') :
    c'.posted = c.posted ∧ c'.completed = c.completed := by
  simp only [SendReceive.step] at hs
  split at hs
  · cases hs
  split at hs <;> obtain rfl := Option.some.inj hs
  · unfold Connection.pollSendCq
    split <;> exact ⟨rfl, rfl⟩
  · exact ⟨rfl, rfl⟩

theorem bytes_put (mem : ℕ → UInt8) (addr : ℕ) (bytes : List UInt8) (r : SendRegion)
    (h : addr+bytes.length ≤ r.addr.toNat ∨ r.addr.toNat+r.length.toNat ≤ addr) :
    r.bytes (put mem addr bytes) = r.bytes mem := by
  apply fetch_congr
  intro i h1 h2
  apply put_outside
  omega

theorem step_sound (h : Sound s) (e : Event) (he : Leaves s e) (hs : step s e = some t) :
    Sound t ∧ t.carried = s.carried++posts s e := by
  cases e with
  | sendAsync region =>
    obtain ⟨conn, hc, rfl⟩ := Option.map_eq_some_iff.mp hs
    obtain ⟨hp, hd⟩ := post_counts _ _ _ 1 hc (Or.inl ⟨rfl, rfl⟩)
    exact h.post [region] conn (SendReceive.step_sound _ h.conn hc).1 hp hd
  | sendBatch regions =>
    obtain ⟨conn, hc, rfl⟩ := Option.map_eq_some_iff.mp hs
    obtain ⟨hp, hd⟩ := post_counts _ _ _ _ hc (Or.inr rfl)
    exact h.post regions conn (SendReceive.step_sound _ h.conn hc).1 hp hd
  | wait id =>
    obtain ⟨conn, hc, rfl⟩ := Option.map_eq_some_iff.mp hs
    have hsound := (SendReceive.step_sound _ h.conn hc).1
    simp only [SendReceive.step, Option.ite_none_right_eq_some, Option.some.injEq] at hc
    obtain ⟨-, rfl⟩ := hc
    exact ⟨⟨hsound, h.posted, h.messages, h.released, h.kept⟩, (List.append_nil _).symm⟩
  | check =>
    obtain ⟨conn, hc, rfl⟩ := Option.map_eq_some_iff.mp hs
    have hsound := (SendReceive.step_sound _ h.conn hc).1
    obtain ⟨hp, hd⟩ := check_counts _ _ hc
    have hrel := h.released
    refine ⟨⟨hsound, hp.trans h.posted, h.messages, ?_, fun i r hi hr => h.kept i r ?_ hr⟩, ?_⟩
    · simp only
      split
      · next hw => exact max_le (by omega) (covered_le _ _ h.conn hc hw)
      · omega
    · simp only at hi
      split at hi
      · exact (le_max_left _ _).trans hi
      · exact hi
    · simp only [Sender.carried, hd, posts, List.append_nil]
  | store addr bytes =>
    obtain rfl := Option.some.inj hs
    refine ⟨⟨h.conn, h.posted, h.messages, h.released, fun i r hi hr => ?_⟩,
      (List.append_nil _).symm⟩
    have hmem : r ∈ s.regions.drop s.released := by
      refine List.mem_of_getElem? (i := i-s.released) ?_
      rw [List.getElem?_drop, Nat.add_sub_cancel' hi]
      exact hr
    rw [bytes_put s.mem addr bytes r (he r hmem)]
    exact h.kept i r hi hr

theorem transmit_sound (h : Sound s) (m : List UInt8) (hs : transmit s = some (m, t)) :
    Sound t ∧ s.carried = m::t.carried := by
  unfold transmit at hs
  split at hs
  · cases hs
  next r hr =>
  obtain ⟨conn, hc, he⟩ := Option.map_eq_some_iff.mp hs
  obtain ⟨rfl, rfl⟩ := Prod.mk.inj he
  have hsound := (SendReceive.step_sound _ h.conn hc).1
  have hcount : conn.posted = s.conn.posted ∧ conn.completed = s.conn.completed+1 := by
    simp only [SendReceive.step, Connection.complete] at hc
    split at hc
    · cases hc
    · obtain rfl := Option.some.inj hc
      exact ⟨rfl, rfl⟩
  have hrel := h.released
  refine ⟨⟨hsound, hcount.1.trans h.posted, h.messages, ?_, h.kept⟩, ?_⟩
  · simp only [hcount.2]
    omega
  · obtain ⟨hlt, hget⟩ := List.getElem?_eq_some_iff.mp (h.kept _ r hrel hr)
    simp only [Sender.carried, hcount.2]
    rw [List.drop_eq_getElem_cons hlt, hget]

theorem carried_update (senders : UInt32 → Sender) (qpNum : UInt32) (ms : List (List UInt8))
    (h : t.carried = (senders qpNum).carried++ms) :
    (fun qp => (Function.update senders qpNum t qp).carried) =
      Function.update (fun qp => (senders qp).carried) qpNum ((senders qpNum).carried++ms) := by
  rw [← h]
  exact Function.comp_update Sender.carried senders qpNum t

end Steps

end KYM.SendRegions
