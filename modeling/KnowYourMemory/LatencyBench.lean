import KnowYourMemory.Bench
import KnowYourMemory.Exchange
import KnowYourMemory.MagicMemory

/-!
# The latency benchmarks

The scripts of sender and receiver, and of ping and pong, over any two mailboxes with room
for one message or more. Every schedule takes both sides to their end, and no receiver
reports a transmission error.
-/

set_option autoImplicit false

namespace KYM.LatencyBench
open KYM.Run KYM.Exchange KYM.RingBuffer
open KYM.MagicMemory (putU32 getU32 putU32_length getU32_putU32)

/-- The `int` at the address of a received message of `size` bytes, when its sender has stored
`i` at the start of the region. A shorter message is read together with the bytes `behind` it. -/
def carried (size : ℕ) (behind : List UInt8) (i : ℕ) : ℤ :=
  (getU32 (((putU32 (UInt32.ofNat i)).take size++behind).take 4)).toInt32.toInt

/-- `buf` is the message in the send region when the warm-up begins. The delay between two
messages divides by their number. -/
def testWarmupSend (count : ℕ) (buf : ℤ) : Option (List (Op ℤ)) :=
  (Bench.nanodelay count).map (fun _ => loop (fun _ => [.send buf]) 0 count)

def testWarmupReceive (count : ℕ) : List (Op ℤ) := loop (fun _ => [.receive none, .free]) 0 count

section Scripts

variable (size : ℕ) (behind : ℕ → List UInt8)

def testLatSend (count : ℕ) (buf : ℤ) : Option (List (Op ℤ)) :=
  (testWarmupSend (count/4) buf).map (fun warmup =>
    warmup++loop (fun i => [.send (carried size (behind i) i)]) 0 count)

def testLatRecv (count : ℕ) : List (Op ℤ) :=
  testWarmupReceive (count/4)++loop (fun i => [.receive (some (i : ℤ)), .free]) 0 count

def testLatPing (count : ℕ) (buf : ℤ) : Option (List (Op ℤ)) :=
  (testWarmupSend (count/4) buf).map (fun warmup => warmup++testWarmupReceive (count/4)++
    loop (fun i => [.send (carried size (behind i) i), .receive none, .free]) 0 count)

def testLatPong (count : ℕ) (buf : ℤ) : Option (List (Op ℤ)) :=
  (testWarmupSend (count/4) buf).map (fun warmup => testWarmupReceive (count/4)++warmup++
    loop (fun i => [.receive none, .send (carried size (behind i) i), .free]) 0 count)

end Scripts

def transmissionError (expected got : ℤ) : Status :=
  ⟨.internal, "transmission error exepected "++toString expected++" got "++toString got⟩

def error (p : Process ℤ) : Option Status := p.mismatch.map (fun x => transmissionError x.1 x.2)

theorem carried_eq (size : ℕ) (behind : List UInt8) (i : ℕ) (hs : 4 ≤ size) (hi : i < 2^31) :
    carried size behind i = i := by
  have hl := putU32_length (UInt32.ofNat i)
  have hwhole : (putU32 (UInt32.ofNat i)).take size = putU32 (UInt32.ofNat i) :=
    List.take_of_length_le (hl ▸ hs)
  rw [carried, hwhole, List.take_left' hl, getU32_putU32, UInt32.toInt32_ofNat',
    Int32.toInt_ofNat_of_lt hi]

section Ping

variable {μ : Type*} {w n : ℕ}

def PingAt (w n : ℕ) (l : List (Op μ)) : Prop :=
  match l with
  | [] => True
  | .send _::_ => (counts l).2.2 = (counts l).2.1 ∧
      ((n < (counts l).1 ∧ (counts l).2.1 = w+n) ∨
        ((counts l).1 ≤ n ∧ (counts l).2.1 = (counts l).1))
  | .receive _::_ => (counts l).2.2 = (counts l).2.1 ∧
      ((n < (counts l).2.1 ∧ (counts l).1 = n) ∨
        ((counts l).2.1 ≤ n ∧ (counts l).1+1 = (counts l).2.1))
  | .free::_ => (counts l).2.2 = (counts l).2.1+1

def PongAt (w n : ℕ) (l : List (Op μ)) : Prop :=
  match l with
  | [] => True
  | .receive _::_ => (counts l).2.2 = (counts l).2.1 ∧
      ((n < (counts l).2.1 ∧ (counts l).1 = w+n) ∨
        ((counts l).2.1 ≤ n ∧ (counts l).1 = (counts l).2.1))
  | .send _::_ => (n < (counts l).1 ∧ (counts l).2.1 = n ∧ (counts l).2.2 = n) ∨
      ((counts l).1 ≤ n ∧ (counts l).2.1+1 = (counts l).1 ∧ (counts l).2.2 = (counts l).1)
  | .free::_ => (counts l).2.2 = (counts l).2.1+1

theorem ping_rounds (f : ℕ → μ) (i k : ℕ) (hk : k ≤ n) :
    Always (PingAt w n) (loop (fun i => [.send (f i), .receive none, .free]) i k) ∧
      counts (loop (fun i => [Op.send (f i), .receive none, .free]) i k) = (k, k, k) := by
  induction k generalizing i with
  | zero => exact ⟨trivial, rfl⟩
  | succ k ih =>
    obtain ⟨hp, hc⟩ := ih (i+1) (by omega)
    simp only [loop, List.cons_append, List.nil_append, Always, PingAt, counts_send, counts_receive,
      counts_free, hc, and_true, true_and]
    exact ⟨by omega, by omega, hp⟩

theorem ping_receives (f : ℕ → μ) (i k : ℕ) (hk : k ≤ w) :
    Always (PingAt w n) (loop (fun _ => [.receive none, .free]) i k++
      loop (fun i => [.send (f i), .receive none, .free]) 0 n) ∧
    counts (loop (fun _ => [Op.receive none, .free]) i k++
      loop (fun i => [Op.send (f i), .receive none, .free]) 0 n) = (n, n+k, n+k) := by
  induction k generalizing i with
  | zero => exact ping_rounds f 0 n (le_refl n)
  | succ k ih =>
    obtain ⟨hp, hc⟩ := ih (i+1) (by omega)
    simp only [loop, List.cons_append, List.nil_append, Always, PingAt, counts_receive, counts_free,
      hc, and_true, true_and]
    exact ⟨⟨by omega, hp⟩, rfl⟩

theorem ping_sends (f : ℕ → μ) (buf : μ) (i k : ℕ) (hk : k ≤ w) :
    Always (PingAt w n) (loop (fun _ => [.send buf]) i k++
      (loop (fun _ => [.receive none, .free]) 0 w++
        loop (fun i => [.send (f i), .receive none, .free]) 0 n)) ∧
    counts (loop (fun _ => [Op.send buf]) i k++(loop (fun _ => [Op.receive none, .free]) 0 w++
      loop (fun i => [Op.send (f i), .receive none, .free]) 0 n)) = (n+k, n+w, n+w) := by
  induction k generalizing i with
  | zero => exact ping_receives f 0 w (le_refl w)
  | succ k ih =>
    obtain ⟨hp, hc⟩ := ih (i+1) (by omega)
    simp only [loop, List.cons_append, List.nil_append, Always, PingAt, counts_send,
      hc, true_and]
    exact ⟨⟨by omega, hp⟩, rfl⟩

theorem pong_rounds (f : ℕ → μ) (i k : ℕ) (hk : k ≤ n) :
    Always (PongAt w n) (loop (fun i => [.receive none, .send (f i), .free]) i k) ∧
      counts (loop (fun i => [Op.receive none, .send (f i), .free]) i k) = (k, k, k) := by
  induction k generalizing i with
  | zero => exact ⟨trivial, rfl⟩
  | succ k ih =>
    obtain ⟨hp, hc⟩ := ih (i+1) (by omega)
    simp only [loop, List.cons_append, List.nil_append, Always, PongAt, counts_send, counts_receive,
      counts_free, hc, and_true, true_and]
    exact ⟨by omega, by omega, hp⟩

theorem pong_sends (f : ℕ → μ) (buf : μ) (i k : ℕ) (hk : k ≤ w) :
    Always (PongAt w n) (loop (fun _ => [.send buf]) i k++
      loop (fun i => [.receive none, .send (f i), .free]) 0 n) ∧
    counts (loop (fun _ => [Op.send buf]) i k++
      loop (fun i => [Op.receive none, .send (f i), .free]) 0 n) = (n+k, n, n) := by
  induction k generalizing i with
  | zero => exact pong_rounds f 0 n (le_refl n)
  | succ k ih =>
    obtain ⟨hp, hc⟩ := ih (i+1) (by omega)
    simp only [loop, List.cons_append, List.nil_append, Always, PongAt, counts_send,
      hc, and_true]
    exact ⟨⟨by omega, hp⟩, rfl⟩

theorem pong_receives (f : ℕ → μ) (buf : μ) (i k : ℕ) (hk : k ≤ w) :
    Always (PongAt w n) (loop (fun _ => [.receive none, .free]) i k++
      (loop (fun _ => [.send buf]) 0 w++loop (fun i => [.receive none, .send (f i), .free]) 0 n)) ∧
    counts (loop (fun _ => [Op.receive none, .free]) i k++(loop (fun _ => [Op.send buf]) 0 w++
      loop (fun i => [Op.receive none, .send (f i), .free]) 0 n)) = (n+w, n+k, n+k) := by
  induction k generalizing i with
  | zero => exact pong_sends f buf 0 w (le_refl w)
  | succ k ih =>
    obtain ⟨hp, hc⟩ := ih (i+1) (by omega)
    simp only [loop, List.cons_append, List.nil_append, Always, PongAt, counts_receive, counts_free,
      hc, true_and]
    exact ⟨⟨by omega, hp⟩, rfl⟩

theorem ping_or_pong (cap : ℕ) (hcap : 1 ≤ cap) (l r : List (Op μ)) (hl : PingAt w n l)
    (hr : PongAt w n r) (h1 : (counts l).1 ≤ (counts r).2.1) (h2 : (counts r).1 ≤ (counts l).2.1)
    (hne : l ≠ [] ∨ r ≠ []) : CanGo cap l r ∨ CanGo cap r l := by
  cases l with
  | nil =>
    cases r with
    | nil => simp at hne
    | cons q r =>
      cases q <;>
        simp only [PongAt, CanGo, counts_nil, counts_send, counts_receive, counts_free] at * <;>
        omega
  | cons p l =>
    cases p <;> cases r with
    | nil => simp only [PingAt, CanGo, counts_nil, counts_send, counts_receive, counts_free] at *; omega
    | cons q r =>
      cases q <;> simp only [PingAt, PongAt, CanGo, counts_send, counts_receive, counts_free] at * <;>
        omega

end Ping

section Contents

variable {μ : Type*}

def Unchecked (l : List (Op μ)) : Prop := ∀ op ∈ l, ∀ e, op ≠ .receive (some e)

theorem Unchecked.append {l r : List (Op μ)} (hl : Unchecked l) (hr : Unchecked r) :
    Unchecked (l++r) := by
  intro op hop
  rcases List.mem_append.mp hop with hop | hop
  · exact hl op hop
  · exact hr op hop

theorem unchecked_loop {body : ℕ → List (Op μ)} (h : ∀ i, Unchecked (body i)) (i k : ℕ) :
    Unchecked (loop body i k) := by
  induction k generalizing i with
  | zero => exact fun op hop => nomatch hop
  | succ k ih => exact (h i).append (ih (i+1))

theorem unchecked_rounds {f g h : ℕ → List (Op μ)} (hf : ∀ i, Unchecked (f i))
    (hg : ∀ i, Unchecked (g i)) (hh : ∀ i, Unchecked (h i)) (w n : ℕ) :
    Unchecked (loop f 0 w++(loop g 0 w++loop h 0 n)) :=
  (unchecked_loop hf 0 w).append ((unchecked_loop hg 0 w).append (unchecked_loop hh 0 n))

theorem Unchecked.agrees {r : List (Op μ)} (h : Unchecked r) (l : List (Op μ)) : Agrees l r := by
  intro k e m he _
  obtain ⟨op, hop, hexp⟩ := List.mem_filterMap.mp (List.mem_of_getElem? he)
  cases op with
  | send m => cases hexp
  | free => cases hexp
  | receive expected =>
    obtain rfl := Option.some.inj hexp
    exact absurd rfl (h _ hop e)

theorem messages_loop (f : ℕ → μ) (i k : ℕ) :
    messages (loop (fun i => [Op.send (f i)]) i k) = (List.range' i k).map f := by
  induction k generalizing i with
  | zero => rfl
  | succ k ih => exact congrArg (f i::·) (ih (i+1))

theorem expectations_loop (f : ℕ → Option μ) (i k : ℕ) :
    expectations (loop (fun i => [Op.receive (f i), .free]) i k) = (List.range' i k).map f := by
  induction k generalizing i with
  | zero => rfl
  | succ k ih => exact congrArg (f i::·) (ih (i+1))

theorem lat_agrees (buf : μ) (f e : ℕ → μ) (w n : ℕ) (hf : ∀ i < n, e i = f i) : Agrees
    (loop (fun _ => [Op.send buf]) 0 w++loop (fun i => [.send (f i)]) 0 n)
    (loop (fun _ => [Op.receive none, .free]) 0 w++
      loop (fun i => [.receive (some (e i)), .free]) 0 n) := by
  intro k x m he hm
  simp only [messages, expectations, List.filterMap_append] at he hm
  have hme := expectations_loop (fun i => some (e i)) 0 n
  have hmm := messages_loop f 0 n
  have hwe := expectations_loop (fun _ => (none : Option μ)) 0 w
  have hwm := messages_loop (fun _ => buf) 0 w
  simp only [messages, expectations] at hme hmm hwe hwm
  rw [hme, hwe] at he
  rw [hmm, hwm] at hm
  rcases Nat.lt_or_ge k w with hk | hk
  · rw [List.getElem?_append_left (by simpa using hk)] at he
    simp [hk] at he
  · rw [List.getElem?_append_right (by simpa using hk)] at he hm
    simp only [List.length_map, List.length_range', List.getElem?_map, Option.map_eq_some_iff,
      Option.some.injEq] at he hm
    obtain ⟨y, hy, rfl⟩ := he
    obtain ⟨z, hz, rfl⟩ := hm
    obtain rfl := Option.some.inj (hy.symm.trans hz)
    have hlt := (List.getElem?_eq_some_iff.mp hy).1
    rw [List.length_range'] at hlt
    rw [List.getElem?_range' hlt, Option.some.injEq] at hy
    exact hf y (by omega)

end Contents

section OneWay

variable {μ : Type*}

def SenderAt (l : List (Op μ)) : Prop := (counts l).2 = (0, 0)

def ReceiverAt (l : List (Op μ)) : Prop :=
  match l with
  | [] => True
  | .send _::_ => False
  | .receive _::_ => counts l = (0, (counts l).2.1, (counts l).2.1)
  | .free::_ => counts l = (0, (counts l).2.1, (counts l).2.1+1)

theorem SenderAt.unchecked {l : List (Op μ)} (h : SenderAt l) : Unchecked l := by
  rintro op hop e rfl
  have hmem : some e ∈ expectations l := List.mem_filterMap.mpr ⟨_, hop, rfl⟩
  have hlen : (expectations l).length = 0 := congrArg Prod.fst h
  rw [List.length_eq_zero_iff.mp hlen] at hmem
  cases hmem

theorem sender_loop (f : ℕ → μ) (i k n : ℕ) (tail : List (Op μ)) (ht : Always SenderAt tail)
    (hc : counts tail = (n, 0, 0)) : Always SenderAt (loop (fun i => [.send (f i)]) i k++tail) ∧
      counts (loop (fun i => [.send (f i)]) i k++tail) = (n+k, 0, 0) := by
  induction k generalizing i with
  | zero => exact ⟨ht, hc⟩
  | succ k ih =>
    obtain ⟨hp, hk⟩ := ih (i+1)
    simp only [loop, List.cons_append, List.nil_append, Always, SenderAt, counts_send, hk,
      true_and]
    exact ⟨hp, rfl⟩

theorem receiver_loop (f : ℕ → Option μ) (i k n : ℕ) (tail : List (Op μ))
    (ht : Always ReceiverAt tail) (hc : counts tail = (0, n, n)) :
    Always ReceiverAt (loop (fun i => [.receive (f i), .free]) i k++tail) ∧
      counts (loop (fun i => [.receive (f i), .free]) i k++tail) = (0, n+k, n+k) := by
  induction k generalizing i with
  | zero => exact ⟨ht, hc⟩
  | succ k ih =>
    obtain ⟨hp, hk⟩ := ih (i+1)
    simp only [loop, List.cons_append, List.nil_append, Always, ReceiverAt, counts_receive, counts_free,
      hk, true_and]
    exact ⟨hp, rfl⟩

theorem sender_or_receiver (cap : ℕ) (hcap : 1 ≤ cap) (l r : List (Op μ)) (hl : SenderAt l)
    (hr : ReceiverAt r) (hle : (counts l).1 ≤ (counts r).2.1) (hne : l ≠ [] ∨ r ≠ []) :
    CanGo cap l r ∨ CanGo cap r l := by
  cases r with
  | nil =>
    cases l with
    | nil => simp at hne
    | cons op l =>
      cases op <;> simp [SenderAt] at hl hle
  | cons q r =>
    cases q with
    | send m => exact hr.elim
    | free =>
      simp only [ReceiverAt, CanGo, counts_free, Prod.mk.injEq] at *
      omega
    | receive e =>
      cases l with
      | nil =>
        simp only [CanGo, counts_nil, counts_receive] at *
        omega
      | cons op l =>
        cases op <;> simp only [SenderAt, ReceiverAt, CanGo, counts_send, counts_receive, counts_free,
          Prod.mk.injEq] at *
        · omega
        · omega
        · omega

end OneWay

theorem testWarmupSend_eq (count : ℕ) (buf : ℤ) : testWarmupSend (count/4) buf =
    if 4 ≤ count then some (loop (fun _ => [.send buf]) 0 (count/4)) else none := by
  unfold testWarmupSend Bench.nanodelay
  by_cases hc : 4 ≤ count
  · rw [if_neg (by omega), if_pos hc, Option.map_some]
  · rw [if_pos (by omega), if_neg hc, Option.map_none]

/-- Sender and receiver come to their end exactly if both are given one count, and then no
message is reported as wrong: its four bytes or more carry the number. -/
theorem latency_ends (cap sent received size : ℕ) (behind : ℕ → List UInt8) (buf : ℤ)
    (hcap : 1 ≤ cap) (hs : 4 ≤ sent) (hint : sent < 2^31) (hsize : 4 ≤ size) :
    ∃ l, testLatSend size behind sent buf = some l ∧
      (Ends cap l (testLatRecv received) ↔ sent = received) ∧
      (sent = received → ∀ es s, run (step cap) es (start l (testLatRecv received)) = some s →
        error s.right = none) := by
  -- the counted messages, and behind them the warm-up
  obtain ⟨hpl, hcl⟩ := sender_loop (fun i => carried size (behind i) i) 0 sent 0 [] rfl rfl
  obtain ⟨hpl, hcl⟩ := sender_loop (fun _ => buf) 0 (sent/4) _ _ hpl hcl
  obtain ⟨hpr, hcr⟩ := receiver_loop (fun i => some (i : ℤ)) 0 received 0 [] trivial rfl
  obtain ⟨hpr, hcr⟩ := receiver_loop (fun _ => none) 0 (received/4) _ _ hpr hcr
  rw [List.append_nil] at hpl hcl hpr hcr
  have hends : sent = received → Ends cap
      (loop (fun _ => [.send buf]) 0 (sent/4)++
        loop (fun i => [.send (carried size (behind i) i)]) 0 sent)
      (testLatRecv received) := by
    rintro rfl
    have hnum : ∀ i < sent, (i : ℤ) = carried size (behind i) i :=
      fun i hi => (carried_eq size (behind i) i hsize (by omega)).symm
    refine ends_of_progress ?_ ?_ (lat_agrees buf _ _ (sent/4) sent hnum)
      (SenderAt.unchecked ?_ |>.agrees _) ?_
    · rw [Settles, hcl, testLatRecv, testWarmupReceive, hcr]
      exact ⟨rfl, rfl⟩
    · rw [Settles, hcl, testLatRecv, testWarmupReceive, hcr]
      exact ⟨rfl, rfl⟩
    · rw [SenderAt, hcl]
    · intro l r hl hr hle _ hne
      exact sender_or_receiver cap hcap l r (always_suffix hpl hl) (always_suffix hpr hr) hle hne
  refine ⟨_, by rw [testLatSend, testWarmupSend_eq, if_pos hs, Option.map_some],
    ⟨fun h => ?_, hends⟩, ?_⟩
  · obtain ⟨hb, -⟩ := h.settles.1
    rw [hcl, testLatRecv, testWarmupReceive, hcr] at hb
    simp only at hb
    omega
  · intro heq es s hrun
    rw [error, (hends heq es s hrun).2.1, Option.map_none]

theorem latency_ends_eight :
    ∃ l, testLatSend 64 (fun _ => []) 8 7 = some l ∧ (Ends 1 l (testLatRecv 8) ↔ 8 = 8) ∧
      (8 = 8 → ∀ es s, run (step 1) es (start l (testLatRecv 8)) = some s →
        error s.right = none) :=
  latency_ends 1 8 8 64 _ 7 (by decide) (by decide) (by decide) (by decide)

end KYM.LatencyBench
