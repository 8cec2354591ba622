import KnowYourMemory.LatencyBench
import Mathlib.Data.Finset.Range

/-!
# The windows of the bandwidth benchmark

The senders of the benchmark keep a number of messages under way, each in a slot that has
send regions of its own. A slot is used again when its last send was waited for. Against a
receiver that frees what it takes, both sides come to their end if the numbers agree.
-/

set_option autoImplicit false

namespace KYM.BandwidthBench
open KYM.Run KYM.Bench KYM.LatencyBench
open KYM.Exchange (Op Ends Always CanGo counts)

def claim (busy : Finset ℕ) : Call → Option (Finset ℕ)
  | .send _ => if 0 ∈ busy then none else some busy
  | .sendAsync _ j => if j ∈ busy then none else some (insert j busy)
  | .wait j => if j ∈ busy then some (busy.erase j) else none
  | .receive | .free => some busy

/-- A call for a slot of the window. -/
def Within (u : ℕ) : Call → Prop
  | .sendAsync _ j => j < u
  | .send _ | .wait _ | .receive | .free => True

def script (number : ℕ → ℕ → ℕ) : List Call → List (Op ℕ)
  | [] => []
  | .send m::cs => ((List.range m).map (number cs.length)).map .send++script number cs
  | .sendAsync m _::cs => ((List.range m).map (number cs.length)).map .send++script number cs
  | .wait _::cs => script number cs
  | .receive::cs => .receive none::script number cs
  | .free::cs => .free::script number cs

section Windows

variable {m u : ℕ}

theorem run_warmup (i k : ℕ) : run claim (Bench.loop (fun _ => [.send m]) i k) ∅ = some ∅ := by
  induction k generalizing i with
  | zero => rfl
  | succ k ih =>
    rw [Bench.loop, List.singleton_append]
    simp only [run, claim, Finset.notMem_empty, if_false, Option.bind_some]
    exact ih (i+1)

theorem run_fill (i k : ℕ) : run claim (Bench.loop (fun j => [.sendAsync m j]) i k) (Finset.range i) =
    some (Finset.range (i+k)) := by
  induction k generalizing i with
  | zero => rfl
  | succ k ih =>
    rw [Bench.loop, List.singleton_append]
    simp only [run, claim, Finset.mem_range, Nat.lt_irrefl, if_false, Option.bind_some,
      ← Finset.range_add_one]
    rw [ih (i+1), Nat.add_right_comm, Nat.add_assoc]

theorem run_turns (hu : 1 ≤ u) (i k : ℕ) :
    run claim (Bench.loop (fun j => [.wait (j%u), .sendAsync m (j%u)]) i k) (Finset.range u) =
      some (Finset.range u) := by
  induction k generalizing i with
  | zero => rfl
  | succ k ih =>
    have hmem : i%u ∈ Finset.range u := Finset.mem_range.mpr (Nat.mod_lt i hu)
    rw [Bench.loop, List.cons_append, List.singleton_append]
    simp only [run, claim, hmem, if_true, Option.bind_some, Finset.notMem_erase, if_false,
      Finset.insert_erase]
    exact ih (i+1)

theorem run_drain (i k : ℕ) : run claim (Bench.loop (fun j => [.wait j]) i k) (Finset.Ico i (i+k)) =
    some ∅ := by
  induction k generalizing i with
  | zero => simp [Bench.loop, run]
  | succ k ih =>
    have hmem : i ∈ Finset.Ico i (i+(k+1)) := Finset.mem_Ico.mpr ⟨le_refl i, by omega⟩
    have hrest : (Finset.Ico i (i+(k+1))).erase i = Finset.Ico (i+1) (i+1+k) := by
      ext j
      simp only [Finset.mem_erase, Finset.mem_Ico]
      omega
    rw [Bench.loop, List.singleton_append]
    simp only [run, claim, hmem, if_true, Option.bind_some, hrest]
    exact ih (i+1)

theorem within_loop {body : ℕ → List Call} {i k : ℕ}
    (h : ∀ j, i ≤ j → j < i+k → ∀ c ∈ body j, Within u c) : ∀ c ∈ Bench.loop body i k, Within u c := by
  induction k generalizing i with
  | zero => exact fun c hc => nomatch hc
  | succ k ih =>
    intro c hc
    rcases List.mem_append.mp hc with hc | hc
    · exact h i (le_refl i) (by omega) c hc
    · exact ih (fun j hj hk => h j (by omega) (by omega)) c hc

def window (m u warmup turns : ℕ) : List Call :=
  Bench.loop (fun _ => [.send 1]) 0 warmup++Bench.loop (fun i => [.sendAsync m i]) 0 u++
    Bench.loop (fun i => [.wait (i%u), .sendAsync m (i%u)]) u turns

theorem run_window (hu : 1 ≤ u) (warmup turns : ℕ) :
    run claim (window m u warmup turns) ∅ = some (Finset.range u) := by
  have hfill := run_fill (m := m) 0 u
  rw [Finset.range_zero, Nat.zero_add] at hfill
  rw [window, run_append, run_append, run_warmup, Option.bind_some, hfill, Option.bind_some,
    run_turns hu]

theorem within_window (hu : 1 ≤ u) (warmup turns : ℕ) :
    ∀ c ∈ window m u warmup turns, Within u c := by
  intro c hc
  rcases List.mem_append.mp hc with hc | hc
  · rcases List.mem_append.mp hc with hc | hc
    · exact within_loop (fun _ _ _ c hc => by rw [List.mem_singleton.mp hc]; trivial) c hc
    · refine within_loop (fun j _ hj c hc => ?_) c hc
      rw [List.mem_singleton.mp hc]
      exact (Nat.zero_add u) ▸ hj
  · refine within_loop (fun j _ _ c hc => ?_) c hc
    simp only [List.mem_cons, List.not_mem_nil, or_false] at hc
    rcases hc with rfl | rfl
    · trivial
    · exact Nat.mod_lt j hu

theorem prefix_within {cs es : List Call} {s : Finset ℕ} (hr : run claim cs ∅ = some s)
    (hcs : ∀ c ∈ cs, Within u c) (hes : es <+: cs) :
    ∃ busy, run claim es ∅ = some busy ∧ busy ⊆ Finset.range u := by
  obtain ⟨fs, rfl⟩ := hes
  rw [run_append] at hr
  obtain ⟨busy, hbusy, -⟩ := Option.bind_eq_some_iff.mp hr
  refine ⟨busy, hbusy, ?_⟩
  refine run_keeps claim (fun _ => Within u) (· ⊆ Finset.range u) ?_ es ∅ busy (Finset.empty_subset _)
    (meets_of_forall _ _ es (fun c hc _ => hcs c (List.mem_append_left _ hc)) _) hbusy
  intro s c t hs hc ht
  cases c with
  | sendAsync m j =>
    rw [claim, Option.ite_none_left_eq_some] at ht
    obtain rfl := Option.some.inj ht.2
    exact Finset.insert_subset (Finset.mem_range.mpr hc) hs
  | wait j =>
    rw [claim, Option.ite_none_right_eq_some] at ht
    obtain rfl := Option.some.inj ht.2
    exact (Finset.erase_subset _ _).trans hs
  | send m =>
    rw [claim, Option.ite_none_left_eq_some] at ht
    exact Option.some.inj ht.2 ▸ hs
  | receive => exact Option.some.inj ht ▸ hs
  | free => exact Option.some.inj ht ▸ hs

end Windows

theorem testBwSend_calls (count unack : ℕ) (hc : 16 ≤ count) : testBwSend count unack =
    .calls (window 1 unack (count/16) (count-unack)++Bench.loop (fun i => [.wait i]) 0 unack) := by
  have hdiv : count/16 ≠ 0 := by omega
  rw [testBwSend, Bench.testWarmupSend, Bench.nanodelay, if_neg hdiv]
  rfl

theorem testBwBatchSend_calls (count batch unack : ℕ) (hu : unack ≤ count) (hb : 1 ≤ batch)
    (hbu : batch ≤ unack) : testBwBatchSend count batch unack =
    .calls (window batch (unack/batch) (count/16) (count/batch-unack/batch)) := by
  rw [testBwBatchSend, if_neg (by omega), if_neg (by omega), if_neg (by omega)]
  rfl

/-- No slot is sent from before its last send was waited for, and the window is never
exceeded. At the end `test_bw_send` has waited for everything, `test_bw_batch_send` for
everything but the last window. -/
theorem windows_kept (count batch unack : ℕ) (hc : 16 ≤ count) (hu : 1 ≤ unack ∧ unack ≤ count)
    (hb : 1 ≤ batch ∧ batch ≤ unack) :
    (∃ cs, testBwSend count unack = .calls cs ∧ run claim cs ∅ = some ∅ ∧
      ∀ es, es <+: cs → ∃ busy, run claim es ∅ = some busy ∧ busy ⊆ Finset.range unack) ∧
    ∃ cs, testBwBatchSend count batch unack = .calls cs ∧
      run claim cs ∅ = some (Finset.range (unack/batch)) ∧
      ∀ es, es <+: cs → ∃ busy, run claim es ∅ = some busy ∧ busy ⊆ Finset.range (unack/batch) := by
  have hwin : 1 ≤ unack/batch := Nat.div_pos hb.2 hb.1
  constructor
  · have hdrain := run_drain 0 unack
    rw [Nat.zero_add, ← Finset.range_eq_Ico] at hdrain
    have hrun : run claim (window 1 unack (count/16) (count-unack)++
        Bench.loop (fun i => [.wait i]) 0 unack) ∅ = some ∅ := by
      rw [run_append, run_window hu.1, Option.bind_some, hdrain]
    refine ⟨_, testBwSend_calls count unack hc, hrun, fun es hes => prefix_within hrun ?_ hes⟩
    intro c hmem
    rcases List.mem_append.mp hmem with hmem | hmem
    · exact within_window hu.1 _ _ c hmem
    · exact within_loop (fun _ _ _ c hc => by rw [List.mem_singleton.mp hc]; trivial) c hmem
  · have hrun := run_window (m := batch) hwin (count/16) (count/batch-unack/batch)
    exact ⟨_, testBwBatchSend_calls count batch unack hu.2 hb.1 hb.2, hrun,
      fun es hes => prefix_within hrun (within_window hwin _ _) hes⟩

theorem windows_kept_four :
    (∃ cs, testBwSend 16 4 = .calls cs ∧ run claim cs ∅ = some ∅ ∧
      ∀ es, es <+: cs → ∃ busy, run claim es ∅ = some busy ∧ busy ⊆ Finset.range 4) ∧
    ∃ cs, testBwBatchSend 16 2 4 = .calls cs ∧ run claim cs ∅ = some (Finset.range (4/2)) ∧
      ∀ es, es <+: cs → ∃ busy, run claim es ∅ = some busy ∧ busy ⊆ Finset.range (4/2) :=
  windows_kept 16 2 4 (by decide) (by decide) (by decide)

section Ends

theorem sends_always (ms : List ℕ) (l : List (Op ℕ)) (n : ℕ) (h : Always SenderAt l)
    (hc : counts l = (n, 0, 0)) :
    Always SenderAt (ms.map Op.send++l) ∧ counts (ms.map Op.send++l) = (ms.length+n, 0, 0) := by
  induction ms with
  | nil => exact ⟨h, by rw [List.length_nil, Nat.zero_add]; exact hc⟩
  | cons m ms ih =>
    obtain ⟨hp, hm⟩ := ih
    rw [List.map_cons, List.cons_append, Always, SenderAt, Exchange.counts_send, hm, List.length_cons,
      Nat.add_right_comm]
    exact ⟨⟨rfl, hp⟩, rfl⟩

theorem script_sends (number : ℕ → ℕ → ℕ) (cs : List Call) (h : ∀ c ∈ cs, c ≠ .receive ∧ c ≠ .free) :
    Always SenderAt (script number cs) ∧
      counts (script number cs) = (Bench.total Call.sent cs, 0, 0) := by
  induction cs with
  | nil => exact ⟨rfl, rfl⟩
  | cons c cs ih =>
    obtain ⟨hp, hc⟩ := ih (fun c hc => h c (List.mem_cons_of_mem _ hc))
    rw [Bench.total_cons]
    cases c with
    | send m =>
      have hsends := sends_always ((List.range m).map (number cs.length)) _ _ hp hc
      rwa [List.length_map, List.length_range] at hsends
    | sendAsync m j =>
      have hsends := sends_always ((List.range m).map (number cs.length)) _ _ hp hc
      rwa [List.length_map, List.length_range] at hsends
    | wait j => exact ⟨hp, by simp only [Call.sent, Nat.zero_add]; exact hc⟩
    | receive => exact absurd rfl (h _ List.mem_cons_self).1
    | free => exact absurd rfl (h _ List.mem_cons_self).2

theorem script_receives (number : ℕ → ℕ → ℕ) (i k : ℕ) (cs : List Call) :
    script number (Bench.loop (fun _ => [.receive, .free]) i k++cs) =
      Exchange.loop (fun _ => [.receive none, .free]) i k++script number cs := by
  induction k generalizing i with
  | zero => rfl
  | succ k ih => exact congrArg (fun l => Op.receive none::.free::l) (ih (i+1))

theorem mem_loop {body : ℕ → List Call} {c : Call} (i k : ℕ) (h : c ∈ Bench.loop body i k) :
    ∃ j, c ∈ body j := by
  induction k generalizing i with
  | zero => cases h
  | succ k ih =>
    rcases List.mem_append.mp h with h | h
    · exact ⟨i, h⟩
    · exact ih (i+1) h

theorem window_sends (m u warmup turns : ℕ) :
    ∀ c ∈ window m u warmup turns, c ≠ .receive ∧ c ≠ .free := by
  intro c hc
  rcases List.mem_append.mp hc with hc | hc
  · rcases List.mem_append.mp hc with hc | hc
    · obtain ⟨j, hj⟩ := mem_loop _ _ hc
      rw [List.mem_singleton.mp hj]
      simp
    · obtain ⟨j, hj⟩ := mem_loop _ _ hc
      rw [List.mem_singleton.mp hj]
      simp
  · obtain ⟨j, hj⟩ := mem_loop _ _ hc
    simp only [List.mem_cons, List.not_mem_nil, or_false] at hj
    rcases hj with rfl | rfl <;> simp

theorem receives (number : ℕ → ℕ → ℕ) (count : ℕ) (rs : List Call) (h : testBwRecv count = .calls rs) :
    Always ReceiverAt (script number rs) ∧
      counts (script number rs) = (0, count/16+count, count/16+count) ∧
      Unchecked (script number rs) := by
  rw [testBwRecv] at h
  split at h
  · cases h
  · obtain rfl := Outcome.calls.inj h
    have hcount := script_receives number 0 count []
    rw [List.append_nil] at hcount
    rw [Bench.testWarmupReceive, script_receives, hcount]
    obtain ⟨hp, hc⟩ := receiver_loop (fun _ => none) 0 count 0 [] trivial rfl
    obtain ⟨hp, hc⟩ := receiver_loop (fun _ => none) 0 (count/16) _ _ hp hc
    rw [Nat.zero_add, Nat.add_comm] at hc
    exact ⟨hp, hc, (unchecked_loop (fun _ => by simp [Unchecked]) _ _).append
      ((unchecked_loop (fun _ => by simp [Unchecked]) _ _).append (by simp [script, Unchecked]))⟩

theorem ends_iff (sent received : ℕ → ℕ → ℕ) (cap count : ℕ) (hcap : 1 ≤ cap) (cs rs : List Call)
    (hcs : ∀ c ∈ cs, c ≠ .receive ∧ c ≠ .free) (hrs : testBwRecv count = .calls rs) :
    Ends cap (script sent cs) (script received rs) ↔ Bench.total Call.sent cs = count/16+count := by
  obtain ⟨hpl, hcl⟩ := script_sends sent cs hcs
  obtain ⟨hpr, hcr, hun⟩ := receives received count rs hrs
  constructor
  · intro h
    obtain ⟨hb, -⟩ := h.settles.1
    rw [hcl, hcr] at hb
    exact hb
  · intro htotal
    refine Exchange.ends_of_progress ?_ ?_ (hun.agrees _) (SenderAt.unchecked ?_ |>.agrees _) ?_
    · rw [Exchange.Settles, hcl, hcr, htotal]
      exact ⟨rfl, rfl⟩
    · rw [Exchange.Settles, hcl, hcr]
      exact ⟨rfl, rfl⟩
    · rw [SenderAt, hcl]
    · intro l r hl hr hle _ hne
      exact sender_or_receiver cap hcap l r (Exchange.always_suffix hpl hl)
        (Exchange.always_suffix hpr hr) hle hne

end Ends

end KYM.BandwidthBench
