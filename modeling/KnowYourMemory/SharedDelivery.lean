import KnowYourMemory.SharedDelivery.System

/-!
# Delivery over the shared ring

Any number of connections write into the ring of one instance. A message carries the bytes of
its region, which is left alone until the write has completed.
-/

set_option autoImplicit false

namespace KYM.SharedDelivery
open KYM.Run KYM.Circle KYM.MagicMemory KYM.RingOffsets KYM.WriteAtomic KYM.SharedWrite
open KYM.SharedSafety KYM.Mailbox
open KYM.RingBuffer (ReceiveRegion)

section Steps

variable {bufAddr : UInt64} {bufSize : UInt32} {s t : System}

theorem init_sound (bufAddr : UInt64) (bufSize : UInt32) (useDm : Bool) (ring : ℕ → UInt8) :
    Sound bufAddr bufSize (init bufAddr bufSize useDm ring) where
  safe := init_safe bufAddr bufSize useDm
  distinct := List.nodup_nil
  sending _ _ h := by cases h
  flight _ h := by cases h
  rcvCq _ h := by cases h
  held _ h := by cases h

theorem Sound.keep (h : Sound bufAddr bufSize s) (shared : Shared) (sending : ℕ → List UInt8)
    (hsafe : Safe bufAddr bufSize shared)
    (hsending : ∀ i len, (shared.conns i).pending = some len → (sending i).length = len.toNat)
    (hmsgs : ∀ (k : ℕ) (m : Message), s.shared.msgs[k]? = some m →
      (∀ i, m.progress ≠ .reserved i) → shared.msgs[k]? = some m) :
    Sound bufAddr bufSize { s with shared := shared, sending := sending } := by
  refine ⟨hsafe, h.distinct, hsending, fun w hw => ?_, fun wc hwc => ?_, fun x hx => ?_⟩
  · obtain ⟨start, len, hk, hrest⟩ := h.flight w hw
    exact ⟨start, len, hmsgs _ _ hk (by simp), hrest⟩
  · obtain ⟨start, hk⟩ := h.rcvCq wc hwc
    exact ⟨start, hmsgs _ _ hk (by simp)⟩
  · obtain ⟨start, hk, hrest⟩ := h.held x hx
    exact ⟨start, hmsgs _ _ hk (by simp), hrest⟩

theorem sendAsync_sound (h : Sound bufAddr bufSize s) (i : ℕ) (m : List UInt8)
    (hc : Careful s (.sendAsync i m)) (hs : sendAsync s i m = some t) :
    Sound bufAddr bufSize t ∧ ∀ a, Shows (ring bufSize.toNat) (fun _ => ()) (s.transport bufAddr) a →
      ∃ b, run Mailbox.step (calls s (.sendAsync i m)) a = some b ∧
        Shows (ring bufSize.toNat) (fun _ => ()) (t.transport bufAddr) b := by
  unfold sendAsync at hs
  split at hs
  case isFalse => cases hs
  next hlt =>
  obtain ⟨shared, hshared, rfl⟩ := Option.map_eq_some_iff.mp hs
  have hlen : (UInt32.ofNat m.length).toNat = m.length := UInt32.toNat_ofNat_of_lt' hlt
  have hsafe := reserve_safe h.safe i _ (by rw [hlen]; exact hc) hshared
  obtain ⟨hp, -, rfl⟩ := reserve_views hshared
  refine ⟨h.keep _ _ hsafe (fun j len hj => ?_) (fun k n hk _ => ?_), fun a ha => ?_⟩
  · by_cases hji : j = i
    · subst hji
      simp only [Function.update_self, Option.some.injEq] at hj ⊢
      rw [← hj, hlen]
    · simp only [Function.update_of_ne hji] at hj ⊢
      exact h.sending j len hj
  · exact (List.getElem?_append_left (List.getElem?_eq_some_iff.mp hk).1).trans hk
  · obtain ⟨b, hb, hshows⟩ := ha.send i m
    refine ⟨b, by simpa [calls, run] using hb, ?_⟩
    have hcarried : System.carried { s with
        shared := { s.shared with
          tail := s.shared.tail+(UInt32.ofNat m.length).toUInt64
          conns := Function.update s.shared.conns i { s.shared.conns i with
            tail := s.shared.tail, pending := some (UInt32.ofNat m.length) }
          msgs := s.shared.msgs++[⟨s.shared.tail, UInt32.ofNat m.length, .reserved i⟩] }
        sending := Function.update s.sending i m } =
        Function.update s.carried i (s.carried i++[m]) := by
      funext j
      by_cases hji : j = i
      · subst hji
        simp [System.carried, hp]
      · simp [System.carried, Function.update_of_ne hji]
    unfold System.transport
    rw [hcarried]
    exact hshows

theorem readHead_sound (h : Sound bufAddr bufSize s) (i : ℕ) (head : UInt64)
    (hs : step s (.readHead i head) = some t) :
    Sound bufAddr bufSize t ∧ t.transport bufAddr = s.transport bufAddr := by
  obtain ⟨shared, hshared, rfl⟩ := Option.map_eq_some_iff.mp hs
  have hsafe := readHead_safe h.safe i head hshared
  obtain ⟨-, rfl⟩ := readHead_views hshared
  have hpending : ∀ j, (Function.update s.shared.conns i { s.shared.conns i with head := head } j).pending =
      (s.shared.conns j).pending := by
    intro j
    by_cases hji : j = i
    · subst hji
      rw [Function.update_self]
    · rw [Function.update_of_ne hji]
  refine ⟨h.keep _ s.sending hsafe (fun j len hj => ?_) (fun k n hk _ => hk), ?_⟩
  · exact h.sending j len ((hpending j).symm.trans hj)
  · unfold System.transport
    congr 1
    funext j
    simp only [System.carried, hpending]

theorem write_found (h : Sound bufAddr bufSize s) (i : ℕ) (len : UInt32)
    (hp : (s.shared.conns i).pending = some len) :
    s.shared.msgs[(s.write i).number]? = some ⟨(s.shared.conns i).tail, len, .reserved i⟩ := by
  have hmem := h.safe.pending i len hp
  have hlt : (s.write i).number < s.shared.msgs.length :=
    List.findIdx_lt_length_of_exists ⟨_, hmem, by simp⟩
  obtain ⟨m, hm⟩ : ∃ m, s.shared.msgs[(s.write i).number]? = some m :=
    ⟨_, List.getElem?_eq_getElem hlt⟩
  have hres : m.progress = .reserved i := by
    obtain ⟨_, rfl⟩ := List.getElem?_eq_some_iff.mp hm
    exact of_decide_eq_true (List.findIdx_getElem (w := hlt))
  have hpl := h.safe.placed m (List.mem_of_getElem? hm)
  simp only [Placed, hres, hp, Option.some.injEq] at hpl
  rw [hm, hpl.1, hpl.2, ← hres]

theorem numbers_msgs (h : Sound bufAddr bufSize s) (k : ℕ) (hk : k ∈ s.numbers) :
    ∃ m, s.shared.msgs[k]? = some m ∧ ∀ i, m.progress ≠ .reserved i := by
  simp only [System.numbers, List.mem_append, List.mem_map] at hk
  rcases hk with (⟨w, hw, rfl⟩ | ⟨wc, hwc, rfl⟩) | ⟨x, hx, rfl⟩
  · obtain ⟨start, len, hk, -⟩ := h.flight w hw
    exact ⟨_, hk, by simp⟩
  · obtain ⟨start, hk⟩ := h.rcvCq wc hwc
    exact ⟨_, hk, by simp⟩
  · obtain ⟨start, hk, -⟩ := h.held x hx
    exact ⟨_, hk, by simp⟩

theorem post_sound (h : Sound bufAddr bufSize s) (i : ℕ) (hs : post s i = some t) :
    Sound bufAddr bufSize t ∧ t.transport bufAddr = s.transport bufAddr := by
  obtain ⟨shared, hshared, rfl⟩ := Option.map_eq_some_iff.mp hs
  have hsafe := post_safe h.safe i hshared
  obtain ⟨len, hp, -, rfl⟩ := post_views hshared
  have hfound := write_found h i len hp
  have hkeep := h.keep _ s.sending hsafe (fun j n hj => ?_) (fun k m hk hm => ?_)
  · have hnew : (s.write i).number ∉ s.numbers := by
      intro hmem
      obtain ⟨m, hm, hres⟩ := numbers_msgs h _ hmem
      rw [hfound] at hm
      obtain rfl := Option.some.inj hm
      exact hres i rfl
    refine ⟨⟨hsafe, ?_, hkeep.sending, fun w hw => ?_, hkeep.rcvCq, hkeep.held⟩, ?_⟩
    · have hperm : ((s.flight++[s.write i]).map Write.number++s.rcvCq.map Wc.number++
          s.held.map Held.number).Perm ((s.write i).number::s.numbers) := by
        refine List.perm_iff_count.mpr (fun x => ?_)
        simp only [System.numbers, List.map_append, List.map_cons, List.map_nil, List.count_append,
          List.count_cons, List.count_nil]
        omega
      exact hperm.nodup_iff.mpr (List.nodup_cons.mpr ⟨hnew, h.distinct⟩)
    · rcases List.mem_append.mp hw with hw | hw
      · exact hkeep.flight w hw
      · rw [List.mem_singleton.mp hw]
        refine ⟨(s.shared.conns i).tail, len, ?_, ?_, h.sending i len hp⟩
        · simp only [List.getElem?_map, hfound]
          simp [markWritten, System.write, Connection.post]
        · simp only [System.write, Connection.post, (h.safe.conn i).2.1, sub_toNat]
          simp only [Connection.localOff, (h.safe.conn i).1, UInt64.toNat_mod,
            UInt32.toNat_toUInt64, cellOf]
    · unfold System.transport
      congr 1
      funext j
      by_cases hji : j = i
      · subst hji
        simp [System.carried, hp, System.write]
      · simp [System.carried, System.write, Function.update_of_ne hji, of_cons_ne (Ne.symm hji)]
  · by_cases hji : j = i
    · subst hji
      simp at hj
    · simp only [Function.update_of_ne hji] at hj
      exact h.sending j n hj
  · simp only [List.getElem?_map, hk, Option.map_some, markWritten, if_neg (hm i)]

theorem land_views {k : ℕ} (hs : land s k = some t) :
    ∃ ws w vs, s.flight = ws++w::vs ∧ (∀ v ∈ ws, v.conn ≠ w.conn) ∧ t = { s with
      ring := store s.shared.inst.bufSize.toNat s.ring (w.addr-s.shared.inst.bufAddr).toNat w.bytes
      flight := ws++vs
      rcvCq := s.rcvCq++[w.wc] } := by
  unfold land at hs
  split at hs
  · cases hs
  next w hw =>
  split at hs
  · next hall =>
    obtain ⟨hk, hget⟩ := List.getElem?_eq_some_iff.mp hw
    refine ⟨s.flight.take k, w, s.flight.drop (k+1), ?_, by simpa using hall, ?_⟩
    · rw [← hget, List.getElem_cons_drop, List.take_append_drop]
    · rw [← List.eraseIdx_eq_take_drop_succ]
      exact (Option.some.inj hs).symm
  · cases hs

theorem land_carried {ws vs : List Write} {w : Write} (hf : s.flight = ws++w::vs)
    (hw : ∀ v ∈ ws, v.conn ≠ w.conn) (ring : ℕ → UInt8) (rcvCq : List Wc) (i : ℕ) :
    s.carried i = (if i = w.conn then [w.bytes] else [])++
      System.carried { s with ring := ring, flight := ws++vs, rcvCq := rcvCq } i := by
  simp only [System.carried, hf, List.map_append, List.map_cons, of_append]
  by_cases hi : i = w.conn
  · subst hi
    have hnil : of w.conn (ws.map (fun v => (v.conn, v.bytes))) = [] := by
      refine of_eq_nil (fun x hx => ?_)
      obtain ⟨v, hv, rfl⟩ := List.mem_map.mp hx
      exact hw v hv
    simp [hnil]
  · simp [hi, of_cons_ne (Ne.symm hi)]

theorem flight_ne_rcvCq (h : s.numbers.Nodup) (w : Write) (hw : w ∈ s.flight) (wc : Wc)
    (hwc : wc ∈ s.rcvCq) : w.number ≠ wc.number := by
  unfold System.numbers at h
  exact (List.nodup_append.mp (List.nodup_append.mp h).1).2.2 _ (List.mem_map_of_mem hw) _
    (List.mem_map_of_mem hwc)

theorem land_apart (h : Sound bufAddr bufSize s) (w : Write) (hw : w ∈ s.flight) (start : UInt64)
    (len : UInt32) (hk : s.shared.msgs[w.number]? = some ⟨start, len, .written w.imm⟩) (q : ℕ × ℕ)
    (hq : (s.transport bufAddr).Live q) :
    Disjoint (cells bufSize.toNat (cellOf bufSize start) len.toNat) (cells bufSize.toNat q.1 q.2) := by
  have hwin := (imm_cell h.safe _ _ _ _ hk).1
  rcases hq with ⟨_, x, hx, hxq⟩ | ⟨x, hx, hxq⟩
  · obtain ⟨wc, hwc, hwcx⟩ := List.mem_map.mp hx
    obtain ⟨start', hk'⟩ := h.rcvCq wc hwc
    obtain ⟨hwin', himm', -⟩ := imm_cell h.safe _ _ _ _ hk'
    have hne := flight_ne_rcvCq h.distinct w hw wc hwc
    have hqcell : q = (cellOf bufSize start', wc.byteLen.toNat) := by
      rw [← hxq, ← hwcx, himm']
    rw [hqcell]
    exact cells_apart h.safe _ _ ⟨start, len, .written w.imm⟩ ⟨start', wc.byteLen, .written wc.imm⟩
      hk hk' hne hwin hwin' (by simp) (by simp)
  · obtain ⟨y, hy, hyx⟩ := List.mem_map.mp hx
    obtain ⟨start', hk', haddr'⟩ := h.held y hy
    have hwin' := (h.safe.placed _ (List.mem_of_getElem? hk')).1
    have hne : w.number ≠ y.number := by
      intro he
      rw [he, hk'] at hk
      simp at hk
    have hqcell : q = (cellOf bufSize start', y.reg.length.toNat) := by
      rw [← hxq, ← hyx, ← haddr']
      rfl
    rw [hqcell]
    exact cells_apart h.safe _ _ ⟨start, len, .written w.imm⟩ ⟨start', y.reg.length, .received y.reg⟩
      hk hk' hne hwin hwin' (by simp) (by simp)

theorem land_sound (h : Sound bufAddr bufSize s) (k : ℕ) (hs : land s k = some t) :
    Sound bufAddr bufSize t ∧ ∀ a, Shows (ring bufSize.toNat) (fun _ => ()) (s.transport bufAddr) a →
      Shows (ring bufSize.toNat) (fun _ => ()) (t.transport bufAddr) a := by
  obtain ⟨ws, w, vs, hf, hw, rfl⟩ := land_views hs
  have hmem : w ∈ s.flight := by simp [hf]
  obtain ⟨start, len, hk, haddr, hbytes⟩ := h.flight w hmem
  obtain ⟨-, himm, hfit⟩ := imm_cell h.safe _ _ _ _ hk
  have hlen : w.wc.byteLen = len := by
    rw [Write.wc, hbytes, UInt32.ofNat_toNat]
  have hsub : ∀ v ∈ ws++vs, v ∈ s.flight := by
    intro v hv
    rw [hf]
    rcases List.mem_append.mp hv with hv | hv <;> simp [hv]
  set t : System := { s with
    ring := store s.shared.inst.bufSize.toNat s.ring (w.addr-s.shared.inst.bufAddr).toNat w.bytes
    flight := ws++vs
    rcvCq := s.rcvCq++[w.wc] } with ht
  refine ⟨⟨h.safe, ?_, h.sending, fun v hv => h.flight v (hsub v hv), fun wc hwc => ?_, h.held⟩,
    fun a ha => ?_⟩
  · have hperm : t.numbers.Perm s.numbers := by
      refine List.perm_iff_count.mpr (fun x => ?_)
      simp only [System.numbers, ht, hf, List.map_append, List.map_cons, List.map_nil,
        List.count_append, List.count_cons, List.count_nil, Write.wc]
      omega
    exact hperm.nodup_iff.mpr h.distinct
  · rcases List.mem_append.mp hwc with hwc | hwc
    · exact h.rcvCq wc hwc
    · rw [List.mem_singleton.mp hwc, hlen]
      exact ⟨start, hk⟩
  · have hcarried : ∀ i, s.carried i = (if i = w.conn then [w.bytes] else [])++t.carried i :=
      land_carried hf hw _ _
    have hcarries : t.carried = Function.update s.carried w.conn (t.carried w.conn) := by
      funext j
      by_cases hj : j = w.conn
      · subst hj
        rw [Function.update_self]
      · rw [Function.update_of_ne hj, hcarried j, if_neg hj, List.nil_append]
    have hshows := ha.arrive w.conn (cellOf bufSize start, len.toNat) w.bytes (t.carried w.conn)
      ((hcarried w.conn).trans (by rw [if_pos rfl]; rfl)) ⟨hbytes, hfit⟩
      (land_apart h w hmem start len hk)
    have hinbox : (t.transport bufAddr).inbox = Function.update (s.transport bufAddr).inbox ()
        ((s.transport bufAddr).inbox ()++[(w.conn, cellOf bufSize start, len.toNat)]) := by
      funext u
      rw [Function.update_self, ← himm, ← hlen]
      simp [System.transport, ht, Write.wc]
    have hring : t.ring = (ring bufSize.toNat).write s.ring (cellOf bufSize start, len.toNat) w.bytes := by
      rw [← haddr, ← h.safe.size, ← h.safe.addr]
      rfl
    have htransport : t.transport bufAddr = { s.transport bufAddr with
        mem := (ring bufSize.toNat).write s.ring (cellOf bufSize start, len.toNat) w.bytes
        carried := Function.update s.carried w.conn (t.carried w.conn)
        inbox := Function.update (s.transport bufAddr).inbox ()
          ((s.transport bufAddr).inbox ()++[(w.conn, cellOf bufSize start, len.toNat)]) } := by
      rw [← hinbox, ← hring, ← hcarries]
      rfl
    rw [htransport]
    exact hshows

theorem Sound.mark (h : Sound bufAddr bufSize s) (n : ℕ) (m : Message) (shared : Shared)
    (rcvCq : List Wc) (held : List Held) (hsafe : Safe bufAddr bufSize shared)
    (hconns : shared.conns = s.shared.conns) (hmsgs : shared.msgs = s.shared.msgs.set n m)
    (hperm : s.numbers.Perm (n::(s.flight.map Write.number++rcvCq.map Wc.number++
      held.map Held.number)))
    (hcq : ∀ wc ∈ rcvCq, wc ∈ s.rcvCq) (hheld : ∀ x ∈ held, x ∈ s.held) :
    Sound bufAddr bufSize { s with shared := shared, rcvCq := rcvCq, held := held } := by
  obtain ⟨hnew, hdistinct⟩ := List.nodup_cons.mp (hperm.nodup_iff.mp h.distinct)
  have hset : ∀ (k : ℕ) (m' : Message), k ∈ s.flight.map Write.number++rcvCq.map Wc.number++
      held.map Held.number → s.shared.msgs[k]? = some m' → shared.msgs[k]? = some m' := by
    intro k m' hk hm'
    rw [hmsgs, List.getElem?_set_ne (fun he : n = k => hnew (he ▸ hk))]
    exact hm'
  refine ⟨hsafe, hdistinct, fun i len hi => h.sending i len (hconns ▸ hi), fun w hw => ?_,
    fun wc hwc => ?_, fun x hx => ?_⟩
  · obtain ⟨start, len, hk, hrest⟩ := h.flight w hw
    exact ⟨start, len, hset _ _ (by simp [List.mem_map_of_mem hw]) hk, hrest⟩
  · obtain ⟨start, hk⟩ := h.rcvCq wc (hcq wc hwc)
    exact ⟨start, hset _ _ (by simp [List.mem_map_of_mem hwc]) hk⟩
  · obtain ⟨start, hk, hrest⟩ := h.held x (hheld x hx)
    exact ⟨start, hset _ _ (by simp [List.mem_map_of_mem hx]) hk, hrest⟩

theorem receive_sound (h : Sound bufAddr bufSize s) (h0 : 1 ≤ bufSize.toNat)
    (hS : bufSize.toNat ≤ 2^31) (hs : receive s = some t) :
    Sound bufAddr bufSize t ∧ ∀ a, Shows (ring bufSize.toNat) (fun _ => ()) (s.transport bufAddr) a →
      ∃ b, run Mailbox.step (calls s .receive) a = some b ∧
        Shows (ring bufSize.toNat) (fun _ => ()) (t.transport bufAddr) b := by
  unfold receive at hs
  split at hs
  · cases hs
  next wc rest hcq =>
  obtain ⟨shared, hshared, rfl⟩ := Option.map_eq_some_iff.mp hs
  have hreg := regular_of_small bufSize s.shared (.receive wc.number) h0 hS h.safe.size trivial
  have hsafe := receive_safe h.safe wc.number hreg.2 hshared
  obtain ⟨start, len, imm, hk, rfl⟩ := receive_views hshared
  obtain ⟨start', hk'⟩ := h.rcvCq wc (by simp [hcq])
  obtain ⟨rfl, rfl, rfl⟩ : start = start' ∧ len = wc.byteLen ∧ imm = wc.imm := by
    simpa using hk.symm.trans hk'
  obtain ⟨-, himm, -⟩ := imm_cell h.safe _ _ _ _ hk
  have hlt : wc.imm.toNat < 2^31 := himm ▸ (Nat.mod_lt _ h0).trans_le hS
  have hplace := receive_cell s.shared.inst wc.imm wc.byteLen hlt
  rw [h.safe.addr] at hplace
  set reg := s.shared.inst.receive wc.imm wc.byteLen with hreg
  have hlength : reg.length = wc.byteLen := rfl
  have hperm : s.numbers.Perm
      (wc.number::(s.flight.map Write.number++rest.map Wc.number++s.held.map Held.number)) := by
    refine List.perm_iff_count.mpr (fun x => ?_)
    simp only [System.numbers, hcq, List.map_cons, List.count_append, List.count_cons]
    omega
  have hmark := h.mark wc.number ⟨start, wc.byteLen, .received reg⟩ _ rest s.held hsafe rfl rfl hperm
    (fun v hv => by simp [hcq, hv]) (fun x hx => hx)
  refine ⟨⟨hsafe, ?_, h.sending, hmark.flight, hmark.rcvCq, fun x hx => ?_⟩, fun a ha => ?_⟩
  · have hlast : (s.flight.map Write.number++rest.map Wc.number++
        (s.held++[(⟨wc.number, wc.conn, reg⟩ : Held)]).map Held.number).Perm s.numbers := by
      refine List.Perm.trans ?_ hperm.symm
      rw [List.map_append, ← List.append_assoc]
      exact List.perm_append_singleton _ _
    exact hlast.nodup_iff.mpr h.distinct
  · rcases List.mem_append.mp hx with hx | hx
    · exact hmark.held x hx
    · rw [List.mem_singleton.mp hx]
      refine ⟨start, ?_, (congrArg Prod.fst hplace).trans himm⟩
      rw [hlength]
      exact List.getElem?_set_self (List.getElem?_eq_some_iff.mp hk).1
  · have hinbox : (s.transport bufAddr).inbox () = (wc.conn, wc.imm.toNat, wc.byteLen.toNat)::
        rest.map (fun v => (v.conn, v.imm.toNat, v.byteLen.toNat)) := by
      simp [System.transport, hcq]
    obtain ⟨b, hb, hshows⟩ := ha.receive () _ _ hinbox
    refine ⟨b, by simpa [calls, hcq, run] using hb, ?_⟩
    have hnext : System.transport bufAddr { s with
        shared := { s.shared with
          msgs := s.shared.msgs.set wc.number ⟨start, wc.byteLen, .received reg⟩ }
        rcvCq := rest
        held := s.held++[⟨wc.number, wc.conn, reg⟩] } =
        { s.transport bufAddr with
          inbox := Function.update (s.transport bufAddr).inbox ()
            (rest.map (fun v => (v.conn, v.imm.toNat, v.byteLen.toNat)))
          held := (s.transport bufAddr).held++[(wc.conn, wc.imm.toNat, wc.byteLen.toNat)] } := by
      simp only [System.transport, List.map_append, List.map_cons, List.map_nil, hplace]
      rfl
    rw [hnext]
    exact hshows

theorem free_sound (h : Sound bufAddr bufSize s) (k : ℕ) (hs : free s k = some t) :
    Sound bufAddr bufSize t ∧ ∀ a, Shows (ring bufSize.toNat) (fun _ => ()) (s.transport bufAddr) a →
      ∃ b, run Mailbox.step (calls s (.free k)) a = some b ∧
        Shows (ring bufSize.toNat) (fun _ => ()) (t.transport bufAddr) b := by
  simp only [free, Option.bind_eq_bind, Option.bind_eq_some_iff] at hs
  obtain ⟨x, hx, inst, hinst, shared, hshared, hs⟩ := hs
  obtain rfl := Option.some.inj hs
  have hsafe := free_safe h.safe x.number hshared
  obtain ⟨start, len, reg, inst', hk, hinst', rfl⟩ := free_views hshared
  obtain ⟨hlt, hget⟩ := List.getElem?_eq_some_iff.mp hx
  obtain ⟨start', hk', -⟩ := h.held x (List.mem_of_getElem? hx)
  obtain ⟨rfl, rfl, rfl⟩ : start = start' ∧ len = x.reg.length ∧ reg = x.reg := by
    simpa using hk.symm.trans hk'
  -- the completion of the model and the region of the caller free the same bytes
  obtain rfl := Option.some.inj (hinst'.symm.trans hinst)
  have hperm : s.numbers.Perm (x.number::(s.flight.map Write.number++s.rcvCq.map Wc.number++
      (s.held.eraseIdx k).map Held.number)) := by
    have hheld : s.held.Perm (x::s.held.eraseIdx k) := by
      rw [← hget]
      exact (List.getElem_cons_eraseIdx_perm hlt).symm
    exact ((hheld.map Held.number).append_left _).trans List.perm_middle
  refine ⟨h.mark x.number ⟨start, x.reg.length, .freed⟩ _ s.rcvCq _ hsafe rfl rfl hperm
    (fun wc hwc => hwc) (fun y hy => List.mem_of_mem_eraseIdx hy), fun a ha => ?_⟩
  obtain ⟨b, hb, hshows⟩ := ha.free k (by simpa [System.transport] using hlt)
  refine ⟨b, by simpa [calls, run] using hb, ?_⟩
  have hnext : System.transport bufAddr { s with
      shared := { s.shared with
        inst := inst'
        msgs := s.shared.msgs.set x.number ⟨start, x.reg.length, .freed⟩
        heads := inst'.head::s.shared.heads }
      held := s.held.eraseIdx k } =
      { s.transport bufAddr with held := (s.transport bufAddr).held.eraseIdx k } := by
    simp only [System.transport, List.eraseIdx_map]
    rfl
  rw [hnext]
  exact hshows

theorem step_shows (h : Sound bufAddr bufSize s) (h0 : 1 ≤ bufSize.toNat) (hS : bufSize.toNat ≤ 2^31)
    (e : Event) (he : Careful s e) (hs : step s e = some t) :
    Sound bufAddr bufSize t ∧ ∀ a, Shows (ring bufSize.toNat) (fun _ => ()) (s.transport bufAddr) a →
      ∃ b, run Mailbox.step (calls s e) a = some b ∧
        Shows (ring bufSize.toNat) (fun _ => ()) (t.transport bufAddr) b := by
  cases e with
  | sendAsync i m => exact sendAsync_sound h i m he hs
  | readHead i head =>
    obtain ⟨hsound, htransport⟩ := readHead_sound h i head hs
    exact ⟨hsound, fun a ha => ⟨a, rfl, htransport ▸ ha⟩⟩
  | post i =>
    obtain ⟨hsound, htransport⟩ := post_sound h i hs
    exact ⟨hsound, fun a ha => ⟨a, rfl, htransport ▸ ha⟩⟩
  | land k =>
    obtain ⟨hsound, hshows⟩ := land_sound h k hs
    exact ⟨hsound, fun a ha => ⟨a, rfl, hshows a ha⟩⟩
  | receive => exact receive_sound h h0 hS hs
  | free k => exact free_sound h k hs

end Steps

def System.regions (bufAddr : UInt64) (bufSize : UInt32) (s : System) : List (ℕ × List UInt8) :=
  s.held.map (fun h => (h.conn, load bufSize.toNat s.ring (regionPlace bufAddr h.reg).1
    (regionPlace bufAddr h.reg).2))

/-- A ring that many connections write into is a mailbox. -/
theorem shared_ring_is_mailbox (bufAddr : UInt64) (bufSize : UInt32) (useDm : Bool)
    (ring : ℕ → UInt8) (h0 : 1 ≤ bufSize.toNat) (hS : bufSize.toNat ≤ 2^31) (es : List Event)
    (s : System) (hm : Meets step Careful es (init bufAddr bufSize useDm ring))
    (hr : run step es (init bufAddr bufSize useDm ring) = some s) :
    ∃ a, run Mailbox.step (trace step calls es (init bufAddr bufSize useDm ring)) Mailbox.empty = some a ∧
      s.regions bufAddr bufSize = a.held := by
  obtain ⟨a, ha, -, hshows⟩ := run_traces step calls Careful Mailbox.step
    (fun s a => Sound bufAddr bufSize s ∧
      Shows (Mailbox.ring bufSize.toNat) (fun _ => ()) (s.transport bufAddr) a)
    (fun s e t a h he hs => by
      obtain ⟨hsound, hnext⟩ := step_shows h.1 h0 hS e he hs
      obtain ⟨b, hb, hshows⟩ := hnext a h.2
      exact ⟨b, hb, hsound, hshows⟩)
    es _ s Mailbox.empty ⟨init_sound bufAddr bufSize useDm ring, shows_empty ring _ _⟩ hm hr
  refine ⟨a, ha, ?_⟩
  rw [hshows.held, System.transport, System.regions, List.map_map]
  rfl

/-- Three messages of two connections in a ring of ten bytes. The second one is there first,
and the third one lies across the end. -/
def acrossEnd : List Event :=
  [.sendAsync 0 [1, 2, 3, 4, 5], .sendAsync 1 [6, 7, 8], .post 0, .post 1, .land 1, .land 0, .receive,
    .receive, .free 1, .sendAsync 0 [9, 10, 11, 12], .readHead 0 5, .post 0, .land 0, .receive]

theorem shared_ring_is_mailbox_acrossEnd : ∃ s a,
    run step acrossEnd (init 65536 10 true fun _ => 0) = some s ∧
    run Mailbox.step (trace step calls acrossEnd (init 65536 10 true fun _ => 0)) Mailbox.empty = some a ∧
    s.regions 65536 10 = a.held ∧ s.regions 65536 10 = [(1, [6, 7, 8]), (0, [9, 10, 11, 12])] := by
  have hr := run_get step acrossEnd (init 65536 10 true fun _ => 0) (by decide +kernel)
  obtain ⟨a, ha, hheld⟩ := shared_ring_is_mailbox 65536 10 true (fun _ => 0) (by decide) (by decide)
    acrossEnd _ (by decide +kernel) hr
  exact ⟨_, a, hr, ha, hheld, by decide +kernel⟩

end KYM.SharedDelivery
