import KnowYourMemory.Circle
import KnowYourMemory.Run
import Mathlib.Data.List.Basic

/-!
# A bounded stream with release in any order

The abstract counterpart of a ring buffer. Messages occupy consecutive spans of
an unbounded stream. A reader takes them in order and releases what it has taken
in any order. The head is the start of the oldest span that is taken and not
released; the writer stays within `cap` positions of it. The carried proofs make
a stream that breaks any of this impossible to build.
-/

set_option autoImplicit false

namespace KYM.BoundedStream
open KYM.Circle KYM.Run

structure Item where
  id : ℕ
  payload : List UInt8
  deriving DecidableEq, Repr

structure Span (α : Type*) where
  start : ℕ
  len : ℕ
  body : α
  deriving DecidableEq, Repr

variable {α β : Type*}

def Span.stop (m : Span α) : ℕ := m.start+m.len

def Before (m n : Span α) : Prop := m.stop ≤ n.start

theorem split_next {ms a b b' : List (Span α)} {m : Span α} (hs : ms = a++b) (hb : b = m::b') :
    ms = (a++[m])++b' := by
  rw [hs, hb, List.append_assoc]
  rfl

theorem forall_next {P : Span α → Prop} {l a : List (Span α)} {m : Span α}
    (hold : ∀ n ∈ l++a, P n) (hnew : P m) : ∀ n ∈ l++(a++[m]), P n := by
  intro n hn
  rw [← List.append_assoc] at hn
  rcases List.mem_append.mp hn with hn | hn
  · exact hold n hn
  · exact List.mem_singleton.mp hn ▸ hnew

def Tiles : ℕ → List (Span α) → ℕ → Prop
  | a, [], b => a = b
  | a, m::ms, b => m.start = a ∧ 0 < m.len ∧ Tiles m.stop ms b

theorem tiles_append (a : ℕ) (ms ns : List (Span α)) (c : ℕ) :
    Tiles a (ms++ns) c ↔ ∃ b, Tiles a ms b ∧ Tiles b ns c := by
  induction ms generalizing a with
  | nil => simp [Tiles]
  | cons m ms ih => simp [Tiles, ih, and_assoc]

theorem tiles_le (a : ℕ) (ms : List (Span α)) (b : ℕ) (h : Tiles a ms b) : a ≤ b := by
  induction ms generalizing a with
  | nil => exact le_of_eq h
  | cons m ms ih =>
    have := ih _ h.2.2
    have := h.1
    unfold Span.stop at *
    omega

theorem tiles_mem (a : ℕ) (ms : List (Span α)) (b : ℕ) (h : Tiles a ms b)
    (m : Span α) (hm : m ∈ ms) : a ≤ m.start ∧ 0 < m.len ∧ m.stop ≤ b := by
  induction ms generalizing a with
  | nil => simp at hm
  | cons n ns ih =>
    obtain ⟨h1, h2, h3⟩ := h
    rcases List.mem_cons.mp hm with rfl | hm
    · exact ⟨h1.ge, h2, tiles_le _ _ _ h3⟩
    · have := ih _ h3 hm
      unfold Span.stop at *
      omega

theorem tiles_stop (a : ℕ) (ms : List (Span α)) (b : ℕ) (h : Tiles a ms b)
    (m : Span α) (hm : m ∈ ms) : m.stop = b ∨ ∃ n ∈ ms, n.start = m.stop := by
  induction ms generalizing a with
  | nil => simp at hm
  | cons n ns ih =>
    rcases List.mem_cons.mp hm with rfl | hm
    · cases ns with
      | nil => exact Or.inl h.2.2
      | cons n' ns => exact Or.inr ⟨n', by simp, h.2.2.1⟩
    · rcases ih _ h.2.2 hm with he | ⟨n', hn', he⟩
      · exact Or.inl he
      · exact Or.inr ⟨n', List.mem_cons_of_mem _ hn', he⟩

theorem tiles_cover (a : ℕ) (ms : List (Span α)) (b : ℕ) (h : Tiles a ms b) (p : ℕ)
    (ha : a ≤ p) (hb : p < b) : ∃ m ∈ ms, m.start ≤ p ∧ p < m.stop := by
  induction ms generalizing a with
  | nil =>
    obtain rfl : a = b := h
    omega
  | cons m ms ih =>
    by_cases hp : p < m.stop
    · exact ⟨m, by simp, h.1.trans_le ha, hp⟩
    · obtain ⟨n, hn, hc⟩ := ih _ h.2.2 (by omega)
      exact ⟨n, List.mem_cons_of_mem _ hn, hc⟩

theorem tiles_sorted (a : ℕ) (ms : List (Span α)) (b : ℕ) (h : Tiles a ms b) :
    ms.Pairwise Before := by
  induction ms generalizing a with
  | nil => exact List.Pairwise.nil
  | cons m ms ih =>
    exact List.Pairwise.cons (fun n hn => (tiles_mem _ _ _ h.2.2 n hn).1) (ih _ h.2.2)

theorem total_le (a b : ℕ) (hab : a ≤ b) (ms : List (Span α)) (h : ms.Pairwise Before)
    (hm : ∀ m ∈ ms, a ≤ m.start ∧ m.stop ≤ b) : a+(ms.map Span.len).sum ≤ b := by
  induction ms generalizing a with
  | nil => simpa using hab
  | cons m ms ih =>
    obtain ⟨h1, h2⟩ := List.pairwise_cons.mp h
    have hb := hm m (by simp)
    have := ih m.stop hb.2 h2 (fun n hn => ⟨h1 n hn, (hm n (by simp [hn])).2⟩)
    simp only [List.map_cons, List.sum_cons]
    unfold Span.stop at this
    omega

theorem getElem?_concat {β : Type} (l : List β) (x y : β) (i : ℕ) (h : l[i]? = some y) :
    (l++[x])[i]? = some y := by
  rw [List.getElem?_append_left (List.getElem?_eq_some_iff.mp h).1, h]

theorem getElem?_concat_cases {β : Type} {l : List β} {x y : β} {i : ℕ}
    (h : (l++[x])[i]? = some y) : l[i]? = some y ∨ (i = l.length ∧ y = x) := by
  rcases Nat.lt_or_ge i l.length with hlt | hge
  · rw [List.getElem?_append_left hlt] at h
    exact Or.inl h
  · rw [List.getElem?_append_right hge, List.getElem?_singleton] at h
    split at h
    · exact Or.inr ⟨by omega, (Option.some.inj h).symm⟩
    · cases h

def headOf (held : List (Span α)) (read : ℕ) : ℕ :=
  match held with
  | [] => read
  | m::_ => m.start

theorem headOf_le (held : List (Span α)) (read : ℕ)
    (h : ∀ m ∈ held, 0 < m.len ∧ m.stop ≤ read) : headOf held read ≤ read := by
  cases held with
  | nil => exact le_refl _
  | cons m ms =>
    have := h m (by simp)
    unfold Span.stop at this
    simp only [headOf]
    omega

theorem headOf_le_start (held : List (Span α)) (read : ℕ) (hs : held.Pairwise Before)
    (m : Span α) (hm : m ∈ held) : headOf held read ≤ m.start := by
  cases held with
  | nil => simp at hm
  | cons n ns =>
    rcases List.mem_cons.mp hm with rfl | hm
    · exact le_refl _
    · have := (List.pairwise_cons.mp hs).1 m hm
      unfold Before Span.stop at this
      simp only [headOf]
      omega

theorem headOf_tiles (a : ℕ) (ms : List (Span α)) (b : ℕ) (h : Tiles a ms b) :
    headOf ms b = a := by
  cases ms with
  | nil => exact (show a = b from h).symm
  | cons m ms => exact h.1

structure Tape (α : Type*) (cap : ℕ) where
  read : ℕ
  tail : ℕ
  held : List (Span α)
  unread : List (Span α)
  unread_tiles : Tiles read unread tail
  held_sorted : held.Pairwise Before
  held_below : ∀ m ∈ held, 0 < m.len ∧ m.stop ≤ read
  window : tail ≤ headOf held read+cap

namespace Tape

variable {cap : ℕ}

def head (s : Tape α cap) : ℕ := headOf s.held s.read

def live (s : Tape α cap) : List (Span α) := s.held++s.unread

def empty (α : Type*) (cap : ℕ) : Tape α cap where
  read := 0
  tail := 0
  held := []
  unread := []
  unread_tiles := rfl
  held_sorted := List.Pairwise.nil
  held_below := by simp
  window := by simp [headOf]

theorem head_le_read (s : Tape α cap) : s.head ≤ s.read := headOf_le _ _ s.held_below

theorem read_le_tail (s : Tape α cap) : s.read ≤ s.tail := tiles_le _ _ _ s.unread_tiles

theorem held_before (s : Tape α cap) (m n : Span α) (hm : m ∈ s.held) (hn : n ∈ s.unread) :
    Before m n := (s.held_below m hm).2.trans (tiles_mem _ _ _ s.unread_tiles n hn).1

theorem live_sorted (s : Tape α cap) : s.live.Pairwise Before :=
  List.pairwise_append.mpr
    ⟨s.held_sorted, tiles_sorted _ _ _ s.unread_tiles, fun m hm n hn => s.held_before m n hm hn⟩

theorem live_mem (s : Tape α cap) (m : Span α) (hm : m ∈ s.live) :
    s.head ≤ m.start ∧ 0 < m.len ∧ m.stop ≤ s.tail := by
  rcases List.mem_append.mp hm with hm | hm
  · have h := s.held_below m hm
    exact ⟨headOf_le_start _ _ s.held_sorted m hm, h.1, h.2.trans s.read_le_tail⟩
  · have h := tiles_mem _ _ _ s.unread_tiles m hm
    exact ⟨s.head_le_read.trans h.1, h.2⟩

theorem first_unread (s : Tape α cap) (m : Span α) (ms : List (Span α)) (h : s.unread = m::ms) :
    m ∈ s.live ∧ m.start = s.read := by
  have ht := s.unread_tiles
  rw [h] at ht
  exact ⟨by simp [live, h], ht.1⟩

theorem next_head (s : Tape α cap) (a b : List (Span α)) (m : Span α)
    (h : s.unread = a++m::b) : headOf b s.tail = m.stop := by
  have ht := s.unread_tiles
  rw [h] at ht
  obtain ⟨x, -, hx⟩ := (tiles_append _ _ _ _).mp ht
  exact headOf_tiles _ _ _ hx.2.2

theorem live_before (s : Tape α cap) (a b : List (Span α)) (m : Span α)
    (h : s.unread = a++m::b) (n : Span α) (hn : n ∈ s.held++a) : n ∈ s.live ∧ Before n m := by
  have hsort := s.live_sorted
  simp only [live, h] at hsort
  rw [← List.append_assoc, List.pairwise_append] at hsort
  refine ⟨?_, hsort.2.2 n hn m (by simp)⟩
  rw [live, h, ← List.append_assoc]
  exact List.mem_append_left _ hn

theorem live_total (s : Tape α cap) : (s.live.map Span.len).sum ≤ cap := by
  have hw := s.window
  have h := total_le s.head s.tail (s.head_le_read.trans s.read_le_tail) s.live s.live_sorted
    (fun m hm => ⟨(s.live_mem m hm).1, (s.live_mem m hm).2.2⟩)
  unfold head at h
  omega

def send (s : Tape α cap) (n : ℕ) (body : α) (hn : 0 < n) (h : s.tail+n ≤ s.head+cap) :
    Tape α cap where
  read := s.read
  tail := s.tail+n
  held := s.held
  unread := s.unread++[⟨s.tail, n, body⟩]
  unread_tiles := 
    (tiles_append _ _ [⟨s.tail, n, body⟩] _).mpr ⟨s.tail, s.unread_tiles, rfl, hn, rfl⟩
  held_sorted := s.held_sorted
  held_below := s.held_below
  window := h

theorem headOf_concat (held : List (Span α)) (m : Span α) (r : ℕ) :
    headOf (held++[m]) r = headOf held m.start := by
  cases held <;> rfl

def take (s : Tape α cap) (m : Span α) (ms : List (Span α)) (h : s.unread = m::ms) :
    Tape α cap where
  read := m.stop
  tail := s.tail
  held := s.held++[m]
  unread := ms
  unread_tiles := by
    have ht := s.unread_tiles
    rw [h] at ht
    exact ht.2.2
  held_sorted := by
    refine List.pairwise_append.mpr ⟨s.held_sorted, List.pairwise_singleton _ _, ?_⟩
    intro n hn m' hm'
    have ht := s.unread_tiles
    rw [h] at ht
    rw [List.mem_singleton.mp hm', Before, ht.1]
    exact (s.held_below n hn).2
  held_below := by
    intro n hn
    have ht := s.unread_tiles
    rw [h] at ht
    rcases List.mem_append.mp hn with hn | hn
    · have := s.held_below n hn
      have := ht.1
      unfold Span.stop at *
      omega
    · rw [List.mem_singleton.mp hn]
      exact ⟨ht.2.1, le_refl _⟩
  window := by
    have ht := s.unread_tiles
    rw [h] at ht
    rw [headOf_concat, ht.1]
    exact s.window

theorem headOf_eraseIdx (held : List (Span α)) (read i : ℕ) (hs : held.Pairwise Before)
    (hb : ∀ m ∈ held, 0 < m.len ∧ m.stop ≤ read) :
    headOf held read ≤ headOf (held.eraseIdx i) read := by
  cases hi : held.eraseIdx i with
  | nil => exact headOf_le _ _ hb
  | cons m ms =>
    exact headOf_le_start _ _ hs m (List.mem_of_mem_eraseIdx (hi ▸ List.mem_cons_self))

def release (s : Tape α cap) (i : ℕ) : Tape α cap where
  read := s.read
  tail := s.tail
  held := s.held.eraseIdx i
  unread := s.unread
  unread_tiles := s.unread_tiles
  held_sorted := s.held_sorted.sublist (List.eraseIdx_sublist _ _)
  held_below := fun m hm => s.held_below m (List.mem_of_mem_eraseIdx hm)
  window := s.window.trans
    (Nat.add_le_add_right (headOf_eraseIdx _ _ _ s.held_sorted s.held_below) cap)

inductive Event (α : Type*) where
  | send (n : ℕ) (body : α)
  | take
  | release (i : ℕ)

def step (s : Tape α cap) : Event α → Option (Tape α cap)
  | .send n body =>
    if h : 0 < n ∧ s.tail+n ≤ s.head+cap then some (s.send n body h.1 h.2) else none
  | .take =>
    match h : s.unread with
    | [] => none
    | m::ms => some (s.take m ms h)
  | .release i => if i < s.held.length then some (s.release i) else none

theorem step_take (s : Tape α cap) (m : Span α) (ms : List (Span α)) (h : s.unread = m::ms) :
    s.step .take = some (s.take m ms h) := by
  simp only [step]
  split
  · next h0 => simp [h] at h0
  · next h1 =>
    obtain ⟨rfl, rfl⟩ := List.cons.inj (h.symm.trans h1)
    rfl

theorem take_head (s : Tape α cap) (m : Span α) (ms : List (Span α)) (h : s.unread = m::ms) :
    (s.take m ms h).head = s.head := by
  have ht := s.unread_tiles
  rw [h] at ht
  change headOf (s.held++[m]) m.stop = headOf s.held s.read
  rw [headOf_concat, ht.1]

theorem head_le_release (s : Tape α cap) (i : ℕ) : s.head ≤ (s.release i).head :=
  headOf_eraseIdx _ _ _ s.held_sorted s.held_below

theorem step_send (s s' : Tape α cap) (n : ℕ) (body : α)
    (h : s.step (.send n body) = some s') : s'.read = s.read ∧ s'.tail = s.tail+n ∧
      s'.held = s.held ∧ s'.unread = s.unread++[⟨s.tail, n, body⟩] := by
  simp only [step] at h
  split at h
  · obtain rfl := Option.some.inj h
    exact ⟨rfl, rfl, rfl, rfl⟩
  · cases h

theorem send_live (s s' : Tape α cap) (n : ℕ) (body : α)
    (h : s.step (.send n body) = some s') : s'.live = s.live++[⟨s.tail, n, body⟩] := by
  obtain ⟨-, -, hheld, hunread⟩ := step_send s s' n body h
  rw [live, live, hheld, hunread, List.append_assoc]

theorem take_live (s : Tape α cap) (m : Span α) (ms : List (Span α)) (h : s.unread = m::ms) :
    (s.take m ms h).live = s.live := by
  simp only [live, take, h, List.append_assoc, List.singleton_append]

theorem mem_release (s : Tape α cap) (i : ℕ) (ms : List (Span α)) (m : Span α)
    (hm : m ∈ (s.release i).held++ms) : m ∈ s.held++ms :=
  List.mem_append.mpr ((List.mem_append.mp hm).imp_left List.mem_of_mem_eraseIdx)

theorem step_release (s s' : Tape α cap) (i : ℕ) (h : s.step (.release i) = some s') :
    s' = s.release i := by
  simp only [step] at h
  split at h
  · exact (Option.some.inj h).symm
  · cases h

/-- What the writer may rely on: a head it has seen, and the space below it. -/
structure Credit (s : Tape α cap) (c : ℕ) : Prop where
  le_head : c ≤ s.head
  space : s.tail ≤ c+cap

theorem credit_empty : Credit (empty α cap) 0 := ⟨le_refl _, Nat.zero_le _⟩

theorem credit_head (s : Tape α cap) : s.Credit s.head := ⟨le_refl _, s.window⟩

theorem Credit.le_tail {s : Tape α cap} {c : ℕ} (h : s.Credit c) : c ≤ s.tail :=
  h.le_head.trans (s.head_le_read.trans s.read_le_tail)

theorem Credit.send {s : Tape α cap} {c n : ℕ} (h : s.Credit c) (body : α) (hn : 0 < n)
    (hs : s.tail+n ≤ c+cap) (hs' : s.tail+n ≤ s.head+cap) :
    (s.send n body hn hs').Credit c := ⟨h.le_head, hs⟩

theorem Credit.take {s : Tape α cap} {c : ℕ} (h : s.Credit c) (m : Span α)
    (ms : List (Span α)) (hu : s.unread = m::ms) : (s.take m ms hu).Credit c := by
  refine ⟨?_, h.space⟩
  have ht := s.unread_tiles
  rw [hu] at ht
  change c ≤ headOf (s.held++[m]) m.stop
  rw [headOf_concat, ht.1]
  exact h.le_head

theorem Credit.release {s : Tape α cap} {c : ℕ} (h : s.Credit c) (i : ℕ) :
    (s.release i).Credit c := ⟨h.le_head.trans (s.head_le_release i), h.space⟩

/-- Messages carry the number under which they were sent. The first `got` of them
have been taken, and `held` lists those that are not released. -/
structure Numbered (id : α → ℕ) (sent got : ℕ) (held : List ℕ) (s : Tape α cap) : Prop where
  unread : s.unread.map (fun m => id m.body) = List.range' got s.unread.length
  held : s.held.map (fun m => id m.body) = held
  count : sent = got+s.unread.length

section Numbered

variable {id : α → ℕ} {sent got : ℕ} {held : List ℕ} {s s' : Tape α cap}

theorem numbered_empty (id : α → ℕ) : (empty α cap).Numbered id 0 0 [] := ⟨rfl, rfl, rfl⟩

theorem Numbered.send (h : s.Numbered id sent got held) (n : ℕ) (body : α) (hb : id body = sent)
    (hs : s.step (.send n body) = some s') : s'.Numbered id (sent+1) got held := by
  obtain ⟨-, -, hheld, hunread⟩ := step_send s s' n body hs
  refine ⟨?_, by rw [hheld, h.held], ?_⟩
  · simp [hunread, h.unread, hb, h.count, List.range'_concat]
  · simp [hunread, h.count, Nat.add_assoc]

theorem Numbered.first (h : s.Numbered id sent got held) (m : Span α) (ms : List (Span α))
    (hu : s.unread = m::ms) : id m.body = got := by
  have hid := h.unread
  simp only [hu, List.map_cons, List.length_cons, List.range'_succ] at hid
  exact (List.cons.inj hid).1

theorem Numbered.take (h : s.Numbered id sent got held) (m : Span α) (ms : List (Span α))
    (hu : s.unread = m::ms) : (s.take m ms hu).Numbered id sent (got+1) (held++[got]) := by
  have hid := h.unread
  have hcount := h.count
  simp only [hu, List.map_cons, List.length_cons, List.range'_succ] at hid hcount
  refine ⟨(List.cons.inj hid).2, ?_, by simp only [Tape.take]; omega⟩
  simp only [Tape.take, List.map_append, h.held, List.map_cons, List.map_nil, h.first m ms hu]

theorem Numbered.release (h : s.Numbered id sent got held) (i : ℕ) :
    (s.release i).Numbered id sent got (held.eraseIdx i) :=
  ⟨h.unread, by simp only [Tape.release, ← List.eraseIdx_map, h.held], h.count⟩

end Numbered

theorem fresh_disjoint (s : Tape α cap) (d : Direction) (L w o : ℕ) (hL : 0 < L)
    (hw : s.tail+w ≤ s.head+L) (ho : Anchored d L o s.tail w)
    (m : Span α) (hm : m ∈ s.live) (o' : ℕ) (ho' : Anchored d L o' m.start m.len) :
    Disjoint (cells L o w) (cells L o' m.len) := by
  obtain ⟨h1, h2, h3⟩ := s.live_mem m hm
  unfold Span.stop at h3
  exact (cells_disjoint d L o' m.start m.len o s.tail w hL ho' ho h3 (by omega)).symm

/-- Live spans that follow each other share no cell. -/
theorem live_disjoint (s : Tape α cap) (d : Direction) (L : ℕ) (hL : 0 < L) (hcap : cap ≤ L)
    (m n : Span α) (hm : m ∈ s.live) (hn : n ∈ s.live) (hb : Before m n) (o o' : ℕ)
    (ho : Anchored d L o m.start m.len) (ho' : Anchored d L o' n.start n.len) :
    Disjoint (cells L o m.len) (cells L o' n.len) := by
  have hm := s.live_mem m hm
  have hn := s.live_mem n hn
  have hw := s.window
  unfold Before Span.stop at *
  unfold head at *
  exact cells_disjoint d L o m.start m.len o' n.start n.len hL ho ho' hb (by omega)

end Tape

end KYM.BoundedStream
