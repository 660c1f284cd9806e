/-
Which buffer a received packet is taken from. The device completes the buffers it was offered in any order, and names
the descriptor of each in the used ring. `PollRXQueue` reads the length from the entry of the ring but takes the
buffer with the number of the entry, not the one the entry names.
Source: virtio_net.cc (`PollRXQueue`, `GetUsedRingEntry`). `PollRXQueue` is taken once more with a log of the buffers
that are passed to `ProcessPacket`.
-/
import Liumos.Inet.Polling
import Liumos.Machine.Trace

namespace Liumos.Inet

open Virtio List Nat

/-- A call of `ProcessPacket`: the descriptor the buffer belongs to, its contents, and the length. -/
structure Delivery where
  desc : Nat
  page : Nat → Byte
  len : Word

/-! ## With a log -/

namespace Deliveries

def pollLoop (device : Nat → Completion) : Nat → Nat → KM (Logged NetState Delivery) Nat
  | 0, _ => throw .diverges
  | fuel + 1, k => do
    let used ← onState (getUsedRingIndex (device k))
    let net := (← get).state.net
    if used = net.rxCursor then return 0
    else
      let idx := net.rxCursor.toNat % net.rxq.queueSize
      onState (assertIdx net.rxq idx)
      record [⟨idx, (net.rxq.desc idx).page, (net.rxq.usedLen idx).setWidth 64⟩]
      onState (processPacket (net.rxq.desc idx).page ((net.rxq.usedLen idx).setWidth 64))
      onState (modify fun s => { s with net := { s.net with
        rxq := { s.net.rxq with usedLen := Function.update s.net.rxq.usedLen idx 0#32 }
        rxCursor := s.net.rxCursor + 1#16 } })
      return (← pollLoop device fuel (k + 1)) + 1

def pollRXQueue (device : Nat → Completion) (fuel : Nat) : KM (Logged NetState Delivery) Nat := do
  let used ← onState (getUsedRingIndex (device 0))
  if used = (← get).state.net.rxCursor then return 0
  else
    let processed ← pollLoop device fuel 1
    onState (modify fun s => { s with net := { s.net with rxq := s.net.rxq.setIndex (s.net.rxCursor.toNat - 1) } })
    return processed

theorem erases_pollLoop (device : Nat → Completion) (fuel k : Nat) :
    Erases (pollLoop device fuel k) (Inet.pollLoop device fuel k) := by
  induction fuel generalizing k with
  | zero => exact .throw _
  | succ fuel ih =>
    refine (Erases.onState _).bind fun used => Erases.get_bind fun s => Erases.ite (Erases.pure 0) ?_
    refine (Erases.onState _).bind fun _ =>
      Erases.record_bind ((Erases.onState _).bind fun _ => (Erases.onState _).bind fun _ => ?_)
    exact (ih (k + 1)).bind fun n => .pure (n + 1)

/-- Without the log it is `PollRXQueue`. -/
theorem erases_pollRXQueue (device : Nat → Completion) (fuel : Nat) :
    Erases (pollRXQueue device fuel) (Inet.pollRXQueue device fuel) := by
  refine (Erases.onState _).bind fun used => Erases.get_bind fun s => Erases.ite (Erases.pure 0) ?_
  exact (erases_pollLoop device fuel 1).bind fun n => (Erases.onState _).bind fun _ => Erases.pure n

end Deliveries

/-! ## The device -/

/-- All that the device completes on a queue of `n` buffers: the descriptor that the `k`-th completion names, its
length, and what the device wrote to the buffer. -/
structure UsedHistory (n : Nat) where
  id : Nat → Nat
  len : Nat → BitVec 32
  content : Nat → Nat → Byte
  id_lt : ∀ k, id k < n

/-- The entry of the used ring for the `k`-th completion. -/
def slot (n k : Nat) : Nat := (BitVec.ofNat 16 k).toNat % n

/-- What the driver is to process for the `k`-th completion. -/
def UsedHistory.delivery {n : Nat} (D : UsedHistory n) (k : Nat) : Delivery :=
  ⟨D.id k, D.content k, (D.len k).setWidth 64⟩

/-- A look at the queue when `p` completions have been processed and `done` were made. Of the `n` buffers each is
completed once at most before it is processed. -/
structure Shows {n : Nat} (D : UsedHistory n) (p done : Nat) (c : Completion) : Prop where
  processed_le : p ≤ done
  offered : done ≤ p + n
  once : ∀ j k, p ≤ j → j < done → p ≤ k → k < done → D.id j = D.id k → j = k
  usedIndex : c.usedIndex = BitVec.ofNat 16 done
  len : ∀ k, p ≤ k → k < done → c.usedLen (slot n k) = D.len k
  page : ∀ k, p ≤ k → k < done → c.page (D.id k) = D.content k

/-- All looks of a call that begins after `p` completions were processed. The first one in the loop is for the same
completion as the one before the loop. -/
structure Looks {n : Nat} (D : UsedHistory n) (p : Nat) (done : Nat → Nat) (device : Nat → Completion) : Prop where
  first : Shows D p (done 0) (device 0)
  next : ∀ j, Shows D (p + j) (done (j + 1)) (device (j + 1))

/-- The states after any number of calls since `Init`, and the number of completions that were processed. -/
inductive Polled {n : Nat} (D : UsedHistory n) : Logged NetState Delivery → Nat → Prop
  | init {s : NetState} (h : Initial n s) : Polled D ⟨s, []⟩ 0
  | poll {s t : Logged NetState Delivery} {p k fuel : Nat} {done : Nat → Nat} {device : Nat → Completion}
      (h : Polled D s p) (hlooks : Looks D p done device)
      (hrun : (Deliveries.pollRXQueue device fuel).run s = .ok k t) : Polled D t (p + k)

/-! ## The loop -/

/-- The queue when `p` completions have been processed. -/
structure RxReady (n p : Nat) (s : NetState) : Prop where
  size : s.net.rxq.queueSize = n
  cursor : s.net.rxCursor = BitVec.ofNat 16 p

/-- What is delivered for the completions from number `p` on: the buffer with the number of the entry, and the length
of the completion. -/
def DeliversFrom {n : Nat} (D : UsedHistory n) (p : Nat) (l : List Delivery) : Prop :=
  ∀ i d, l[i]? = some d → d.desc = slot n (p + i) ∧ d.len = (D.len (p + i)).setWidth 64 ∧
    (D.id (p + i) = slot n (p + i) → d.page = D.content (p + i))

section

variable {n p k : Nat} {D : UsedHistory n} {done : Nat → Nat} {device : Nat → Completion}
  {s t : Logged NetState Delivery}

theorem RxReady.apply {s : NetState} (h : RxReady n p s) (c : Completion) :
    RxReady n p (c.apply s) := ⟨h.size, h.cursor⟩

theorem RxReady.of_rx {s t : NetState} (h : RxReady n p s) (hrx : rx t = rx s) : RxReady n p t :=
  ⟨(congrArg (fun r => r.1.queueSize) hrx).trans h.size, (congrArg Prod.snd hrx).trans h.cursor⟩

theorem deliversFrom_nil : DeliversFrom D p [] := by
  intro i d hd
  simp at hd

/-- The buffer of a look, and what is delivered after it. -/
theorem Shows.delivers {c : Completion} {m : Nat} {l : List Delivery} (h : Shows D p m c) (hlt : p < m)
    (hl : DeliversFrom D (p + 1) l) :
    DeliversFrom D p (⟨slot n p, c.page (slot n p), (c.usedLen (slot n p)).setWidth 64⟩ :: l) := by
  intro i e he
  cases i with
  | zero =>
    obtain rfl := Option.some.inj he
    refine ⟨rfl, ?_, fun hid => ?_⟩
    · rw [h.len p (le_refl p) hlt, add_zero]
    · rw [add_zero] at hid ⊢
      rw [← h.page p (le_refl p) hlt, hid]
  | succ i =>
    have := hl i e (by simpa using he)
    rwa [show p + 1 + i = p + (i + 1) by omega] at this

theorem Shows.done_eq {c : Completion} {d : Nat} (hn : n ≤ 256) (h : Shows D p d c)
    (he : BitVec.ofNat 16 d = BitVec.ofNat 16 p) : d = p := by
  have h1 := h.processed_le
  have h2 := h.offered
  have h3 := congrArg BitVec.toNat he
  simp only [BitVec.toNat_ofNat] at h3
  omega

/-- A call that found `p` completions processed has delivered some more. -/
def Delivering (D : UsedHistory n) (p : Nat) (s t : Logged NetState Delivery) (l : List Delivery) : Prop :=
  t.log = s.log ++ l ∧ DeliversFrom D p l

/-- A call has returned `k`. -/
def Delivered (D : UsedHistory n) (done : Nat → Nat) (p : Nat) (s : Logged NetState Delivery) (k : Nat)
    (t : Logged NetState Delivery) : Prop :=
  (∃ l, Delivering D p s t l ∧ k = l.length) ∧ RxReady n (p + k) t.state ∧ ∃ i, done i = p + k

/-- There is nothing to be seen. -/
theorem Shows.delivered_zero {i : Nat} {u : NetState} (hn' : n ≤ 256) (h : Shows D p (done i) (device i))
    (hs : RxReady n p s.state) (hused : (device i).usedIndex = s.state.net.rxCursor) :
    Delivered D done p ⟨u, s.log⟩ 0 s := by
  refine ⟨⟨[], ⟨(append_nil _).symm, deliversFrom_nil⟩, rfl⟩, hs, i, h.done_eq hn' ?_⟩
  rw [← h.usedIndex, hused, hs.cursor, add_zero]

/-- The rounds of the loop, wherever they end. -/
theorem pollLoop_delivers (hn : 0 < n) (hn' : n ≤ 256) (fuel j p : Nat) (s : Logged NetState Delivery)
    (hs : RxReady n p s.state) (hshows : ∀ i, Shows D (p + i) (done (j + i)) (device (j + i))) :
    Settles (Deliveries.pollLoop device fuel j) s (Delivered D done p s) fun _ t => ∃ l, Delivering D p s t l := by
  induction fuel generalizing j p s with
  | zero => exact ⟨[], (append_nil _).symm, deliversFrom_nil⟩
  | succ fuel ih =>
    have hshow : Shows D p (done j) (device j) := hshows 0
    have hready := hs.apply (device j)
    rw [Deliveries.pollLoop]
    refine settles_run_bind (a := (device j).usedIndex) (t := ⟨(device j).apply s.state, s.log⟩) rfl ?_
    refine settles_run_bind (a := ⟨(device j).apply s.state, s.log⟩) rfl ?_
    dsimp only
    split_ifs with hused
    · exact hshow.delivered_zero hn' (s := ⟨(device j).apply s.state, s.log⟩) hready hused
    · -- a round, which delivers the buffer with the number of the entry
      have hlt : p < done j := by
        refine lt_of_le_of_ne hshow.processed_le fun he => hused ?_
        rw [hshow.usedIndex, hready.cursor, he]
      have hidx : ((device j).apply s.state).net.rxCursor.toNat %
          ((device j).apply s.state).net.rxq.queueSize = slot n p := by
        rw [hready.cursor, hready.size]
        rfl
      have hassert : (assertIdx ((device j).apply s.state).net.rxq (slot n p)).run ((device j).apply s.state) =
          .ok () ((device j).apply s.state) := by
        refine run_assert_true (decide_eq_true ?_) _ _
        rw [hready.size]
        exact mod_lt _ hn
      rw [hidx]
      refine settles_run_bind (run_onState hassert) (settles_run_bind rfl ?_)
      have hdel : ∀ {l}, DeliversFrom D (p + 1) l → DeliversFrom D p (_ :: l) := fun hl => hshow.delivers hlt hl
      refine (settles_onState
        (settles_iff.2 ⟨fun v u hpacket => ?_, fun e u _ => ⟨_, rfl, hdel deliversFrom_nil⟩⟩)).bind
      have hkept := hready.of_rx (keeps_processPacket _ _ _ _ _ hpacket)
      refine settles_run_bind rfl ((ih (j + 1) (p + 1) _ ⟨hkept.size, ?_⟩ fun i => ?_).mono (fun k t h => ?_) ?_).bind
      · show u.net.rxCursor + 1#16 = _
        rw [hkept.cursor, BitVec.ofNat_add]
      · have := hshows (i + 1)
        rwa [show p + (i + 1) = p + 1 + i by omega, show j + (i + 1) = j + 1 + i by omega] at this
      · obtain ⟨⟨l, ⟨hlog, hl⟩, rfl⟩, hready', hdone⟩ := h
        rw [show p + 1 + l.length = p + (l.length + 1) by omega] at hready' hdone
        exact ⟨⟨_ :: l, ⟨hlog.trans (append_assoc _ _ _), hdel hl⟩, rfl⟩, hready', hdone⟩
      · rintro e t ⟨l, hlog, hl⟩
        exact ⟨_ :: l, hlog.trans (append_assoc _ _ _), hdel hl⟩

/-! ## Calls -/

theorem pollRXQueue_delivers (hn : 0 < n) (hn' : n ≤ 256) (hs : RxReady n p s.state) (hlooks : Looks D p done device)
    (fuel : Nat) :
    Settles (Deliveries.pollRXQueue device fuel) s (Delivered D done p s) fun _ t => ∃ l, Delivering D p s t l := by
  have hready := hs.apply (device 0)
  rw [Deliveries.pollRXQueue]
  refine settles_run_bind (a := (device 0).usedIndex) (t := ⟨(device 0).apply s.state, s.log⟩) rfl ?_
  refine settles_run_bind (a := ⟨(device 0).apply s.state, s.log⟩) rfl ?_
  split_ifs with hused
  · exact hlooks.first.delivered_zero hn' (s := ⟨(device 0).apply s.state, s.log⟩) hready hused
  · have hshows : ∀ i, Shows D (p + i) (done (1 + i)) (device (1 + i)) := by
      intro i
      rw [add_comm 1 i]
      exact hlooks.next i
    refine ((pollLoop_delivers hn hn' fuel 1 p ⟨(device 0).apply s.state, s.log⟩ hready hshows).mono (fun k t h => ?_)
      fun _ _ h => h).bind
    exact ⟨h.1, ⟨h.2.1.size, h.2.1.cursor⟩, h.2.2⟩

theorem queueSize_populateRX (page : Nat → Nat → Byte) :
    ∀ n i net, (populateRX page n i net).rxq.queueSize = net.rxq.queueSize
  | 0, _, _ => rfl
  | n + 1, i, net => by
    rw [populateRX, queueSize_populateRX page n]
    rfl

theorem Initial.ready {s : NetState} (h : Initial n s) : RxReady n 0 s := by
  obtain ⟨_, _, hsize, hrx⟩ := h.populated
  exact ⟨by rw [hrx, queueSize_populateRX, hsize], h.cursor⟩

theorem DeliversFrom.append {l l' : List Delivery} (h : DeliversFrom D 0 l) (h' : DeliversFrom D l.length l') :
    DeliversFrom D 0 (l ++ l') := by
  intro i d hd
  rcases lt_or_ge i l.length with hi | hi
  · rw [getElem?_append_left hi] at hd
    exact h i d hd
  · rw [getElem?_append_right hi] at hd
    have := h' (i - l.length) d hd
    rwa [show l.length + (i - l.length) = 0 + i by omega] at this

/-- What holds after any number of calls. -/
theorem Polled.delivers (hn : 0 < n) (hn' : n ≤ 256) (h : Polled D s p) :
    RxReady n p s.state ∧ s.log.length = p ∧ DeliversFrom D 0 s.log := by
  induction h with
  | init h => exact ⟨h.ready, rfl, deliversFrom_nil⟩
  | @poll s t p k fuel done device _ hlooks hrun ih =>
    obtain ⟨hready, hlen, hdel⟩ := ih
    obtain ⟨⟨_, ⟨hlog, hnew⟩, hk⟩, hready', -⟩ := (pollRXQueue_delivers hn hn' hready hlooks _).of_ok hrun
    rw [← hlen] at hnew
    refine ⟨hready', ?_, ?_⟩
    · rw [hlog, length_append, hlen, hk]
    · rw [hlog]
      exact hdel.append hnew

/-- The right buffers were delivered exactly when the completions name the entries' own numbers. -/
theorem DeliversFrom.right_iff {l : List Delivery} (h : DeliversFrom D 0 l) :
    (∀ k d, l[k]? = some d → d = D.delivery k) ↔ ∀ k < l.length, D.id k = slot n k := by
  constructor
  · intro hright k hk
    have hd : l[k]? = some l[k] := getElem?_eq_getElem hk
    obtain ⟨hdesc, -⟩ := h k _ hd
    rw [hright k _ hd, zero_add] at hdesc
    exact hdesc
  · intro hids k d hd
    obtain ⟨hdesc, hlen, hpage⟩ := h k d hd
    have hid := hids k (List.getElem?_eq_some_iff.1 hd).1
    rw [zero_add] at hdesc hlen hpage
    obtain ⟨_, _, _⟩ := d
    dsimp only at hdesc hlen hpage
    rw [UsedHistory.delivery, hdesc, hlen, hpage hid, hid]

/-- After any calls since `Init` and one more call, wherever it ends, the buffers that were processed are those the
device named, with their contents and lengths, exactly when it completed the descriptors in the order of the ring. A
call that returns has processed all completions it could see. -/
theorem deliveries_right_iff (hn : 0 < n) (hn' : n ≤ 256) (hs : Polled D s p) (hlooks : Looks D p done device)
    (fuel : Nat) :
    ((∀ (k : Nat) (d : Delivery), (final ((Deliveries.pollRXQueue device fuel).run s)).log[k]? = some d →
      d = D.delivery k) ↔ ∀ k < (final ((Deliveries.pollRXQueue device fuel).run s)).log.length, D.id k = slot n k) ∧
    ∀ k t, (Deliveries.pollRXQueue device fuel).run s = .ok k t → t.log.length = p + k ∧ ∃ i, done i = p + k := by
  obtain ⟨hready, hlen, hdel⟩ := hs.delivers hn hn'
  have hcall := pollRXQueue_delivers hn hn' hready hlooks fuel
  constructor
  · obtain ⟨l, hlog, hnew⟩ : ∃ l, Delivering D p s (final ((Deliveries.pollRXQueue device fuel).run s)) l := by
      cases hr : (Deliveries.pollRXQueue device fuel).run s with
      | ok k t =>
        obtain ⟨⟨l, h, -⟩, -⟩ := hcall.of_ok hr
        exact ⟨l, h⟩
      | error e t => exact hcall.of_error hr
    rw [← hlen] at hnew
    rw [hlog]
    exact (hdel.append hnew).right_iff
  · intro k t hrun
    obtain ⟨⟨_, ⟨hlog, -⟩, hk⟩, -, hdone⟩ := hcall.of_ok hrun
    exact ⟨by rw [hlog, length_append, hlen, hk], hdone⟩

end

/-! ## Two buffers -/

abbrev twoRxBuffers : NetState := rxBuffers 2

theorem twoRxBuffers_initial : Initial 2 twoRxBuffers := ⟨⟨_, _, rfl, rfl⟩, rfl⟩

/-- A device that fills the descriptor `i` with the number `i` and completes frames of 60 bytes in the order of `id`. -/
def numbered (id : Nat → Nat) (hid : ∀ k, id k < 2) : UsedHistory 2 :=
  ⟨id, fun _ => 70#32, fun k _ => BitVec.ofNat 8 (id k), hid⟩

/-- The device has completed two buffers when the driver first looks. Once they are processed, every look shows just
what was processed. -/
def twoDone (j : Nat) : Nat := max 2 (j - 1)

def twoLooks (j : Nat) : Completion := ⟨BitVec.ofNat 16 (twoDone j), fun i _ => BitVec.ofNat 8 i, fun _ => 70#32⟩

theorem looks_numbered (id : Nat → Nat) (hid : ∀ k, id k < 2) (halt : ∀ k, id k ≠ id (k + 1)) :
    Looks (numbered id hid) 0 twoDone twoLooks := by
  have hshows : ∀ p j, p ≤ twoDone j → twoDone j ≤ p + 2 → Shows (numbered id hid) p (twoDone j) (twoLooks j) := by
    intro p j hle hoff
    refine ⟨hle, hoff, fun i k hi hi' hk hk' he => ?_, rfl, fun _ _ _ => rfl, fun _ _ _ => rfl⟩
    have he : id i = id k := he
    rcases lt_trichotomy i k with hlt | heq | hlt
    · obtain rfl : k = i + 1 := by omega
      exact absurd he (halt i)
    · exact heq
    · obtain rfl : i = k + 1 := by omega
      exact absurd he.symm (halt k)
  constructor
  · exact hshows 0 0 (by decide) (by decide)
  · intro j
    rw [zero_add]
    refine hshows j (j + 1) ?_ ?_
    · unfold twoDone
      omega
    · unfold twoDone
      omega

/-- Completions in the order of the ring. -/
theorem deliveries_right_inOrder : ∃ t : Logged NetState Delivery,
    (final ((Deliveries.pollRXQueue twoLooks 3).run ⟨twoRxBuffers, []⟩)) = t ∧
      ∀ (k : Nat) (d : Delivery), t.log[k]? = some d →
        d = (numbered (· % 2) fun k => Nat.mod_lt k (by decide)).delivery k := by
  refine ⟨_, rfl, ?_⟩
  have hlooks := looks_numbered (· % 2) (fun k => mod_lt k (by decide)) (fun k => by omega)
  refine (deliveries_right_iff (by decide) (by decide) (.init twoRxBuffers_initial) hlooks 3).1.2 fun k hk => ?_
  have hlen : (final ((Deliveries.pollRXQueue twoLooks 3).run ⟨twoRxBuffers, []⟩)).log.length = 2 := by decide +kernel
  rw [hlen] at hk
  interval_cases k
  · rfl
  · rfl

/-- Two buffers are completed in the other order. The driver first processes the buffer 0, in which the device wrote the
second frame. -/
theorem deliveries_swapped :
    ∃ hid : ∀ k, (k + 1) % 2 < 2, Polled (numbered (fun k => (k + 1) % 2) hid) ⟨twoRxBuffers, []⟩ 0 ∧
    Looks (numbered (fun k => (k + 1) % 2) hid) 0 twoDone twoLooks ∧
    ((final ((Deliveries.pollRXQueue twoLooks 3).run ⟨twoRxBuffers, []⟩)).log.map fun d => (d.desc, d.page 0, d.len)) =
      [(0, 0#8, 70#64), (1, 1#8, 70#64)] ∧
    ((numbered (fun k => (k + 1) % 2) hid).delivery 0).desc = 1 ∧
    ((numbered (fun k => (k + 1) % 2) hid).delivery 0).page 0 = 1#8 := by
  refine ⟨fun k => mod_lt _ (by decide), .init twoRxBuffers_initial, looks_numbered _ _ fun k => ?_,
    by decide +kernel, rfl, rfl⟩
  omega

end Liumos.Inet
