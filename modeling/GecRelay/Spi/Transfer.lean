import GecRelay.Foundation.Schedule

/-!
# Polled transfers of the SPI controller

`spi_xfer` of the BCM2711 driver hands its two buffers to `spi_transfer_poll`.
The loop there writes a byte when the controller has space for one, reads a
byte when it has received one, and ends when `rxcnt` bytes have been read. The
bus is clocked by what is written only: the driver sends no filler, and it
reads `rxcnt` bytes where the header promises an echo of the `txcnt` bytes and
`rxcnt` more.

An iteration of the loop reads `cs` once. The controller shifts bytes between
the iterations; a shift inside one moves a byte from the head of one FIFO to
the tail of the other, which the rest of the iteration does not see.
-/

namespace GecRelay

open Foundation

/-- The flags of a `cs` that is read: `TXD`, `RXD` and `DONE`. -/
structure SpiCs where
  txd : Bool
  rxd : Bool
  done : Bool

inductive SpiEvent
  /-- An iteration of one of the loops, with what the controller reports. -/
  | poll (cs : SpiCs)
  /-- A byte is shifted out, and `miso` in. -/
  | shift (miso : UInt8)

inductive SpiPc
  | transfer
  | done
  | returned
deriving DecidableEq

/-- `spi_bus_t` during a transfer, with the FIFOs of the controller; and what
was written to them, shifted in and stored through `rxbuf` since the start. -/
structure SpiBus where
  pc : SpiPc
  txbuf : List UInt8
  rxsize : ℕ
  txFifo : List UInt8
  rxFifo : List UInt8
  written : List UInt8
  shiftedIn : List UInt8
  stored : List UInt8

namespace SpiBus

/-- `fifo = *txbuf`, if the controller has space and there is a byte left. -/
def write (s : SpiBus) (txd : Bool) : SpiBus :=
  if txd then
    match s.txbuf with
    | [] => s
    | b :: txbuf =>
        { s with txbuf := txbuf, txFifo := s.txFifo ++ [b], written := s.written ++ [b] }
  else s

/-- `*rxbuf = fifo`. `RXD` is not set when the FIFO is empty. -/
def read (s : SpiBus) (rxd : Bool) : SpiBus :=
  if rxd then
    match s.rxFifo with
    | [] => s
    | b :: rxFifo =>
        { s with rxFifo := rxFifo, stored := s.stored ++ [b], rxsize := s.rxsize - 1 }
  else s

/-- `spi_transfer_poll`, up to the next read of `cs`. `DONE` is set when
everything written has been shifted. -/
def spiTransferPoll (s : SpiBus) (cs : SpiCs) : SpiBus :=
  match s.pc with
  | .transfer => if s.rxsize > 0 then (s.write cs.txd).read cs.rxd else { s with pc := .done }
  | .done => if cs.done ∧ s.txFifo = [] then { s with pc := .returned } else s
  | .returned => s

def shift (s : SpiBus) (miso : UInt8) : SpiBus :=
  match s.txFifo with
  | [] => s
  | _ :: txFifo =>
      { s with txFifo := txFifo, rxFifo := s.rxFifo ++ [miso], shiftedIn := s.shiftedIn ++ [miso] }

end SpiBus

def spiMachine : Machine SpiBus SpiEvent Unit where
  step s
    | .poll cs => ((), s.spiTransferPoll cs)
    | .shift miso => ((), s.shift miso)

/-- `spi_xfer`, with an idle controller. -/
def spiXfer (txdata : List UInt8) (rxcnt : ℕ) : SpiBus where
  pc := .transfer
  txbuf := txdata
  rxsize := rxcnt
  txFifo := []
  rxFifo := []
  written := []
  shiftedIn := []
  stored := []

/-- The run of a transfer on a schedule. -/
def spiRun (txdata : List UInt8) (rxcnt : ℕ) (sched : ℕ → SpiEvent) : ℕ → SpiBus :=
  spiMachine.trace (spiXfer txdata rxcnt) sched

/-- What the controller promises: bytes that are written are shifted, and a
flag that is set is seen by the loop that waits for it. -/
structure FairSchedule (txdata : List UInt8) (rxcnt : ℕ) (sched : ℕ → SpiEvent) : Prop where
  shifts : ∀ n, (spiRun txdata rxcnt sched n).txFifo ≠ [] →
    ∃ m, n ≤ m ∧ ∃ miso, sched m = .shift miso
  txd : ∀ n, (spiRun txdata rxcnt sched n).pc = .transfer →
    ∃ m, n ≤ m ∧ ∃ cs, sched m = .poll cs ∧ cs.txd = true
  rxd : ∀ n, (spiRun txdata rxcnt sched n).pc = .transfer →
    (spiRun txdata rxcnt sched n).rxFifo ≠ [] →
    ∃ m, n ≤ m ∧ ∃ cs, sched m = .poll cs ∧ cs.rxd = true
  done : ∀ n, (spiRun txdata rxcnt sched n).pc = .done →
    (spiRun txdata rxcnt sched n).txFifo = [] →
    ∃ m, n ≤ m ∧ ∃ cs, sched m = .poll cs ∧ cs.done = true

/-- **The contract of `spi_xfer`**: it returns, has written `txdata` and then
filler only, and has stored what was shifted in, `txcnt` bytes of echo and
`rxcnt` more; nothing is ever stored beyond them. -/
structure SpiContract (txdata : List UInt8) (rxcnt : ℕ) (sched : ℕ → SpiEvent) : Prop where
  returns : ∃ n, (spiRun txdata rxcnt sched n).pc = .returned ∧
    (∃ filler, (spiRun txdata rxcnt sched n).written = txdata ++ filler) ∧
    (spiRun txdata rxcnt sched n).stored =
      (spiRun txdata rxcnt sched n).shiftedIn.take (txdata.length + rxcnt) ∧
    (spiRun txdata rxcnt sched n).stored.length = txdata.length + rxcnt
  inBounds : ∀ n, (spiRun txdata rxcnt sched n).stored.length ≤ txdata.length + rxcnt

/-! ## What a step keeps -/

/-- Nothing is lost in the FIFOs. -/
structure SpiInv (txdata : List UInt8) (rxcnt : ℕ) (s : SpiBus) : Prop where
  sent : s.written ++ s.txbuf = txdata
  clocked : s.written.length = s.shiftedIn.length + s.txFifo.length
  received : s.stored ++ s.rxFifo = s.shiftedIn
  counted : s.stored.length + s.rxsize = rxcnt
  left : s.pc ≠ .transfer → s.rxsize = 0

section Steps

variable {txdata : List UInt8} {rxcnt : ℕ} {s : SpiBus}

theorem SpiInv.write (h : SpiInv txdata rxcnt s) (txd : Bool) :
    SpiInv txdata rxcnt (s.write txd) := by
  rw [SpiBus.write]
  split
  · split
    · exact h
    · next b txbuf htx =>
        refine ⟨?_, ?_, h.received, h.counted, h.left⟩
        · rw [← h.sent, htx, List.append_assoc, List.singleton_append]
        · rw [List.length_append, List.length_append, h.clocked]
          exact Nat.add_assoc _ _ _
  · exact h

theorem SpiInv.read (h : SpiInv txdata rxcnt s) (hsize : s.rxsize > 0) (rxd : Bool) :
    SpiInv txdata rxcnt (s.read rxd) := by
  rw [SpiBus.read]
  split
  · split
    · exact h
    · next b rxFifo hrx =>
        refine ⟨h.sent, h.clocked, ?_, ?_, fun hpc => ?_⟩
        · rw [← h.received, hrx, List.append_assoc, List.singleton_append]
        · have := h.counted
          rw [List.length_append, List.length_singleton]
          dsimp only
          omega
        · exact absurd (h.left hpc) (Nat.ne_of_gt hsize)
  · exact h

theorem write_frame (s : SpiBus) (txd : Bool) :
    (s.write txd).rxsize = s.rxsize ∧ (s.write txd).rxFifo = s.rxFifo := by
  rw [SpiBus.write]
  split
  · split <;> exact ⟨rfl, rfl⟩
  · exact ⟨rfl, rfl⟩

theorem SpiInv.spiTransferPoll (h : SpiInv txdata rxcnt s) (cs : SpiCs) :
    SpiInv txdata rxcnt (s.spiTransferPoll cs) := by
  rw [SpiBus.spiTransferPoll]
  split
  · split
    · next hsize => exact (h.write cs.txd).read (by rwa [(write_frame s cs.txd).1]) cs.rxd
    · next hsize =>
        exact ⟨h.sent, h.clocked, h.received, h.counted, fun _ => Nat.eq_zero_of_not_pos hsize⟩
  · next hpc =>
      split
      · exact ⟨h.sent, h.clocked, h.received, h.counted, fun _ => h.left (by rw [hpc]; nofun)⟩
      · exact h
  · exact h

theorem SpiInv.shift (h : SpiInv txdata rxcnt s) (miso : UInt8) :
    SpiInv txdata rxcnt (s.shift miso) := by
  rw [SpiBus.shift]
  split
  · exact h
  · next b txFifo htx =>
      refine ⟨h.sent, ?_, ?_, h.counted, h.left⟩
      · rw [h.clocked, htx, List.length_append, List.length_cons, List.length_singleton,
          Nat.add_assoc, Nat.add_comm 1]
      · rw [← h.received, List.append_assoc]

theorem SpiInv.step (s : SpiBus) (e : SpiEvent) (h : SpiInv txdata rxcnt s) :
    SpiInv txdata rxcnt (spiMachine.step s e).2 := by
  cases e with
  | poll cs => exact h.spiTransferPoll cs
  | shift miso => exact h.shift miso

theorem spiInv_run (txdata : List UInt8) (rxcnt : ℕ) (sched : ℕ → SpiEvent) (n : ℕ) :
    SpiInv txdata rxcnt (spiRun txdata rxcnt sched n) :=
  have hstart : SpiInv txdata rxcnt (spiXfer txdata rxcnt) :=
    ⟨rfl, rfl, rfl, Nat.zero_add rxcnt, fun h => absurd rfl h⟩
  Machine.trace_inv SpiInv.step hstart n

end Steps

/-! ## Progress -/

def SpiPc.rank : SpiPc → ℕ
  | .transfer => 2
  | .done => 1
  | .returned => 0

/-- The moves that are left: a byte is written, shifted and read. -/
def SpiBus.toMove (s : SpiBus) : ℕ :=
  3 * s.txbuf.length + 2 * s.txFifo.length + s.rxFifo.length + s.pc.rank

section Progress

variable {s : SpiBus}

theorem write_cases (s : SpiBus) (txd : Bool) :
    s.write txd = s ∨ (s.write txd).toMove < s.toMove := by
  rw [SpiBus.write]
  split
  · split
    · exact Or.inl rfl
    · next b txbuf htx =>
        right
        simp only [SpiBus.toMove, htx, List.length_append, List.length_cons, List.length_nil]
        omega
  · exact Or.inl rfl

theorem read_cases (s : SpiBus) (rxd : Bool) :
    s.read rxd = s ∨ (s.read rxd).toMove < s.toMove := by
  rw [SpiBus.read]
  split
  · split
    · exact Or.inl rfl
    · next b rxFifo hrx =>
        right
        simp only [SpiBus.toMove, hrx, List.length_cons]
        omega
  · exact Or.inl rfl

theorem spiTransferPoll_cases (s : SpiBus) (cs : SpiCs) :
    s.spiTransferPoll cs = s ∨ (s.spiTransferPoll cs).toMove < s.toMove := by
  rw [SpiBus.spiTransferPoll]
  split
  · next hpc =>
      split
      · rcases write_cases s cs.txd with hw | hw
        · rw [hw]
          exact read_cases s cs.rxd
        · right
          rcases read_cases (s.write cs.txd) cs.rxd with hr | hr
          · rwa [hr]
          · exact Nat.lt_trans hr hw
      · right
        simp only [SpiBus.toMove, hpc, SpiPc.rank]
        omega
  · next hpc =>
      split
      · right
        simp only [SpiBus.toMove, hpc, SpiPc.rank]
        omega
      · exact Or.inl rfl
  · exact Or.inl rfl

theorem shift_cases (s : SpiBus) (miso : UInt8) :
    s.shift miso = s ∨ (s.shift miso).toMove < s.toMove := by
  rw [SpiBus.shift]
  split
  · exact Or.inl rfl
  · next b txFifo htx =>
      right
      simp only [SpiBus.toMove, htx, List.length_append, List.length_cons, List.length_nil]
      omega

/-- **Every event moves something or changes nothing.** -/
theorem spi_step_cases (s : SpiBus) (e : SpiEvent) :
    (spiMachine.step s e).2 = s ∨ (spiMachine.step s e).2.toMove < s.toMove := by
  cases e with
  | poll cs => exact spiTransferPoll_cases s cs
  | shift miso => exact shift_cases s miso

end Progress

section Runs

variable {txdata : List UInt8} {rxcnt : ℕ} {s : SpiBus} {sched : ℕ → SpiEvent}

/-- As long as bytes are to be read there are bytes on their way. -/
theorem SpiInv.onTheWay (h : SpiInv txdata rxcnt s) (hle : rxcnt ≤ txdata.length)
    (hsize : s.rxsize > 0) : s.txbuf ≠ [] ∨ s.txFifo ≠ [] ∨ s.rxFifo ≠ [] := by
  by_contra hnone
  rw [not_or, not_or, not_not, not_not, not_not] at hnone
  obtain ⟨htx, htxFifo, hrxFifo⟩ := hnone
  have hsent := congrArg List.length h.sent
  have hreceived := congrArg List.length h.received
  have hclocked := h.clocked
  have hcounted := h.counted
  rw [htx, List.append_nil] at hsent
  rw [hrxFifo, List.append_nil] at hreceived
  rw [htxFifo, List.length_nil] at hclocked
  omega

theorem write_ne (htx : s.txbuf ≠ []) : s.write true ≠ s := by
  obtain ⟨b, txbuf, htx⟩ := List.exists_cons_of_ne_nil htx
  intro heq
  have hsame := congrArg SpiBus.txbuf heq
  rw [SpiBus.write, if_pos rfl, htx] at hsame
  exact absurd hsame.symm (List.cons_ne_self b txbuf)

theorem read_ne (hrx : s.rxFifo ≠ []) : s.read true ≠ s := by
  obtain ⟨b, rxFifo, hrx⟩ := List.exists_cons_of_ne_nil hrx
  intro heq
  have hsame := congrArg SpiBus.rxFifo heq
  rw [SpiBus.read, if_pos rfl, hrx] at hsame
  exact absurd hsame.symm (List.cons_ne_self b rxFifo)

theorem shift_ne (htx : s.txFifo ≠ []) (miso : UInt8) : s.shift miso ≠ s := by
  obtain ⟨b, txFifo, htx⟩ := List.exists_cons_of_ne_nil htx
  intro heq
  have hsame := congrArg SpiBus.txFifo heq
  rw [SpiBus.shift, htx] at hsame
  exact absurd hsame.symm (List.cons_ne_self b txFifo)

/-- An iteration that can write or read does. -/
theorem spiTransferPoll_ne (hpc : s.pc = .transfer) (hsize : s.rxsize > 0) {cs : SpiCs}
    (h : (cs.txd = true ∧ s.txbuf ≠ []) ∨ (cs.rxd = true ∧ s.rxFifo ≠ [])) :
    s.spiTransferPoll cs ≠ s := by
  have hpoll : s.spiTransferPoll cs = (s.write cs.txd).read cs.rxd := by
    rw [SpiBus.spiTransferPoll, hpc]
    exact if_pos hsize
  have hless : ((s.write cs.txd).read cs.rxd).toMove < s.toMove := by
    rcases h with ⟨hcs, htx⟩ | ⟨hcs, hrx⟩
    · have hw := (write_cases s cs.txd).resolve_left (hcs ▸ write_ne htx)
      rcases read_cases (s.write cs.txd) cs.rxd with hr | hr
      · rwa [hr]
      · exact Nat.lt_trans hr hw
    · have hrx' : (s.write cs.txd).rxFifo ≠ [] := by rwa [(write_frame s cs.txd).2]
      have hr := (read_cases (s.write cs.txd) cs.rxd).resolve_left (hcs ▸ read_ne hrx')
      rcases write_cases s cs.txd with hw | hw
      · rwa [hw] at hr ⊢
      · exact Nat.lt_trans hr hw
  intro heq
  rw [← hpoll, heq] at hless
  exact Nat.lt_irrefl _ hless

theorem spiTransferPoll_leaves (hpc : s.pc = .transfer) (hsize : ¬s.rxsize > 0) (cs : SpiCs) :
    s.spiTransferPoll cs ≠ s := by
  intro heq
  have hsame := congrArg SpiBus.pc heq
  simp only [SpiBus.spiTransferPoll, hpc, if_neg hsize] at hsame
  cases hsame

theorem spiTransferPoll_returns (hpc : s.pc = .done) (htx : s.txFifo = []) {cs : SpiCs}
    (hcs : cs.done = true) : s.spiTransferPoll cs ≠ s := by
  intro heq
  have hsame := congrArg SpiBus.pc heq
  simp only [SpiBus.spiTransferPoll, hpc, if_pos (And.intro hcs htx)] at hsame
  cases hsame

/-- **A transfer that does not ask for more than it sends returns**, on every
fair schedule. -/
theorem FairSchedule.returns (h : FairSchedule txdata rxcnt sched)
    (hle : rxcnt ≤ txdata.length) : ∃ n, (spiRun txdata rxcnt sched n).pc = .returned := by
  apply Machine.trace_reaches spi_step_cases fun s => s.pc = .returned
  intro n hgoal
  have hinv := spiInv_run txdata rxcnt sched n
  have hshift : (spiRun txdata rxcnt sched n).txFifo ≠ [] →
      ∃ m, n ≤ m ∧ (spiMachine.step (spiRun txdata rxcnt sched n) (sched m)).2 ≠
        spiRun txdata rxcnt sched n := by
    intro htx
    obtain ⟨m, hm, miso, hmiso⟩ := h.shifts n htx
    refine ⟨m, hm, ?_⟩
    rw [hmiso]
    exact shift_ne htx miso
  cases hpc : (spiRun txdata rxcnt sched n).pc with
  | transfer =>
      by_cases hsize : (spiRun txdata rxcnt sched n).rxsize > 0
      · rcases hinv.onTheWay hle hsize with htx | htx | hrx
        · obtain ⟨m, hm, cs, hcs, htxd⟩ := h.txd n hpc
          refine ⟨m, hm, ?_⟩
          rw [hcs]
          exact spiTransferPoll_ne hpc hsize (Or.inl ⟨htxd, htx⟩)
        · exact hshift htx
        · obtain ⟨m, hm, cs, hcs, hrxd⟩ := h.rxd n hpc hrx
          refine ⟨m, hm, ?_⟩
          rw [hcs]
          exact spiTransferPoll_ne hpc hsize (Or.inr ⟨hrxd, hrx⟩)
      · obtain ⟨m, hm, cs, hcs, -⟩ := h.txd n hpc
        refine ⟨m, hm, ?_⟩
        rw [hcs]
        exact spiTransferPoll_leaves hpc hsize cs
  | done =>
      by_cases htx : (spiRun txdata rxcnt sched n).txFifo = []
      · obtain ⟨m, hm, cs, hcs, hdone⟩ := h.done n hpc htx
        refine ⟨m, hm, ?_⟩
        rw [hcs]
        exact spiTransferPoll_returns hpc htx hdone
      · exact hshift htx
  | returned => exact absurd hpc hgoal

/-- What a transfer that has returned has stored: the first `rxcnt` bytes of
the echo. -/
theorem SpiInv.returned (h : SpiInv txdata rxcnt s) (hpc : s.pc = .returned) :
    s.stored.length = rxcnt ∧ s.stored = s.shiftedIn.take rxcnt ∧
    s.shiftedIn.length ≤ txdata.length := by
  have hsize := h.left (by rw [hpc]; nofun)
  have hlen : s.stored.length = rxcnt := by
    have := h.counted
    omega
  refine ⟨hlen, ?_, ?_⟩
  · rw [← h.received, ← hlen, List.take_left]
  · have hclocked := h.clocked
    have hsent := congrArg List.length h.sent
    rw [List.length_append] at hsent
    omega

end Runs

/-- **When a transfer returns.** On every fair schedule, exactly when it does
not ask for more bytes than it sends; and then it has stored the first `rxcnt`
bytes of the echo. -/
theorem transfer_returns_iff {txdata : List UInt8} {rxcnt : ℕ} {sched : ℕ → SpiEvent}
    (h : FairSchedule txdata rxcnt sched) :
    ((∃ n, (spiRun txdata rxcnt sched n).pc = .returned) ↔ rxcnt ≤ txdata.length) ∧
    ∀ n, (spiRun txdata rxcnt sched n).pc = .returned →
      (spiRun txdata rxcnt sched n).stored =
        (spiRun txdata rxcnt sched n).shiftedIn.take rxcnt := by
  refine ⟨⟨?_, h.returns⟩, fun n hn => ((spiInv_run txdata rxcnt sched n).returned hn).2.1⟩
  rintro ⟨n, hn⟩
  obtain ⟨hlen, hstored, hshifted⟩ := (spiInv_run txdata rxcnt sched n).returned hn
  rw [hstored, List.length_take] at hlen
  omega

/-- The contract of a transfer fails on a schedule unless it is empty. -/
theorem SpiContract.empty {txdata : List UInt8} {rxcnt : ℕ} {sched : ℕ → SpiEvent}
    (h : SpiContract txdata rxcnt sched) : txdata = [] ∧ rxcnt = 0 := by
  obtain ⟨n, hpc, -, -, hall⟩ := h.returns
  obtain ⟨hlen, hstored, hshifted⟩ := (spiInv_run txdata rxcnt sched n).returned hpc
  rw [hstored, List.length_take] at hlen
  rw [hstored, List.length_take] at hall
  exact ⟨List.eq_nil_of_length_eq_zero (by omega), by omega⟩

/-- `spi_xfer` keeps its contract on every fair schedule. -/
def SpiCompletes (txdata : List UInt8) (rxcnt : ℕ) : Prop :=
  ∀ sched, FairSchedule txdata rxcnt sched → SpiContract txdata rxcnt sched

/-- The loop polls with every flag set, and the controller shifts in turn. -/
def eagerSchedule (n : ℕ) : SpiEvent := if n % 2 = 0 then .poll ⟨true, true, true⟩ else .shift 0

theorem eagerSchedule_even (n : ℕ) : eagerSchedule (2 * n) = .poll ⟨true, true, true⟩ :=
  if_pos (Nat.mul_mod_right 2 n)

theorem eagerSchedule_odd (n : ℕ) : eagerSchedule (2 * n + 1) = .shift 0 :=
  if_neg (by omega)

theorem fair_eagerSchedule (txdata : List UInt8) (rxcnt : ℕ) :
    FairSchedule txdata rxcnt eagerSchedule where
  shifts n _ := ⟨2 * n + 1, by omega, 0, eagerSchedule_odd n⟩
  txd n _ := ⟨2 * n, by omega, _, eagerSchedule_even n, rfl⟩
  rxd n _ _ := ⟨2 * n, by omega, _, eagerSchedule_even n, rfl⟩
  done n _ _ := ⟨2 * n, by omega, _, eagerSchedule_even n, rfl⟩

/-- **When `spi_xfer` keeps its contract**: exactly when there is nothing to
transfer. -/
theorem spi_completes_exactly (txdata : List UInt8) (rxcnt : ℕ) :
    SpiCompletes txdata rxcnt ↔ txdata = [] ∧ rxcnt = 0 := by
  constructor
  · intro h
    exact (h eagerSchedule (fair_eagerSchedule txdata rxcnt)).empty
  · rintro ⟨rfl, rfl⟩ sched hfair
    refine ⟨?_, fun n => ?_⟩
    · obtain ⟨n, hn⟩ := hfair.returns (Nat.le_refl 0)
      have hinv := spiInv_run [] 0 sched n
      obtain ⟨hlen, hstored, -⟩ := hinv.returned hn
      refine ⟨n, hn, ⟨[], (List.append_eq_nil_iff.mp hinv.sent).1⟩, hstored, hlen⟩
    · have := (spiInv_run [] 0 sched n).counted
      show _ ≤ 0
      omega

/-- One byte is sent and three are asked for: the loop does not end. -/
theorem spi_read_hangs :
    FairSchedule [0x9F] 3 eagerSchedule ∧
    (∀ n, (spiRun [0x9F] 3 eagerSchedule n).pc ≠ .returned) ∧
    ¬SpiCompletes [0x9F] 3 := by
  have hfair := fair_eagerSchedule [0x9F] 3
  refine ⟨hfair, fun n hn => ?_, fun h => ?_⟩
  · exact absurd ((transfer_returns_iff hfair).1.mp ⟨n, hn⟩) (by decide)
  · exact absurd (h eagerSchedule hfair).empty.2 (by decide)

end GecRelay
