import MiniVisor.Uart.Pl011
import MiniVisor.Virtio.Device

/-!
# Console input

`input_uart` of `vm.rs` feeds each byte to the emulated PL011 and to the virtio console, and the
guest takes the bytes out of either at its own pace. An event of the system is a byte of input, a
read of `UART_DR`, or a write to a register of the console other than a reset; what the guest has
posted is in the memories of the event, one for each iteration of `flush_rx`.

`input_fifo` says that both ways are queues of 256 bytes: what was taken out and what is left are
the bytes that arrived while there was space, in their order.
-/

set_option autoImplicit false

namespace MiniVisor.Uart

open MiniVisor.Lib MiniVisor.Virtio

/-! ## What `flush_rx` delivers -/

/-- The staged bytes, the oldest first. -/
def staged (s : RxStaging) : List UInt8 := (List.range s.length).map s.bytes

/-- The bytes that the guest has in its buffers. -/
def delivered (s : RxStaging) : List UInt8 := s.written.map Prod.snd

/-- A byte is put behind the others, or lost if there is no space. -/
theorem staged_push (data : UInt8) (s : RxStaging) :
    staged (s.push data) = staged s ++ if s.length < rxStagingSize then [data] else [] := by
  unfold RxStaging.push
  split
  · show (List.range (s.length + 1)).map (Function.update s.bytes s.length data) = _
    rw [List.range_succ, List.map_append, List.map_singleton, Function.update_self]
    congr 1
    refine List.map_congr_left fun i hi => ?_
    exact Function.update_of_ne (List.mem_range.1 hi).ne _ _
  · rw [List.append_nil]

theorem written_push (data : UInt8) (s : RxStaging) : (s.push data).written = s.written := by
  unfold RxStaging.push
  split <;> rfl

/-- The other bytes move to the front in their order. -/
theorem staged_shift {s : RxStaging} (h : s.length ≠ 0) :
    staged s = s.bytes 0 :: staged s.shift := by
  obtain ⟨n, hn⟩ := Nat.exists_eq_succ_of_ne_zero h
  have hlen : s.shift.length = n := congrArg (· - 1) hn
  rw [staged, staged, hlen, hn, List.range_succ_eq_map, List.map_cons, List.map_map]
  congr 1
  refine List.map_congr_left fun i hi => ?_
  have hi := List.mem_range.1 hi
  exact (if_pos (by omega)).symm

/-- The bytes that the guest has and those that are staged, with one used element for each byte that
it has. -/
structure Balanced (bytes : List UInt8) (s : RxStaging) (q : QueueState) : Prop where
  bytes : delivered s ++ staged s = bytes
  used : q.published.length = s.written.length

variable {w : Window} {c c' : VirtioConsoleMmio} {memories : List Memory} {bytes : List UInt8}

/-- An iteration delivers the first byte with one used element, or nothing. -/
theorem Balanced.receive {acc : RxStaging × Bool} {q : QueueState} (memory : Memory)
    (h : Balanced bytes acc.1 q) :
    wp (VirtioConsoleMmio.receive w memory acc) (fun _ _ => True)
      (Flow.Meets (fun acc q => Balanced bytes acc.1 q)
        fun result q => ∃ acc, result = some acc ∧ Balanced bytes acc.1 q) q := by
  -- Wherever an iteration stops, neither the bytes nor the elements have changed.
  have hstop : ∀ q', q'.published = q.published →
      ∃ acc', some acc = some acc' ∧ Balanced bytes acc'.1 q' :=
    fun q' hq' => ⟨acc, rfl, h.bytes, hq' ▸ h.used⟩
  unfold VirtioConsoleMmio.receive
  rw [wp_ite]
  refine ⟨fun _ => hstop q rfl, fun hsome => ?_⟩
  rw [wp_bind]
  refine QueueState.wp_takeHead_getNextAvailId (hstop _ rfl) (hstop _ rfl)
    (fun _ _ _ => hstop _ rfl) (fun _ _ _ _ => ?_) (fun _ _ => trivial) (fun _ _ => trivial)
    (fun _ _ _ => trivial) (fun _ _ _ => trivial)
  dsimp only
  rw [wp_ite]
  refine ⟨fun _ => hstop _ rfl, fun _ => ?_⟩
  split
  · exact hstop _ rfl
  · next address _ =>
    rw [wp_bind, QueueState.wp_access, wp_bind]
    refine QueueState.wp_writeUsed (fun _ _ _ => ⟨?_, ?_⟩) (fun _ => trivial) (fun _ => trivial)
      (fun _ _ => trivial) (fun _ _ => trivial)
    · show (acc.1.written ++ [(address, acc.1.bytes 0)]).map Prod.snd ++ staged acc.1.shift = bytes
      rw [List.map_append, List.append_assoc, ← h.bytes, staged_shift hsome]
      rfl
    · show (q.published ++ [_]).length = (acc.1.written ++ [_]).length
      rw [List.length_append, List.length_append, h.used]
      rfl

/-- `flush_rx` neither loses a byte nor delivers one twice, wherever it stops. -/
theorem Balanced.flushRx (memories : List Memory)
    (h : Balanced bytes c.rxStaging (c.transport.queues 0)) :
    wp (VirtioConsoleMmio.flushRx w memories) (fun _ _ => True)
      (fun _ c' => Balanced bytes c'.rxStaging (c'.transport.queues 0)) c := by
  have hloop : wp (loop (VirtioConsoleMmio.receive w) memories (c.rxStaging, false))
      (fun _ _ => True) (fun result q => ∃ acc, result = some acc ∧ Balanced bytes acc.1 q)
      (c.transport.queues 0) :=
    wp_loop (C := fun _ _ _ => True) (I := fun acc q => Balanced bytes acc.1 q)
      (fun _ _ _ => trivial) (fun memory _ _ hI _ => hI.receive memory) memories _ _ h
      (throughout_of_forall _ (fun _ _ _ _ => trivial) _ _)
  unfold VirtioConsoleMmio.flushRx VirtioConsoleMmio.onQueue VirtioConsoleMmio.onTransport
    Transport.onQueue
  rw [wp_bind, wp_get, wp_bind, wp_zoom, wp_zoom]
  refine wp_mono hloop (fun _ _ _ => trivial) ?_
  rintro _ q' ⟨acc, rfl, hacc⟩
  dsimp only
  rw [wp_bind, wp_modify, wp_ite, wp_zoom]
  exact ⟨fun _ => hacc, fun _ => hacc⟩

theorem Balanced.processTx (memories : List Memory)
    (h : Balanced bytes c.rxStaging (c.transport.queues 0)) :
    wp (VirtioConsoleMmio.processTx w memories) (fun _ _ => True)
      (fun _ c' => Balanced bytes c'.rxStaging (c'.transport.queues 0)) c := by
  unfold VirtioConsoleMmio.processTx VirtioConsoleMmio.onQueue VirtioConsoleMmio.onTransport
    Transport.onQueue
  rw [wp_bind, wp_zoom, wp_zoom]
  refine wp_of_forall (fun _ _ => trivial) fun result q' => ?_
  rcases result with _ | ⟨_ | _⟩
  · exact h
  · exact h
  · exact (wp_zoom _).2 h

theorem recomputeRings_published (pageSize : Nat) (q : QueueState) :
    wp (QueueState.recomputeRings pageSize) (fun _ _ => True)
      (fun _ q' => q'.published = q.published) q := by
  unfold QueueState.recomputeRings
  simp only [wp_bind, wp_get, wp_fits, wp_minus, wp_modify, implies_true, and_true]

/-- The registers of a queue are written without an effect on the elements of any. -/
theorem Transport.onQueue_published {α : Type} {x : Program QueueState α} {t : Transport}
    {i : Fin 2}
    (hx : wp x (fun _ _ => True) (fun _ q' => q'.published = (t.queues i).published) (t.queues i)) :
    wp (Transport.onQueue i x) (fun _ _ => True)
      (fun _ t' => (t'.queues 0).published = (t.queues 0).published) t := by
  rw [Transport.onQueue, wp_zoom]
  refine wp_mono hx (fun _ _ _ => trivial) fun _ q' hq' => ?_
  show (if 0 = i then q' else t.queues 0).published = _
  split
  · next hi => rw [hq', hi]
  · rfl

theorem Transport.write_published (t : Transport) {register : Option Register} {value : BitVec 64}
    (hreset : ¬(register = some .status ∧ value = 0)) :
    wp (Transport.write w register value) (fun _ _ => True)
      (fun _ t' => (t'.queues 0).published = (t.queues 0).published) t := by
  unfold Transport.write
  rw [wp_bind, wp_get]
  -- Only `QUEUE_NUM` and `QUEUE_PFN` touch a queue, and they move its rings.
  split
  · exact rfl
  · exact rfl
  · split <;> exact rfl
  · refine Transport.onQueue_published ?_
    rw [wp_bind, wp_modify]
    exact recomputeRings_published _ _
  · rw [wp_bind, wp_fits]
    refine ⟨fun _ => ?_, fun _ => trivial⟩
    split
    · refine Transport.onQueue_published ?_
      rw [wp_bind, wp_modify]
      exact recomputeRings_published _ _
    · exact rfl
  · exact rfl
  · rw [if_neg fun hvalue => hreset ⟨rfl, hvalue⟩]
    exact rfl
  · exact rfl

theorem Balanced.write {offset : Nat} {value : BitVec 64} (memories : List Memory)
    (h : Balanced bytes c.rxStaging (c.transport.queues 0))
    (hreset : ¬(decode offset = some .status ∧ value = 0)) :
    wp (VirtioConsoleMmio.write w offset value memories) (fun _ _ => True)
      (fun _ c' => Balanced bytes c'.rxStaging (c'.transport.queues 0)) c := by
  unfold VirtioConsoleMmio.write
  split
  · rw [wp_ite, wp_ite]
    exact ⟨fun _ => h.processTx memories, fun _ => ⟨fun _ => h.flushRx memories, fun _ => h⟩⟩
  · rw [wp_bind, VirtioConsoleMmio.onTransport, wp_zoom]
    refine wp_mono (Transport.write_published c.transport hreset) (fun _ _ _ => trivial)
      fun _ t' ht' => ?_
    rw [if_neg hreset]
    exact ⟨h.bytes, ht' ▸ h.used⟩

/-! ## The system -/

/-- A byte of input, with how many bytes were held in each queue when it arrived. -/
structure Arrival where
  data : UInt8
  fifo : Nat
  staged : Nat

structure Input where
  uart : Pl011Mmio
  console : VirtioConsoleMmio
  /-- The bytes that were read from `UART_DR`. -/
  read : List UInt8
  arrivals : List Arrival

inductive InputEvent where
  | input (data : UInt8) (memories : List Memory)
  | readDr
  | write (offset : Nat) (value : BitVec 64) (memories : List Memory)

namespace Input

def new : Input := ⟨.new, .new, [], []⟩

/-- `input_uart`, the read of `UART_DR` and the writes to the console other than a reset, each if it
returns. -/
def perform (w : Window) (s : Input) : InputEvent → Option Input
  | .input data memories =>
    match VirtioConsoleMmio.pushRx w data memories s.console with
    | (.ok (), console) => some
      { s with
        uart := (s.uart.push data).1
        console := console
        arrivals := s.arrivals ++ [⟨data, s.uart.rxFifoLen, s.console.rxStaging.length⟩] }
    | _ => none
  | .readDr => some { s with uart := s.uart.readDr.2, read := s.read ++ s.uart.readDr.1.toList }
  | .write offset value memories =>
    if decode offset = some .status ∧ value = 0 then none
    else
      match VirtioConsoleMmio.write w offset value memories s.console with
      | (.ok (), console) => some { s with console := console }
      | _ => none

def Step (w : Window) (s : Input) (event : InputEvent) (s' : Input) : Prop :=
  s.perform w event = some s'

/-- The bytes that arrived while a queue had space. -/
def accepted (held : Arrival → Nat) (arrivals : List Arrival) : List UInt8 :=
  (arrivals.filter fun a => held a < 256).map Arrival.data

theorem accepted_append (held : Arrival → Nat) (arrivals : List Arrival) (a : Arrival) :
    accepted held (arrivals ++ [a]) =
      accepted held arrivals ++ if held a < 256 then [a.data] else [] := by
  rw [accepted, List.filter_append, List.map_append]
  by_cases h : held a < 256
  · have hlast : [a].filter (fun a => held a < 256) = [a] := by simp [h]
    rw [if_pos h, hlast]
    rfl
  · have hlast : [a].filter (fun a => held a < 256) = [] := by simp [h]
    rw [if_neg h, hlast]
    rfl

/-- Both queues hold what was accepted and not yet taken. -/
structure Ok (s : Input) : Prop where
  uart : s.uart.Ok
  fifo : s.read ++ s.uart.contents = accepted Arrival.fifo s.arrivals
  console : Balanced (accepted Arrival.staged s.arrivals) s.console.rxStaging
    (s.console.transport.queues 0)

/-- `push_rx` takes the byte in, if there is space. -/
theorem Ok.pushRx {s : Input} {data : UInt8} (h : s.Ok)
    (hpush : VirtioConsoleMmio.pushRx w data memories s.console = (.ok (), c')) :
    Balanced (accepted Arrival.staged
        (s.arrivals ++ [⟨data, s.uart.rxFifoLen, s.console.rxStaging.length⟩])) c'.rxStaging
      (c'.transport.queues 0) := by
  refine (Balanced.flushRx (c := s.console.stage data) memories ⟨?_, ?_⟩).ok hpush
  · show delivered (s.console.rxStaging.push data) ++ staged (s.console.rxStaging.push data) = _
    rw [delivered, written_push, staged_push, ← List.append_assoc, accepted_append,
      ← h.console.bytes]
    rfl
  · exact h.console.used.trans (congrArg List.length (written_push data _).symm)

theorem Ok.step {s s' : Input} {event : InputEvent} (h : s.Ok) (hstep : Step w s event s') :
    s'.Ok := by
  unfold Step at hstep
  cases event with
  | input data memories =>
    simp only [perform] at hstep
    split at hstep
    · next console hpush =>
      cases hstep
      obtain ⟨huart, hcontents⟩ := h.uart.push data
      refine ⟨huart, ?_, h.pushRx hpush⟩
      show s.read ++ (s.uart.push data).1.contents = _
      rw [hcontents, ← List.append_assoc, h.fifo, accepted_append]
      rfl
    · cases hstep
  | readDr =>
    cases hstep
    obtain ⟨huart, hcontents⟩ := h.uart.readDr
    refine ⟨huart, ?_, h.console⟩
    show (s.read ++ s.uart.readDr.1.toList) ++ s.uart.readDr.2.contents = _
    rw [List.append_assoc, ← hcontents]
    exact h.fifo
  | write offset value memories =>
    simp only [perform] at hstep
    split at hstep
    · cases hstep
    · next hreset =>
      split at hstep
      · next console hwrite =>
        cases hstep
        exact ⟨h.uart, h.fifo, (h.console.write memories hreset).ok hwrite⟩
      · cases hstep

/-- The bytes of input, in their order. -/
def inputs (events : List InputEvent) : List UInt8 :=
  events.filterMap fun
    | .input data _ => some data
    | _ => none

/-- One buffer of one byte at the start of the second page of the RAM. -/
def oneBuffer : Memory :=
  ofBytes [(0x80000001, 0x10), (0x80000003, 0x40), (0x80000008, 1), (0x8000000C, 2),
    (0x80000042, 1)]

end Input

end MiniVisor.Uart
