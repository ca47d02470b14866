import MiniVisor.Drivers.Descriptor

/-!
# Control transfers

A model of `control_transfer` in `drivers/xhci.rs` up to the doorbell. The Setup TRB is written
first, with the wrong cycle bit; then the bounce buffer is allocated; then the other TRBs are
written and the Setup TRB is committed.

When the bounce buffer cannot be allocated the call returns, and the Setup TRB stays in the ring
with the wrong cycle bit. The controller waits in front of it and the next TD is written behind it.
So `failed_control_harmless_iff`: the controller reads what is issued from then on exactly when the
call does not fail in this way.
-/

set_option autoImplicit false

namespace MiniVisor.Drivers

open MiniVisor.Lib

/-! ## The code -/

def trbIdt : BitVec 32 := 0x40
def trbDirIn : BitVec 32 := 0x10000
def trbSetup : BitVec 32 := 2
def trbData : BitVec 32 := 3
def trbStatus : BitVec 32 := 4

def usbDirIn : BitVec 8 := 0x80

structure SetupPacket where
  requestType : BitVec 8
  request : BitVec 8
  value : BitVec 16
  index : BitVec 16
  length : BitVec 16

def SetupPacket.isIn (setup : SetupPacket) : Bool := setup.requestType &&& usbDirIn ≠ 0

/-- What `control_transfer` reads of the controller, of the device and of the machine. -/
structure ControlEndpoint where
  hciVersion : Nat
  ep0MaxPacket : Nat
  dmaOffset : Nat
  lineSize : Nat

/-- The Setup TRB without its cycle bit. -/
def setupTrb (ep : ControlEndpoint) (setup : SetupPacket) (length : Nat) : Trb :=
  ⟨setup.requestType.setWidth 32 ||| setup.request.setWidth 32 <<< 8 |||
      setup.value.setWidth 32 <<< 16,
    setup.index.setWidth 32 ||| setup.length.setWidth 32 <<< 16, 8,
    trbType trbSetup ||| trbIdt |||
      if ep.hciVersion ≥ 0x100 ∧ length > 0 then if setup.isIn then 0x30000 else 0x20000 else 0⟩

/-- The Data TRB without its cycle bit. -/
def dataTrb (ep : ControlEndpoint) (setup : SetupPacket) (dataBus length : Nat) : Trb :=
  ⟨BitVec.ofNat 32 dataBus, BitVec.ofNat 32 (dataBus / 2 ^ 32),
    trbLen length ||| trbTdSize (transferTrbRemainder length length length ep.ep0MaxPacket),
    trbType trbData ||| if setup.isIn then trbDirIn ||| trbIsp else 0⟩

/-- The Status TRB without its cycle bit. -/
def statusTrb (setup : SetupPacket) (length : Nat) : Trb :=
  ⟨0, 0, 0, trbType trbStatus ||| trbIoc ||| if length = 0 ∨ ¬setup.isIn then trbDirIn else 0⟩

/-- The address that the controller gets, if the bounce buffer can be allocated when one is needed.
-/
def controlDma (ep : ControlEndpoint) (bounce : Option Nat) (bufferAddress length : Nat) :
    Option Nat :=
  if length > 0 ∧ needsBounceBuffer ep.lineSize bufferAddress length then bounce
  else some bufferAddress

/-- `control_transfer` up to the doorbell: whether the doorbell is rung, and the ring. The bounce
buffer is what its allocation returns. -/
def queueControl (ep : ControlEndpoint) (bounce : Option Nat) (ring : TrbRing) (setup : SetupPacket)
    (bufferAddress length : Nat) : Except Fault (Bool × TrbRing) := do
  let startIndex := ring.enqueueIndex
  let startCycle := ring.cycleState
  let ring := ring.pushTrbRaw (firstFields startCycle (setupTrb ep setup length))
  match controlDma ep bounce bufferAddress length with
  | none => return (false, ring)
  | some dmaBufferAddress =>
    let ring ← if length > 0 then do
        let dataBus ← toBus ep.dmaOffset dmaBufferAddress
        pure (ring.pushTrbRaw (nextFields ring.cycleState (dataTrb ep setup dataBus length)))
      else pure ring
    let ring := ring.pushTrbRaw (nextFields ring.cycleState (statusTrb setup length))
    return (true, ring.commitFirstTrb startIndex startCycle)

/-! ## The controller at work -/

/-- A TD is written. -/
def TrbRing.issue (ring : TrbRing) (td : Td) : TrbRing :=
  match td.trbs with
  | [] => ring
  | t :: rest => ring.writeTd t rest

namespace Consumer

/-- The controller reads until it has nothing to do. -/
def drain (ring : TrbRing) : (fuel : Nat) → Consumer → Consumer × List Trb
  | 0, c => (c, [])
  | fuel + 1, c =>
    match c.next ring with
    | none => (c, [])
    | some (taken, c') =>
      let (last, trbs) := drain ring fuel c'
      (last, (taken.map Trb.body).toList ++ trbs)

/-- Steps that are enough for a full ring and two Link TRBs. -/
def drainFuel : Nat := 2 * 63 + 2

/-- What the controller reads when TDs are issued one after the other, each when the controller is
at rest. -/
def serve (ring : TrbRing) (c : Consumer) : List Td → List Trb
  | [] => (c.drain ring drainFuel).2
  | td :: later =>
    let (c', trbs) := c.drain ring drainFuel
    trbs ++ serve (ring.issue td) c' later

section Drain

variable {ring : TrbRing} {all : List Trb}

theorem drain_rest {c : Consumer} (h : c.next ring = none) (fuel : Nat) :
    c.drain ring fuel = (c, []) := by
  cases fuel with
  | zero => rfl
  | succ fuel =>
    unfold drain
    rw [h]

theorem drain_step {c c' : Consumer} {taken : Option Trb} (h : c.next ring = some (taken, c'))
    (fuel : Nat) : c.drain ring (fuel + 1) =
      ((c'.drain ring fuel).1, (taken.map Trb.body).toList ++ (c'.drain ring fuel).2) := by
  rw [drain, h]

/-- The controller reads what is in the ring. The induction is on what it has not read. -/
theorem drain_eq (h : ring.Written all none) (hplain : ∀ t ∈ all, t.Plain) (rest : List Trb) :
    ∀ (done : List Trb) (c : Consumer) (fuel : Nat), all = done ++ rest → c.At done.length →
      rest.length ≤ 63 → 2 * rest.length ≤ fuel →
      ∃ c', c.drain ring fuel = (c', rest) ∧ c'.At all.length := by
  induction rest with
  | nil =>
    intro done c fuel hall hat _ _
    rw [List.append_nil] at hall
    rw [← hall] at hat
    exact ⟨c, drain_rest (next_empty h hat hplain) fuel, hat⟩
  | cons t rest ih =>
    intro done c fuel hall hat hlength hfuel
    have hall' : all.length = done.length + (rest.length + 1) := by
      rw [hall, List.length_append, List.length_cons]
    have hdone : done.length < all.length := by omega
    have helem : all[done.length] = t := by
      simp only [hall]
      rw [List.getElem_append_right (Nat.le_refl _)]
      simp
    rw [List.length_cons] at hlength hfuel
    have hbody := (hplain _ (List.getElem_mem hdone)).body_nextFields
      (lapCycle_cases (done.length / 63))
    have htaken := next_taken h hat hdone (by omega) (fun hno => nomatch hno)
      (hplain _ (List.getElem_mem hdone))
    rw [helem] at htaken hbody
    have hnext : all = done ++ [t] ++ rest := by rw [hall, List.append_cons]
    have hlen : (done ++ [t]).length = done.length + 1 := List.length_append
    obtain ⟨fuel, rfl⟩ : ∃ k, fuel = k + 2 := ⟨fuel - 2, by omega⟩
    rw [drain_step htaken, Option.map_some, hbody]
    rcases at_succ done.length with hstay | hlink
    · obtain ⟨c', hdrain, hend⟩ := ih (done ++ [t]) _ (fuel + 1) hnext (by rw [hlen]; exact hstay)
        (by omega) (by omega)
      rw [hdrain]
      exact ⟨c', rfl, hend⟩
    · -- the Link TRB is followed before the next TRB
      have hfollow := next_link h hlink (by omega) (by omega)
      obtain ⟨c', hdrain, hend⟩ := ih (done ++ [t]) ⟨0, lapCycle ((done.length + 1) / 63)⟩ fuel
        hnext
        (by rw [hlen]; exact ⟨hlink.2.1.symm, rfl⟩) (by omega) (by omega)
      rw [drain_step hfollow, hdrain]
      exact ⟨c', rfl, hend⟩

end Drain

end Consumer

namespace TrbRing

variable {ring : TrbRing} {all : List Trb}

theorem Written.issue (h : Written ring all none) (td : Td) :
    Written (ring.issue td) (all ++ td.trbs) none := by
  have hpos := td.length_pos
  have hle := td.length_le
  have hclear := td.clear
  unfold TrbRing.issue
  generalize td.trbs = trbs at hpos hle hclear
  cases trbs with
  | nil => exact absurd hpos (by decide)
  | cons t rest => exact h.writeTd hle (hclear t List.mem_cons_self)

/-- The controller reads all TDs that are issued on a ring it can follow. The induction is on the
TDs. -/
theorem Written.serve_eq (later : List Td) : ∀ {ring : TrbRing} {done rest : List Trb}
    {c : Consumer}, Written ring (done ++ rest) none → (∀ t ∈ done ++ rest, t.Plain) →
      c.At done.length → rest.length ≤ 63 → c.serve ring later = rest ++ later.flatMap Td.trbs := by
  induction later with
  | nil =>
    intro ring done rest c h hplain hat hle
    obtain ⟨c', hdrain, -⟩ := Consumer.drain_eq h hplain rest done c Consumer.drainFuel rfl hat hle
      (by unfold Consumer.drainFuel; omega)
    show (c.drain ring Consumer.drainFuel).2 = rest ++ []
    rw [hdrain, List.append_nil]
  | cons td later ih =>
    intro ring done rest c h hplain hat hle
    obtain ⟨c', hdrain, hend⟩ := Consumer.drain_eq h hplain rest done c Consumer.drainFuel rfl hat
      hle
      (by unfold Consumer.drainFuel; omega)
    have hserve := ih (c := c') (h.issue td) (List.forall_mem_append.2 ⟨hplain, td.plain⟩) hend
      td.length_le
    rw [Consumer.serve, hdrain]
    dsimp only
    rw [hserve]
    rfl

end TrbRing

/-! ## The TD of a control transfer -/

/-- The TRBs of a control transfer. -/
def controlTrbs (ep : ControlEndpoint) (setup : SetupPacket) (dmaBufferAddress length : Nat) :
    List Trb :=
  setupTrb ep setup length ::
    ((if length > 0 then [dataTrb ep setup (dmaBufferAddress + ep.dmaOffset) length] else []) ++
      [statusTrb setup length])

theorem controlTrbs_plain (ep : ControlEndpoint) (setup : SetupPacket) (dma length : Nat) :
    ∀ t ∈ controlTrbs ep setup dma length, t.Plain := by
  have hsetup : (setupTrb ep setup length).Plain := by
    unfold Trb.Plain setupTrb
    dsimp only
    cases setup.isIn <;> by_cases hversion : ep.hciVersion ≥ 0x100 ∧ length > 0 <;>
      simp only [hversion, if_true, if_false] <;> decide
  have hdata : ∀ bus, (dataTrb ep setup bus length).Plain := by
    intro bus
    unfold Trb.Plain dataTrb
    dsimp only
    cases setup.isIn <;> decide
  have hstatus : (statusTrb setup length).Plain := by
    unfold Trb.Plain statusTrb
    dsimp only
    by_cases hdir : length = 0 ∨ ¬setup.isIn <;> simp only [hdir, if_true, if_false] <;> decide
  unfold controlTrbs
  intro t ht
  rcases List.mem_cons.1 ht with rfl | ht
  · exact hsetup
  · rcases List.mem_append.1 ht with ht | ht
    · split at ht
      · rw [List.mem_singleton.1 ht]
        exact hdata _
      · exact nomatch ht
    · rw [List.mem_singleton.1 ht]
      exact hstatus

theorem length_controlTrbs (ep : ControlEndpoint) (setup : SetupPacket) (dma length : Nat) :
    (controlTrbs ep setup dma length).length ≤ 3 := by
  unfold controlTrbs
  split <;> simp

/-- The TRBs of the transfer if the call issues it. -/
def controlIssued (ep : ControlEndpoint) (bounce : Option Nat) (setup : SetupPacket)
    (bufferAddress length : Nat) : List Trb :=
  match controlDma ep bounce bufferAddress length with
  | none => []
  | some dma => controlTrbs ep setup dma length

/-- The call needs a bounce buffer and gets none. -/
def BounceFails (ep : ControlEndpoint) (bounce : Option Nat) (bufferAddress length : Nat) : Prop :=
  length > 0 ∧ needsBounceBuffer ep.lineSize bufferAddress length ∧ bounce = none

section Queue

variable {ep : ControlEndpoint} {bounce : Option Nat} {bufferAddress length : Nat}

theorem controlDma_eq_none :
    controlDma ep bounce bufferAddress length = none ↔ BounceFails ep bounce
      bufferAddress length := by
  unfold controlDma BounceFails
  split
  · next hneeds => exact ⟨fun hnone => ⟨hneeds.1, hneeds.2, hnone⟩, fun hfails => hfails.2.2⟩
  · next hneeds =>
      exact ⟨fun hno => (nomatch hno), fun hfails => absurd ⟨hfails.1, hfails.2.1⟩ hneeds⟩

/-- A call that fails leaves its Setup TRB behind. -/
theorem queueControl_fails (ring : TrbRing) (setup : SetupPacket)
    (hfails : BounceFails ep bounce bufferAddress length) :
    queueControl ep bounce ring setup bufferAddress length =
      .ok (false, ring.pushTrbRaw (firstFields ring.cycleState (setupTrb ep setup length))) := by
  unfold queueControl
  rw [controlDma_eq_none.2 hfails]
  rfl

/-- Otherwise the call writes its TD. -/
theorem queueControl_writes (ring : TrbRing) (setup : SetupPacket) {dma : Nat}
    (hdma : controlDma ep bounce bufferAddress length = some dma)
    (hbus : dma + ep.dmaOffset < wordSize) :
    ∃ t rest, controlTrbs ep setup dma length = t :: rest ∧
      queueControl ep bounce ring setup bufferAddress length = .ok (true, ring.writeTd t rest) := by
  refine ⟨_, _, rfl, ?_⟩
  unfold queueControl
  rw [hdma]
  by_cases hdata : length > 0
  · simp only [if_pos hdata, toBus, checkedAdd_eq hbus, ok_bind]
    rfl
  · simp only [if_neg hdata]
    rfl

end Queue

/-- The controller stays in front of a TRB with the wrong cycle bit when a TD is written behind it.
-/
theorem next_of_withheld {ring : TrbRing} {done : List Trb} {t : Trb} {c : Consumer}
    (h : ring.Written (done ++ [t]) (some done.length)) (hplain : t.Plain) (hat : c.At done.length)
    (u : Trb) : c.next (ring.writeTd u []) = none := by
  have hlength : (done ++ [t]).length = done.length + 1 := List.length_append
  have hn : done.length < (done ++ [t]).length := by omega
  have hwait : c.next ring = none :=
    Consumer.next_withheld h hat hn (by omega)
      (by rw [List.getElem_concat_length rfl]; exact hplain)
  have hother : ring.enqueueIndex ≠ done.length % 63 := by
    rw [h.enqueue, hlength]
    omega
  have hmemory : (ring.writeTd u []).memory (done.length % 63) = ring.memory
    (done.length % 63) := by
    unfold TrbRing.writeTd TrbRing.writeNext TrbRing.commitFirstTrb TrbRing.setField3
    dsimp only
    rw [Function.update_of_ne hother.symm, TrbRing.pushTrbRaw_memory _ (Nat.mod_lt _ (by decide)),
      if_neg hother.symm]
  have hindex := hat.1
  unfold Consumer.next at hwait ⊢
  dsimp only at hwait ⊢
  rw [hindex] at hwait ⊢
  rw [hmemory]
  by_cases hcycle : (ring.memory (done.length % 63)).field3 &&& trbCycle ≠ c.cycle
  · rw [if_pos hcycle]
  · rw [if_neg hcycle] at hwait
    split at hwait
    · exact nomatch hwait
    · exact nomatch hwait

/-- The controller does not read the TD that is issued behind an uncommitted TRB. -/
theorem serve_ne_of_withheld {ring : TrbRing} {done : List Trb} {t : Trb} {c : Consumer}
    (h : ring.Written done none) (hat : c.At done.length) (hplain : t.Plain) (issued : List Trb) :
    c.serve (ring.pushTrbRaw (firstFields ring.cycleState t)) [RingSystem.oneTrb] ≠
      issued ++ [RingSystem.oneTrb].flatMap Td.trbs := by
  have hpush := h.pushFirst t
  have hlength : (done ++ [t]).length = done.length + 1 := List.length_append
  have hwait := Consumer.next_withheld hpush hat (by omega) (by omega)
    (by rw [List.getElem_concat_length rfl]; exact hplain)
  have hstill := next_of_withheld hpush hplain hat ⟨0x1000, 0, 512, trbType 1 ||| 0x20⟩
  rw [Consumer.serve, Consumer.drain_rest hwait]
  dsimp only
  rw [Consumer.serve, TrbRing.issue]
  show [] ++ (c.drain (TrbRing.writeTd _ _ []) _).2 ≠ _
  rw [Consumer.drain_rest hstill]
  intro hread
  exact List.append_ne_nil_of_right_ne_nil issued (by decide) hread.symm

/-- After a call of `control_transfer`, on any ring, the controller reads exactly the TRBs of the
transfers that are issued, by this call and by any later ones, unless the call fails for want of a
bounce buffer. -/
theorem failed_control_harmless_iff {labels : List RingSystem.Label} {s : RingSystem}
    (hr : Run RingSystem.Init RingSystem.Step labels s) (hidle : s.phase = .idle)
    (hrest : s.consumer.next s.ring = none) (ep : ControlEndpoint) (bounce : Option Nat)
    (setup : SetupPacket) (bufferAddress length : Nat)
    (hbus : ∀ dma, controlDma ep bounce bufferAddress length = some dma →
      dma + ep.dmaOffset < wordSize) :
    ∃ rung ring', queueControl ep bounce s.ring setup bufferAddress length = .ok (rung, ring') ∧
      ((∀ later : List Td, s.consumer.serve ring' later =
        controlIssued ep bounce setup bufferAddress length ++ later.flatMap Td.trbs) ↔
          ¬BounceFails ep bounce bufferAddress length) := by
  have hinv := RingSystem.inv_run hr
  have hphase := hinv.phase
  rw [hidle] at hphase
  have hwritten := hphase.1
  cases hinv.ready hidle with
  | take _ hnext => exact nomatch hnext.symm.trans hrest
  | follow _ hnext => exact nomatch hnext.symm.trans hrest
  | done hread hat _ =>
    rw [hread] at hat
    by_cases hfails : BounceFails ep bounce bufferAddress length
    · refine ⟨_, _, queueControl_fails s.ring setup hfails, ⟨fun hserve => ?_, fun hno => ?_⟩⟩
      · -- the next TD is not read
        exact absurd (hserve [RingSystem.oneTrb]) (serve_ne_of_withheld hwritten hat
          (controlTrbs_plain ep setup 0 length _ List.mem_cons_self) _)
      · exact absurd hfails hno
    · obtain ⟨dma, hdma⟩ := Option.ne_none_iff_exists'.1 (mt controlDma_eq_none.1 hfails)
      obtain ⟨t, rest, htrbs, hqueue⟩ := queueControl_writes s.ring setup hdma (hbus dma hdma)
      have hplain := controlTrbs_plain ep setup dma length
      have hlen := length_controlTrbs ep setup dma length
      have hissued : controlIssued ep bounce setup bufferAddress length = t :: rest := by
        rw [controlIssued, hdma]
        exact htrbs
      rw [htrbs] at hplain hlen
      have htd : (s.ring.writeTd t rest).Written (s.queued ++ t :: rest) none :=
        hwritten.writeTd (by omega) (hplain t List.mem_cons_self).1
      refine ⟨_, _, hqueue, ⟨fun _ => hfails, fun _ later => ?_⟩⟩
      rw [hissued]
      exact htd.serve_eq later (List.forall_mem_append.2 ⟨hinv.plain, hplain⟩) hat (by omega)

/-- The request for the descriptor of a device. -/
def getDescriptor : SetupPacket := ⟨0x80, 6, 0x100, 0, 18⟩

/-- A call that gets its bounce buffer. -/
theorem failed_control_harmless_iff_issued : ∃ rung ring',
    queueControl ⟨0x100, 64, 0, 64⟩ (some 0x2000) (TrbRing.new 0) getDescriptor 0x1004 18 =
        .ok (rung, ring') ∧
      ∀ later : List Td, Consumer.serve ring' ⟨0, 1⟩ later =
        controlIssued ⟨0x100, 64, 0, 64⟩ (some 0x2000) getDescriptor 0x1004 18 ++
          later.flatMap Td.trbs := by
  have hinit : RingSystem.Init ⟨TrbRing.new 0, .idle, ⟨0, 1⟩, [], []⟩ :=
    ⟨⟨0, rfl⟩, rfl, rfl, rfl, rfl⟩
  obtain ⟨rung, ring', hqueue, hiff⟩ := failed_control_harmless_iff (.start hinit) rfl (by decide)
    ⟨0x100, 64, 0, 64⟩ (some 0x2000) getDescriptor 0x1004 18
    (fun dma hdma => by
      obtain rfl : 0x2000 = dma := Option.some.inj hdma
      decide)
  exact ⟨rung, ring', hqueue, hiff.2 fun hfails => nomatch hfails.2.2⟩

/-- A call on a new ring that gets no bounce buffer, and a TD of one TRB: nothing is read. -/
theorem failed_control_wedges :
    (queueControl ⟨0x100, 64, 0, 64⟩ none (TrbRing.new 0) getDescriptor 0x1004 18).map
        (fun o => (o.1, Consumer.serve o.2 ⟨0, 1⟩ [RingSystem.oneTrb])) = .ok (false, []) ∧
      RingSystem.oneTrb.trbs ≠ [] := by
  decide +kernel

end MiniVisor.Drivers
