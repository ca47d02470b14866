import MiniVisor.Drivers.Bulk

/-!
# Transfer descriptors on the ring

The TRBs of a TD are one unit for the controller as long as the Chain bit is set in every TRB it
passes up to the last one, the Link TRB included (`OneTd`). `submit_bulk_wave` sets the bit in its
own TRBs. The Link TRB is written by `TrbRing::new` and only its cycle bit changes, so
`bulk_chained_iff`: the TRBs of a wave are one TD exactly when they fit in front of the Link TRB.

`writeTd` is what `submit_bulk_wave` and `control_transfer` have in common: the first TRB is written
with the wrong cycle bit, the others with the right one, and the first is committed.
`Written.writeTd` says what is in the ring then. So `bulk_covers_buffer`: when all waves complete,
the ring holds at each doorbell the TRBs of the wave, and those of all waves cover the buffer.
-/

set_option autoImplicit false

namespace MiniVisor.Drivers

open MiniVisor.Lib

/-! ## Writing a TD -/

namespace TrbRing

/-- TRBs written with the cycle bit of the producer. -/
def writeNext (ring : TrbRing) : List Trb → TrbRing
  | [] => ring
  | t :: rest => (ring.pushTrbRaw (nextFields ring.cycleState t)).writeNext rest

/-- A TD: its first TRB is written with the wrong cycle bit and committed in the end. -/
def writeTd (ring : TrbRing) (t : Trb) (rest : List Trb) : TrbRing :=
  ((ring.pushTrbRaw (firstFields ring.cycleState t)).writeNext rest).commitFirstTrb
    ring.enqueueIndex
    ring.cycleState

variable {ring : TrbRing} {all : List Trb}

theorem pushTrbRaw_cycle (ring : TrbRing) (fields : Trb)
    (h : ring.cycleState = 0 ∨ ring.cycleState = 1) :
    (ring.pushTrbRaw fields).cycleState = 0 ∨ (ring.pushTrbRaw fields).cycleState = 1 := by
  unfold pushTrbRaw advanceEnqueue
  split
  · exact xor_one_cases h
  · exact h

theorem Written.cycle_cases {withheld : Option Nat} (h : Written ring all withheld) :
    ring.cycleState = 0 ∨ ring.cycleState = 1 := by
  rw [h.cycle]
  exact lapCycle_cases _

/-- TRBs behind a withheld one. The induction is on the TRBs. -/
theorem Written.writeNext {n : Nat} (rest : List Trb) : ∀ {ring : TrbRing} {all : List Trb},
    Written ring all (some n) → n < all.length →
      Written (ring.writeNext rest) (all ++ rest) (some n) := by
  induction rest with
  | nil =>
    intro ring all h _
    rw [List.append_nil]
    exact h
  | cons t rest ih =>
    intro ring all h hn
    have hother : ¬some n = some all.length := fun heq => by
      rw [Option.some.inj heq] at hn
      exact Nat.lt_irrefl _ hn
    have hpush := h.push (c := ring.cycleState) t (fun _ _ => Iff.rfl)
      (by rw [if_neg hother, h.cycle])
    rw [List.append_cons]
    exact ih hpush (by rw [List.length_append]; omega)

/-- The first TRB of a TD is withheld. -/
theorem Written.pushFirst (h : Written ring all none) (t : Trb) :
    Written (ring.pushTrbRaw (firstFields ring.cycleState t)) (all ++ [t]) (some all.length) := by
  rw [firstFields_eq h.cycle_cases]
  refine h.push t (fun k hk => ?_) (by rw [if_pos rfl, h.cycle])
  constructor
  · intro heq
    rw [Option.some.inj heq] at hk
    exact absurd hk (Nat.lt_irrefl _)
  · exact fun hno => nomatch hno

/-- A TD of at most 63 TRBs is in the ring behind what was there. -/
theorem Written.writeTd (h : Written ring all none) {t : Trb} {rest : List Trb}
    (hlength : (t :: rest).length ≤ 63) (hclear : t.field3 &&& ~~~trbCycle = t.field3) :
    Written (ring.writeTd t rest) (all ++ t :: rest) none := by
  have hfirst : all.length < (all ++ t :: rest).length := by
    rw [List.length_append, List.length_cons]
    omega
  have hfill := (h.pushFirst t).writeNext rest
    (by rw [List.length_append]; exact Nat.lt_succ_self _)
  rw [← List.append_cons] at hfill
  have hcommit := hfill.commit hfirst (by rw [List.length_append]; omega)
    (by rw [List.getElem_append_right (Nat.le_refl _)]; simpa using hclear)
  unfold TrbRing.writeTd
  rw [h.enqueue, h.cycle]
  rwa [h.cycle] at hcommit

end TrbRing

/-! ## What the controller passes -/

namespace Consumer

/-- The TRBs that the controller passes until it has taken a number of TRBs, with the Link TRBs on
the way. -/
def passes (ring : TrbRing) : (fuel left : Nat) → Consumer → List Trb
  | _, 0, _ => []
  | 0, _ + 1, _ => []
  | fuel + 1, left + 1, c =>
    match c.next ring with
    | none => []
    | some (none, c') => ring.memory c.index :: passes ring fuel (left + 1) c'
    | some (some t, c') => t :: passes ring fuel left c'

/-- The controller goes on until it has nothing to do. -/
def settle (ring : TrbRing) : (fuel : Nat) → Consumer → Consumer
  | 0, c => c
  | fuel + 1, c =>
    match c.next ring with
    | none => c
    | some (_, c') => settle ring fuel c'

theorem passes_zero (ring : TrbRing) (fuel : Nat) (c : Consumer) : c.passes ring fuel 0 = [] := by
  cases fuel <;> rfl

end Consumer

/-- The TRBs make one TD: all but the last have the Chain bit, and the last one has the interrupt.
-/
def OneTd : List Trb → Prop
  | [] => False
  | [t] => t.field3 &&& trbChain = 0 ∧ t.field3 &&& trbIoc ≠ 0
  | t :: rest => t.field3 &&& trbChain ≠ 0 ∧ OneTd rest

instance decidableOneTd : (trbs : List Trb) → Decidable (OneTd trbs)
  | [] => .isFalse id
  | [_] => inferInstanceAs (Decidable (_ ∧ _))
  | _ :: t :: rest =>
    have := decidableOneTd (t :: rest)
    inferInstanceAs (Decidable (_ ∧ _))

theorem nextFields_and (mask : BitVec 32) {c : BitVec 32} (hmask : mask &&& trbCycle = 0)
    (hc : c = 0 ∨ c = 1) (t : Trb) : (nextFields c t).field3 &&& mask = t.field3 &&& mask := by
  have hbit : c &&& mask = 0#32 := by
    rcases hc with rfl | rfl
    · exact BitVec.zero_and
    · rw [BitVec.and_comm]
      exact hmask
  unfold nextFields
  dsimp only
  rw [BitVec.and_or_distrib_right, hbit, BitVec.or_zero]

/-- In front of the TRBs of a TD stands a chained one. -/
theorem oneTd_cons {t : Trb} (hchain : t.field3 &&& trbChain ≠ 0) (rest : List Trb) :
    OneTd (t :: rest) ↔ OneTd rest := by
  cases rest with
  | nil => exact ⟨fun h => hchain h.1, fun h => h.elim⟩
  | cons u rest => exact ⟨fun h => h.2, fun h => ⟨hchain, h⟩⟩

/-- A list that begins with a TRB that has neither bit is no TD. -/
theorem not_oneTd_cons {t : Trb} (hchain : t.field3 &&& trbChain = 0)
    (hioc : t.field3 &&& trbIoc = 0) (rest : List Trb) : ¬OneTd (t :: rest) := by
  cases rest with
  | nil => exact fun h => h.2 hioc
  | cons u rest => exact fun h => h.1 hchain

/-- The controller in front of the rest of a TD passes one TD exactly when the rest fits in front of
the Link TRB. The induction is on the rest. -/
theorem passes_oneTd_iff {ring : TrbRing} {all : List Trb} (h : ring.Written all none)
    (hplain : ∀ t ∈ all, t.Plain) (rest : List Trb) :
    ∀ (done : List Trb) (c : Consumer) (fuel : Nat), all = done ++ rest → c.At done.length →
      rest.length ≤ 63 → 2 * rest.length ≤ fuel → OneTd rest →
      (OneTd (c.passes ring fuel rest.length) ↔ done.length % 63 + rest.length ≤ 63) := by
  induction rest with
  | nil => exact fun _ _ _ _ _ _ _ hone => hone.elim
  | cons t rest ih =>
    intro done c fuel hall hat hlength hfuel hone
    have hdone : done.length < all.length := by
      rw [hall, List.length_append, List.length_cons]
      omega
    have hall' : all.length = done.length + (rest.length + 1) := by
      rw [hall, List.length_append, List.length_cons]
    have helem : all[done.length] = t := by
      simp only [hall]
      rw [List.getElem_append_right (Nat.le_refl _)]
      simp
    rw [List.length_cons] at hlength hfuel ⊢
    have htaken := Consumer.next_taken h hat hdone (by omega) (fun hno => nomatch hno)
      (hplain _ (List.getElem_mem hdone))
    rw [helem] at htaken
    obtain ⟨fuel, rfl⟩ : ∃ k, fuel = k + 1 := ⟨fuel - 1, by omega⟩
    unfold Consumer.passes
    rw [htaken]
    dsimp only
    have hchain := nextFields_and trbChain (by decide) (lapCycle_cases (done.length / 63)) t
    have hioc := nextFields_and trbIoc (by decide) (lapCycle_cases (done.length / 63)) t
    cases rest with
    | nil =>
      have hsingle : OneTd [nextFields (lapCycle (done.length / 63)) t] := by
        show _ ∧ _
        rw [hchain, hioc]
        exact hone
      have hmod : done.length % 63 < 63 := Nat.mod_lt _ (by decide)
      rw [List.length_nil, Consumer.passes_zero]
      exact ⟨fun _ => by omega, fun _ => hsingle⟩
    | cons u rest =>
      rw [List.length_cons] at hlength hfuel hall' ⊢
      rw [oneTd_cons (by rw [hchain]; exact hone.1)]
      rcases Consumer.at_succ done.length with hnext | hlink
      · have hmod : done.length % 63 + 1 = (done.length + 1) % 63 := hnext.1
        have hrest := ih (done ++ [t]) _ fuel (by rw [hall, List.append_cons])
          (by rw [List.length_append]; exact hnext) (by rw [List.length_cons]; omega)
          (by rw [List.length_cons]; omega) hone.2
        rw [List.length_append, List.length_singleton, List.length_cons] at hrest
        rw [hrest]
        omega
      · -- the Link TRB is passed next, and it is not chained
        obtain ⟨fuel, rfl⟩ : ∃ k, fuel = k + 1 := ⟨fuel - 1, by omega⟩
        have hlast : done.length % 63 + 1 = 63 := hlink.2.2.1
        have hfields : (ring.memory (done.length % 63 + 1)).field3 =
            (nextFields (lapCycle (all.length / 63) ^^^ 1) (TrbRing.linkTrb ring.bus)).field3 := by
          rw [hlast, h.link]
        have hcycle := xor_one_cases (lapCycle_cases (all.length / 63))
        unfold Consumer.passes
        rw [Consumer.next_link h hlink (by omega) (by omega)]
        refine ⟨fun hpassed => absurd hpassed (not_oneTd_cons ?_ ?_ _), fun hfit => by omega⟩
        · rw [hfields, nextFields_and _ (by decide) hcycle]
          show (trbType trbLink ||| linkToggle) &&& trbChain = 0
          decide
        · rw [hfields, nextFields_and _ (by decide) hcycle]
          show (trbType trbLink ||| linkToggle) &&& trbIoc = 0
          decide

/-! ## The TD of a wave -/

/-- The flags of a TRB of a wave without the cycle bit. -/
def bodyFlags (isIn more : Bool) : BitVec 32 :=
  trbType trbNormal ||| (if isIn then trbIsp else 0) ||| if more then trbChain else trbIoc

theorem waveFlags_first (isIn more : Bool) (startCycle cycleState : BitVec 32) :
    waveFlags isIn startCycle cycleState 0 more =
      if startCycle = 0 then bodyFlags isIn more ||| trbCycle else bodyFlags isIn more := by
  unfold waveFlags bodyFlags
  by_cases hcycle : startCycle = 0
  · simp only [hcycle, if_true]
    cases isIn <;> cases more <;> decide
  · simp only [hcycle, if_true, if_false]
    cases isIn <;> cases more <;> decide

theorem waveFlags_next (isIn more : Bool) (startCycle cycleState : BitVec 32) {transferred : Nat}
    (hpos : 0 < transferred) : waveFlags isIn startCycle cycleState transferred more =
      bodyFlags isIn more ||| cycleState := by
  unfold waveFlags bodyFlags
  dsimp only
  rw [if_neg (Nat.ne_of_gt hpos)]
  cases isIn <;> cases more <;> simp only [if_true, if_false, Bool.false_eq_true]
  all_goals ac_nf

theorem bodyFlags_plain (isIn more : Bool) : bodyFlags isIn more &&& ~~~trbCycle =
    bodyFlags isIn more ∧ trbFieldToType (bodyFlags isIn more) ≠ trbLink := by
  cases isIn <;> cases more <;> decide

theorem bodyFlags_chain (isIn : Bool) : bodyFlags isIn true &&& trbChain ≠ 0 := by
  cases isIn <;> decide

theorem bodyFlags_last (isIn : Bool) : bodyFlags isIn false &&& trbChain = 0 ∧
    bodyFlags isIn false &&& trbIoc ≠ 0 := by
  cases isIn <;> decide

/-- A TRB of the wave in front of the rest of the TD, which is there when bytes are left. -/
theorem oneTd_bodyFlags {isIn : Bool} {remaining chunk : Nat} {t : Trb} {rest : List Trb}
    (ht : t.field3 = bodyFlags isIn (remaining > chunk))
    (hrest : if 0 < remaining - chunk then OneTd rest else rest = []) : OneTd (t :: rest) := by
  by_cases hmore : remaining > chunk
  · rw [if_pos (by omega)] at hrest
    rw [decide_eq_true hmore] at ht
    rw [oneTd_cons (by rw [ht]; exact bodyFlags_chain isIn)]
    exact hrest
  · rw [if_neg (by omega)] at hrest
    rw [decide_eq_false hmore] at ht
    subst hrest
    show _ ∧ _
    rw [ht]
    exact bodyFlags_last isIn

/-- The TRBs of a wave, without their cycle bits. -/
def trbsOf (chunks : List Chunk) : List Trb := chunks.map fun c => c.fields.body

theorem body_waveFields {f c : BitVec 32} (hf : f &&& ~~~trbCycle = f) (hc : c = 0 ∨ c = 1)
    (bus chunk remainder : Nat) :
    (waveFields bus chunk remainder (f ||| c)).body = waveFields bus chunk remainder f := by
  unfold waveFields Trb.body
  dsimp only
  rw [clear_or hf hc]

/-- The TRBs that the loop of a wave writes behind the first one. -/
theorem waveLoop_writes {ep : BulkEndpoint} {startCycle : BitVec 32} {dmaAddress waveLength : Nat}
    (fuel : Nat) : ∀ {transferred remaining : Nat} {ring ring' : TrbRing} {chunks : List Chunk},
      0 < transferred → ring.cycleState = 0 ∨ ring.cycleState = 1 →
      waveLoop ep startCycle dmaAddress waveLength fuel transferred remaining ring =
        .ok (ring', chunks) →
      ring' = ring.writeNext (trbsOf chunks) ∧ (∀ t ∈ trbsOf chunks, t.Plain) ∧
        if 0 < remaining then OneTd (trbsOf chunks) else trbsOf chunks = [] := by
  induction fuel with
  | zero =>
    intro transferred remaining ring ring' chunks _ _ hrun
    cases remaining with
    | zero =>
      obtain ⟨rfl, rfl⟩ := Prod.mk.inj (Except.ok.inj hrun)
      exact ⟨rfl, List.forall_mem_nil _, rfl⟩
    | succ left => exact nomatch hrun
  | succ fuel ih =>
    intro transferred remaining ring ring' chunks hpos hcycle hrun
    cases remaining with
    | zero =>
      obtain ⟨rfl, rfl⟩ := Prod.mk.inj (Except.ok.inj hrun)
      exact ⟨rfl, List.forall_mem_nil _, rfl⟩
    | succ left =>
      obtain ⟨currentAddress, -, hrun⟩ := bind_eq_ok.1 hrun
      obtain ⟨currentBus, -, hrun⟩ := bind_eq_ok.1 hrun
      obtain ⟨⟨ring₁, rest⟩, hloop, hrun⟩ := bind_eq_ok.1 hrun
      obtain ⟨rfl, rfl⟩ := Prod.mk.inj (Except.ok.inj hrun)
      rw [waveFlags_next _ _ _ _ hpos] at hloop ⊢
      obtain ⟨hring, hplain, hone⟩ := ih (by omega) (ring.pushTrbRaw_cycle _ hcycle) hloop
      unfold trbsOf at hring hplain hone ⊢
      rw [List.map_cons, body_waveFields (bodyFlags_plain _ _).1 hcycle]
      refine ⟨hring, List.forall_mem_cons.2 ⟨bodyFlags_plain _ _, hplain⟩, ?_⟩
      rw [if_pos (Nat.succ_pos left)]
      exact oneTd_bodyFlags rfl hone

/-- A wave writes a TD. -/
theorem queueWave_writes {ep : BulkEndpoint} {ring ring' : TrbRing} {address length : Nat}
    {chunks : List Chunk} (hlength : 0 < length)
    (hcycle : ring.cycleState = 0 ∨ ring.cycleState = 1)
    (hrun : queueWave ep ring address length = .ok (ring', chunks)) :
    ∃ t rest, ring' = ring.writeTd t rest ∧ t :: rest = trbsOf chunks ∧
      (∀ u ∈ t :: rest, u.Plain) ∧ OneTd (t :: rest) := by
  obtain ⟨left, rfl⟩ : ∃ left, length = left + 1 := ⟨length - 1, by omega⟩
  obtain ⟨⟨ring₁, chunks₁⟩, hwave, hcommit⟩ := bind_eq_ok.1 hrun
  obtain ⟨rfl, rfl⟩ := Prod.mk.inj (Except.ok.inj hcommit)
  obtain ⟨currentAddress, -, hwave⟩ := bind_eq_ok.1 hwave
  obtain ⟨currentBus, -, hwave⟩ := bind_eq_ok.1 hwave
  obtain ⟨⟨ring₂, rest⟩, hloop, hwave⟩ := bind_eq_ok.1 hwave
  obtain ⟨rfl, rfl⟩ := Prod.mk.inj (Except.ok.inj hwave)
  have hpos : 0 < 0 + nextChunk currentAddress (left + 1) := by
    rw [nextChunk_eq]
    omega
  obtain ⟨hring, hplain, hone⟩ := waveLoop_writes left hpos (ring.pushTrbRaw_cycle _ hcycle) hloop
  rw [waveFlags_first] at hring ⊢
  refine ⟨waveFields currentBus (nextChunk currentAddress (left + 1))
    (transferTrbRemainder 0 (nextChunk currentAddress (left + 1)) (left + 1) ep.maxPacketSize)
    (bodyFlags ep.isIn (left + 1 > nextChunk currentAddress (left + 1))), trbsOf rest, ?_, ?_, ?_,
    oneTd_bodyFlags rfl hone⟩
  · rw [hring]
    rfl
  · unfold trbsOf
    rw [List.map_cons]
    refine congrArg (· :: _) ?_
    split
    · exact (body_waveFields (bodyFlags_plain _ _).1 (.inr rfl) _ _ _).symm
    · unfold waveFields Trb.body
      dsimp only
      rw [(bodyFlags_plain _ _).1]
  · exact List.forall_mem_cons.2 ⟨bodyFlags_plain _ _, hplain⟩

/-- The TRBs of a wave, from wherever the producer is in the ring, are one TD for the controller
exactly when they fit in front of the Link TRB. -/
theorem bulk_chained_iff {labels : List RingSystem.Label} {s : RingSystem}
    (hr : Run RingSystem.Init RingSystem.Step labels s) (hidle : s.phase = .idle)
    (hrest : s.consumer.next s.ring = none) (ep : BulkEndpoint) (address length : Nat)
    (hlength : 0 < length) (hwave : maxWaveLength address length = .ok length)
    (hword : address + length < wordSize) (hbus : address + length + ep.dmaOffset ≤ wordSize) :
    ∃ ring' chunks, queueWave ep s.ring address length = .ok (ring', chunks) ∧
      (OneTd (s.consumer.passes ring' (2 * chunks.length) chunks.length) ↔ s.ring.enqueueIndex +
        ((address + length - 1) / 0x10000 - address / 0x10000 + 1) ≤ 63) := by
  have hinv := RingSystem.inv_run hr
  have hphase := hinv.phase
  rw [hidle] at hphase
  have hwritten := hphase.1
  cases hinv.ready hidle with
  | take _ hnext => exact nomatch hnext.symm.trans hrest
  | follow _ hnext => exact nomatch hnext.symm.trans hrest
  | done hread hat _ =>
    have hend : waveEnd address (address + length) - address = length := by
      have hsame := (maxWaveLength_eq hword).symm.trans hwave
      exact Except.ok.inj hsame
    have hcap : waveEnd address (address + length) =
      min (address + length) ((address / 0x10000 + 63) * 0x10000) := rfl
    obtain ⟨ring', chunks, hqueue, hcut⟩ := queueWave_eq ep s.ring
      (Nat.le_add_right address length) hword hbus
    rw [Nat.add_sub_cancel_left] at hqueue
    have hcount := hcut.length_eq (by omega)
    obtain ⟨t, rest, rfl, htrbs, hplain, hone⟩ :=
      queueWave_writes hlength hwritten.cycle_cases hqueue
    have hlen : (t :: rest).length = chunks.length := by
      rw [htrbs]
      exact List.length_map _
    have htd : (s.ring.writeTd t rest).Written (s.queued ++ t :: rest) none :=
      hwritten.writeTd (by omega) (hplain t List.mem_cons_self).1
    refine ⟨_, chunks, hqueue, ?_⟩
    rw [hread] at hat
    rw [← hlen, passes_oneTd_iff htd (List.forall_mem_append.2 ⟨hinv.plain, hplain⟩) (t :: rest)
      s.queued s.consumer _ rfl hat (by omega) (Nat.le_refl _) hone, hlen, hcount, hwritten.enqueue]

/-- Two TRBs at the beginning of the ring. -/
theorem bulk_chained_iff_start : ∃ ring' chunks,
    queueWave ⟨0, 512, true⟩ (TrbRing.new 0) 0x10000 0x20000 = .ok (ring', chunks) ∧
      OneTd (Consumer.passes ring' (2 * chunks.length) chunks.length ⟨0, 1⟩) := by
  have hinit : RingSystem.Init ⟨TrbRing.new 0, .idle, ⟨0, 1⟩, [], []⟩ :=
    ⟨⟨0, rfl⟩, rfl, rfl, rfl, rfl⟩
  obtain ⟨ring', chunks, hqueue, hiff⟩ := bulk_chained_iff (.start hinit) rfl (by decide)
    ⟨0, 512, true⟩ 0x10000 0x20000 (by decide) (by decide +kernel) (by decide) (by decide)
  exact ⟨ring', chunks, hqueue, hiff.2 (by decide)⟩

/-- A wave of 62 TRBs and then one of two TRBs: the second goes around the end of the ring, and the
Link TRB between its two TRBs is not chained. -/
theorem bulk_broken_at_link :
    ((queueWave ⟨0, 512, true⟩ (TrbRing.new 0) 0x10000 0x3E0000).bind fun first =>
      (queueWave ⟨0, 512, true⟩ first.1 0x10000 0x20000).map fun second =>
        (Consumer.passes second.1 4 2 (Consumer.settle first.1 100 ⟨0, 1⟩)).map fun t =>
          (trbFieldToType t.field3, t.field3 &&& trbChain, t.field3 &&& trbIoc)) =
      .ok [(trbNormal, trbChain, 0), (trbLink, 0, 0), (trbNormal, 0, trbIoc)] := by
  decide +kernel

/-! ## The waves of a transfer -/

/-- The wave was answered in full. -/
def Full (event : Option (BitVec 32)) : Prop :=
  ∃ e, event = some e ∧ (completionCode e = compSuccess ∨ completionCode e = compShortTx) ∧
    eventResidue e = 0

/-- At each doorbell the TRBs of the wave are in the ring behind those of the waves before. -/
def Held : List Trb → List (TrbRing × List Chunk) → Prop
  | _, [] => True
  | all, (ring, chunks) :: rest =>
    ring.Written (all ++ trbsOf chunks) none ∧ Held (all ++ trbsOf chunks) rest

/-- One wave that is answered in full, and the rest of the transfer. -/
theorem bulkLoop_full {ep : BulkEndpoint} {answer : Nat → List Chunk → Option (BitVec 32)}
    (hfull : ∀ wave chunks, Full (answer wave chunks)) {dma length : Nat}
    (hoffset : 0x10000 ∣ ep.dmaOffset) (hword : dma + length < wordSize)
    (hbus : dma + length + ep.dmaOffset ≤ wordSize) (fuel : Nat) :
    ∀ (wave offset : Nat) {ring : TrbRing} {all : List Trb}, ring.Written all none →
      offset ≤ length → length - offset ≤ fuel →
      ∃ ring' waves, bulkLoop ep answer dma length fuel wave offset offset ring =
          .ok ⟨some length, ring', waves⟩ ∧ Held all waves ∧
        Consecutive (dma + length) (dma + offset) (waves.flatMap Prod.snd) ∧
        ∀ w ∈ waves, w.2.length ≤ maxTrbsPerWave ∧ ∀ c ∈ w.2, c.Valid ep.dmaOffset := by
  induction fuel with
  | zero =>
    intro wave offset ring all _ hle hfuel
    obtain rfl : offset = length := by omega
    refine ⟨ring, [], ?_, trivial, rfl, fun w hw => nomatch hw⟩
    unfold bulkLoop
    rw [if_pos (Nat.le_refl _)]
  | succ fuel ih =>
    intro wave offset ring all hring hle hfuel
    unfold bulkLoop
    by_cases hdone : offset ≥ length
    · obtain rfl : offset = length := by omega
      rw [if_pos hdone]
      exact ⟨ring, [], rfl, trivial, rfl, fun w hw => nomatch hw⟩
    · have hrest : dma + offset + (length - offset) = dma + length := by omega
      have hend : waveEnd (dma + offset) (dma + length) =
        min (dma + length) (((dma + offset) / 0x10000 + 63) * 0x10000) := rfl
      generalize hstop : waveEnd (dma + offset) (dma + length) = stop at hend
      obtain ⟨ring₁, chunks, hqueue, hcut⟩ := queueWave_eq ep ring
        (show dma + offset ≤ stop by omega) (by omega) (by omega)
      have hcount : chunks.length ≤ 63 := by
        rw [hcut.length_eq (by omega)]
        omega
      -- The wave is a TD behind what was in the ring.
      have hheld : ring₁.Written (all ++ trbsOf chunks) none := by
        obtain ⟨t, rest, rfl, htrbs, hplain, -⟩ :=
          queueWave_writes (by omega) hring.cycle_cases hqueue
        rw [← htrbs]
        refine hring.writeTd ?_ (hplain t List.mem_cons_self).1
        rw [htrbs, trbsOf, List.length_map]
        exact hcount
      obtain ⟨e, hanswer, hcode, hresidue⟩ := hfull wave chunks
      obtain ⟨ring₂, waves, hloop, hwaves, hcover, hvalid⟩ :=
        ih (wave + 1) (offset + (stop - (dma + offset))) hheld (by omega) (by omega)
      have hnext : dma + (offset + (stop - (dma + offset))) = stop := by omega
      rw [hnext] at hcover
      rw [if_neg hdone]
      dsimp only
      rw [checkedAdd_eq (by omega), ok_bind, maxWaveLength_eq (by omega), ok_bind, hrest, hstop,
        hqueue]
      dsimp only [ok_bind]
      rw [hanswer]
      dsimp only [Option.map_some, waveResult]
      rw [hresidue, Nat.sub_zero, if_neg (by tauto), checkedAdd_eq (by omega), ok_bind,
        if_neg (Nat.lt_irrefl _), hloop]
      exact ⟨ring₂, (ring₁, chunks) :: waves, rfl, ⟨hheld, hwaves⟩,
        hcut.consecutive.append hcover,
        List.forall_mem_cons.2 ⟨⟨hcount, hcut.valid hoffset⟩, hvalid⟩⟩

/-- When every wave completes in full, the ring holds at each doorbell the TRBs of the wave behind
those of the waves before. The TRBs of all waves cover the buffer in order and without overlap, each
is valid, and no wave has more TRBs than the ring. -/
theorem bulk_covers_buffer (ep : BulkEndpoint) (hoffset : 0x10000 ∣ ep.dmaOffset) (lineSize : Nat)
    (bounce : Option Nat) (answer : Nat → List Chunk → Option (BitVec 32))
    (hfull : ∀ wave chunks, Full (answer wave chunks)) (ring : TrbRing) (all : List Trb)
    (hring : ring.Written all none) (bufferAddress length dma : Nat)
    (hlength : 0 < length) (hdma : dmaAddressOf lineSize bounce bufferAddress length = some dma)
    (hword : dma + length < wordSize) (hbus : dma + length + ep.dmaOffset ≤ wordSize) :
    ∃ ring' waves, submitBulkTransfer ep lineSize bounce answer ring bufferAddress length =
        .ok ⟨some length, ring', waves⟩ ∧ Held all waves ∧
      Consecutive (dma + length) dma (waves.flatMap Prod.snd) ∧
      ∀ w ∈ waves, w.2.length ≤ maxTrbsPerWave ∧ ∀ c ∈ w.2, c.Valid ep.dmaOffset := by
  obtain ⟨ring', waves, hloop, hcover⟩ :=
    bulkLoop_full hfull hoffset hword hbus length 0 0 hring (Nat.zero_le _) (by omega)
  refine ⟨ring', waves, ?_, hcover⟩
  unfold submitBulkTransfer
  rw [if_neg (by omega), hdma]
  exact hloop

/-- A buffer over one page boundary, behind an offset of the bus. -/
theorem bulk_covers_buffer_two : ∃ ring' waves,
    submitBulkTransfer ⟨0x400000000, 512, true⟩ 64 none (fun _ _ => some 0x01000000) (TrbRing.new 0)
        0x1FF00 0x200 = .ok ⟨some 0x200, ring', waves⟩ ∧ Held [] waves ∧
      Consecutive (0x1FF00 + 0x200) 0x1FF00 (waves.flatMap Prod.snd) ∧
      ∀ w ∈ waves, w.2.length ≤ maxTrbsPerWave ∧ ∀ c ∈ w.2, c.Valid 0x400000000 :=
  bulk_covers_buffer ⟨0x400000000, 512, true⟩ (by decide) 64 none (fun _ _ => some 0x01000000)
    (fun _ _ => ⟨_, rfl, .inl (by decide), by decide⟩) (TrbRing.new 0) [] (TrbRing.written_new 0)
    0x1FF00 0x200 0x1FF00 (by decide) (by decide) (by decide) (by decide)

end MiniVisor.Drivers
