import Mathlib

/-!
# What a guest prints

The output side of the emulated PL011 (`mmio/pl011.rs`) down to `Serial::write_str` (`serial.rs`):
the guest writes bytes to the data register, the bytes wait in a buffer, and a flush prints the
buffer. A buffer that is not UTF-8 is printed byte by byte, each as the character of its code, and
so the bytes from 0x80 on are sent as two.

`segments` are the buffers that are flushed, as the bytes and the flushes cut them. `output_iff`
says that the bytes of the guest are sent as they are exactly when each segment is UTF-8.
-/

set_option autoImplicit false

namespace MiniVisor.Uart

def lineFeed : UInt8 := 10
def carriageReturn : UInt8 := 13

/-- `TX_BUFFER_SIZE`. -/
def txBufferSize : Nat := 256

/-- `Serial::write_str`. -/
def writeStr (s : List UInt8) : List UInt8 :=
  s.flatMap fun c => if c = lineFeed then [carriageReturn, c] else [c]

/-! ## UTF-8 -/

def isContinuation (b : UInt8) : Bool := 0x80 ≤ b && b ≤ 0xBF

/-- The second byte of a sequence of three or four, by the first one. -/
def isSecond (a b : UInt8) : Bool :=
  if a = 0xE0 then 0xA0 ≤ b && b ≤ 0xBF
  else if a = 0xED then 0x80 ≤ b && b ≤ 0x9F
  else if a = 0xF0 then 0x90 ≤ b && b ≤ 0xBF
  else if a = 0xF4 then 0x80 ≤ b && b ≤ 0x8F
  else isContinuation b

/-- Whether `core::str::from_utf8` returns `Ok`: the bytes are well-formed sequences. -/
def fromUtf8 : List UInt8 → Bool
  | [] => true
  | a :: rest =>
    if a < 0x80 then fromUtf8 rest
    else match rest with
      | [] => false
      | b :: rest =>
        if 0xC2 ≤ a ∧ a ≤ 0xDF then isContinuation b && fromUtf8 rest
        else match rest with
          | [] => false
          | c :: rest =>
            if 0xE0 ≤ a ∧ a ≤ 0xEF then isSecond a b && isContinuation c && fromUtf8 rest
            else match rest with
              | [] => false
              | d :: rest =>
                decide (0xF0 ≤ a ∧ a ≤ 0xF4) && isSecond a b && isContinuation c &&
                  isContinuation d && fromUtf8 rest

/-- The UTF-8 bytes of `b as char`. -/
def encodeUtf8 (b : UInt8) : List UInt8 :=
  if b < 0x80 then [b] else [(0xC0 : UInt8) ||| (b >>> 6), (0x80 : UInt8) ||| (b &&& 0x3F)]

theorem fromUtf8_of_ascii (s : List UInt8) (h : ∀ b ∈ s, b < 0x80) : fromUtf8 s = true := by
  induction s with
  | nil => rfl
  | cons a s ih =>
    unfold fromUtf8
    rw [if_pos (h a List.mem_cons_self)]
    exact ih fun b hb => h b (List.mem_cons_of_mem a hb)

/-! ## The buffer -/

/-- The output of a PL011: the bytes that wait, and those that were sent to the physical UART. -/
structure Output where
  txBuffer : List UInt8
  sent : List UInt8

/-- What a flush sends. -/
def printed (buffer : List UInt8) : List UInt8 :=
  if fromUtf8 buffer then writeStr buffer else buffer.flatMap fun b => writeStr (encodeUtf8 b)

namespace Output

def new : Output := ⟨[], []⟩

/-- `flush_tx`. -/
def flushTx (o : Output) : Output :=
  if o.txBuffer.length = 0 then o else ⟨[], o.sent ++ printed o.txBuffer⟩

/-- A write to `UART_DR`. -/
def writeDr (c : UInt8) (o : Output) : Output :=
  let o := if o.txBuffer.length < txBufferSize then { o with txBuffer := o.txBuffer ++ [c] } else o
  if c = lineFeed ∨ o.txBuffer.length = txBufferSize then o.flushTx else o

end Output

/-- The guest writes a byte, or the buffer is flushed since the guest is idle. -/
inductive OutputEvent where
  | write (c : UInt8)
  | flush

def OutputEvent.run (o : Output) : OutputEvent → Output
  | .write c => o.writeDr c
  | .flush => o.flushTx

/-- The bytes that the guest writes. -/
def OutputEvent.written : OutputEvent → List UInt8
  | .write c => [c]
  | .flush => []

/-- The buffers that are flushed, the last one at the end. -/
def segments (held : List UInt8) : List OutputEvent → List (List UInt8)
  | [] => [held]
  | .flush :: rest => held :: segments [] rest
  | .write c :: rest =>
    if c = lineFeed ∨ held.length + 1 = txBufferSize then (held ++ [c]) :: segments [] rest
    else segments (held ++ [c]) rest

/-! ## What is sent -/

theorem flushTx_eq (o : Output) : o.flushTx = ⟨[], o.sent ++ printed o.txBuffer⟩ := by
  rcases o with ⟨_ | ⟨b, buffer⟩, sent⟩
  · show Output.mk [] sent = ⟨[], sent ++ []⟩
    rw [List.append_nil]
  · rfl

/-- Every segment is printed once, in order. -/
theorem sent_eq (events : List OutputEvent) : ∀ o : Output, o.txBuffer.length < txBufferSize →
    (events.foldl OutputEvent.run o).flushTx.sent =
      o.sent ++ (segments o.txBuffer events).flatMap printed := by
  induction events with
  | nil =>
    intro o _
    rw [List.foldl_nil, flushTx_eq, segments, List.flatMap_singleton]
  | cons event rest ih =>
    intro o hroom
    rw [List.foldl_cons]
    cases event with
    | flush =>
      rw [OutputEvent.run, ih _ (by rw [flushTx_eq]; exact Nat.zero_lt_succ _), flushTx_eq,
        segments, List.flatMap_cons, List.append_assoc]
    | write c =>
      have hput : o.writeDr c = if c = lineFeed ∨ o.txBuffer.length + 1 = txBufferSize then
          ⟨[], o.sent ++ printed (o.txBuffer ++ [c])⟩ else ⟨o.txBuffer ++ [c], o.sent⟩ := by
        simp only [Output.writeDr, if_pos hroom, List.length_append, List.length_singleton,
          flushTx_eq]
      rw [OutputEvent.run, hput, segments]
      split
      · have hempty := ih ⟨[], o.sent ++ printed (o.txBuffer ++ [c])⟩ (Nat.zero_lt_succ _)
        rw [hempty, List.flatMap_cons, List.append_assoc]
      · next hno =>
        rw [ih]
        show (o.txBuffer ++ [c]).length < txBufferSize
        rw [List.length_append, List.length_singleton]
        omega

/-- The segments are the bytes of the guest. -/
theorem flatten_segments (events : List OutputEvent) : ∀ held,
    (segments held events).flatten = held ++ events.flatMap OutputEvent.written := by
  induction events with
  | nil =>
    intro held
    simp [segments]
  | cons event rest ih =>
    intro held
    cases event with
    | flush => simp [segments, ih, OutputEvent.written]
    | write c =>
      rw [segments]
      split <;> simp [ih, OutputEvent.written]

/-! ## Bytes that are not ASCII -/

theorem le_length_writeStr (s : List UInt8) : s.length ≤ (writeStr s).length := by
  induction s with
  | nil => exact Nat.le_refl 0
  | cons c s ih =>
    have hone : 1 ≤ (if c = lineFeed then [carriageReturn, c] else [c]).length := by
      split <;> simp
    rw [writeStr, List.flatMap_cons, List.length_append, List.length_cons]
    exact Nat.add_comm s.length 1 ▸ Nat.add_le_add hone ih

/-- A byte that is sent as the character of its code takes no less than itself, and more if it is
not ASCII. -/
theorem length_encoded (b : UInt8) :
    (writeStr [b]).length ≤ (writeStr (encodeUtf8 b)).length ∧
      (¬b < 0x80 → (writeStr [b]).length < (writeStr (encodeUtf8 b)).length) := by
  by_cases hb : b < 0x80
  · rw [encodeUtf8, if_pos hb]
    exact ⟨Nat.le_refl _, fun hno => absurd hb hno⟩
  · have hfeed : b ≠ lineFeed := by
      rintro rfl
      exact hb (by decide)
    have hone : (writeStr [b]).length = 1 := by simp [writeStr, hfeed]
    have htwo : 2 ≤ (writeStr (encodeUtf8 b)).length := by
      rw [encodeUtf8, if_neg hb]
      exact le_length_writeStr [(0xC0 : UInt8) ||| (b >>> 6), (0x80 : UInt8) ||| (b &&& 0x3F)]
    exact ⟨by omega, fun _ => by omega⟩

/-- The bytes one by one take no less than the string, and more if one of them is not ASCII. -/
theorem length_bytewise (s : List UInt8) :
    (writeStr s).length ≤ (s.flatMap fun b => writeStr (encodeUtf8 b)).length ∧
      ((∃ b ∈ s, ¬b < 0x80) →
        (writeStr s).length < (s.flatMap fun b => writeStr (encodeUtf8 b)).length) := by
  induction s with
  | nil => exact ⟨Nat.le_refl 0, fun ⟨_, hb, _⟩ => absurd hb List.not_mem_nil⟩
  | cons c s ih =>
    have hcons : (writeStr (c :: s)).length = (writeStr [c]).length + (writeStr s).length := by
      simp [writeStr]
    obtain ⟨hle, hlt⟩ := length_encoded c
    rw [hcons, List.flatMap_cons, List.length_append]
    refine ⟨Nat.add_le_add hle ih.1, ?_⟩
    rintro ⟨b, hb, hno⟩
    rcases List.mem_cons.1 hb with rfl | hb
    · exact Nat.add_lt_add_of_lt_of_le (hlt hno) ih.1
    · exact Nat.add_lt_add_of_le_of_lt hle (ih.2 ⟨b, hb, hno⟩)

theorem length_printed (s : List UInt8) :
    (writeStr s).length ≤ (printed s).length ∧
      (fromUtf8 s = false → (writeStr s).length < (printed s).length) := by
  cases hs : fromUtf8 s with
  | true =>
    rw [printed, hs, if_pos rfl]
    exact ⟨Nat.le_refl _, fun h => nomatch h⟩
  | false =>
    obtain ⟨hle, hlt⟩ := length_bytewise s
    rw [printed, hs, if_neg Bool.false_ne_true]
    refine ⟨hle, fun _ => hlt ?_⟩
    by_contra hno
    push Not at hno
    exact nomatch hs.symm.trans (fromUtf8_of_ascii s hno)

/-- Pieces of a string that are printed one by one give the string exactly if each of them is
UTF-8: one that is not takes more bytes, and none takes less. -/
theorem flatMap_printed_iff (pieces : List (List UInt8)) :
    pieces.flatMap printed = writeStr pieces.flatten ↔ ∀ s ∈ pieces, fromUtf8 s = true := by
  have hcons : ∀ s rest, writeStr (s ++ rest) = writeStr s ++ writeStr rest := fun _ _ =>
    List.flatMap_append
  constructor
  · intro h
    by_contra hno
    have hlength : (writeStr pieces.flatten).length < (pieces.flatMap printed).length := by
      clear h
      push Not at hno
      obtain ⟨s, hs, hinvalid⟩ := hno
      obtain ⟨before, after, rfl⟩ := List.append_of_mem hs
      have hle : ∀ l : List (List UInt8),
          (writeStr l.flatten).length ≤ (l.flatMap printed).length := by
        intro l
        induction l with
        | nil => exact Nat.le_refl 0
        | cons x l ih =>
          rw [List.flatten_cons, hcons, List.flatMap_cons, List.length_append, List.length_append]
          exact Nat.add_le_add (length_printed x).1 ih
      have hlt := (length_printed s).2 (Bool.eq_false_iff.2 hinvalid)
      have hbefore := hle before
      have hafter := hle after
      simp only [List.flatten_append, List.flatten_cons, hcons, List.flatMap_append,
        List.flatMap_cons, List.length_append]
      omega
    rw [h] at hlength
    exact Nat.lt_irrefl _ hlength
  · intro h
    induction pieces with
    | nil => rfl
    | cons s rest ih =>
      rw [List.flatMap_cons, List.flatten_cons, hcons,
        ih fun x hx => h x (List.mem_cons_of_mem s hx), printed, if_pos (h s List.mem_cons_self)]

/-- **Transparency of the output.** After a last flush, what was sent to the physical UART is what
the guest wrote, with a carriage return before each line feed, exactly if each of the segments is
UTF-8. -/
theorem output_iff (events : List OutputEvent) :
    (events.foldl OutputEvent.run .new).flushTx.sent =
        writeStr (events.flatMap OutputEvent.written) ↔
      ∀ s ∈ segments [] events, fromUtf8 s = true := by
  rw [sent_eq events .new (by decide), ← flatMap_printed_iff, flatten_segments, List.nil_append]
  rfl

/-- A flush between the two bytes of a character: four bytes are sent instead of two. -/
theorem split_character_sent :
    ([.write 0xC3, .flush, .write 0xA9].foldl OutputEvent.run .new).flushTx.sent =
        [0xC3, 0x83, 0xC2, 0xA9] ∧
      ([.write 0xC3, .write 0xA9].foldl OutputEvent.run .new).flushTx.sent = [0xC3, 0xA9] := by
  decide +kernel

end MiniVisor.Uart
