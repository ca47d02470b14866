import MiniVisor.Uart.Output

/-!
# The command console

A model of `Console::write` and `Console::exec_command` of `console.rs`. `buffer` is the part of the
array in front of `buffer_pointer`. What a command does is not modelled: an event comes with the
answer of the command that it runs, if it runs one.

`lines` is the specification of the input, where a carriage return, a line feed and the pair of both
end a line. `console_lines_iff` compares the two. The flag `ignore_lf` is set by a carriage return
and never cleared by what follows, so that a line feed later on does not end a line.
-/

set_option autoImplicit false

namespace MiniVisor.Uart

/-- `u8::is_ascii_control`. -/
def isAsciiControl (b : UInt8) : Bool := b < 0x20 || b == 0x7F

structure Console where
  buffer : List UInt8
  ignoreLf : Bool

namespace Console

/-- `BUFFER_SIZE`. -/
def bufferSize : Nat := 64

def new : Console := ⟨[], false⟩

/-- The buffer after `exec_command`, given what the command returns. There is no answer if the input
is not UTF-8 or does not name a command. -/
def execCommand (answer : Option Bool) (buffer : List UInt8) : List UInt8 :=
  if buffer = [] then []
  else if answer = some false then buffer else []

/-- `write`, with the input that `exec_command` sees if it runs. -/
def write (data : UInt8) (answer : Option Bool) (c : Console) : Console × Option (List UInt8) :=
  if data = carriageReturn ∨ data = lineFeed ∧ c.ignoreLf = false then
    (⟨execCommand answer c.buffer, data == carriageReturn⟩, some c.buffer)
  else if isAsciiControl data = true ∨ c.buffer.length = bufferSize then (c, none)
  else ({ c with buffer := c.buffer ++ [data] }, none)

/-- The inputs that `exec_command` sees, for bytes with the answers of the commands. -/
def runs (c : Console) : List (UInt8 × Option Bool) → List (List UInt8)
  | [] => []
  | (data, answer) :: rest => (c.write data answer).2.toList ++ runs (c.write data answer).1 rest

end Console

/-- The lines of an input, each with its first 64 bytes that are not control characters. The
arguments are whether the byte before was a carriage return, and the line so far. -/
def lines (afterCr : Bool) (line : List UInt8) : List UInt8 → List (List UInt8)
  | [] => []
  | b :: rest =>
    if b = carriageReturn then line.take 64 :: lines true [] rest
    else if b = lineFeed then
      if afterCr = true then lines false line rest else line.take 64 :: lines false [] rest
    else lines false (if isAsciiControl b = true then line else line ++ [b]) rest

/-- Once a carriage return was seen, every line feed comes directly after one. -/
def Paired (seenCr afterCr : Bool) : List UInt8 → Prop
  | [] => True
  | b :: rest => (b = lineFeed → seenCr = true → afterCr = true) ∧
      Paired (seenCr || b == carriageReturn) (b == carriageReturn) rest

namespace Console

variable {c : Console} {afterCr : Bool} {line : List UInt8}

theorem write_cr (answer : Option Bool) (c : Console) :
    c.write carriageReturn answer = (⟨execCommand answer c.buffer, true⟩, some c.buffer) :=
  if_pos (.inl rfl)

theorem write_lf (answer : Option Bool) (h : c.ignoreLf = false) :
    c.write lineFeed answer = (⟨execCommand answer c.buffer, false⟩, some c.buffer) :=
  if_pos (.inr ⟨rfl, h⟩)

theorem write_lf_ignored (answer : Option Bool) (h : c.ignoreLf = true) :
    c.write lineFeed answer = (c, none) := by
  have hno : ¬(lineFeed = carriageReturn ∨ lineFeed = lineFeed ∧ c.ignoreLf = false) := by
    rw [h]
    decide
  rw [write, if_neg hno, if_pos (.inl (by decide))]

/-- A byte that ends no line leaves the flag as it is. -/
theorem write_other {b : UInt8} (answer : Option Bool) (hcr : b ≠ carriageReturn)
    (hlf : b ≠ lineFeed) :
    ∃ buffer, c.write b answer = (⟨buffer, c.ignoreLf⟩, none) ∧
      (c.buffer = line.take bufferSize →
        buffer = (if isAsciiControl b = true then line else line ++ [b]).take bufferSize) := by
  rw [write, if_neg (not_or.2 ⟨hcr, fun h => hlf h.1⟩)]
  split
  · next h =>
    refine ⟨c.buffer, rfl, fun hbuffer => ?_⟩
    rw [hbuffer] at h ⊢
    split
    · rfl
    · next hcontrol =>
      -- The buffer is full.
      have hfull : (line.take bufferSize).length = bufferSize := h.resolve_left hcontrol
      rw [List.length_take] at hfull
      rw [List.take_append_of_le_length (by omega)]
  · next h =>
    obtain ⟨hcontrol, hroom⟩ := not_or.1 h
    refine ⟨c.buffer ++ [b], rfl, fun hbuffer => ?_⟩
    rw [if_neg hcontrol]
    rw [hbuffer] at hroom ⊢
    have hshort : line.length < bufferSize := by
      rw [List.length_take] at hroom
      omega
    rw [List.take_of_length_le hshort.le, List.take_of_length_le]
    rw [List.length_append]
    exact hshort

/-- No line is run twice, and every line is run exactly if the input is paired: an ignored line feed
is a line that is lost. -/
theorem length_runs (events : List (UInt8 × Option Bool)) :
    ∀ {c : Console} {afterCr : Bool} (line : List UInt8), (afterCr = true → c.ignoreLf = true) →
      (c.runs events).length ≤ (lines afterCr line (events.map Prod.fst)).length ∧
      ((c.runs events).length = (lines afterCr line (events.map Prod.fst)).length ↔
        Paired c.ignoreLf afterCr (events.map Prod.fst)) := by
  induction events with
  | nil => exact fun _ _ => ⟨le_rfl, iff_of_true rfl trivial⟩
  | cons event rest ih =>
    intro c afterCr line hafter
    obtain ⟨b, answer⟩ := event
    rw [runs, List.map_cons, lines, Paired]
    by_cases hcr : b = carriageReturn
    · subst hcr
      obtain ⟨hle, hiff⟩ := @ih ⟨execCommand answer c.buffer, true⟩ true [] fun _ => rfl
      rw [write_cr, if_pos rfl, show (carriageReturn == carriageReturn) = true from rfl,
        Bool.or_true]
      refine ⟨Nat.succ_le_succ hle, Nat.succ_inj.trans (hiff.trans ?_)⟩
      exact (and_iff_right fun h => absurd (show carriageReturn = lineFeed from h)
        (by decide)).symm
    · rw [if_neg hcr, beq_false_of_ne hcr, Bool.or_false]
      by_cases hlf : b = lineFeed
      · subst hlf
        rw [if_pos rfl]
        cases hseen : c.ignoreLf with
        | false =>
          have hfirst : afterCr ≠ true := fun h => absurd (hseen.symm.trans (hafter h)) (by decide)
          obtain ⟨hle, hiff⟩ := @ih ⟨execCommand answer c.buffer, false⟩ false [] fun h => h
          rw [write_lf answer hseen, if_neg hfirst]
          refine ⟨Nat.succ_le_succ hle, Nat.succ_inj.trans (hiff.trans ?_)⟩
          exact (and_iff_right fun _ h => absurd h (by decide)).symm
        | true =>
          -- The line feed is ignored, which is right only directly behind a carriage return.
          rw [write_lf_ignored answer hseen]
          have hkept := fun line => @ih c false line fun h => absurd h (by decide)
          rw [hseen] at hkept
          split
          · next hpair =>
            obtain ⟨hle, hiff⟩ := hkept line
            exact ⟨hle, hiff.trans (and_iff_right fun _ _ => hpair).symm⟩
          · next hlone =>
            obtain ⟨hle, -⟩ := hkept []
            refine ⟨hle.trans (Nat.le_succ _), iff_of_false ?_ fun h => hlone (h.1 rfl rfl)⟩
            exact (Nat.lt_succ_of_le hle).ne
      · obtain ⟨buffer, hwrite, -⟩ := @write_other c line b answer hcr hlf
        obtain ⟨hle, hiff⟩ := @ih ⟨buffer, c.ignoreLf⟩ false
          (if isAsciiControl b = true then line else line ++ [b]) fun h => absurd h (by decide)
        rw [hwrite, if_neg hlf]
        exact ⟨hle, hiff.trans (and_iff_right fun h => absurd h hlf).symm⟩

/-- A command that does not return false leaves an empty buffer. -/
theorem execCommand_of_ne {answer : Option Bool} (h : answer ≠ some false) (buffer : List UInt8) :
    execCommand answer buffer = [] := by
  rw [execCommand, if_neg h, ite_self]

/-- In a paired input every run sees its line. -/
theorem runs_eq_lines (events : List (UInt8 × Option Bool)) :
    ∀ {c : Console} {afterCr : Bool} {line : List UInt8}, (afterCr = true → c.ignoreLf = true) →
      c.buffer = line.take bufferSize → (∀ event ∈ events, event.2 ≠ some false) →
      Paired c.ignoreLf afterCr (events.map Prod.fst) →
      c.runs events = lines afterCr line (events.map Prod.fst) := by
  induction events with
  | nil => exact fun _ _ _ _ => rfl
  | cons event rest ih =>
    intro c afterCr line hafter hbuffer hanswers hpaired
    obtain ⟨b, answer⟩ := event
    have hanswer : answer ≠ some false := hanswers _ List.mem_cons_self
    have hrest : ∀ event ∈ rest, event.2 ≠ some false := fun event hevent =>
      hanswers event (List.mem_cons_of_mem _ hevent)
    rw [List.map_cons, Paired] at hpaired
    rw [runs, List.map_cons, lines]
    obtain ⟨hlast, hpaired⟩ := hpaired
    by_cases hcr : b = carriageReturn
    · subst hcr
      rw [show (carriageReturn == carriageReturn) = true from rfl, Bool.or_true] at hpaired
      rw [write_cr, if_pos rfl, execCommand_of_ne hanswer, hbuffer]
      exact congrArg _ (@ih ⟨[], true⟩ true [] (fun _ => rfl) rfl hrest hpaired)
    · rw [beq_false_of_ne hcr, Bool.or_false] at hpaired
      rw [if_neg hcr]
      by_cases hlf : b = lineFeed
      · subst hlf
        rw [if_pos rfl]
        cases hseen : c.ignoreLf with
        | false =>
          have hfirst : afterCr ≠ true := fun h => absurd (hseen.symm.trans (hafter h)) (by decide)
          rw [hseen] at hpaired
          rw [write_lf answer hseen, if_neg hfirst, execCommand_of_ne hanswer, hbuffer]
          exact congrArg _ (@ih ⟨[], false⟩ false [] (fun h => h) rfl hrest hpaired)
        | true =>
          rw [write_lf_ignored answer hseen, if_pos (hlast rfl hseen)]
          exact ih (fun h => absurd h (by decide)) hbuffer hrest hpaired
      · obtain ⟨buffer, hwrite, hline⟩ := @write_other c line b answer hcr hlf
        rw [hwrite, if_neg hlf]
        exact @ih ⟨buffer, c.ignoreLf⟩ false _ (fun h => absurd h (by decide)) (hline hbuffer) hrest
          hpaired

/-- **Line endings.** `exec_command` runs once for each line, and sees the line if the commands
return true, exactly if after the first carriage return every line feed comes directly after one. -/
theorem console_lines_iff (events : List (UInt8 × Option Bool)) :
    ((new.runs events).length = (lines false [] (events.map Prod.fst)).length ∧
        ((∀ event ∈ events, event.2 ≠ some false) →
          new.runs events = lines false [] (events.map Prod.fst))) ↔
      Paired false false (events.map Prod.fst) := by
  have hstart : false = true → new.ignoreLf = true := fun h => absurd h (by decide)
  obtain ⟨-, hiff⟩ := @length_runs events new false [] hstart
  constructor
  · exact fun h => hiff.1 h.1
  · exact fun hpaired => ⟨hiff.2 hpaired, fun hanswers =>
      runs_eq_lines events hstart rfl hanswers hpaired⟩

/-- A line that ends with a carriage return, and a line that ends with a line feed: the second is
not run. -/
theorem line_feed_lost :
    new.runs [(97, none), (carriageReturn, none), (98, none), (lineFeed, none)] = [[97]] ∧
      lines false [] [97, carriageReturn, 98, lineFeed] = [[97], [98]] := by
  decide

end Console

end MiniVisor.Uart
