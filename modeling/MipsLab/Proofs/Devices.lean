import MipsLab.Proofs.Lines

set_option autoImplicit false

/-!
# Consoles as devices

A device gives bytes of input one at a time and takes what is printed; a line is read by asking it for
bytes. Every device can be the console of a machine (`Device.calls_console`). Buffers in memory, the ends of
two channels and buffers in a box are interchangeable: however bytes and lines are asked for in turn, they
give the same answers, and no byte of the input is dropped or repeated (`Console.interchangeable`).
-/

namespace MipsLab

/-! ## Calls and replies -/

/-- What a console is asked. -/
inductive ConsoleCall where
  | readByte
  | readLine
  | print (bytes : List Byte)
deriving DecidableEq, Repr

/-- What a console answers. -/
inductive ConsoleReply where
  | byte (b : Option Byte)
  | line (l : Option (List Byte))
  | printed (accepted : Bool)
deriving DecidableEq, Repr

/-- All that is printed by calls. -/
def ConsoleCall.printed : List ConsoleCall → List Byte
  | [] => []
  | .print bytes :: calls => bytes ++ printed calls
  | _ :: calls => printed calls

/-- The answer in another form. -/
def Answered.map {α β : Type} (f : α → β) (r : Answered α) : Answered β := ⟨f r.answer, r.running, r.console⟩

namespace Console

/-- Answers a call. -/
def call (c : Console) (running : Bool) : ConsoleCall → Answered ConsoleReply
  | .readByte => (c.readByte running).map .byte
  | .readLine => (c.readLine running).map .line
  | .print bytes => (c.print running bytes).map .printed

/-- Answers calls one after the other. -/
def calls (c : Console) (running : Bool) : List ConsoleCall → Answered (List ConsoleReply)
  | [] => ⟨[], running, c⟩
  | q :: qs =>
    let r := c.call running q
    (r.console.calls r.running qs).map (r.answer :: ·)

/-- Answers a call, with no more than some turns for a line. -/
def callWithin (turns : Nat) (c : Console) (running : Bool) : ConsoleCall → Option (Answered ConsoleReply)
  | .readLine => (c.lineFrom [] running turns).map (·.map .line)
  | q => some (c.call running q)

/-- Answers calls one after the other, with no more than some turns for each line. -/
def callsWithin (turns : Nat) (c : Console) (running : Bool) :
    List ConsoleCall → Option (Answered (List ConsoleReply))
  | [] => some ⟨[], running, c⟩
  | q :: qs => do
    let r ← c.callWithin turns running q
    let later ← callsWithin turns r.console r.running qs
    return later.map (r.answer :: ·)

/-- A line does not depend on how many more turns there are. -/
theorem lineFrom_mono {before : List Byte} {c : Console} {running : Bool} {turns more : Nat}
    {r : Answered (Option (List Byte))} (h : c.lineFrom before running turns = some r) (le : turns ≤ more) :
    c.lineFrom before running more = some r := by
  induction turns generalizing before c running more with
  | zero => cases h
  | succ turns ih =>
      obtain ⟨more, rfl⟩ := Nat.exists_eq_add_of_le' (Nat.one_le_of_lt le)
      unfold lineFrom at h ⊢
      dsimp only at h ⊢
      split at h
      case h_1 b _ =>
        split at h
        case isTrue hnewline => rwa [if_pos hnewline]
        case isFalse hnewline =>
          rw [if_neg hnewline]
          exact ih h (Nat.le_of_succ_le_succ le)
      case h_2 => exact h

/-- A line that comes within some turns is the line that is read. -/
theorem readLine_eq {c : Console} {running : Bool} {turns : Nat} {r : Answered (Option (List Byte))}
    (h : c.lineFrom [] running turns = some r) (ends : c.EndsLine running) : c.readLine running = r := by
  obtain ⟨r', hr'⟩ := exists_lineFrom_turns ends
  have hle := lineFrom_mono h (Nat.le_max_left turns (c.turns running))
  have hle' := lineFrom_mono hr' (Nat.le_max_right turns (c.turns running))
  rw [readLine, hr', Option.getD_some]
  exact Option.some.inj (hle'.symm.trans hle)

end Console

/-! ## Devices -/

/-- A console that is known by two operations, which get the run control and may change it. -/
structure Device where
  State : Type
  readByte : State → Bool → Option Byte × Bool × State
  print : State → Bool → List Byte → Bool × Bool × State

/-- What is known of answers: each line that ends does so within some turns. -/
noncomputable def Answers.behaviour (answers : Answers) : Behaviour where
  toAnswers := answers
  turns asked running :=
    open Classical in
    if h : ∃ turns, answers.endsLine asked running turns = true then h.choose else 0
  enough asked running turns h := by
    have hends : ∃ turns, answers.endsLine asked running turns = true := ⟨turns, h⟩
    rw [dif_pos hends]
    exact hends.choose_spec

namespace Device

variable (d : Device)

/-- Reads bytes up to a newline or the end of the input, after some bytes of the line, last one first. -/
def lineFrom (before : List Byte) (s : d.State) (running : Bool) :
    (turns : Nat) → Option (Option (List Byte) × Bool × d.State)
  | 0 => none
  | turns + 1 =>
    match d.readByte s running with
    | (some b, running, s) =>
      if b = newline then some (some before.reverse, running, s)
      else lineFrom (b :: before) s running turns
    | (none, running, s) => some (if before.isEmpty then none else some before.reverse, running, s)

/-- Answers a call. A line that takes too many turns has no answer. -/
def call (turns : Nat) (s : d.State) (running : Bool) : ConsoleCall → Option (ConsoleReply × Bool × d.State)
  | .readByte => some (.byte (d.readByte s running).1, (d.readByte s running).2)
  | .readLine => (d.lineFrom [] s running turns).map fun r => (.line r.1, r.2)
  | .print bytes => some (.printed (d.print s running bytes).1, (d.print s running bytes).2)

/-- Answers calls one after the other. -/
def calls (turns : Nat) (s : d.State) (running : Bool) :
    List ConsoleCall → Option (List ConsoleReply × Bool × d.State)
  | [] => some ([], running, s)
  | q :: qs => do
    let (reply, running, s) ← d.call turns s running q
    let (replies, running, s) ← calls turns s running qs
    return (reply :: replies, running, s)

/-- The state after some requests. -/
def after (s : d.State) : List Asked → d.State
  | [] => s
  | ⟨.byte, running⟩ :: asked => (d.readByte (after s asked) running).2.2
  | ⟨.print bytes, running⟩ :: asked => (d.print (after s asked) running bytes).2.2

/-- The answers of a device that starts in some state. -/
def answers (s : d.State) : Answers where
  byte
    | ⟨.byte, running⟩ :: asked => (d.readByte (d.after s asked) running).1
    | _ => none
  accepts
    | ⟨.print bytes, running⟩ :: asked => (d.print (d.after s asked) running bytes).1
    | _ => false
  running
    | ⟨.byte, running⟩ :: asked => (d.readByte (d.after s asked) running).2.1
    | ⟨.print bytes, running⟩ :: asked => (d.print (d.after s asked) running bytes).2.1
    | [] => false

/-- The device as the console of a machine, after some requests. -/
noncomputable def console (s : d.State) (asked : List Asked) : Console := .custom (d.answers s).behaviour asked

variable {d} {s : d.State}

theorem lineFrom_console {before : List Byte} {asked : List Asked} {running stays : Bool} {turns : Nat}
    {line : Option (List Byte)} {t : d.State}
    (h : d.lineFrom before (d.after s asked) running turns = some (line, stays, t)) :
    ∃ later, (d.console s asked).lineFrom before running turns = some ⟨line, stays, d.console s later⟩ ∧
      t = d.after s later := by
  induction turns generalizing before asked running with
  | zero => cases h
  | succ turns ih =>
      -- a byte is asked for in the same state, and leads to the same state
      let next : List Asked := ⟨.byte, running⟩ :: asked
      have hask : (d.console s asked).readByte running = ⟨(d.readByte (d.after s asked) running).1,
        (d.readByte (d.after s asked) running).2.1, d.console s next⟩ := rfl
      have hnext : d.after s next = (d.readByte (d.after s asked) running).2.2 := rfl
      unfold lineFrom at h
      simp only [Console.lineFrom, hask]
      rcases hread : d.readByte (d.after s asked) running with ⟨b | b, stays', t'⟩
      · rw [hread] at h hnext
        cases h
        exact ⟨next, rfl, hnext.symm⟩
      · rw [hread] at h hnext
        dsimp only at h hnext ⊢
        split at h
        case isTrue hb =>
          cases h
          exact ⟨next, if_pos hb, hnext.symm⟩
        case isFalse hb =>
          rw [if_neg hb]
          rw [← hnext] at h
          exact ih h

theorem call_console {asked : List Asked} {running stays : Bool} {turns : Nat} {q : ConsoleCall}
    {reply : ConsoleReply} {t : d.State}
    (h : d.call turns (d.after s asked) running q = some (reply, stays, t)) :
    ∃ later, (d.console s asked).call running q = ⟨reply, stays, d.console s later⟩ ∧
      t = d.after s later := by
  cases q with
  | readByte =>
      obtain ⟨rfl, rfl, rfl⟩ := by simpa [Device.call, Prod.ext_iff] using h
      exact ⟨⟨.byte, running⟩ :: asked, rfl, rfl⟩
  | print bytes =>
      obtain ⟨rfl, rfl, rfl⟩ := by simpa [Device.call, Prod.ext_iff] using h
      exact ⟨⟨.print bytes, running⟩ :: asked, rfl, rfl⟩
  | readLine =>
      obtain ⟨⟨line, stays, t⟩, hline, hreply⟩ := Option.map_eq_some_iff.mp h
      cases hreply
      obtain ⟨later, hconsole, hlater⟩ := lineFrom_console hline
      have hends : (d.answers s).endsLine asked running turns = true := by
        have hsome := Console.isSome_lineFrom_custom (d.answers s).behaviour asked [] running turns
        rw [← show (d.answers s).behaviour.toAnswers = d.answers s from rfl, ← hsome]
        exact Option.isSome_of_eq_some hconsole
      refine ⟨later, ?_, hlater⟩
      show ((d.console s asked).readLine running).map ConsoleReply.line = _
      rw [Console.readLine_eq hconsole ⟨turns, hends⟩]
      rfl

/-- **Every device can be the console of a machine.** Whatever calls the device answers, the console made of
it gives the same replies, leaves the run control in the same way, and stands for the state that the device
is left in. -/
theorem calls_console {asked : List Asked} {running stays : Bool} {turns : Nat} {qs : List ConsoleCall}
    {replies : List ConsoleReply} {t : d.State}
    (h : d.calls turns (d.after s asked) running qs = some (replies, stays, t)) :
    ∃ later, (d.console s asked).calls running qs = ⟨replies, stays, d.console s later⟩ ∧
      t = d.after s later := by
  induction qs generalizing asked running replies with
  | nil =>
      cases h
      exact ⟨asked, rfl, rfl⟩
  | cons q qs ih =>
      obtain ⟨⟨reply, running', t'⟩, hcall, hrest⟩ := Option.bind_eq_some_iff.mp h
      obtain ⟨⟨replies, stays, t⟩, hcalls, hend⟩ := Option.bind_eq_some_iff.mp hrest
      cases hend
      obtain ⟨middle, hreply, rfl⟩ := call_console hcall
      obtain ⟨later, hreplies, hlater⟩ := ih hcalls
      refine ⟨later, ?_, hlater⟩
      show (((d.console s asked).call running q).console.calls
        ((d.console s asked).call running q).running qs).map _ = _
      rw [hreply, hreplies]
      rfl

end Device

/-! ## Consoles that show buffers -/

namespace Buffers

/-- Takes the first line of the input. -/
def readLine (b : Buffers) : Option (List Byte) × Buffers :=
  if b.input = [] then (none, b)
  else
    (some (b.input.takeWhile (· != newline)),
      { b with input := (b.input.dropWhile (· != newline)).drop 1 })

/-- Answers a call. -/
def call (b : Buffers) : ConsoleCall → ConsoleReply × Buffers
  | .readByte => (.byte b.readByte.1, b.readByte.2)
  | .readLine => (.line b.readLine.1, b.readLine.2)
  | .print bytes => (.printed true, b.print bytes)

/-- Answers calls one after the other. -/
def calls (b : Buffers) : List ConsoleCall → List ConsoleReply × Buffers
  | [] => ([], b)
  | q :: qs => ((b.call q).1 :: ((b.call q).2.calls qs).1, ((b.call q).2.calls qs).2)

/-- The line that is taken is the first one. -/
theorem readLine_eq {b : Buffers} {line : Option (List Byte)} {rest : List Byte}
    (first : Console.FirstLine b.input (line.getD []) rest) (hnone : line = none ↔ b.input = []) :
    b.readLine = (line, { b with input := rest }) := by
  obtain ⟨hline, rfl⟩ := first.eq
  obtain ⟨input, output⟩ := b
  unfold readLine
  split
  case isTrue hempty =>
    obtain rfl : input = [] := hempty
    rw [hnone.mpr rfl]
    rfl
  case isFalse hne =>
    obtain ⟨l, rfl⟩ := Option.ne_none_iff_exists'.mp (mt hnone.mp hne)
    rw [← hline]
    rfl

/-- A call leaves no more input than there was. -/
theorem length_input_call (b : Buffers) (q : ConsoleCall) : (b.call q).2.input.length ≤ b.input.length := by
  cases q with
  | readByte => simp only [call, readByte]; split <;> simp [*]
  | readLine =>
      simp only [call, readLine]
      split
      · exact Nat.le_refl _
      · exact ((List.drop_sublist 1 _).trans (List.dropWhile_sublist _)).length_le
  | print bytes => exact Nat.le_refl _

end Buffers

namespace Console

/-- The console behaves as buffers do: it is made of them, or of channels whose messages are received, or of a
box around the buffers that were there at the start. -/
inductive Shows (start : Buffers) (control : List Asked → Bool) : Console → Buffers → Prop
  | buffered (b : Buffers) : Shows start control (.buffered b) b
  | channel (ends : ChannelEnds) (received : ends.hasReceiver = true) :
      Shows start control (.channel ends) ⟨ends.queue, ends.messages.toList.flatten.toArray⟩
  | custom (asked : List Asked) : Shows start control (.custom (start.boxed control) asked) (start.after asked)

namespace Shows

variable {start b : Buffers} {control : List Asked → Bool} {c : Console}

theorem readByte (h : Shows start control c b) (running : Bool) :
    (c.readByte running).answer = b.readByte.1 ∧ Shows start control (c.readByte running).console b.readByte.2 := by
  cases h with
  | buffered => exact ⟨rfl, .buffered _⟩
  | channel ends received =>
      obtain ⟨queue, messages, _⟩ := ends
      cases queue with
      | nil => exact ⟨rfl, .channel _ received⟩
      | cons first rest => exact ⟨rfl, .channel ⟨rest, messages, _⟩ received⟩
  | custom asked => exact ⟨rfl, .custom (⟨.byte, running⟩ :: asked)⟩

theorem print (h : Shows start control c b) (running : Bool) (bytes : List Byte) :
    (c.print running bytes).answer = true ∧
      Shows start control (c.print running bytes).console (b.print bytes) := by
  cases h with
  | buffered => exact ⟨rfl, .buffered _⟩
  | channel ends received =>
      have hsend : ends.send bytes = (true, { ends with messages := ends.messages.push bytes }) := if_pos received
      have houtput : ends.messages.toList.flatten.toArray ++ bytes =
          (ends.messages.push bytes).toList.flatten.toArray := by simp
      show (ends.send bytes).1 = true ∧ Shows start control (.channel (ends.send bytes).2) ⟨ends.queue, _⟩
      rw [hsend]
      refine ⟨rfl, ?_⟩
      rw [houtput]
      exact .channel { ends with messages := ends.messages.push bytes } received
  | custom asked => exact ⟨rfl, .custom (⟨.print bytes, running⟩ :: asked)⟩

/-- Reading leaves the output alone, so consoles that show the same output hold their input. -/
theorem holding (output : Array Byte) : Holding fun c input => Shows start control c ⟨input, output⟩ := by
  intro c input h running
  obtain ⟨hanswer, hshows⟩ := h.readByte running
  cases input with
  | nil => exact ⟨hanswer, hshows⟩
  | cons first rest => exact ⟨hanswer, hshows⟩

/-- The loop over bytes takes the line that buffers take at once. -/
theorem lineFrom (h : Shows start control c b) (running : Bool) {turns : Nat} (enough : b.input.length < turns) :
    ∃ r, c.lineFrom [] running turns = some r ∧ r.answer = b.readLine.1 ∧
      Shows start control r.console b.readLine.2 := by
  obtain ⟨r, hr⟩ : ∃ r, c.lineFrom [] running turns = some r := exists_lineFrom (holding b.output) h enough
  have htaken := takesLine_lineFrom List.not_mem_nil (.nil c running) hr
  obtain ⟨rest, hfirst, hnone, hrest⟩ := htaken.firstLine (holding b.output) h
  rw [Buffers.readLine_eq hfirst hnone]
  exact ⟨r, hr, rfl, hrest⟩

theorem length_lt_turns (h : Shows start control c b) (running : Bool) : b.input.length < c.turns running := by
  cases h <;> exact Nat.lt_succ_self _

/-- A call is answered as by the buffers, and any number of turns is enough that is enough for the input. -/
theorem call (h : Shows start control c b) (running : Bool) (q : ConsoleCall) :
    (c.call running q).answer = (b.call q).1 ∧ Shows start control (c.call running q).console (b.call q).2 ∧
      ∀ turns > b.input.length, c.callWithin turns running q = some (c.call running q) := by
  cases q with
  | readByte =>
      obtain ⟨hanswer, hshows⟩ := h.readByte running
      exact ⟨congrArg _ hanswer, hshows, fun _ _ => rfl⟩
  | print bytes =>
      obtain ⟨hanswer, hshows⟩ := h.print running bytes
      exact ⟨congrArg _ hanswer, hshows, fun _ _ => rfl⟩
  | readLine =>
      obtain ⟨r, hr, hanswer, hshows⟩ := h.lineFrom running (h.length_lt_turns running)
      have hread : c.readLine running = r := by
        rw [readLine, hr, Option.getD_some]
      simp only [Console.call, hread]
      refine ⟨congrArg ConsoleReply.line hanswer, hshows, fun turns enough => ?_⟩
      obtain ⟨r', hr', -⟩ := h.lineFrom running enough
      have hsame : r' = r := by
        have hle := lineFrom_mono hr (Nat.le_max_left (c.turns running) turns)
        have hle' := lineFrom_mono hr' (Nat.le_max_right (c.turns running) turns)
        exact Option.some.inj (hle'.symm.trans hle)
      rw [callWithin, hr', hsame]
      rfl

/-- Calls are answered as by the buffers. -/
theorem calls (h : Shows start control c b) (running : Bool) (qs : List ConsoleCall) :
    (c.calls running qs).answer = (b.calls qs).1 ∧ Shows start control (c.calls running qs).console (b.calls qs).2 ∧
      ∀ turns > b.input.length, c.callsWithin turns running qs = some (c.calls running qs) := by
  induction qs generalizing c b running with
  | nil => exact ⟨rfl, h, fun _ _ => rfl⟩
  | cons q qs ih =>
      obtain ⟨hreply, hnext, hwithin⟩ := h.call running q
      obtain ⟨hreplies, hend, hlater⟩ := ih hnext (c.call running q).running
      refine ⟨?_, hend, fun turns enough => ?_⟩
      · show (c.call running q).answer :: _ = _
        rw [hreply, hreplies]
        rfl
      · rw [callsWithin, hwithin turns enough]
        simp only [Option.bind_eq_bind, Option.bind_some]
        rw [hlater turns (Nat.lt_of_le_of_lt (b.length_input_call q) enough)]
        rfl

end Shows

end Console

/-! ## What becomes of the input -/

/-- Replies give bytes of the input, with a newline put back after each line that ended at one, and what comes
after these bytes is left. A call only comes back empty-handed when nothing is left. -/
inductive Consumes : (replies : List ConsoleReply) → (consumed left : List Byte) → Prop
  | done (left : List Byte) : Consumes [] [] left
  | byte (b : Byte) {replies : List ConsoleReply} {consumed left : List Byte}
      (h : Consumes replies consumed left) : Consumes (.byte (some b) :: replies) (b :: consumed) left
  | noByte {replies : List ConsoleReply} (h : Consumes replies [] []) :
      Consumes (.byte none :: replies) [] []
  | line {l : List Byte} (hl : newline ∉ l) {replies : List ConsoleReply} {consumed left : List Byte}
      (h : Consumes replies consumed left) :
      Consumes (.line (some l) :: replies) (l ++ newline :: consumed) left
  | lastLine {l : List Byte} (hl : newline ∉ l) (nonempty : l ≠ [])
      {replies : List ConsoleReply} (h : Consumes replies [] []) :
      Consumes (.line (some l) :: replies) l []
  | noLine {replies : List ConsoleReply} (h : Consumes replies [] []) :
      Consumes (.line none :: replies) [] []
  | printed {replies : List ConsoleReply} {consumed left : List Byte}
      (h : Consumes replies consumed left) : Consumes (.printed true :: replies) consumed left

namespace Buffers

/-- The line that is read, if any, is the first one, and there is one as long as there is input. -/
theorem consumes_readLine (b : Buffers) {replies : List ConsoleReply} {consumed left : List Byte}
    (h : Consumes replies consumed left) (all : consumed ++ left = b.readLine.2.input) :
    ∃ more, Consumes (.line b.readLine.1 :: replies) more left ∧ more ++ left = b.input := by
  by_cases hempty : b.input = []
  · have hread : b.readLine = (none, b) := if_pos hempty
    rw [hread, hempty] at all
    obtain ⟨rfl, rfl⟩ := List.append_eq_nil_iff.mp all
    rw [hread, hempty]
    exact ⟨[], h.noLine, rfl⟩
  · obtain ⟨line, rest, hfirst⟩ := Console.exists_firstLine b.input
    have hread : b.readLine = (some line, { b with input := rest }) :=
      readLine_eq hfirst (by simp [hempty])
    rw [hread] at all ⊢
    obtain ⟨input, output⟩ := b
    cases hfirst with
    | ended hl rest =>
        obtain rfl : consumed ++ left = rest := all
        exact ⟨_, .line hl h, by simp⟩
    | last hl =>
        obtain ⟨rfl, rfl⟩ := List.append_eq_nil_iff.mp all
        exact ⟨_, .lastLine hl hempty h, List.append_nil _⟩

theorem output_readLine (b : Buffers) : b.readLine.2.output = b.output := by
  unfold readLine
  split <;> rfl

/-- What calls do to buffers: they consume a part of the input, and append what is printed. -/
theorem consumes_calls (b : Buffers) (qs : List ConsoleCall) :
    ∃ consumed left, Consumes (b.calls qs).1 consumed left ∧ consumed ++ left = b.input ∧
      (b.calls qs).2 = ⟨left, b.output ++ ConsoleCall.printed qs⟩ := by
  induction qs generalizing b with
  | nil => exact ⟨[], b.input, .done _, rfl, by simp [calls, ConsoleCall.printed]⟩
  | cons q qs ih =>
      obtain ⟨consumed, left, h, all, hafter⟩ := ih (b.call q).2
      cases q with
      | readByte =>
          obtain ⟨input, output⟩ := b
          cases input with
          | nil =>
              obtain ⟨rfl, rfl⟩ := List.append_eq_nil_iff.mp all
              exact ⟨[], [], h.noByte, rfl, hafter⟩
          | cons first input => exact ⟨first :: consumed, left, h.byte first, congrArg (first :: ·) all, hafter⟩
      | readLine =>
          obtain ⟨more, hmore, hall⟩ := b.consumes_readLine h all
          refine ⟨more, left, hmore, hall, hafter.trans ?_⟩
          simp only [call, output_readLine, ConsoleCall.printed]
      | print bytes =>
          refine ⟨consumed, left, h.printed, all, hafter.trans ?_⟩
          have houtput : b.output ++ bytes ++ ConsoleCall.printed qs =
              b.output ++ (bytes ++ ConsoleCall.printed qs) := Array.toList_inj.mp (by simp)
          exact congrArg (Buffers.mk left) houtput

end Buffers

/-! ## Interchangeable consoles -/

namespace Console

/-- The consoles that hold some input: buffers, channels whose sender is gone after sending the input, and
buffers in a box. -/
def holdingInput (input : List Byte) (control : List Asked → Bool) : List Console :=
  [.buffered ⟨input, #[]⟩, .channel ⟨input, #[], true⟩, .custom (Buffers.boxed ⟨input, #[]⟩ control) []]

/-- **Consoles are interchangeable, and none loses input.** For all input and all calls, buffers, channels and
buffers in a box give the same replies and print the same bytes, whatever the box does to the run control.
Every call returns, after at most one turn for each byte of the input and one more. What the replies return,
with the newlines put back, is what is missing from the input, and a call only comes back empty-handed when
nothing is left. -/
theorem interchangeable (input : List Byte) (control : List Asked → Bool) (qs : List ConsoleCall) :
    ∃ replies consumed left,
      (∀ c ∈ holdingInput input control, ∀ running,
        (c.calls running qs).answer = replies ∧
        Shows ⟨input, #[]⟩ control (c.calls running qs).console ⟨left, (ConsoleCall.printed qs).toArray⟩ ∧
        ∀ turns > input.length, c.callsWithin turns running qs = some (c.calls running qs)) ∧
      Consumes replies consumed left ∧ consumed ++ left = input := by
  let start : Buffers := ⟨input, #[]⟩
  obtain ⟨consumed, left, h, all, hafter⟩ := start.consumes_calls qs
  refine ⟨_, consumed, left, fun c hc running => ?_, h, all⟩
  have hshows : Shows start control c start := by
    simp only [holdingInput, List.mem_cons, List.not_mem_nil, or_false] at hc
    obtain rfl | rfl | rfl := hc
    · exact .buffered start
    · exact .channel ⟨input, #[], true⟩ rfl
    · exact .custom []
  obtain ⟨hreplies, hend, hwithin⟩ := hshows.calls running qs
  rw [hafter] at hend
  exact ⟨hreplies, by simpa [start] using hend, hwithin⟩

end Console

end MipsLab
