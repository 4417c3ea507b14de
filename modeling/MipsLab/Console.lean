import MipsLab.Word

set_option autoImplicit false

/-!
# Consoles

Where the read services take their input from and where the print services put their output: nowhere,
buffers in memory, channels to someone else, or anything else that answers requests. A console of the
last kind may look at the run control of the machine and change it whenever it is asked for something.
-/

namespace MipsLab

/-- What a console is asked for. -/
inductive Request where
  /-- The next byte of input. -/
  | byte
  | print (bytes : List Byte)
deriving DecidableEq, Repr

/-- A request, with the run control of the machine when it was made. -/
structure Asked where
  request : Request
  running : Bool
deriving DecidableEq, Repr

/-! ## Buffers and channels -/

/-- Input and output in memory. -/
structure Buffers where
  input : List Byte
  output : Array Byte
deriving DecidableEq, Repr

namespace Buffers

/-- Takes a byte of input. -/
def readByte (b : Buffers) : Option Byte × Buffers :=
  match b.input with
  | first :: rest => (some first, { b with input := rest })
  | [] => (none, b)

/-- Appends to the output. -/
def print (b : Buffers) (bytes : List Byte) : Buffers := { b with output := b.output ++ bytes }

/-- Appends to the input. -/
def push (b : Buffers) (bytes : List Byte) : Buffers := { b with input := b.input ++ bytes }

/-- Takes all that was printed. -/
def takeOutput (b : Buffers) : Array Byte × Buffers := (b.output, { b with output := #[] })

end Buffers

/-- The ends of two channels, each of which delivers what was sent in the order of sending. -/
structure ChannelEnds where
  /-- The bytes that are still to be received before the input ends. A byte that was not sent yet is
  waited for. -/
  queue : List Byte
  /-- The messages sent, one for each print. -/
  messages : Array (List Byte)
  /-- Whether there is someone to receive messages. -/
  hasReceiver : Bool
deriving DecidableEq, Repr

namespace ChannelEnds

/-- Receives a byte. -/
def receive (ends : ChannelEnds) : Option Byte × ChannelEnds :=
  match ends.queue with
  | first :: rest => (some first, { ends with queue := rest })
  | [] => (none, ends)

/-- Sends a message, and tells whether it was accepted. -/
def send (ends : ChannelEnds) (bytes : List Byte) : Bool × ChannelEnds :=
  if ends.hasReceiver then (true, { ends with messages := ends.messages.push bytes })
  else (false, ends)

end ChannelEnds

/-! ## Any other console -/

/-- The byte that ends a line. -/
def newline : Byte := 0x0A

/-- The answers of a console, as functions of the requests that it has had so far. The one that it
answers comes first, and the earliest one last. -/
structure Answers where
  /-- The byte that it gives. -/
  byte : List Asked → Option Byte
  /-- Whether it accepts what it is to print. -/
  accepts : List Asked → Bool
  /-- The run control that it leaves. -/
  running : List Asked → Bool

/-- Whether the next line ends within a number of bytes. -/
def Answers.endsLine (answers : Answers) (asked : List Asked) (running : Bool) : (turns : Nat) → Bool
  | 0 => false
  | turns + 1 =>
    let asked := ⟨.byte, running⟩ :: asked
    match answers.byte asked with
    | some b => b == newline || answers.endsLine asked (answers.running asked) turns
    | none => true

/-- A console that is known by its answers. -/
structure Behaviour extends Answers where
  /-- How many bytes have to be asked for to get the next line. -/
  turns : List Asked → Bool → Nat
  /-- Every line that ends does so within these turns. -/
  enough : ∀ asked running n, toAnswers.endsLine asked running n = true →
    toAnswers.endsLine asked running (turns asked running) = true

/-! ## Buffers in a box -/

namespace Buffers

/-- The buffers after some requests. -/
def after (b : Buffers) : List Asked → Buffers
  | [] => b
  | ⟨.byte, _⟩ :: asked => (b.after asked).readByte.2
  | ⟨.print bytes, _⟩ :: asked => (b.after asked).print bytes

/-- The answers of buffers in a box that leaves the run control as it likes. -/
def answers (b : Buffers) (control : List Asked → Bool) : Answers where
  byte
    | [] => none
    | _ :: asked => (b.after asked).readByte.1
  accepts _ := true
  running := control

/-- A line ends at the end of the input at the latest. -/
theorem endsLine_answers (b : Buffers) (control : List Asked → Bool) {asked : List Asked} {running : Bool}
    {turns : Nat} (h : (b.after asked).input.length < turns) :
    (b.answers control).endsLine asked running turns = true := by
  induction turns generalizing asked running with
  | zero => cases h
  | succ turns ih =>
      show (match (b.after asked).readByte.1 with
        | some first => first == newline || (b.answers control).endsLine (⟨.byte, running⟩ :: asked) _ turns
        | none => true) = true
      cases hinput : (b.after asked).input with
      | nil => simp [readByte, hinput]
      | cons first rest =>
          have hrest : (b.after (⟨.byte, running⟩ :: asked)).input = rest := by
            simp [after, readByte, hinput]
          rw [hinput, List.length_cons] at h
          simp only [readByte, hinput, ih (hrest ▸ Nat.lt_of_succ_lt_succ h), Bool.or_true]

/-- Buffers in a box that leaves the run control as it likes. -/
def boxed (b : Buffers) (control : List Asked → Bool) : Behaviour where
  toAnswers := b.answers control
  turns asked _ := (b.after asked).input.length + 1
  enough _ _ _ _ := b.endsLine_answers control (Nat.lt_succ_self _)

end Buffers

/-! ## Consoles -/

/-- A console. -/
inductive Console where
  /-- There is no input, and no output is accepted. -/
  | empty
  | buffered (b : Buffers)
  | channel (ends : ChannelEnds)
  /-- Any other console, with the requests that it has had, last one first. -/
  | custom (behaviour : Behaviour) (asked : List Asked)

/-- What a console answers, with the run control and the console after that. -/
structure Answered (α : Type) where
  answer : α
  running : Bool
  console : Console

namespace Console

/-- Asks for a byte of input. -/
def readByte (c : Console) (running : Bool) : Answered (Option Byte) :=
  match c with
  | empty => ⟨none, running, empty⟩
  | buffered b => ⟨b.readByte.1, running, buffered b.readByte.2⟩
  | channel ends => ⟨ends.receive.1, running, channel ends.receive.2⟩
  | custom behaviour asked =>
    let asked := ⟨.byte, running⟩ :: asked
    ⟨behaviour.byte asked, behaviour.running asked, custom behaviour asked⟩

/-- Asks for bytes to be printed. The answer tells whether they were accepted. -/
def print (c : Console) (running : Bool) (bytes : List Byte) : Answered Bool :=
  match c with
  | empty => ⟨false, running, empty⟩
  | buffered b => ⟨true, running, buffered (b.print bytes)⟩
  | channel ends => ⟨(ends.send bytes).1, running, channel (ends.send bytes).2⟩
  | custom behaviour asked =>
    let asked := ⟨.print bytes, running⟩ :: asked
    ⟨behaviour.accepts asked, behaviour.running asked, custom behaviour asked⟩

/-- Asks for bytes up to a newline or the end of the input, where the bytes of the line so far, last
one first, are `before`. There is no line if the input ends before its first byte, and no answer if the
line takes too many turns. -/
def lineFrom (before : List Byte) (c : Console) (running : Bool) :
    (turns : Nat) → Option (Answered (Option (List Byte)))
  | 0 => none
  | turns + 1 =>
    let r := c.readByte running
    match r.answer with
    | some b =>
      if b = newline then some ⟨some before.reverse, r.running, r.console⟩
      else lineFrom (b :: before) r.console r.running turns
    | none => some ⟨if before.isEmpty then none else some before.reverse, r.running, r.console⟩

/-- How many bytes have to be asked for to get the next line. -/
def turns (c : Console) (running : Bool) : Nat :=
  match c with
  | empty => 1
  | buffered b => b.input.length + 1
  | channel ends => ends.queue.length + 1
  | custom behaviour asked => behaviour.turns asked running

/-- Asks for a line of input, without the newline that ends it. The last line may lack its newline. One
waits in vain for a line that never ends, which then counts as none. -/
def readLine (c : Console) (running : Bool) : Answered (Option (List Byte)) :=
  (c.lineFrom [] running (c.turns running)).getD ⟨none, running, c⟩

/-- The buffers that the console is made of, if it is. -/
def buffers? : Console → Option Buffers
  | buffered b => some b
  | _ => none

/-- How listings call the console. -/
def text : Console → String
  | empty => "SimIO::Empty"
  | buffered _ => "SimIO::Buffered"
  | channel _ => "SimIO::Channel"
  | custom _ _ => "SimIO::Custom"

end Console

end MipsLab
