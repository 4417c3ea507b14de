import Mathlib.Data.List.TakeWhile
import MipsLab.Console

set_option autoImplicit false

/-!
# Lines of input

A line is read byte by byte. What is read and which console is left is described by the bytes that the
console gives one after the other, whatever console it is (`takesLine_readLine`). A console that holds some
input gives the first line of it, and then holds the rest (`TakesLine.firstLine`).
-/

namespace MipsLab

namespace Console

/-! ## Lines of any console -/

/-- Asked for bytes one after the other, the console gives these, which leads to another console and run
control. -/
inductive Gives : Console → Bool → List Byte → Console → Bool → Prop
  | nil (c : Console) (running : Bool) : Gives c running [] c running
  | cons {c d : Console} {running stays : Bool} {b : Byte} {bytes : List Byte}
      (first : (c.readByte running).answer = some b)
      (rest : Gives (c.readByte running).console (c.readByte running).running bytes d stays) :
      Gives c running (b :: bytes) d stays

/-- A line is taken: the bytes up to a newline, or those up to the end of the input. There is none if the
input ends before its first byte. -/
inductive TakesLine (c : Console) (running : Bool) : Option (List Byte) → Console → Bool → Prop
  | ended {line : List Byte} {d : Console} {stays : Bool} (h : newline ∉ line)
      (given : Gives c running (line ++ [newline]) d stays) : TakesLine c running (some line) d stays
  | last {line : List Byte} {d : Console} {stays : Bool} (h : newline ∉ line)
      (given : Gives c running line d stays) (ended : (d.readByte stays).answer = none) :
      TakesLine c running (if line.isEmpty then none else some line) (d.readByte stays).console
        (d.readByte stays).running

variable {c d : Console} {running stays : Bool} {bytes before : List Byte} {turns : Nat}
  {r : Answered (Option (List Byte))}

theorem Gives.concat {b : Byte} (h : Gives c running bytes d stays)
    (next : (d.readByte stays).answer = some b) :
    Gives c running (bytes ++ [b]) (d.readByte stays).console (d.readByte stays).running := by
  induction h with
  | nil => exact .cons next (.nil _ _)
  | cons first _ ih => exact .cons first (ih next)

/-- The loop over bytes takes a line. -/
theorem takesLine_lineFrom (h : newline ∉ before) (given : Gives c running before.reverse d stays)
    (line : d.lineFrom before stays turns = some r) : TakesLine c running r.answer r.console r.running := by
  -- the bytes of the line so far were given by the console that the line was asked of
  induction turns generalizing before d stays with
  | zero => cases line
  | succ turns ih =>
      have hline : newline ∉ before.reverse := by simpa using h
      unfold lineFrom at line
      dsimp only at line
      split at line
      case h_1 b hb =>
        have hgiven := given.concat hb
        split at line
        case isTrue hnewline =>
          cases line
          rw [hnewline] at hgiven
          exact .ended hline hgiven
        case isFalse hnewline =>
          rw [← List.reverse_cons] at hgiven
          exact ih (List.not_mem_cons_of_ne_of_not_mem (Ne.symm hnewline) h) hgiven line
      case h_2 ended =>
        cases line
        rw [← List.isEmpty_reverse]
        exact .last hline given ended

/-- The line that is asked for ends. Only a custom console may leave one waiting. -/
def EndsLine : Console → Bool → Prop
  | .custom behaviour asked, running => ∃ turns, behaviour.endsLine asked running turns = true
  | _, _ => True

/-- The loop of a custom console comes to an end exactly if the line does. -/
theorem isSome_lineFrom_custom (behaviour : Behaviour) (asked : List Asked) (before : List Byte)
    (running : Bool) (turns : Nat) :
    ((custom behaviour asked).lineFrom before running turns).isSome =
      behaviour.endsLine asked running turns := by
  induction turns generalizing before asked running with
  | zero => rfl
  | succ turns ih =>
      unfold lineFrom Answers.endsLine
      simp only [readByte]
      cases behaviour.byte (⟨.byte, running⟩ :: asked) with
      | none => rfl
      | some b =>
          by_cases hb : b = newline
          · simp [hb]
          · simp only [hb, if_false, ih, beq_eq_false_iff_ne.mpr hb, Bool.false_or]

/-! ## Consoles that hold some input -/

/-- A line is what stands before the first newline, or all of the input if there is none. -/
inductive FirstLine : (input line rest : List Byte) → Prop
  | ended {line : List Byte} (h : newline ∉ line) (rest : List Byte) :
      FirstLine (line ++ newline :: rest) line rest
  | last {line : List Byte} (h : newline ∉ line) : FirstLine line line []

theorem exists_firstLine (input : List Byte) : ∃ line rest, FirstLine input line rest := by
  induction input with
  | nil => exact ⟨[], [], .last List.not_mem_nil⟩
  | cons b input ih =>
      obtain ⟨line, rest, h⟩ := ih
      by_cases hb : b = newline
      · rw [hb]
        exact ⟨[], input, .ended List.not_mem_nil input⟩
      · have hline {l : List Byte} (hl : newline ∉ l) : newline ∉ b :: l :=
          List.not_mem_cons_of_ne_of_not_mem (Ne.symm hb) hl
        cases h with
        | ended hl rest => exact ⟨_, _, .ended (hline hl) rest⟩
        | last hl => exact ⟨_, _, .last (hline hl)⟩

/-- A line is found at the first newline. -/
theorem FirstLine.eq {input line rest : List Byte} (h : FirstLine input line rest) :
    line = input.takeWhile (· != newline) ∧ rest = (input.dropWhile (· != newline)).drop 1 := by
  have hall {l : List Byte} (hl : newline ∉ l) : ∀ b ∈ l, (b != newline) = true := by
    intro b hb
    exact bne_iff_ne.mpr fun h => hl (h ▸ hb)
  cases h with
  | ended hl rest =>
      rw [List.takeWhile_append_of_pos (hall hl), List.dropWhile_append_of_pos (hall hl)]
      simp
  | last hl =>
      rw [List.takeWhile_eq_self_iff.mpr (hall hl), List.dropWhile_eq_nil_iff.mpr (hall hl)]
      exact ⟨rfl, rfl⟩

/-- Consoles give the bytes of the input that goes with them, one after the other, and then none. -/
def Holding (R : Console → List Byte → Prop) : Prop :=
  ∀ {c input}, R c input → ∀ running,
    (c.readByte running).answer = input.head? ∧ R (c.readByte running).console input.tail

variable {R : Console → List Byte → Prop} {input : List Byte}

theorem Gives.append (holding : Holding R) (h : Gives c running bytes d stays) (hc : R c input) :
    ∃ rest, input = bytes ++ rest ∧ R d rest := by
  induction h generalizing input with
  | nil => exact ⟨input, rfl, hc⟩
  | @cons c d running stays b bytes first _ ih =>
      obtain ⟨hanswer, hnext⟩ := holding hc running
      obtain ⟨rest, hrest, hd⟩ := ih hnext
      rw [first, eq_comm, List.head?_eq_some_iff] at hanswer
      obtain ⟨after, rfl⟩ := hanswer
      exact ⟨rest, congrArg (b :: ·) hrest, hd⟩

/-- **The line that is taken is the first one**, and the console holds what comes after it. There is a line
as long as there is input. -/
theorem TakesLine.firstLine {line : Option (List Byte)} (holding : Holding R)
    (h : TakesLine c running line d stays) (hc : R c input) :
    ∃ rest, FirstLine input (line.getD []) rest ∧ (line = none ↔ input = []) ∧ R d rest := by
  cases h with
  | @ended line d stays hl given =>
      obtain ⟨rest, rfl, hd⟩ := given.append holding hc
      rw [List.append_assoc]
      exact ⟨rest, .ended hl rest, by simp, hd⟩
  | @last line d stays hl given ended =>
      obtain ⟨rest, rfl, hd⟩ := given.append holding hc
      obtain ⟨hanswer, hnext⟩ := holding hd stays
      rw [ended, eq_comm, List.head?_eq_none_iff] at hanswer
      subst hanswer
      rw [List.append_nil]
      have hgetD : (if line.isEmpty then none else some line).getD [] = line := by
        cases line <;> rfl
      refine ⟨[], ?_, by cases line <;> simp, hnext⟩
      rw [hgetD]
      exact .last hl

/-- One turn for each byte of the input and one for the end are enough for a line. -/
theorem exists_lineFrom (holding : Holding R) (hc : R c input) (enough : input.length < turns) :
    ∃ r, c.lineFrom before running turns = some r := by
  induction turns generalizing c running input before with
  | zero => cases enough
  | succ turns ih =>
      obtain ⟨hanswer, hnext⟩ := holding hc running
      unfold lineFrom
      dsimp only
      cases input with
      | nil =>
          rw [hanswer]
          exact ⟨_, rfl⟩
      | cons b input =>
          rw [hanswer]
          dsimp only [List.head?_cons]
          split
          · exact ⟨_, rfl⟩
          · exact ih hnext (Nat.lt_of_succ_lt_succ enough)

/-- Whatever was received or printed, a console that is not custom holds its input. -/
def Holds : Console → List Byte → Prop
  | empty, input => input = []
  | buffered b, input => b.input = input
  | channel ends, input => ends.queue = input
  | custom _ _, _ => False

theorem holding_holds : Holding Holds := by
  intro c input hc running
  cases c with
  | empty =>
      obtain rfl : input = [] := hc
      exact ⟨rfl, rfl⟩
  | buffered b =>
      obtain rfl : b.input = input := hc
      unfold readByte Buffers.readByte
      cases hinput : b.input <;> simp [Holds, hinput]
  | channel ends =>
      obtain rfl : ends.queue = input := hc
      unfold readByte ChannelEnds.receive
      cases hqueue : ends.queue <;> simp [Holds, hqueue]
  | custom => cases hc

theorem exists_lineFrom_turns (ends : c.EndsLine running) :
    ∃ r, c.lineFrom [] running (c.turns running) = some r := by
  cases c with
  | empty => exact exists_lineFrom holding_holds (show Holds empty [] from rfl) Nat.zero_lt_one
  | buffered b =>
      have hc : Holds (buffered b) b.input := rfl
      exact exists_lineFrom holding_holds hc (Nat.lt_succ_self _)
  | channel e =>
      have hc : Holds (channel e) e.queue := rfl
      exact exists_lineFrom holding_holds hc (Nat.lt_succ_self _)
  | custom behaviour asked =>
      obtain ⟨turns, hends⟩ := ends
      rw [← Option.isSome_iff_exists, isSome_lineFrom_custom]
      exact behaviour.enough asked running turns hends

/-- **Reading a line takes one**, if it ends at all. -/
theorem takesLine_readLine (ends : c.EndsLine running) :
    TakesLine c running (c.readLine running).answer (c.readLine running).console
      (c.readLine running).running := by
  obtain ⟨r, hr⟩ := exists_lineFrom_turns ends
  have hread : c.readLine running = r := by
    unfold readLine
    rw [hr]
    rfl
  rw [hread]
  exact takesLine_lineFrom List.not_mem_nil (.nil c running) hr

end Console

end MipsLab
