import MipsLab.Proofs.Cuts
import MipsLab.Proofs.GuardedMachine
import MipsLab.Proofs.NumberRanges
import MipsLab.Proofs.Sessions

set_option autoImplicit false

/-!
# Every operation has a result

Some operations have results in a range only: a number is negated with 64 bits, an argument is looked up by the
position of its parameter, texts and lists are cut at an index, values are shifted, registers have numbers and
memory is accessed in bytes, halves and words. The ranges are checked elsewhere: in the lexer, where a macro is
defined, and in the decoder. Whatever is assembled and run, no operation is asked for anything outside of its
range (`Assembly.operations_defined`).
-/

namespace MipsLab

/-- The numbers of what the unit asks to be lowered, or to be placed as data, can be negated with 64 bits. -/
def SourceUnit.NumbersInRange (u : SourceUnit) : Prop :=
  ∀ l ∈ u.expandedLines, ∀ s nucleus, Statement.ofTokens l.tokens = .ok s → s.nucleus = some nucleus →
    ∀ o ∈ nucleus.operands, ∀ n ∈ o.number?, IsLiteral n ∧ (-(BitVec.ofInt 64 n)).toInt = -n

/-- Each parameter in a macro of the pool has an argument in each invocation. -/
structure MacroPool.ArgumentsInRange (pool : MacroPool) : Prop where
  params : ∀ m ∈ pool.macros, ∀ p ∈ Macro.paramsUsed m.body, p ∈ m.params
  arguments : ∀ (call : Invocation) m, pool.find? call.name call.arguments.length = some m →
    call.arguments.length = m.arity ∧
      ∀ p ∈ Macro.paramsUsed m.body, m.params.idxOf p < call.arguments.length

/-- The text is cut between characters, and not past its end. -/
structure Lexer.CutsInRange (text : List Char) : Prop where
  /-- Each token or error is a part of the text. -/
  tokens : ∀ x ∈ lex text, Utf8.IsBoundary text x.2.start ∧ Utf8.IsBoundary text x.2.stop ∧
    x.2.start < x.2.stop
  /-- The mark in front of a name can be cut off. -/
  marks : ∀ x ∈ lex text, ∀ front c rest, text = front ++ c :: rest → Utf8.size front = x.2.start →
    c ∈ Lexer.frontMarks → Utf8.IsBoundary text (x.2.start + 1)
  /-- The characters of a token are there. -/
  extra : ∀ front c rest, text = front ++ c :: rest → (lexeme c rest).extra ≤ rest.length
  /-- The bytes of a string literal are counted on its line, and passed over in the text. -/
  literals : ∀ front rest, text = front ++ '"' :: rest →
    (stringLiteral rest).extra ≤ (Lines.first rest).length ∧
      Utf8.IsBoundary rest (Utf8.size ((Lines.first rest).take (stringLiteral rest).extra))

/-- A list of tokens is not cut past its end: behind its labels, behind the first token after them, and behind
an operand and a comma that follows it. -/
structure Statement.CutsInRange (tokens : List LocatedToken) : Prop where
  labels : (splitLabels tokens).1.length ≤ tokens.length ∧
    (splitLabels tokens).2 = tokens.drop (splitLabels tokens).1.length
  head : ∀ first others, (splitLabels tokens).2 = first :: others →
    (splitLabels tokens).1.length + 1 ≤ tokens.length ∧
      others = tokens.drop ((splitLabels tokens).1.length + 1)
  operands : ∀ front t rest o extra, tokens = front ++ t :: rest → operand? t.token rest = some (o, extra) →
    extra ≤ rest.length ∧ ∀ comma more, rest.drop extra = comma :: more → extra + 1 ≤ rest.length

theorem SourceUnit.numbersInRange {u : SourceUnit} (current : u.Current) : u.NumbersInRange := by
  intro l hl s nucleus hs hnucleus o ho n hn
  have hliteral := isLiteral_of_operand current hl hs hnucleus o ho n hn
  exact ⟨hliteral, hliteral.toInt_neg⟩

theorem MacroPool.argumentsInRange (lines : List TokenLine) :
    (MacroPool.empty.expandUnit lines).pool.ArgumentsInRange := by
  have hchecked := checked_of_mem_expandFrom .empty none lines nofun
  refine ⟨hchecked, fun call m hm => ?_⟩
  obtain ⟨hmem, harity⟩ := mem_macros_of_find? hm
  refine ⟨harity.symm, fun p hp => ?_⟩
  calc m.params.idxOf p < m.params.length := List.idxOf_lt_length_of_mem (hchecked m hmem p hp)
    _ = call.arguments.length := harity

theorem Lexer.cutsInRange (text : List Char) : CutsInRange text where
  tokens x hx := by
    obtain ⟨hstart, hstop, hnonempty, -⟩ := isBoundary_of_mem_lex hx
    exact ⟨hstart, hstop, hnonempty⟩
  marks x hx := (isBoundary_of_mem_lex hx).2.2.2
  extra _ c rest _ := extra_le c rest
  literals _ rest _ :=
    ⟨extra_stringLiteral_le rest, _, (List.take_prefix _ _).trans (isPrefix_first rest), rfl⟩

theorem Statement.cutsInRange (tokens : List LocatedToken) : CutsInRange tokens where
  labels := length_splitLabels_le tokens
  head _ _ hothers := of_drop_eq_cons ((length_splitLabels_le tokens).2.symm.trans hothers)
  operands _ _ _ _ _ _ h := ⟨extra_le h, fun _ _ hcomma => (of_drop_eq_cons hcomma).1⟩

namespace Assembly

open SourceUnit

/-- **No operation is asked for anything that it has no result for.** Whatever the texts of the units are, and
with any options: the numbers that are lowered are values of 32-bit words; after any lines of a unit, each
parameter in the body of a macro has an argument; and texts and lists of tokens are cut within their bounds, and
between characters. And from any state of the machine, among them those after a program was loaded, and for any
program that it finds in memory, a step and a run need no shifts but those by less than 32, no registers but
those with a number below 32, and no accesses to memory but those to one, two or four bytes. -/
theorem operations_defined :
    (∀ sources, ∀ u ∈ fresh sources, u.NumbersInRange) ∧
      (∀ above, (MacroPool.empty.expandUnit above).pool.ArgumentsInRange) ∧
      (∀ text, Lexer.CutsInRange text) ∧
      (∀ tokens, Statement.CutsInRange tokens) ∧
      (∀ m : Machine, m.advance? = some m.advance) ∧
      ∀ {σ : Type} (tripwire : Machine.Tripwire σ) (s : σ) (m : Machine) (fuel : Nat),
        Machine.runLoop? tripwire s m fuel = some (Machine.runLoop tripwire s m fuel) := by
  refine ⟨fun sources u hu => ?_, MacroPool.argumentsInRange, Lexer.cutsInRange, Statement.cutsInRange,
    Machine.advance?_eq, Machine.runLoop?_eq⟩
  obtain ⟨s, -, rfl⟩ := List.mem_map.mp hu
  exact numbersInRange (holds_ofText s.1 s.2).current

/-- A program of one shift by 31 bits. -/
def farthestShift : AssembledProgram where
  code := [⟨⟨⟨"a.s", 1, "sra $t0, $t0, 31"⟩, []⟩, 0x00400000, .shift .sra ⟨8⟩ ⟨8⟩ 31⟩]
  data := []
  globals := .empty "(global)"
  locals := [.empty "a.s"]
  warnings := []
  layout := {}

/-- The least number there is, as the value of a constant and as an argument for the second parameter of a
macro; a string literal at the end of a text; and a shift by 31 bits. -/
theorem operations_defined_leastNumber :
    let text := ".eqv least -2147483648\n.macro take %r %n\nsub %r %r %n\n.end_macro\ntake $t0 least"
    let lines := (SourceUnit.readLines [] (SourceLine.ofText "a.s" text)).1
    let pool := (MacroPool.empty.expandUnit lines).pool
    let invocation := lines[4]?.bind fun l => Invocation.ofTokens? l.tokens
    let loaded := (Machine.initial {}).load farthestShift
    let m := { loaded with registers := loaded.registers.set ⟨8⟩ 0x80000000 }
    (∃ u ∈ fresh [("a.s", text)], ∃ l ∈ u.expandedLines, ∃ s, Statement.ofTokens l.tokens = .ok s ∧
        s.nucleus = some (.instr "sub" [.reg ⟨8⟩, .reg ⟨8⟩, .imm (-0x80000000)]) ∧
        (-(BitVec.ofInt 64 (-0x80000000))).toInt = 0x80000000) ∧
      (∃ call found, invocation = some call ∧ pool.find? call.name call.arguments.length = some found ∧
        "n" ∈ Macro.paramsUsed found.body ∧ found.params.idxOf "n" < call.arguments.length) ∧
      (Lexer.stringLiteral ['a', '"']).extra ≤ (Lines.first ['a', '"']).length ∧
      m.advance? = some m.advance ∧ m.advance.2.registers.get ⟨8⟩ = 0xFFFFFFFF := by
  intro text lines pool invocation loaded m
  obtain ⟨numbers, arguments, texts, -, step, -⟩ := operations_defined
  refine ⟨?_, ?_, ?_, ?_⟩
  · have hlowered : ∃ l ∈ (SourceUnit.ofText "a.s" text).expandedLines,
        (Statement.ofTokens l.tokens).toOption.bind (·.nucleus) =
          some (.instr "sub" [.reg ⟨8⟩, .reg ⟨8⟩, .imm (-0x80000000)]) := by decide +kernel
    obtain ⟨l, hl, hnucleus⟩ := hlowered
    obtain ⟨s, hs, hnucleus⟩ := Option.bind_eq_some_iff.mp hnucleus
    have hs := eq_ok_of_toOption hs
    obtain ⟨-, hneg⟩ := numbers [("a.s", text)] _ List.mem_cons_self l hl s _ hs hnucleus
      (.imm (-0x80000000)) (by decide) (-0x80000000) rfl
    exact ⟨_, List.mem_cons_self, l, hl, s, hs, hnucleus, hneg⟩
  · have hfound : ((invocation.bind fun call => pool.find? call.name call.arguments.length).map
        fun found => Macro.paramsUsed found.body) = some ["r", "r", "n"] := by decide +kernel
    obtain ⟨found, hfound, hused⟩ := Option.map_eq_some_iff.mp hfound
    obtain ⟨call, hcall, hfound⟩ := Option.bind_eq_some_iff.mp hfound
    have hn : "n" ∈ Macro.paramsUsed found.body := hused ▸ by decide
    exact ⟨call, found, hcall, hfound, hn, ((arguments lines).arguments call found hfound).2 "n" hn⟩
  · exact ((texts ['"', 'a', '"']).literals [] ['a', '"'] rfl).1
  · exact ⟨step m, by decide +kernel⟩

end Assembly

end MipsLab
