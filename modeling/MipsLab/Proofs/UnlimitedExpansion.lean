import MipsLab.Proofs.MacroRun
import MipsLab.Proofs.TracedExpansion
import Mathlib.Data.List.Chain

set_option autoImplicit false

/-!
# Expansion without a limit

What some lines stand for, if invocations in the bodies of macros are followed as deeply as they go, is a
relation (`MacroPool.Expands`): lines whose invocations never come to an end stand for nothing. Expansion with
a limit on the depth of nesting fails exactly if a chain of nested invocations is longer than the limit, and
otherwise gives what the line stands for without a limit (`MacroPool.expandWithin_outcome`), in which no
invocation is left.
-/

namespace MipsLab

/-! ## Invocations -/

/-- The lines of the body in an expansion, before the invocations among them are expanded. -/
def Macro.substituted (m : Macro) (line : TokenLine) (call : Invocation) (serial : Nat) :
    List TokenLine := m.body.map (m.instantiateLine line.source call serial)

/-- The labels of an invocation alone on a line, if it has any. -/
def Invocation.labelLines (call : Invocation) (source : SourceLine) : List TokenLine :=
  if call.labels.isEmpty then [] else [⟨source, call.labels⟩]

theorem Invocation.eq_of_mem_labelLines {call : Invocation} {source : SourceLine} {l : TokenLine}
    (h : l ∈ call.labelLines source) : l = ⟨source, call.labels⟩ := by
  unfold labelLines at h
  split at h
  · cases h
  · exact List.mem_singleton.mp h

/-- Labels alone are labels and nothing else. -/
theorem splitLabels_labels (tokens : List LocatedToken) :
    splitLabels (splitLabels tokens).1 = ((splitLabels tokens).1, []) := by
  fun_induction splitLabels tokens with
  | case1 text span colonSpan rest labels others hrest ih =>
      rw [hrest] at ih
      rw [splitLabels, ih]
  | case2 => rfl

/-- The labels of an invocation invoke nothing. -/
theorem Invocation.ofTokens?_labels {tokens : List LocatedToken} {call : Invocation}
    (h : ofTokens? tokens = some call) : ofTokens? call.labels = none := by
  have hlabels : call.labels = (splitLabels tokens).1 := by
    unfold ofTokens? at h
    split at h
    case h_1 hsplit =>
      cases h
      rw [hsplit]
    case h_2 => cases h
  rw [hlabels, ofTokens?, splitLabels_labels]

namespace MacroPool

/-- The macro that a line invokes, with the invocation. -/
def invoked? (pool : MacroPool) (line : TokenLine) : Option (Macro × Invocation) :=
  (Invocation.ofTokens? line.tokens).bind fun call =>
    (pool.find? call.name call.arguments.length).map fun m => (m, call)

theorem ofTokens?_of_invoked? {pool : MacroPool} {line : TokenLine} {m : Macro} {call : Invocation}
    (h : pool.invoked? line = some (m, call)) : Invocation.ofTokens? line.tokens = some call := by
  obtain ⟨c, hcall, hm⟩ := Option.bind_eq_some_iff.mp h
  obtain ⟨_, -, heq⟩ := Option.map_eq_some_iff.mp hm
  cases heq
  exact hcall

/-! ## The unlimited expansion -/

/-- Some lines stand for others: invocations are expanded, as deeply as they are nested, and all other lines
stay. Serial numbers go from the first number to the last one. -/
inductive Expands (pool : MacroPool) : Nat → List TokenLine → List TokenLine → Nat → Prop
  | nil (n : Nat) : Expands pool n [] [] n
  | stands {n k : Nat} {line : TokenLine} {below later : List TokenLine}
      (plain : pool.invoked? line = none) (rest : Expands pool n below later k) :
      Expands pool n (line :: below) (line :: later) k
  | invokes {n j k : Nat} {line : TokenLine} {below body later : List TokenLine} {m : Macro}
      {call : Invocation} (invoked : pool.invoked? line = some (m, call))
      (inside : Expands pool (n + 1) (m.substituted line call n) body j)
      (rest : Expands pool j below later k) :
      Expands pool n (line :: below) (call.labelLines line.source ++ body ++ later) k

namespace Expands

variable {pool : MacroPool} {n j k : Nat} {line : TokenLine} {lines below out later : List TokenLine}

theorem cons (first : pool.Expands n [line] out j) (rest : pool.Expands j below later k) :
    pool.Expands n (line :: below) (out ++ later) k := by
  cases first with
  | stands plain done =>
      cases done
      exact .stands plain rest
  | invokes invoked inside done =>
      cases done
      rw [List.append_nil]
      exact .invokes invoked inside rest

theorem uncons (h : pool.Expands n (line :: below) lines k) :
    ∃ out j later, pool.Expands n [line] out j ∧ pool.Expands j below later k ∧ lines = out ++ later := by
  cases h with
  | stands plain rest => exact ⟨[line], n, _, .stands plain (.nil n), rest, rfl⟩
  | invokes invoked inside rest =>
      exact ⟨_, _, _, .invokes invoked inside (.nil _), rest, by rw [List.append_nil]⟩

/-- Lines stand for at most one list of lines. -/
theorem unique (h : pool.Expands n lines out k) :
    ∀ {out' : List TokenLine} {k' : Nat}, pool.Expands n lines out' k' → out' = out ∧ k' = k := by
  induction h with
  | nil =>
      intro out' k' h'
      cases h'
      exact ⟨rfl, rfl⟩
  | stands plain _ ih =>
      intro out' k' h'
      cases h' with
      | stands _ rest' =>
          obtain ⟨rfl, rfl⟩ := ih rest'
          exact ⟨rfl, rfl⟩
      | invokes invoked' => simp [plain] at invoked'
  | invokes invoked _ _ ihInside ihRest =>
      intro out' k' h'
      cases h' with
      | stands plain' => simp [invoked] at plain'
      | invokes invoked' inside' rest' =>
          rw [invoked] at invoked'
          cases invoked'
          obtain ⟨rfl, rfl⟩ := ihInside inside'
          obtain ⟨rfl, rfl⟩ := ihRest rest'
          exact ⟨rfl, rfl⟩

/-- **No invocation is left.** -/
theorem settled (h : pool.Expands n lines out k) : ∀ l ∈ out, pool.invoked? l = none := by
  induction h with
  | nil => simp
  | stands plain _ ih => exact List.forall_mem_cons.mpr ⟨plain, ih⟩
  | @invokes _ _ _ line _ body later m call invoked _ _ ihInside ihRest =>
      have hlabels : ∀ l ∈ call.labelLines line.source, pool.invoked? l = none := by
        intro l hl
        rw [Invocation.eq_of_mem_labelLines hl, invoked?,
          Invocation.ofTokens?_labels (ofTokens?_of_invoked? invoked)]
        rfl
      intro l hl
      simp only [List.mem_append] at hl
      rcases hl with (hl | hl) | hl
      · exact hlabels l hl
      · exact ihInside l hl
      · exact ihRest l hl

/-- All lines come from the source of the lines that they stand for. -/
theorem source {source : SourceLine} (h : pool.Expands n lines out k) :
    (∀ l ∈ lines, l.source = source) → ∀ l ∈ out, l.source = source := by
  induction h with
  | nil => simp
  | stands plain _ ih =>
      intro hlines
      obtain ⟨hline, hbelow⟩ := List.forall_mem_cons.mp hlines
      exact List.forall_mem_cons.mpr ⟨hline, ih hbelow⟩
  | @invokes n _ _ line _ body later m call _ _ _ ihInside ihRest =>
      intro hlines
      obtain ⟨hline, hbelow⟩ := List.forall_mem_cons.mp hlines
      have hbody : ∀ l ∈ m.substituted line call n, l.source = source := by
        intro l hl
        obtain ⟨b, -, rfl⟩ := List.mem_map.mp hl
        exact hline
      intro l hl
      simp only [List.mem_append] at hl
      rcases hl with (hl | hl) | hl
      · rw [Invocation.eq_of_mem_labelLines hl]
        exact hline
      · exact ihInside hbody l hl
      · exact ihRest hbelow l hl

end Expands

/-! ## Nested invocations -/

/-- The second line stands in the body that the first one invokes, and it is its turn: the lines above it
have been expanded. Each line comes with the next serial number. -/
inductive Inner (pool : MacroPool) : TokenLine × Nat → TokenLine × Nat → Prop
  | mk {n k : Nat} {line next : TokenLine} {above below out : List TokenLine} {m : Macro}
      {call : Invocation} (invoked : pool.invoked? line = some (m, call))
      (split : m.substituted line call n = above ++ next :: below)
      (before : pool.Expands (n + 1) above out k) : Inner pool (line, n) (next, k)

/-- Following invocations from a line on reaches a chain of more than `limit` nested invocations. -/
def NestsBeyond (pool : MacroPool) (limit : Nat) (line : TokenLine) (n : Nat) : Prop :=
  ∃ chain : List (TokenLine × Nat), limit < chain.length ∧ chain.head? = some (line, n) ∧
    chain.IsChain pool.Inner ∧ ∀ c ∈ chain, (pool.invoked? c.1).isSome

theorem nestsBeyond_zero_iff {pool : MacroPool} {line : TokenLine} {n : Nat} :
    pool.NestsBeyond 0 line n ↔ (pool.invoked? line).isSome := by
  constructor
  · rintro ⟨chain, -, hhead, -, hinvoked⟩
    exact hinvoked _ (List.mem_of_mem_head? hhead)
  · intro h
    exact ⟨[(line, n)], by simp, rfl, .singleton _, by simpa using h⟩

theorem nestsBeyond_succ_iff {pool : MacroPool} {limit : Nat} {line : TokenLine} {n : Nat} :
    pool.NestsBeyond (limit + 1) line n ↔
      ∃ next k, pool.Inner (line, n) (next, k) ∧ pool.NestsBeyond limit next k := by
  constructor
  · rintro ⟨chain, hlength, hhead, hchain, hinvoked⟩
    match chain, hlength, hhead with
    | c :: (next, k) :: rest, hlength, hhead =>
        obtain rfl := Option.some.inj hhead
        obtain ⟨hinner, hrest⟩ := List.isChain_cons_cons.mp hchain
        obtain ⟨-, htail⟩ := List.forall_mem_cons.mp hinvoked
        exact ⟨next, k, hinner, _, Nat.lt_of_succ_lt_succ hlength, rfl, hrest, htail⟩
  · rintro ⟨next, k, hinner, chain, hlength, hhead, hchain, hinvoked⟩
    match chain, hhead with
    | c :: rest, hhead =>
        obtain rfl := Option.some.inj hhead
        have hline : (pool.invoked? line).isSome := by
          cases hinner with
          | mk invoked => simp [invoked]
        exact ⟨(line, n) :: (next, k) :: rest, Nat.succ_lt_succ hlength, rfl,
          List.isChain_cons_cons.mpr ⟨hinner, hchain⟩, List.forall_mem_cons.mpr ⟨hline, hinvoked⟩⟩

/-! ## Expansion with a limit -/

section Run

variable (pool : MacroPool)

theorem run_expandWithin_zero (line : TokenLine) (n : Nat) :
    (pool.expandWithin 0 line).run.run n =
      match pool.invoked? line with
      | none => (.ok none, n)
      | some (m, _) => (.error (.nestedTooDeeply m.name depthLimit), n) := by
  unfold expandWithin invoked?
  cases Invocation.ofTokens? line.tokens with
  | none => rfl
  | some call =>
      dsimp only [Option.bind_some]
      cases pool.find? call.name call.arguments.length <;> rfl

/-- An expansion takes the next serial number, and then its body is expanded one level deeper. -/
theorem run_expandWithin_succ (d : Nat) (line : TokenLine) (n : Nat) :
    (pool.expandWithin (d + 1) line).run.run n =
      match pool.invoked? line with
      | none => (.ok none, n)
      | some (m, call) =>
        match (expandAll (pool.expandWithin d) (m.substituted line call n)).run.run (n + 1) with
        | (.ok body, k) => (.ok (some (call.labelLines line.source ++ body)), k)
        | (.error e, k) => (.error e, k) := by
  rw [expandWithin, invoked?]
  cases Invocation.ofTokens? line.tokens with
  | none => rfl
  | some call =>
      dsimp only [Option.bind_some]
      cases pool.find? call.name call.arguments.length with
      | none => rfl
      | some m =>
          dsimp only [Option.map_some]
          have hserial : (getModify (· + 1) : Expanding Nat).run.run n = (.ok n, n + 1) := rfl
          rw [ExceptT.run_bind, StateT.run_bind, hserial]
          show (expandAll (pool.expandWithin d) (m.substituted line call n) >>= _ : Expanding _).run.run
            (n + 1) = _
          rw [ExceptT.run_bind, StateT.run_bind]
          rcases (expandAll (pool.expandWithin d) (m.substituted line call n)).run.run (n + 1) with
            ⟨e | body, k⟩ <;> rfl

theorem run_expandAll_cons (expandLine : TokenLine → Expanding (Option (List TokenLine)))
    (line : TokenLine) (rest : List TokenLine) (n : Nat) :
    (expandAll expandLine (line :: rest)).run.run n =
      match (expandLine line).run.run n with
      | (.error e, k) => (.error e, k)
      | (.ok expanded, j) =>
        match (expandAll expandLine rest).run.run j with
        | (.error e, k) => (.error e, k)
        | (.ok later, k) => (.ok (expanded.getD [line] ++ later), k) := by
  rw [expandAll, ExceptT.run_bind, StateT.run_bind]
  rcases (expandLine line).run.run n with ⟨e | expanded, j⟩
  · rfl
  · dsimp only
    show (expandAll expandLine rest >>= _ : Expanding _).run.run j = _
    rw [ExceptT.run_bind, StateT.run_bind]
    rcases (expandAll expandLine rest).run.run j with ⟨e | later, k⟩ <;> rfl

end Run

/-- How the expansion of a line ends that may be at most `limit` levels above the innermost invocation. -/
inductive Outcome (pool : MacroPool) (limit : Nat) (line : TokenLine) (n : Nat) :
    Except MacroError (Option (List TokenLine)) × Nat → Prop
  | stays (plain : pool.invoked? line = none) : Outcome pool limit line n (.ok none, n)
  | tooDeep (name : String) (k : Nat) (deep : pool.NestsBeyond limit line n) :
      Outcome pool limit line n (.error (.nestedTooDeeply name depthLimit), k)
  | expands {m : Macro} {call : Invocation} {body : List TokenLine} {k : Nat}
      (invoked : pool.invoked? line = some (m, call)) (shallow : ¬ pool.NestsBeyond limit line n)
      (inside : pool.Expands (n + 1) (m.substituted line call n) body k) :
      Outcome pool limit line n (.ok (some (call.labelLines line.source ++ body)), k)

/-- A line whose expansion does not fail stands for what is left of it, and is not nested too deeply. -/
theorem Outcome.of_ok {pool : MacroPool} {limit n k : Nat} {line : TokenLine}
    {expanded : Option (List TokenLine)} (h : pool.Outcome limit line n (.ok expanded, k)) :
    pool.Expands n [line] (expanded.getD [line]) k ∧ ¬ pool.NestsBeyond limit line n := by
  cases h with
  | stays plain =>
      refine ⟨.stands plain (.nil n), fun ⟨chain, _, hhead, _, hinvoked⟩ => ?_⟩
      have hline := hinvoked _ (List.mem_of_mem_head? hhead)
      simp [plain] at hline
  | expands invoked shallow inside =>
      refine ⟨?_, shallow⟩
      rw [Option.getD_some, ← List.append_nil (_ ++ _)]
      exact .invokes invoked inside (.nil _)

/-- How the expansion of some lines ends. It fails if one of them is nested too deeply when it is its turn. -/
inductive OutcomeAll (pool : MacroPool) (limit : Nat) (lines : List TokenLine) (n : Nat) :
    Except MacroError (List TokenLine) × Nat → Prop
  | tooDeep {above below out : List TokenLine} {next : TokenLine} {j : Nat} (name : String) (k : Nat)
      (split : lines = above ++ next :: below) (before : pool.Expands n above out j)
      (deep : pool.NestsBeyond limit next j) :
      OutcomeAll pool limit lines n (.error (.nestedTooDeeply name depthLimit), k)
  | expands {out : List TokenLine} {k : Nat} (expanded : pool.Expands n lines out k)
      (shallow : ∀ {above next below out j}, lines = above ++ next :: below →
        pool.Expands n above out j → ¬ pool.NestsBeyond limit next j) :
      OutcomeAll pool limit lines n (.ok out, k)

section Outcome

variable {pool : MacroPool}

/-- Lines end as they do one after the other. -/
theorem expandAll_outcome {limit : Nat}
    (h : ∀ line n, pool.Outcome limit line n ((pool.expandWithin limit line).run.run n))
    (lines : List TokenLine) (n : Nat) :
    pool.OutcomeAll limit lines n ((expandAll (pool.expandWithin limit) lines).run.run n) := by
  -- the first line is nested too deep, or a later one behind lines that expand, or none is
  induction lines generalizing n with
  | nil => exact .expands (.nil n) fun hsplit => by simp at hsplit
  | cons line rest ih =>
      rw [run_expandAll_cons]
      rcases hrun : (pool.expandWithin limit line).run.run n with ⟨e | expanded, j⟩
      · have hline := h line n
        rw [hrun] at hline
        cases hline with
        | tooDeep name k deep => exact .tooDeep name _ (List.nil_append _).symm (.nil n) deep
      · obtain ⟨hfirst, hshallow⟩ := (hrun ▸ h line n).of_ok
        dsimp only
        have hrest := ih j
        rcases hrun' : (expandAll (pool.expandWithin limit) rest).run.run j with ⟨e | later, k⟩
        · rw [hrun'] at hrest
          cases hrest with
          | @tooDeep above below _ next _ name _ split before deep =>
              have hsplit : line :: rest = (line :: above) ++ next :: below := by
                rw [split, List.cons_append]
              exact .tooDeep name _ hsplit (hfirst.cons before) deep
        · rw [hrun'] at hrest
          cases hrest with
          | expands expanded shallow =>
              refine .expands (hfirst.cons expanded) ?_
              intro above next below out i hsplit habove
              cases above with
              | nil =>
                  obtain ⟨rfl, -⟩ := List.cons.inj hsplit
                  cases habove
                  exact hshallow
              | cons first above =>
                  obtain ⟨rfl, hbelow⟩ := List.cons.inj hsplit
                  obtain ⟨_, _, _, hfirst', hlater, -⟩ := habove.uncons
                  obtain ⟨-, rfl⟩ := hfirst.unique hfirst'
                  exact shallow hbelow hlater

/-- **How an expansion ends.** It fails exactly if a chain of nested invocations is longer than the limit. -/
theorem expandWithin_outcome (pool : MacroPool) (limit : Nat) (line : TokenLine) (n : Nat) :
    pool.Outcome limit line n ((pool.expandWithin limit line).run.run n) := by
  induction limit generalizing line n with
  | zero =>
      rw [run_expandWithin_zero]
      cases hinvoked : pool.invoked? line with
      | none => exact .stays hinvoked
      | some invoked => exact .tooDeep _ _ (nestsBeyond_zero_iff.mpr (by simp [hinvoked]))
  | succ d ih =>
      rw [run_expandWithin_succ]
      cases hinvoked : pool.invoked? line with
      | none => exact .stays hinvoked
      | some invoked =>
          obtain ⟨m, call⟩ := invoked
          dsimp only
          have hbody := expandAll_outcome ih (m.substituted line call n) (n + 1)
          generalize (expandAll (pool.expandWithin d) (m.substituted line call n)).run.run (n + 1) =
            result at hbody
          cases hbody with
          | tooDeep name k split before deep =>
              exact .tooDeep name k (nestsBeyond_succ_iff.mpr ⟨_, _, .mk hinvoked split before, deep⟩)
          | expands expanded shallow =>
              refine .expands hinvoked (fun hdeep => ?_) expanded
              obtain ⟨next, k, hinner, hdeep⟩ := nestsBeyond_succ_iff.mp hdeep
              cases hinner with
              | mk invoked split before =>
                  rw [hinvoked] at invoked
                  cases invoked
                  exact shallow split before hdeep

end Outcome

/-! ## Expansion of a line -/

theorem expand_outcome (pool : MacroPool) (line : TokenLine) :
    pool.Outcome depthLimit line pool.expansions
      ((pool.expand line).1, (pool.expand line).2.expansions) :=
  pool.expandWithin_outcome depthLimit line pool.expansions

/-- **Expansion always ends, and is complete.** It keeps the definitions and fails exactly if more than
`depthLimit` invocations are nested. Otherwise a line that invokes nothing stays, and an invocation leaves its
labels and then the lines that its body stands for. None of them invokes a macro, and all of them come from the
source of the invocation. -/
theorem expand_complete (pool : MacroPool) (line : TokenLine) :
    (pool.expand line).2.macros = pool.macros ∧
    ((∃ name, (pool.expand line).1 = .error (.nestedTooDeeply name depthLimit)) ↔
      pool.NestsBeyond depthLimit line pool.expansions) ∧
    ((pool.expand line).1 = .ok none ↔ pool.invoked? line = none) ∧
    ∀ m call, pool.invoked? line = some (m, call) → ¬ pool.NestsBeyond depthLimit line pool.expansions →
      ∃ body, (pool.expand line).1 = .ok (some (call.labelLines line.source ++ body)) ∧
        (∀ body' k,
          pool.Expands (pool.expansions + 1) (m.substituted line call pool.expansions) body' k ↔
            body' = body ∧ k = (pool.expand line).2.expansions) ∧
        ∀ l ∈ call.labelLines line.source ++ body, pool.invoked? l = none ∧ l.source = line.source := by
  have houtcome := pool.expand_outcome line
  generalize (pool.expand line).2.expansions = last at houtcome ⊢
  refine ⟨macros_expand rfl, ?_⟩
  generalize (pool.expand line).1 = result at houtcome ⊢
  cases houtcome with
  | stays plain =>
      have hshallow : ¬ pool.NestsBeyond depthLimit line pool.expansions :=
        (Outcome.of_ok (.stays plain)).2
      refine ⟨⟨fun ⟨_, h⟩ => (nomatch h), fun h => absurd h hshallow⟩, ⟨fun _ => plain, fun _ => rfl⟩, ?_⟩
      intro m call hinvoked
      simp [plain] at hinvoked
  | tooDeep name _ deep =>
      have hinvoked : pool.invoked? line ≠ none := by
        intro plain
        exact (Outcome.of_ok (.stays plain)).2 deep
      refine ⟨⟨fun _ => deep, fun _ => ⟨name, rfl⟩⟩, ⟨fun h => (nomatch h), fun h => absurd h hinvoked⟩, ?_⟩
      intro m call _ hshallow
      exact absurd deep hshallow
  | @expands m call body _ invoked shallow inside =>
      refine ⟨⟨fun ⟨_, h⟩ => (nomatch h), fun h => absurd h shallow⟩, ?_, ?_⟩
      · simp [invoked]
      · intro m' call' hinvoked _
        rw [invoked] at hinvoked
        cases hinvoked
        have hstands : pool.Expands pool.expansions [line] (call.labelLines line.source ++ body) last := by
          rw [← List.append_nil (_ ++ body)]
          exact .invokes invoked inside (.nil _)
        have hsource : ∀ l ∈ call.labelLines line.source ++ body, l.source = line.source :=
          hstands.source (by simp)
        refine ⟨body, rfl, fun body' k => ⟨inside.unique, ?_⟩, ?_⟩
        · rintro ⟨rfl, rfl⟩
          exact inside
        · intro l hl
          exact ⟨hstands.settled l hl, hsource l hl⟩

/-- Two levels of invocations come to an end, and a macro that invokes itself does not. -/
theorem expand_complete_nested :
    let read (number : Nat) (text : String) : TokenLine :=
      ⟨⟨"a.s", number, text⟩, (TokenLine.tokensOf text.toList).toOption.getD []⟩
    let bump : Macro := ⟨"bump", ["r"], [read 2 "addi %r, %r, 1"]⟩
    let twice : Macro := ⟨"twice", ["r"], [read 5 "on: bump %r", read 6 "bump(%r)"]⟩
    let again : Macro := ⟨"again", [], [read 9 "again"]⟩
    let pool : MacroPool := ⟨[bump, twice, again], 0⟩
    let line := read 11 "here: twice $t0"
    let call : Invocation :=
      ⟨[⟨.name "here", ⟨0, 4⟩⟩, ⟨.colon, ⟨4, 5⟩⟩], "twice", [[⟨.reg ⟨8⟩, ⟨12, 15⟩⟩]], ⟨6, 15⟩⟩
    let body := [[.name "on_M0", .colon], [.name "addi", .reg ⟨8⟩, .comma, .reg ⟨8⟩, .comma, .int 1],
      [.name "addi", .reg ⟨8⟩, .comma, .reg ⟨8⟩, .comma, .int 1]].map fun tokens =>
        (⟨line.source, tokens.map (⟨·, call.span⟩)⟩ : TokenLine)
    pool.invoked? line = some (twice, call) ∧ ¬ pool.NestsBeyond depthLimit line 0 ∧
      (pool.expand line).1 = .ok (some (call.labelLines line.source ++ body)) ∧
      (∀ lines k, pool.Expands 1 (twice.substituted line call 0) lines k ↔ lines = body ∧ k = 3) ∧
      pool.NestsBeyond depthLimit (read 11 "again") 0 := by
  intro read bump twice again pool line call body
  obtain ⟨-, herror, -, hexpands⟩ := expand_complete pool line
  have hinvoked : pool.invoked? line = some (twice, call) := by decide +kernel
  have hrun : (pool.expand line).1 = .ok (some (call.labelLines line.source ++ body)) := by decide +kernel
  have hshallow : ¬ pool.NestsBeyond depthLimit line 0 := by
    intro deep
    obtain ⟨name, h⟩ := herror.mpr deep
    simp [hrun] at h
  obtain ⟨body', hbody', hunique, -⟩ := hexpands twice call hinvoked hshallow
  obtain rfl : body' = body := by
    rw [hrun] at hbody'
    exact (List.append_cancel_left (Option.some.inj (Except.ok.inj hbody'))).symm
  have hdeep := (expand_complete pool (read 11 "again")).2.1.mp ⟨"again", by decide +kernel⟩
  exact ⟨hinvoked, hshallow, hrun, hunique, hdeep⟩

end MacroPool

end MipsLab
