import MipsLab.Proofs.StatementTokens
import MipsLab.Proofs.UnlimitedExpansion

set_option autoImplicit false

/-!
# The two forms of an invocation

The arguments of an invocation follow its name, with or without parentheses around all of them. The form with
parentheses always passes the arguments that are written; without them, two things at the ends of the arguments
can be taken for something else: a colon at the start makes the name a label, and parentheses at both ends are
taken for those of the other form. Apart from this the forms expand to the same lines, up to places
(`MacroPool.expand_forms`), because an expansion does not depend on where tokens stand
(`MacroPool.expandWithin_alike`).
-/

namespace MipsLab

/-! ## Tokens without their places -/

/-- The tokens of a line without their places. -/
def TokenLine.spelling (line : TokenLine) : List Token := line.tokens.map (·.token)

/-- A token as if it stood at the start of its line. -/
def LocatedToken.unplaced (t : LocatedToken) : LocatedToken := ⟨t.token, ⟨0, 0⟩⟩

theorem map_unplaced_congr {ts us : List LocatedToken} (h : ts.map (·.token) = us.map (·.token)) :
    ts.map LocatedToken.unplaced = us.map LocatedToken.unplaced := by
  have hmap (ts : List LocatedToken) :
      ts.map LocatedToken.unplaced = (ts.map (·.token)).map (⟨·, ⟨0, 0⟩⟩) := by
    rw [List.map_map]
    rfl
  rw [hmap, hmap, h]

theorem splitLabels_unplaced (ts : List LocatedToken) :
    splitLabels (ts.map LocatedToken.unplaced) =
      ((splitLabels ts).1.map LocatedToken.unplaced, (splitLabels ts).2.map LocatedToken.unplaced) := by
  fun_induction splitLabels ts with
  | case1 text span colonSpan rest labels others hrest ih =>
      rw [hrest] at ih
      simp only [List.map_cons, LocatedToken.unplaced, splitLabels] at ih ⊢
      rw [ih]
  | case2 ts hother =>
      rw [splitLabels]
      · rfl
      · intro text span colonSpan rest h
        obtain ⟨⟨first, _⟩, others, rfl, hfirst, hothers⟩ := List.map_eq_cons_iff.mp h
        obtain ⟨⟨second, _⟩, rest, rfl, hsecond, -⟩ := List.map_eq_cons_iff.mp hothers
        cases hfirst
        cases hsecond
        exact hother _ _ _ _ rfl

namespace Invocation

theorem withoutParentheses_unplaced (ts : List LocatedToken) :
    withoutParentheses (ts.map LocatedToken.unplaced) = (withoutParentheses ts).map LocatedToken.unplaced := by
  match ts with
  | [] => rfl
  | [t] => rfl
  | first :: second :: rest =>
      have hlast : ((second :: rest).map LocatedToken.unplaced).getLast?.map (·.token) =
          (second :: rest).getLast?.map (·.token) := by
        rw [List.getLast?_map, Option.map_map]
        rfl
      simp only [List.map_cons, withoutParentheses] at hlast ⊢
      rw [hlast, apply_ite (List.map LocatedToken.unplaced), List.map_dropLast]
      rfl

theorem splitCommas_unplaced (ts : List LocatedToken) :
    splitCommas (ts.map LocatedToken.unplaced) = (splitCommas ts).map (List.map LocatedToken.unplaced) := by
  induction ts with
  | nil => rfl
  | cons t rest ih =>
      rw [List.map_cons, splitCommas, splitCommas, ih]
      by_cases hcomma : t.token = .comma
      · simp [LocatedToken.unplaced, hcomma]
      · simp only [LocatedToken.unplaced, hcomma, if_false]
        cases splitCommas rest <;> rfl

theorem argumentsOf_unplaced (ts : List LocatedToken) :
    argumentsOf (ts.map LocatedToken.unplaced) = (argumentsOf ts).map (List.map LocatedToken.unplaced) := by
  have hcomma : (ts.map LocatedToken.unplaced).any (fun t => t.token = .comma) =
      ts.any fun t => t.token = .comma := List.any_map
  have hsimple : (ts.map LocatedToken.unplaced).all (fun t => isSimple t.token) =
      ts.all fun t => isSimple t.token := List.all_map
  rw [argumentsOf, argumentsOf, List.isEmpty_map, hcomma, hsimple, splitCommas_unplaced]
  split_ifs
  · rfl
  · rfl
  · simp [Function.comp_def]
  · rfl

/-- An invocation without the places of its tokens. -/
structure Spelling where
  labels : List Token
  name : String
  arguments : List (List Token)
deriving DecidableEq, Repr

def spelling (call : Invocation) : Spelling :=
  ⟨call.labels.map (·.token), call.name, call.arguments.map (List.map (·.token))⟩

theorem spelling_ofTokens?_unplaced (ts : List LocatedToken) :
    (ofTokens? (ts.map LocatedToken.unplaced)).map spelling = (ofTokens? ts).map spelling := by
  have hplaces (us : List LocatedToken) : (us.map LocatedToken.unplaced).map (·.token) = us.map (·.token) := by
    rw [List.map_map]
    rfl
  rw [ofTokens?, ofTokens?, splitLabels_unplaced]
  rcases splitLabels ts with ⟨labels, _ | ⟨⟨token, span⟩, rest⟩⟩
  · rfl
  · cases token with
    | name text =>
        have hinner : (argumentsOf (withoutParentheses (rest.map LocatedToken.unplaced))).map (List.map (·.token)) =
            (argumentsOf (withoutParentheses rest)).map (List.map (·.token)) := by
          rw [withoutParentheses_unplaced, argumentsOf_unplaced, List.map_map]
          exact List.map_congr_left fun us _ => hplaces us
        simp only [List.map_cons, LocatedToken.unplaced, Option.map_some, spelling] at hplaces hinner ⊢
        rw [hplaces, hinner]
    | _ => rfl

/-- What a line invokes does not depend on where its tokens stand. -/
theorem spelling_ofTokens?_congr {ts us : List LocatedToken}
    (h : ts.map (·.token) = us.map (·.token)) :
    (ofTokens? ts).map spelling = (ofTokens? us).map spelling := by
  rw [← spelling_ofTokens?_unplaced ts, ← spelling_ofTokens?_unplaced us, map_unplaced_congr h]

theorem spelling_labelLines {c d : Invocation} (h : c.spelling = d.spelling) (source other : SourceLine) :
    (c.labelLines source).map (·.spelling) = (d.labelLines other).map (·.spelling) := by
  have hlabels : c.labels.map (·.token) = d.labels.map (·.token) := congrArg (·.labels) h
  have hempty : c.labels.isEmpty = d.labels.isEmpty := by
    rw [← List.isEmpty_map (f := (·.token)), hlabels, List.isEmpty_map]
  rw [labelLines, labelLines, hempty]
  split
  · rfl
  · exact congrArg (· :: []) hlabels

end Invocation

/-! ## Alike expansions -/

namespace Macro

theorem instantiateToken_congr {as bs : List (List LocatedToken)}
    (h : as.map (List.map (·.token)) = bs.map (List.map (·.token))) (m : Macro) (serial : Nat)
    (t : Token) : m.instantiateToken as serial t = m.instantiateToken bs serial t := by
  have harg (cs : List (List LocatedToken)) (i : Nat) :
      (cs[i]?.getD []).map (·.token) = (cs.map (List.map (·.token)))[i]?.getD [] := by
    rw [List.getElem?_map]
    cases cs[i]? <;> rfl
  cases t with
  | param p => rw [instantiateToken, instantiateToken, harg, harg, h]
  | _ => rfl

theorem spelling_instantiateLine (m : Macro) (source : SourceLine) (call : Invocation) (serial : Nat)
    (line : TokenLine) :
    (m.instantiateLine source call serial line).spelling =
      line.tokens.flatMap fun t => m.instantiateToken call.arguments serial t.token := by
  simp [instantiateLine, TokenLine.spelling, List.map_flatMap, Function.comp_def]

/-- The body of an expansion only depends on the arguments, and not on their places. -/
theorem spelling_substituted {c d : Invocation} (h : c.spelling = d.spelling) (m : Macro)
    (line other : TokenLine) (serial : Nat) :
    (m.substituted line c serial).map (·.spelling) = (m.substituted other d serial).map (·.spelling) := by
  have hargs : c.arguments.map (List.map (·.token)) = d.arguments.map (List.map (·.token)) :=
    congrArg (·.arguments) h
  simp only [substituted, List.map_map, Function.comp_def, spelling_instantiateLine,
    instantiateToken_congr hargs]

end Macro

namespace MacroPool

/-- Two runs end with the same error, or with results that look the same, and have made as many expansions. -/
inductive Alike {α β : Type} (look : α → β) : Except MacroError α × Nat → Except MacroError α × Nat → Prop
  | error (e : MacroError) (n : Nat) : Alike look (.error e, n) (.error e, n)
  | ok {a b : α} (same : look a = look b) (n : Nat) : Alike look (.ok a, n) (.ok b, n)

theorem Alike.map_eq {α β : Type} {look : α → β} {x y : Except MacroError α × Nat}
    (h : Alike look x y) : x.1.map look = y.1.map look ∧ x.2 = y.2 := by
  cases h with
  | error => exact ⟨rfl, rfl⟩
  | ok same => exact ⟨congrArg Except.ok same, rfl⟩

/-- What a line invokes, without places. -/
def invokedSpelling? (pool : MacroPool) (line : TokenLine) : Option (Macro × Invocation.Spelling) :=
  (pool.invoked? line).map fun invoked => (invoked.1, invoked.2.spelling)

theorem invokedSpelling?_congr (pool : MacroPool) {line other : TokenLine}
    (h : line.spelling = other.spelling) :
    pool.invokedSpelling? line = pool.invokedSpelling? other := by
  have hread (line : TokenLine) : pool.invokedSpelling? line =
      ((Invocation.ofTokens? line.tokens).map (·.spelling)).bind fun c =>
        (pool.find? c.name c.arguments.length).map fun m => (m, c) := by
    unfold invokedSpelling? invoked?
    cases Invocation.ofTokens? line.tokens with
    | none => rfl
    | some call => simp [Invocation.spelling, Function.comp_def]
  rw [hread, hread, Invocation.spelling_ofTokens?_congr h]

/-- Lines that invoke alike both invoke nothing, or the same macro. -/
theorem invokedSpelling?_cases {pool : MacroPool} {line other : TokenLine}
    (h : pool.invokedSpelling? line = pool.invokedSpelling? other) :
    (pool.invoked? line = none ∧ pool.invoked? other = none) ∨
      ∃ m c d, pool.invoked? line = some (m, c) ∧ pool.invoked? other = some (m, d) ∧
        c.spelling = d.spelling := by
  unfold invokedSpelling? at h
  cases hline : pool.invoked? line with
  | none =>
      rw [hline] at h
      exact .inl ⟨rfl, Option.map_eq_none_iff.mp h.symm⟩
  | some invoked =>
      rw [hline] at h
      obtain ⟨⟨m, d⟩, hother, heq⟩ := Option.map_eq_some_iff.mp h.symm
      obtain ⟨rfl, hsame⟩ := Prod.mk.inj heq
      exact .inr ⟨_, _, d, rfl, hother, hsame.symm⟩

/-- How the lines of an expansion look. -/
def look (lines : Option (List TokenLine)) : Option (List (List Token)) :=
  lines.map (List.map (·.spelling))

theorem expandAll_alike {expandLine : TokenLine → Expanding (Option (List TokenLine))}
    (h : ∀ line other n, line.spelling = other.spelling →
      Alike look ((expandLine line).run.run n) ((expandLine other).run.run n))
    {lines others : List TokenLine} (same : lines.map (·.spelling) = others.map (·.spelling)) (n : Nat) :
    Alike (List.map (·.spelling)) ((expandAll expandLine lines).run.run n)
      ((expandAll expandLine others).run.run n) := by
  induction lines generalizing others n with
  | nil =>
      obtain rfl := List.map_eq_nil_iff.mp same.symm
      exact .ok rfl n
  | cons line rest ih =>
      obtain ⟨other, later, rfl, hline, hrest⟩ := List.map_eq_cons_iff.mp same.symm
      rw [run_expandAll_cons, run_expandAll_cons]
      have hfirst := h line other n hline.symm
      generalize (expandLine line).run.run n = x at hfirst ⊢
      generalize (expandLine other).run.run n = y at hfirst ⊢
      cases hfirst with
      | error e k => exact .error e k
      | @ok a b hlook k =>
          dsimp only
          have hlater := ih hrest.symm k
          generalize (expandAll expandLine rest).run.run k = x at hlater ⊢
          generalize (expandAll expandLine later).run.run k = y at hlater ⊢
          cases hlater with
          | error e k => exact .error e k
          | ok hlater k =>
              refine .ok ?_ k
              have hgetD (c : Option (List TokenLine)) (l : TokenLine) :
                  (c.getD [l]).map (·.spelling) = (look c).getD [l.spelling] := by
                cases c <;> rfl
              rw [List.map_append, List.map_append, hlater, hgetD, hgetD, hlook, hline]

/-- **Lines that invoke alike expand alike**, wherever their tokens stand. -/
theorem expandWithin_alike (pool : MacroPool) (depth : Nat) {line other : TokenLine}
    (h : pool.invokedSpelling? line = pool.invokedSpelling? other) (n : Nat) :
    Alike look ((pool.expandWithin depth line).run.run n) ((pool.expandWithin depth other).run.run n) := by
  -- both sides make the same invocations in the same order, so their serial numbers stay the same
  induction depth generalizing line other n with
  | zero =>
      rw [run_expandWithin_zero, run_expandWithin_zero]
      cases invokedSpelling?_cases h with
      | inl hnone =>
          rw [hnone.1, hnone.2]
          exact .ok rfl n
      | inr hsome =>
          obtain ⟨m, c, d, hc, hd, -⟩ := hsome
          rw [hc, hd]
          exact .error _ n
  | succ depth ih =>
      rw [run_expandWithin_succ, run_expandWithin_succ]
      cases invokedSpelling?_cases h with
      | inl hnone =>
          rw [hnone.1, hnone.2]
          exact .ok rfl n
      | inr hsome =>
          obtain ⟨m, c, d, hc, hd, hsame⟩ := hsome
          rw [hc, hd]
          dsimp only
          have hbody := expandAll_alike (fun line other n h => ih (pool.invokedSpelling?_congr h) n)
            (m.spelling_substituted hsame line other n) (n + 1)
          generalize (expandAll _ (m.substituted line c n)).run.run (n + 1) = x at hbody ⊢
          generalize (expandAll _ (m.substituted other d n)).run.run (n + 1) = y at hbody ⊢
          cases hbody with
          | error e k => exact .error e k
          | ok hbody k =>
              refine .ok ?_ k
              rw [look, look, Option.map_some, Option.map_some, List.map_append, List.map_append, hbody,
                Invocation.spelling_labelLines hsame line.source other.source]

end MacroPool

/-! ## Labels and arguments -/

/-- Labels end in front of a name without a colon. -/
theorem splitLabels_labelTokens {labels : List String} {name : String} {rest : List Token}
    {ts : List LocatedToken} (h : ts.map (·.token) = labelTokens labels ++ .name name :: rest)
    (hrest : rest.head? ≠ some .colon) :
    ∃ before span after, splitLabels ts = (before, ⟨.name name, span⟩ :: after) ∧
      before.map (·.token) = labelTokens labels ∧ after.map (·.token) = rest := by
  have hend : ∀ name' more, Token.name name :: rest ≠ .name name' :: .colon :: more := by
    intro name' more heq
    obtain ⟨-, rfl⟩ := List.cons.inj heq
    exact hrest rfl
  obtain ⟨before, others, hsplit, hbefore, hothers⟩ := splitLabels_tokens h hend
  obtain ⟨⟨_, span⟩, after, rfl, rfl, hafter⟩ := List.map_eq_cons_iff.mp hothers
  exact ⟨before, span, after, hsplit, hbefore, hafter⟩

namespace Invocation

/-- Arguments that can be written with commas between them. -/
structure Separable (args : List (List Token)) : Prop where
  several : 2 ≤ args.length
  filled : ∀ a ∈ args, a ≠ []
  commas : ∀ a ∈ args, .comma ∉ a

/-- The first token of the first argument. -/
def firstToken? (args : List (List Token)) : Option Token := args.head?.bind List.head?

/-- The last token of the last argument. -/
def lastToken? (args : List (List Token)) : Option Token := args.getLast?.bind List.getLast?

/-- Whether each parenthesis is closed after it was opened, given how many are open already. -/
def balanced : Nat → List Token → Bool
  | depth, [] => depth == 0
  | depth, .leftParen :: rest => balanced (depth + 1) rest
  | 0, .rightParen :: _ => false
  | depth + 1, .rightParen :: rest => balanced depth rest
  | depth, _ :: rest => balanced depth rest

theorem splitCommas_eq_splitOn (ts : List LocatedToken) :
    (splitCommas ts).map (List.map (·.token)) = (ts.map (·.token)).splitOn .comma := by
  induction ts with
  | nil => rfl
  | cons t rest ih =>
      rw [List.map_cons, List.splitOn_cons_eq_if_modifyHead, ← ih, splitCommas]
      by_cases hcomma : t.token = .comma
      · simp [hcomma]
      · have hsome : splitCommas rest ≠ [] := by
          intro h
          rw [h] at ih
          exact List.splitOn_ne_nil _ _ ih.symm
        obtain ⟨part, parts, hparts⟩ := List.exists_cons_of_ne_nil hsome
        simp [hcomma, hparts]

section Separable

variable {args : List (List Token)} {ts : List LocatedToken}

theorem head?_intercalate (separable : Separable args) :
    ([.comma].intercalate args).head? = firstToken? args := by
  match args, separable with
  | first :: second :: rest, separable =>
      obtain ⟨t, ts, rfl⟩ := List.exists_cons_of_ne_nil (separable.filled first List.mem_cons_self)
      rw [List.intercalate_cons_cons]
      rfl

theorem getLast?_intercalate (filled : ∀ a ∈ args, a ≠ []) :
    ([.comma].intercalate args).getLast? = lastToken? args := by
  induction args with
  | nil => rfl
  | cons first rest ih =>
      cases rest with
      | nil =>
          rw [List.intercalate_singleton]
          rfl
      | cons second rest =>
          obtain ⟨-, hrest⟩ := List.forall_mem_cons.mp filled
          have hsome : [.comma].intercalate (second :: rest) ≠ [] := by
            cases rest <;> simp [hrest second List.mem_cons_self]
          rw [List.intercalate_cons_cons, List.getLast?_append_of_ne_nil _ hsome, ih hrest]
          rfl

/-- Arguments with commas between them are read as they are. -/
theorem argumentsOf_intercalate (separable : Separable args)
    (h : ts.map (·.token) = [.comma].intercalate args) :
    (argumentsOf ts).map (List.map (·.token)) = args := by
  have hcomma : .comma ∈ ts.map (·.token) := by
    rw [h]
    match args, separable.several with
    | first :: second :: rest, _ => simp
  have hany : ts.any fun t => t.token = .comma := by
    obtain ⟨t, ht, htoken⟩ := List.mem_map.mp hcomma
    exact List.any_eq_true.mpr ⟨t, ht, by simp [htoken]⟩
  have hsome : ts.isEmpty = false := by
    cases ts with
    | nil => cases hcomma
    | cons => rfl
  have hargs : args ≠ [] := by
    rintro rfl
    exact absurd separable.several (by simp)
  rw [argumentsOf, hsome, if_neg Bool.false_ne_true, if_pos hany, splitCommas_eq_splitOn, h,
    List.splitOn_intercalate .comma separable.commas hargs]

/-- Parentheses around all arguments are left out. -/
theorem withoutParentheses_enclosed {inner : List Token}
    (h : ts.map (·.token) = .leftParen :: (inner ++ [.rightParen])) :
    (withoutParentheses ts).map (·.token) = inner := by
  obtain ⟨⟨_, _⟩, others, rfl, rfl, hothers⟩ := List.map_eq_cons_iff.mp h
  obtain ⟨within, last, rfl, rfl, hlast⟩ := List.map_eq_append_iff.mp hothers
  obtain ⟨⟨_, _⟩, _, rfl, rfl, hnil⟩ := List.map_eq_cons_iff.mp hlast
  obtain rfl := List.map_eq_nil_iff.mp hnil
  cases within with
  | nil => rfl
  | cons t within =>
      rw [List.cons_append, withoutParentheses, if_pos]
      · rw [← List.cons_append, List.dropLast_concat]
      · exact ⟨rfl, by rw [← List.cons_append, List.getLast?_concat]; rfl⟩

/-- Nothing is left out unless there are parentheses at both ends. -/
theorem withoutParentheses_open
    (h : ¬ (ts.head?.map (·.token) = some .leftParen ∧ ts.getLast?.map (·.token) = some .rightParen)) :
    withoutParentheses ts = ts := by
  match ts with
  | [] => rfl
  | [t] => rfl
  | first :: second :: rest =>
      rw [withoutParentheses, if_neg]
      rintro ⟨hfirst, hlast⟩
      exact h ⟨congrArg some hfirst, by rw [List.getLast?_cons_cons]; exact hlast⟩

end Separable

/-! ## The forms -/

/-- The tokens of an invocation without parentheses. -/
def plainTokens (labels : List String) (name : String) (args : List (List Token)) : List Token :=
  labelTokens labels ++ .name name :: [.comma].intercalate args

/-- The tokens of an invocation with parentheses around its arguments. -/
def enclosedTokens (labels : List String) (name : String) (args : List (List Token)) : List Token :=
  labelTokens labels ++ .name name :: .leftParen :: ([.comma].intercalate args ++ [.rightParen])

section Forms

variable {labels : List String} {name : String} {args : List (List Token)} {ts : List LocatedToken}

theorem spelling_of_enclosedTokens (separable : Separable args)
    (h : ts.map (·.token) = enclosedTokens labels name args) :
    (ofTokens? ts).map spelling = some ⟨labelTokens labels, name, args⟩ := by
  obtain ⟨before, span, after, hsplit, hbefore, hafter⟩ := splitLabels_labelTokens h nofun
  have hargs : (argumentsOf (withoutParentheses after)).map (List.map (·.token)) = args :=
    argumentsOf_intercalate separable (withoutParentheses_enclosed hafter)
  simp [ofTokens?, hsplit, spelling, hbefore, hargs]

theorem spelling_of_plainTokens (separable : Separable args) (hcolon : firstToken? args ≠ some .colon)
    (houter : ¬ (firstToken? args = some .leftParen ∧ lastToken? args = some .rightParen))
    (h : ts.map (·.token) = plainTokens labels name args) :
    (ofTokens? ts).map spelling = some ⟨labelTokens labels, name, args⟩ := by
  rw [← head?_intercalate separable] at hcolon houter
  rw [← getLast?_intercalate separable.filled] at houter
  obtain ⟨before, span, after, hsplit, hbefore, hafter⟩ := splitLabels_labelTokens h hcolon
  have hinner : withoutParentheses after = after := by
    apply withoutParentheses_open
    rwa [← List.head?_map, ← List.getLast?_map, hafter]
  have hargs : (argumentsOf after).map (List.map (·.token)) = args :=
    argumentsOf_intercalate separable hafter
  simp [ofTokens?, hsplit, spelling, hbefore, hinner, hargs]

end Forms

/-- The invocation passes these arguments, and each parameter stands for the argument at its place. -/
structure Passes (call : Invocation) (m : Macro) (labels : List String) (args : List (List Token)) :
    Prop where
  written : call.spelling = ⟨labelTokens labels, m.name, args⟩
  parameters : ∀ serial p a, args[m.params.idxOf p]? = some a →
    m.instantiateToken call.arguments serial (.param p) = a

theorem passes_of_spelling {call : Invocation} {m : Macro} {labels : List String} {args : List (List Token)}
    (h : call.spelling = ⟨labelTokens labels, m.name, args⟩) : call.Passes m labels args := by
  refine ⟨h, fun serial p a ha => ?_⟩
  have hargs : call.arguments.map (List.map (·.token)) = args := congrArg (·.arguments) h
  rw [← hargs, List.getElem?_map] at ha
  obtain ⟨us, hus, rfl⟩ := Option.map_eq_some_iff.mp ha
  rw [Macro.instantiateToken, hus, Option.getD_some]

end Invocation

namespace MacroPool

open Invocation

theorem exists_passes {pool : MacroPool} {m : Macro} {line : TokenLine} {labels : List String}
    {args : List (List Token)} (hm : pool.find? m.name args.length = some m)
    (h : (ofTokens? line.tokens).map spelling = some ⟨labelTokens labels, m.name, args⟩) :
    ∃ call, pool.invoked? line = some (m, call) ∧ call.Passes m labels args := by
  obtain ⟨call, hcall, hspelling⟩ := Option.map_eq_some_iff.mp h
  have hname : call.name = m.name := congrArg (·.name) hspelling
  have hlength : call.arguments.length = args.length := by
    have hargs : call.arguments.map (List.map (·.token)) = args := congrArg (·.arguments) hspelling
    rw [← hargs, List.length_map]
  refine ⟨call, ?_, passes_of_spelling hspelling⟩
  rw [invoked?, hcall, Option.bind_some, hname, hlength, hm, Option.map_some]

/-- **The two forms of an invocation agree.** With parentheses around them, all arguments are passed as they
are written. Without, they are too, and the expansion is the same up to places, unless the first argument starts
with a colon, or the arguments start and end with parentheses. -/
theorem expand_forms (pool : MacroPool) {m : Macro} (labels : List String) {args : List (List Token)}
    (separable : Separable args) (hm : pool.find? m.name args.length = some m) {plain enclosed : TokenLine}
    (hplain : plain.spelling = plainTokens labels m.name args)
    (henclosed : enclosed.spelling = enclosedTokens labels m.name args) :
    ∃ d, pool.invoked? enclosed = some (m, d) ∧ d.Passes m labels args ∧
      (firstToken? args ≠ some .colon →
        ¬ (firstToken? args = some .leftParen ∧ lastToken? args = some .rightParen) →
        ∃ c, pool.invoked? plain = some (m, c) ∧ c.Passes m labels args ∧
          (pool.expand plain).1.map look = (pool.expand enclosed).1.map look ∧
          (pool.expand plain).2 = (pool.expand enclosed).2) := by
  obtain ⟨d, hd, hpasses⟩ := exists_passes hm (spelling_of_enclosedTokens separable henclosed)
  refine ⟨d, hd, hpasses, fun hcolon houter => ?_⟩
  obtain ⟨c, hc, hpasses'⟩ := exists_passes hm (spelling_of_plainTokens separable hcolon houter hplain)
  have hsame : pool.invokedSpelling? plain = pool.invokedSpelling? enclosed := by
    rw [invokedSpelling?, invokedSpelling?, hc, hd, Option.map_some, Option.map_some, hpasses.written,
      hpasses'.written]
  obtain ⟨hlook, hserial⟩ := (pool.expandWithin_alike depthLimit hsame pool.expansions).map_eq
  exact ⟨c, hc, hpasses', hlook, by rw [expand, expand]; exact congrArg (MacroPool.mk pool.macros) hserial⟩

/-- Operands with parentheses at either end, but not at both ends. -/
theorem expand_forms_baseOffset :
    let read (text : String) : TokenLine :=
      ⟨⟨"a.s", 1, text⟩, (TokenLine.tokensOf text.toList).toOption.getD []⟩
    let m : Macro := ⟨"copy", ["from", "to"], [read "lw $t9, %from", read "l: sw $t9, %to"]⟩
    let pool : MacroPool := ⟨[m], 0⟩
    let args : List (List Token) :=
      [[.int 4, .leftParen, .reg ⟨8⟩, .rightParen], [.leftParen, .reg ⟨9⟩, .rightParen]]
    let plain := read "x: copy 4($t0), ($t1)"
    let enclosed := read "x: copy(4($t0), ($t1))"
    Separable args ∧ pool.find? m.name args.length = some m ∧
      plain.spelling = plainTokens ["x"] m.name args ∧
      enclosed.spelling = enclosedTokens ["x"] m.name args ∧
      (∃ c d, pool.invoked? plain = some (m, c) ∧ pool.invoked? enclosed = some (m, d) ∧
        c.Passes m ["x"] args ∧ d.Passes m ["x"] args) ∧
      (pool.expand plain).1.map look = (pool.expand enclosed).1.map look ∧
      (pool.expand plain).1.map look = .ok (some [[.name "x", .colon],
        [.name "lw", .reg ⟨25⟩, .comma, .int 4, .leftParen, .reg ⟨8⟩, .rightParen],
        [.name "l_M0", .colon, .name "sw", .reg ⟨25⟩, .comma, .leftParen, .reg ⟨9⟩, .rightParen]]) := by
  intro read m pool args plain enclosed
  have separable : Separable args := ⟨by decide, by decide, by decide⟩
  have hm : pool.find? m.name args.length = some m := by decide +kernel
  have hplain : plain.spelling = plainTokens ["x"] m.name args := by decide +kernel
  have henclosed : enclosed.spelling = enclosedTokens ["x"] m.name args := by decide +kernel
  obtain ⟨d, hd, hpasses, hforms⟩ := expand_forms pool ["x"] separable hm hplain henclosed
  obtain ⟨c, hc, hpasses', hsame, -⟩ := hforms (by decide) (by decide)
  exact ⟨separable, hm, hplain, henclosed, ⟨c, d, hc, hd, hpasses', hpasses⟩, hsame, by decide +kernel⟩

/-- Without parentheses around them, arguments that start and end with parentheses lose these, and a name
with a colon after it is a label. -/
theorem forms_disagree :
    let read (text : String) : TokenLine :=
      ⟨⟨"a.s", 1, text⟩, (TokenLine.tokensOf text.toList).toOption.getD []⟩
    let m : Macro := ⟨"copy", ["from", "to"], [read "lw $t9, %from", read "sw $t9, %to"]⟩
    let pool : MacroPool := ⟨[m], 0⟩
    let operands : List (List Token) :=
      [[.leftParen, .reg ⟨8⟩, .rightParen], [.int 4, .leftParen, .reg ⟨9⟩, .rightParen]]
    let colons : List (List Token) := [[.colon], [.name "x"]]
    (∀ args ∈ [operands, colons], Separable args ∧ (∀ a ∈ args, balanced 0 a) ∧
      pool.find? m.name args.length = some m) ∧
    ((read "copy ($t0), 4($t1)").spelling = plainTokens [] m.name operands ∧
      (read "copy(($t0), 4($t1))").spelling = enclosedTokens [] m.name operands ∧
      (pool.expand (read "copy ($t0), 4($t1)")).1.map look =
        .ok (some [[.name "lw", .reg ⟨25⟩, .comma, .reg ⟨8⟩, .rightParen],
          [.name "sw", .reg ⟨25⟩, .comma, .int 4, .leftParen, .reg ⟨9⟩]]) ∧
      (pool.expand (read "copy(($t0), 4($t1))")).1.map look =
        .ok (some [[.name "lw", .reg ⟨25⟩, .comma, .leftParen, .reg ⟨8⟩, .rightParen],
          [.name "sw", .reg ⟨25⟩, .comma, .int 4, .leftParen, .reg ⟨9⟩, .rightParen]])) ∧
    (read "copy :, x").spelling = plainTokens [] m.name colons ∧
      (read "copy(:, x)").spelling = enclosedTokens [] m.name colons ∧
      pool.invoked? (read "copy :, x") = none ∧
      (pool.expand (read "copy(:, x)")).1.map look =
        .ok (some [[.name "lw", .reg ⟨25⟩, .comma, .colon], [.name "sw", .reg ⟨25⟩, .comma, .name "x"]]) := by
  intro read m pool operands colons
  refine ⟨?_, by decide +kernel, by decide +kernel, by decide +kernel, by decide +kernel, by decide +kernel⟩
  rw [List.forall_mem_cons, List.forall_mem_singleton]
  refine ⟨⟨⟨by decide, by decide, by decide⟩, by decide, by decide +kernel⟩,
    ⟨by decide, by decide, by decide⟩, by decide, by decide +kernel⟩

end MacroPool

end MipsLab
