import MipsLab.Proofs.FirstPass

set_option autoImplicit false

/-!
# The files of lines

A unit that is made from a text owns its lines: each of them says that it comes from the file of the unit.
Reading keeps the source of a line, and a line that invokes a macro passes its own source on to all lines
that replace it, so the lines that the first pass places are the unit's own as well
(`SourceUnit.file_of_mem_expandedLines`).
-/

namespace MipsLab

namespace MacroPool

/-! ## Expanding -/

/-- Whatever an expansion results in has a property, unless it fails. -/
def Ensures {α : Type} (x : Expanding α) (post : α → Prop) : Prop :=
  ∀ n a m, x.run.run n = (.ok a, m) → post a

namespace Ensures

variable {α β : Type} {post : α → Prop} {post' : β → Prop}

theorem pure {a : α} (h : post a) : Ensures (Pure.pure a) post := by
  intro n b m hb
  cases hb
  exact h

theorem throw (e : MacroError) : Ensures (throw e : Expanding α) post := by
  intro n b m hb
  cases hb

theorem any (x : Expanding α) : Ensures x fun _ => True := fun _ _ _ _ => trivial

theorem bind {x : Expanding α} {f : α → Expanding β} (hx : Ensures x post)
    (hf : ∀ a, post a → Ensures (f a) post') : Ensures (x >>= f) post' := by
  intro n b m hb
  rw [ExceptT.run_bind, StateT.run_bind] at hb
  rcases hrun : x.run.run n with ⟨result, k⟩
  rw [hrun] at hb
  cases result with
  | ok a => exact hf a (hx n a k hrun) _ _ _ hb
  | error e => cases hb

end Ensures

/-- All lines that replace a line come from the same source, or the line stays. -/
def SameSource (line : TokenLine) (expanded : Option (List TokenLine)) : Prop :=
  ∀ lines, expanded = some lines → ∀ l ∈ lines, l.source = line.source

theorem ensures_expandAll {expandLine : TokenLine → Expanding (Option (List TokenLine))}
    (hexpand : ∀ line, Ensures (expandLine line) (SameSource line)) (source : SourceLine)
    {lines : List TokenLine} (hlines : ∀ l ∈ lines, l.source = source) :
    Ensures (expandAll expandLine lines) fun expanded => ∀ l ∈ expanded, l.source = source := by
  induction lines with
  | nil => exact .pure (by simp)
  | cons line rest ih =>
      obtain ⟨hline, hrest⟩ := List.forall_mem_cons.mp hlines
      refine .bind (hexpand line) fun expanded hexpanded => ?_
      refine .bind (ih hrest) fun later hlater => .pure ?_
      intro l hl
      rcases List.mem_append.mp hl with hl | hl
      · cases expanded with
        | none => rw [List.mem_singleton.mp hl, hline]
        | some ls => rw [hexpanded ls rfl l hl, hline]
      · exact hlater l hl

/-- **The lines of an expansion come from the line that invokes the macro.** -/
theorem ensures_expandWithin (pool : MacroPool) (depth : Nat) (line : TokenLine) :
    Ensures (pool.expandWithin depth line) (SameSource line) := by
  have hnone : Ensures (Pure.pure none) (SameSource line) := .pure fun _ h => nomatch h
  induction depth generalizing line with
  | zero =>
      unfold expandWithin
      split
      · exact hnone
      split
      · exact hnone
      · exact .throw _
  | succ d ih =>
      unfold expandWithin
      split
      · exact hnone
      split
      · exact hnone
      next call _ _ m _ =>
        refine .bind (.any _) fun serial _ => ?_
        refine .bind (ensures_expandAll (fun l => ih l (.pure fun _ h => nomatch h)) line.source ?_) ?_
        · intro l hl
          obtain ⟨body, -, rfl⟩ := List.mem_map.mp hl
          rfl
        · intro expanded hexpanded
          refine .pure fun lines hsome l hl => ?_
          obtain rfl := Option.some.inj hsome
          rcases List.mem_append.mp hl with hl | hl
          · split at hl
            · cases hl
            · rw [List.mem_singleton.mp hl]
          · exact hexpanded l hl

theorem source_of_expand {pool pool' : MacroPool} {line : TokenLine} {lines : List TokenLine}
    (h : pool.expand line = (.ok (some lines), pool')) {l : TokenLine} (hl : l ∈ lines) :
    l.source = line.source :=
  ensures_expandWithin pool depthLimit line pool.expansions (some lines) _
    (Prod.ext (congrArg (·.1) h) rfl) lines rfl l hl

/-- **The lines of a unit after expansion come from the lines before.** -/
theorem source_of_mem_expandFrom (pool : MacroPool) (current : Option Definition)
    (lines : List TokenLine) {l : TokenLine} (hl : l ∈ (expandFrom pool current lines).lines) :
    ∃ line ∈ lines, l.source = line.source := by
  have later : ∀ {line : TokenLine} {rest : List TokenLine}, (∃ m ∈ rest, l.source = m.source) →
      ∃ m ∈ line :: rest, l.source = m.source :=
    fun ⟨m, hm, h⟩ => ⟨m, List.mem_cons_of_mem _ hm, h⟩
  fun_induction expandFrom pool current lines with
  | case1 => cases hl
  -- definitions and errors leave no lines
  | case2 _ _ _ _ _ _ _ ih | case3 _ _ _ _ _ _ _ _ ih | case4 _ _ _ _ _ _ _ ih
  | case5 _ _ _ _ _ _ ih | case6 _ _ _ _ _ _ _ _ _ ih | case7 _ _ _ _ _ _ _ _ _ ih
  | case8 _ _ _ _ _ _ ih | case11 _ _ _ _ _ _ _ _ ih => exact later (ih hl)
  | case9 pool line rest lines pool' hexpand _ _ ih =>
      rcases List.mem_append.mp hl with hl | hl
      · exact ⟨line, List.mem_cons_self, source_of_expand hexpand hl⟩
      · exact later (ih hl)
  | case10 pool line rest pool' _ _ _ ih =>
      rcases List.mem_append.mp hl with hl | hl
      · exact ⟨line, List.mem_cons_self, congrArg TokenLine.source (List.mem_singleton.mp hl)⟩
      · exact later (ih hl)

end MacroPool

namespace SourceUnit

/-- The lines of the unit come from its file. -/
structure Owned (u : SourceUnit) : Prop where
  lines : ∀ l ∈ u.lines, l.file = u.file
  tokens : ∀ tokens, u.tokens = some tokens → ∀ l ∈ tokens, l.source.file = u.file

theorem owned_ofText (file text : String) : (ofText file text).Owned where
  lines := by
    intro l hl
    obtain ⟨i, _, hi⟩ := List.mem_mapIdx.mp hl
    rw [← hi]
    rfl
  tokens tokens h := nomatch h

/-- Reading keeps the source of a line. -/
theorem source_of_read {constants constants' : Constants} {source : SourceLine} {line : TokenLine}
    (h : TokenLine.read constants source = .ok (line, constants')) : line.source = source := by
  unfold TokenLine.read at h
  cases htokens : TokenLine.tokensOf source.text.toList with
  | error e =>
      rw [htokens] at h
      cases h
  | ok tokens =>
      rw [htokens] at h
      dsimp only [bind, Except.bind] at h
      split at h
      · split at h <;> cases h
        rfl
      · cases h
        rfl

theorem source_of_mem_readLines {constants : Constants} {lines : List SourceLine} {l : TokenLine}
    (hl : l ∈ (readLines constants lines).1) : l.source ∈ lines := by
  induction lines generalizing constants with
  | nil => cases hl
  | cons source rest ih =>
      unfold readLines at hl
      split at hl
      case h_1 line constants' hread =>
        rcases List.mem_cons.mp hl with rfl | hl
        · rw [source_of_read hread]
          exact List.mem_cons_self
        · exact List.mem_cons_of_mem _ (ih hl)
      case h_2 => exact List.mem_cons_of_mem _ (ih hl)

/-- **The lines that the first pass places come from the file of the unit.** -/
theorem file_of_mem_expandedLines {u : SourceUnit} (owned : u.Owned) {line : TokenLine}
    (hline : line ∈ u.expandedLines) : line.source.file = u.file := by
  have hread : ∀ tokens, u.read.1.tokens = some tokens → ∀ l ∈ tokens, l.source.file = u.file := by
    intro tokens htokens l hl
    unfold read at htokens
    split at htokens
    · exact owned.tokens tokens htokens l hl
    · unfold tokenize at htokens
      split at htokens
      case h_1 lines hlines =>
        obtain rfl := Option.some.inj htokens
        have hmem : l ∈ (readLines [] u.lines).1 := by
          rw [hlines]
          exact hl
        exact owned.lines _ (source_of_mem_readLines hmem)
      case h_2 => cases htokens
  unfold expandedLines at hline
  split at hline
  case h_1 tokens htokens =>
    obtain ⟨l, hl, hsource⟩ := MacroPool.source_of_mem_expandFrom _ _ _ hline
    rw [hsource]
    exact hread tokens htokens l hl
  case h_2 => cases hline

end SourceUnit

end MipsLab
