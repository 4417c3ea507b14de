import MipsLab.Proofs.MacroRun
import MipsLab.Proofs.Origins

set_option autoImplicit false

/-!
# What macros pass on

An expansion puts tokens of the invocation into lines of a macro's body, and the lines that come of it may
invoke macros in turn. A property of lines that goes through one such step (`MacroPool.Heritable`) goes from
the lines of a unit to all lines that the first pass places (`MacroPool.Heritable.of_mem_expandUnit`). The pool
that a unit leaves has only macros that were checked when they were defined
(`MacroPool.checked_of_mem_expandFrom`).
-/

namespace MipsLab

/-! ## Invocations -/

namespace Invocation

variable {line : TokenLine} {call : Invocation}

/-- The labels of an invocation are the first tokens of its line. -/
theorem labels_eq_take (h : ofTokens? line.tokens = some call) :
    call.labels = line.tokens.take call.labels.length := by
  rw [← TracedLine.erase_ofLine line] at h
  have hlabels := (TracedLine.erase_invocation h).1
  rw [TracedLine.invokedLabels, List.map_take] at hlabels
  exact hlabels.symm.trans (congrArg (List.take _) (congrArg TokenLine.tokens (TracedLine.erase_ofLine line)))

/-- The tokens of the arguments stand on the line. -/
theorem mem_of_mem_arguments (h : ofTokens? line.tokens = some call) {part : List LocatedToken}
    (hpart : part ∈ call.arguments) {t : LocatedToken} (ht : t ∈ part) : t ∈ line.tokens := by
  rw [← TracedLine.erase_ofLine line] at h
  rw [← (TracedLine.erase_invocation h).2] at hpart
  obtain ⟨traced, htraced, rfl⟩ := List.mem_map.mp hpart
  obtain ⟨u, hu, rfl⟩ := List.mem_map.mp ht
  have hmem := List.mem_map_of_mem (f := (·.located)) (TracedLine.mem_of_mem_arguments htraced hu)
  rwa [show (TracedLine.ofLine line).tokens.map (·.located) = line.tokens from
    congrArg TokenLine.tokens (TracedLine.erase_ofLine line)] at hmem

end Invocation

/-! ## Expansions -/

namespace Macro

/-- A token of an expansion stands for itself in the body, is a name, or comes from an argument. -/
theorem of_mem_instantiateToken {m : Macro} {arguments : List (List LocatedToken)} {serial : Nat}
    {t u : Token} (h : u ∈ m.instantiateToken arguments serial t) :
    u = t ∨ (∃ text, u = .name text) ∨ ∃ part ∈ arguments, ∃ v ∈ part, u = v.token := by
  unfold instantiateToken at h
  split at h
  case h_1 p =>
    obtain ⟨v, hv, rfl⟩ := List.mem_map.mp h
    cases hpart : arguments[m.params.idxOf p]? with
    | none =>
        rw [hpart] at hv
        cases hv
    | some part =>
        rw [hpart] at hv
        exact .inr (.inr ⟨part, List.mem_of_getElem? hpart, v, hv, rfl⟩)
  case h_2 text =>
    rw [List.mem_singleton.mp h]
    split
    · exact .inr (.inl ⟨_, rfl⟩)
    · exact .inl rfl
  case h_3 => exact .inl (List.mem_singleton.mp h)

/-- The tokens of a line of an expansion, each with the place of the invocation. -/
theorem of_mem_instantiateLine {m : Macro} {source : SourceLine} {call : Invocation} {serial : Nat}
    {b : TokenLine} {t : LocatedToken} (h : t ∈ (m.instantiateLine source call serial b).tokens) :
    t.span = call.span ∧ ∃ u ∈ b.tokens, t.token ∈ m.instantiateToken call.arguments serial u.token := by
  obtain ⟨u, hu, ht⟩ := List.mem_flatMap.mp h
  obtain ⟨v, hv, rfl⟩ := List.mem_map.mp ht
  exact ⟨rfl, u, hu, hv⟩

end Macro

namespace MacroPool

/-- The property goes from a line that invokes a macro, and from the lines of the macro's body, to the lines
that stand for the invocation. -/
structure Heritable (G : TokenLine → Prop) : Prop where
  labels : ∀ {line call}, Invocation.ofTokens? line.tokens = some call → G line →
    G ⟨line.source, call.labels⟩
  body : ∀ {line call b} (m : Macro) (serial : Nat), Invocation.ofTokens? line.tokens = some call →
    G line → G b → G (m.instantiateLine line.source call serial b)

/-- The lines of all bodies have the property. -/
def Bodies (G : TokenLine → Prop) (pool : MacroPool) : Prop := ∀ m ∈ pool.macros, ∀ b ∈ m.body, G b

/-- A closed definition was checked, and its macro is the last of the pool. -/
theorem macros_of_close {pool pool' : MacroPool} {d : Definition} (h : pool.close d = .ok pool') :
    ∃ m, Macro.ofDefinition d.name d.params d.body.reverse = .ok m ∧ pool'.macros = pool.macros ++ [m] := by
  unfold close at h
  cases hm : Macro.ofDefinition d.name d.params d.body.reverse with
  | error e =>
      rw [hm] at h
      cases h
  | ok m =>
      rw [hm] at h
      unfold define at h
      simp only [bind, Except.bind] at h
      split at h
      · cases h
      · cases h
        exact ⟨m, rfl, rfl⟩

/-- What is checked is the definition itself. -/
theorem eq_of_ofDefinition {name : String} {params : List String} {body : List TokenLine} {m : Macro}
    (h : Macro.ofDefinition name params body = .ok m) :
    m = ⟨name, params, body⟩ ∧ ∀ p ∈ Macro.paramsUsed body, p ∈ params := by
  unfold Macro.ofDefinition at h
  split at h
  · cases h
  case h_2 hnone =>
    cases h
    refine ⟨rfl, fun p hp => ?_⟩
    have hknown := List.find?_eq_none.mp hnone p hp
    simpa using hknown

theorem mem_macros_of_find? {pool : MacroPool} {name : String} {arity : Nat} {m : Macro}
    (h : pool.find? name arity = some m) : m ∈ pool.macros ∧ m.arity = arity := by
  have hfound := List.find?_some h
  simp only [Bool.and_eq_true, beq_iff_eq] at hfound
  exact ⟨List.mem_of_find?_eq_some h, hfound.2⟩

/-- A definition starts with its header and without a body. -/
theorem of_ofHeader? {header : TokenLine} {tokens : List LocatedToken} {d : Definition}
    (h : Definition.ofHeader? header tokens = some d) : d.header = header ∧ d.body = [] := by
  unfold Definition.ofHeader? at h
  split at h
  · obtain ⟨_, -, rfl⟩ := Option.map_eq_some_iff.mp h
    exact ⟨rfl, rfl⟩
  · cases h

/-- If each line leaves lines with a property, then all lines do. -/
theorem ensures_all {expandLine : TokenLine → Expanding (Option (List TokenLine))} {G : TokenLine → Prop}
    (h : ∀ line, G line → Ensures (expandLine line) fun expanded => ∀ l ∈ expanded.getD [line], G l)
    {lines : List TokenLine} (hlines : ∀ l ∈ lines, G l) :
    Ensures (expandAll expandLine lines) fun expanded => ∀ l ∈ expanded, G l := by
  induction lines with
  | nil => exact .pure (fun _ hl => nomatch hl)
  | cons line rest ih =>
      obtain ⟨hline, hrest⟩ := List.forall_mem_cons.mp hlines
      refine .bind (h line hline) fun expanded hexpanded => ?_
      refine .bind (ih hrest) fun later hlater => .pure fun l hl => ?_
      exact (List.mem_append.mp hl).elim (hexpanded l) (hlater l)

namespace Heritable

variable {G : TokenLine → Prop} (hG : Heritable G)
include hG

/-- **An expansion inherits the property.** -/
theorem expandWithin {pool : MacroPool} (bodies : pool.Bodies G) (depth : Nat) {line : TokenLine}
    (hline : G line) :
    Ensures (pool.expandWithin depth line) fun expanded => ∀ l ∈ expanded.getD [line], G l := by
  have hstays {line : TokenLine} (hline : G line) :
      Ensures (Pure.pure none) fun expanded => ∀ l ∈ Option.getD expanded [line], G l :=
    .pure fun l hl => by rwa [List.mem_singleton.mp hl]
  -- the lines of a body are expanded one level deeper, so the induction is on the depth that is left
  induction depth generalizing line with
  | zero =>
      unfold MacroPool.expandWithin
      split
      · exact hstays hline
      split
      · exact hstays hline
      · exact .throw _
  | succ d ih =>
      unfold MacroPool.expandWithin
      split
      · exact hstays hline
      next call hcall =>
        split
        · exact hstays hline
        next m hm =>
          refine .bind (.any _) fun serial _ => ?_
          have hbody : ∀ l ∈ m.body.map (m.instantiateLine line.source call serial), G l := by
            intro l hl
            obtain ⟨b, hb, rfl⟩ := List.mem_map.mp hl
            exact hG.body m serial hcall hline (bodies m (mem_macros_of_find? hm).1 b hb)
          refine .bind (ensures_all (fun l hl => ih hl) hbody) fun expanded hexpanded => ?_
          refine .pure fun l hl => ?_
          rcases List.mem_append.mp hl with hl | hl
          · split at hl
            · cases hl
            · rw [List.mem_singleton.mp hl]
              exact hG.labels hcall hline
          · exact hexpanded l hl

theorem of_expand {pool pool' : MacroPool} (bodies : pool.Bodies G) {line : TokenLine} (hline : G line)
    {expanded : Option (List TokenLine)} (h : pool.expand line = (.ok expanded, pool')) :
    ∀ l ∈ expanded.getD [line], G l :=
  hG.expandWithin bodies depthLimit hline pool.expansions expanded _ (Prod.ext (congrArg (·.1) h) rfl)

/-- **All lines that a unit leaves inherit the property from the lines of its text.** -/
theorem of_run {ds : Diagnostics} {pool : MacroPool} {current : Option Definition}
    {lines out : List TokenLine} (run : Run ds pool current lines out) (bodies : pool.Bodies G)
    (opened : ∀ d ∈ current, ∀ b ∈ d.body, G b) (hlines : ∀ l ∈ lines, G l) : ∀ l ∈ out, G l := by
  induction run with
  | done | unclosed => exact nofun
  | refused _ same rest ih =>
      exact ih (fun m hm => bodies m (same ▸ hm)) opened (List.forall_mem_cons.mp hlines).2
  | dropped _ _ rest ih => exact ih bodies nofun (List.forall_mem_cons.mp hlines).2
  | line handles rest ih =>
      obtain ⟨hline, hrest⟩ := List.forall_mem_cons.mp hlines
      cases handles with
      | opens starts formed =>
          refine ih bodies (fun d hd b hb => ?_) hrest
          rw [← Option.mem_some.mp hd, (of_ofHeader? formed).2] at hb
          cases hb
      | body plain =>
          refine ih bodies (fun d hd b hb => ?_) hrest
          rw [← Option.mem_some.mp hd] at hb
          exact (List.mem_cons.mp hb).elim (· ▸ hline) (opened _ rfl b)
      | closes starts closed =>
          -- the body of the new macro has been collected line by line, in reverse
          obtain ⟨m, hm, hmacros⟩ := macros_of_close closed
          refine ih (fun n hn => ?_) nofun hrest
          rcases List.mem_append.mp (hmacros ▸ hn) with hn | hn
          · exact bodies n hn
          · rw [List.mem_singleton.mp hn, (eq_of_ofDefinition hm).1]
            exact fun b hb => opened _ rfl b (List.mem_reverse.mp hb)
      | invokes plain expands =>
          have hlater := ih (fun m hm => bodies m (macros_expand expands ▸ hm)) nofun hrest
          exact fun l hl =>
            (List.mem_append.mp hl).elim (hG.of_expand bodies hline expands l) (hlater l)
      | stands plain expands =>
          have hlater := ih (fun m hm => bodies m (macros_expand expands ▸ hm)) nofun hrest
          exact List.forall_mem_cons.mpr ⟨hline, hlater⟩

theorem of_mem_expandUnit {lines : List TokenLine} (hlines : ∀ l ∈ lines, G l) :
    ∀ l ∈ (MacroPool.empty.expandUnit lines).lines, G l :=
  hG.of_run (run_expandFrom _ none lines (List.Subset.refl _)) nofun nofun hlines

end Heritable

/-- The macro was checked when it was defined. -/
def Checked (m : Macro) : Prop := ∀ p ∈ Macro.paramsUsed m.body, p ∈ m.params

/-- **All macros of a pool are checked.** -/
theorem checked_of_mem_expandFrom (pool : MacroPool) (current : Option Definition) (lines : List TokenLine)
    (h : ∀ m ∈ pool.macros, Checked m) : ∀ m ∈ (expandFrom pool current lines).pool.macros, Checked m := by
  fun_induction expandFrom pool current lines with
  | case1 => exact h
  | case2 _ _ _ _ _ _ _ ih | case3 _ _ _ _ _ _ _ _ ih | case4 _ _ _ _ _ _ _ ih
  | case5 _ _ _ _ _ _ ih | case7 _ _ _ _ _ _ _ _ _ ih | case8 _ _ _ _ _ _ ih => exact ih h
  | case6 _ _ _ _ _ _ _ pool' closed ih =>
      obtain ⟨m, hm, hmacros⟩ := macros_of_close closed
      refine ih fun n hn => ?_
      rcases List.mem_append.mp (hmacros ▸ hn) with hn | hn
      · exact h n hn
      · rw [List.mem_singleton.mp hn]
        obtain ⟨rfl, hchecked⟩ := eq_of_ofDefinition hm
        exact hchecked
  | case9 _ _ _ _ _ expands _ _ ih | case10 _ _ _ _ expands _ _ ih | case11 _ _ _ _ _ expands _ _ ih =>
      exact ih fun m hm => h m (macros_expand expands ▸ hm)

end MacroPool

end MipsLab
