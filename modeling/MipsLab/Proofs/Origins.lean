import MipsLab.Proofs.TracedExpansion

set_option autoImplicit false

/-!
# What expansions inherit

The lines that an expansion leaves are put together from those of the bodies of macros, so whatever lines of
bodies inherit from the line that invokes the macro, all lines of the expanded unit have
(`MacroPool.Inherited.traceFrom`). They inherit that origins are true: each name with an origin stands in the
body of the macro that was expanded under the serial number of its origin, and its text is what that
expansion made of it (`MacroPool.inherited_tracked`). Arguments may hand a name on to further expansions, but
none of them changes it again.
-/

namespace MipsLab

/-! ## Tokens of arguments -/

namespace Invocation

theorem mem_of_mem_tracedInner {tokens : List TracedToken} {t : TracedToken}
    (h : t ∈ tracedInner tokens) : t ∈ tokens := by
  unfold tracedInner at h
  split at h
  · split at h
    · exact List.mem_cons_of_mem _ ((List.dropLast_sublist _).mem h)
    · exact h
  · exact h

theorem mem_of_mem_tracedParts {tokens part : List TracedToken} {t : TracedToken}
    (hpart : part ∈ tracedParts tokens) (h : t ∈ part) : t ∈ tokens := by
  induction tokens generalizing part with
  | nil =>
      rw [List.mem_singleton.mp hpart] at h
      exact h
  | cons first rest ih =>
      unfold tracedParts at hpart
      split at hpart
      · rcases List.mem_cons.mp hpart with rfl | hpart
        · cases h
        · exact List.mem_cons_of_mem _ (ih hpart h)
      · split at hpart
        case h_1 part' parts hparts =>
          rcases List.mem_cons.mp hpart with rfl | hpart
          · rcases List.mem_cons.mp h with rfl | h
            · exact List.mem_cons_self
            · exact List.mem_cons_of_mem _ (ih (hparts ▸ List.mem_cons_self) h)
          · exact List.mem_cons_of_mem _ (ih (hparts ▸ List.mem_cons_of_mem _ hpart) h)
        case h_2 =>
          rw [List.mem_singleton.mp hpart] at h
          rw [List.mem_singleton.mp h]
          exact List.mem_cons_self

theorem mem_of_mem_tracedArguments {tokens part : List TracedToken} {t : TracedToken}
    (hpart : part ∈ tracedArguments tokens) (h : t ∈ part) : t ∈ tokens := by
  unfold tracedArguments at hpart
  split at hpart
  · cases hpart
  split at hpart
  · exact mem_of_mem_tracedParts hpart h
  split at hpart
  · obtain ⟨u, hu, rfl⟩ := List.mem_map.mp hpart
    rw [List.mem_singleton.mp h]
    exact hu
  · rw [List.mem_singleton.mp hpart] at h
    exact h

end Invocation

theorem TracedLine.mem_of_mem_arguments {line : TracedLine} {call : Invocation} {part : List TracedToken}
    {t : TracedToken} (hpart : part ∈ line.arguments call) (h : t ∈ part) : t ∈ line.tokens :=
  List.mem_of_mem_drop
    (Invocation.mem_of_mem_tracedInner (Invocation.mem_of_mem_tracedArguments hpart h))

/-! ## What is inherited -/

namespace MacroPool

/-- From the expansions in `log` on, the computation makes further ones, and whatever it results in has a
property, unless it fails. -/
def Traces {α : Type} (log : List Macro) (x : Tracing α) (post : List Macro → α → Prop) : Prop :=
  log <+: (x.run.run log).2 ∧ ∀ a, (x.run.run log).1 = .ok a → post (x.run.run log).2 a

namespace Traces

variable {α β : Type} {log : List Macro} {post : List Macro → α → Prop}
  {post' : List Macro → β → Prop}

theorem pure {a : α} (h : post log a) : Traces log (Pure.pure a) post := by
  refine ⟨List.prefix_rfl, fun b hb => ?_⟩
  cases hb
  exact h

theorem throw (e : MacroError) : Traces log (throw e : Tracing α) post :=
  ⟨List.prefix_rfl, fun _ h => nomatch h⟩

theorem bind {x : Tracing α} {f : α → Tracing β} (hx : Traces log x post)
    (hf : ∀ log' a, log <+: log' → post log' a → Traces log' (f a) post') :
    Traces log (x >>= f) post' := by
  obtain ⟨hgrows, hpost⟩ := hx
  unfold Traces
  rw [ExceptT.run_bind, StateT.run_bind]
  rcases hrun : x.run.run log with ⟨result, log'⟩
  rw [hrun] at hgrows hpost
  cases result with
  | ok a =>
      obtain ⟨hlater, h⟩ := hf log' a hgrows (hpost a rfl)
      exact ⟨hgrows.trans hlater, h⟩
  | error e => exact ⟨hgrows, fun _ h => nomatch h⟩

end Traces

/-- The property of lines, given the macros that were expanded so far, is inherited from a line of the source
text to all lines that stand for it in the end. -/
structure Inherited (P : List Macro → TracedLine → Prop) : Prop where
  ofLine : ∀ log line, P log (.ofLine line)
  later : ∀ {log log' line}, P log line → log <+: log' → P log' line
  labels : ∀ {log line call}, Invocation.ofTokens? line.erase.tokens = some call → P log line →
    P log ⟨line.source, line.invokedLabels call⟩
  body : ∀ {log line} {m : Macro} {b} (call), b ∈ m.body → P log line →
    P (log ++ [m]) (m.traceLine line.source call (line.arguments call) log.length b)

namespace Inherited

variable {P : List Macro → TracedLine → Prop} (hP : Inherited P)
include hP

theorem traceAll {traceLine : TracedLine → Tracing (Option (List TracedLine))}
    (h : ∀ log line, P log line →
      Traces log (traceLine line) fun log' expanded => ∀ l ∈ expanded.getD [line], P log' l)
    {log : List Macro} {lines : List TracedLine} (hlines : ∀ l ∈ lines, P log l) :
    Traces log (traceAll traceLine lines) fun log' expanded => ∀ l ∈ expanded, P log' l := by
  induction lines generalizing log with
  | nil => exact .pure (fun _ h => nomatch h)
  | cons line rest ih =>
      obtain ⟨hline, hrest⟩ := List.forall_mem_cons.mp hlines
      refine (h log line hline).bind fun log₁ expanded hlog₁ hexpanded => ?_
      refine (ih fun l hl => hP.later (hrest l hl) hlog₁).bind fun log₂ others hlog₂ hothers => ?_
      refine .pure fun l hl => ?_
      rcases List.mem_append.mp hl with hl | hl
      · exact hP.later (hexpanded l hl) hlog₂
      · exact hothers l hl

/-- The lines of an expansion inherit the property. -/
theorem traceWithin (pool : MacroPool) (depth : Nat) (log : List Macro) (line : TracedLine)
    (h : P log line) :
    Traces log (pool.traceWithin depth line) fun log' expanded =>
      ∀ l ∈ expanded.getD [line], P log' l := by
  have hnone {log : List Macro} {line : TracedLine} (h : P log line) :
      Traces log (Pure.pure none) fun log' expanded =>
        ∀ l ∈ Option.getD expanded [line], P log' l :=
    .pure fun l hl => by rwa [List.mem_singleton.mp hl]
  induction depth generalizing log line with
  | zero =>
      unfold MacroPool.traceWithin
      split
      · exact hnone h
      split
      · exact hnone h
      · exact .throw _
  | succ d ih =>
      unfold MacroPool.traceWithin
      split
      · exact hnone h
      next call hcall =>
        split
        · exact hnone h
        next m _ =>
          have hcount : Traces log (getModify (· ++ [m]) : Tracing (List Macro)) fun log₁ before =>
              before = log ∧ log₁ = log ++ [m] := by
            refine ⟨List.prefix_append _ _, fun a ha => ?_⟩
            cases ha
            exact ⟨rfl, rfl⟩
          refine hcount.bind fun log₁ before hlog₁ hbefore => ?_
          obtain ⟨rfl, rfl⟩ := hbefore
          -- the body is traced for the macro that has just been logged, under its number
          have hbody : ∀ l ∈ m.body.map
              (m.traceLine line.source call (line.arguments call) before.length),
              P (before ++ [m]) l := by
            intro l hl
            obtain ⟨b, hb, rfl⟩ := List.mem_map.mp hl
            exact hP.body call hb h
          refine (hP.traceAll ih hbody).bind fun log₂ expanded hlog₂ hexpanded => .pure fun l hl => ?_
          -- a line with the labels of the invocation, or one of those that the body leaves
          rcases List.mem_append.mp hl with hl | hl
          · split at hl
            · cases hl
            · rw [List.mem_singleton.mp hl]
              exact hP.later (hP.labels hcall h) (hlog₁.trans hlog₂)
          · exact hexpanded l hl

theorem traceTopLine (pool : MacroPool) (log : List Macro) (line : TokenLine) :
    log <+: (pool.traceTopLine log line).log ∧
      ∀ l ∈ (pool.traceTopLine log line).lines, P (pool.traceTopLine log line).log l := by
  obtain ⟨hgrows, hlines⟩ := hP.traceWithin pool depthLimit log (.ofLine line) (hP.ofLine log line)
  unfold MacroPool.traceTopLine
  rcases hrun : (pool.traceWithin depthLimit (.ofLine line)).run.run log with
    ⟨e | _ | lines, log'⟩ <;> rw [hrun] at hgrows hlines
  · exact ⟨hgrows, fun _ h => nomatch h⟩
  · exact ⟨hgrows, hlines none rfl⟩
  · exact ⟨hgrows, hlines (some lines) rfl⟩

/-- **All lines of an expanded unit have what is inherited.** -/
theorem traceFrom (pool : MacroPool) (current : Option Definition) (log : List Macro)
    (lines : List TokenLine) :
    log <+: (traceFrom pool current log lines).log ∧
      ∀ l ∈ (traceFrom pool current log lines).lines,
        P (traceFrom pool current log lines).log l := by
  fun_induction MacroPool.traceFrom pool current log lines with
  | case1 => exact ⟨List.prefix_rfl, fun _ h => nomatch h⟩
  | case8 pool log line rest _ _ first later ih =>
      obtain ⟨hgrows, hlines⟩ := hP.traceTopLine pool log line
      obtain ⟨hlater, hrest⟩ := ih
      refine ⟨hgrows.trans hlater, fun l hl => ?_⟩
      rcases List.mem_append.mp hl with hl | hl
      · exact hP.later (hlines l hl) hlater
      · exact hrest l hl
  | _ => assumption

end Inherited

end MacroPool

/-! ## Origins -/

/-- The names that stand in the body of a macro. -/
def Macro.names (m : Macro) : List String :=
  m.body.flatMap fun line => (namesIn line.tokens).map (·.1)

/-- What becomes of a name in an expansion of the macro that it was written in: it is renamed if it stands
where the lines of the body have their labels. -/
def Macro.nameIn (m : Macro) (o : Origin) : String :=
  if m.labels.contains o.text then freshLabel o.text o.serial else o.text

/-- The origin of the token, if it has one, is true: the name stands in the body of the macro that was
expanded then, and the token is what became of it. -/
def TracedToken.Tracked (log : List Macro) (t : TracedToken) : Prop :=
  ∀ o, t.origin = some o →
    ∃ m, log[o.serial]? = some m ∧ o.text ∈ m.names ∧ t.located.token = .name (m.nameIn o)

/-- All origins on the line are true. -/
def TracedLine.Tracked (log : List Macro) (line : TracedLine) : Prop :=
  ∀ t ∈ line.tokens, t.Tracked log

theorem TracedLine.tracked_ofLine (log : List Macro) (line : TokenLine) :
    (ofLine line).Tracked log := by
  intro t ht o ho
  obtain ⟨u, -, rfl⟩ := List.mem_map.mp ht
  cases ho

section Tracked

variable {log log' : List Macro}

theorem TracedToken.Tracked.mono {t : TracedToken} (h : t.Tracked log) (later : log <+: log') :
    t.Tracked log' := by
  obtain ⟨more, rfl⟩ := later
  intro o ho
  obtain ⟨m, hm, hname⟩ := h o ho
  exact ⟨m, List.getElem?_append_left (List.getElem?_eq_some_iff.mp hm).1 ▸ hm, hname⟩

theorem TracedLine.Tracked.mono {line : TracedLine} (h : line.Tracked log) (later : log <+: log') :
    line.Tracked log' := fun t ht => (h t ht).mono later

theorem Macro.traceToken_name (m : Macro) (call : Invocation)
    (arguments : List (List TracedToken)) (serial : Nat) (text : String) :
    m.traceToken call arguments serial (.name text) =
      [⟨⟨.name (m.nameIn ⟨serial, text⟩), call.span⟩, some ⟨serial, text⟩⟩] := by
  unfold traceToken instantiateToken nameIn
  dsimp only
  split <;> rfl

/-- A line of the body has true origins in an expansion whose arguments have. -/
theorem Macro.tracked_traceLine {m : Macro} {source : SourceLine} {call : Invocation}
    {arguments : List (List TracedToken)} {serial : Nat} {line : TokenLine} (hline : line ∈ m.body)
    (expanded : log[serial]? = some m)
    (tracked : ∀ part ∈ arguments, ∀ t ∈ part, t.Tracked log) :
    (m.traceLine source call arguments serial line).Tracked log := by
  intro t ht o ho
  obtain ⟨u, hu, ht⟩ := List.mem_flatMap.mp ht
  cases htoken : u.token with
  | name text =>
      rw [htoken, traceToken_name] at ht
      rw [List.mem_singleton.mp ht] at ho ⊢
      cases ho
      have hname : text ∈ m.names := by
        refine List.mem_flatMap.mpr ⟨line, hline, List.mem_map.mpr ⟨(text, u.span), ?_, rfl⟩⟩
        exact List.mem_filterMap.mpr ⟨u, hu, by rw [htoken]⟩
      exact ⟨m, expanded, hname, rfl⟩
  | param p =>
      rw [htoken] at ht
      obtain ⟨v, hv, rfl⟩ := List.mem_map.mp ht
      cases hpart : arguments[m.params.idxOf p]? with
      | none =>
          rw [hpart] at hv
          cases hv
      | some part =>
          rw [hpart] at hv
          exact tracked part (List.mem_of_getElem? hpart) v hv o ho
  | _ =>
      rw [htoken] at ht
      rw [List.mem_singleton.mp ht] at ho
      cases ho

end Tracked

/-- True origins are inherited. -/
theorem MacroPool.inherited_tracked : Inherited fun log line => line.Tracked log where
  ofLine := TracedLine.tracked_ofLine
  later := TracedLine.Tracked.mono
  labels := fun _ h t ht => h t (List.mem_of_mem_take ht)
  body := by
    intro log line m b call hb h
    refine Macro.tracked_traceLine hb List.getElem?_concat_length fun part hpart t ht => ?_
    exact (h t (TracedLine.mem_of_mem_arguments hpart ht)).mono (List.prefix_append _ _)

end MipsLab
