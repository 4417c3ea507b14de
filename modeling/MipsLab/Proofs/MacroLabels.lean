import MipsLab.Proofs.Origins
import MipsLab.SourceUnit

set_option autoImplicit false

/-!
# Labels of macro bodies

A label that is written in the body of a macro is renamed in each expansion if the name stands where a
line of the body has its labels. Labels that were renamed in different expansions differ
(`Macro.serial_of_freshLabel`). If no parameter can change the labels of a body, then all labels of the
expansions are renamed (`MacroPool.inherited_renamed`). But a name that becomes a label only after the
parameters in front of it have been replaced, or after it was handed to another macro, is not renamed, and is
the same label in each expansion (`MacroPool.body_labels`).
-/

namespace MipsLab

/-! ## Renamed labels -/

theorem toList_freshLabel (label : String) (serial : Nat) :
    (Macro.freshLabel label serial).toList =
      label.toList ++ ['_', 'M'] ++ Nat.toDigits 10 serial := by
  unfold Macro.freshLabel Numeral.nat
  rw [String.toList_append, String.toList_append, String.toList_ofList]
  simp

/-- The digits at the end of a renamed label are those of the serial number. -/
theorem digits_freshLabel (label : String) (serial : Nat) :
    (Macro.freshLabel label serial).toList.reverse.takeWhile Char.isDigit =
      (Nat.toDigits 10 serial).reverse := by
  have hdigits : ∀ c ∈ (Nat.toDigits 10 serial).reverse, c.isDigit = true := fun c hc =>
    Nat.isDigit_of_mem_toDigits (by decide) (by decide) (List.mem_reverse.mp hc)
  rw [toList_freshLabel, List.reverse_append, List.takeWhile_append_of_pos hdigits,
    List.reverse_append]
  exact List.append_nil _

/-- Labels renamed in different expansions differ. -/
theorem Macro.serial_of_freshLabel {a b : String} {i j : Nat}
    (h : freshLabel a i = freshLabel b j) : i = j := by
  have hdigits : Nat.toDigits 10 i = Nat.toDigits 10 j := by
    rw [← List.reverse_inj, ← digits_freshLabel a i, h, digits_freshLabel]
  calc i = Nat.ofDigitChars 10 (Nat.toDigits 10 i) 0 := Nat.ofDigitChars_ten_toDigits.symm
    _ = Nat.ofDigitChars 10 (Nat.toDigits 10 j) 0 := by rw [hdigits]
    _ = j := Nat.ofDigitChars_ten_toDigits

/-! ## Labels of traced lines -/

/-- The labels of a statement are the names at the start of its line that a colon follows. -/
theorem Statement.labels_of_ofTokens {tokens : List LocatedToken} {s : Statement}
    (h : ofTokens tokens = .ok s) : s.labels = namesIn (splitLabels tokens).1 := by
  unfold ofTokens at h
  split at h
  case h_1 =>
    cases h
    rfl
  case h_2 first others _ =>
    cases hoperands : operands others with
    | error e =>
        rw [hoperands] at h
        cases h
    | ok ops =>
        rw [hoperands] at h
        dsimp only [bind, Except.bind] at h
        split at h <;> cases h <;> rfl

/-- The labels at the start of some tokens, with their origins. -/
def labelsOf : List TracedToken → List (String × Option Origin)
  | ⟨⟨.name text, _⟩, origin⟩ :: ⟨⟨.colon, _⟩, _⟩ :: rest => (text, origin) :: labelsOf rest
  | _ => []

/-- The labels of traced tokens are those of the tokens. -/
theorem map_fst_labelsOf (tokens : List TracedToken) :
    (labelsOf tokens).map (·.1) =
      (namesIn (splitLabels (tokens.map (·.located))).1).map (·.1) := by
  fun_induction labelsOf tokens with
  | case1 text span origin colonSpan colonOrigin rest ih =>
      rw [List.map_cons, ih]
      rfl
  | case2 tokens unlabelled =>
      have hnone : (splitLabels (tokens.map (·.located))).1 = [] := by
        unfold splitLabels
        split
        case h_1 text span colonSpan rest h =>
          obtain ⟨⟨_, origin⟩, others, rfl, rfl, hothers⟩ := List.map_eq_cons_iff.mp h
          obtain ⟨⟨_, colonOrigin⟩, rest, rfl, rfl, -⟩ := List.map_eq_cons_iff.mp hothers
          exact (unlabelled text span origin colonSpan colonOrigin rest rfl).elim
        case h_2 => rfl
      rw [hnone]
      rfl

theorem exists_of_mem_labelsOf {tokens : List TracedToken} {x : String} {o : Option Origin}
    (h : (x, o) ∈ labelsOf tokens) : ∃ t ∈ tokens, t.located.token = .name x ∧ t.origin = o := by
  fun_induction labelsOf tokens with
  | case1 text span origin colonSpan colonOrigin rest ih =>
      rcases List.mem_cons.mp h with h | h
      · obtain ⟨rfl, rfl⟩ := Prod.mk.inj h
        exact ⟨_, List.mem_cons_self, rfl, rfl⟩
      · obtain ⟨t, ht, hname⟩ := ih h
        exact ⟨t, List.mem_cons_of_mem _ (List.mem_cons_of_mem _ ht), hname⟩
  | case2 => cases h

namespace TracedLine

/-- The labels of a line, with their origins. -/
def labels (line : TracedLine) : List (String × Option Origin) := labelsOf line.tokens

/-- The statement on a traced line has the labels of the line. -/
theorem map_fst_labels {line : TracedLine} {s : Statement}
    (h : Statement.ofTokens line.erase.tokens = .ok s) :
    s.labels.map (·.1) = line.labels.map (·.1) := by
  rw [Statement.labels_of_ofTokens h]
  exact (map_fst_labelsOf line.tokens).symm

/-- The origin of a label of a line with true origins. -/
theorem Tracked.of_mem_labels {log : List Macro} {line : TracedLine} (h : line.Tracked log)
    {x : String} {o : Origin} (hx : (x, some o) ∈ line.labels) :
    ∃ m, log[o.serial]? = some m ∧ o.text ∈ m.names ∧ x = m.nameIn o := by
  obtain ⟨t, ht, hname, horigin⟩ := exists_of_mem_labelsOf hx
  obtain ⟨m, hm, hwritten, htoken⟩ := h t ht o horigin
  rw [hname] at htoken
  exact ⟨m, hm, hwritten, Token.name.inj htoken⟩

end TracedLine

/-! ## Labels that parameters cannot change -/

/-- Whether the labels at the start of some tokens stay the labels whatever stands for the parameters. They
may not if there is a parameter right behind them, or behind the name that follows them, since its argument
may begin with a colon. -/
def fixesLabels (tokens : List LocatedToken) : Bool :=
  match (splitLabels tokens).2 with
  | ⟨.param _, _⟩ :: _ => false
  | ⟨.name _, _⟩ :: ⟨.param _, _⟩ :: _ => false
  | _ => true

/-- Every line of the body has labels that parameters cannot change. -/
def Macro.FixesLabels (m : Macro) : Prop := ∀ line ∈ m.body, fixesLabels line.tokens = true

theorem labelsOf_take_subset (tokens : List TracedToken) (n : Nat) :
    labelsOf (tokens.take n) ⊆ labelsOf tokens := by
  fun_induction labelsOf tokens generalizing n with
  | case1 text span origin colonSpan colonOrigin rest ih =>
      match n with
      | 0 => exact List.nil_subset _
      | 1 => exact List.nil_subset _
      | n + 2 => exact List.cons_subset_cons _ (ih n)
  | case2 tokens unlabelled =>
      have hnone : labelsOf (tokens.take n) = [] := by
        unfold labelsOf
        split
        case h_1 text span origin colonSpan colonOrigin rest h =>
          have htokens := (List.take_append_drop n tokens).symm
          rw [h] at htokens
          exact (unlabelled text span origin colonSpan colonOrigin _ htokens).elim
        case h_2 => rfl
      rw [hnone]
      exact List.nil_subset _

/-- If the labels of a line of the body are fixed, then they are the labels in each expansion. -/
theorem Macro.mem_labels_of_fixes {m : Macro} {call : Invocation}
    {arguments : List (List TracedToken)} {serial : Nat} {tokens : List LocatedToken}
    (fixes : fixesLabels tokens = true) {x : String} {o : Option Origin}
    (h : (x, o) ∈ labelsOf (tokens.flatMap fun t => m.traceToken call arguments serial t.token)) :
    ∃ a ∈ namesIn (splitLabels tokens).1, o = some ⟨serial, a.1⟩ := by
  unfold fixesLabels at fixes
  fun_induction splitLabels tokens with
  | case1 text span colonSpan rest labels others hrest ih =>
      rw [hrest] at ih
      rw [List.flatMap_cons, Macro.traceToken_name] at h
      rcases List.mem_cons.mp h with h | h
      · cases h
        exact ⟨_, List.mem_cons_self, rfl⟩
      · obtain ⟨a, ha, ho⟩ := ih fixes h
        exact ⟨a, List.mem_cons_of_mem _ ha, ho⟩
  | case2 tokens unlabelled =>
      -- nothing that stands in front can become a label
      exfalso
      cases tokens with
      | nil => cases h
      | cons t rest =>
          obtain ⟨token, span⟩ := t
          cases token with
          | param p => cases fixes
          | name text =>
              rw [List.flatMap_cons, Macro.traceToken_name] at h
              cases rest with
              | nil => cases h
              | cons u others =>
                  obtain ⟨next, nextSpan⟩ := u
                  cases next with
                  | param p => cases fixes
                  | colon => exact unlabelled _ _ _ _ rfl
                  | name other =>
                      rw [List.flatMap_cons, Macro.traceToken_name] at h
                      cases h
                  | _ => cases h
          | _ => cases h

/-- The names that became labels of the line stand where the bodies they were written in have their
labels. -/
def TracedLine.Renamed (log : List Macro) (line : TracedLine) : Prop :=
  ∀ x o, (x, some o) ∈ line.labels → ∃ m, log[o.serial]? = some m ∧ o.text ∈ m.labels

/-- If the labels of all bodies are fixed, then it is inherited that all labels are renamed. -/
theorem MacroPool.inherited_renamed :
    Inherited fun log line => (∀ m ∈ log, m.FixesLabels) → line.Renamed log where
  ofLine := by
    intro log line _ x o hx
    obtain ⟨t, ht, -, horigin⟩ := exists_of_mem_labelsOf hx
    obtain ⟨u, -, rfl⟩ := List.mem_map.mp ht
    cases horigin
  later := by
    rintro log _ line h ⟨more, rfl⟩ fixes x o hx
    obtain ⟨m, hm, htext⟩ := h (fun m hm => fixes m (List.mem_append_left _ hm)) x o hx
    exact ⟨m, List.getElem?_append_left (List.getElem?_eq_some_iff.mp hm).1 ▸ hm, htext⟩
  labels := fun _ h fixes x o hx => h fixes x o (labelsOf_take_subset _ _ hx)
  body := by
    intro log line m b call hb _ fixes x o hx
    have hm : m ∈ log ++ [m] := List.mem_append_right _ List.mem_cons_self
    obtain ⟨a, ha, ho⟩ := Macro.mem_labels_of_fixes (fixes m hm b hb) hx
    cases ho
    refine ⟨m, List.getElem?_concat_length, ?_⟩
    exact List.mem_flatMap.mpr ⟨b, hb, List.mem_map.mpr ⟨a, ha, rfl⟩⟩

/-! ## Labels of different expansions -/

/-- The label stands on a line that the expansion of a unit leaves, and it was written as a name in the body
of `m`, the macro of the expansion that its origin tells. -/
structure MacroPool.Trace.BodyLabel (t : MacroPool.Trace) (m : Macro) (o : Origin) (x : String) :
    Prop where
  found : ∃ line ∈ t.lines, (x, some o) ∈ line.labels
  expanded : t.log[o.serial]? = some m

namespace MacroPool

/-- **A label that was written in the body of a macro is renamed in each expansion if its name stands at the
start of a line of the body, and only then.** Renamed labels of different expansions differ, and so do all
labels if the labels of all bodies are fixed. Labels that are not renamed are the same in all
expansions. -/
theorem body_labels (lines : List TokenLine) :
    let t := traceUnit lines
    let e := MacroPool.empty.expandUnit lines
    t.lines.map (·.erase) = e.lines ∧ t.log.length = e.pool.expansions ∧
      (∀ line ∈ t.lines, ∀ s, Statement.ofTokens line.erase.tokens = .ok s →
        s.labels.map (·.1) = line.labels.map (·.1)) ∧
      (∀ line ∈ t.lines, ∀ x o, (x, some o) ∈ line.labels →
        ∃ m, t.log[o.serial]? = some m ∧ o.text ∈ m.names ∧
          x = if o.text ∈ m.labels then Macro.freshLabel o.text o.serial else o.text) ∧
      ∀ m m' o o' x y, t.BodyLabel m o x → t.BodyLabel m' o' y → o.serial ≠ o'.serial →
        (o.text ∈ m.labels → o'.text ∈ m'.labels → x ≠ y) ∧
          ((∀ k ∈ t.log, k.FixesLabels) → x ≠ y) ∧
          (o.text ∉ m.labels → o'.text ∉ m'.labels → (x = y ↔ o.text = o'.text)) := by
  intro t e
  obtain ⟨hlines, hcount⟩ := erase_traceUnit lines
  have htracked := (inherited_tracked.traceFrom .empty none [] lines).2
  have hrenamed := (inherited_renamed.traceFrom .empty none [] lines).2
  have horigin : ∀ line ∈ t.lines, ∀ x o, (x, some o) ∈ line.labels →
      ∃ m, t.log[o.serial]? = some m ∧ o.text ∈ m.names ∧
        x = if o.text ∈ m.labels then Macro.freshLabel o.text o.serial else o.text := by
    intro line hline x o hx
    obtain ⟨m, hm, hwritten, hname⟩ := (htracked line hline).of_mem_labels hx
    refine ⟨m, hm, hwritten, ?_⟩
    rw [hname, Macro.nameIn]
    simp only [List.contains_iff_mem]
  -- the macro of a label's origin is the only one that was expanded under its serial number
  have hbody {m : Macro} {o : Origin} {x : String} (h : t.BodyLabel m o x) :
      (x = if o.text ∈ m.labels then Macro.freshLabel o.text o.serial else o.text) ∧
        ((∀ k ∈ t.log, k.FixesLabels) → o.text ∈ m.labels) := by
    obtain ⟨⟨line, hline, hlabel⟩, hexpanded⟩ := h
    refine ⟨?_, fun fixes => ?_⟩
    · obtain ⟨k, hk, -, hname⟩ := horigin line hline x o hlabel
      obtain rfl : k = m := Option.some.inj (hk.symm.trans hexpanded)
      exact hname
    · obtain ⟨k, hk, htext⟩ := hrenamed line hline fixes x o hlabel
      obtain rfl : k = m := Option.some.inj (hk.symm.trans hexpanded)
      exact htext
  refine ⟨hlines, hcount, fun line _ s hs => TracedLine.map_fst_labels hs, horigin, ?_⟩
  intro m m' o o' x y hx hy apart
  obtain ⟨hname, hfixed⟩ := hbody hx
  obtain ⟨hname', hfixed'⟩ := hbody hy
  have hne : o.text ∈ m.labels → o'.text ∈ m'.labels → x ≠ y := by
    intro hm hm' hxy
    rw [if_pos hm] at hname
    rw [if_pos hm'] at hname'
    exact apart (Macro.serial_of_freshLabel (hname.symm.trans (hxy.trans hname')))
  refine ⟨hne, fun fixes => hne (hfixed fixes) (hfixed' fixes), fun hm hm' => ?_⟩
  rw [hname, hname', if_neg hm, if_neg hm']

/-- A macro is expanded twice. The label that starts a line of its body is renamed, and the label behind a
parameter is not. -/
theorem body_labels_behindParameter :
    let text := ".macro m %l\n%l: inner: nop\nspin: nop\n.end_macro\nm a\nm b"
    let t := traceUnit (SourceUnit.readLines [] (SourceLine.ofText "a.s" text)).1
    ∃ m m', t.BodyLabel m ⟨0, "spin"⟩ "spin_M0" ∧ t.BodyLabel m' ⟨1, "spin"⟩ "spin_M1" ∧
      "spin" ∈ m.labels ∧ "spin" ∈ m'.labels ∧ "spin_M0" ≠ "spin_M1" ∧
      t.BodyLabel m ⟨0, "inner"⟩ "inner" ∧ t.BodyLabel m' ⟨1, "inner"⟩ "inner" := by
  intro text t
  have hrun : t.lines.map (·.labels) =
        [[("a", none), ("inner", some ⟨0, "inner"⟩)], [("spin_M0", some ⟨0, "spin"⟩)],
          [("b", none), ("inner", some ⟨1, "inner"⟩)], [("spin_M1", some ⟨1, "spin"⟩)]] ∧
      t.log.map (·.labels) = [["spin"], ["spin"]] := by decide +kernel
  obtain ⟨hlabels, hlog⟩ := hrun
  obtain ⟨m, rest, hm, hspin, hrest⟩ := List.map_eq_cons_iff.mp hlog
  obtain ⟨m', _, rfl, hspin', -⟩ := List.map_eq_cons_iff.mp hrest
  have hspin : "spin" ∈ m.labels := by rw [hspin]; exact List.mem_cons_self
  have hspin' : "spin" ∈ m'.labels := by rw [hspin']; exact List.mem_cons_self
  have hfound (labels : List (String × Option Origin)) (h : labels ∈ t.lines.map (·.labels))
      (x : String) (o : Origin) (hx : (x, some o) ∈ labels) :
      ∃ line ∈ t.lines, (x, some o) ∈ line.labels := by
    obtain ⟨line, hline, rfl⟩ := List.mem_map.mp h
    exact ⟨line, hline, hx⟩
  rw [hlabels] at hfound
  have hfirst : t.log[0]? = some m := by rw [hm]; rfl
  have hsecond : t.log[1]? = some m' := by rw [hm]; rfl
  have hx : t.BodyLabel m ⟨0, "spin"⟩ "spin_M0" :=
    ⟨hfound [("spin_M0", some ⟨0, "spin"⟩)] (by simp) _ _ (by simp), hfirst⟩
  have hy : t.BodyLabel m' ⟨1, "spin"⟩ "spin_M1" :=
    ⟨hfound [("spin_M1", some ⟨1, "spin"⟩)] (by simp) _ _ (by simp), hsecond⟩
  obtain ⟨-, -, -, -, hapart⟩ :=
    body_labels (SourceUnit.readLines [] (SourceLine.ofText "a.s" text)).1
  refine ⟨m, m', hx, hy, hspin, hspin', ?_, ⟨?_, hfirst⟩, ⟨?_, hsecond⟩⟩
  · exact (hapart m m' _ _ _ _ hx hy (by decide)).1 hspin hspin'
  · exact hfound [("a", none), ("inner", some ⟨0, "inner"⟩)] (by simp) _ _ (by simp)
  · exact hfound [("b", none), ("inner", some ⟨1, "inner"⟩)] (by simp) _ _ (by simp)

end MacroPool

end MipsLab
