import MipsLab.Proofs.Reading
import MipsLab.Proofs.TokenSpans

set_option autoImplicit false

/-!
# The values of constants

The value of a constant is looked up when it is defined, and put in for the name without another look at it. If no
value names the constant itself or one that is defined later, this comes to the full replacement of all names
(`Replaces`): no name that has a value is left in any line after its definition (`SourceUnit.tokenize_constants`).
What carries this through a unit is that each constant stands for the full replacement of its value, and that later
definitions do not change it (`Constants.Resolved`).
-/

namespace MipsLab

/-! ## Definitions -/

namespace TokenLine

/-- The line is a definition. -/
def IsDefinition (raw : List LocatedToken) : Prop := ∃ directive rest, raw = ⟨.directive "eqv", directive⟩ :: rest

/-- The name that a line defines, and its value as it is written. -/
def definition? (source : SourceLine) : Option (String × List Token) :=
  match tokensOf source.text.toList with
  | .ok (⟨.directive "eqv", _⟩ :: ⟨.name name, _⟩ :: value) => some (name, value.map (·.token))
  | _ => none

/-- The values of some lines name no constant that is defined on the same line or on a later one. -/
def Ordered (lines : List SourceLine) : Prop :=
  (∀ l ∈ lines, ∀ d ∈ definition? l, Token.name d.1 ∉ d.2) ∧
    lines.Pairwise fun l later => ∀ d ∈ definition? l, ∀ e ∈ definition? later, Token.name e.1 ∉ d.2

instance (lines : List SourceLine) : Decidable (Ordered lines) := inferInstanceAs (Decidable (_ ∧ _))

/-- The definitions on some lines, as they are written. -/
def DefinedIn (lines : List SourceLine) (name : String) (value : List Token) : Prop :=
  ∃ l ∈ lines, definition? l = some (name, value)

theorem definedIn_append_iff {lines : List SourceLine} {source : SourceLine} {name : String} {value : List Token} :
    DefinedIn (lines ++ [source]) name value ↔
      DefinedIn lines name value ∨ definition? source = some (name, value) := by
  simp [DefinedIn, or_and_right, exists_or]

end TokenLine

/-! ## Full replacement -/

/-- Some tokens with each name that has a value replaced by its value, in which all names are replaced in turn. -/
inductive Replaces (D : String → List Token → Prop) : List Token → List Token → Prop
  | nil : Replaces D [] []
  | kept {t : Token} {ts us : List Token} (ht : ∀ name value, D name value → t ≠ .name name)
      (h : Replaces D ts us) : Replaces D (t :: ts) (t :: us)
  | replaced {name : String} {value vs ts us : List Token} (hd : D name value) (hv : Replaces D value vs)
      (h : Replaces D ts us) : Replaces D (.name name :: ts) (vs ++ us)

namespace Replaces

variable {D : String → List Token → Prop} {ts us : List Token}

/-- **No name that has a value is left.** -/
theorem resolved (h : Replaces D ts us) {name : String} {value : List Token} (hd : D name value) :
    Token.name name ∉ us := by
  induction h with
  | nil => exact List.not_mem_nil
  | kept ht _ ih => exact List.not_mem_cons_of_ne_of_not_mem (ht name value hd).symm ih
  | replaced _ _ _ ihv ih =>
      intro hmem
      rcases List.mem_append.mp hmem with hmem | hmem
      · exact ihv hmem
      · exact ih hmem

/-- The replacement is determined by the tokens, if each name has one value. -/
theorem unique (functional : ∀ name v w, D name v → D name w → v = w) (h : Replaces D ts us) {vs : List Token}
    (h' : Replaces D ts vs) : us = vs := by
  induction h generalizing vs with
  | nil =>
      cases h'
      rfl
  | kept ht _ ih =>
      cases h' with
      | kept _ h' => rw [ih h']
      | replaced hd _ _ => exact absurd rfl (ht _ _ hd)
  | replaced hd _ _ ihv ih =>
      cases h' with
      | kept ht _ => exact absurd rfl (ht _ _ hd)
      | replaced hd' hv' h' =>
          cases functional _ _ _ hd hd'
          rw [ihv hv', ih h']

/-- A new definition does not matter where its name is not used, neither in the tokens nor in values. -/
theorem extend {E : String → List Token → Prop} {new : String} (hDE : ∀ name value, D name value → E name value)
    (hED : ∀ name value, E name value → D name value ∨ name = new)
    (hvalues : ∀ name value, D name value → Token.name new ∉ value) (h : Replaces D ts us)
    (hts : Token.name new ∉ ts) : Replaces E ts us := by
  induction h with
  | nil => exact .nil
  | @kept t ts us ht _ ih =>
      refine .kept (fun name value hE => ?_) (ih (List.not_mem_of_not_mem_cons hts))
      rcases hED name value hE with hD | rfl
      · exact ht name value hD
      · exact (List.ne_of_not_mem_cons hts).symm
  | @replaced name value vs ts us hd _ _ ihv ih =>
      exact .replaced (hDE _ _ hd) (ihv (hvalues _ _ hd)) (ih (List.not_mem_of_not_mem_cons hts))

end Replaces

/-! ## Constants -/

namespace Constants

variable {D : String → List Token → Prop} {constants : Constants}

/-- Each constant stands for the full replacement of its value. -/
structure Resolved (D : String → List Token → Prop) (constants : Constants) : Prop where
  functional : ∀ name v w, D name v → D name w → v = w
  value : ∀ name value, D name value → ∃ us, constants.lookup name = some us ∧ Replaces D value us
  defined : ∀ name us, constants.lookup name = some us → ∃ value, D name value

theorem Resolved.not_defined (h : Resolved D constants) {name : String} (hname : constants.lookup name = none)
    (value : List Token) : ¬ D name value := by
  intro hd
  obtain ⟨us, hsome, -⟩ := h.value _ _ hd
  rw [hname] at hsome
  cases hsome

/-- Putting in constants is full replacement. -/
theorem Resolved.replaces (h : Resolved D constants) (ts : List Token) :
    Replaces D ts (ts.flatMap constants.replace) := by
  induction ts with
  | nil => exact .nil
  | cons t ts ih =>
      rw [List.flatMap_cons]
      have hkept (ht : constants.replace t = [t]) (hundefined : ∀ name value, D name value → t ≠ .name name) :
          Replaces D (t :: ts) (constants.replace t ++ ts.flatMap constants.replace) := by
        rw [ht]
        exact .kept hundefined ih
      cases t with
      | name name =>
          cases hlookup : constants.lookup name with
          | none =>
              refine hkept (by simp [replace, hlookup]) ?_
              rintro _ value hd ⟨⟩
              exact h.not_defined hlookup value hd
          | some us =>
              obtain ⟨value, hd⟩ := h.defined _ _ hlookup
              obtain ⟨us', hsome, hvalue⟩ := h.value _ _ hd
              rw [hlookup] at hsome
              cases hsome
              have hreplace : constants.replace (.name name) = us := by simp [replace, hlookup]
              rw [hreplace]
              exact .replaced hd hvalue ih
      | _ => exact hkept rfl fun _ _ _ => nofun

/-- A definition that is accepted. -/
theorem of_define {directive : Span} {definition : List LocatedToken} {constants' : Constants}
    (h : constants.define directive definition = .ok constants') :
    ∃ name place value, definition = ⟨.name name, place⟩ :: value ∧ constants.lookup name = none ∧
      constants' = (name, (value.map (·.token)).flatMap constants.replace) :: constants := by
  unfold define at h
  split at h
  case h_1 name place first value =>
    split at h
    case isTrue => cases h
    case isFalse hnone =>
      cases h
      refine ⟨name, place, first :: value, rfl, Option.not_isSome_iff_eq_none.mp hnone, ?_⟩
      rw [List.flatMap_map]
  case h_2 => cases h

/-- **Later definitions keep this**, if no earlier value uses their name and they do not use it themselves. -/
theorem Resolved.cons (h : Resolved D constants) {E : String → List Token → Prop} {name : String}
    {value : List Token} (hE : ∀ n v, E n v ↔ D n v ∨ (n = name ∧ v = value))
    (fresh : constants.lookup name = none) (hself : Token.name name ∉ value)
    (hvalues : ∀ n v, D n v → Token.name name ∉ v) :
    Resolved E ((name, value.flatMap constants.replace) :: constants) := by
  have hnew := h.not_defined fresh
  have hextend {ts us : List Token} (hts : Token.name name ∉ ts) (hr : Replaces D ts us) : Replaces E ts us :=
    hr.extend (fun n v hd => (hE n v).mpr (.inl hd)) (fun n v he => ((hE n v).mp he).imp_right (·.1)) hvalues hts
  have hother {n : String} (hn : n ≠ name) :
      ((name, value.flatMap constants.replace) :: constants).lookup n = constants.lookup n := by
    rw [List.lookup_cons, beq_eq_false_iff_ne.mpr hn]
  refine ⟨?_, ?_, ?_⟩
  · intro n v w hv hw
    rcases (hE n v).mp hv with hv | ⟨rfl, rfl⟩ <;> rcases (hE _ w).mp hw with hw | ⟨hn, rfl⟩
    · exact h.functional n v w hv hw
    · exact absurd (hn ▸ hv) (hnew v)
    · exact absurd hw (hnew w)
    · rfl
  · intro n v hv
    rcases (hE n v).mp hv with hv | ⟨rfl, rfl⟩
    · obtain ⟨us, hsome, hr⟩ := h.value n v hv
      have hn : n ≠ name := by
        rintro rfl
        exact hnew v hv
      exact ⟨us, (hother hn).trans hsome, hextend (hvalues n v hv) hr⟩
    · exact ⟨_, List.lookup_cons_self, hextend hself (h.replaces v)⟩
  · intro n us hn
    by_cases hname : n = name
    · exact ⟨value, (hE n value).mpr (.inr ⟨hname, rfl⟩)⟩
    · rw [hother hname] at hn
      obtain ⟨v, hv⟩ := h.defined n us hn
      exact ⟨v, (hE n v).mpr (.inl hv)⟩

end Constants

/-! ## Lines -/

namespace TokenLine

/-- A line of which the names that `D` gives a value have been replaced in full. What replaces a token stands at
its place. -/
structure Replaced (D : String → List Token → Prop) (raw out : List LocatedToken) : Prop where
  tokens : ∀ us, Replaces D (raw.map (·.token)) us ↔ us = out.map (·.token)
  resolved : ∀ name value, D name value → Token.name name ∉ out.map (·.token)
  places : ∃ full : Token → List Token, (∀ t ∈ raw, Replaces D [t.token] (full t.token)) ∧
    out = raw.flatMap fun t => (full t.token).map fun u => ⟨u, t.span⟩

variable {D : String → List Token → Prop} {constants : Constants}

theorem replaced_substitute (h : constants.Resolved D) (raw : List LocatedToken) :
    Replaced D raw (constants.substitute raw) := by
  have htokens : (constants.substitute raw).map (·.token) = (raw.map (·.token)).flatMap constants.replace := by
    rw [Constants.substitute, List.map_flatMap, List.flatMap_map]
    simp [Function.comp_def]
  have hreplaces := h.replaces (raw.map (·.token))
  rw [← htokens] at hreplaces
  refine ⟨fun us => ⟨fun hus => hus.unique h.functional hreplaces, fun hus => hus ▸ hreplaces⟩,
    fun name value hd => hreplaces.resolved hd, constants.replace, fun t _ => ?_, rfl⟩
  have hone := h.replaces [t.token]
  rwa [List.flatMap_singleton] at hone

/-- What a line should be read as, when the names that `D` gives a value were defined before: a definition as
nothing, and any other line with these names replaced. -/
structure ReadAs (D : String → List Token → Prop) (l : SourceLine) (line : TokenLine) : Prop where
  source : line.source = l
  tokens : ∃ raw, tokensOf l.text.toList = .ok raw ∧ (IsDefinition raw → line.tokens = []) ∧
    (¬ IsDefinition raw → Replaced D raw line.tokens)

theorem read_of_not_isDefinition {source : SourceLine} {raw : List LocatedToken}
    (hraw : tokensOf source.text.toList = .ok raw) (h : ¬ IsDefinition raw) :
    read constants source = .ok (⟨source, constants.substitute raw⟩, constants) := by
  unfold read
  rw [hraw]
  dsimp only [bind, Except.bind]
  split
  case h_1 directive rest => exact absurd ⟨directive, rest, rfl⟩ h
  case h_2 => rfl

theorem of_read_definition {source : SourceLine} {directive : Span} {rest : List LocatedToken} {line : TokenLine}
    {constants' : Constants} (hraw : tokensOf source.text.toList = .ok (⟨.directive "eqv", directive⟩ :: rest))
    (h : read constants source = .ok (line, constants')) :
    line = ⟨source, []⟩ ∧ constants.define directive rest = .ok constants' := by
  unfold read at h
  rw [hraw] at h
  dsimp only [bind, Except.bind] at h
  split at h
  case h_1 heq =>
    cases heq
    cases hdefine : constants.define directive rest with
    | error errors =>
        rw [hdefine] at h
        cases h
    | ok defined =>
        rw [hdefine] at h
        cases h
        exact ⟨rfl, rfl⟩
  case h_2 hother => exact absurd rfl (hother _ _)

theorem definition?_of_not_isDefinition {source : SourceLine} {raw : List LocatedToken}
    (hraw : tokensOf source.text.toList = .ok raw) (h : ¬ IsDefinition raw) : definition? source = none := by
  unfold definition?
  rw [hraw]
  split
  case h_1 heq =>
    cases heq
    exact absurd ⟨_, _, rfl⟩ h
  case h_2 => rfl

/-- **One line more**: it is read as it should be, and the constants stay resolved. -/
theorem readAs_of_read {above below : List SourceLine} {source : SourceLine} {line : TokenLine}
    {constants' : Constants} (h : constants.Resolved (DefinedIn above))
    (ordered : Ordered (above ++ source :: below)) (hread : read constants source = .ok (line, constants')) :
    ReadAs (DefinedIn above) source line ∧ constants'.Resolved (DefinedIn (above ++ [source])) := by
  obtain ⟨raw, hraw, -⟩ := of_read hread
  by_cases hdefinition : IsDefinition raw
  case neg =>
    have hnone := definition?_of_not_isDefinition hraw hdefinition
    rw [read_of_not_isDefinition hraw hdefinition] at hread
    cases hread
    have hsame : DefinedIn (above ++ [source]) = DefinedIn above := by
      funext name value
      simp [definedIn_append_iff, hnone]
    rw [hsame]
    exact ⟨⟨rfl, raw, hraw, fun hd => absurd hd hdefinition, fun _ => replaced_substitute h raw⟩, h⟩
  case pos =>
    obtain ⟨directive, rest, rfl⟩ := id hdefinition
    obtain ⟨rfl, hdefine⟩ := of_read_definition hraw hread
    refine ⟨⟨rfl, _, hraw, fun _ => rfl, fun hn => absurd hdefinition hn⟩, ?_⟩
    obtain ⟨name, place, value, rfl, fresh, rfl⟩ := Constants.of_define hdefine
    have hsome : definition? source = some (name, value.map (·.token)) := by
      unfold definition?
      rw [hraw]
      rfl
    obtain ⟨hself, hlater⟩ := ordered
    refine h.cons (fun n v => ?_) fresh ?_ ?_
    · rw [definedIn_append_iff, hsome]
      simp [eq_comm]
    · exact hself source (by simp) _ hsome
    · rintro n v ⟨l, hl, hv⟩
      exact (List.pairwise_append.mp hlater).2.2 l hl source List.mem_cons_self _ hv _ hsome

end TokenLine

namespace SourceUnit

open TokenLine

/-- **All lines are read as they should be.** -/
theorem readAs_of_readLines {above lines : List SourceLine} {constants : Constants}
    (h : constants.Resolved (DefinedIn above)) (ordered : Ordered (above ++ lines))
    (hread : (readLines constants lines).2 = []) {front below : List SourceLine} {source : SourceLine}
    (hlines : lines = front ++ source :: below) :
    ∃ line, (readLines constants lines).1[front.length]? = some line ∧
      ReadAs (DefinedIn (above ++ front)) source line := by
  induction lines generalizing above constants front with
  | nil => simp at hlines
  | cons first rest ih =>
      rw [readLines] at hread ⊢
      cases hfirst : TokenLine.read constants first with
      | error errors =>
          rw [hfirst] at hread
          exact absurd (List.map_eq_nil_iff.mp (List.append_eq_nil_iff.mp hread).1) (ne_nil_of_read hfirst)
      | ok result =>
          obtain ⟨line, constants'⟩ := result
          rw [hfirst] at hread
          obtain ⟨hline, hnext⟩ := readAs_of_read h ordered hfirst
          rcases List.cons_eq_append_iff.mp hlines with ⟨rfl, heq⟩ | ⟨front, rfl, heq⟩
          · cases heq
            rw [List.append_nil]
            exact ⟨line, rfl, hline⟩
          · have hrest := ih hnext (by rwa [List.append_assoc]) hread heq
            rwa [List.append_assoc] at hrest

/-- No constants are defined before the first line. -/
theorem resolved_nil : Constants.Resolved (DefinedIn []) [] := by
  refine ⟨?_, ?_, nofun⟩ <;> rintro _ _ <;> simp [DefinedIn]

/-- **Constants are replaced in full.** If a unit can be read, and no value names the constant itself or one that
is defined later, then there is one line of tokens for each line of the text. A definition leaves no tokens; every
other line has its own, in which each name that an earlier line defines is replaced by its value with all names in
that replaced in turn. -/
theorem tokenize_constants {u : SourceUnit} (h : u.tokenize.2 = []) (ordered : Ordered u.lines) :
    ∃ lines, u.tokenize.1.tokens = some lines ∧ lines.length = u.lines.length ∧
      ∀ above source below, u.lines = above ++ source :: below →
        ∃ line, lines[above.length]? = some line ∧ ReadAs (DefinedIn above) source line := by
  have hread : (readLines [] u.lines).2 = [] ∧ u.tokenize.1.tokens = some (readLines [] u.lines).1 := by
    unfold tokenize at h ⊢
    rcases hlines : readLines [] u.lines with ⟨tokens, _ | ⟨e, errors⟩⟩ <;> rw [hlines] at h
    · exact ⟨rfl, rfl⟩
    · cases h
  refine ⟨_, hread.2, ?_, fun above source below hlines => readAs_of_readLines resolved_nil ordered hread.1 hlines⟩
  have hsources := congrArg List.length (map_source_readLines hread.1)
  rwa [List.length_map] at hsources

/-- A unit with three constants, each of which uses the one before. -/
def chained : SourceUnit := ofText "a.s" ".eqv ONE 1\n.eqv PAIR ONE, x\n.eqv REF PAIR(ONE)\nadd REF, ONE"

/-- Nothing is left of the names in the last line. -/
theorem tokenize_constants_chained :
    chained.tokenize.2 = [] ∧ Ordered chained.lines ∧
      ∃ lines line, chained.tokenize.1.tokens = some lines ∧ lines.length = 4 ∧ lines[3]? = some line ∧
        line.tokens.map (·.token) = [.name "add", .int 1, .comma, .name "x", .leftParen, .int 1, .rightParen,
          .comma, .int 1] ∧
        ReadAs (DefinedIn (chained.lines.take 3)) ⟨"a.s", 4, "add REF, ONE"⟩ line := by
  have h : chained.tokenize.2 = [] := by decide +kernel
  have ordered : Ordered chained.lines := by decide +kernel
  have hlines : chained.lines = chained.lines.take 3 ++ ⟨"a.s", 4, "add REF, ONE"⟩ :: [] := by decide +kernel
  have hcount : chained.lines.length = 4 ∧ (chained.lines.take 3).length = 3 := by decide +kernel
  have htokens : (chained.tokenize.1.tokens.bind (·[3]?)).map (·.tokens.map (·.token)) =
      some [.name "add", .int 1, .comma, .name "x", .leftParen, .int 1, .rightParen, .comma, .int 1] := by
    decide +kernel
  obtain ⟨lines, hsome, hlength, hread⟩ := tokenize_constants h ordered
  obtain ⟨line, hline, hreadAs⟩ := hread _ _ _ hlines
  rw [hcount.2] at hline
  rw [hsome, Option.bind_some, hline] at htokens
  exact ⟨h, ordered, lines, line, hsome, hlength.trans hcount.1, hline, Option.some.inj htokens, hreadAs⟩

end SourceUnit

end MipsLab
