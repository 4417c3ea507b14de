import MipsLab.Proofs.Heredity

set_option autoImplicit false

/-!
# The places of tokens

Every token and every error is read from a part of its line that is not empty
(`Lexer.exists_of_mem_lex`). The value of a constant takes the place of its name, and the lines of an expansion
the place of the invocation, which reaches from one token to a later one. So all tokens that the first pass
reads have a place on the line that they are reported at (`SourceUnit.spanned_of_mem_expandedLines`).
-/

namespace MipsLab

namespace Utf8

theorem size_append (xs ys : List Char) : size (xs ++ ys) = size xs + size ys := by
  induction xs with
  | nil => exact (Nat.zero_add _).symm
  | cons c xs ih =>
      show c.utf8Size + size (xs ++ ys) = c.utf8Size + size xs + size ys
      omega

theorem size_singleton (c : Char) : size [c] = c.utf8Size := Nat.add_zero _

/-- The bytes of a string are those of its characters. -/
theorem size_toList (text : String) : size text.toList = text.utf8ByteSize := by
  have hsize (cs : List Char) : size cs = (String.ofList cs).utf8ByteSize := by
    induction cs with
    | nil => rfl
    | cons c cs ih =>
        have hsplit : String.ofList (c :: cs) = String.ofList [c] ++ String.ofList cs := by
          rw [← String.ofList_append]
          rfl
        rw [hsplit, String.utf8ByteSize_append, ← ih, ← String.singleton_eq_ofList,
          String.utf8ByteSize_singleton]
        rfl
  rw [hsize, String.ofList_toList]

theorem size_le_of_prefix {xs ys : List Char} (h : xs <+: ys) : size xs ≤ size ys := by
  obtain ⟨rest, rfl⟩ := h
  rw [size_append]
  exact Nat.le_add_right _ _

theorem size_pos (c : Char) (cs : List Char) : 0 < size (c :: cs) :=
  Nat.add_pos_left c.utf8Size_pos _

end Utf8

open Utf8

/-! ## Reading a text -/

namespace Lexer

/-- **What is read is read from a part of the text**, which starts with the character that the lexeme starts
with. -/
theorem exists_of_mem_lexFrom {before rest : List Char} {skip : Nat} {x : Except LexError Token × Span}
    (hx : x ∈ lexFrom (size before) skip rest) :
    ∃ front c cs, before ++ rest = front ++ c :: cs ∧ before <+: front ∧
      x = ((lexeme c cs).result, ⟨size front, size front + size (c :: cs.take (lexeme c cs).extra)⟩) := by
  induction rest generalizing before skip with
  | nil => cases hx
  | cons c cs ih =>
      -- what comes later is read with the character added to the text before
      have hlater {k : Nat} (h : x ∈ lexFrom (size before + c.utf8Size) k cs) :
          ∃ front d ds, before ++ c :: cs = front ++ d :: ds ∧ before <+: front ∧
            x = ((lexeme d ds).result, ⟨size front, size front + size (d :: ds.take (lexeme d ds).extra)⟩) := by
        rw [← size_singleton c, ← size_append] at h
        obtain ⟨front, d, ds, htext, hfront, rfl⟩ := ih h
        exact ⟨front, d, ds, by rw [← htext, List.append_assoc]; rfl,
          (List.prefix_append _ _).trans hfront, rfl⟩
      unfold lexFrom at hx
      split at hx
      · exact hlater hx
      · split at hx
        · exact hlater hx
        · rcases List.mem_cons.mp hx with rfl | hx
          · exact ⟨before, c, cs, rfl, List.prefix_rfl, rfl⟩
          · exact hlater hx

theorem exists_of_mem_lex {text : List Char} {x : Except LexError Token × Span} (hx : x ∈ lex text) :
    ∃ front c cs, text = front ++ c :: cs ∧
      x = ((lexeme c cs).result, ⟨size front, size front + size (c :: cs.take (lexeme c cs).extra)⟩) := by
  have hstart : x ∈ lexFrom (size []) 0 text := hx
  obtain ⟨front, c, cs, htext, -, hlexeme⟩ := exists_of_mem_lexFrom hstart
  exact ⟨front, c, cs, htext, hlexeme⟩

/-- What is read later starts later. -/
theorem pairwise_lexFrom (before rest : List Char) (skip : Nat) :
    (lexFrom (size before) skip rest).Pairwise fun x y => x.2.start ≤ y.2.start := by
  induction rest generalizing before skip with
  | nil => exact .nil
  | cons c cs ih =>
      have hlater (k : Nat) := ih (before ++ [c]) k
      rw [size_append, size_singleton] at hlater
      unfold lexFrom
      split
      · exact hlater _
      · split
        · exact hlater _
        · refine .cons (fun y hy => ?_) (hlater _)
          rw [← size_singleton c, ← size_append] at hy
          obtain ⟨front, d, ds, -, hfront, rfl⟩ := exists_of_mem_lexFrom hy
          exact size_le_of_prefix ((List.prefix_append _ _).trans hfront)

end Lexer

/-! ## Places on a line -/

/-- A part of a text that is not empty. -/
structure Span.Inside (span : Span) (text : String) : Prop where
  nonempty : span.start < span.stop
  bounded : span.stop ≤ text.utf8ByteSize

theorem Lexer.inside_of_mem_lex {text : String} {x : Except LexError Token × Span}
    (hx : x ∈ lex text.toList) : x.2.Inside text := by
  obtain ⟨front, c, cs, htext, rfl⟩ := exists_of_mem_lex hx
  refine ⟨Nat.lt_add_of_pos_right (size_pos c _), ?_⟩
  have hpart : front ++ c :: cs.take (lexeme c cs).extra <+: text.toList := by
    rw [htext, List.prefix_append_right_inj, List.cons_prefix_cons]
    exact ⟨rfl, List.take_prefix _ _⟩
  rw [← size_append, ← size_toList]
  exact size_le_of_prefix hpart

/-- The tokens of a line stand on the line, one after the other. Tokens that replace a token have its place. -/
structure TokenLine.Spanned (line : TokenLine) : Prop where
  inside : ∀ t ∈ line.tokens, t.span.Inside line.source.text
  ordered : line.tokens.Pairwise fun t u => t.span.start ≤ u.span.start

namespace TokenLine

theorem spanned_nil (source : SourceLine) : Spanned ⟨source, []⟩ := ⟨nofun, .nil⟩

/-- Tokens that are left out do no harm. -/
theorem Spanned.sublist {line : TokenLine} (h : line.Spanned) {tokens : List LocatedToken}
    (hsub : tokens.Sublist line.tokens) : Spanned ⟨line.source, tokens⟩ :=
  ⟨fun t ht => h.inside t (hsub.mem ht), h.ordered.sublist hsub⟩

/-- Tokens that all have one place on the line. -/
theorem spanned_of_eq {source : SourceLine} {tokens : List LocatedToken} {span : Span}
    (hspan : span.Inside source.text) (h : ∀ t ∈ tokens, t.span = span) : Spanned ⟨source, tokens⟩ where
  inside t ht := by
    rw [h t ht]
    exact hspan
  ordered := by
    refine List.pairwise_of_forall_mem_list fun t ht u hu => ?_
    have heq : t.span = u.span := (h t ht).trans (h u hu).symm
    exact heq ▸ Nat.le_refl _

theorem spanned_of_tokensOf {source : SourceLine} {tokens : List LocatedToken}
    (h : tokensOf source.text.toList = .ok tokens) : Spanned ⟨source, tokens⟩ := by
  unfold tokensOf at h
  dsimp only at h
  split at h
  case isFalse => cases h
  case isTrue =>
    cases h
    refine ⟨fun t ht => ?_, ?_⟩
    · obtain ⟨⟨result, span⟩, hx, ht⟩ := List.mem_filterMap.mp ht
      dsimp only at ht
      split at ht
      · cases ht
      · cases ht
      · cases ht
        exact Lexer.inside_of_mem_lex hx
    · -- comments are left out, and places do not change
      refine (Lexer.pairwise_lexFrom [] source.text.toList 0).filterMap _ ?_
      rintro ⟨r, s⟩ ⟨r', s'⟩ hle t ht t' ht'
      dsimp only at ht ht'
      split at ht <;> cases ht
      split at ht' <;> cases ht'
      exact hle

theorem inside_of_tokensOf {text : String} {errors : Constants.LineErrors}
    (h : tokensOf text.toList = .error errors) {e : LexError × Span} (he : e ∈ errors) :
    e.2.Inside text := by
  unfold tokensOf at h
  dsimp only at h
  split at h
  case isTrue => cases h
  case isFalse =>
    cases h
    obtain ⟨⟨result, span⟩, hx, he⟩ := List.mem_filterMap.mp he
    dsimp only at he
    split at he <;> cases he
    exact Lexer.inside_of_mem_lex hx

theorem Spanned.substitute {line : TokenLine} (h : line.Spanned) (constants : Constants) :
    Spanned ⟨line.source, constants.substitute line.tokens⟩ where
  inside t ht := by
    obtain ⟨u, hu, ht⟩ := List.mem_flatMap.mp ht
    obtain ⟨_, -, rfl⟩ := List.mem_map.mp ht
    exact h.inside u hu
  ordered := by
    refine List.pairwise_flatMap.mpr ⟨fun t _ => ?_, h.ordered.imp fun {t u} hle x hx y hy => ?_⟩
    · exact List.pairwise_map.mpr (List.pairwise_of_forall_mem_list fun _ _ _ _ => Nat.le_refl _)
    · obtain ⟨_, -, rfl⟩ := List.mem_map.mp hx
      obtain ⟨_, -, rfl⟩ := List.mem_map.mp hy
      exact hle

/-- A line that was read has the tokens of its text, with constants put in, or it defines a constant. -/
theorem of_read {constants constants' : Constants} {source : SourceLine} {line : TokenLine}
    (h : read constants source = .ok (line, constants')) :
    ∃ tokens, tokensOf source.text.toList = .ok tokens ∧
      ((line = ⟨source, constants.substitute tokens⟩ ∧ constants' = constants) ∨
        ∃ span definition, tokens = ⟨.directive "eqv", span⟩ :: definition ∧ line = ⟨source, []⟩ ∧
          constants.define span definition = .ok constants') := by
  unfold read at h
  cases htokens : tokensOf source.text.toList with
  | error e =>
      rw [htokens] at h
      cases h
  | ok tokens =>
      rw [htokens] at h
      dsimp only [bind, Except.bind] at h
      refine ⟨tokens, rfl, ?_⟩
      split at h
      case h_1 span definition =>
        cases hdefine : constants.define span definition with
        | error es =>
            rw [hdefine] at h
            cases h
        | ok defined =>
            rw [hdefine] at h
            cases h
            exact .inr ⟨span, definition, rfl, rfl, hdefine⟩
      case h_2 =>
        cases h
        exact .inl ⟨rfl, rfl⟩

/-- The tokens that are read from a line stand on it. -/
theorem spanned_of_read {constants constants' : Constants} {source : SourceLine} {line : TokenLine}
    (h : read constants source = .ok (line, constants')) : line.Spanned := by
  obtain ⟨tokens, htokens, ⟨rfl, -⟩ | ⟨_, _, -, rfl, -⟩⟩ := of_read h
  · exact (spanned_of_tokensOf htokens).substitute constants
  · exact spanned_nil source

/-- So do the errors in it. -/
theorem inside_of_read {constants : Constants} {source : SourceLine} {errors : Constants.LineErrors}
    (h : read constants source = .error errors) {e : LexError × Span} (he : e ∈ errors) :
    e.2.Inside source.text := by
  unfold read at h
  cases htokens : tokensOf source.text.toList with
  | error es =>
      rw [htokens] at h
      cases h
      exact inside_of_tokensOf htokens he
  | ok tokens =>
      rw [htokens] at h
      dsimp only [bind, Except.bind] at h
      have hinside := (spanned_of_tokensOf htokens).inside
      split at h
      case h_2 => cases h
      case h_1 span definition =>
        cases hdefine : constants.define span definition with
        | ok =>
            rw [hdefine] at h
            cases h
        | error es =>
            rw [hdefine] at h
            cases h
            obtain ⟨hdirective, hdefinition⟩ := List.forall_mem_cons.mp hinside
            -- the error is at the name that is defined again, or at the directive
            unfold Constants.define at hdefine
            split at hdefine
            · split at hdefine <;> cases hdefine
              rw [List.mem_singleton.mp he]
              exact (List.forall_mem_cons.mp hdefinition).1
            · cases hdefine
              rw [List.mem_singleton.mp he]
              exact hdirective

end TokenLine

/-! ## Invocations -/

namespace TokenLine.Spanned

variable {line : TokenLine} (h : line.Spanned)
include h

/-- From a token to the last one of those behind it there is some text. -/
theorem inside_of_split {labels rest : List LocatedToken} {head : LocatedToken}
    (hline : line.tokens = labels ++ head :: rest) :
    (⟨head.span.start, (rest.getLast?.map (·.span.stop)).getD head.span.stop⟩ : Span).Inside
      line.source.text := by
  have hinside := h.inside
  have hordered := h.ordered
  rw [hline] at hinside hordered
  -- the last token may start where the first one does, but it is not empty
  have hhead := hinside head (by simp)
  cases hlast : rest.getLast? with
  | none => exact hhead
  | some last =>
      have hmem := List.mem_of_getLast? hlast
      have hstop := hinside last (by simp [hmem])
      have hstart := List.rel_of_pairwise_cons (List.pairwise_append.mp hordered).2.1 hmem
      exact ⟨Nat.lt_of_le_of_lt hstart hstop.nonempty, hstop.bounded⟩

/-- An invocation stands on its line. -/
theorem inside_invocation {call : Invocation} (hcall : Invocation.ofTokens? line.tokens = some call) :
    call.span.Inside line.source.text := by
  have hsplit := splitLabels_append line.tokens
  unfold Invocation.ofTokens? at hcall
  split at hcall
  case h_1 labels text span rest hlabels =>
    cases hcall
    rw [hlabels] at hsplit
    exact h.inside_of_split hsplit.symm
  case h_2 => cases hcall

end TokenLine.Spanned

namespace MacroPool

/-- The place of an invocation is passed on to all tokens that stand for it. -/
theorem heritable_spanned : Heritable TokenLine.Spanned where
  labels hcall h := by
    refine h.sublist ?_
    rw [Invocation.labels_eq_take hcall]
    exact List.take_sublist _ _
  body := by
    intro line call b m serial hcall h _
    refine TokenLine.spanned_of_eq (h.inside_invocation hcall) fun t ht => ?_
    have hmem : t ∈ (m.instantiateLine line.source call serial b).tokens := ht
    exact (Macro.of_mem_instantiateLine hmem).1

end MacroPool

/-! ## Units -/

namespace SourceUnit

theorem spanned_of_mem_readLines {constants : Constants} {lines : List SourceLine} {l : TokenLine}
    (hl : l ∈ (readLines constants lines).1) : l.Spanned := by
  induction lines generalizing constants with
  | nil => cases hl
  | cons source rest ih =>
      unfold readLines at hl
      split at hl
      case h_1 hread =>
        rcases List.mem_cons.mp hl with rfl | hl
        · exact TokenLine.spanned_of_read hread
        · exact ih hl
      case h_2 => exact ih hl

variable {u : SourceUnit} (current : u.Current)
include current

theorem tokens_of_read {tokens : List TokenLine} (h : u.read.1.tokens = some tokens) :
    tokens = (readLines [] u.lines).1 := by
  rcases read_eq current with ⟨hsome, -⟩ | ⟨hnone, -⟩
  · exact Option.some.inj (h.symm.trans hsome)
  · cases h.symm.trans hnone

/-- A property of lines of tokens that is inherited through macros holds of all lines that the first pass
places, if it holds of those that are read. -/
theorem forall_mem_expandedLines {G : TokenLine → Prop} (hG : MacroPool.Heritable G)
    (hread : ∀ l ∈ (readLines [] u.lines).1, G l) : ∀ l ∈ u.expandedLines, G l := by
  unfold expandedLines
  split
  case h_1 tokens htokens => exact hG.of_mem_expandUnit (tokens_of_read current htokens ▸ hread)
  case h_2 => exact nofun

/-- **All tokens that the first pass reads stand on the line that they are reported at.** -/
theorem spanned_of_mem_expandedLines : ∀ l ∈ u.expandedLines, l.Spanned :=
  forall_mem_expandedLines current MacroPool.heritable_spanned fun _ => spanned_of_mem_readLines

theorem source_of_mem_expandedLines {l : TokenLine} (hl : l ∈ u.expandedLines) : l.source ∈ u.lines := by
  unfold expandedLines at hl
  split at hl
  case h_1 tokens htokens =>
    obtain ⟨m, hm, hsource⟩ := MacroPool.source_of_mem_expandFrom _ _ _ hl
    rw [hsource]
    exact source_of_mem_readLines (tokens_of_read current htokens ▸ hm)
  case h_2 => cases hl

end SourceUnit

end MipsLab
