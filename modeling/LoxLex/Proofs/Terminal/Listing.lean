import LoxLex.Proofs.Scan.Genuine
import LoxLex.Proofs.Terminal.Output

/-! # Listings can be read back

A listing has no marks that keep its parts asunder: a string may hold spaces, line ends and text
that looks like further tokens. Yet no two lists of genuine tokens are listed alike
(`forall₂_of_listed_eq`). A kind has no space in its name, so the name ends with the first space;
the kind tells where the lexeme ends, which for a string is behind its second quote; kind and lexeme
tell the value, and so where the next token begins (`Token.display_append_inj`). Hence what is left
on an output that takes a listing tells the tokens of the source (`taken_present_eq_iff`). -/

namespace LoxLex

/-! ### One token -/

/-- Whether two tokens have all but their lines in common. -/
structure Token.EqButLine (x y : Token) : Prop where
  kind_eq : x.kind = y.kind
  lexeme_eq : x.lexeme = y.lexeme
  literal_eq : x.literal = y.literal

variable {x y : Token} {kind : TokenKind} {l m u v : Text}

/-- Tokens are shown without their lines. -/
theorem Token.EqButLine.display_eq (h : x.EqButLine y) : x.display = y.display := by
  rw [display, display, h.kind_eq, h.lexeme_eq, h.literal_eq]

/-- No two kinds have one name. -/
theorem TokenKind.name_injective : Function.Injective name := by
  intro k₁ k₂ h
  have hread := ofName?_name k₁
  rw [h, ofName?_name] at hread
  exact (Option.some.inj hread).symm

/-- No name of a kind has a space in it. -/
theorem TokenKind.space_not_mem_name (k : TokenKind) : ' ' ∉ k.name := by
  cases k with
  | keyword word => cases word <;> decide
  | _ => decide

/-- Words before a space are told apart from what follows. -/
theorem append_space_inj (hl : ' ' ∉ l) (hm : ' ' ∉ m) (h : l ++ ' ' :: u = m ++ ' ' :: v) :
    l = m ∧ u = v := by
  have hspace : ∀ t : Text, Stops (· ≠ ' ') (' ' :: t) := fun _ => stops_cons.2 (by simp)
  obtain ⟨heq, hbehind⟩ := run_unique (forall_ne_of_not_mem hl) (hspace u)
    (forall_ne_of_not_mem hm) (hspace v) h
  exact ⟨heq, (List.cons.inj hbehind).2⟩

/-- A string is a text without a quote between two quotes. -/
theorem IsLexeme.exists_of_string (h : IsLexeme .string l) :
    ∃ body, '"' ∉ body ∧ l = '"' :: (body ++ ['"']) := by
  cases h with
  | spelling heq => contradiction
  | string hinside => exact ⟨_, hinside, rfl⟩

/-- **The end of a lexeme** shows when its kind is known. -/
theorem IsLexeme.append_space_inj (hl : IsLexeme kind l) (hm : IsLexeme kind m)
    (h : l ++ ' ' :: u = m ++ ' ' :: v) : l = m ∧ u = v := by
  by_cases hkind : kind = .string
  · -- A string goes from its quote to the next one, whatever stands between.
    subst hkind
    obtain ⟨body, hbody, rfl⟩ := hl.exists_of_string
    obtain ⟨body', hbody', rfl⟩ := hm.exists_of_string
    have hquote : ∀ t : Text, Stops (· ≠ '"') ('"' :: t) := fun _ => stops_cons.2 (by simp)
    simp only [List.cons_append, List.append_assoc, List.nil_append, List.cons.injEq,
      true_and] at h
    obtain ⟨rfl, hbehind⟩ := run_unique (forall_ne_of_not_mem hbody) (hquote _)
      (forall_ne_of_not_mem hbody') (hquote _) h
    exact ⟨rfl, by simpa using hbehind⟩
  · exact LoxLex.append_space_inj (hl.blank_not_mem hkind rfl) (hm.blank_not_mem hkind rfl) h

/-- **One token is read back** from its display, whatever follows it on the next line. -/
theorem Token.display_append_inj (hx : x.Genuine) (hy : y.Genuine)
    (h : x.display ++ '\n' :: u = y.display ++ '\n' :: v) : x.EqButLine y ∧ u = v := by
  simp only [display, List.append_assoc, List.cons_append] at h
  -- The name of the kind comes first, and the kind tells how to read on.
  obtain ⟨hname, h⟩ := append_space_inj (TokenKind.space_not_mem_name _)
    (TokenKind.space_not_mem_name _) h
  have hkind : x.kind = y.kind := TokenKind.name_injective hname
  cases hx with
  | ofLexeme hl =>
    cases hy with
    | ofLexeme hm =>
      -- The value is told by kind and lexeme, so it is as long in both displays.
      obtain rfl : _ = _ := hkind
      obtain ⟨rfl, hvalue⟩ := hl.append_space_inj hm h
      exact ⟨⟨rfl, rfl, rfl⟩, by simpa using hvalue⟩
    | endOfInput => exact absurd hkind hl.kind_ne_endOfInput
  | endOfInput =>
    cases hy with
    | ofLexeme hm => exact absurd hkind.symm hm.kind_ne_endOfInput
    | endOfInput => exact ⟨⟨rfl, rfl, rfl⟩, by simpa [Token.endOfInput] using h⟩

/-! ### Lists of tokens -/

/-- Tokens that differ in their lines alone are listed alike. -/
theorem listed_eq_of_forall₂ {xs ys : List Token} (h : List.Forall₂ Token.EqButLine xs ys) :
    listed xs = listed ys := by
  induction h with
  | nil => rfl
  | cons hhead _ ih => rw [listed, listed, hhead.display_eq, ih]

/-- **Genuine tokens are read back** from their listing. -/
theorem forall₂_of_listed_eq {xs ys : List Token} (hxs : ∀ x ∈ xs, x.Genuine)
    (hys : ∀ y ∈ ys, y.Genuine) (h : listed xs = listed ys) :
    List.Forall₂ Token.EqButLine xs ys := by
  induction xs generalizing ys with
  | nil =>
    cases ys with
    | nil => exact .nil
    | cons y ys =>
      -- Any token is listed as something, if only as its line end.
      simp [listed] at h
  | cons x xs ih =>
    cases ys with
    | nil => simp [listed] at h
    | cons y ys =>
      obtain ⟨hx, hxs⟩ := List.forall_mem_cons.1 hxs
      obtain ⟨hy, hys⟩ := List.forall_mem_cons.1 hys
      rw [listed, listed] at h
      obtain ⟨hhead, htail⟩ := Token.display_append_inj hx hy h
      exact .cons hhead (ih hxs hys htail)

/-- Two sources have one listing if their tokens differ in their lines alone. -/
theorem listed_tokens_eq_iff (s₁ s₂ : Text) :
    listed (scan s₁).tokens = listed (scan s₂).tokens ↔
      List.Forall₂ Token.EqButLine (scan s₁).tokens (scan s₂).tokens :=
  ⟨forall₂_of_listed_eq (fun _ => genuine_of_mem_tokens) (fun _ => genuine_of_mem_tokens),
    listed_eq_of_forall₂⟩

/-! ### Outputs -/

/-- An output that takes a listing holds its UTF-8 form, if it was empty before. -/
theorem Terminal.taken_present {t : Terminal} {s : Scan} (hempty : t.output.taken = #[])
    (h : (t.present s).1 = true) :
    (t.present s).2.output.taken.toList = Utf8.encode (listed s.tokens) := by
  obtain ⟨⟨limit, taken⟩, console⟩ := t
  obtain rfl : taken = #[] := hempty
  rw [present_fresh] at h ⊢
  exact Sink.kept_of_fits (of_decide_eq_true h)

/-- **A listing can be read back.** On empty outputs that take them, the listings of two sources are
the same bytes if and only if the sources have the same number of tokens, and one after the other
the tokens have the same kind, lexeme and value. -/
theorem taken_present_eq_iff {t₁ t₂ : Terminal} {s₁ s₂ : Text} (hempty₁ : t₁.output.taken = #[])
    (hempty₂ : t₂.output.taken = #[]) (hfits₁ : (t₁.present (scan s₁)).1 = true)
    (hfits₂ : (t₂.present (scan s₂)).1 = true) :
    (t₁.present (scan s₁)).2.output.taken = (t₂.present (scan s₂)).2.output.taken ↔
      List.Forall₂ Token.EqButLine (scan s₁).tokens (scan s₂).tokens := by
  rw [← listed_tokens_eq_iff, ← Array.toList_inj, Terminal.taken_present hempty₁ hfits₁,
    Terminal.taken_present hempty₂ hfits₂, Utf8.encode_inj]

/-- Two sources that differ in their blanks and comments, with a string that looks like the end of a
listing, on an output without a limit and on one that the listing just fits. -/
theorem taken_present_eq_iff_false_end :
    ((({} : Terminal).present (scan "x\n\"é\nEOF  null\" 007".toList)).1 = true ∧
        (({ output := { limit := some 78 } } : Terminal).present
          (scan "\n\nx/**/\"é\nEOF  null\"007".toList)).1 = true) ∧
      ((({} : Terminal).present (scan "x\n\"é\nEOF  null\" 007".toList)).2.output.taken =
          (({ output := { limit := some 78 } } : Terminal).present
            (scan "\n\nx/**/\"é\nEOF  null\"007".toList)).2.output.taken ↔
        List.Forall₂ Token.EqButLine (scan "x\n\"é\nEOF  null\" 007".toList).tokens
          (scan "\n\nx/**/\"é\nEOF  null\"007".toList).tokens) := by
  have hfits : (({ output := { limit := some 78 } } : Terminal).present
      (scan "\n\nx/**/\"é\nEOF  null\"007".toList)).1 = true := by
    decide +kernel
  exact ⟨⟨rfl, hfits⟩, taken_present_eq_iff rfl rfl rfl hfits⟩

end LoxLex
