import LoxLex.Proofs.Scan.Invariant

/-! # Maximal munch

The classes of spans that Lox source is made of, each as a condition on texts, and the rule that
divides a source into spans: the longest text of any class comes first, and a character that no
class takes is a span of its own. `Munched` is that rule, with nothing in it of how a scan goes
about it. A source is divided by it in one way (`Munched.unique`), and a scan does so
(`munched_scan`). -/

namespace LoxLex

/-! ### Classes of spans -/

/-- A class of spans. -/
inductive SpanClass where
  | punctuation | operator | string | number | word
  | blank | lineComment | blockComment | openString
  deriving DecidableEq, Repr

namespace SpanClass

/-- Whether `span`, in front of `behind`, is of a class. Only an open string asks for what follows
it, which is nothing. -/
def Admits (span behind : Text) : SpanClass → Prop
  | punctuation => ∃ c ∈ ['(', ')', '{', '}', ',', '.', '-', '+', ';', '*', '/'], span = [c]
  | operator => ∃ c ∈ ['!', '=', '<', '>'], span = [c] ∨ span = [c, '=']
  | string => ∃ body, '"' ∉ body ∧ span = '"' :: (body ++ ['"'])
  | number => IsDigits span ∨ ∃ t u, IsDigits t ∧ IsDigits u ∧ span = t ++ '.' :: u
  | word => ∃ c t, c.isAlpha ∧ (∀ d ∈ t, d.isAlpha ∨ d.isDigit ∨ d = '-') ∧ span = c :: t
  | blank => ∃ c ∈ [' ', '\t', '\r', '\n'], span = [c]
  | lineComment => ∃ body, '\n' ∉ body ∧ span = '/' :: '/' :: body
  | blockComment => ∃ body, body.head? = some '*' ∧ ClosesAtEnd body ∧ span = '/' :: body
  | openString => ∃ body, '"' ∉ body ∧ span = '"' :: body ∧ behind = []

/-- The classes that yield a token. -/
def yieldsToken : SpanClass → Bool
  | punctuation | operator | string | number | word => true
  | blank | lineComment | blockComment | openString => false

/-- The classes of which a span can begin with a character of some class. -/
def begins : SpanClass → CharClass → Bool
  | punctuation, .punctuation _ | punctuation, .slash | operator, .operator _ _ | string, .quote
  | number, .digit | word, .letter | blank, .blank | lineComment, .slash | blockComment, .slash
  | openString, .quote => true
  | _, _ => false

end SpanClass

/-- **Maximal munch.** The span in front of `behind` is the longest of any class; where no class has
a span, it is one character and of no class. -/
def Munches (span behind : Text) : Option SpanClass → Prop
  | some k =>
    k.Admits span behind ∧ ∀ (l : SpanClass) (other more : Text), other ++ more = span ++ behind →
      l.Admits other more → other.length ≤ span.length
  | none =>
    span.length = 1 ∧ ∀ (l : SpanClass) (other more : Text), other ++ more = span ++ behind →
      ¬ l.Admits other more

/-- A source divided into spans by maximal munch, each with its class. -/
inductive Munched : Text → List (Option SpanClass × Text) → Prop where
  /-- Of nothing there are no spans. -/
  | nil : Munched [] []
  /-- The first span is what is munched first. -/
  | cons {span behind : Text} {k : Option SpanClass} {spans : List (Option SpanClass × Text)}
      (first : Munches span behind k) (rest : Munched behind spans) :
      Munched (span ++ behind) ((k, span) :: spans)

/-! ### What a span begins with -/

namespace SpanClass

variable {k : SpanClass} {span behind : Text}

/-- A span of any class has a character: `span ≠ []`. -/
theorem Admits.ne_nil (h : k.Admits span behind) : span ≠ [] := by
  rintro rfl
  cases k <;> simp [Admits, IsDigits] at h

/-- The first character of a span tells what classes it can be of. -/
theorem Admits.begins {c : Char} {t : Text} (h : k.Admits (c :: t) behind) :
    k.begins (CharClass.of c) = true := by
  cases k with
  | punctuation =>
    obtain ⟨d, hd, heq⟩ := h
    rw [(List.cons.inj heq).1]
    exact List.all_eq_true.1 (rfl : List.all _ fun d => punctuation.begins (CharClass.of d)) d hd
  | operator =>
    obtain ⟨d, hd, heq⟩ := h
    have hc : c = d := by rcases heq with heq | heq <;> exact (List.cons.inj heq).1
    rw [hc]
    exact List.all_eq_true.1 (rfl : List.all _ fun d => operator.begins (CharClass.of d)) d hd
  | string =>
    obtain ⟨body, -, heq⟩ := h
    rw [(List.cons.inj heq).1]
    rfl
  | number =>
    have hc : c.isDigit = true := by
      rcases h with h | ⟨t, u, ht, -, heq⟩
      · exact h.2 c (List.mem_cons_self ..)
      · exact ht.isDigit_of_append_eq_cons heq.symm
    rw [Piece.of_eq_digit hc]
    rfl
  | word =>
    obtain ⟨d, u, hd, -, heq⟩ := h
    rw [(List.cons.inj heq).1, Piece.of_eq_letter hd]
    rfl
  | blank =>
    obtain ⟨d, hd, heq⟩ := h
    rw [(List.cons.inj heq).1]
    exact List.all_eq_true.1 (rfl : List.all _ fun d => blank.begins (CharClass.of d)) d hd
  | lineComment =>
    obtain ⟨body, -, heq⟩ := h
    rw [(List.cons.inj heq).1]
    rfl
  | blockComment =>
    obtain ⟨body, -, -, heq⟩ := h
    rw [(List.cons.inj heq).1]
    rfl
  | openString =>
    obtain ⟨body, -, heq, -⟩ := h
    rw [(List.cons.inj heq).1]
    rfl

/-- A span at the front of a text begins with the first character, which tells its class. -/
theorem Admits.of_append_eq {c : Char} {rest : Text} (h : k.Admits span behind)
    (heq : span ++ behind = c :: rest) :
    ∃ t, span = c :: t ∧ t ++ behind = rest ∧ k.begins (CharClass.of c) = true := by
  obtain ⟨d, t, rfl⟩ := List.exists_cons_of_ne_nil h.ne_nil
  obtain ⟨rfl, hrest⟩ := List.cons.inj heq
  exact ⟨t, rfl, hrest, h.begins⟩

/-- Punctuation is one character. -/
theorem Admits.tail_of_punctuation {c : Char} {t : Text}
    (h : punctuation.Admits (c :: t) behind) : t = [] := by
  obtain ⟨d, -, hd⟩ := h
  exact (List.cons.inj hd).2

/-- An operator is one character, or two of which an equals sign is the second. -/
theorem Admits.tail_of_operator {c : Char} {t : Text} (h : operator.Admits (c :: t) behind) :
    t = [] ∨ t = ['='] := by
  obtain ⟨d, -, hd | hd⟩ := h
  · exact .inl (List.cons.inj hd).2
  · exact .inr (List.cons.inj hd).2

/-- The classes have no span in common. -/
theorem Admits.unique {l : SpanClass} (hk : k.Admits span behind) (hl : l.Admits span behind) :
    k = l := by
  obtain ⟨c, t, rfl⟩ := List.exists_cons_of_ne_nil hk.ne_nil
  have hbk := hk.begins
  have hbl := hl.begins
  -- Spans of several classes begin with a slash or a quote: what comes next tells them apart.
  cases hc : CharClass.of c <;> rw [hc] at hbk hbl <;> cases k <;> cases l <;> try contradiction
  all_goals first | rfl | (simp only [Admits, List.cons.injEq] at hk hl; grind)

end SpanClass

/-- Maximal munch takes one span, of one class. -/
theorem Munches.unique {span behind other more : Text} {k l : Option SpanClass}
    (hk : Munches span behind k) (hl : Munches other more l)
    (heq : span ++ behind = other ++ more) : k = l ∧ span = other ∧ behind = more := by
  have hlength : span.length = other.length := by
    cases k with
    | none =>
      cases l with
      | none => rw [hk.1, hl.1]
      | some l => exact absurd hl.1 (hk.2 l other more heq.symm)
    | some k =>
      cases l with
      | none => exact absurd hk.1 (hl.2 k span behind heq)
      | some l =>
        exact Nat.le_antisymm (hl.2 k span behind heq hk.1) (hk.2 l other more heq.symm hl.1)
  obtain ⟨rfl, rfl⟩ := List.append_inj heq hlength
  refine ⟨?_, rfl, rfl⟩
  cases k with
  | none =>
    cases l with
    | none => rfl
    | some l => exact absurd hl.1 (hk.2 l _ _ rfl)
  | some k =>
    cases l with
    | none => exact absurd hk.1 (hl.2 k _ _ rfl)
    | some l => rw [hk.1.unique hl.1]

/-- What is munched has a character: `span ≠ []`. -/
theorem Munches.ne_nil {span behind : Text} {k : Option SpanClass} (h : Munches span behind k) :
    span ≠ [] := by
  cases k with
  | none =>
    rintro rfl
    exact absurd h.1 (by simp)
  | some k => exact h.1.ne_nil

/-- None of the spans of a source is empty. -/
theorem Munched.ne_nil {source : Text} {spans : List (Option SpanClass × Text)}
    (h : Munched source spans) : ∀ span ∈ spans, span.2 ≠ [] := by
  induction h with
  | nil => simp
  | cons hfirst _ ih => exact List.forall_mem_cons.2 ⟨hfirst.ne_nil, ih⟩

/-- **Maximal munch divides a source in one way.** -/
theorem Munched.unique {source : Text} {spans others : List (Option SpanClass × Text)}
    (h : Munched source spans) (ho : Munched source others) : spans = others := by
  induction h generalizing others with
  | nil =>
    generalize hs : ([] : Text) = source at ho
    cases ho with
    | nil => rfl
    | cons hfirst => exact absurd (List.append_eq_nil_iff.1 hs.symm).1 hfirst.ne_nil
  | @cons span behind k spans hfirst hrest ih =>
    generalize hs : span ++ behind = source at ho
    cases ho with
    | nil => exact absurd (List.append_eq_nil_iff.1 hs).1 hfirst.ne_nil
    | cons hother hmore =>
      obtain ⟨rfl, rfl, rfl⟩ := hfirst.unique hother hs
      rw [ih hmore]

/-! ### What leads is munched

For each rule of `Piece.Leads` the piece is of a class, and what else a class has at the front of
the text is no longer. The first character leaves few classes to look at. -/

section

variable {behind : Text}

open SpanClass

/-- Of the texts that a class has in place of a span, only those of the classes that its first
character can begin are to be looked at. -/
theorem munches_cons {k : SpanClass} {c : Char} {t : Text} (hadmits : k.Admits (c :: t) behind)
    (hlongest : ∀ (l : SpanClass) (u more : Text), u ++ more = t ++ behind →
      l.begins (CharClass.of c) = true → l.Admits (c :: u) more → u.length ≤ t.length) :
    Munches (c :: t) behind (some k) := by
  refine ⟨hadmits, ?_⟩
  intro l other more heq hother
  obtain ⟨u, rfl, hu, hbegins⟩ := hother.of_append_eq heq
  have hle : u.length ≤ t.length := hlongest l u more hu hbegins hother
  simpa using hle

/-- A character of punctuation is munched alone. -/
theorem munches_punctuation {c : Char} {kind : TokenKind}
    (hc : CharClass.of c = .punctuation kind) : Munches [c] behind (some punctuation) := by
  refine munches_cons ⟨c, mem_of_of_eq_punctuation hc, rfl⟩ ?_
  intro l u more _ hbegins hadmits
  rw [hc] at hbegins
  cases l with
  | punctuation =>
    rw [hadmits.tail_of_punctuation]
  | _ => contradiction

/-- The first character of an operator is munched alone where no `=` follows. -/
theorem munches_operatorAlone {c : Char} {alone withEqual : TokenKind}
    (hc : CharClass.of c = .operator alone withEqual) (hstops : Stops (· == '=') behind) :
    Munches [c] behind (some operator) := by
  refine munches_cons ⟨c, mem_of_of_eq_operator hc, .inl rfl⟩ ?_
  intro l u more heq hbegins hadmits
  rw [hc] at hbegins
  cases l with
  | operator =>
    rcases hadmits.tail_of_operator with rfl | rfl
    · exact Nat.le_refl 0
    · -- the longer operator needs an equals sign in what follows
      have hequal : '=' :: more = behind := heq
      rw [← hequal] at hstops
      simp at hstops
  | _ => contradiction

/-- The first character of an operator is munched with the `=` behind it. -/
theorem munches_operatorWithEqual {c : Char} {alone withEqual : TokenKind}
    (hc : CharClass.of c = .operator alone withEqual) :
    Munches [c, '='] behind (some operator) := by
  refine munches_cons ⟨c, mem_of_of_eq_operator hc, .inr rfl⟩ ?_
  intro l u more _ hbegins hadmits
  rw [hc] at hbegins
  cases l with
  | operator =>
    rcases hadmits.tail_of_operator with rfl | rfl
    · exact Nat.zero_le 1
    · exact Nat.le_refl 1
  | _ => contradiction

/-- A slash is munched alone where no slash follows, and no star with a close mark in what is behind
it. -/
theorem munches_slash (hstops : Stops (· == '/') behind)
    (hunclosed : behind.head? = some '*' → ¬ closeMark <:+: behind) :
    Munches ['/'] behind (some punctuation) := by
  refine munches_cons ⟨'/', by simp, rfl⟩ ?_
  intro l u more heq hbegins hadmits
  have hbehind : u ++ more = behind := heq
  cases l with
  | punctuation => rw [hadmits.tail_of_punctuation]
  | lineComment =>
    -- a line comment needs a slash in what follows
    obtain ⟨body, -, hd⟩ := hadmits
    obtain ⟨-, rfl⟩ := List.cons.inj hd
    rw [← hbehind] at hstops
    simp at hstops
  | blockComment =>
    -- a block comment needs a close mark in what follows its star
    obtain ⟨body, hstar, hcloses, hd⟩ := hadmits
    obtain ⟨-, rfl⟩ := List.cons.inj hd
    have hhead : behind.head? = some '*' := by
      rw [← hbehind, List.head?_append, hstar, Option.some_or]
    have hmark : closeMark <:+: behind := by
      rw [← hbehind]
      exact hcloses.1.isInfix.trans (List.prefix_append ..).isInfix
    exact absurd hmark (hunclosed hhead)
  | _ => contradiction

/-- A line comment is munched up to the end of its line. -/
theorem munches_lineComment {body : Text} (hinside : '\n' ∉ body)
    (hstops : Stops (· ≠ '\n') behind) :
    Munches ('/' :: '/' :: body) behind (some lineComment) := by
  refine munches_cons ⟨body, hinside, rfl⟩ ?_
  intro l u more heq hbegins hadmits
  cases l with
  | punctuation =>
    rw [hadmits.tail_of_punctuation]
    exact Nat.zero_le _
  | lineComment =>
    obtain ⟨others, hothers, hd⟩ := hadmits
    obtain ⟨-, rfl⟩ := List.cons.inj hd
    have htexts : others ++ more = body ++ behind := (List.cons.inj heq).2
    have hle := length_le_of_stops (forall_ne_of_not_mem hothers) hstops htexts
    simpa using hle
  | blockComment =>
    -- what follows the first slash is a slash and no star
    obtain ⟨others, hstar, -, hd⟩ := hadmits
    obtain ⟨-, rfl⟩ := List.cons.inj hd
    obtain ⟨rest, rfl⟩ := List.head?_eq_some_iff.1 hstar
    simp at heq
  | _ => contradiction

/-- A block comment is munched up to its close mark. -/
theorem munches_blockComment {body : Text} (hstar : body.head? = some '*')
    (hcloses : ClosesAtEnd body) : Munches ('/' :: body) behind (some blockComment) := by
  refine munches_cons ⟨body, hstar, hcloses, rfl⟩ ?_
  intro l u more heq hbegins hadmits
  cases l with
  | punctuation =>
    rw [hadmits.tail_of_punctuation]
    exact Nat.zero_le _
  | lineComment =>
    -- what follows the first slash is a star and no slash
    obtain ⟨others, -, hd⟩ := hadmits
    obtain ⟨-, rfl⟩ := List.cons.inj hd
    obtain ⟨rest, rfl⟩ := List.head?_eq_some_iff.1 hstar
    simp at heq
  | blockComment =>
    -- both comments end where the search of the same text for a close mark ends
    obtain ⟨others, -, hothers, hd⟩ := hadmits
    obtain ⟨-, rfl⟩ := List.cons.inj hd
    have hend : closeEnd? (u ++ more) = some u.length := closeEnd?_append_eq_some hothers more
    have hend' : closeEnd? (body ++ behind) = some body.length :=
      closeEnd?_append_eq_some hcloses behind
    rw [heq, hend', Option.some.injEq] at hend
    exact Nat.le_of_eq hend.symm
  | _ => contradiction

/-- A character of white space is munched alone. -/
theorem munches_blank {c : Char} (hc : CharClass.of c = .blank) :
    Munches [c] behind (some blank) := by
  refine munches_cons ⟨c, mem_of_of_eq_blank hc, rfl⟩ ?_
  intro l u more _ hbegins hadmits
  rw [hc] at hbegins
  cases l with
  | blank =>
    obtain ⟨d, -, hd⟩ := hadmits
    obtain ⟨-, rfl⟩ := List.cons.inj hd
    exact Nat.le_refl 0
  | _ => contradiction

/-- A string is munched up to its second quote. -/
theorem munches_string {body : Text} (hinside : '"' ∉ body) :
    Munches ('"' :: (body ++ ['"'])) behind (some string) := by
  refine munches_cons ⟨body, hinside, rfl⟩ ?_
  intro l u more heq hbegins hadmits
  cases l with
  | string =>
    obtain ⟨others, hothers, hd⟩ := hadmits
    obtain ⟨-, rfl⟩ := List.cons.inj hd
    have hquote : Stops (· ≠ '"') ('"' :: behind) := stops_cons.2 (by simp)
    have htexts : others ++ '"' :: more = body ++ '"' :: behind := by simpa using heq
    have hle := length_le_of_stops (forall_ne_of_not_mem hothers) hquote htexts
    simpa using hle
  | openString =>
    -- there is a quote in what an open string would take
    obtain ⟨others, hothers, hd, rfl⟩ := hadmits
    obtain ⟨-, rfl⟩ := List.cons.inj hd
    have hmem : '"' ∈ u := by
      rw [List.append_nil] at heq
      simp [heq]
    exact absurd hmem hothers
  | _ => contradiction

/-- A string without a second quote is munched as far as the source goes. -/
theorem munches_openString {body : Text} (hinside : '"' ∉ body) :
    Munches ('"' :: body) [] (some openString) := by
  refine munches_cons ⟨body, hinside, rfl, rfl⟩ ?_
  intro l u more heq _ _
  -- the span takes all there is
  have hlength := congrArg List.length heq
  rw [List.length_append, List.append_nil] at hlength
  omega

/-- A run of digits that stops where a number has its point is all that is before the point. -/
theorem eq_of_point {t whole places more : Text} (hwhole : IsDigits whole) (hdigits : IsDigits t)
    (hstops : Stops Char.isDigit behind) (heq : (whole ++ '.' :: places) ++ more = t ++ behind) :
    whole = t ∧ '.' :: (places ++ more) = behind := by
  have hpoint : Stops Char.isDigit ('.' :: (places ++ more)) := stops_cons.2 rfl
  rw [List.append_assoc, List.cons_append] at heq
  exact run_unique hwhole.2 hpoint hdigits.2 hstops heq

/-- Digits are munched as a whole number where neither a digit follows, nor a point with a digit
behind it. -/
theorem munches_whole {t : Text} (hdigits : IsDigits t) (hstops : Stops Char.isDigit behind)
    (hpoint : behind.head? = some '.' → Stops Char.isDigit behind.tail) :
    Munches t behind (some number) := by
  obtain ⟨c, t, rfl⟩ := List.exists_cons_of_ne_nil hdigits.1
  have hc : c.isDigit = true := hdigits.2 c (List.mem_cons_self ..)
  refine munches_cons (.inl hdigits) ?_
  intro l u more heq hbegins hadmits
  rw [Piece.of_eq_digit hc] at hbegins
  cases l with
  | number =>
    rcases hadmits with hother | ⟨whole, places, hwhole, hplaces, hd⟩
    · exact length_le_of_stops (List.forall_mem_cons.1 hother.2).2 hstops heq
    · -- behind the same digits there would have to be a point and a digit
      have htexts : (whole ++ '.' :: places) ++ more = (c :: t) ++ behind := by
        rw [← hd, List.cons_append, heq, List.cons_append]
      obtain ⟨-, hbehind⟩ := eq_of_point hwhole hdigits hstops htexts
      obtain ⟨d, rest, rfl⟩ := List.exists_cons_of_ne_nil hplaces.1
      have hdigit : d.isDigit = true := hplaces.2 d (List.mem_cons_self ..)
      rw [← hbehind] at hpoint
      simp [hdigit] at hpoint
  | _ => contradiction

/-- Digits with a point among them are munched as a fraction where no digit follows. -/
theorem munches_fraction {t u : Text} (hdigits : IsDigits t) (hplaces : IsDigits u)
    (hstops : Stops Char.isDigit behind) : Munches (t ++ '.' :: u) behind (some number) := by
  have hnumber : number.Admits (t ++ '.' :: u) behind := .inr ⟨t, u, hdigits, hplaces, rfl⟩
  obtain ⟨c, t, rfl⟩ := List.exists_cons_of_ne_nil hdigits.1
  have hc : c.isDigit = true := hdigits.2 c (List.mem_cons_self ..)
  have hpoint : Stops Char.isDigit ('.' :: (u ++ behind)) := stops_cons.2 rfl
  show Munches (c :: (t ++ '.' :: u)) behind (some number)
  refine munches_cons hnumber ?_
  intro l v more heq hbegins hadmits
  rw [Piece.of_eq_digit hc] at hbegins
  rw [List.append_assoc, List.cons_append] at heq
  cases l with
  | number =>
    rcases hadmits with hother | ⟨whole, places, hwhole, hothers, hd⟩
    · have hle := length_le_of_stops (List.forall_mem_cons.1 hother.2).2 hpoint heq
      rw [List.length_append]
      omega
    · -- the digits before the point are the same, and those behind it go as far as they can
      have htexts : (whole ++ '.' :: places) ++ more = (c :: t) ++ '.' :: (u ++ behind) := by
        rw [← hd, List.cons_append, heq, List.cons_append]
      obtain ⟨rfl, hbehind⟩ := eq_of_point hwhole hdigits hpoint htexts
      have hv : v = t ++ '.' :: places := (List.cons.inj hd).2
      have hle := length_le_of_stops hothers.2 hstops (List.cons.inj hbehind).2
      rw [hv]
      simp only [List.length_append, List.length_cons]
      omega
  | _ => contradiction

/-- A word is munched as far as characters of words go. -/
theorem munches_word {c : Char} {t : Text} (hc : CharClass.of c = .letter)
    (hinside : ∀ d ∈ t, isWordChar d = true) (hstops : Stops isWordChar behind) :
    Munches (c :: t) behind (some word) := by
  have hword : ∀ d ∈ t, d.isAlpha ∨ d.isDigit ∨ d = '-' := by
    intro d hd
    exact isWordChar_iff.1 (hinside d hd)
  refine munches_cons ⟨c, t, Piece.isAlpha_of_of_eq_letter hc, hword, rfl⟩ ?_
  intro l u more heq hbegins hadmits
  rw [hc] at hbegins
  cases l with
  | word =>
    obtain ⟨d, v, -, hv, hd⟩ := hadmits
    obtain ⟨-, rfl⟩ := List.cons.inj hd
    have hothers : ∀ e ∈ u, isWordChar e = true := by
      intro e he
      exact isWordChar_iff.2 (hv e he)
    exact length_le_of_stops hothers hstops heq
  | _ => contradiction

/-- A character that begins nothing else is munched alone, as a span of no class. -/
theorem munches_stray {c : Char} (hc : CharClass.of c = .other) : Munches [c] behind none := by
  refine ⟨rfl, ?_⟩
  intro l other more heq hadmits
  obtain ⟨t, rfl, -, hbegins⟩ := hadmits.of_append_eq heq
  rw [hc] at hbegins
  cases l <;> contradiction

end

/-- Whether a piece of this sort yields a token. -/
def Item.yieldsToken : Item → Bool
  | .token _ _ => true
  | _ => false

/-- **A leading piece is munched**, and it yields a token just where its class does. -/
theorem Piece.Leads.munches {p : Piece} {behind : Text} (h : p.Leads behind) :
    ∃ k, Munches p.text behind k ∧ k.any SpanClass.yieldsToken = p.item.yieldsToken := by
  cases h with
  | punctuation hc => exact ⟨_, munches_punctuation hc, rfl⟩
  | operatorAlone hc hstops => exact ⟨_, munches_operatorAlone hc hstops, rfl⟩
  | operatorWithEqual hc => exact ⟨_, munches_operatorWithEqual hc, rfl⟩
  | slash hstops hunclosed => exact ⟨_, munches_slash hstops hunclosed, rfl⟩
  | lineComment hinside hstops => exact ⟨_, munches_lineComment hinside hstops, rfl⟩
  | blockComment hstar hcloses => exact ⟨_, munches_blockComment hstar hcloses, rfl⟩
  | blank hc => exact ⟨_, munches_blank hc, rfl⟩
  | string hinside => exact ⟨_, munches_string hinside, rfl⟩
  | openString hinside => exact ⟨_, munches_openString hinside, rfl⟩
  | whole hdigits hstops hpoint => exact ⟨_, munches_whole hdigits hstops hpoint, rfl⟩
  | fraction hdigits hplaces hstops => exact ⟨_, munches_fraction hdigits hplaces hstops, rfl⟩
  | word hc hinside hstops => exact ⟨_, munches_word hc hinside hstops, rfl⟩
  | stray hc => exact ⟨_, munches_stray hc, rfl⟩

/-! ### What a scan divides a source into -/

/-- No punctuation is the end of input. -/
theorem kind_ne_endOfInput_of_punctuation {c : Char} {kind : TokenKind}
    (h : CharClass.of c = .punctuation kind) : kind ≠ .endOfInput := by
  rintro rfl
  unfold CharClass.of at h
  split at h <;> grind

/-- No operator is the end of input. -/
theorem kinds_ne_endOfInput_of_operator {c : Char} {alone withEqual : TokenKind}
    (h : CharClass.of c = .operator alone withEqual) :
    alone ≠ .endOfInput ∧ withEqual ≠ .endOfInput := by
  unfold CharClass.of at h
  split at h <;> grind

/-- No piece is the end of input. -/
theorem kind_ne_endOfInput_of_leads {p : Piece} {behind : Text} {kind : TokenKind}
    {literal : Literal} (h : p.Leads behind) (hitem : p.item = .token kind literal) :
    kind ≠ .endOfInput := by
  cases h with
  | punctuation hc =>
    obtain ⟨rfl, -⟩ := Item.token.inj hitem
    exact kind_ne_endOfInput_of_punctuation hc
  | operatorAlone hc =>
    obtain ⟨rfl, -⟩ := Item.token.inj hitem
    exact (kinds_ne_endOfInput_of_operator hc).1
  | operatorWithEqual hc =>
    obtain ⟨rfl, -⟩ := Item.token.inj hitem
    exact (kinds_ne_endOfInput_of_operator hc).2
  | word =>
    obtain ⟨rfl, -⟩ := Item.token.inj hitem
    unfold Piece.wordKind
    split <;> simp
  | slash | string | whole | fraction =>
    obtain ⟨rfl, -⟩ := Item.token.inj hitem
    simp
  | _ => simp at hitem

/-- The token of a step is of a kind of its own: the end of input is no step's. -/
theorem kind_ne_endOfInput {source : Text} {s : Step} (hs : s ∈ (scan source).steps) {t : Token}
    (ht : s.token? = some t) : t.kind ≠ .endOfInput := by
  obtain ⟨done, more, hsteps⟩ := List.append_of_mem hs
  obtain ⟨-, -, -, hleads⟩ := of_steps_scan_eq hsteps
  unfold Step.token? at ht
  split at ht
  next kind literal hitem =>
    rw [← Option.some.inj ht]
    exact kind_ne_endOfInput_of_leads hleads hitem
  · contradiction

/-- A piece yields its text as the lexeme of a token, or no token. -/
theorem map_lexeme_token? (offset line : Nat) (p : Piece) :
    (Step.token? ⟨offset, line, p⟩).map Token.lexeme =
      if p.item.yieldsToken then some p.text else none := by
  obtain ⟨item, text, barren⟩ := p
  cases item <;> rfl

/-- Consecutive pieces are what maximal munch divides their text into. -/
theorem Consecutive.exists_munched {ps : List Piece} (h : Consecutive ps) (offset line : Nat) :
    ∃ spans, Munched (joined ps) spans ∧ spans.map Prod.snd = ps.map Piece.text ∧
      ((placed offset line ps).filterMap Step.token?).map Token.lexeme =
        (spans.filter fun span => span.1.any SpanClass.yieldsToken).map Prod.snd := by
  induction ps generalizing offset line with
  | nil => exact ⟨[], .nil, rfl, rfl⟩
  | cons p ps ih =>
    obtain ⟨k, hk, hyields⟩ := h.1.munches
    obtain ⟨spans, hspans, htexts, hlexemes⟩ :=
      ih h.2 (offset + utf8Length p.text) (line + newlines p.text)
    refine ⟨(k, p.text) :: spans, .cons hk hspans, by simp [htexts], ?_⟩
    -- The first span yields the token of the first piece, the others those of the others.
    have hfirst := map_lexeme_token? offset line p
    rw [← hyields] at hfirst
    rw [placed_cons, List.filterMap_cons, List.filter_cons]
    cases htoken : Step.token? ⟨offset, line, p⟩ with
    | none =>
      rw [htoken] at hfirst
      split at hfirst
      · contradiction
      next hno => simp [hno, hlexemes]
    | some t =>
      rw [htoken] at hfirst
      split at hfirst
      next hyes => simp [hyes, hlexemes, Option.some.inj hfirst]
      · contradiction

/-- The tokens of a source but for the end of input are those of the steps. -/
theorem filter_tokens_scan_eq (source : Text) :
    (scan source).tokens.filter (·.kind ≠ .endOfInput) =
      (scan source).steps.filterMap Step.token? := by
  rw [Scan.tokens, List.filter_append, List.filter_eq_self.2]
  · simp [Token.endOfInput]
  · intro t ht
    obtain ⟨s, hs, hst⟩ := List.mem_filterMap.1 ht
    simpa using kind_ne_endOfInput hs hst

/-- The tokens of a source but for the end of input are those of its pieces. -/
theorem filter_tokens_scan (source : Text) :
    (scan source).tokens.filter (·.kind ≠ .endOfInput) =
      (placed 0 1 (pieces source)).filterMap Step.token? := by
  rw [filter_tokens_scan_eq, ← map_unmarked_steps_scan, filterMap_token?_map_unmarked]

/-- **Maximal munch.** A source is divided by maximal munch in one way, and the steps of its scan
take these spans, none of which is empty, one behind the other and in order, with nothing of the
source left out. The tokens but for the end of input are the spans of the classes that yield one,
each once and in order. -/
theorem munched_scan (source : Text) :
    ∃ spans, (∀ others, Munched source others ↔ others = spans) ∧
      spans.map Prod.snd = (scan source).steps.map (fun s => s.piece.text) ∧
      (∀ span ∈ spans, span.2 ≠ []) ∧ (spans.map Prod.snd).flatten = source ∧
      (∀ done s more, (scan source).steps = done ++ s :: more →
        s.offset = utf8Length (passed done)) ∧
      ((scan source).tokens.filter (·.kind ≠ .endOfInput)).map Token.lexeme =
        (spans.filter fun span => span.1.any SpanClass.yieldsToken).map Prod.snd := by
  obtain ⟨spans, hspans, htexts, hlexemes⟩ := (consecutive_pieces source).exists_munched 0 1
  rw [joined_pieces] at hspans
  have hsteps :
      (scan source).steps.map (fun s => s.piece.text) = (pieces source).map Piece.text := by
    rw [← map_piece_placed 0 1 (pieces source), ← map_unmarked_steps_scan, List.map_map,
      List.map_map]
    rfl
  refine ⟨spans, ?_, htexts.trans hsteps.symm, ?_, ?_, ?_, ?_⟩
  · intro others
    constructor
    · intro hothers
      exact hothers.unique hspans
    · rintro rfl
      exact hspans
  · exact hspans.ne_nil
  · rw [htexts, ← List.flatMap_def]
    exact joined_pieces source
  · intro done s more h
    obtain ⟨-, hoffset, -, -⟩ := of_steps_scan_eq h
    exact hoffset
  · rw [filter_tokens_scan, hlexemes]

end LoxLex
