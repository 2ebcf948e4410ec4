import LoxLex.Piece.Lemmas
import LoxLex.Proofs.Piece.Leads

/-! # The piece at the front

`Piece.front` takes the leading piece off a text: what it takes leads the text it leaves
(`leads_front`), and whatever leads a text is what it takes (`front_of_leads`). So the rules of
`Piece.Leads` and the function say the same, and the rules leave no choice. -/

namespace LoxLex

/-! ### Numerals -/

/-- Digits are read as a numeral without places. -/
theorem ofText?_of_isDigits {t : Text} (h : IsDigits t) :
    Numeral.ofText? t = some ⟨digitsValue t, 0⟩ := by
  have htake : t.takeWhile Char.isDigit = t := by
    simpa using takeWhile_append_of_stops h.2 stops_nil
  have hdrop : t.dropWhile Char.isDigit = [] := by
    simpa using dropWhile_append_of_stops h.2 stops_nil
  simp [Numeral.ofText?, htake, hdrop, h.1]

/-- Digits with a point among them are read as the numeral of all these digits, with a place for
each digit behind the point. -/
theorem ofText?_of_isDigits_point {t u : Text} (ht : IsDigits t) (hu : IsDigits u) :
    Numeral.ofText? (t ++ '.' :: u) = some ⟨digitsValue (t ++ u), u.length⟩ := by
  have hpoint : Stops Char.isDigit ('.' :: u) := stops_cons.2 rfl
  have hall : u.all Char.isDigit = true := List.all_eq_true.2 hu.2
  simp [Numeral.ofText?, takeWhile_append_of_stops ht.2 hpoint,
    dropWhile_append_of_stops ht.2 hpoint, ht.1, hu.1, hall]

/-- A run that begins with a digit is not empty. -/
theorem isDigits_takeWhile {c : Char} (h : c.isDigit = true) (rest : Text) :
    IsDigits ((c :: rest).takeWhile Char.isDigit) :=
  ⟨Piece.takeWhile_cons_ne_nil h, fun _ hd => List.mem_takeWhile_imp hd⟩

/-- What begins with digits begins with a digit. -/
theorem IsDigits.isDigit_of_append_eq_cons {t behind rest : Text} {c : Char} (h : IsDigits t)
    (heq : t ++ behind = c :: rest) : c.isDigit = true := by
  obtain ⟨d, more, rfl⟩ := List.exists_cons_of_ne_nil h.1
  obtain ⟨rfl, -⟩ := List.cons.inj heq
  exact h.2 d (List.mem_cons_self ..)

namespace Piece

/-! ### What is taken leads -/

/-- An operator that is taken leads what is left. -/
theorem leads_operator {c : Char} {alone withEqual : TokenKind}
    (hc : CharClass.of c = .operator alone withEqual) (rest : Text) :
    (operator alone withEqual c rest).1.unmarked.Leads (operator alone withEqual c rest).2 := by
  unfold operator
  split
  · exact .operatorWithEqual hc
  next hne => exact .operatorAlone hc (stops_of_forall_ne hne)

/-- What is taken behind a slash leads what is left, if no comment that closes goes unsearched. -/
theorem leads_slash {search : Bool} {rest : Text}
    (h : search = false → rest.head? = some '*' → ¬ closeMark <:+: rest) :
    (slash search rest).1.unmarked.Leads (slash search rest).2 := by
  unfold slash
  split
  next rest =>
    have htake : ('/' :: rest).takeWhile (· ≠ '\n') = '/' :: rest.takeWhile (· ≠ '\n') := by simp
    have hinside : '\n' ∉ rest.takeWhile (· ≠ '\n') := by
      intro hin
      simpa using List.mem_takeWhile_imp hin
    rw [htake]
    exact .lineComment hinside (stops_dropWhile _ _)
  next rest =>
    have hslash : Stops (· == '/') ('*' :: rest) := stops_cons.2 rfl
    split
    · split
      next n hn =>
        -- The comment is not empty, so its first character is that of the text.
        have hcloses : ClosesAtEnd (('*' :: rest).take n) := closesAtEnd_of_closeEnd?_eq_some hn
        have hstar : (('*' :: rest).take n).head? = some '*' := by
          cases n with
          | zero => simp [ClosesAtEnd, closeMark] at hcloses
          | succ n => simp
        exact .blockComment hstar hcloses
      next hnone => exact .slash hslash fun _ => closeEnd?_eq_none_iff.1 hnone
    next hsearch =>
      -- No search was made: it is known that there is no close mark.
      have hfalse : search = false := by simpa using hsearch
      exact .slash hslash (h hfalse)
  next hline hblock =>
    refine .slash (stops_of_forall_ne hline) ?_
    intro hstar
    obtain ⟨behind, rfl⟩ := List.head?_eq_some_iff.1 hstar
    exact absurd rfl (hblock behind)

/-- A string that is taken, closed or not, leads what is left. -/
theorem leads_string (rest : Text) : (string rest).1.unmarked.Leads (string rest).2 := by
  have hinside : '"' ∉ rest.takeWhile (· ≠ '"') := by
    intro hin
    simpa using List.mem_takeWhile_imp hin
  unfold string
  split
  next hnil =>
    -- No quote follows: the string takes all there is.
    have hall : rest.takeWhile (· ≠ '"') = rest := by
      have hsplit := List.takeWhile_append_dropWhile (p := (· ≠ '"')) (l := rest)
      rwa [hnil, List.append_nil] at hsplit
    rw [hall] at hinside
    exact .openString hinside
  next => exact .string hinside

/-- A number that is taken leads what is left. -/
theorem leads_number {c : Char} (hc : c.isDigit = true) (rest : Text) :
    (number (c :: rest)).1.unmarked.Leads (number (c :: rest)).2 := by
  have hdigits := isDigits_takeWhile hc rest
  have hstops := stops_dropWhile Char.isDigit (c :: rest)
  unfold number
  split
  next behind heq =>
    rw [heq] at hstops
    split
    next hany =>
      -- A point with a digit behind it: the run behind the point is not empty.
      obtain ⟨d, hd, hdigit⟩ := (Option.any_eq_true ..).1 hany
      obtain ⟨more, rfl⟩ := List.head?_eq_some_iff.1 hd
      have hplaces := isDigits_takeWhile hdigit more
      rw [numeral, ofText?_of_isDigits_point hdigits hplaces]
      exact .fraction hdigits hplaces (stops_dropWhile _ _)
    next hany =>
      rw [numeral, ofText?_of_isDigits hdigits]
      refine .whole hdigits hstops ?_
      intro _ d hd
      have hd' : behind.head? = some d := Option.mem_def.1 hd
      simpa [hd'] using hany
  next hne =>
    rw [numeral, ofText?_of_isDigits hdigits]
    refine .whole hdigits hstops ?_
    intro hpoint
    obtain ⟨behind, heq⟩ := List.head?_eq_some_iff.1 hpoint
    exact absurd heq (hne behind)

/-- A word that is taken leads what is left. -/
theorem leads_word {c : Char} (hc : CharClass.of c = .letter) (rest : Text) :
    (word (c :: rest)).1.unmarked.Leads (word (c :: rest)).2 := by
  have hword : isWordChar c = true := by simp [isWordChar, isAlpha_of_of_eq_letter hc]
  have hinside : ∀ d ∈ rest.takeWhile isWordChar, isWordChar d = true := by
    intro d hd
    exact List.mem_takeWhile_imp hd
  simp only [word, List.takeWhile_cons, List.dropWhile_cons, hword, if_true]
  exact .word hc hinside (stops_dropWhile _ _)

/-- **What is taken leads what is left.** If a comment is not searched for its end, there must be
none. -/
theorem leads_front {search : Bool} {c : Char} {rest : Text}
    (h : search = false → c = '/' → rest.head? = some '*' → ¬ closeMark <:+: rest) :
    (front search c rest).1.unmarked.Leads (front search c rest).2 := by
  unfold front
  split
  next kind hc => exact .punctuation hc
  next hc => exact leads_operator hc rest
  next hc => exact leads_slash fun hsearch => h hsearch (eq_of_of_eq_slash hc)
  next hc => exact .blank hc
  next hc => exact leads_string rest
  next hc => exact leads_number (isDigit_of_of_eq_digit hc) rest
  next hc => exact leads_word hc rest
  next hc => exact .stray hc

/-! ### What leads is taken -/

variable {p : Piece} {behind : Text}

/-- A slash that begins no comment is taken alone, and only a search leaves a mark. -/
theorem slash_of_leads (hstops : Stops (· == '/') behind)
    (hunclosed : behind.head? = some '*' → ¬ closeMark <:+: behind) :
    (slash true behind).1.unmarked = { item := .token .slash .absent, text := ['/'] } ∧
      (slash true behind).2 = behind := by
  unfold slash
  split
  · simp at hstops
  next rest => simp [closeEnd?_eq_none_iff.2 (hunclosed rfl), unmarked]
  next => simp [single, unmarked]

/-- A line comment is taken up to the end of its line: `'/' :: '/' :: body`. -/
theorem slash_of_not_mem {body : Text} (hinside : '\n' ∉ body)
    (hstops : Stops (· ≠ '\n') behind) :
    slash true ('/' :: (body ++ behind)) =
      ({ item := .lineComment, text := '/' :: '/' :: body }, behind) := by
  have hbody : ∀ d ∈ '/' :: body, decide (d ≠ '\n') = true :=
    List.forall_mem_cons.2 ⟨by decide, forall_ne_of_not_mem hinside⟩
  show (Piece.mk .lineComment ('/' :: ('/' :: body ++ behind).takeWhile (· ≠ '\n')) false,
    ('/' :: body ++ behind).dropWhile (· ≠ '\n')) = _
  rw [takeWhile_append_of_stops hbody hstops, dropWhile_append_of_stops hbody hstops]

/-- A block comment is taken up to its close mark, whatever stands behind it. -/
theorem slash_of_closesAtEnd {body : Text} (hstar : body.head? = some '*')
    (hcloses : ClosesAtEnd body) (behind : Text) :
    slash true (body ++ behind) = ({ item := .blockComment, text := '/' :: body }, behind) := by
  obtain ⟨rest, rfl⟩ := List.head?_eq_some_iff.1 hstar
  have hend := closeEnd?_append_eq_some hcloses behind
  rw [List.cons_append] at hend ⊢
  simp only [slash, if_true, hend]
  rw [← List.cons_append, List.take_left, List.drop_left]

/-- A string is taken up to its second quote, with the text between the quotes as its value. -/
theorem string_of_not_mem {body : Text} (hinside : '"' ∉ body) (behind : Text) :
    string (body ++ '"' :: behind) =
      ({ item := .token .string (.text body), text := '"' :: (body ++ ['"']) }, behind) := by
  have hbody := forall_ne_of_not_mem hinside
  have hquote : Stops (· ≠ '"') ('"' :: behind) := stops_cons.2 (by simp)
  simp only [string, takeWhile_append_of_stops hbody hquote,
    dropWhile_append_of_stops hbody hquote]

/-- A string without a second quote is taken as far as the source goes. -/
theorem openString_of_not_mem {body : Text} (hinside : '"' ∉ body) :
    string body = ({ item := .openString, text := '"' :: body }, []) := by
  have hdrop : body.dropWhile (· ≠ '"') = [] := by
    simpa using dropWhile_append_of_stops (forall_ne_of_not_mem hinside) stops_nil
  simp only [string, hdrop]

/-- Digits are taken as a whole number where neither a digit follows, nor a point with a digit
behind it. -/
theorem number_of_whole {t : Text} (hdigits : IsDigits t) (hstops : Stops Char.isDigit behind)
    (hpoint : behind.head? = some '.' → Stops Char.isDigit behind.tail) :
    number (t ++ behind) =
      ({ item := .token .number (.number (Numeral.value ⟨digitsValue t, 0⟩)), text := t },
        behind) := by
  simp only [number, takeWhile_append_of_stops hdigits.2 hstops,
    dropWhile_append_of_stops hdigits.2 hstops]
  split
  next more =>
    have hnone : more.head?.any Char.isDigit = false := by
      cases hd : more.head? with
      | none => rfl
      | some d => exact hpoint rfl d hd
    rw [hnone, if_neg Bool.false_ne_true, numeral, ofText?_of_isDigits hdigits]
  next => rw [numeral, ofText?_of_isDigits hdigits]

/-- Digits with a point among them are taken as a fraction where no digit follows. -/
theorem number_of_fraction {t u : Text} (hdigits : IsDigits t) (hplaces : IsDigits u)
    (hstops : Stops Char.isDigit behind) :
    number (t ++ '.' :: (u ++ behind)) =
      ({ item := .token .number (.number (Numeral.value ⟨digitsValue (t ++ u), u.length⟩)),
         text := t ++ '.' :: u }, behind) := by
  have hpoint : Stops Char.isDigit ('.' :: (u ++ behind)) := stops_cons.2 rfl
  have hany : (u ++ behind).head?.any Char.isDigit = true := by
    obtain ⟨d, more, rfl⟩ := List.exists_cons_of_ne_nil hplaces.1
    exact hplaces.2 d (List.mem_cons_self ..)
  simp only [number, takeWhile_append_of_stops hdigits.2 hpoint,
    dropWhile_append_of_stops hdigits.2 hpoint, hany, if_true,
    takeWhile_append_of_stops hplaces.2 hstops, dropWhile_append_of_stops hplaces.2 hstops,
    numeral, ofText?_of_isDigits_point hdigits hplaces]

/-- A word is taken as far as characters of words go. -/
theorem word_of_stops {c : Char} {t : Text} (hc : CharClass.of c = .letter)
    (hinside : ∀ d ∈ t, isWordChar d = true) (hstops : Stops isWordChar behind) :
    word (c :: (t ++ behind)) =
      ({ item := .token (wordKind (c :: t)) .absent, text := c :: t }, behind) := by
  have hword : isWordChar c = true := by simp [isWordChar, isAlpha_of_of_eq_letter hc]
  have hall : ∀ d ∈ c :: t, isWordChar d = true := List.forall_mem_cons.2 ⟨hword, hinside⟩
  rw [← List.cons_append]
  simp only [word, takeWhile_append_of_stops hall hstops, dropWhile_append_of_stops hall hstops]

/-- The class of a decimal digit is `digit`. -/
theorem of_eq_digit {c : Char} (h : c.isDigit = true) : CharClass.of c = .digit := by
  unfold CharClass.of
  split <;> first | exact absurd h (by decide) | exact if_pos h

/-- Letters come behind the digits, so no letter is one. -/
theorem isDigit_eq_false_of_isAlpha {c : Char} (h : c.isAlpha = true) : c.isDigit = false := by
  have hletter : 65 ≤ c.toNat := by
    rcases Bool.or_eq_true_iff.1 h with hupper | hlower
    · have hle : 'A'.val ≤ c.val := (of_decide_eq_true hupper).1
      exact UInt32.le_iff_toNat_le.1 hle
    · have hle : 'a'.val ≤ c.val := of_decide_eq_true (Bool.and_eq_true_iff.1 hlower).1
      exact Nat.le_trans (by decide) (UInt32.le_iff_toNat_le.1 hle)
  cases hdigit : c.isDigit with
  | false => rfl
  | true =>
    have hle : c.val ≤ '9'.val := of_decide_eq_true (Bool.and_eq_true_iff.1 hdigit).2
    have hnine : c.toNat ≤ 57 := UInt32.le_iff_toNat_le.1 hle
    omega

/-- The class of a letter is `letter`. -/
theorem of_eq_letter {c : Char} (h : c.isAlpha = true) : CharClass.of c = .letter := by
  have hdigit : c.isDigit = false := isDigit_eq_false_of_isAlpha h
  unfold CharClass.of
  split <;> first | exact absurd h (by decide) | simp [h, hdigit]

/-- The first character of a text and what follows it, read off both sides. -/
theorem cons_append_inj {a c : Char} {t rest : Text} (h : (a :: t) ++ behind = c :: rest) :
    a = c ∧ t ++ behind = rest :=
  List.cons.inj h

/-- What begins with a slash is taken by `slash`. -/
@[simp] theorem front_slash (search : Bool) (rest : Text) :
    front search '/' rest = slash search rest := rfl

/-- What begins with a quote is taken by `string`. -/
@[simp] theorem front_quote (search : Bool) (rest : Text) :
    front search '"' rest = string rest := rfl

/-- **What leads a text is what is taken off it.** -/
theorem front_of_leads {c : Char} {rest : Text} (h : p.Leads behind)
    (heq : p.text ++ behind = c :: rest) :
    (front true c rest).1.unmarked = p ∧ (front true c rest).2 = behind := by
  -- One rule after the other: the text tells the first character, and that the function to call.
  cases h with
  | punctuation hc =>
    obtain ⟨rfl, rfl⟩ := cons_append_inj heq
    simp [front, hc, single, unmarked]
  | operatorAlone hc hstops =>
    obtain ⟨rfl, rfl⟩ := cons_append_inj heq
    simp only [front, hc, operator, List.nil_append]
    split
    · -- no equals sign follows
      simp at hstops
    · simp [single, unmarked]
  | operatorWithEqual hc =>
    obtain ⟨rfl, rfl⟩ := cons_append_inj heq
    simp [front, hc, operator, unmarked]
  | slash hstops hunclosed =>
    obtain ⟨rfl, rfl⟩ := cons_append_inj heq
    exact slash_of_leads hstops hunclosed
  | lineComment hinside hstops =>
    obtain ⟨rfl, rfl⟩ := cons_append_inj heq
    rw [front_slash, List.cons_append, slash_of_not_mem hinside hstops]
    exact ⟨rfl, rfl⟩
  | blockComment hstar hcloses =>
    obtain ⟨rfl, rfl⟩ := cons_append_inj heq
    rw [front_slash, slash_of_closesAtEnd hstar hcloses]
    exact ⟨rfl, rfl⟩
  | blank hc =>
    obtain ⟨rfl, rfl⟩ := cons_append_inj heq
    simp [front, hc, unmarked]
  | string hinside =>
    obtain ⟨rfl, rfl⟩ := cons_append_inj heq
    rw [front_quote, List.append_assoc, List.singleton_append, string_of_not_mem hinside]
    exact ⟨rfl, rfl⟩
  | openString hinside =>
    obtain ⟨rfl, rfl⟩ := cons_append_inj heq
    rw [front_quote, List.append_nil, openString_of_not_mem hinside]
    exact ⟨rfl, rfl⟩
  | whole hdigits hstops hpoint =>
    have hc : c.isDigit = true := hdigits.isDigit_of_append_eq_cons heq
    simp only [front, of_eq_digit hc, ← heq]
    rw [number_of_whole hdigits hstops hpoint]
    exact ⟨rfl, rfl⟩
  | fraction hdigits hplaces hstops =>
    rw [List.append_assoc] at heq
    have hc : c.isDigit = true := hdigits.isDigit_of_append_eq_cons heq
    simp only [front, of_eq_digit hc, ← heq]
    rw [List.cons_append, number_of_fraction hdigits hplaces hstops]
    exact ⟨rfl, rfl⟩
  | word hc hinside hstops =>
    obtain ⟨rfl, rfl⟩ := cons_append_inj heq
    simp only [front, hc]
    rw [word_of_stops hc hinside hstops]
    exact ⟨rfl, rfl⟩
  | stray hc =>
    obtain ⟨rfl, rfl⟩ := cons_append_inj heq
    simp [front, hc, unmarked]

/-- **A text has one leading piece.** -/
theorem Leads.unique {q : Piece} {more : Text} (hp : p.Leads behind) (hq : q.Leads more)
    (heq : p.text ++ behind = q.text ++ more) : p = q ∧ behind = more := by
  obtain ⟨c, rest, hcons⟩ :=
    List.exists_cons_of_ne_nil (List.append_ne_nil_of_left_ne_nil hp.text_ne_nil behind)
  obtain ⟨hpiece, hbehind⟩ := front_of_leads hp hcons
  obtain ⟨hpiece', hbehind'⟩ := front_of_leads hq (heq.symm.trans hcons)
  exact ⟨hpiece.symm.trans hpiece', hbehind.symm.trans hbehind'⟩

end Piece

end LoxLex
